import ScaleCodec.Compact

/-!
# The compact format

`compactBytes n` is the format in the abstract : one, two or four bytes that carry the mode in
their two low bits, or a header byte and the least number of bytes that hold `n`. Every width
encodes to it (`compactEncode_encode`), and every width's decoder accepts it and nothing else
(`decodes_compactDecode`). No arithmetic of the decoders overflows and no `unreachable!()` is
reached, whatever the input (`obeys_compactDecode`).
-/

namespace ScaleCodec

/-- The compact encoding of `n`. -/
def compactBytes (n : ℕ) : List Byte :=
  if n < 2 ^ 6 then leBytes 1 (4 * n)
  else if n < 2 ^ 14 then leBytes 2 (4 * n + 1)
  else if n < 2 ^ 30 then leBytes 4 (4 * n + 2)
  else BitVec.ofNat 8 (4 * (bytesNeeded n - 4) + 3) :: leBytes (bytesNeeded n) n

/-! ## Encoding -/

theorem toNat_shiftLeft_or {m : ℕ} {y t : BitVec m} (hy : 4 * y.toNat < 2 ^ m)
    (ht : t.toNat < 4) : ((y <<< 2) ||| t).toNat = 4 * y.toNat + t.toNat := by
  have hshift : y.toNat <<< 2 = 4 * y.toNat := by
    rw [Nat.shiftLeft_eq]
    omega
  rw [BitVec.toNat_or, BitVec.toNat_shiftLeft, Nat.mod_eq_of_lt (by rwa [hshift]),
    ← Nat.shiftLeft_add_eq_or_of_lt ht, hshift]

theorem written_primEncodeTo (p : Prim) (x : p.Val) :
    written <$> (primEncode p).encodeTo x = .ok (leBytes p.size x.toNat) := by
  rw [(primEncode_lawful p).encodeTo, primEncode_encode]
  rfl

/-- The two-byte mode. -/
theorem written_u16EncodeTo {y : BitVec 16} {n : ℕ} (hy : y.toNat = n) (hn : n < 2 ^ 14) :
    written <$> u16EncodeTo ((y <<< 2) ||| 0b01) = .ok (leBytes 2 (4 * n + 1)) := by
  have h : ((y <<< 2) ||| 0b01).toNat = 4 * n + 1 := by
    rw [toNat_shiftLeft_or (by omega) (by decide), hy]
    rfl
  exact (written_primEncodeTo .u16 _).trans (congrArg (fun v => Except.ok (leBytes 2 v)) h)

/-- The four-byte mode. -/
theorem written_u32EncodeTo {y : BitVec 32} {n : ℕ} (hy : y.toNat = n) (hn : n < 2 ^ 30) :
    written <$> u32EncodeTo ((y <<< 2) ||| 0b10) = .ok (leBytes 4 (4 * n + 2)) := by
  have h : ((y <<< 2) ||| 0b10).toNat = 4 * n + 2 := by
    rw [toNat_shiftLeft_or (by omega) (by decide), hy]
    rfl
  exact (written_primEncodeTo .u32 _).trans (congrArg (fun v => Except.ok (leBytes 4 v)) h)

theorem written_pushByte_shift {y : Byte} {n : ℕ} (hy : y.toNat = n) :
    written [.pushByte (y <<< 2)] = leBytes 1 (4 * n) := by
  rw [written_pushByte_cons, written_nil, leBytes, leBytes]
  congr 1
  apply BitVec.eq_of_toNat_eq
  rw [BitVec.toNat_shiftLeft, BitVec.toNat_ofNat, Nat.shiftLeft_eq, hy]
  omega

/-- The number of bytes the encoder computes from the leading zeros. -/
theorem sub_leadingZeros_div {size : ℕ} (x : BitVec (8 * size)) (hx : x.toNat ≠ 0) :
    size - leadingZeros x / 8 = bytesNeeded x.toNat := by
  have hlt := x.isLt
  have hlog : Nat.log2 x.toNat < 8 * size := (Nat.log2_lt hx).mpr hlt
  have hlo : 2 ^ Nat.log2 x.toNat ≤ x.toNat := Nat.log2_self_le hx
  have hhi : x.toNat < 2 ^ (Nat.log2 x.toNat + 1) := Nat.lt_log2_self
  have h1 : 256 ^ (Nat.log2 x.toNat / 8) ≤ x.toNat := by
    refine le_trans ?_ hlo
    rw [show (256 : ℕ) = 2 ^ 8 by norm_num, ← pow_mul]
    exact Nat.pow_le_pow_right (by norm_num) (by omega)
  have h2 : x.toNat < 256 ^ (Nat.log2 x.toNat / 8 + 1) := by
    refine lt_of_lt_of_le hhi ?_
    rw [show (256 : ℕ) = 2 ^ 8 by norm_num, ← pow_mul]
    exact Nat.pow_le_pow_right (by norm_num) (by omega)
  rw [bytesNeeded_eq h1 h2, leadingZeros, if_neg hx]
  omega

theorem written_pushLowBytes {m : ℕ} :
    ∀ (n : ℕ) (x : BitVec m), written (pushLowBytes n x).1 = leBytes n x.toNat ∧
      (pushLowBytes n x).2.toNat = x.toNat / 256 ^ n
  | 0, x => by simp [pushLowBytes, leBytes]
  | n + 1, x => by
    have hshift : (x >>> 8).toNat = x.toNat / 256 := by
      rw [BitVec.toNat_ushiftRight, Nat.shiftRight_eq_div_pow]
    obtain ⟨hw, hv⟩ := written_pushLowBytes n (x >>> 8)
    rw [hshift] at hw hv
    refine ⟨?_, ?_⟩
    · show written (.pushByte _ :: (pushLowBytes n (x >>> 8)).1) = _
      rw [written_pushByte_cons, hw, leBytes]
      congr 1
      apply BitVec.eq_of_toNat_eq
      rw [BitVec.toNat_setWidth, BitVec.toNat_ofNat]
    · show (pushLowBytes n (x >>> 8)).2.toNat = _
      rw [hv, Nat.div_div_eq_div_mul, pow_succ, mul_comm]

/-- From `2^30` on an integer takes at least four bytes, and no more than its type. -/
theorem bytesNeeded_bounds {size : ℕ} (x : BitVec (8 * size)) (hx : 2 ^ 30 ≤ x.toNat) :
    4 ≤ bytesNeeded x.toNat ∧ bytesNeeded x.toNat ≤ size := by
  refine ⟨pow_le_iff_lt_bytesNeeded.mp (by omega), lt_pow_iff_bytesNeeded_le.mp ?_⟩
  have hlt := x.isLt
  rwa [pow_mul] at hlt

theorem bytesNeeded_u32 (x : BitVec 32) (hx : 2 ^ 30 ≤ x.toNat) : bytesNeeded x.toNat = 4 :=
  bytesNeeded_eq (n := 3) (by omega) x.isLt

/-- Nothing is left of an integer after its bytes. -/
theorem pushLowBytes_bytesNeeded {m : ℕ} (x : BitVec m) :
    (pushLowBytes (bytesNeeded x.toNat) x).2 = 0 := by
  apply BitVec.eq_of_toNat_eq
  rw [(written_pushLowBytes _ x).2, Nat.div_eq_of_lt (lt_pow_bytesNeeded _)]
  simp

/-- The big-integer mode : its assertions hold, and its header does not overflow. -/
theorem written_compactBigEncodeTo {size : ℕ} (hsize : size ≤ 16) (x : BitVec (8 * size))
    (hx : 2 ^ 30 ≤ x.toNat) : written <$> compactBigEncodeTo size x =
      .ok (BitVec.ofNat 8 (4 * (bytesNeeded x.toNat - 4) + 3) ::
        leBytes (bytesNeeded x.toNat) x.toNat) := by
  obtain ⟨hlo, hhi⟩ := bytesNeeded_bounds x hx
  have hshift : (bytesNeeded x.toNat - 4) <<< 2 % 256 = 4 * (bytesNeeded x.toNat - 4) := by
    rw [Nat.shiftLeft_eq]
    omega
  unfold compactBigEncodeTo
  simp only [sub_leadingZeros_div x (by omega), hshift]
  rw [if_neg (by omega), if_neg (by omega), if_neg (by simp [pushLowBytes_bytesNeeded])]
  show Except.ok (written (.pushByte _ :: _)) = _
  rw [written_pushByte_cons, (written_pushLowBytes _ x).1, Nat.add_comm]

/-- The arms that `u32`, `u64` and `u128` share. -/
theorem written_compactWideEncodeTo {m : ℕ} {big : BitVec m → Except Halt (List Write)}
    (x : BitVec m) (hbig : 2 ^ 30 ≤ x.toNat → written <$> big x =
      .ok (BitVec.ofNat 8 (4 * (bytesNeeded x.toNat - 4) + 3) ::
        leBytes (bytesNeeded x.toNat) x.toNat)) :
    written <$> compactWideEncodeTo big x = .ok (compactBytes x.toNat) := by
  unfold compactWideEncodeTo compactBytes
  split_ifs <;> try omega
  · exact congrArg Except.ok (written_pushByte_shift (by
      rw [BitVec.toNat_setWidth, Nat.mod_eq_of_lt (by omega)]))
  · exact written_u16EncodeTo (by rw [BitVec.toNat_setWidth, Nat.mod_eq_of_lt (by omega)])
      (by omega)
  · exact written_u32EncodeTo (by rw [BitVec.toNat_setWidth, Nat.mod_eq_of_lt (by omega)])
      (by omega)
  · exact hbig (by omega)

theorem written_compactU8EncodeTo (x : BitVec 8) :
    written <$> compactU8EncodeTo x = .ok (compactBytes x.toNat) := by
  have hx := x.isLt
  unfold compactU8EncodeTo compactBytes
  split_ifs <;> try omega
  · exact congrArg Except.ok (written_pushByte_shift rfl)
  · exact written_u16EncodeTo (by rw [BitVec.toNat_setWidth, Nat.mod_eq_of_lt (by omega)])
      (by omega)

theorem written_compactU16EncodeTo (x : BitVec 16) :
    written <$> compactU16EncodeTo x = .ok (compactBytes x.toNat) := by
  have hx := x.isLt
  unfold compactU16EncodeTo compactBytes
  split_ifs <;> try omega
  · exact congrArg Except.ok (written_pushByte_shift (by
      rw [BitVec.toNat_setWidth, Nat.mod_eq_of_lt (by omega)]))
  · exact written_u16EncodeTo rfl (by omega)
  · exact written_u32EncodeTo (by rw [BitVec.toNat_setWidth, Nat.mod_eq_of_lt (by omega)])
      (by omega)

theorem written_compactU32EncodeTo (x : BitVec 32) :
    written <$> compactU32EncodeTo x = .ok (compactBytes x.toNat) := by
  refine written_compactWideEncodeTo x fun hlo => ?_
  have hw : written <$> u32EncodeTo x = .ok (leBytes 4 x.toNat) := written_primEncodeTo .u32 x
  rw [bytesNeeded_u32 x hlo, ← comp_map]
  show (fun ws => written (Write.pushByte 0b11 :: ws)) <$> u32EncodeTo x = _
  simp only [written_pushByte_cons]
  rw [show (fun ws => (0b11 : Byte) :: written ws) = (fun bs => (0b11 : Byte) :: bs) ∘ written
    from rfl, comp_map, hw]
  rfl

/-- Every width writes the compact format. -/
theorem written_compactEncodeTo (w : Width) (x : w.Val) :
    written <$> compactEncodeTo w x = .ok (compactBytes x.toNat) := by
  cases w with
  | u8 => exact written_compactU8EncodeTo x
  | u16 => exact written_compactU16EncodeTo x
  | u32 => exact written_compactU32EncodeTo x
  | u64 =>
    exact written_compactWideEncodeTo _ fun h =>
      @written_compactBigEncodeTo 8 (by omega) _ h
  | u128 =>
    exact written_compactWideEncodeTo _ fun h =>
      @written_compactBigEncodeTo 16 (by omega) _ h

theorem compactEncodeTo_eq_ok (w : Width) (x : w.Val) :
    ∃ ws, compactEncodeTo w x = .ok ws ∧ written ws = compactBytes x.toNat := by
  have h := written_compactEncodeTo w x
  cases hx : compactEncodeTo w x with
  | error e => rw [hx] at h; cases h
  | ok ws => rw [hx] at h; exact ⟨ws, rfl, Except.ok.inj h⟩

/-- A stack buffer that is large enough takes every call. -/
theorem foldlM_arrayVecWrite {capacity : ℕ} :
    ∀ {ws : List Write} {buf : List Byte}, (buf ++ written ws).length ≤ capacity →
      ws.foldlM (arrayVecWrite capacity) buf = .ok (buf ++ written ws)
  | [], buf, _ => by simp; rfl
  | w :: ws, buf, h => by
    have hsplit : written (w :: ws) = w.bytes ++ written ws := rfl
    rw [hsplit, ← List.append_assoc] at h ⊢
    rw [List.foldlM_cons, arrayVecWrite, if_pos (by simp at h ⊢; omega)]
    exact foldlM_arrayVecWrite h

theorem length_compactBytes_le (w : Width) (x : w.Val) :
    (compactBytes x.toNat).length ≤ w.bufferCapacity := by
  have hx := x.isLt
  have hneed : bytesNeeded x.toNat ≤ w.prim.size :=
    lt_pow_iff_bytesNeeded_le.mp (by rwa [pow_mul] at hx)
  unfold compactBytes
  cases w <;> simp only [Width.prim, Prim.size, Width.bufferCapacity] at hx hneed ⊢ <;>
    split_ifs <;> simp <;> omega

theorem compactRefEncode_lawful (w : Width) : (compactRefEncode w).Lawful := by
  refine ⟨fun x => rfl, fun x => ?_, fun _ _ h => by cases h⟩
  obtain ⟨ws, hws, hb⟩ := compactEncodeTo_eq_ok w x
  show (compactEncodeTo w x >>= fun ws => ws.foldlM (arrayVecWrite w.bufferCapacity) []) =
    written <$> compactEncodeTo w x
  rw [hws]
  exact foldlM_arrayVecWrite (by rw [List.nil_append, hb]; exact length_compactBytes_le w x)

theorem compactEncode_lawful (w : Width) : (compactEncode w).Lawful :=
  (compactRefEncode_lawful w).forward id

/-- Every width encodes to the compact format. -/
theorem compactEncode_encode (w : Width) (x : w.Val) :
    (compactEncode w).encode x = .ok (compactBytes x.toNat) :=
  written_compactEncodeTo w x

theorem compactBigLen_eq {size : ℕ} (x : BitVec (8 * size)) (hx : 2 ^ 30 ≤ x.toNat) :
    compactBigLen size x = bytesNeeded x.toNat + 1 := by
  rw [compactBigLen, sub_leadingZeros_div x (by omega)]

/-- `compact_len` is the length of the compact format. -/
theorem compactLen_eq (w : Width) (x : w.Val) :
    compactLen w x = (compactBytes x.toNat).length := by
  have hx := x.isLt
  unfold compactBytes
  cases w <;> simp only [compactLen, Width.prim, Prim.size] at hx ⊢ <;>
    split_ifs <;> first | omega | simp only [List.length_cons, length_leBytes]
  · exact congrArg (· + 1) (@bytesNeeded_u32 x (by omega)).symm
  · exact @compactBigLen_eq 8 x (by omega)
  · exact @compactBigLen_eq 16 x (by omega)

/-- What `encode_to` writes is as long as `compact_len` says and fits the stack buffer of
`using_encoded`, which passes the same bytes. In the big-integer mode neither assertion fails
and the header fits a byte. -/
theorem compactLen_exact (w : Width) (x : w.Val) : ∃ ws, compactEncodeTo w x = .ok ws ∧
    (written ws).length = compactLen w x ∧ (written ws).length ≤ w.bufferCapacity ∧
    (compactRefEncode w).usingEncoded x = .ok (written ws) ∧
    (2 ^ 30 ≤ x.toNat → ∀ n, n = w.prim.size - leadingZeros x / 8 →
      4 ≤ n ∧ n ≤ w.prim.size ∧ 0b11 + (n - 4) <<< 2 ≤ 255 ∧ (pushLowBytes n x).2 = 0) := by
  obtain ⟨ws, hws, hbytes⟩ := compactEncodeTo_eq_ok w x
  have hfit := length_compactBytes_le w x
  refine ⟨ws, hws, ?_, hbytes ▸ hfit, ?_, fun hbig n hn => ?_⟩
  · rw [hbytes, compactLen_eq]
  · show (compactEncodeTo w x >>= fun ws => ws.foldlM (arrayVecWrite w.bufferCapacity) []) = _
    rw [hws]
    exact foldlM_arrayVecWrite (by rwa [List.nil_append, hbytes])
  · rw [sub_leadingZeros_div x (by omega)] at hn
    obtain ⟨hlo, hhi⟩ := bytesNeeded_bounds x hbig
    have hsize : w.prim.size ≤ 16 := by cases w <;> decide
    rw [hn, Nat.shiftLeft_eq]
    exact ⟨hlo, hhi, by omega, pushLowBytes_bytesNeeded x⟩

theorem length_compactBytes_mono {m n : ℕ} (h : m ≤ n) :
    (compactBytes m).length ≤ (compactBytes n).length := by
  have hmono : bytesNeeded m ≤ bytesNeeded n :=
    lt_pow_iff_bytesNeeded_le.mp (h.trans_lt (lt_pow_iff_bytesNeeded_le.mpr le_rfl))
  have hfour : 256 ^ 3 ≤ n → 3 < bytesNeeded n := pow_le_iff_lt_bytesNeeded.mp
  unfold compactBytes
  split_ifs <;> simp only [List.length_cons, length_leBytes] <;> omega

theorem toNat_ofNat_u32 {n : ℕ} (hn : n ≤ u32Max) :
    (BitVec.ofNat _ n : Width.u32.Val).toNat = n := by
  rw [BitVec.toNat_ofNat]
  refine Nat.mod_eq_of_lt ?_
  show n < 2 ^ 32
  unfold u32Max at hn
  omega

/-! ## Decoding -/

section Decoding

variable {tgt : Target} {s s' t : List Byte} {pfx : Byte}

/-- Behind a `PrefixInput`, the first byte of a buffer is the byte put back. -/
theorem withPrefix_read {α : Type} {n : ℕ} (f : List.Vector Byte (n + 1) → α) :
    (f <$> DecodeM.read (n + 1)).withPrefix tgt pfx =
      (fun v => f (List.Vector.cons pfx v)) <$> DecodeM.read n := by
  show ExceptT.mk (Prog.call (I := inputInterface) (.read n) _) =
    ExceptT.mk (Prog.call (I := inputInterface) (.read n) _)
  congr 2
  funext r
  cases r <;> rfl

theorem head_leBytes {n v : ℕ} (h : pfx :: t = leBytes (n + 1) v ++ s') : pfx.toNat = v % 256 := by
  rw [leBytes, List.cons_append] at h
  rw [(List.cons.inj h).1, BitVec.toNat_ofNat]

theorem decodes_fromLeBytes_withPrefix {n : ℕ} {y : BitVec (8 * (n + 1))} :
    Decodes ((fromLeBytes <$> DecodeM.read (n + 1)).withPrefix tgt pfx) t y s' ↔
      pfx :: t = toLeBytes y ++ s' := by
  rw [withPrefix_read, decodes_map]
  simp only [decodes_read]
  constructor
  · rintro ⟨v, rfl, rfl⟩
    rw [← toLeBytes_eq_iff.mpr rfl]
    rfl
  · intro h
    have h' := h
    rw [toLeBytes, leBytes, List.cons_append] at h'
    obtain ⟨hp, rfl⟩ := List.cons.inj h'
    refine ⟨⟨leBytes n (y.toNat / 256), length_leBytes _ _⟩, rfl, ?_⟩
    exact (toLeBytes_eq_iff.mp (by rw [toLeBytes, leBytes, ← hp]; rfl)).symm

/-- A mode `k` whose low two bits are in the first byte : the rest of the number is the
value. -/
theorem mode_iff {n k : ℕ} (hk : k < 4) {x : BitVec (8 * (n + 1))} :
    (pfx.toNat % 4 = k ∧ ∃ y : BitVec (8 * (n + 1)), pfx :: t = toLeBytes y ++ s' ∧ x = y >>> 2) ↔
      4 * x.toNat + k < 256 ^ (n + 1) ∧ pfx :: t = leBytes (n + 1) (4 * x.toNat + k) ++ s' := by
  have hpow : 2 ^ (8 * (n + 1)) = 256 ^ (n + 1) := pow_mul 2 8 (n + 1)
  constructor
  · rintro ⟨hmod, y, hy, rfl⟩
    have hhead := head_leBytes hy
    have hlt := y.isLt
    have hval : 4 * (y >>> 2).toNat + k = y.toNat := by
      rw [BitVec.toNat_ushiftRight, Nat.shiftRight_eq_div_pow]
      omega
    rw [hval, ← hpow]
    exact ⟨hlt, hy⟩
  · rintro ⟨hlt, hb⟩
    have hhead := head_leBytes hb
    have hy : (BitVec.ofNat (8 * (n + 1)) (4 * x.toNat + k)).toNat = 4 * x.toNat + k := by
      rw [BitVec.toNat_ofNat, Nat.mod_eq_of_lt (by rwa [hpow])]
    refine ⟨by omega, BitVec.ofNat _ (4 * x.toNat + k), by rw [toLeBytes, hy]; exact hb, ?_⟩
    apply BitVec.eq_of_toNat_eq
    rw [BitVec.toNat_ushiftRight, hy, Nat.shiftRight_eq_div_pow]
    omega

/-- The two-byte mode. -/
theorem decodes_prefixedU16 {x : BitVec 16} (hmod : pfx.toNat % 4 = 1) :
    Decodes (prefixedU16 tgt pfx) t x s' ↔
      x.toNat < 2 ^ 14 ∧ pfx :: t = leBytes 2 (4 * x.toNat + 1) ++ s' := by
  have hdec : ∀ y : BitVec 16, Decodes (u16Decode.withPrefix tgt pfx) t y s' ↔
      pfx :: t = toLeBytes (n := 2) y ++ s' := fun y => decodes_fromLeBytes_withPrefix
  have hmode := @mode_iff s' t pfx 1 1 (by omega) x
  rw [prefixedU16, decodes_map]
  simp only [hdec]
  rw [and_iff_right hmod] at hmode
  refine hmode.trans (and_congr_left' ?_)
  omega

/-- The four-byte mode. -/
theorem decodes_prefixedU32 {x : BitVec 32} (hmod : pfx.toNat % 4 = 2) :
    Decodes (prefixedU32 tgt pfx) t x s' ↔
      x.toNat < 2 ^ 30 ∧ pfx :: t = leBytes 4 (4 * x.toNat + 2) ++ s' := by
  have hdec : ∀ y : BitVec 32, Decodes (u32Decode.withPrefix tgt pfx) t y s' ↔
      pfx :: t = toLeBytes (n := 4) y ++ s' := fun y => decodes_fromLeBytes_withPrefix
  have hmode := @mode_iff s' t pfx 3 2 (by omega) x
  rw [prefixedU32, decodes_map]
  simp only [hdec]
  rw [and_iff_right hmod] at hmode
  refine hmode.trans (and_congr_left' ?_)
  omega

/-- A fixed-width read of the big-integer mode. -/
theorem decodes_decodeAbove {p : Prim} {m lo : ℕ} {outOfRange : String} (hm : 8 * p.size ≤ m)
    {x : BitVec m} : Decodes (decodeAbove p m lo outOfRange) s x s' ↔
      lo < x.toNat ∧ x.toNat < 256 ^ p.size ∧ s = leBytes p.size x.toNat ++ s' := by
  have hpow : 2 ^ (8 * p.size) = 256 ^ p.size := pow_mul 2 8 p.size
  have hle : 2 ^ (8 * p.size) ≤ 2 ^ m := Nat.pow_le_pow_right (by norm_num) hm
  rw [decodeAbove, decodes_checked]
  simp only [decodes_primDecode]
  constructor
  · rintro ⟨y, rfl, hlo, rfl⟩
    have hy := y.isLt
    rw [BitVec.toNat_setWidth, Nat.mod_eq_of_lt (by omega), ← hpow]
    exact ⟨hlo, hy, rfl⟩
  · rintro ⟨hlo, hx, rfl⟩
    have hy : (x.setWidth (8 * p.size)).toNat = x.toNat := by
      rw [BitVec.toNat_setWidth, Nat.mod_eq_of_lt (by rwa [hpow])]
    refine ⟨x.setWidth _, by rw [toLeBytes, hy], by rwa [hy], BitVec.eq_of_toNat_eq ?_⟩
    rw [BitVec.toNat_setWidth, hy, Nat.mod_eq_of_lt x.isLt]

theorem u8Mul_eq {a b : ℕ} (h : a * b ≤ 255) : DecodeM.u8Mul a b = pure (a * b) :=
  if_neg (by omega)

theorem u8Add_eq {a b : ℕ} (h : a + b ≤ 255) : DecodeM.u8Add a b = pure (a + b) :=
  if_neg (by omega)

theorem u8Sub_eq {a b : ℕ} (h : b ≤ a) : DecodeM.u8Sub a b = pure (a - b) :=
  if_neg (by omega)

theorem shl_eq {n k : ℕ} {x : BitVec n} (h : k < n) : DecodeM.shl x k = pure (x <<< k) :=
  if_neg (by omega)

theorem shr_eq {n k : ℕ} {x : BitVec n} (h : k < n) : DecodeM.shr x k = pure (x >>> k) :=
  if_neg (by omega)

/-- The loop reads `n` bytes above the `done` bytes it has. -/
theorem decodes_orBytes {m : ℕ} {x : BitVec m} :
    ∀ {n : ℕ} {done : List Byte} {res : BitVec m} {s : List Byte}, res.toNat = leNat done →
      8 * (done.length + n) ≤ m → done.length + n ≤ 31 →
      (Decodes (orBytes n done.length res) s x s' ↔
        ∃ bs : List Byte, bs.length = n ∧ s = bs ++ s' ∧ x.toNat = leNat (done ++ bs))
  | 0, done, res, s, hres, _, _ => by
    rw [orBytes, decodes_pure]
    constructor
    · rintro ⟨rfl, rfl⟩
      exact ⟨[], rfl, rfl, by rw [List.append_nil, hres]⟩
    · rintro ⟨bs, hbs, rfl, hx⟩
      obtain rfl := List.length_eq_zero_iff.mp hbs
      rw [List.append_nil, ← hres] at hx
      exact ⟨BitVec.eq_of_toNat_eq hx, rfl⟩
  | n + 1, done, res, s, hres, hm, hn => by
    have hstep : ∀ b : Byte, (res ||| b.setWidth m <<< (done.length * 8)).toNat =
        leNat (done ++ [b]) := by
      intro b
      have hb := b.isLt
      have hlt : b.toNat <<< (done.length * 8) < 2 ^ m := by
        rw [Nat.shiftLeft_eq]
        calc b.toNat * 2 ^ (done.length * 8)
            < 2 ^ 8 * 2 ^ (done.length * 8) := Nat.mul_lt_mul_of_pos_right hb (Nat.two_pow_pos _)
          _ = 2 ^ (8 + done.length * 8) := (pow_add 2 8 _).symm
          _ ≤ 2 ^ m := Nat.pow_le_pow_right (by norm_num) (by omega)
      have hbm : b.toNat < 2 ^ m := lt_of_le_of_lt Nat.le_shiftLeft hlt
      rw [BitVec.toNat_or, BitVec.toNat_shiftLeft, BitVec.toNat_setWidth, Nat.mod_eq_of_lt hbm,
        Nat.mod_eq_of_lt hlt, hres, ← or_shiftLeft_leNat, mul_comm]
    have ih : ∀ (b : Byte) (u : List Byte), Decodes (orBytes n (done.length + 1)
        (res ||| b.setWidth m <<< (done.length * 8))) u x s' ↔
          ∃ bs : List Byte, bs.length = n ∧ u = bs ++ s' ∧ x.toNat = leNat (done ++ [b] ++ bs) := by
      intro b u
      have h := @decodes_orBytes m x n (done ++ [b]) _ u (hstep b) (by simp; omega) (by simp; omega)
      simpa using h
    rw [orBytes, u8Mul_eq (by omega)]
    simp only [pure_bind]
    rw [decodes_bind]
    simp only [decodes_readByte, shl_eq (show done.length * 8 < m by omega), pure_bind, ih]
    constructor
    · rintro ⟨b, u, rfl, bs, hlen, rfl, hx⟩
      exact ⟨b :: bs, by simp [hlen], rfl, by simpa using hx⟩
    · rintro ⟨bs, hlen, rfl, hx⟩
      cases bs with
      | nil => simp at hlen
      | cons b bs => exact ⟨b, bs ++ s', rfl, bs, by simpa using hlen, rfl, by simpa using hx⟩

theorem two_pow_sub_one_div {a b : ℕ} (h : b ≤ a) : (2 ^ a - 1) / 2 ^ b = 2 ^ (a - b) - 1 := by
  obtain ⟨c, rfl⟩ := Nat.exists_eq_add_of_le h
  have hb : 0 < 2 ^ b := Nat.two_pow_pos b
  have hc : 0 < 2 ^ c := Nat.two_pow_pos c
  rw [Nat.add_sub_cancel_left, pow_add]
  apply Nat.div_eq_of_lt_le
  · rw [Nat.sub_mul, mul_comm]
    omega
  · rw [Nat.sub_add_cancel hc, mul_comm]
    have := Nat.mul_pos hc hb
    omega

/-- The general case of the big-integer mode. -/
theorem decodes_decodeBytesNeeded {size k : ℕ} {outOfRange : String} (hsize : size ≤ 16)
    (hk : 2 ≤ k) (hks : k ≤ size) {x : BitVec (8 * size)} :
    Decodes (decodeBytesNeeded size k outOfRange) s x s' ↔
      256 ^ (k - 1) ≤ x.toNat ∧ x.toNat < 256 ^ k ∧ s = leBytes k x.toNat ++ s' := by
  have hbound : (BitVec.allOnes (8 * size) >>> ((size - k + 1) * 8)).toNat = 256 ^ (k - 1) - 1 := by
    rw [BitVec.toNat_ushiftRight, BitVec.toNat_allOnes, Nat.shiftRight_eq_div_pow,
      two_pow_sub_one_div (by omega), show 8 * size - (size - k + 1) * 8 = 8 * (k - 1) by omega,
      pow_mul, show 2 ^ 8 = 256 by rfl]
  have hpos : 0 < 256 ^ (k - 1) := Nat.pow_pos (by decide)
  have hloop : ∀ (y : BitVec (8 * size)) (u : List Byte), Decodes (orBytes k 0 0) s y u ↔
      ∃ bs : List Byte, bs.length = k ∧ s = bs ++ u ∧ y.toNat = leNat bs :=
    fun y u => @decodes_orBytes u _ y k [] 0 s (by simp [leNat]) (by simp; omega) (by simp; omega)
  unfold decodeBytesNeeded
  rw [u8Sub_eq hks]
  simp only [pure_bind, u8Add_eq (show size - k + 1 ≤ 255 by omega),
    u8Mul_eq (show (size - k + 1) * 8 ≤ 255 by omega),
    shr_eq (show (size - k + 1) * 8 < 8 * size by omega), decodes_checked, hloop, hbound]
  constructor
  · rintro ⟨y, ⟨bs, hlen, rfl, hy⟩, hlo, rfl⟩
    refine ⟨by omega, ?_, ?_⟩
    · rw [hy, ← hlen]
      exact leNat_lt bs
    · rw [hy, ← hlen, leBytes_leNat]
  · rintro ⟨hlo, hhi, rfl⟩
    exact ⟨x, ⟨_, length_leBytes _ _, rfl, (leNat_leBytes hhi).symm⟩, by omega, rfl⟩

/-- The mode in the low two bits of the first byte is that of the number. -/
theorem mod_four_of_compactBytes {n : ℕ} (h : pfx :: t = compactBytes n ++ s') :
    pfx.toNat % 4 =
      if n < 2 ^ 6 then 0 else if n < 2 ^ 14 then 1 else if n < 2 ^ 30 then 2 else 3 := by
  unfold compactBytes at h
  split_ifs at h ⊢
  · have := head_leBytes h
    omega
  · have := head_leBytes h
    omega
  · have := head_leBytes h
    omega
  · rw [(List.cons.inj h).1, BitVec.toNat_ofNat]
    omega

theorem eq_compactBytes_mode0 {n : ℕ} (hmod : pfx.toNat % 4 = 0) :
    pfx :: t = compactBytes n ++ s' ↔ n < 2 ^ 6 ∧ pfx :: t = leBytes 1 (4 * n) ++ s' := by
  constructor
  · intro h
    have hmode := mod_four_of_compactBytes h
    have hn : n < 2 ^ 6 := by split_ifs at hmode <;> omega
    rw [compactBytes, if_pos hn] at h
    exact ⟨hn, h⟩
  · rintro ⟨hn, h⟩
    rwa [compactBytes, if_pos hn]

theorem eq_compactBytes_mode1 {n : ℕ} (hmod : pfx.toNat % 4 = 1) :
    pfx :: t = compactBytes n ++ s' ↔
      2 ^ 6 ≤ n ∧ n < 2 ^ 14 ∧ pfx :: t = leBytes 2 (4 * n + 1) ++ s' := by
  constructor
  · intro h
    have hmode := mod_four_of_compactBytes h
    have hn : 2 ^ 6 ≤ n ∧ n < 2 ^ 14 := by split_ifs at hmode <;> omega
    rw [compactBytes, if_neg hn.1.not_gt, if_pos hn.2] at h
    exact ⟨hn.1, hn.2, h⟩
  · rintro ⟨hlo, hhi, h⟩
    rwa [compactBytes, if_neg hlo.not_gt, if_pos hhi]

theorem eq_compactBytes_mode2 {n : ℕ} (hmod : pfx.toNat % 4 = 2) :
    pfx :: t = compactBytes n ++ s' ↔
      2 ^ 14 ≤ n ∧ n < 2 ^ 30 ∧ pfx :: t = leBytes 4 (4 * n + 2) ++ s' := by
  constructor
  · intro h
    have hmode := mod_four_of_compactBytes h
    have hn : 2 ^ 14 ≤ n ∧ n < 2 ^ 30 := by split_ifs at hmode <;> omega
    rw [compactBytes, if_neg (by omega), if_neg hn.1.not_gt, if_pos hn.2] at h
    exact ⟨hn.1, hn.2, h⟩
  · rintro ⟨hlo, hhi, h⟩
    rwa [compactBytes, if_neg (by omega), if_neg hlo.not_gt, if_pos hhi]

/-- In the big-integer mode the first byte holds the number of bytes that follow. -/
theorem eq_compactBytes_mode3 {n : ℕ} (hn : n < 256 ^ 16) (hmod : pfx.toNat % 4 = 3) :
    pfx :: t = compactBytes n ++ s' ↔ 2 ^ 30 ≤ n ∧ bytesNeeded n = (pfx >>> 2).toNat + 4 ∧
      t = leBytes ((pfx >>> 2).toNat + 4) n ++ s' := by
  have hshift : (pfx >>> 2).toNat = pfx.toNat / 4 := by
    rw [BitVec.toNat_ushiftRight, Nat.shiftRight_eq_div_pow]
  have hle : bytesNeeded n ≤ 16 := lt_pow_iff_bytesNeeded_le.mp hn
  have hpfx := pfx.isLt
  constructor
  · intro h
    have hmode := mod_four_of_compactBytes h
    have hlo : 2 ^ 30 ≤ n := by split_ifs at hmode <;> omega
    have hge : 3 < bytesNeeded n := pow_le_iff_lt_bytesNeeded.mp (by omega)
    rw [compactBytes, if_neg (by omega), if_neg (by omega), if_neg hlo.not_gt] at h
    obtain ⟨rfl, ht⟩ := List.cons.inj h
    have hk : bytesNeeded n = (BitVec.ofNat 8 (4 * (bytesNeeded n - 4) + 3) >>> 2).toNat + 4 := by
      rw [hshift, BitVec.toNat_ofNat]
      omega
    exact ⟨hlo, hk, by rw [← hk]; exact ht⟩
  · rintro ⟨hlo, hk, rfl⟩
    rw [compactBytes, if_neg (by omega), if_neg (by omega), if_neg hlo.not_gt, List.cons_append, hk]
    congr 1
    apply BitVec.eq_of_toNat_eq
    rw [BitVec.toNat_ofNat]
    omega

/-- The one-byte mode. -/
theorem decodes_mode0 {m : ℕ} (hm : 8 ≤ m) (hmod : pfx.toNat % 4 = 0) {x : BitVec m} :
    Decodes (pure (pfx.setWidth m >>> 2)) t x s' ↔ pfx :: t = compactBytes x.toNat ++ s' := by
  have hpfx := pfx.isLt
  have hle : 2 ^ 8 ≤ 2 ^ m := Nat.pow_le_pow_right (by norm_num) hm
  have hval : (pfx.setWidth m >>> 2).toNat = pfx.toNat / 4 := by
    rw [BitVec.toNat_ushiftRight, BitVec.toNat_setWidth, Nat.mod_eq_of_lt (by omega),
      Nat.shiftRight_eq_div_pow]
  rw [decodes_pure, eq_compactBytes_mode0 hmod, ← BitVec.toNat_inj, hval]
  simp only [leBytes, List.cons_append, List.nil_append, List.cons.injEq, ← BitVec.toNat_inj,
    BitVec.toNat_ofNat]
  constructor
  · rintro ⟨hx, rfl⟩
    exact ⟨by omega, by omega, rfl⟩
  · rintro ⟨hlt, hx, rfl⟩
    exact ⟨by omega, rfl⟩

/-- A mode read as a wider integer, checked and narrowed. -/
theorem decodes_narrowed {k m lo hi : ℕ} {b : ℕ → List Byte} {p : DecodeM (BitVec k)}
    {Q : BitVec k → Prop} [DecidablePred Q] {f : BitVec k → BitVec m} {e : String} {x : BitVec m}
    (hp : ∀ y, Decodes p t y s' ↔ y.toNat < hi ∧ pfx :: t = b y.toNat ++ s')
    (hk : hi ≤ 2 ^ k) (hQ : ∀ y, y.toNat < hi → (Q y ↔ lo ≤ y.toNat ∧ y.toNat < 2 ^ m))
    (hf : ∀ y, y.toNat < 2 ^ m → (f y).toNat = y.toNat) :
    Decodes (do let y ← p; if Q y then pure (f y) else DecodeM.err e) t x s' ↔
      lo ≤ x.toNat ∧ x.toNat < hi ∧ pfx :: t = b x.toNat ++ s' := by
  rw [decodes_checked]
  simp only [hp]
  constructor
  · rintro ⟨y, ⟨hy, hb⟩, hQy, rfl⟩
    obtain ⟨hlo, hlt⟩ := (hQ y hy).mp hQy
    rw [hf y hlt]
    exact ⟨hlo, hy, hb⟩
  · rintro ⟨hlo, hhi, hb⟩
    have hy : (x.setWidth k).toNat = x.toNat := by
      rw [BitVec.toNat_setWidth, Nat.mod_eq_of_lt (by omega)]
    refine ⟨x.setWidth k, ?_, ?_, BitVec.eq_of_toNat_eq ?_⟩
    · rw [hy]
      exact ⟨hhi, hb⟩
    · rw [hQ _ (by rwa [hy]), hy]
      exact ⟨hlo, x.isLt⟩
    · rw [hf _ (by rw [hy]; exact x.isLt), hy]

theorem decodes_mode1 {m : ℕ} {Q : BitVec 16 → Prop} [DecidablePred Q] {f : BitVec 16 → BitVec m}
    {e : String} {x : BitVec m} (hmod : pfx.toNat % 4 = 1)
    (hQ : ∀ y, y.toNat < 2 ^ 14 → (Q y ↔ 2 ^ 6 ≤ y.toNat ∧ y.toNat < 2 ^ m))
    (hf : ∀ y, y.toNat < 2 ^ m → (f y).toNat = y.toNat) :
    Decodes (do let y ← prefixedU16 tgt pfx; if Q y then pure (f y) else DecodeM.err e) t x s' ↔
      pfx :: t = compactBytes x.toNat ++ s' := by
  rw [eq_compactBytes_mode1 hmod]
  exact decodes_narrowed (b := fun n => leBytes 2 (4 * n + 1))
    (fun _ => decodes_prefixedU16 hmod) (by omega) hQ hf

theorem decodes_mode2 {m : ℕ} {Q : BitVec 32 → Prop} [DecidablePred Q] {f : BitVec 32 → BitVec m}
    {e : String} {x : BitVec m} (hmod : pfx.toNat % 4 = 2)
    (hQ : ∀ y, y.toNat < 2 ^ 30 → (Q y ↔ 2 ^ 14 ≤ y.toNat ∧ y.toNat < 2 ^ m))
    (hf : ∀ y, y.toNat < 2 ^ m → (f y).toNat = y.toNat) :
    Decodes (do let y ← prefixedU32 tgt pfx; if Q y then pure (f y) else DecodeM.err e) t x s' ↔
      pfx :: t = compactBytes x.toNat ++ s' := by
  rw [eq_compactBytes_mode2 hmod]
  exact decodes_narrowed (b := fun n => leBytes 4 (4 * n + 2))
    (fun _ => decodes_prefixedU32 hmod) (by omega) hQ hf

theorem setWidth_toNat {k m : ℕ} (y : BitVec k) (h : y.toNat < 2 ^ m) :
    (y.setWidth m).toNat = y.toNat := by
  rw [BitVec.toNat_setWidth, Nat.mod_eq_of_lt h]

theorem toNat_mod_four : (pfx % 4).toNat = pfx.toNat % 4 :=
  BitVec.toNat_umod

theorem mod_four_cases (b : Byte) : b.toNat % 4 = 0 ∨ b.toNat % 4 = 1 ∨ b.toNat % 4 = 2 ∨
    b.toNat % 4 = 3 := by
  omega

/-- The header has been read; the arms remain. -/
theorem decodes_readByte_bind {α : Type} {f : Byte → DecodeM α} {a : α} :
    Decodes (DecodeM.readByte >>= f) (pfx :: t) a s' ↔ Decodes (f pfx) t a s' := by
  simp [decodes_bind]

theorem decodes_compactU8Decode {x : BitVec 8} :
    Decodes (compactU8Decode tgt) (pfx :: t) x s' ↔ pfx :: t = compactBytes x.toNat ++ s' := by
  have hx := x.isLt
  rw [compactU8Decode, decodes_readByte_bind, toNat_mod_four]
  rcases mod_four_cases pfx with h | h | h | h <;> simp only [h]
  · exact decodes_mode0 (m := 8) le_rfl h
  · exact decodes_mode1 h (by omega) setWidth_toNat
  · rw [eq_compactBytes_mode2 h]
    exact iff_of_false not_decodes_err (by omega)
  · rw [eq_compactBytes_mode3 (by omega) h]
    exact iff_of_false not_decodes_err (by omega)

theorem decodes_compactU16Decode {x : BitVec 16} :
    Decodes (compactU16Decode tgt) (pfx :: t) x s' ↔ pfx :: t = compactBytes x.toNat ++ s' := by
  have hx := x.isLt
  rw [compactU16Decode, decodes_readByte_bind, toNat_mod_four]
  rcases mod_four_cases pfx with h | h | h | h <;> simp only [h]
  · exact decodes_mode0 (by omega) h
  · exact decodes_mode1 h (by omega) fun _ _ => rfl
  · exact decodes_mode2 h (by omega) setWidth_toNat
  · rw [eq_compactBytes_mode3 (by omega) h]
    exact iff_of_false not_decodes_err (by omega)

/-- The arms of the wide decoders, given the big-integer arm. -/
theorem decodes_compactWideDecode {m : ℕ} {outOfRange : String} {big : Byte → DecodeM (BitVec m)}
    (hm : 32 ≤ m) (hm' : m ≤ 128) {x : BitVec m}
    (hbig : pfx.toNat % 4 = 3 → (Decodes (big pfx) t x s' ↔ 2 ^ 30 ≤ x.toNat ∧
      bytesNeeded x.toNat = (pfx >>> 2).toNat + 4 ∧
        t = leBytes ((pfx >>> 2).toNat + 4) x.toNat ++ s')) :
    Decodes (compactWideDecode tgt outOfRange big) (pfx :: t) x s' ↔
      pfx :: t = compactBytes x.toNat ++ s' := by
  have hlt : 2 ^ 32 ≤ 2 ^ m := Nat.pow_le_pow_right (by norm_num) hm
  have hx : x.toNat < 256 ^ 16 :=
    lt_of_lt_of_le x.isLt (Nat.pow_le_pow_right (n := 2) (by norm_num) hm')
  rw [compactWideDecode, decodes_readByte_bind, toNat_mod_four]
  rcases mod_four_cases pfx with h | h | h | h <;> simp only [h]
  · exact decodes_mode0 (by omega) h
  · exact decodes_mode1 h (by omega) setWidth_toNat
  · have hmax : u32Max >>> 2 = 2 ^ 30 - 1 := by decide
    exact decodes_mode2 h (by omega) setWidth_toNat
  · rw [eq_compactBytes_mode3 hx h]
    exact hbig h

/-- The big-integer arm that reads the least number of bytes. -/
theorem big_iff {k n : ℕ} {P : Prop} (hk : 5 ≤ k) :
    2 ^ 30 ≤ n ∧ bytesNeeded n = k ∧ P ↔ 256 ^ (k - 1) ≤ n ∧ n < 256 ^ k ∧ P := by
  have hpow : 256 ^ 4 ≤ 256 ^ (k - 1) := Nat.pow_le_pow_right (by norm_num) (by omega)
  rw [pow_le_iff_lt_bytesNeeded, lt_pow_iff_bytesNeeded_le, ← and_assoc, ← and_assoc]
  refine and_congr_left fun _ => ?_
  constructor
  · rintro ⟨_, h⟩
    omega
  · rintro ⟨h1, h2⟩
    have := pow_le_iff_lt_bytesNeeded.mpr h1
    omega

theorem big_iff_four {n : ℕ} {P : Prop} :
    2 ^ 30 ≤ n ∧ bytesNeeded n = 4 ∧ P ↔ u32Max >>> 2 < n ∧ n < 256 ^ 4 ∧ P := by
  have hmax : u32Max >>> 2 = 2 ^ 30 - 1 := by decide
  rw [lt_pow_iff_bytesNeeded_le, ← and_assoc, ← and_assoc, hmax]
  refine and_congr_left fun _ => ?_
  constructor
  · rintro ⟨h1, h2⟩
    omega
  · rintro ⟨h1, h2⟩
    have h3 : 3 < bytesNeeded n := pow_le_iff_lt_bytesNeeded.mp (by omega)
    omega

theorem decodes_big_four {m : ℕ} {e : String} (hm : 32 ≤ m) {x : BitVec m} :
    Decodes (decodeAbove .u32 m (u32Max >>> 2) e) t x s' ↔
      2 ^ 30 ≤ x.toNat ∧ bytesNeeded x.toNat = 4 ∧ t = leBytes 4 x.toNat ++ s' :=
  (decodes_decodeAbove hm).trans big_iff_four.symm

theorem decodes_big_size {p : Prim} {m lo : ℕ} {e : String} (hm : 8 * p.size ≤ m)
    (hsize : 5 ≤ p.size) (hlo : lo + 1 = 256 ^ (p.size - 1)) {x : BitVec m} :
    Decodes (decodeAbove p m lo e) t x s' ↔
      2 ^ 30 ≤ x.toNat ∧ bytesNeeded x.toNat = p.size ∧ t = leBytes p.size x.toNat ++ s' := by
  rw [decodes_decodeAbove hm, big_iff hsize, ← hlo, Nat.succ_le_iff]

theorem decodes_big_loop {size k : ℕ} {e : String} (hsize : size ≤ 16) (hk : 5 ≤ k)
    (hks : k ≤ size) {x : BitVec (8 * size)} :
    Decodes (decodeBytesNeeded size k e) t x s' ↔
      2 ^ 30 ≤ x.toNat ∧ bytesNeeded x.toNat = k ∧ t = leBytes k x.toNat ++ s' := by
  rw [decodes_decodeBytesNeeded hsize (by omega) hks, big_iff hk]

/-- A number of `n` bytes does not need more. -/
theorem not_big {n k : ℕ} {x : BitVec (8 * n)} (hk : n < k) {P : Prop} :
    ¬(2 ^ 30 ≤ x.toNat ∧ bytesNeeded x.toNat = k ∧ P) := by
  have hx : x.toNat < 256 ^ n := by
    have := x.isLt
    rwa [pow_mul] at this
  have := lt_pow_iff_bytesNeeded_le.mp hx
  omega

theorem u8Add_header : DecodeM.u8Add (pfx >>> 2).toNat 4 = pure ((pfx >>> 2).toNat + 4) := by
  have hpfx := pfx.isLt
  refine u8Add_eq ?_
  rw [BitVec.toNat_ushiftRight, Nat.shiftRight_eq_div_pow]
  omega

theorem decodes_compactU32Decode {x : BitVec 32} :
    Decodes (compactU32Decode tgt) (pfx :: t) x s' ↔ pfx :: t = compactBytes x.toNat ++ s' := by
  refine decodes_compactWideDecode le_rfl (by omega) fun _ => ?_
  generalize (pfx >>> 2).toNat = k
  split_ifs with h
  · subst h
    exact decodes_big_four le_rfl
  · exact iff_of_false not_decodes_err (not_big (n := 4) (by omega))

theorem decodes_compactU64Decode {x : BitVec 64} :
    Decodes (compactU64Decode tgt) (pfx :: t) x s' ↔ pfx :: t = compactBytes x.toNat ++ s' := by
  refine decodes_compactWideDecode (by omega) (by omega) fun _ => ?_
  rw [u8Add_header, pure_bind]
  generalize hk : (pfx >>> 2).toNat + 4 = k
  split_ifs with h4 h8 h
  · subst h4
    exact decodes_big_four (by omega)
  · subst h8
    exact decodes_big_size (p := .u64) le_rfl (by decide) (by decide)
  · exact iff_of_false not_decodes_err (not_big (n := 8) h)
  · exact decodes_big_loop (by omega) (by omega) (by omega)

theorem decodes_compactU128Decode {x : BitVec 128} :
    Decodes (compactU128Decode tgt) (pfx :: t) x s' ↔ pfx :: t = compactBytes x.toNat ++ s' := by
  refine decodes_compactWideDecode (by omega) le_rfl fun _ => ?_
  rw [u8Add_header, pure_bind]
  generalize hk : (pfx >>> 2).toNat + 4 = k
  split_ifs with h4 h8 h16 h
  · subst h4
    exact decodes_big_four (by omega)
  · subst h8
    exact decodes_big_size (p := .u64) (by decide) (by decide) (by decide)
  · subst h16
    exact decodes_big_size (p := .u128) le_rfl (by decide) (by decide)
  · exact iff_of_false not_decodes_err (not_big (n := 16) h)
  · exact decodes_big_loop (by omega) (by omega) (by omega)

theorem not_decodes_readByte_bind {α : Type} {f : Byte → DecodeM α} {a : α} :
    ¬Decodes (DecodeM.readByte >>= f) [] a s' := by
  simp [decodes_bind]

theorem compactBytes_ne_nil (n : ℕ) : compactBytes n ≠ [] := by
  unfold compactBytes
  split_ifs <;> simp [leBytes]

/-- A width's decoder accepts exactly the compact encodings. -/
theorem decodes_compactDecode {w : Width} {x : w.Val} :
    Decodes (compactDecode tgt w) s x s' ↔ s = compactBytes x.toNat ++ s' := by
  cases s with
  | nil =>
    refine iff_of_false ?_ fun h => compactBytes_ne_nil _ (List.append_eq_nil_iff.mp h.symm).1
    cases w <;> exact not_decodes_readByte_bind
  | cons pfx t =>
    cases w
    · exact decodes_compactU8Decode
    · exact decodes_compactU16Decode
    · exact decodes_compactU32Decode
    · exact decodes_compactU64Decode
    · exact decodes_compactU128Decode

/-! ### The calls the decoders make -/

variable {L : ReadLogic} {d : ℕ}

theorem prefixedU16_eq : prefixedU16 tgt pfx = (fun x : BitVec 16 => x >>> 2) <$>
    (fun bytes : List.Vector Byte 1 => fromLeBytes (n := 2) (pfx ::ᵥ bytes)) <$> DecodeM.read 1 :=
  congrArg (Functor.map _) (withPrefix_read fromLeBytes)

theorem prefixedU32_eq : prefixedU32 tgt pfx = (fun x : BitVec 32 => x >>> 2) <$>
    (fun bytes : List.Vector Byte 3 => fromLeBytes (n := 4) (pfx ::ᵥ bytes)) <$> DecodeM.read 3 :=
  congrArg (Functor.map _) (withPrefix_read fromLeBytes)

theorem prefixedU16_rel : L.Rel d (prefixedU16 tgt pfx) (prefixedU16 tgt pfx) := by
  rw [prefixedU16_eq]
  exact L.rel_map (L.rel_map (L.rel_read 1))

theorem prefixedU32_rel : L.Rel d (prefixedU32 tgt pfx) (prefixedU32 tgt pfx) := by
  rw [prefixedU32_eq]
  exact L.rel_map (L.rel_map (L.rel_read 3))

/-- A compact integer is read by the same calls on every target. -/
theorem compactDecode_target (tgt tgt' : Target) (w : Width) :
    compactDecode tgt w = compactDecode tgt' w := by
  have h16 : prefixedU16 tgt = prefixedU16 tgt' :=
    funext fun _ => prefixedU16_eq.trans prefixedU16_eq.symm
  have h32 : prefixedU32 tgt = prefixedU32 tgt' :=
    funext fun _ => prefixedU32_eq.trans prefixedU32_eq.symm
  have hwide : @compactWideDecode tgt = @compactWideDecode tgt' := by
    unfold compactWideDecode
    rw [h16, h32]
  cases w <;> dsimp only [compactDecode]
  · unfold compactU8Decode
    rw [h16]
  · unfold compactU16Decode
    rw [h16, h32]
  · unfold compactU32Decode
    rw [hwide]
  · unfold compactU64Decode
    rw [hwide]
  · unfold compactU128Decode
    rw [hwide]

theorem decodeAbove_rel {p : Prim} {m lo : ℕ} {e : String} (he : e ≠ decodeOomMsg) :
    L.Rel d (decodeAbove p m lo e) (decodeAbove p m lo e) :=
  L.rel_bind (primDecode_rel p).decode fun _ =>
    L.rel_ite (fun _ => L.rel_pure _) fun _ => L.rel_err he

/-- No multiplication or shift of the loop overflows. -/
theorem orBytes_rel {m : ℕ} : ∀ {n i : ℕ} {res : BitVec m}, 8 * (i + n) ≤ m → i + n ≤ 31 →
    L.Rel d (orBytes n i res) (orBytes n i res)
  | 0, _, _, _, _ => L.rel_pure _
  | n + 1, i, res, hm, hn => by
    refine L.rel_bind L.rel_readByte fun b => ?_
    rw [u8Mul_eq (by omega), pure_bind, shl_eq (by omega), pure_bind]
    exact orBytes_rel (by omega) (by omega)

theorem decodeBytesNeeded_rel {size k : ℕ} {e : String} (he : e ≠ decodeOomMsg)
    (hsize : size ≤ 16) (hk : 2 ≤ k) (hks : k ≤ size) :
    L.Rel d (decodeBytesNeeded size k e) (decodeBytesNeeded size k e) := by
  refine L.rel_bind (orBytes_rel (by omega) (by omega)) fun res => ?_
  rw [u8Sub_eq hks, pure_bind, u8Add_eq (by omega), pure_bind, u8Mul_eq (by omega), pure_bind,
    shr_eq (by omega), pure_bind]
  exact L.rel_ite (fun _ => L.rel_pure _) fun _ => L.rel_err he

/-- The `unreachable!()` arm is not reached : a mode is one of four. -/
theorem compactWideDecode_rel {m : ℕ} {e : String} {big : Byte → DecodeM (BitVec m)}
    (he : e ≠ decodeOomMsg) (hbig : ∀ pfx, L.Rel d (big pfx) (big pfx)) :
    L.Rel d (compactWideDecode tgt e big) (compactWideDecode tgt e big) := by
  refine L.rel_bind L.rel_readByte fun pfx => ?_
  rw [toNat_mod_four]
  rcases mod_four_cases pfx with h | h | h | h <;> simp only [h]
  · exact L.rel_pure _
  · exact L.rel_bind prefixedU16_rel fun _ =>
      L.rel_ite (fun _ => L.rel_pure _) fun _ => L.rel_err he
  · exact L.rel_bind prefixedU32_rel fun _ =>
      L.rel_ite (fun _ => L.rel_pure _) fun _ => L.rel_err he
  · exact hbig pfx

theorem compactDecode_rel (w : Width) :
    L.Rel d (compactDecode tgt w) (compactDecode tgt w) := by
  cases w with
  | u8 =>
    refine L.rel_bind L.rel_readByte fun pfx => ?_
    rw [toNat_mod_four]
    rcases mod_four_cases pfx with h | h | h | h <;> simp only [h]
    · exact L.rel_pure _
    · exact L.rel_bind prefixedU16_rel fun _ =>
        L.rel_ite (fun _ => L.rel_pure _) fun _ => L.rel_err (by decide)
    · exact L.rel_err (by decide)
    · exact L.rel_err (by decide)
  | u16 =>
    refine L.rel_bind L.rel_readByte fun pfx => ?_
    rw [toNat_mod_four]
    rcases mod_four_cases pfx with h | h | h | h <;> simp only [h]
    · exact L.rel_pure _
    · exact L.rel_bind prefixedU16_rel fun _ =>
        L.rel_ite (fun _ => L.rel_pure _) fun _ => L.rel_err (by decide)
    · exact L.rel_bind prefixedU32_rel fun _ =>
        L.rel_ite (fun _ => L.rel_pure _) fun _ => L.rel_err (by decide)
    · exact L.rel_err (by decide)
  | u32 =>
    exact compactWideDecode_rel (by decide) fun _ =>
      L.rel_ite (fun _ => decodeAbove_rel (by decide)) fun _ => L.rel_err (by decide)
  | u64 =>
    refine compactWideDecode_rel (by decide) fun pfx => ?_
    rw [u8Add_header, pure_bind]
    refine L.rel_ite (fun _ => decodeAbove_rel (by decide)) fun h4 => ?_
    refine L.rel_ite (fun _ => decodeAbove_rel (by decide)) fun h8 => ?_
    refine L.rel_ite (fun _ => L.rel_err (by decide)) fun h => ?_
    exact decodeBytesNeeded_rel (by decide) (by omega) (by omega) (by omega)
  | u128 =>
    refine compactWideDecode_rel (by decide) fun pfx => ?_
    rw [u8Add_header, pure_bind]
    refine L.rel_ite (fun _ => decodeAbove_rel (by decide)) fun h4 => ?_
    refine L.rel_ite (fun _ => decodeAbove_rel (by decide)) fun h8 => ?_
    refine L.rel_ite (fun _ => decodeAbove_rel (by decide)) fun h16 => ?_
    refine L.rel_ite (fun _ => L.rel_err (by decide)) fun h => ?_
    exact decodeBytesNeeded_rel (by decide) (by omega) (by omega) (by omega)

theorem obeys_compactDecode {D : Discipline} (w : Width) : Obeys D d (compactDecode tgt w) :=
  compactDecode_rel (L := D.logic.toReadLogic) w

end Decoding

/-- The decoder of a width returns `n` exactly on the encoding of `n`, rejects every other input,
and does not panic. -/
theorem compactDecode_exact (tgt : Target) (w : Width) (bs : List Byte) :
    (∀ (n : w.Val) (rest : List Byte), Decodes (compactDecode tgt w) bs n rest ↔
      ∃ enc, (compactEncode w).encode n = .ok enc ∧ bs = enc ++ rest) ∧
    ((∃ (n : w.Val) (enc rest : List Byte), (compactEncode w).encode n = .ok enc ∧
        bs = enc ++ rest) ∨
      ∃ e rest, runSlice (compactDecode tgt w) bs = .ok (.error e, rest)) ∧
    ∀ h, runSlice (compactDecode tgt w) bs ≠ .error h := by
  have hexact : ∀ (n : w.Val) (rest : List Byte), Decodes (compactDecode tgt w) bs n rest ↔
      ∃ enc, (compactEncode w).encode n = .ok enc ∧ bs = enc ++ rest := by
    intro n rest
    simp [decodes_compactDecode, compactEncode_encode]
  have hobeys : Obeys .total 0 (compactDecode tgt w) := obeys_compactDecode w
  rcases runSlice_of_obeys (fun _ => trivial) hobeys bs with ⟨r, rest, hr⟩ | ⟨_, _, hh⟩
  · refine ⟨hexact, ?_, by simp [hr]⟩
    cases r with
    | ok n =>
      obtain ⟨enc, henc, hbs⟩ := (hexact n rest).mp hr
      exact Or.inl ⟨n, enc, rest, henc, hbs⟩
    | error e => exact Or.inr ⟨e, rest, hr⟩
  · exact hh.elim

theorem Width.toNat_lt (w : Width) (n : w.Val) : n.toNat < 2 ^ (8 * Width.u128.prim.size) :=
  n.isLt.trans_le (Nat.pow_le_pow_right Nat.two_pos (by cases w <;> decide))

theorem Width.toNat_ofNat (w : Width) {n : ℕ} (hn : n < 2 ^ (8 * w.prim.size)) :
    (BitVec.ofNat (8 * w.prim.size) n).toNat = n := by
  rw [BitVec.toNat_ofNat, Nat.mod_eq_of_lt hn]

/-- Every width that holds `n` decodes the compact encoding of `n`. -/
theorem decodes_compactBytes (tgt : Target) (w : Width) {n : ℕ} (hn : n < 2 ^ (8 * w.prim.size))
    (rest : List Byte) :
    Decodes (compactDecode tgt w) (compactBytes n ++ rest) (BitVec.ofNat _ n) rest := by
  rw [decodes_compactDecode, w.toNat_ofNat hn]

/-- No compact encoding is the beginning of another. -/
theorem eq_of_compactBytes_append {m n : ℕ} {s s' : List Byte}
    (hm : m < 2 ^ (8 * Width.u128.prim.size)) (hn : n < 2 ^ (8 * Width.u128.prim.size))
    (h : compactBytes m ++ s = compactBytes n ++ s') : m = n := by
  have hdec := decodes_compactBytes ⟨.w64, true⟩ .u128 hm s
  rw [h] at hdec
  have heq := (hdec.unique (decodes_compactBytes _ .u128 hn s')).1
  rw [← Width.u128.toNat_ofNat hm, heq, Width.u128.toNat_ofNat hn]

/-- The compact encoding of a number does not depend on the width, and a width rejects the encodings
of the numbers it does not hold. -/
theorem compact_width_independent (tgt : Target) (w w' : Width) (n : w.Val) :
    ∃ bs, (compactEncode w).encode n = .ok bs ∧
      (n.toNat < 2 ^ (8 * w'.prim.size) →
        (compactEncode w').encode (BitVec.ofNat _ n.toNat) = .ok bs ∧
          Decodes (compactDecode tgt w') bs (BitVec.ofNat _ n.toNat) []) ∧
      (2 ^ (8 * w'.prim.size) ≤ n.toNat →
        ∀ rest, ∃ e rest',
          runSlice (compactDecode tgt w') (bs ++ rest) = .ok (.error e, rest')) := by
  refine ⟨_, compactEncode_encode w n, fun hn => ?_, fun hn rest => ?_⟩
  · rw [compactEncode_encode, w'.toNat_ofNat hn]
    have hdec := decodes_compactBytes tgt w' hn []
    rw [List.append_nil] at hdec
    exact ⟨rfl, hdec⟩
  · have hobeys : Obeys .total 0 (compactDecode tgt w') := obeys_compactDecode w'
    rcases runSlice_of_obeys (fun _ => trivial) hobeys (compactBytes n.toNat ++ rest) with
      ⟨r, rest', hr⟩ | ⟨_, _, hh⟩
    · cases r with
      | error e => exact ⟨e, rest', hr⟩
      | ok n' =>
        have heq := eq_of_compactBytes_append (w.toNat_lt n) (w'.toNat_lt n')
          (decodes_compactDecode.mp hr)
        have hlt := n'.isLt
        omega
    · exact hh.elim

/-- 300 is the same in two and in sixteen bytes, and does not fit in one. -/
theorem compact_width_independent_300 :
    let tgt : Target := ⟨.w64, true⟩
    Decodes (compactDecode tgt .u128) [0xb1, 0x04] 300 [] ∧
      ∃ e rest, runSlice (compactDecode tgt .u8) [0xb1, 0x04, 0x07] = .ok (.error e, rest) := by
  obtain ⟨bs, henc, hdec, -⟩ := compact_width_independent ⟨.w64, true⟩ .u16 .u128 300
  obtain ⟨bs', henc', -, herr⟩ := compact_width_independent ⟨.w64, true⟩ .u16 .u8 300
  obtain rfl : [0xb1, 0x04] = bs := Except.ok.inj ((show _ = _ from rfl).symm.trans henc)
  obtain rfl : [0xb1, 0x04] = bs' := Except.ok.inj ((show _ = _ from rfl).symm.trans henc')
  exact ⟨(hdec (by decide)).2, herr (by decide) [0x07]⟩

end ScaleCodec
