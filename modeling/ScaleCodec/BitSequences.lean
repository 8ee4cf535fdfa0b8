import ScaleCodec.Sequences

/-!
# Bit vectors

`bit_vec.rs`, over the `bitvec` crate. A `BitVec<T, O>` is its list of bits; `T` is the integer
its storage is made of and `O` the order of the bits in one integer. Of the crate, `chunks`,
`copy_from_bitslice`, `elts` and `truncate` have their meaning on lists of bits, and
`try_from_vec` accepts up to `usize::MAX >> 3` bits.

The assertion of the decoder holds whatever the input (`bitVecDecode_rel`), because a vector
decoder returns as many items as it is asked for (`yields_decodeVecWithLen`). The elements that
hold the bits (`storageOf`) hold zeros after them (`bitsOf_elementOf`), and these are what
`truncate` takes away (`take_storageOf`).
-/

namespace ScaleCodec

/-- `bitvec::order`. -/
inductive BitOrder where
  | lsb0
  | msb0
deriving DecidableEq, Repr

/-- The types of `bitvec::store` that have an encoding. -/
inductive BitStore where
  | u8 | u16 | u32 | u64
deriving DecidableEq, Repr

/-- The integer type. -/
def BitStore.prim : BitStore → Prim
  | u8 => .u8
  | u16 => .u16
  | u32 => .u32
  | u64 => .u64

/-- `T::BITS`. -/
def BitStore.bits (st : BitStore) : ℕ :=
  8 * st.prim.size

/-- The bits of an integer, first bit first. -/
def bitsOf (o : BitOrder) {w : ℕ} (x : BitVec w) : List Bool :=
  match o with
  | .lsb0 => (List.range w).map x.getLsbD
  | .msb0 => (List.range w).map x.getMsbD

/-- The number with the binary digits `bits`, least significant first. -/
def natOfBits : List Bool → ℕ
  | [] => 0
  | b :: bits => b.toNat + 2 * natOfBits bits

/-- `T::ZERO` with the first bits set to `chunk`. -/
def elementOf (o : BitOrder) (w : ℕ) (chunk : List Bool) : BitVec w :=
  match o with
  | .lsb0 => BitVec.ofNat w (natOfBits chunk)
  | .msb0 => BitVec.ofNat w (natOfBits (chunk ++ List.replicate (w - chunk.length) false).reverse)

/-- `chunks(w)`, with fuel for the number of chunks. -/
def bitChunks (w : ℕ) : ℕ → List Bool → List (List Bool)
  | 0, _ => []
  | _, [] => []
  | fuel + 1, bits => bits.take w :: bitChunks w fuel (bits.drop w)

/-- `ARCH32BIT_BITSLICE_MAX_BITS`. -/
def arch32bitBitsliceMaxBits : ℕ :=
  0x1fff_ffff

/-- `impl Encode for BitSlice<T, O>`, which `BitVec` and `BitBox` forward to, on the list of
bits. -/
def bitSliceEncode (st : BitStore) (o : BitOrder) : Encode (List Bool) :=
  EncodeImpl.toEncode
    { encodeTo := some fun bits =>
        if bits.length ≤ arch32bitBitsliceMaxBits then
          writeThen ((compactEncode .u32).encodeTo (BitVec.ofNat _ bits.length))
            (encodeItems (primEncode st.prim)
              ((bitChunks st.bits bits.length bits).map (elementOf o st.bits)))
        else .error (.panic "Attempted to encode a BitSlice with too many bits.") }

/-- `BitSlice<T, O>` : `len` bits of its storage, from the bit `head` on. -/
structure BitSlice (st : BitStore) (o : BitOrder) where
  storage : List st.prim.Val
  head : ℕ
  len : ℕ
  inStorage : head + len ≤ storage.length * st.bits

namespace BitSlice

variable {st : BitStore} {o : BitOrder}

/-- The bits, whatever part of the storage holds them. -/
def bits (s : BitSlice st o) : List Bool :=
  ((s.storage.flatMap (bitsOf o)).drop s.head).take s.len

/-- `split_at(n)`, for an `n` within the slice. -/
def splitAt (s : BitSlice st o) (n : ℕ) : BitSlice st o × BitSlice st o :=
  have h := s.inStorage
  ({ s with len := min n s.len, inStorage := by omega },
    { s with head := s.head + min n s.len, len := s.len - min n s.len, inStorage := by omega })

/-- `chunks(w)`, with fuel for the number of chunks. -/
def chunks (w : ℕ) : ℕ → BitSlice st o → List (BitSlice st o)
  | 0, _ => []
  | fuel + 1, s =>
    if s.len = 0 then [] else (s.splitAt w).1 :: chunks w fuel (s.splitAt w).2

/-- The elements the chunks are copied into. -/
def elements (s : BitSlice st o) : List st.prim.Val :=
  (s.chunks st.bits s.len).map fun chunk => elementOf o st.bits chunk.bits

/-- `impl Encode for BitSlice<T, O>`. `BitVec` and `BitBox` forward to the slice of their bits. -/
def encode (st : BitStore) (o : BitOrder) : Encode (BitSlice st o) :=
  EncodeImpl.toEncode
    { encodeTo := some fun s =>
        if s.len ≤ arch32bitBitsliceMaxBits then
          writeThen ((compactEncode .u32).encodeTo (BitVec.ofNat _ s.len))
            (encodeItems (primEncode st.prim) s.elements)
        else .error (.panic "Attempted to encode a BitSlice with too many bits.") }

end BitSlice

/-- `bitvec::mem::elts`. -/
def elts (st : BitStore) (bits : ℕ) : ℕ :=
  (bits + st.bits - 1) / st.bits

/-- `impl Decode for BitVec<T, O>`. -/
def bitVecDecode (tgt : Target) (size : ℕ) (st : BitStore) (o : BitOrder) : Decode (List Bool) :=
  Decode.ofDecode size (do
    let len ← compactDecode tgt .u32
    let bits := len.toNat
    if bits > arch32bitBitsliceMaxBits then
      DecodeM.err "Attempt to decode a BitVec with too many bits"
    else
      let vec ← decodeVecWithLen tgt (primDecode st.prim) (elts st bits)
      if vec.length * st.bits > tgt.usizeMax >>> 3 then
        DecodeM.err ("UNEXPECTED ERROR: `bits` is less or equal to\n" ++
          "\t\t\t\t\t`ARCH32BIT_BITSLICE_MAX_BITS`; " ++
          "So BitVec must be able to handle the number of\n" ++
          "\t\t\t\t\tsegment needed for `bits` to be represented; qed")
      else if bits ≤ vec.length * st.bits then
        pure ((vec.flatMap (bitsOf o)).take bits)
      else DecodeM.panic "assertion failed: bits as usize <= result.len()")

/-- `impl Decode for BitBox<T, O>`, of a `BitVec` of `bitVecSize` bytes. -/
def bitBoxDecode (tgt : Target) (size bitVecSize : ℕ) (st : BitStore) (o : BitOrder) :
    Decode (List Bool) :=
  Decode.ofDecode size (bitVecDecode tgt bitVecSize st o).decode

/-! ## The calls the decoder makes -/

section Vectors

variable {α : Type} {tgt : Target}

theorem yields_chunkLoop {size chunkLen : ℕ} {decodeChunk : ℕ → DecodeM (List α)}
    (hchunk : ∀ n, Yields (fun as => as.length = n) (decodeChunk n)) :
    ∀ fuel n, Yields (fun as => as.length = n)
      (chunkLoop tgt size chunkLen decodeChunk fuel n)
  | 0, 0 => yields_pure rfl
  | _ + 1, 0 => yields_pure rfl
  | 0, _ + 1 => trivial
  | fuel + 1, n + 1 => by
    refine yields_bind yields_true fun _ _ => yields_bind yields_true fun _ _ => ?_
    refine yields_bind (hchunk _) fun items hitems => ?_
    refine yields_bind (yields_chunkLoop hchunk fuel _) fun rest hrest => yields_pure ?_
    rw [List.length_append, hitems, hrest]
    omega

/-- A vector decoder returns as many items as it is asked for. -/
theorem yields_decodeVecWithLen {I : Decode α} (n : ℕ) :
    Yields (fun as => as.length = n) (decodeVecWithLen tgt I n) := by
  have hitems : Yields (fun as => as.length = n) (decodeVecFromItems tgt I n) :=
    yields_bind yields_true fun _ _ =>
      yields_bind (yields_chunkLoop yields_replicateM n n) fun _ h =>
        yields_bind yields_true fun _ _ => yields_pure h
  unfold decodeVecWithLen
  cases I.typeInfo with
  | unknown => exact hitems
  | known p e =>
    show Yields _ (if tgt.littleEndian ∨ I.size = 1 then _ else _)
    split_ifs
    · unfold readVecFromU8s
      split_ifs
      · exact yields_err
      · refine yields_bind yields_true fun _ _ => yields_chunkLoop (fun m => ?_) n n
        refine yields_map yields_true fun buf _ => ?_
        rw [List.length_map, length_valuesOf]
    · exact hitems

end Vectors

theorem BitStore.bits_pos (st : BitStore) : 0 < st.bits := by
  cases st <;> decide

theorem le_elts_mul (st : BitStore) (n : ℕ) : n ≤ elts st n * st.bits := by
  have hpos := st.bits_pos
  have h := Nat.div_add_mod (n + st.bits - 1) st.bits
  have hlt := Nat.mod_lt (n + st.bits - 1) hpos
  unfold elts
  rw [Nat.mul_comm]
  omega

/-- The decoder does not panic. -/
theorem bitVecDecode_rel {L : DecoderLogic} {d size : ℕ} {tgt : Target} (st : BitStore)
    (o : BitOrder) : (bitVecDecode tgt size st o).Rel L d (bitVecDecode tgt size st o) := by
  have hsize : (primDecode st.prim).size ≤ maxPreallocation :=
    (Prim.size_le _).trans (by decide)
  refine Decode.rel_ofDecode (L.rel_bind (compactDecode_rel .u32) fun len => ?_)
  refine L.rel_ite (fun _ => L.rel_err (by decide)) fun _ => ?_
  refine L.rel_bind_of_yields
    (decodeVecWithLen_rel hsize (.refl _) fun _ => (primDecode_rel _).decode)
    (yields_decodeVecWithLen _) fun vec hvec => ?_
  refine L.rel_ite (fun _ => L.rel_err (by decide)) fun _ => ?_
  refine L.rel_ite (fun _ => L.rel_pure _) fun h => absurd ?_ h
  rw [hvec]
  exact le_elts_mul st _

/-! ## Bits in storage -/

theorem testBit_natOfBits : ∀ (bits : List Bool) (i : ℕ),
    (natOfBits bits).testBit i = bits.getD i false
  | [], i => Nat.zero_testBit i
  | b :: bits, 0 => by
    rw [Nat.testBit_zero, natOfBits]
    cases b <;> simp
  | b :: bits, i + 1 => by
    have hdiv : (b.toNat + 2 * natOfBits bits) / 2 = natOfBits bits := by
      have hb := b.toNat_lt
      omega
    rw [Nat.testBit_succ, natOfBits, hdiv, testBit_natOfBits bits i, List.getD_cons_succ]

/-- An element holds its bits and zeros after them. -/
theorem bitsOf_elementOf (o : BitOrder) {w : ℕ} {chunk : List Bool} (h : chunk.length ≤ w) :
    bitsOf o (elementOf o w chunk) = chunk ++ List.replicate (w - chunk.length) false := by
  have hlen : (chunk ++ List.replicate (w - chunk.length) false).length = w := by
    rw [List.length_append, List.length_replicate]
    omega
  cases o with
  | lsb0 =>
    refine List.ext_getElem (by simp [bitsOf, h]) fun i hi _ => ?_
    have hi : i < w := by simpa [bitsOf] using hi
    simp only [bitsOf, elementOf, List.getElem_map, List.getElem_range, BitVec.getLsbD_ofNat,
      testBit_natOfBits, hi, decide_true, Bool.true_and]
    rcases Nat.lt_or_ge i chunk.length with hc | hc
    · rw [List.getD_eq_getElem _ _ hc, List.getElem_append_left hc]
    · rw [List.getD_eq_default _ _ hc, List.getElem_append_right hc, List.getElem_replicate]
  | msb0 =>
    refine List.ext_getElem (by simp [bitsOf, h]) fun i hi _ => ?_
    have hi : i < w := by simpa [bitsOf] using hi
    have hi' : w - 1 - i < w := by omega
    simp only [bitsOf, elementOf, List.getElem_map, List.getElem_range, BitVec.getMsbD,
      BitVec.getLsbD_ofNat, testBit_natOfBits, hi, hi', decide_true, Bool.true_and]
    rw [List.getD_eq_getElem _ _ (by rwa [List.length_reverse, hlen]), List.getElem_reverse]
    congr 1
    omega

theorem bitChunks_cons (w fuel : ℕ) (b : Bool) (bits : List Bool) :
    bitChunks w (fuel + 1) (b :: bits) =
      (b :: bits).take w :: bitChunks w fuel ((b :: bits).drop w) :=
  rfl

/-- Elements for all chunks hold the bits and zeros after them. -/
theorem flatMap_bitChunks (o : BitOrder) {w : ℕ} (hw : 0 < w) : ∀ (fuel : ℕ) (bits : List Bool),
    bits.length ≤ fuel → ∃ k, ((bitChunks w fuel bits).map (elementOf o w)).flatMap (bitsOf o) =
      bits ++ List.replicate k false
  | 0, bits, h => ⟨0, by rw [List.length_eq_zero_iff.mp (Nat.le_zero.mp h)]; rfl⟩
  | _ + 1, [], _ => ⟨0, rfl⟩
  | fuel + 1, b :: bits, h => by
    have hdrop : ((b :: bits).drop w).length ≤ fuel := by
      rw [List.length_drop, List.length_cons] at *
      omega
    obtain ⟨k, hk⟩ := flatMap_bitChunks o hw fuel ((b :: bits).drop w) hdrop
    have htake : ((b :: bits).take w).length ≤ w := List.length_take_le _ _
    rw [bitChunks_cons, List.map_cons, List.flatMap_cons, bitsOf_elementOf o htake, hk]
    rcases Nat.lt_or_ge (b :: bits).length w with hlt | hge
    · -- the last chunk, which leaves nothing
      rw [List.drop_eq_nil_of_le hlt.le, List.take_of_length_le hlt.le, List.nil_append,
        List.append_assoc, List.replicate_append_replicate]
      exact ⟨_, rfl⟩
    · rw [List.length_take_of_le hge, Nat.sub_self, List.replicate_zero, List.append_nil,
        ← List.append_assoc, List.take_append_drop]
      exact ⟨k, rfl⟩

theorem length_bitChunks {w : ℕ} (hw : 0 < w) : ∀ (fuel : ℕ) (bits : List Bool),
    bits.length ≤ fuel → (bitChunks w fuel bits).length = (bits.length + w - 1) / w
  | 0, bits, h => by
    rw [Nat.le_zero.mp h, Nat.zero_add, Nat.div_eq_of_lt (Nat.sub_one_lt_of_lt hw)]
    rfl
  | _ + 1, [], _ => by
    rw [List.length_nil, Nat.zero_add, Nat.div_eq_of_lt (Nat.sub_one_lt_of_lt hw)]
    rfl
  | fuel + 1, b :: bits, h => by
    have hdrop : ((b :: bits).drop w).length = bits.length + 1 - w := List.length_drop
    have hle : bits.length + 1 ≤ fuel + 1 := h
    rw [bitChunks_cons, List.length_cons, length_bitChunks hw fuel _ (by omega), hdrop,
      List.length_cons]
    rcases Nat.lt_or_ge bits.length w with hlt | hge
    · rw [Nat.sub_eq_zero_of_le hlt, Nat.zero_add, Nat.div_eq_of_lt (Nat.sub_one_lt_of_lt hw)]
      exact (Nat.div_eq_of_lt_le (by omega) (by omega)).symm
    · rw [← Nat.add_div_right _ hw]
      congr 1
      omega

/-- The elements that hold the bits. -/
def storageOf (st : BitStore) (o : BitOrder) (bits : List Bool) : List st.prim.Val :=
  (bitChunks st.bits bits.length bits).map (elementOf o st.bits)

theorem length_storageOf (st : BitStore) (o : BitOrder) (bits : List Bool) :
    (storageOf st o bits).length = elts st bits.length :=
  (List.length_map _).trans (length_bitChunks st.bits_pos _ bits (Nat.le_refl _))

/-- `truncate` takes the zeros after the bits away. -/
theorem take_storageOf (st : BitStore) (o : BitOrder) (bits : List Bool) :
    ((storageOf st o bits).flatMap (bitsOf o)).take bits.length = bits := by
  obtain ⟨k, hk⟩ := flatMap_bitChunks o st.bits_pos _ bits (Nat.le_refl _)
  exact (congrArg (List.take bits.length) hk).trans List.take_left

theorem le_u32Max_of_bits {n : ℕ} (h : n ≤ arch32bitBitsliceMaxBits) : n ≤ u32Max :=
  h.trans (by decide)

/-- Bits are encoded as their number and the elements that hold them. -/
theorem encodes_bitSliceEncode {st : BitStore} {o : BitOrder} {bits : List Bool}
    {bs : List Byte} : Encodes (bitSliceEncode st o) bits bs ↔
      bits.length ≤ arch32bitBitsliceMaxBits ∧ ∃ b,
        EncodesList (primEncode st.prim) (storageOf st o bits) b ∧
          bs = compactBytes bits.length ++ b := by
  refine EncodeImpl.encodes_encodeTo.trans ?_
  split_ifs with h
  · rw [writes_writeThen]
    simp only [(compactEncode_lawful .u32).writes, Encodes, compactEncode_encode,
      toNat_ofNat_u32 (le_u32Max_of_bits h), writes_encodeItems (primEncode_lawful _)]
    constructor
    · rintro ⟨_, c, hb, hc, rfl⟩
      cases hb
      exact ⟨h, c, hc, rfl⟩
    · rintro ⟨-, c, hc, rfl⟩
      exact ⟨_, c, rfl, hc, rfl⟩
  · exact iff_of_false (fun h' => by cases h') fun h' => h h'.1

/-- A bit vector is read as its length and as many elements as hold it. Of their bits the first
are taken. -/
theorem decodes_bitVecDecode_iff {tgt : Target} {size : ℕ} {st : BitStore} {o : BitOrder}
    {v : List Bool} {s s' : List Byte} :
    Decodes (bitVecDecode tgt size st o).decode s v s' ↔ ∃ (n : ℕ) (elems : List st.prim.Val),
      n ≤ arch32bitBitsliceMaxBits ∧ elems.length = elts st n ∧
      elts st n * st.bits ≤ tgt.usizeMax >>> 3 ∧
      s = compactBytes n ++ (elems.flatMap toLeBytes ++ s') ∧
      v = (elems.flatMap (bitsOf o)).take n := by
  have hsize : (primDecode st.prim).size ≤ maxPreallocation :=
    (Prim.size_le _).trans (by decide)
  constructor
  · intro h
    obtain ⟨len, t, hlen, h⟩ := decodes_bind.mp h
    dsimp only at h
    split_ifs at h with hbits
    · exact absurd h not_decodes_err
    obtain ⟨elems, t', hvec, h⟩ := decodes_bind.mp h
    obtain ⟨hcount, hitems⟩ := decodesList_of_decodeVecWithLen (primDecode_lawful _) hsize hvec
    rw [hcount] at h
    split_ifs at h with hmem hle
    · exact absurd h not_decodes_err
    · obtain ⟨rfl, rfl⟩ := decodes_pure.mp h
      obtain rfl := decodesList_prim.mp hitems
      exact ⟨len.toNat, elems, not_lt.mp hbits, hcount, not_lt.mp hmem,
        decodes_compactDecode.mp hlen, rfl⟩
    · exact absurd (le_elts_mul st _) hle
  · rintro ⟨n, elems, hn, hcount, hmem, rfl, rfl⟩
    have hnat := toNat_ofNat_u32 (le_u32Max_of_bits hn)
    have hbytes : elems.length * (primDecode st.prim).size ≤ tgt.usizeMax := by
      rw [Nat.shiftRight_eq_div_pow] at hmem
      rw [hcount]
      have hle : elts st n * st.prim.size ≤ elts st n * st.bits :=
        Nat.mul_le_mul_left _ (Nat.le_mul_of_pos_left _ (by decide))
      exact hle.trans (hmem.trans (Nat.div_le_self _ _))
    have hitems : DecodesList (primDecode st.prim).decode elems
        (elems.flatMap toLeBytes ++ s') s' := decodesList_prim.mpr rfl
    have hvec := decodes_decodeVecWithLen (primDecode_lawful _) hsize hbytes hitems
    rw [hcount] at hvec
    refine decodes_bind.mpr ⟨BitVec.ofNat _ n, _, decodes_compactDecode.mpr (by rw [hnat]), ?_⟩
    dsimp only
    rw [hnat, if_neg (not_lt.mpr hn)]
    refine decodes_bind.mpr ⟨_, _, hvec, ?_⟩
    rw [hcount, if_neg (not_lt.mpr hmem), if_pos (le_elts_mul st n)]
    exact decodes_pure.mpr ⟨rfl, rfl⟩

/-- Elements that `bitvec` can address are read as the bits they hold. -/
theorem decodes_bitVecDecode {tgt : Target} {size : ℕ} {st : BitStore} {o : BitOrder}
    {bits : List Bool} {s s' : List Byte} (hlen : bits.length ≤ arch32bitBitsliceMaxBits)
    (hmem : elts st bits.length * st.bits ≤ tgt.usizeMax >>> 3)
    (h : DecodesList (primDecode st.prim).decode (storageOf st o bits) s s') :
    Decodes (bitVecDecode tgt size st o).decode (compactBytes bits.length ++ s) bits s' := by
  rw [decodesList_prim] at h
  refine decodes_bitVecDecode_iff.mpr ⟨bits.length, storageOf st o bits, hlen,
    length_storageOf st o bits, hmem, by rw [h], (take_storageOf st o bits).symm⟩

/-! ## Bits at an offset -/

theorem length_bitsOf (o : BitOrder) {w : ℕ} (x : BitVec w) : (bitsOf o x).length = w := by
  cases o <;> simp [bitsOf]

theorem length_flatMap_bitsOf {o : BitOrder} {w : ℕ} :
    ∀ xs : List (BitVec w), (xs.flatMap (bitsOf o)).length = xs.length * w
  | [] => (Nat.zero_mul w).symm
  | x :: xs => by
    rw [List.flatMap_cons, List.length_append, length_bitsOf, length_flatMap_bitsOf xs,
      List.length_cons, Nat.succ_mul, Nat.add_comm]

namespace BitSlice

variable {st : BitStore} {o : BitOrder}

@[simp] theorem length_bits (s : BitSlice st o) : s.bits.length = s.len := by
  have h := s.inStorage
  have hlen : (s.storage.flatMap (bitsOf o)).length = s.storage.length * st.bits :=
    length_flatMap_bitsOf s.storage
  rw [bits, List.length_take, List.length_drop, hlen]
  omega

theorem bits_splitAt_fst (s : BitSlice st o) (n : ℕ) : (s.splitAt n).1.bits = s.bits.take n := by
  show ((s.storage.flatMap (bitsOf o)).drop s.head).take (min n s.len) = _
  rw [bits, List.take_take]

theorem bits_splitAt_snd (s : BitSlice st o) (n : ℕ) : (s.splitAt n).2.bits = s.bits.drop n := by
  show ((s.storage.flatMap (bitsOf o)).drop (s.head + min n s.len)).take (s.len - min n s.len) = _
  rw [bits, List.drop_take, List.drop_drop]
  rcases Nat.le_total n s.len with h | h
  · rw [min_eq_left h]
  · rw [min_eq_right h, Nat.sub_self, Nat.sub_eq_zero_of_le h, List.take_zero, List.take_zero]

/-- The chunks of a slice are those of its bits. -/
theorem map_bits_chunks (w : ℕ) : ∀ (fuel : ℕ) (s : BitSlice st o),
    (s.chunks w fuel).map bits = bitChunks w fuel s.bits
  | 0, _ => rfl
  | fuel + 1, s => by
    have hlen := s.length_bits
    unfold chunks
    split_ifs with h
    · rw [List.length_eq_zero_iff.mp (hlen.trans h)]
      rfl
    · cases hbits : s.bits with
      | nil => exact absurd (hlen.symm.trans (congrArg List.length hbits)) h
      | cons b bs =>
        rw [bitChunks_cons, ← hbits, List.map_cons, map_bits_chunks w fuel, bits_splitAt_fst,
          bits_splitAt_snd]

theorem elements_eq (s : BitSlice st o) : s.elements = storageOf st o s.bits := by
  have h := congrArg (List.map (elementOf o st.bits)) (map_bits_chunks st.bits s.len s)
  rw [List.map_map] at h
  unfold storageOf
  rw [length_bits]
  exact h

/-- A slice is encoded as its bits, wherever they are in its storage. -/
theorem encodes_iff {s : BitSlice st o} {bs : List Byte} :
    Encodes (encode st o) s bs ↔ Encodes (bitSliceEncode st o) s.bits bs := by
  refine EncodeImpl.encodes_encodeTo.trans ?_
  show Writes (if s.len ≤ _ then writeThen _ (encodeItems _ s.elements) else _) bs ↔ _
  rw [elements_eq, ← length_bits]
  exact EncodeImpl.encodes_encodeTo.symm

/-- Some slice has the bits at the offset `head`. -/
theorem exists_bits_eq (st : BitStore) (o : BitOrder) (head : ℕ) (bits : List Bool) :
    ∃ s : BitSlice st o, s.head = head ∧ s.bits = bits := by
  let all := List.replicate head false ++ bits
  have hall : all.length = head + bits.length := by
    rw [List.length_append, List.length_replicate]
  have hle : head + bits.length ≤ (storageOf st o all).length * st.bits := by
    rw [length_storageOf, ← hall]
    exact le_elts_mul st _
  refine ⟨⟨storageOf st o all, head, bits.length, hle⟩, rfl, ?_⟩
  show (((storageOf st o all).flatMap (bitsOf o)).drop head).take bits.length = bits
  have htake : ((storageOf st o all).flatMap (bitsOf o)).take (head + bits.length) = all :=
    hall ▸ take_storageOf st o all
  rw [← Nat.add_sub_cancel_left head bits.length, ← List.drop_take, htake]
  exact List.drop_left' List.length_replicate

end BitSlice

end ScaleCodec
