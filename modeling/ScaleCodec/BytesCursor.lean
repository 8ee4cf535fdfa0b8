import ScaleCodec.ByteInputs

/-!
# Zero-copy decoding

`BytesCursor` advances in two ways. Ordinary reads move its `position`; a `Bytes` in what is decoded
is split off the buffer, which first drops what is before the position. Either way the cursor has
the bytes from its position on left (`BytesCursor.At`), so it is an input over bytes, and
`scale_internal_decode_bytes` has the outcome its default body has on a slice
(`simulates_bytesDecode`).

So `decode_from_bytes` agrees with decoding the slice, and the position never passes the end of the
buffer (`TypeDefs.decodeFromBytes_agrees`).
-/

namespace ScaleCodec

variable {α : Type} {tgt : Target} {s s' : List Byte}

/-! ## The cursor -/

/-- `struct BytesCursor`. -/
structure BytesCursor where
  bytes : List Byte
  position : ℕ
deriving DecidableEq, Repr

namespace BytesCursor

/-- `self.bytes.len() - self.position`. -/
def remaining (c : BytesCursor) : Except Halt ℕ :=
  if c.position ≤ c.bytes.length then .ok (c.bytes.length - c.position)
  else .error (.panic "attempt to subtract with overflow")

/-- `Input::read`. -/
def read (n : ℕ) (c : BytesCursor) :
    Except Halt (Except Error (List.Vector Byte n) × BytesCursor) := do
  let remaining ← c.remaining
  if n > remaining then .ok (.error (.desc "Not enough data to fill buffer"), c)
  else if h : c.position + n ≤ c.bytes.length then
    let into : List.Vector Byte n :=
      ⟨(c.bytes.drop c.position).take n, by rw [List.length_take, List.length_drop]; omega⟩
    .ok (.ok into, { c with position := c.position + n })
  else .error (.panic "range end index out of range for slice")

/-- `Input::read_byte`, which is not overridden. -/
def readByte (c : BytesCursor) : Except Halt (Except Error Byte × BytesCursor) := do
  let (into, c') ← c.read 1
  .ok (into.map List.Vector.head, c')

/-- `impl Input for BytesCursor`, without `scale_internal_decode_bytes`. -/
def reads : Handler inputInterface Halt BytesCursor
  | .remainingLen, c => do
    let remaining ← c.remaining
    .ok (.ok (some remaining), c)
  | .read n, c => c.read n
  | .readByte, c => c.readByte
  | .descendRef, c => .ok (.ok (), c)
  | .ascendRef, c => .ok ((), c)
  | .onBeforeAllocMem _, c => .ok (.ok (), c)
  | .scaleInternalDecodeBytes, _ => .error notOverridden
  | .allocate _, c => .ok ((), c)

/-- `bytes::Buf::advance(&mut self.bytes, self.position); self.position = 0;` -/
def advance (c : BytesCursor) : Except Halt BytesCursor :=
  if c.position ≤ c.bytes.length then .ok ⟨c.bytes.drop c.position, 0⟩
  else .error (.panic "cannot advance past `remaining`")

/-- `BytesCursor::scale_internal_decode_bytes`. -/
def scaleInternalDecodeBytes (tgt : Target) (c : BytesCursor) :
    Except Halt (Except Error (List Prim.u8.Val) × BytesCursor) := do
  match ← (compactDecode tgt .u32).run.run reads c with
  | (.error e, c) => .ok (.error e, c)
  | (.ok length, c) =>
    let c ← c.advance
    -- `on_before_alloc_mem` keeps its default body
    if length.toNat > c.bytes.length then
      .ok (.error (.desc "Not enough data to fill buffer"), c)
    else .ok (.ok (c.bytes.take length.toNat), { c with bytes := c.bytes.drop length.toNat })

/-- `impl Input for BytesCursor`. -/
def input (tgt : Target) : Handler inputInterface Halt BytesCursor
  | .scaleInternalDecodeBytes, c => c.scaleInternalDecodeBytes tgt
  | call, c => reads call c

end BytesCursor

/-- `impl Decode for Bytes`, on the input that overrides `scale_internal_decode_bytes`. -/
def bytesDecode : DecodeM (List Prim.u8.Val) :=
  DecodeM.scaleInternalDecodeBytes

/-- `decode_from_bytes`. -/
def decodeFromBytes (tgt : Target) (p : DecodeM α) (bytes : List Byte) :
    Except Halt (Except Error α) :=
  Prod.fst <$> p.run.run (BytesCursor.input tgt) ⟨bytes, 0⟩

/-! ## The bytes left -/

namespace BytesCursor

/-- The position has not passed the end of the buffer. -/
def InBounds (c : BytesCursor) : Prop :=
  c.position ≤ c.bytes.length

/-- The cursor stands before the bytes `s`. -/
def At (c : BytesCursor) (s : List Byte) : Prop :=
  c.InBounds ∧ c.bytes.drop c.position = s

theorem InBounds.remaining {c : BytesCursor} (h : c.InBounds) :
    c.remaining = .ok (c.bytes.length - c.position) :=
  if_pos h

theorem InBounds.advance {c : BytesCursor} (h : c.InBounds) :
    c.advance = .ok ⟨c.bytes.drop c.position, 0⟩ :=
  if_pos h

theorem At.remaining {c : BytesCursor} (h : c.At s) : c.remaining = .ok s.length := by
  rw [h.1.remaining, ← h.2, List.length_drop]

theorem At.read {c : BytesCursor} (h : c.At s) (n : ℕ) :
    SameOutcome At (c.read n) (.ok (sliceRead n s)) := by
  have hlen : s.length = c.bytes.length - c.position := by rw [← h.2, List.length_drop]
  have hle : c.position ≤ c.bytes.length := h.1
  rw [BytesCursor.read, h.remaining, sliceRead]
  show SameOutcome At (if n > s.length then _ else _) _
  by_cases hn : n > s.length
  · rw [if_pos hn, dif_pos hn]
    exact .err
  · have hend : c.position + n ≤ c.bytes.length := by omega
    rw [if_neg hn, dif_neg hn, dif_pos hend]
    obtain ⟨-, rfl⟩ := h
    exact .ok ⟨hend, List.drop_drop.symm⟩

theorem At.readByte {c : BytesCursor} (h : c.At s) :
    SameOutcome At c.readByte (.ok (sliceReadByte s)) := by
  have hread := h.read 1
  rw [BytesCursor.readByte, sliceReadByte]
  generalize c.read 1 = y at hread
  generalize sliceRead 1 s = z at hread
  cases hread with
  | ok hR => exact .ok hR
  | err => exact .err

theorem reads_readsBytes : ReadsBytes reads At where
  remainingLen {c s} h := by
    refine ⟨some s.length, c, ?_, Or.inr rfl, h⟩
    show (c.remaining >>= fun remaining => _) = _
    rw [h.remaining]
    rfl
  read n h := h.read n
  readByte h := h.readByte
  descendRef _ := rfl
  ascendRef _ := rfl
  onBeforeAllocMem _ _ := rfl
  allocate _ _ := rfl

theorem input_readsBytes (tgt : Target) : ReadsBytes (input tgt) At where
  remainingLen := reads_readsBytes.remainingLen
  read := reads_readsBytes.read
  readByte := reads_readsBytes.readByte
  descendRef _ := rfl
  ascendRef _ := rfl
  onBeforeAllocMem _ _ := rfl
  allocate _ _ := rfl

end BytesCursor

/-! ## Splitting off a `Bytes` -/

theorem decodesList_u8 : ∀ {as : List Byte} {s : List Byte},
    DecodesList (primDecode .u8).decode as s s' ↔ s = as ++ s'
  | [], s => eq_comm
  | a :: as, s => by
    have hbyte : toLeBytes (n := 1) a = [a] :=
      (toLeBytes_of_oneByte (p := .u8) rfl a).trans (congrArg (fun b => [b]) (BitVec.setWidth_eq a))
    simp only [DecodesList, decodesList_u8]
    constructor
    · rintro ⟨t, ha, rfl⟩
      rw [decodes_primDecode.mp ha]
      exact congrArg (· ++ (as ++ s')) hbyte
    · rintro rfl
      refine ⟨as ++ s', decodes_primDecode.mpr ?_, rfl⟩
      exact congrArg (· ++ (as ++ s')) hbyte.symm

/-- A slice gives the bytes of a `Vec<u8>` if it has them. -/
theorem runSlice_decodeVecWithLen_u8 {n : ℕ} (hn : n ≤ tgt.usizeMax) (hs : n ≤ s.length) :
    runSlice (decodeVecWithLen tgt (primDecode .u8) n) s = .ok (.ok (s.take n), s.drop n) := by
  obtain ⟨as, has⟩ : ∃ as : List Prim.u8.Val, as = s.take n := ⟨_, rfl⟩
  have hlen : as.length = n := (congrArg List.length has).trans (List.length_take_of_le hs)
  have hd : DecodesList (primDecode .u8).decode as s (s.drop n) :=
    decodesList_u8.mpr ((List.take_append_drop n s).symm.trans (by rw [has]))
  have hmem : as.length * (primDecode .u8).size ≤ tgt.usizeMax := by
    rw [hlen]
    exact (Nat.mul_one n).le.trans hn
  have h := decodes_decodeVecWithLen (primDecode_lawful .u8) (by decide) hmem hd
  rw [hlen, has] at h
  exact h

theorem failsBelow_decodeVecWithLen_u8 (tgt : Target) {n : ℕ} :
    FailsBelow n (decodeVecWithLen tgt (primDecode .u8) n) := by
  have hobeys : Obeys Discipline.total 0 (decodeVecWithLen tgt (primDecode .u8) n) :=
    decodeVecWithLen_rel (L := Discipline.total.logic) (by decide) (.refl _)
      fun _ => (primDecode_rel .u8).decode
  refine failsBelow_of_obeys hobeys fun s as s' h => ?_
  obtain ⟨hlen, hd⟩ := decodesList_of_decodeVecWithLen (primDecode_lawful .u8) (by decide) h
  have hsum : s.length = as.length + s'.length :=
    (congrArg List.length (decodesList_u8.mp hd)).trans List.length_append
  omega

/-- `scale_internal_decode_bytes` of the cursor has the outcome of its default body on a slice. -/
theorem simulates_bytesDecode (tgt : Target) (size : ℕ) :
    Simulates (BytesCursor.input tgt) BytesCursor.At bytesDecode
      (vecDecode tgt size (primDecode .u8)).decode := by
  intro c s hc
  have hrun : bytesDecode.run.run (BytesCursor.input tgt) c = c.scaleInternalDecodeBytes tgt :=
    Prog.run_call_ret _ _ c
  have hlen : SameOutcome BytesCursor.At ((compactDecode tgt .u32).run.run BytesCursor.reads c)
      (runSlice (compactDecode tgt .u32) s) :=
    compactDecode_rel (L := BytesCursor.reads_readsBytes.logic) (d := 0) .u32 c s hc
  have hdef : (vecDecode tgt size (primDecode .u8)).decode =
      compactDecode tgt .u32 >>= fun len => decodeVecWithLen tgt (primDecode .u8) len.toNat := rfl
  rw [hrun, hdef, runSlice_bind, BytesCursor.scaleInternalDecodeBytes]
  generalize (compactDecode tgt .u32).run.run BytesCursor.reads c = y at hlen
  generalize runSlice (compactDecode tgt .u32) s = z at hlen
  cases hlen with
  | err => exact .err
  | halt => exact .halt
  | @ok len c' s' hR =>
    have hadvance : c'.advance = .ok ⟨s', 0⟩ := by rw [hR.1.advance, hR.2]
    have hlen : len.toNat ≤ tgt.usizeMax :=
      (Nat.le_sub_one_of_lt len.isLt).trans tgt.u32Max_le_usizeMax
    show SameOutcome BytesCursor.At (c'.advance >>= _)
      (runSlice (decodeVecWithLen tgt (primDecode .u8) len.toNat) s')
    rw [hadvance]
    show SameOutcome BytesCursor.At (if len.toNat > s'.length then _ else _) _
    split_ifs with hs
    · obtain ⟨e, t, he⟩ := failsBelow_decodeVecWithLen_u8 tgt s' hs
      rw [he]
      exact .err
    · rw [runSlice_decodeVecWithLen_u8 hlen (not_lt.mp hs)]
      exact .ok ⟨Nat.zero_le _, rfl⟩

/-! ## The position -/

namespace BytesCursor

theorem InBounds.of_read {n : ℕ} {c c' : BytesCursor} {r : Except Error (List.Vector Byte n)}
    (h : c.InBounds) (hread : c.read n = .ok (r, c')) : c'.InBounds := by
  rw [BytesCursor.read, h.remaining] at hread
  change (if n > _ then _ else if _ : _ then _ else _) = Except.ok (r, c') at hread
  split_ifs at hread with _ hend
  · cases hread
    exact h
  · cases hread
    exact hend

theorem InBounds.of_reads {call : InputCall} {c c' : BytesCursor} {r : call.Reply}
    (h : c.InBounds) (hc : reads call c = .ok (r, c')) : c'.InBounds := by
  cases call with
  | remainingLen =>
    change (c.remaining >>= fun remaining => _) = _ at hc
    rw [h.remaining] at hc
    cases hc
    exact h
  | read n => exact h.of_read hc
  | readByte =>
    change c.readByte = _ at hc
    rw [BytesCursor.readByte] at hc
    cases hread : c.read 1 with
    | error e =>
      rw [hread] at hc
      cases hc
    | ok x =>
      rw [hread] at hc
      cases hc
      exact h.of_read hread
  | scaleInternalDecodeBytes => cases hc
  | _ =>
    cases hc
    exact h

theorem InBounds.of_scaleInternalDecodeBytes {c c' : BytesCursor}
    {r : Except Error (List Prim.u8.Val)} (h : c.InBounds)
    (hc : c.scaleInternalDecodeBytes tgt = .ok (r, c')) : c'.InBounds := by
  rw [BytesCursor.scaleInternalDecodeBytes] at hc
  cases hrun : (compactDecode tgt .u32).run.run reads c with
  | error e =>
    rw [hrun] at hc
    cases hc
  | ok x =>
    have hx : x.2.InBounds := Prog.run_preserves
      (R := fun c c' : BytesCursor => c.InBounds → c'.InBounds) (fun _ h => h)
      (fun h₁ h₂ h => h₂ (h₁ h)) (fun _ _ _ _ hc h => h.of_reads hc) hrun h
    rw [hrun] at hc
    obtain ⟨_ | length, c₁⟩ := x
    · cases hc
      exact hx
    · change (c₁.advance >>= _) = _ at hc
      rw [hx.advance] at hc
      change (if _ > _ then _ else _) = Except.ok (r, c') at hc
      split_ifs at hc
      · cases hc
        exact Nat.zero_le _
      · cases hc
        exact Nat.zero_le _

theorem input_of_ne {call : InputCall} (hcall : call ≠ .scaleInternalDecodeBytes) :
    input tgt call = reads call := by
  cases call with
  | scaleInternalDecodeBytes => exact absurd rfl hcall
  | _ => rfl

theorem InBounds.of_input {call : InputCall} {c c' : BytesCursor} {r : call.Reply}
    (h : c.InBounds) (hc : input tgt call c = .ok (r, c')) : c'.InBounds := by
  by_cases hcall : call = .scaleInternalDecodeBytes
  · subst hcall
    exact h.of_scaleInternalDecodeBytes hc
  · rw [input_of_ne hcall] at hc
    exact h.of_reads hc

end BytesCursor

/-! ## `decode_from_bytes` -/

/-- Decoding from `Bytes` agrees with decoding from the slice of their contents, for the library's
types and declared ones, and at no moment has the position passed the end of the buffer. -/
theorem TypeDefs.decodeFromBytes_agrees {ι : Type} {ν : ι → Type} {P : Platform ν}
    {Δ : TypeDefs ν} (hΔ : Δ.Compiles P) {α : Type} {t : Ty ν α} (ht : t.Compiles P) (n : ℕ)
    (b : List Byte) :
    let p := (Δ.decodeWith P bytesDecode n t).decode
    let q := (Δ.decode P n t).decode
    (∀ v, decodeFromBytes P.target p b = .ok (.ok v) ↔ ∃ rest, Decodes q b v rest) ∧
    ((∃ e, decodeFromBytes P.target p b = .ok (.error e)) ↔
      ∃ e rest, runSlice q b = .ok (.error e, rest)) ∧
    (∀ h, decodeFromBytes P.target p b = .error h ↔ runSlice q b = .error h) ∧
    (∀ h, decodeFromBytes P.target p b = .error h → h = .outOfFuel) ∧
    ∀ m ∈ p.run.moments (BytesCursor.input P.target) ⟨b, 0⟩ [],
      m.2.position ≤ m.2.bytes.length ∧
      ∀ m' ∈ (compactDecode P.target .u32).run.moments BytesCursor.reads m.2 [],
        m'.2.position ≤ m'.2.bytes.length := by
  intro p q
  have hsim : Simulates (BytesCursor.input P.target) BytesCursor.At p q :=
    (TypeDefs.decodeWith_rel (L := (BytesCursor.input_readsBytes P.target).logic) (d := 0)
      (fun _ => simulates_bytesDecode P.target _) hΔ (Δ.errorsIn_of_forall fun _ => trivial) trivial
      ht (t.errorsIn_of_forall fun _ => trivial)).decode
  have hobeys : Obeys (Discipline.anyDepth (· = .outOfFuel)) 0 q :=
    (TypeDefs.decodeWith_obeys obeys_decodeBytes hΔ (Δ.errorsIn_of_forall fun _ => trivial) rfl
      ht (t.errorsIn_of_forall fun _ => trivial)).decode
  have houtcome := hsim ⟨b, 0⟩ b ⟨Nat.zero_le _, rfl⟩
  refine ⟨fun v => houtcome.fst_ok_iff, houtcome.fst_error_iff, fun h => houtcome.fst_halt_iff,
    fun h hh => ?_, fun m hm => ?_⟩
  · have hq := houtcome.fst_halt_iff.mp hh
    rcases runSlice_of_obeys (fun _ => trivial) hobeys b with ⟨r, s', hr⟩ | ⟨h', hr, hfuel⟩
    · cases hr.symm.trans hq
    · cases hr.symm.trans hq
      exact hfuel
  · have hm' : m.2.InBounds := Prog.of_mem_moments (Q := BytesCursor.InBounds)
      (fun _ _ _ _ h hc => h.of_input hc) (Nat.zero_le _) m hm
    exact ⟨hm', Prog.of_mem_moments (Q := BytesCursor.InBounds)
      (fun _ _ _ _ h hc => h.of_reads hc) hm'⟩

/-- `(Bytes, u8)` : the bytes are split off, and the byte after them is read. -/
theorem TypeDefs.decodeFromBytes_agrees_pair :
    let P := Platform.unpadded Empty.elim
    let Δ : TypeDefs Empty.elim := fun i => nomatch i
    let t : Ty Empty.elim _ := .pair .bytes (.prim .u8)
    Decodes (Δ.decode P 0 t).decode [8, 1, 2, 7] ([1, 2], 7) [] ∧
      decodeFromBytes P.target (Δ.decodeWith P bytesDecode 0 t).decode [8, 1, 2, 7] =
        .ok (.ok ([1, 2], 7)) := by
  intro P Δ t
  have h : Decodes (Δ.decode P 0 t).decode [8, 1, 2, 7] ([1, 2], 7) [] := rfl
  have hΔ : Δ.Compiles P := ⟨(fun i => nomatch i), (fun i => nomatch i), (fun i => nomatch i)⟩
  obtain ⟨hok, -⟩ := TypeDefs.decodeFromBytes_agrees hΔ (t := t) ⟨trivial, trivial⟩ 0 [8, 1, 2, 7]
  exact ⟨h, (hok ([1, 2], 7)).mpr ⟨[], h⟩⟩

end ScaleCodec
