import ScaleCodec.Traits

/-!
# Primitive types

`impl_endians!` and `impl_one_byte!` : the integers and floats, as their bit patterns, and
`bool`. Both macros write the little-endian bytes of the value (`primEncode_encode`) and
read them back (`decodes_primDecode`).
-/

namespace ScaleCodec

variable {s s' : List Byte}

/-- The types of `impl_one_byte!`; the others are those of `impl_endians!`. -/
def Prim.oneByte : Prim → Bool
  | u8 | i8 => true
  | _ => false

/-- `impl Encode` of `impl_endians!` and `impl_one_byte!`. -/
def primEncode (p : Prim) : Encode p.Val :=
  EncodeImpl.toEncode
    { typeInfo := .known p (Equiv.refl _)
      usingEncoded := some fun x => .ok (if p.oneByte then [x.setWidth 8] else toLeBytes x) }

/-- `impl Decode` of `impl_endians!` and `impl_one_byte!`. The latter does not override
`encoded_fixed_size`. -/
def primDecode (p : Prim) : Decode p.Val :=
  let decode : DecodeM p.Val :=
    if p.oneByte then (fun b => b.setWidth (8 * p.size)) <$> DecodeM.readByte
    else fromLeBytes <$> DecodeM.read p.size
  { typeInfo := .known p (Equiv.refl _)
    size := p.size
    decode := decode
    decodeInto := decode
    skip := (fun _ => ()) <$> decode
    encodedFixedSize := if p.oneByte then none else some p.size }

theorem Prim.size_of_oneByte {p : Prim} (h : p.oneByte) : p.size = 1 := by
  cases p <;> simp_all [Prim.oneByte, Prim.size]

theorem toLeBytes_of_oneByte {p : Prim} (h : p.oneByte) (x : p.Val) :
    toLeBytes x = [x.setWidth 8] := by
  have hsize : leBytes p.size x.toNat = leBytes 1 x.toNat :=
    congrArg (leBytes · x.toNat) (Prim.size_of_oneByte h)
  rw [toLeBytes, hsize]
  simp only [leBytes, List.cons.injEq, and_true]
  apply BitVec.eq_of_toNat_eq
  rw [BitVec.toNat_ofNat, BitVec.toNat_setWidth]

/-- A primitive value is encoded as its little-endian bytes. -/
theorem primEncode_encode (p : Prim) (x : p.Val) : (primEncode p).encode x = .ok (toLeBytes x) := by
  show Except.ok (written [.write (if p.oneByte then [x.setWidth 8] else toLeBytes x)]) = _
  rw [written_write]
  split_ifs with h
  · rw [toLeBytes_of_oneByte h]
  · rfl

theorem primEncode_lawful (p : Prim) : (primEncode p).Lawful := by
  refine ⟨fun _ => rfl, fun x => (EncodeImpl.written_map_write _).symm, fun q e h x => ?_⟩
  cases h
  exact primEncode_encode p x

theorem decodes_fromLeBytes {n : ℕ} {x : BitVec (8 * n)} :
    Decodes (fromLeBytes <$> DecodeM.read n) s x s' ↔ s = toLeBytes x ++ s' := by
  rw [decodes_map]
  simp only [decodes_read]
  constructor
  · rintro ⟨buf, rfl, rfl⟩
    rw [toLeBytes_eq_iff.mpr rfl]
  · rintro rfl
    refine ⟨⟨toLeBytes x, length_toLeBytes x⟩, rfl, ?_⟩
    exact (toLeBytes_eq_iff.mp rfl).symm

/-- A primitive decoder reads the little-endian bytes of the value it returns. -/
theorem decodes_primDecode {p : Prim} {x : p.Val} :
    Decodes (primDecode p).decode s x s' ↔ s = toLeBytes x ++ s' := by
  show Decodes (if p.oneByte then _ else _) s x s' ↔ _
  split_ifs with h
  · rw [toLeBytes_of_oneByte h, decodes_map]
    simp only [decodes_readByte]
    have hsize : 8 * p.size = 8 := by rw [Prim.size_of_oneByte h]
    constructor
    · rintro ⟨b, rfl, rfl⟩
      simp [hsize]
    · rintro rfl
      exact ⟨x.setWidth 8, rfl, by simp [hsize]⟩
  · exact decodes_fromLeBytes

theorem primDecode_lawful (p : Prim) : (primDecode p).Lawful := by
  refine ⟨fun _ _ _ => Iff.rfl, fun _ _ _ => decodes_skip, fun q e h => ?_⟩
  cases h
  exact ⟨rfl, fun _ _ _ => decodes_primDecode⟩

theorem primDecode_rel {L : ReadLogic} {d : ℕ} (p : Prim) :
    (primDecode p).Rel L d (primDecode p) := by
  have h : L.Rel d (primDecode p).decode (primDecode p).decode :=
    L.rel_ite (fun _ => L.rel_map L.rel_readByte) fun _ => L.rel_map (L.rel_read _)
  exact ⟨h, h, L.rel_map h⟩

/-! ## `bool` -/

/-- `impl Encode for bool`. -/
def boolEncode : Encode Bool :=
  EncodeImpl.toEncode { usingEncoded := some fun b => .ok [if b then 1 else 0] }

/-- `impl Decode for bool`. -/
def boolDecode : Decode Bool :=
  { Decode.ofDecode 1 (do
      let byte ← DecodeM.readByte
      if byte = 0 then pure false
      else if byte = 1 then pure true
      else DecodeM.err "Invalid boolean representation") with
    encodedFixedSize := some 1 }

theorem boolEncode_lawful : boolEncode.Lawful :=
  EncodeImpl.lawful_usingEncoded _

theorem boolEncode_encode (b : Bool) : boolEncode.encode b = .ok [if b then 1 else 0] :=
  rfl

theorem decodes_boolDecode {b : Bool} :
    Decodes boolDecode.decode s b s' ↔ s = (if b then 1 else 0) :: s' := by
  show Decodes (_ >>= _) s b s' ↔ _
  simp only [decodes_bind, decodes_readByte]
  constructor
  · rintro ⟨byte, t, rfl, h⟩
    split_ifs at h with h0 h1
    · obtain ⟨rfl, rfl⟩ := decodes_pure.mp h
      simp [h0]
    · obtain ⟨rfl, rfl⟩ := decodes_pure.mp h
      simp [h1]
    · simp at h
  · rintro rfl
    cases b
    · exact ⟨0, s', rfl, by simp⟩
    · exact ⟨1, s', rfl, by simp⟩

theorem boolDecode_lawful : boolDecode.Lawful :=
  ⟨fun _ _ _ => Iff.rfl, fun _ _ _ => decodes_skip, fun _ _ h => by cases h⟩

theorem boolDecode_rel {L : ReadLogic} {d : ℕ} : boolDecode.Rel L d boolDecode := by
  have h : L.Rel d boolDecode.decode boolDecode.decode :=
    L.rel_bind L.rel_readByte fun _ => L.rel_ite (fun _ => L.rel_pure _) fun _ =>
      L.rel_ite (fun _ => L.rel_pure _) fun _ => L.rel_err (by decide)
  exact ⟨h, h, L.rel_map h⟩

end ScaleCodec
