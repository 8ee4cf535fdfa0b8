import ScaleCodec.Sequences

/-!
# Options, tuples, references and strings

The remaining `impl`s of `codec.rs` that are not collections. Each is a function of the `impl`s
of its parameters, with what it encodes to (`encodes_optionEncode_some`, `encodes_pairEncode`, ...)
and what it decodes (`decodes_optionDecode`, `decodes_pairDecode`, ...). `Box` enters a reference
around `decode_into` of its content; `Rc` and `Arc` go through `Box`.
-/

namespace ScaleCodec

variable {α β : Type} {s s' : List Byte} {bs : List Byte}

section Sums

variable {E : Encode α} {F : Encode β} {I : Decode α} {J : Decode β} {size : ℕ}

/-! ## `Result`, `Option` and `OptionBool` -/

/-- `impl Encode for Result<T, E>`. -/
def resultEncode (E : Encode α) (F : Encode β) : Encode (Except β α) :=
  EncodeImpl.toEncode
    { encodeTo := some fun v =>
        match v with
        | .ok t => writeThen (.ok [.pushByte 0]) (E.encodeTo t)
        | .error e => writeThen (.ok [.pushByte 1]) (F.encodeTo e) }

/-- `impl Decode for Result<T, E>`. -/
def resultDecode (size : ℕ) (I : Decode α) (J : Decode β) : Decode (Except β α) :=
  Decode.ofDecode size (do
    let byte ← DecodeM.readByte.chainErr "Could not result variant byte for `Result`"
    if byte = 0 then
      .ok <$> I.decode.chainErr "Could not Decode `Result::Ok(T)`"
    else if byte = 1 then
      .error <$> J.decode.chainErr "Could not decode `Result::Error(E)`"
    else DecodeM.err "unexpected first byte decoding Result")

/-- `impl Encode for Option<T>`. -/
def optionEncode (E : Encode α) : Encode (Option α) :=
  EncodeImpl.toEncode
    { encodeTo := some fun v =>
        match v with
        | some t => writeThen (.ok [.pushByte 1]) (E.encodeTo t)
        | none => .ok [.pushByte 0] }

/-- `impl Decode for Option<T>`. -/
def optionDecode (size : ℕ) (I : Decode α) : Decode (Option α) :=
  Decode.ofDecode size (do
    let byte ← DecodeM.readByte.chainErr "Could not decode variant byte for `Option`"
    if byte = 0 then pure none
    else if byte = 1 then some <$> I.decode.chainErr "Could not decode `Option::Some(T)`"
    else DecodeM.err "unexpected first byte decoding Option")

/-- `struct OptionBool(pub Option<bool>)`. -/
structure OptionBool where
  value : Option Bool
deriving DecidableEq, Repr

/-- The byte of an `OptionBool`. -/
def OptionBool.byte : OptionBool → Byte
  | ⟨none⟩ => 0
  | ⟨some true⟩ => 1
  | ⟨some false⟩ => 2

/-- `impl Encode for OptionBool`. -/
def optionBoolEncode : Encode OptionBool :=
  EncodeImpl.toEncode { usingEncoded := some fun v => .ok [v.byte] }

/-- `impl Decode for OptionBool`. -/
def optionBoolDecode (size : ℕ) : Decode OptionBool :=
  Decode.ofDecode size (do
    let byte ← DecodeM.readByte
    if byte = 0 then pure ⟨none⟩
    else if byte = 1 then pure ⟨some true⟩
    else if byte = 2 then pure ⟨some false⟩
    else DecodeM.err "unexpected first byte decoding OptionBool")

theorem writes_pushByte_then {b : Byte} {x : Except Halt (List Write)} :
    Writes (writeThen (.ok [.pushByte b]) x) bs ↔ ∃ c, Writes x c ∧ bs = b :: c := by
  simp [writes_writeThen]

theorem encodes_resultEncode_ok (hE : E.Lawful) {a : α} :
    Encodes (resultEncode E F) (.ok a) bs ↔ ∃ c, Encodes E a c ∧ bs = 0 :: c := by
  refine EncodeImpl.encodes_encodeTo.trans (writes_pushByte_then.trans ?_)
  simp only [hE.writes]

theorem encodes_resultEncode_error (hF : F.Lawful) {b : β} :
    Encodes (resultEncode E F) (.error b) bs ↔ ∃ c, Encodes F b c ∧ bs = 1 :: c := by
  refine EncodeImpl.encodes_encodeTo.trans (writes_pushByte_then.trans ?_)
  simp only [hF.writes]

/-- What `Result::decode` accepts. -/
theorem decodes_resultDecode {v : Except β α} :
    Decodes (resultDecode size I J).decode s v s' ↔
      (∃ a t, v = .ok a ∧ s = 0 :: t ∧ Decodes I.decode t a s') ∨
        ∃ b t, v = .error b ∧ s = 1 :: t ∧ Decodes J.decode t b s' := by
  refine decodes_bind.trans ?_
  simp only [decodes_chainErr, decodes_readByte]
  constructor
  · rintro ⟨byte, t, rfl, h⟩
    split_ifs at h with h0 h1
    · obtain ⟨a, ha, rfl⟩ := decodes_map.mp h
      exact Or.inl ⟨a, t, rfl, by rw [h0], decodes_chainErr.mp ha⟩
    · obtain ⟨b, hb, rfl⟩ := decodes_map.mp h
      exact Or.inr ⟨b, t, rfl, by rw [h1], decodes_chainErr.mp hb⟩
    · simp at h
  · rintro (⟨a, t, rfl, rfl, ha⟩ | ⟨b, t, rfl, rfl, hb⟩)
    · exact ⟨0, t, rfl, decodes_map.mpr ⟨a, decodes_chainErr.mpr ha, rfl⟩⟩
    · exact ⟨1, t, rfl, decodes_map.mpr ⟨b, decodes_chainErr.mpr hb, rfl⟩⟩

theorem encodes_optionEncode_some (hE : E.Lawful) {a : α} :
    Encodes (optionEncode E) (some a) bs ↔ ∃ c, Encodes E a c ∧ bs = 1 :: c := by
  refine EncodeImpl.encodes_encodeTo.trans (writes_pushByte_then.trans ?_)
  simp only [hE.writes]

theorem encodes_optionEncode_none : Encodes (optionEncode E) none bs ↔ bs = [0] :=
  EncodeImpl.encodes_encodeTo.trans writes_ok

/-- What `Option::decode` accepts. -/
theorem decodes_optionDecode {v : Option α} :
    Decodes (optionDecode size I).decode s v s' ↔
      (v = none ∧ s = 0 :: s') ∨ ∃ a t, v = some a ∧ s = 1 :: t ∧ Decodes I.decode t a s' := by
  refine decodes_bind.trans ?_
  simp only [decodes_chainErr, decodes_readByte]
  constructor
  · rintro ⟨byte, t, rfl, h⟩
    split_ifs at h with h0 h1
    · obtain ⟨rfl, rfl⟩ := decodes_pure.mp h
      exact Or.inl ⟨rfl, by rw [h0]⟩
    · obtain ⟨a, ha, rfl⟩ := decodes_map.mp h
      exact Or.inr ⟨a, t, rfl, by rw [h1], decodes_chainErr.mp ha⟩
    · simp at h
  · rintro (⟨rfl, rfl⟩ | ⟨a, t, rfl, rfl, ha⟩)
    · exact ⟨0, s', rfl, decodes_pure.mpr ⟨rfl, rfl⟩⟩
    · exact ⟨1, t, rfl, decodes_map.mpr ⟨a, decodes_chainErr.mpr ha, rfl⟩⟩

theorem encodes_optionBoolEncode {v : OptionBool} :
    Encodes optionBoolEncode v bs ↔ bs = [v.byte] :=
  EncodeImpl.encodes_usingEncoded.trans ⟨fun h => (Except.ok.inj h).symm, fun h => by rw [h]⟩

theorem decodes_optionBoolDecode {v : OptionBool} :
    Decodes (optionBoolDecode size).decode s v s' ↔ s = v.byte :: s' := by
  refine decodes_bind.trans ?_
  simp only [decodes_readByte]
  constructor
  · rintro ⟨byte, t, rfl, h⟩
    split_ifs at h with h0 h1 h2
    · obtain ⟨rfl, rfl⟩ := decodes_pure.mp h
      rw [h0]
      rfl
    · obtain ⟨rfl, rfl⟩ := decodes_pure.mp h
      rw [h1]
      rfl
    · obtain ⟨rfl, rfl⟩ := decodes_pure.mp h
      rw [h2]
      rfl
    · simp at h
  · rintro rfl
    obtain ⟨_ | _ | _⟩ := v
    · exact ⟨0, s', rfl, decodes_pure.mpr ⟨rfl, rfl⟩⟩
    · exact ⟨2, s', rfl, decodes_pure.mpr ⟨rfl, rfl⟩⟩
    · exact ⟨1, s', rfl, decodes_pure.mpr ⟨rfl, rfl⟩⟩

variable {L : ReadLogic} {d : ℕ} {I' : Decode α} {J' : Decode β}

theorem resultDecode_rel (hI : L.Rel d I.decode I'.decode) (hJ : L.Rel d J.decode J'.decode) :
    (resultDecode size I J).Rel L d (resultDecode size I' J') := by
  refine Decode.rel_ofDecode (L.rel_bind (L.rel_chainErr L.rel_readByte) fun _ => ?_)
  refine L.rel_ite (fun _ => L.rel_map (L.rel_chainErr hI)) fun _ => ?_
  exact L.rel_ite (fun _ => L.rel_map (L.rel_chainErr hJ)) fun _ => L.rel_err (by decide)

theorem optionDecode_rel (hI : L.Rel d I.decode I'.decode) :
    (optionDecode size I).Rel L d (optionDecode size I') := by
  refine Decode.rel_ofDecode (L.rel_bind (L.rel_chainErr L.rel_readByte) fun _ => ?_)
  refine L.rel_ite (fun _ => L.rel_pure _) fun _ => ?_
  exact L.rel_ite (fun _ => L.rel_map (L.rel_chainErr hI)) fun _ => L.rel_err (by decide)

theorem optionBoolDecode_rel : (optionBoolDecode size).Rel L d (optionBoolDecode size) := by
  refine Decode.rel_ofDecode (L.rel_bind L.rel_readByte fun _ => ?_)
  refine L.rel_ite (fun _ => L.rel_pure _) fun _ => L.rel_ite (fun _ => L.rel_pure _) fun _ => ?_
  exact L.rel_ite (fun _ => L.rel_pure _) fun _ => L.rel_err (by decide)

end Sums

/-! ## Numbers that are not zero, and `()` -/

/-- The integer types, which have a `NonZero` type. -/
def Prim.isInt : Prim → Bool
  | f32 | f64 => false
  | _ => true

/-- `NonZero` of an integer type. -/
abbrev NonZero (p : Prim) : Type :=
  { x : p.Val // x ≠ 0 }

/-- `impl Encode` of `impl_for_non_zero!`. -/
def nonZeroEncode (p : Prim) : Encode (NonZero p) :=
  (primEncode p).forward Subtype.val

/-- `impl Decode` of `impl_for_non_zero!`. -/
def nonZeroDecode (p : Prim) : Decode (NonZero p) :=
  Decode.ofDecode p.size (do
    let x ← (primDecode p).decode
    if h : x = 0 then DecodeM.err "cannot create non-zero number from 0" else pure ⟨x, h⟩)

theorem encodes_nonZeroEncode {p : Prim} {v : NonZero p} :
    Encodes (nonZeroEncode p) v bs ↔ bs = toLeBytes v.val := by
  rw [nonZeroEncode, encodes_forward, Encodes, primEncode_encode]
  exact ⟨fun h => (Except.ok.inj h).symm, fun h => by rw [h]⟩

theorem decodes_nonZeroDecode {p : Prim} {v : NonZero p} :
    Decodes (nonZeroDecode p).decode s v s' ↔ s = toLeBytes v.val ++ s' := by
  refine decodes_bind.trans ?_
  simp only [decodes_primDecode]
  constructor
  · rintro ⟨x, t, rfl, h⟩
    split_ifs at h with hx
    · simp at h
    · obtain ⟨rfl, rfl⟩ := decodes_pure.mp h
      rfl
  · rintro rfl
    refine ⟨v.val, s', rfl, ?_⟩
    rw [dif_neg v.property]
    exact decodes_pure.mpr ⟨rfl, rfl⟩

theorem nonZeroDecode_rel {L : ReadLogic} {d : ℕ} (p : Prim) :
    (nonZeroDecode p).Rel L d (nonZeroDecode p) :=
  Decode.rel_ofDecode <| L.rel_bind (primDecode_rel p).decode fun _ =>
    L.rel_dite (fun _ => L.rel_err (by decide)) fun _ => L.rel_pure _

/-- `impl Encode for ()`. -/
def unitEncode : Encode Unit :=
  EncodeImpl.toEncode
    { encodeTo := some fun _ => .ok []
      encode := some fun _ => .ok []
      usingEncoded := some fun _ => .ok [] }

/-- `impl Decode for ()`. -/
def unitDecode : Decode Unit :=
  Decode.ofDecode 0 (pure ())

/-- `impl Encode for PhantomData<T>`. -/
def phantomDataEncode : Encode Unit :=
  EncodeImpl.toEncode { encodeTo := some fun _ => .ok [] }

theorem unitEncode_lawful : unitEncode.Lawful :=
  ⟨fun _ => rfl, fun _ => rfl, fun _ _ h => by cases h⟩

theorem encodes_unitEncode {v : Unit} : Encodes unitEncode v bs ↔ bs = [] :=
  ⟨fun h => (Except.ok.inj h).symm, fun h => by rw [h]; rfl⟩

theorem encodes_phantomDataEncode {v : Unit} : Encodes phantomDataEncode v bs ↔ bs = [] :=
  ⟨fun h => (Except.ok.inj h).symm, fun h => by rw [h]; rfl⟩

theorem decodes_unitDecode {v : Unit} : Decodes unitDecode.decode s v s' ↔ s' = s :=
  decodes_pure.trans (and_iff_right rfl)

/-! ## Tuples -/

section Tuples

variable {E : Encode α} {F : Encode β} {I : Decode α} {J : Decode β} {size : ℕ}

/-- `impl Encode for (A, B)`. A longer tuple is a pair whose second component is the rest. -/
def pairEncode (E : Encode α) (F : Encode β) : Encode (α × β) :=
  EncodeImpl.toEncode
    { encodeTo := some fun v => writeThen (E.encodeTo v.1) (F.encodeTo v.2) }

/-- `impl Decode for (A, B)`. -/
def pairDecode (size : ℕ) (I : Decode α) (J : Decode β) : Decode (α × β) :=
  Decode.ofDecode size (do
    let a ← I.decode
    let b ← J.decode
    pure (a, b))

theorem pairEncode_lawful : (pairEncode E F).Lawful :=
  EncodeImpl.lawful_encodeTo _

theorem encodes_pairEncode (hE : E.Lawful) (hF : F.Lawful) {v : α × β} :
    Encodes (pairEncode E F) v bs ↔
      ∃ b c, Encodes E v.1 b ∧ Encodes F v.2 c ∧ bs = b ++ c := by
  refine EncodeImpl.encodes_encodeTo.trans (writes_writeThen.trans ?_)
  simp only [hE.writes, hF.writes]

theorem decodes_pairDecode {v : α × β} :
    Decodes (pairDecode size I J).decode s v s' ↔
      ∃ t, Decodes I.decode s v.1 t ∧ Decodes J.decode t v.2 s' := by
  refine decodes_bind.trans ?_
  simp only [decodes_bind, decodes_pure]
  constructor
  · rintro ⟨a, t, ha, b, u, hb, rfl, rfl⟩
    exact ⟨t, ha, hb⟩
  · rintro ⟨t, ha, hb⟩
    exact ⟨_, t, ha, _, s', hb, rfl, rfl⟩

theorem pairDecode_rel {L : ReadLogic} {d : ℕ} {I' : Decode α} {J' : Decode β}
    (hI : L.Rel d I.decode I'.decode) (hJ : L.Rel d J.decode J'.decode) :
    (pairDecode size I J).Rel L d (pairDecode size I' J') :=
  Decode.rel_ofDecode <| L.rel_bind hI fun _ => L.rel_bind hJ fun _ => L.rel_pure _

end Tuples

/-! ## References -/

section References

variable {I : Decode α} {size : ℕ}

/-- `impl WrapperTypeDecode for Box<T>`. -/
def boxDecode (size : ℕ) (I : Decode α) : Decode α :=
  Decode.ofDecode size (DecodeM.nested do
    DecodeM.onBeforeAllocMem I.size
    DecodeM.allocate I.size
    I.decodeInto)

/-- `impl WrapperTypeDecode for Rc<T>` and `Arc<T>` : through the `Box`, of `boxSize` bytes. -/
def rcDecode (size boxSize : ℕ) (I : Decode α) : Decode α :=
  Decode.ofDecode size (boxDecode boxSize I).decode

theorem decodes_boxDecode (hI : I.Lawful) {a : α} :
    Decodes (boxDecode size I).decode s a s' ↔ Decodes I.decode s a s' := by
  refine decodes_nested.trans (decodes_bind.trans ?_)
  simp only [decodes_onBeforeAllocMem, decodes_bind, decodes_allocate, hI.decodeInto]
  constructor
  · rintro ⟨_, t, rfl, _, u, rfl, h⟩
    exact h
  · exact fun h => ⟨(), s, rfl, (), s, rfl, h⟩

/-- The content of a `Box` is decoded one deeper. -/
theorem boxDecode_rel {L : DecoderLogic} {d : ℕ} {J : Decode α} (hIJ : I.SameShape J)
    (hI : L.depthOk (d + 1) → L.Rel (d + 1) I.decodeInto J.decodeInto) :
    (boxDecode size I).Rel L d (boxDecode size J) := by
  refine Decode.rel_ofDecode (L.rel_nested fun hd => ?_)
  rw [← hIJ.size]
  exact L.rel_claim le_rfl (hI hd)

end References

/-! ## Strings -/

section Strings

variable {tgt : Target}

/-- A byte of a string, as a value. -/
def u8Val : UInt8 ≃ Prim.u8.Val where
  toFun := UInt8.toBitVec
  invFun := UInt8.ofBitVec
  left_inv _ := rfl
  right_inv _ := rfl

/-- `as_bytes()`. -/
def utf8Bytes (v : String) : List Prim.u8.Val :=
  v.toByteArray.data.toList.map u8Val

/-- `String::from_utf8`. -/
def fromUtf8 (bytes : List Prim.u8.Val) : Option String :=
  String.fromUTF8? ⟨(bytes.map u8Val.symm).toArray⟩

/-- `impl Encode for str`. -/
def strEncode (tgt : Target) : Encode String :=
  (sliceEncode tgt (primEncode .u8)).forward utf8Bytes

/-- `impl WrapperTypeEncode for String`. -/
def stringEncode (tgt : Target) : Encode String :=
  (strEncode tgt).forward id

/-- `impl Decode for String`, of a `Vec<u8>` of `vecSize` bytes. -/
def stringDecode (tgt : Target) (size vecSize : ℕ) : Decode String :=
  Decode.ofDecode size (do
    let bytes ← (vecDecode tgt vecSize (primDecode .u8)).decode
    match fromUtf8 bytes with
    | some v => pure v
    | none => DecodeM.err "Invalid utf8 sequence")

theorem fromUtf8_eq_some {bytes : List Prim.u8.Val} {v : String} :
    fromUtf8 bytes = some v ↔ bytes = utf8Bytes v := by
  unfold fromUtf8 String.fromUTF8? utf8Bytes
  constructor
  · intro h
    split_ifs at h with hv
    obtain rfl := Option.some.inj h
    show bytes = ((bytes.map u8Val.symm).toArray.toList).map u8Val
    rw [List.toList_toArray, List.map_map, Equiv.self_comp_symm, List.map_id]
  · rintro rfl
    rw [List.map_map, Equiv.symm_comp_self, List.map_id, Array.toArray_toList]
    rw [dif_pos v.isValidUTF8]
    rfl

theorem encodes_stringEncode {v : String} :
    Encodes (stringEncode tgt) v bs ↔ Encodes (vecEncode tgt (primEncode .u8)) (utf8Bytes v) bs :=
  Iff.rfl

theorem decodes_stringDecode {size vecSize : ℕ} {v : String} :
    Decodes (stringDecode tgt size vecSize).decode s v s' ↔
      Decodes (vecDecode tgt vecSize (primDecode .u8)).decode s (utf8Bytes v) s' := by
  refine decodes_bind.trans ?_
  constructor
  · rintro ⟨bytes, t, hb, h⟩
    cases hv : fromUtf8 bytes with
    | none =>
      rw [hv] at h
      simp at h
    | some w =>
      rw [hv] at h
      obtain ⟨rfl, rfl⟩ := decodes_pure.mp h
      rwa [← fromUtf8_eq_some.mp hv]
  · intro h
    refine ⟨_, s', h, ?_⟩
    rw [fromUtf8_eq_some.mpr rfl]
    exact decodes_pure.mpr ⟨rfl, rfl⟩

/-- The default `scale_internal_decode_bytes`, and the bytes of a string. -/
theorem decodeBytes_rel {L : DecoderLogic} {size : ℕ} (d : ℕ) :
    L.Rel d (vecDecode tgt size (primDecode .u8)).decode
      (vecDecode tgt size (primDecode .u8)).decode :=
  (vecDecode_rel (by decide) (.refl _) fun _ => (primDecode_rel .u8).decode).decode

theorem stringDecode_rel {L : DecoderLogic} {d size vecSize : ℕ} :
    (stringDecode tgt size vecSize).Rel L d (stringDecode tgt size vecSize) := by
  refine Decode.rel_ofDecode (L.rel_bind (decodeBytes_rel d) fun bytes => ?_)
  cases fromUtf8 bytes with
  | some v => exact L.rel_pure _
  | none => exact L.rel_err (by decide)

end Strings

/-! ## `Duration` and ranges -/

section Structs

variable {E : Encode α} {I : Decode α} {size pairSize : ℕ}

/-- `A_BILLION`. -/
def aBillion : ℕ :=
  1_000_000_000

/-- `core::time::Duration`. -/
structure Duration where
  secs : Prim.u64.Val
  nanos : Prim.u32.Val
  nanos_lt : nanos.toNat < aBillion

/-- `impl Encode for Duration`. -/
def durationEncode : Encode Duration :=
  EncodeImpl.toEncode
    { encode := some fun v =>
        (pairEncode (primEncode .u64) (primEncode .u32)).encode (v.secs, v.nanos) }

/-- `impl Decode for Duration`. -/
def durationDecode (size pairSize : ℕ) : Decode Duration :=
  Decode.ofDecode size (do
    let v ← (pairDecode pairSize (primDecode .u64) (primDecode .u32)).decode.chainErr
      "Could not decode `Duration(u64, u32)`"
    if h : v.2.toNat ≥ aBillion then
      DecodeM.err
        "Could not decode `Duration`: Number of nanoseconds should not be higher than 10^9."
    else pure ⟨v.1, v.2, not_le.mp h⟩)

/-- `core::ops::Range`. -/
@[ext] structure Range (α : Type) where
  start : α
  «end» : α

/-- `impl Encode for Range<T>`. -/
def rangeEncode (E : Encode α) : Encode (Range α) :=
  EncodeImpl.toEncode { encode := some fun v => (pairEncode E E).encode (v.start, v.end) }

/-- `impl Decode for Range<T>`. -/
def rangeDecode (size pairSize : ℕ) (I : Decode α) : Decode (Range α) :=
  Decode.ofDecode size (do
    let v ← (pairDecode pairSize I I).decode.chainErr "Could not decode `Range<T>`"
    pure ⟨v.1, v.2⟩)

/-- `core::ops::RangeInclusive`, with the flag that iteration sets. -/
@[ext] structure RangeInclusive (α : Type) where
  start : α
  «end» : α
  exhausted : Bool

/-- `impl Encode for RangeInclusive<T>`. -/
def rangeInclusiveEncode (E : Encode α) : Encode (RangeInclusive α) :=
  EncodeImpl.toEncode { encode := some fun v => (pairEncode E E).encode (v.start, v.end) }

/-- `impl Decode for RangeInclusive<T>`. -/
def rangeInclusiveDecode (size pairSize : ℕ) (I : Decode α) : Decode (RangeInclusive α) :=
  Decode.ofDecode size (do
    let v ← (pairDecode pairSize I I).decode.chainErr "Could not decode `RangeInclusive<T>`"
    pure ⟨v.1, v.2, false⟩)

theorem encodes_durationEncode {v : Duration} :
    Encodes durationEncode v bs ↔ bs = toLeBytes v.secs ++ toLeBytes v.nanos := by
  refine EncodeImpl.encodes_encode.trans
    ((encodes_pairEncode (primEncode_lawful _) (primEncode_lawful _)).trans ?_)
  simp only [Encodes, primEncode_encode, Except.ok.injEq]
  constructor
  · rintro ⟨_, _, rfl, rfl, rfl⟩
    rfl
  · rintro rfl
    exact ⟨_, _, rfl, rfl, rfl⟩

theorem decodes_durationDecode {v : Duration} :
    Decodes (durationDecode size pairSize).decode s v s' ↔
      s = toLeBytes v.secs ++ toLeBytes v.nanos ++ s' := by
  refine decodes_bind.trans ?_
  simp only [decodes_chainErr, decodes_pairDecode, decodes_primDecode]
  constructor
  · rintro ⟨⟨secs, nanos⟩, t, ⟨_, rfl, rfl⟩, h⟩
    split_ifs at h
    · simp at h
    · obtain ⟨rfl, rfl⟩ := decodes_pure.mp h
      exact (List.append_assoc _ _ _).symm
  · rintro rfl
    refine ⟨(v.secs, v.nanos), s', ⟨_, List.append_assoc _ _ _, rfl⟩, ?_⟩
    rw [dif_neg (not_le.mpr v.nanos_lt)]
    exact decodes_pure.mpr ⟨rfl, rfl⟩

theorem durationDecode_rel {L : ReadLogic} {d : ℕ} :
    (durationDecode size pairSize).Rel L d (durationDecode size pairSize) := by
  refine Decode.rel_ofDecode (L.rel_bind (L.rel_chainErr ?_) fun _ => ?_)
  · exact (pairDecode_rel (primDecode_rel _).decode (primDecode_rel _).decode).decode
  · exact L.rel_dite (fun _ => L.rel_err (by decide)) fun _ => L.rel_pure _

theorem encodes_rangeEncode {v : Range α} :
    Encodes (rangeEncode E) v bs ↔ Encodes (pairEncode E E) (v.start, v.end) bs :=
  Iff.rfl

theorem decodes_rangeDecode {v : Range α} :
    Decodes (rangeDecode size pairSize I).decode s v s' ↔
      Decodes (pairDecode pairSize I I).decode s (v.start, v.end) s' := by
  refine decodes_bind.trans ?_
  simp only [decodes_chainErr, decodes_pure]
  constructor
  · rintro ⟨w, t, h, rfl, rfl⟩
    exact h
  · exact fun h => ⟨_, s', h, rfl, rfl⟩

theorem rangeDecode_rel {L : ReadLogic} {d : ℕ} {J : Decode α}
    (hI : L.Rel d I.decode J.decode) :
    (rangeDecode size pairSize I).Rel L d (rangeDecode size pairSize J) :=
  Decode.rel_ofDecode <| L.rel_bind (L.rel_chainErr (pairDecode_rel hI hI).decode) fun _ =>
    L.rel_pure _

theorem encodes_rangeInclusiveEncode {v : RangeInclusive α} :
    Encodes (rangeInclusiveEncode E) v bs ↔ Encodes (pairEncode E E) (v.start, v.end) bs :=
  Iff.rfl

theorem decodes_rangeInclusiveDecode {v : RangeInclusive α} :
    Decodes (rangeInclusiveDecode size pairSize I).decode s v s' ↔
      v.exhausted = false ∧ Decodes (pairDecode pairSize I I).decode s (v.start, v.end) s' := by
  refine decodes_bind.trans ?_
  simp only [decodes_chainErr, decodes_pure]
  constructor
  · rintro ⟨w, t, h, rfl, rfl⟩
    exact ⟨rfl, h⟩
  · rintro ⟨hv, h⟩
    obtain ⟨start, stop, exhausted⟩ := v
    obtain rfl : exhausted = false := hv
    exact ⟨_, s', h, rfl, rfl⟩

theorem rangeInclusiveDecode_rel {L : ReadLogic} {d : ℕ} {J : Decode α}
    (hI : L.Rel d I.decode J.decode) :
    (rangeInclusiveDecode size pairSize I).Rel L d (rangeInclusiveDecode size pairSize J) :=
  Decode.rel_ofDecode <| L.rel_bind (L.rel_chainErr (pairDecode_rel hI hI).decode) fun _ =>
    L.rel_pure _

end Structs

end ScaleCodec
