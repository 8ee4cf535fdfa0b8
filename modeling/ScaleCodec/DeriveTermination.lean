import ScaleCodec.EncodeWays

/-!
# Termination of the derived encoder

The default bodies of `encode`, `encode_to` and `using_encoded` call each other in a cycle, so an
`impl Encode` must override one of them. The derived `impl` overrides `encode_to`, or all three
for a struct with a single field, and then a call halts only where a call on a field does
(`Data.encodeImpl_avoids`). For an enum with no variant left nothing is generated, which is sound if
it has no variants and no values, but an enum whose variants are all skipped has values and its
`encode` never returns (`DeriveInput.encode_nothing_diverges`).
-/

universe u

namespace ScaleCodec

variable {F : Type → Type u} {α β T : Type}

/-- A call of every method on `v` comes to an end. -/
structure EncodeImpl.Terminates (I : EncodeImpl α) (v : α) : Prop where
  encodeTo : ∃ fuel, I.runEncodeTo fuel v ≠ .error .outOfFuel
  encode : ∃ fuel, I.runEncode fuel v ≠ .error .outOfFuel
  usingEncoded : ∃ fuel, I.runUsingEncoded fuel v ≠ .error .outOfFuel

/-- No call of a method on `v` comes to an end. -/
def EncodeImpl.Diverges (I : EncodeImpl α) (v : α) : Prop :=
  ∀ fuel, I.runEncodeTo fuel v = .error .outOfFuel ∧ I.runEncode fuel v = .error .outOfFuel ∧
    I.runUsingEncoded fuel v = .error .outOfFuel

/-- An enum all of whose variants, if any, are skipped. -/
def Data.NoVariantLeft : Data F α → Prop
  | struct _ => False
  | enum vs => vs.count = 0

/-! ## Halts -/

/-- `x` does not end in a halt that is `bad`. -/
def Avoids (bad : Halt → Prop) (x : Except Halt α) : Prop :=
  ∀ h, x = .error h → ¬bad h

section Avoids

variable {bad : Halt → Prop}

theorem avoids_ok (a : α) : Avoids bad (.ok a) :=
  fun _ h => by cases h

theorem avoids_map {x : Except Halt α} {f : α → β} : Avoids bad (f <$> x) ↔ Avoids bad x := by
  cases x with
  | error e =>
    exact ⟨fun h e' he => h e' (by cases he; rfl), fun h e' he => h e' (by cases he; rfl)⟩
  | ok a => exact iff_of_true (avoids_ok _) (avoids_ok _)

theorem Avoids.writeThen {x y : Except Halt (List Write)} (hx : Avoids bad x)
    (hy : Avoids bad y) : Avoids bad (writeThen x y) := by
  cases x with
  | error e => exact fun h he => hx h (by cases he; rfl)
  | ok ws =>
    cases y with
    | error e => exact fun h he => hy h (by cases he; rfl)
    | ok ws' => exact avoids_ok _

theorem Encode.Lawful.avoids {E : Encode α} (hE : E.Lawful) {v : α} :
    Avoids bad (E.encode v) ↔ Avoids bad (E.encodeTo v) := by
  rw [← hE.encodeTo, avoids_map]

end Avoids

/-! ## The cycle of default bodies -/

namespace EncodeImpl

variable {I : EncodeImpl α} {v : α}

theorem terminates_of_lawful (hI : I.toEncode.Lawful)
    (h : Avoids (· = .outOfFuel) (I.toEncode.encodeTo v)) : I.Terminates v := by
  have hto : I.toEncode.encodeTo v ≠ .error .outOfFuel := fun h' => h _ h' rfl
  have henc : I.toEncode.encode v ≠ .error .outOfFuel := fun h' => hI.avoids.mpr h _ h' rfl
  exact ⟨⟨3, hto⟩, ⟨3, henc⟩, ⟨3, fun h' => henc ((hI.usingEncoded v).symm.trans h')⟩⟩

/-- If no overridden method comes to an end the cycle goes on for ever. -/
theorem diverges_of_overridden (hto : ∀ f ∈ I.encodeTo, f v = .error .outOfFuel)
    (henc : ∀ f ∈ I.encode, f v = .error .outOfFuel)
    (husing : ∀ f ∈ I.usingEncoded, f v = .error .outOfFuel) : I.Diverges v := by
  intro fuel
  induction fuel with
  | zero => exact ⟨rfl, rfl, rfl⟩
  | succ fuel ih =>
    obtain ⟨ihto, ihenc, ihusing⟩ := ih
    refine ⟨?_, ?_, ?_⟩
    · rw [runEncodeTo]
      cases hf : I.encodeTo with
      | some f => exact hto f hf
      | none => exact congrArg ((fun buf => [Write.write buf]) <$> ·) ihusing
    · rw [runEncode]
      cases hf : I.encode with
      | some f => exact henc f hf
      | none => exact congrArg (written <$> ·) ihto
    · rw [runUsingEncoded]
      cases hf : I.usingEncoded with
      | some f => exact husing f hf
      | none => exact ihenc

theorem diverges_of_lawful (hI : I.toEncode.Lawful)
    (h : I.toEncode.encodeTo v = .error .outOfFuel) : I.Diverges v := by
  have henc : I.toEncode.encode v = .error .outOfFuel := by
    rw [← hI.encodeTo, h]
    rfl
  have husing : I.toEncode.usingEncoded v = .error .outOfFuel := (hI.usingEncoded v).trans henc
  -- an overridden method is the method of the `impl`
  refine diverges_of_overridden (fun f hf => ?_) (fun f hf => ?_) fun f hf => ?_
  · simpa only [toEncode, runEncodeTo, Option.mem_def.mp hf] using h
  · simpa only [toEncode, runEncode, Option.mem_def.mp hf] using henc
  · simpa only [toEncode, runUsingEncoded, Option.mem_def.mp hf] using husing

end EncodeImpl

/-! ## Fields and variants -/

/-- A value that is encoded for a field, with its type. -/
structure EncodedValue (F : Type → Type u) where
  {σ : Type}
  ty : F σ
  value : σ

/-- A field is encoded as one value, and a skipped one as none. -/
def Field.encodedValues (f : Field F α) (a : α) : List (EncodedValue F) :=
  f.encoding.elim (fun as => [⟨as.refTy, as.fromRef a⟩]) fun _ => []

/-- The values the fields are encoded as, in order. -/
def FieldList.encodedValues {α : Type} : FieldList F α → α → List (EncodedValue F)
  | nil, _ => []
  | cons f fs, (a, as) => f.encodedValues a ++ fs.encodedValues as

/-- The values the fields of a variant are encoded as, none if it is skipped. -/
def VariantList.encodedValues {α : Type} : VariantList F α → α → List (EncodedValue F)
  | cons v _, .inl a => if v.skip then [] else v.fields.list.encodedValues a
  | cons _ vs, .inr b => vs.encodedValues b

/-- The values that are encoded for a value. A field the single field optimisation passes over is
not among them, whatever its attributes. -/
def Data.encodedValues (data : Data F α) (v : α) : List (EncodedValue F) :=
  match data.singleField, data with
  | some x, _ => x.field.encodedValues (x.get v)
  | none, struct fields => fields.list.encodedValues v
  | none, enum vs => vs.encodedValues v

section Fields

variable {enc : ∀ {σ : Type}, F σ → Encode σ}

/-- Values encoded one after the other. -/
def encodeValues (enc : ∀ {σ : Type}, F σ → Encode σ) :
    List (EncodedValue F) → Except Halt (List Write)
  | [] => .ok []
  | x :: xs => writeThen ((enc x.ty).encodeTo x.value) (encodeValues enc xs)

theorem encodeValues_avoids {bad : Halt → Prop} {xs : List (EncodedValue F)}
    (h : ∀ x ∈ xs, Avoids bad ((enc x.ty).encodeTo x.value)) :
    Avoids bad (encodeValues enc xs) := by
  induction xs with
  | nil => exact avoids_ok _
  | cons x xs ih =>
    obtain ⟨hx, hxs⟩ := List.forall_mem_cons.mp h
    exact hx.writeThen (ih hxs)

theorem encodes_of_writes_encodeValues {xs : List (EncodedValue F)} {bs : List Byte}
    (hlaw : ∀ {σ : Type} (t : F σ), (enc t).Lawful) (h : Writes (encodeValues enc xs) bs) :
    ∀ x ∈ xs, ∃ b, Encodes (enc x.ty) x.value b := by
  induction xs generalizing bs with
  | nil => exact fun x hx => absurd hx List.not_mem_nil
  | cons x xs ih =>
    obtain ⟨b, c, hb, hc, -⟩ := writes_writeThen.mp h
    exact List.forall_mem_cons.mpr ⟨⟨b, (hlaw x.ty).writes.mp hb⟩, ih hc⟩

theorem encodeFields_eq {fs : FieldList F α} {v : α} :
    encodeFields enc fs v = encodeValues enc (fs.encodedValues v) := by
  induction fs with
  | nil => rfl
  | cons f fs ih =>
    obtain ⟨a, as⟩ := v
    rw [encodeFields, encodeField_eq, ih, FieldList.encodedValues, Field.encodedValues]
    cases f.encoding with
    | inl e => rfl
    | inr d => exact writeThen_nil_left

/-- The index byte goes before the fields, and nothing is written of a skipped variant. -/
theorem exists_encodeVariants_eq {vs : VariantList F α} {i : ℕ} {v : α} :
    ∃ head, encodeVariants enc vs i v =
      writeThen (.ok head) (encodeValues enc (vs.encodedValues v)) := by
  induction vs generalizing i with
  | nil => exact v.elim
  | cons u us ih =>
    cases v with
    | inr b => exact ih
    | inl a =>
      rw [encodeVariants, VariantList.encodedValues]
      split_ifs with hskip
      · exact ⟨[], rfl⟩
      · exact ⟨_, congrArg (writeThen _) encodeFields_eq⟩

theorem encodeVariants_skipped {vs : VariantList F α} {i : ℕ} {v : α} (h : vs.Skipped v) :
    encodeVariants enc vs i v = .ok [] := by
  induction vs generalizing i with
  | nil => exact v.elim
  | cons u us ih =>
    cases v with
    | inr b => exact ih h
    | inl a => exact if_pos h

end Fields

/-! ## Declarations -/

theorem Fields.encoding_of_singleField {fields : Fields F α} {x : SelfField F α}
    (h : fields.singleField = some x) : ∃ as, x.field.encoding = .inl as ∧ x.field.skip = none := by
  obtain ⟨as, has, hskip, -⟩ := FieldList.exists_encoding_of_mem (p := fun _ => True)
    (FieldList.forall_iff.mpr fun _ _ => trivial) (Fields.mem_filterSkip_of_singleField h)
  exact ⟨as, has, hskip⟩

namespace Data

variable {enc : ∀ {σ : Type}, F σ → Encode σ} {data : Data F α} {v : α}

theorem encodeImpl_enum {vs : VariantList F α} (hleft : ¬(enum vs).NoVariantLeft) :
    (enum vs).encodeImpl enc = { encodeTo := some (encodeVariants enc vs 0) } :=
  if_neg hleft

theorem encodeImpl_noVariantLeft (hleft : data.NoVariantLeft) : data.encodeImpl enc = {} := by
  cases data with
  | struct fields => exact hleft.elim
  | enum vs => exact if_pos hleft

/-- What the generated `encode_to` does. -/
theorem exists_encodeTo_encodeImpl (enc : ∀ {σ : Type}, F σ → Encode σ)
    (hleft : ¬data.NoVariantLeft) (v : α) :
    ∃ head, (data.encodeImpl enc).toEncode.encodeTo v =
      writeThen (.ok head) (encodeValues enc (data.encodedValues v)) := by
  cases data with
  | struct fields =>
    refine ⟨[], ?_⟩
    rw [writeThen_nil_left]
    unfold Data.encodeImpl Data.encodedValues
    cases hx : (struct fields).singleField with
    | none => exact encodeFields_eq
    | some x =>
      obtain ⟨as, has, hskip⟩ := Fields.encoding_of_singleField hx
      show (encodeSingleField enc x).toEncode.encodeTo v =
        encodeValues enc (x.field.encodedValues (x.get v))
      rw [encodeSingleField_eq has hskip, Field.encodedValues, has]
      exact writeThen_nil_right.symm
  | enum vs =>
    rw [encodeImpl_enum hleft]
    exact exists_encodeVariants_eq

/-- The generated `encode_to` halts where that of a field does, and runs for ever if no variant is
left. -/
theorem encodeImpl_avoids {bad : Halt → Prop} (hleft : bad .outOfFuel → ¬data.NoVariantLeft)
    (h : ∀ x ∈ data.encodedValues v, Avoids bad ((enc x.ty).encodeTo x.value)) :
    Avoids bad ((data.encodeImpl enc).toEncode.encodeTo v) := by
  by_cases hdata : data.NoVariantLeft
  · rw [encodeImpl_noVariantLeft hdata]
    rintro e ⟨⟩ hbad
    exact hleft hbad hdata
  · obtain ⟨head, heq⟩ := exists_encodeTo_encodeImpl enc hdata v
    rw [heq]
    exact (avoids_ok head).writeThen (encodeValues_avoids h)

/-- If a value is encoded so are the values its fields are encoded as. -/
theorem encodes_encodedValues (hlaw : ∀ {σ : Type} (t : F σ), (enc t).Lawful) {bs : List Byte}
    (h : Encodes (data.encodeImpl enc).toEncode v bs) :
    ¬data.NoVariantLeft ∧ ∀ x ∈ data.encodedValues v, ∃ b, Encodes (enc x.ty) x.value b := by
  have hleft : ¬data.NoVariantLeft := fun hdata => by
    rw [encodeImpl_noVariantLeft hdata] at h
    cases h
  refine ⟨hleft, ?_⟩
  obtain ⟨head, heq⟩ := exists_encodeTo_encodeImpl enc hleft v
  have hw := (encodeImpl_lawful hlaw data).writes.mpr h
  rw [heq] at hw
  obtain ⟨-, c, -, hc, -⟩ := writes_writeThen.mp hw
  exact encodes_of_writes_encodeValues hlaw hc

/-- A skipped variant is encoded to nothing. -/
theorem encodes_skipped (hleft : ¬data.NoVariantLeft) (hv : data.Skipped v) :
    Encodes (data.encodeImpl enc).toEncode v [] := by
  cases data with
  | struct fields => exact hv.elim
  | enum vs =>
    rw [encodeImpl_enum hleft, EncodeImpl.encodes_encodeTo, encodeVariants_skipped hv]
    exact writes_ok.mpr rfl

end Data

/-- `enum Nothing { #[codec(skip)] Nil }`. -/
def nothingDecl : DeriveInput Encode (Unit ⊕ Empty) where
  ident := "Nothing"
  data := .enum (.cons { ident := "Nil", fields := .unit, skip := true } .nil)
  repr := Equiv.refl _

/-- `derive(Encode)` accepts the declaration, but `Nothing::Nil` is never encoded. -/
theorem DeriveInput.encode_nothing_diverges :
    nothingDecl.encodeCheck = .ok () ∧ ∀ fuel,
      (nothingDecl.encodeImpl id).runEncodeTo fuel (.inl ()) = .error .outOfFuel ∧
      (nothingDecl.encodeImpl id).runEncode fuel (.inl ()) = .error .outOfFuel ∧
      (nothingDecl.encodeImpl id).runUsingEncoded fuel (.inl ()) = .error .outOfFuel := by
  refine ⟨rfl, EncodeImpl.diverges_of_overridden ?_ ?_ ?_⟩ <;> rintro f ⟨⟩

end ScaleCodec
