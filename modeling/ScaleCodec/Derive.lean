import ScaleCodec.Traits

/-!
# Derived codecs

What `derive(Encode, Decode)` generates. A declaration (`DeriveInput`) is what the macros see of
it : fields and variants with their attributes, over descriptions `F` of types that `enc` and
`dec` give `impl`s for. A struct's values are nested pairs of field values, an enum's a nested sum
over its variants, and `repr` takes the declared type there.

The macros refuse some declarations (`encodeCheck`, `decodeCheck`). For the others `encodeImpl`
and `decodeImpl` are the generated `impl` blocks.
-/

universe u

namespace ScaleCodec

variable {F : Type → Type u} {α β σ T : Type}

/-! ## Declarations -/

/-- `EncodeAsRef`, or `HasCompact` for a `compact` field : the field is encoded as `RefType` and
decoded as another type. -/
structure EncodeAs (F : Type → Type u) (α : Type) where
  {Ref : Type}
  {As : Type}
  /-- `RefType`. -/
  refTy : F Ref
  /-- The type written in the attribute, or `<T as HasCompact>::Type`. -/
  asTy : F As
  /-- `RefType::from(&field)`. -/
  fromRef : α → Ref
  /-- `.into()`. -/
  into : As → α

/-- A field with its `codec` attributes. -/
structure Field (F : Type → Type u) (α : Type) where
  ident : Option String
  ty : F α
  /-- `#[codec(skip)]`, with the `Default::default()` of the type. -/
  skip : Option α := none
  /-- `#[codec(compact)]`. -/
  compact : Option (EncodeAs F α) := none
  /-- `#[codec(encoded_as = "...")]`. -/
  encodedAs : Option (EncodeAs F α) := none

/-- The fields of a struct or a variant, whose values are nested pairs. -/
inductive FieldList (F : Type → Type u) : Type → Type (max 1 u) where
  | nil : FieldList F Unit
  | cons {α β : Type} (f : Field F α) (fs : FieldList F β) : FieldList F (α × β)

/-- `enum Fields` of `syn`. -/
inductive Fields (F : Type → Type u) : Type → Type (max 1 u) where
  | named {α : Type} (fs : FieldList F α) : Fields F α
  | unnamed {α : Type} (fs : FieldList F α) : Fields F α
  | unit : Fields F Unit

/-- The fields without the way they are written. -/
def Fields.list : Fields F α → FieldList F α
  | named fs | unnamed fs => fs
  | unit => .nil

/-- A variant of an enum with its `codec` attributes. -/
structure Variant (F : Type → Type u) (α : Type) where
  ident : String
  fields : Fields F α
  /-- `#[codec(skip)]`. -/
  skip : Bool := false
  /-- `#[codec(index = ...)]`. -/
  index : Option Byte := none
  discriminant : Option ℤ := none

/-- The variants of an enum, whose values are a nested sum. -/
inductive VariantList (F : Type → Type u) : Type → Type (max 1 u) where
  | nil : VariantList F Empty
  | cons {α β : Type} (v : Variant F α) (vs : VariantList F β) : VariantList F (α ⊕ β)

/-- `enum Data` of `syn`, unions left out, which the macros refuse. -/
inductive Data (F : Type → Type u) : Type → Type (max 1 u) where
  | struct {α : Type} (fields : Fields F α) : Data F α
  | enum {α : Type} (variants : VariantList F α) : Data F α

/-- A declaration of the type `T`. -/
structure DeriveInput (F : Type → Type u) (T : Type) where
  ident : String
  /-- `#[repr(transparent)]`. -/
  transparent : Bool := false
  {Rep : Type}
  data : Data F Rep
  /-- A value as the values of its fields. -/
  repr : T ≃ Rep

/-! ## Attributes -/

/-- `enum FieldAttribute`. -/
inductive FieldAttribute (F : Type → Type u) (α : Type) where
  | none
  | compact (as : EncodeAs F α)
  | encodedAs (as : EncodeAs F α)
  | skip (default : α)

/-- The attribute code is generated for, in the order the macros look for them. -/
def Field.attribute (f : Field F α) : FieldAttribute F α :=
  match f.compact, f.encodedAs, f.skip with
  | some as, _, _ => .compact as
  | none, some as, _ => .encodedAs as
  | none, none, some default => .skip default
  | none, none, none => .none

/-- The check of `iterate_over_fields` and `create_decode_expr`. -/
def Field.check (f : Field F α) : Except String Unit :=
  if f.encodedAs.isSome.toNat + f.compact.isSome.toNat + f.skip.isSome.toNat > 1 then
    .error "`encoded_as`, `compact` and `skip` can only be used one at a time!"
  else .ok ()

/-- The check of every field, in order. -/
def FieldList.check {α : Type} : FieldList F α → Except String Unit
  | nil => .ok ()
  | cons f fs => do
    f.check
    fs.check

/-- The number of variants that are not skipped. -/
def VariantList.count {α : Type} : VariantList F α → ℕ
  | nil => 0
  | cons v vs => if v.skip then vs.count else vs.count + 1

/-- `try_get_variants`. -/
def VariantList.tryGetVariants (vs : VariantList F α) : Except String Unit :=
  if vs.count > 256 then
    .error "Currently only enums with at most 256 variants are encodable/decodable."
  else .ok ()

/-- The check of the fields of the variants that are not skipped. -/
def VariantList.check {α : Type} : VariantList F α → Except String Unit
  | nil => .ok ()
  | cons v vs => do
    if v.skip then pure () else v.fields.list.check
    vs.check

/-- `variant_index as u8` of the `i`-th variant that is not skipped. -/
def Variant.indexByte (v : Variant F α) (i : ℕ) : Byte :=
  match v.index, v.discriminant with
  | some index, _ => index
  | none, some d => BitVec.ofInt 8 d
  | none, none => BitVec.ofNat 8 i

/-- The index bytes of the variants that are not skipped, the first of which is the `i`-th. -/
def VariantList.indexBytes {α : Type} : VariantList F α → ℕ → List Byte
  | nil, _ => []
  | cons v vs, i => if v.skip then vs.indexBytes i else v.indexByte i :: vs.indexBytes (i + 1)

/-! ## `derive(Encode)` -/

/-- A field of `α` with its accessor. -/
structure SelfField (F : Type → Type u) (α : Type) where
  {σ : Type}
  field : Field F σ
  get : α → σ

/-- `filter_skip_named`, `filter_skip_unnamed`. -/
def FieldList.filterSkip {α : Type} : FieldList F α → List (SelfField F α)
  | nil => []
  | cons f fs =>
    let rest := fs.filterSkip.map fun x => ⟨x.field, x.get ∘ Prod.snd⟩
    if f.skip.isSome then rest else ⟨f, Prod.fst⟩ :: rest

/-- The field the single field optimisation applies to. -/
def Fields.singleField : Fields F α → Option (SelfField F α)
  | named fs | unnamed fs =>
    match fs.filterSkip with
    | [x] => some x
    | _ => none
  | unit => none

/-- `try_impl_encode_single_field_optimisation`. -/
def Data.singleField : Data F α → Option (SelfField F α)
  | struct fields => fields.singleField
  | enum _ => none

/-- An `impl` block that forwards every method to the value `get` returns. -/
def EncodeImpl.forward (E : Encode σ) (get : α → σ) : EncodeImpl α where
  encodeTo := some fun v => E.encodeTo (get v)
  encode := some fun v => E.encode (get v)
  usingEncoded := some fun v => E.usingEncoded (get v)

/-- The `impl` block of a type whose values are those of `α` under `get`. -/
def EncodeImpl.comap (I : EncodeImpl α) (get : T → α) : EncodeImpl T where
  encodeTo := I.encodeTo.map (· ∘ get)
  encode := I.encode.map (· ∘ get)
  usingEncoded := I.usingEncoded.map (· ∘ get)

section Encode

variable (enc : ∀ {σ : Type}, F σ → Encode σ)

/-- `encode_single_field`. -/
def encodeSingleField (x : SelfField F α) : EncodeImpl α :=
  match x.field.compact, x.field.encodedAs with
  | some as, _ => .forward (enc as.refTy) (as.fromRef ∘ x.get)
  | none, some as => .forward (enc as.refTy) (as.fromRef ∘ x.get)
  | none, none => .forward (enc x.field.ty) x.get

/-- What `encode_fields` generates for a field. -/
def encodeField (f : Field F α) (a : α) : Except Halt (List Write) :=
  match f.attribute with
  | .none => (enc f.ty).encodeTo a
  | .compact as | .encodedAs as => (enc as.refTy).encodeTo (as.fromRef a)
  | .skip _ => .ok []

/-- `encode_fields`. -/
def encodeFields {α : Type} : FieldList F α → α → Except Halt (List Write)
  | .nil, _ => .ok []
  | .cons f fs, (a, as) => writeThen (encodeField enc f a) (encodeFields fs as)

/-- The `match` on the variants. A skipped variant falls through to `_ => ()`. -/
def encodeVariants {α : Type} : VariantList F α → ℕ → α → Except Halt (List Write)
  | .cons v _, i, .inl a =>
    if v.skip then .ok []
    else writeThen (.ok [.pushByte (v.indexByte i)]) (encodeFields enc v.fields.list a)
  | .cons v vs, i, .inr b => encodeVariants vs (if v.skip then i else i + 1) b

/-- `impl_encode`. Nothing is generated if no variant is left. -/
def implEncode : Data F α → EncodeImpl α
  | .struct fields => { encodeTo := some (encodeFields enc fields.list) }
  | .enum vs => if vs.count = 0 then {} else { encodeTo := some (encodeVariants enc vs 0) }

/-- `encode::quote`. -/
def Data.encodeImpl (data : Data F α) : EncodeImpl α :=
  match data.singleField with
  | some x => encodeSingleField enc x
  | none => implEncode enc data

end Encode

/-- The compile errors of `derive(Encode)`. -/
def Data.encodeCheck (data : Data F α) : Except String Unit :=
  match data.singleField, data with
  | some x, _ =>
    if x.field.encodedAs.isSome ∧ x.field.compact.isSome then
      .error "`encoded_as` and `compact` can not be used at the same time!"
    else .ok ()
  | none, struct fields => fields.list.check
  | none, enum vs => do
    vs.tryGetVariants
    vs.check

/-- The compile errors of `derive(Decode)`. -/
def Data.decodeCheck : Data F α → Except String Unit
  | struct fields => fields.list.check
  | enum vs => do
    vs.tryGetVariants
    vs.check

/-! ## `derive(Decode)` -/

section Decode

variable (dec : ∀ {σ : Type}, F σ → Decode σ)

/-- `create_decode_expr`. -/
def decodeField (name : String) (f : Field F α) : DecodeM α :=
  let errMsg := "Could not decode `" ++ name ++ "`"
  match f.attribute with
  | .none => (dec f.ty).decode.chainErr errMsg
  | .compact as | .encodedAs as => as.into <$> (dec as.asTy).decode.chainErr errMsg
  | .skip default => pure default

/-- The fields from the `i`-th on. -/
def decodeFields (fieldName : ℕ → Option String → String) {α : Type} :
    FieldList F α → ℕ → DecodeM α
  | .nil, _ => pure ()
  | .cons f fs, i => do
    let a ← decodeField dec (fieldName i f.ident) f
    let as ← decodeFields fieldName fs (i + 1)
    pure (a, as)

/-- `create_instance`. -/
def createInstance (nameStr : String) : Fields F α → DecodeM α
  | .named fs =>
    let fieldName := fun _ ident =>
      match ident with
      | some a => nameStr ++ "::" ++ a
      | none => nameStr
    decodeFields dec fieldName fs 0
  | .unnamed fs => decodeFields dec (fun i _ => nameStr ++ "." ++ toString i) fs 0
  | .unit => pure ()

/-- The `match` on the variant byte, whose arms stand in the order of the variants. -/
def decodeVariants (typeName : String) {α : Type} : VariantList F α → ℕ → Byte → DecodeM α
  | .nil, _, _ => .err ("Could not decode `" ++ typeName ++ "`, variant doesn't exist")
  | .cons v vs, i, x =>
    if v.skip then .inr <$> decodeVariants typeName vs i x
    else if x = v.indexByte i then
      .inl <$> createInstance dec (typeName ++ "::" ++ v.ident) v.fields
    else .inr <$> decodeVariants typeName vs (i + 1) x

/-- `decode::quote`. -/
def Data.decode (typeName : String) : Data F α → DecodeM α
  | struct fields => createInstance dec typeName fields
  | enum vs => do
    let x ← DecodeM.readByte.chainErr
      ("Could not decode `" ++ typeName ++ "`, failed to read variant byte")
    decodeVariants dec typeName vs 0 x

/-- `decode_into` of every field, in order. -/
def decodeIntoFields {α : Type} : FieldList F α → DecodeM α
  | .nil => pure ()
  | .cons f fs => do
    let a ← (dec f.ty).decodeInto
    let as ← decodeIntoFields fs
    pure (a, as)

end Decode

/-- `mem::size_of` of the fields. -/
def FieldList.sizes (size : ∀ {σ : Type}, F σ → ℕ) {α : Type} : FieldList F α → List ℕ
  | nil => []
  | cons f fs => size f.ty :: fs.sizes size

/-- Some attribute could influence how the fields are decoded. -/
def FieldList.anyAttribute {α : Type} : FieldList F α → Bool
  | nil => false
  | cons f fs =>
    f.encodedAs.isSome || f.compact.isSome || f.skip.isSome || fs.anyAttribute

/-- There are no fields. -/
def FieldList.isEmpty : FieldList F α → Bool
  | nil => true
  | cons _ _ => false

/-- The fields `quote_decode_into` generates code for. -/
def Fields.plainFields : Fields F α → Option (FieldList F α)
  | named fs | unnamed fs => if fs.isEmpty || fs.anyAttribute then none else some fs
  | unit => none

/-- The fields of a struct `quote_decode_into` generates code for. -/
def Data.plainFields : Data F α → Option (FieldList F α)
  | struct fields => fields.plainFields
  | enum _ => none

namespace DeriveInput

/-- The `impl Encode` block `derive(Encode)` generates. -/
def encodeImpl (enc : ∀ {σ : Type}, F σ → Encode σ) (di : DeriveInput F T) : EncodeImpl T :=
  (di.data.encodeImpl enc).comap di.repr

/-- `quote_decode_into`, for a type of `size` bytes. -/
def decodeInto (dec : ∀ {σ : Type}, F σ → Decode σ) (size : ℕ) (di : DeriveInput F T) :
    Option (DecodeM T) :=
  if di.transparent then
    di.data.plainFields.map fun fs =>
      let sizes := fs.sizes fun t => (dec t).size
      if sizes.sum ≠ size then .panic "assertion `left == right` failed"
      else if (sizes.map fun n => if n > 0 then 1 else 0).sum > 1 then .panic "assertion failed"
      else di.repr.symm <$> decodeIntoFields dec fs
  else none

/-- The `impl Decode` block `derive(Decode)` generates. -/
def decodeImpl (dec : ∀ {σ : Type}, F σ → Decode σ) (size : ℕ) (di : DeriveInput F T) : Decode T :=
  let decode := di.repr.symm <$> di.data.decode dec di.ident
  { Decode.ofDecode size decode with decodeInto := (di.decodeInto dec size).getD decode }

/-- The compile errors of `derive(Encode)`. -/
def encodeCheck (di : DeriveInput F T) : Except String Unit :=
  di.data.encodeCheck

/-- The compile errors of `derive(Decode)`. -/
def decodeCheck (di : DeriveInput F T) : Except String Unit :=
  di.data.decodeCheck

/-- The declaration compiles with `derive(Encode, Decode)`. -/
def Compiles (di : DeriveInput F T) : Prop :=
  di.encodeCheck = .ok () ∧ di.decodeCheck = .ok ()

end DeriveInput

/-! ## Encoded and skipped fields -/

/-- What a field is encoded as, itself if it has no attribute, or the default of a skipped
field. -/
def Field.encoding (f : Field F α) : EncodeAs F α ⊕ α :=
  match f.attribute with
  | .none => .inl ⟨f.ty, f.ty, id, id⟩
  | .compact as | .encodedAs as => .inl as
  | .skip default => .inr default

/-- Every encoded field is encoded as `p` says. -/
def FieldList.Forall (p : ∀ {σ : Type}, EncodeAs F σ → Prop) {α : Type} : FieldList F α → Prop
  | nil => True
  | cons f fs => f.encoding.elim p (fun _ => True) ∧ fs.Forall p

/-- Every encoded field of a value is encoded as `p` says. -/
def FieldList.ForallAt (p : ∀ {σ : Type}, EncodeAs F σ → σ → Prop) {α : Type} :
    FieldList F α → α → Prop
  | nil, _ => True
  | cons f fs, (a, as) => f.encoding.elim (p · a) (fun _ => True) ∧ fs.ForallAt p as

/-- The value with every skipped field replaced by its default. -/
def FieldList.defaulted {α : Type} : FieldList F α → α → α
  | nil, _ => ()
  | cons f fs, (a, as) => (f.encoding.elim (fun _ => a) id, fs.defaulted as)

namespace VariantList

/-- Every encoded field of a variant that is not skipped is encoded as `p` says. -/
def Forall (p : ∀ {σ : Type}, EncodeAs F σ → Prop) {α : Type} : VariantList F α → Prop
  | nil => True
  | cons v vs => (v.skip = false → v.fields.list.Forall p) ∧ vs.Forall p

/-- Every encoded field of a value is encoded as `p` says. -/
def ForallAt (p : ∀ {σ : Type}, EncodeAs F σ → σ → Prop) {α : Type} : VariantList F α → α → Prop
  | cons v _, .inl a => v.fields.list.ForallAt p a
  | cons _ vs, .inr b => vs.ForallAt p b

/-- The value with every skipped field replaced by its default. -/
def defaulted {α : Type} : VariantList F α → α → α
  | cons v _, .inl a => .inl (v.fields.list.defaulted a)
  | cons _ vs, .inr b => .inr (vs.defaulted b)

/-- The value is a skipped variant. -/
def Skipped {α : Type} : VariantList F α → α → Prop
  | cons v _, .inl _ => v.skip = true
  | cons _ vs, .inr b => vs.Skipped b

end VariantList

namespace Data

/-- Every encoded field is encoded as `p` says. -/
def Forall (p : ∀ {σ : Type}, EncodeAs F σ → Prop) : Data F α → Prop
  | struct fields => fields.list.Forall p
  | enum vs => vs.Forall p

/-- Every encoded field of a value is encoded as `p` says. -/
def ForallAt (p : ∀ {σ : Type}, EncodeAs F σ → σ → Prop) : Data F α → α → Prop
  | struct fields => fields.list.ForallAt p
  | enum vs => vs.ForallAt p

/-- The value with every skipped field replaced by its default. -/
def defaulted : Data F α → α → α
  | struct fields => fields.list.defaulted
  | enum vs => vs.defaulted

/-- The value is a skipped variant. -/
def Skipped : Data F α → α → Prop
  | struct _ => fun _ => False
  | enum vs => vs.Skipped

/-- No two variants share an index byte. -/
def DistinctIndices : Data F α → Prop
  | struct _ => True
  | enum vs => (vs.indexBytes 0).Nodup

end Data

/-- What the fields that are not skipped are encoded as. -/
def FieldList.encodings {α : Type} : FieldList F α → List (Σ σ, EncodeAs F σ)
  | nil => []
  | cons f fs => f.encoding.elim (fun as => [⟨_, as⟩]) (fun _ => []) ++ fs.encodings

/-- What the fields of the variants that are not skipped are encoded as. -/
def VariantList.encodings {α : Type} : VariantList F α → List (Σ σ, EncodeAs F σ)
  | nil => []
  | cons v vs => (if v.skip then [] else v.fields.list.encodings) ++ vs.encodings

/-- What the fields that are not skipped are encoded as. -/
def Data.encodings : Data F α → List (Σ σ, EncodeAs F σ)
  | struct fields => fields.list.encodings
  | enum vs => vs.encodings

section Forall

variable {p : ∀ {σ : Type}, EncodeAs F σ → Prop}

theorem FieldList.forall_iff :
    ∀ {α : Type} {fs : FieldList F α}, fs.Forall p ↔ ∀ x ∈ fs.encodings, p x.2
  | _, .nil => by simp [Forall, encodings]
  | _, .cons f fs => by
    rw [Forall, encodings, forall_iff, List.forall_mem_append]
    cases f.encoding <;> simp

theorem VariantList.forall_iff :
    ∀ {α : Type} {vs : VariantList F α}, vs.Forall p ↔ ∀ x ∈ vs.encodings, p x.2
  | _, .nil => by simp [Forall, encodings]
  | _, .cons v vs => by
    rw [Forall, encodings, forall_iff, List.forall_mem_append, FieldList.forall_iff]
    cases v.skip <;> simp

theorem Data.forall_iff {data : Data F α} : data.Forall p ↔ ∀ x ∈ data.encodings, p x.2 := by
  cases data with
  | struct fields => exact FieldList.forall_iff
  | enum vs => exact VariantList.forall_iff

end Forall

section Encoding

variable {enc : ∀ {σ : Type}, F σ → Encode σ} {dec : ∀ {σ : Type}, F σ → Decode σ}

theorem encodeField_eq (f : Field F α) (a : α) : encodeField enc f a =
    f.encoding.elim (fun as => (enc as.refTy).encodeTo (as.fromRef a)) fun _ => .ok [] := by
  unfold encodeField Field.encoding
  cases f.attribute <;> rfl

theorem decodeField_eq (name : String) (f : Field F α) : decodeField dec name f =
    f.encoding.elim
      (fun as => as.into <$> (dec as.asTy).decode.chainErr ("Could not decode `" ++ name ++ "`"))
      pure := by
  unfold decodeField Field.encoding
  cases f.attribute with
  | none => exact (id_map _).symm
  | _ => rfl

/-- The three kinds of fields differ in the names in their errors alone. -/
theorem exists_createInstance_eq (nameStr : String) (fields : Fields F α) :
    ∃ fieldName, ∀ dec : ∀ {σ : Type}, F σ → Decode σ,
      createInstance dec nameStr fields = decodeFields dec fieldName fields.list 0 := by
  cases fields with
  | named fs => exact ⟨_, fun _ => rfl⟩
  | unnamed fs => exact ⟨_, fun _ => rfl⟩
  | unit => exact ⟨fun _ _ => nameStr, fun _ => rfl⟩

/-- A field that passes the check is encoded unless it is skipped. -/
theorem Field.encoding_of_check {f : Field F α} (h : f.check = .ok ()) :
    (∃ as, f.encoding = .inl as ∧ f.skip = none) ∨ ∃ d, f.encoding = .inr d ∧ f.skip = some d := by
  unfold check at h
  unfold Field.encoding Field.attribute
  cases hc : f.compact <;> cases he : f.encodedAs <;> cases hs : f.skip <;> simp_all

theorem Field.encoding_of_skip_eq_none {f : Field F α} (h : f.skip = none) :
    ∃ as, f.encoding = .inl as := by
  unfold Field.encoding Field.attribute
  rw [h]
  cases f.compact <;> cases f.encodedAs <;> exact ⟨_, rfl⟩

/-! ## The generated `impl Encode` -/

theorem EncodeImpl.run_comap (I : EncodeImpl α) (get : T → α) : ∀ n v,
    (I.comap get).runEncodeTo n v = I.runEncodeTo n (get v) ∧
    (I.comap get).runEncode n v = I.runEncode n (get v) ∧
    (I.comap get).runUsingEncoded n v = I.runUsingEncoded n (get v)
  | 0, _ => ⟨rfl, rfl, rfl⟩
  | n + 1, v => by
    obtain ⟨h₁, h₂, h₃⟩ := run_comap I get n v
    refine ⟨?_, ?_, ?_⟩
    · simp only [runEncodeTo, comap, ← h₃]
      cases I.encodeTo <;> rfl
    · simp only [runEncode, comap, ← h₁]
      cases I.encode <;> rfl
    · simp only [runUsingEncoded, comap, ← h₂]
      cases I.usingEncoded <;> rfl

theorem EncodeImpl.encodes_comap {I : EncodeImpl α} {get : T → α} {v : T} {bs : List Byte} :
    Encodes (I.comap get).toEncode v bs ↔ Encodes I.toEncode (get v) bs := by
  show (I.comap get).runEncode 3 v = _ ↔ I.runEncode 3 (get v) = _
  rw [(I.run_comap get 3 v).2.1]

theorem EncodeImpl.lawful_comap {I : EncodeImpl α} (h : I.toEncode.Lawful) (get : T → α) :
    (I.comap get).toEncode.Lawful := by
  refine ⟨fun v => ?_, fun v => ?_, fun _ _ h => by cases h⟩
  · obtain ⟨h₁, h₂, -⟩ := I.run_comap get 3 v
    show written <$> (I.comap get).runEncodeTo 3 v = (I.comap get).runEncode 3 v
    rw [h₁, h₂]
    exact h.encodeTo (get v)
  · obtain ⟨-, h₂, h₃⟩ := I.run_comap get 3 v
    show (I.comap get).runUsingEncoded 3 v = (I.comap get).runEncode 3 v
    rw [h₂, h₃]
    exact h.usingEncoded (get v)

theorem encodeSingleField_eq {x : SelfField F α} {as : EncodeAs F x.σ}
    (h : x.field.encoding = .inl as) (hskip : x.field.skip = none) :
    encodeSingleField enc x = .forward (enc as.refTy) (as.fromRef ∘ x.get) := by
  unfold Field.encoding Field.attribute at h
  unfold encodeSingleField
  cases hc : x.field.compact <;> cases he : x.field.encodedAs <;> simp_all <;> subst h <;> rfl

theorem encodeSingleField_comap (x : SelfField F β) :
    encodeSingleField enc (⟨x.field, x.get ∘ Prod.snd⟩ : SelfField F (α × β)) =
      (encodeSingleField enc x).comap Prod.snd := by
  unfold encodeSingleField
  cases x.field.compact <;> cases x.field.encodedAs <;> rfl

/-- The fields that are not skipped are the first, if it is not, and those of the rest. -/
theorem FieldList.mem_filterSkip_cons {f : Field F α} {fs : FieldList F β}
    {x : SelfField F (α × β)} (hx : x ∈ (cons f fs).filterSkip) :
    (f.skip = none ∧ x = ⟨f, Prod.fst⟩) ∨
      ∃ y ∈ fs.filterSkip, x = ⟨y.field, y.get ∘ Prod.snd⟩ := by
  rw [filterSkip] at hx
  cases hskip : f.skip with
  | some d =>
    rw [hskip] at hx
    obtain ⟨y, hy, rfl⟩ := List.mem_map.mp hx
    exact Or.inr ⟨y, hy, rfl⟩
  | none =>
    rw [hskip] at hx
    rcases List.mem_cons.mp hx with rfl | hx
    · exact Or.inl ⟨rfl, rfl⟩
    · obtain ⟨y, hy, rfl⟩ := List.mem_map.mp hx
      exact Or.inr ⟨y, hy, rfl⟩

theorem FieldList.check_cons {f : Field F α} {fs : FieldList F β} :
    (cons f fs).check = .ok () ↔ f.check = .ok () ∧ fs.check = .ok () := by
  rw [check]
  cases f.check with
  | error e => exact iff_of_false (fun h => by cases h) fun h => by cases h.1
  | ok u => exact ⟨fun h => ⟨rfl, h⟩, fun h => h.2⟩

/-- Every `RefType` of the fields has a lawful `impl Encode`. -/
def EncodeAs.Lawful (enc : ∀ {σ : Type}, F σ → Encode σ) (as : EncodeAs F α) : Prop :=
  (enc as.refTy).Lawful

theorem encodeFields_of_filterSkip_eq_nil : ∀ {α : Type} {fs : FieldList F α},
    fs.check = .ok () → fs.filterSkip = [] → ∀ v : α, encodeFields enc fs v = .ok []
  | _, .nil, _, _, _ => rfl
  | _, .cons f fs, hc, h, (a, as) => by
    obtain ⟨hf, hfs⟩ := FieldList.check_cons.mp hc
    rw [FieldList.filterSkip] at h
    rcases f.encoding_of_check hf with ⟨as', he, hs⟩ | ⟨d, he, hs⟩
    · simp [hs] at h
    · simp only [hs, Option.isSome_some, if_true, List.map_eq_nil_iff] at h
      rw [encodeFields, encodeField_eq, he, encodeFields_of_filterSkip_eq_nil hfs h as]
      rfl

/-- The single field optimisation writes what is written field by field. -/
theorem encodeFields_of_filterSkip_eq_singleton :
    ∀ {α : Type} {fs : FieldList F α} {x : SelfField F α}, fs.check = .ok () →
      fs.filterSkip = [x] →
        ∀ v, encodeFields enc fs v = (encodeSingleField enc x).toEncode.encodeTo v
  | _, .nil, _, _, h, _ => by cases h
  | _, .cons f fs, x, hc, h, v => by
    obtain ⟨hf, hfs⟩ := FieldList.check_cons.mp hc
    rw [FieldList.filterSkip] at h
    rcases f.encoding_of_check hf with ⟨as', he, hs⟩ | ⟨d, he, hs⟩
    · rw [hs, Option.isSome_none, if_neg Bool.false_ne_true, List.cons_eq_cons,
        List.map_eq_nil_iff] at h
      obtain ⟨rfl, hnil⟩ := h
      rw [encodeSingleField_eq he hs, encodeFields, encodeField_eq, he,
        encodeFields_of_filterSkip_eq_nil hfs hnil, writeThen_nil_right]
      rfl
    · rw [hs, Option.isSome_some, if_pos rfl, List.map_eq_singleton_iff] at h
      obtain ⟨x', hx', rfl⟩ := h
      have hcomap := (EncodeImpl.run_comap (encodeSingleField enc x') Prod.snd 3 v).1
      rw [encodeSingleField_comap, encodeFields, encodeField_eq, he]
      refine (writeThen_nil_left.trans ?_).trans hcomap.symm
      exact encodeFields_of_filterSkip_eq_singleton hfs hx' v.2

/-- A field that is not skipped is encoded as `p` says, if all encoded fields are. -/
theorem FieldList.exists_encoding_of_mem {p : ∀ {σ : Type}, EncodeAs F σ → Prop} :
    ∀ {α : Type} {fs : FieldList F α} {x : SelfField F α}, fs.Forall p → x ∈ fs.filterSkip →
      ∃ as, x.field.encoding = .inl as ∧ x.field.skip = none ∧ p as
  | _, .nil, _, _, hx => by cases hx
  | _, .cons f fs, x, h, hx => by
    rcases FieldList.mem_filterSkip_cons hx with ⟨hskip, rfl⟩ | ⟨y, hy, rfl⟩
    · obtain ⟨as, has⟩ := Field.encoding_of_skip_eq_none hskip
      have hf := h.1
      rw [has] at hf
      exact ⟨as, has, hskip, hf⟩
    · obtain ⟨as, has, hskip, hp⟩ := exists_encoding_of_mem h.2 hy
      exact ⟨as, has, hskip, hp⟩

theorem encodeSingleField_lawful {fs : FieldList F α} {x : SelfField F α}
    (hlaw : fs.Forall (EncodeAs.Lawful enc)) (hx : x ∈ fs.filterSkip) :
    (encodeSingleField enc x).toEncode.Lawful := by
  obtain ⟨as, has, hskip, hfield⟩ := FieldList.exists_encoding_of_mem hlaw hx
  rw [encodeSingleField_eq has hskip]
  exact Encode.Lawful.forward hfield _

/-- The single field optimisation is lawful and encodes to what the fields are encoded to. -/
theorem encodes_encodeSingleField {fs : FieldList F α} {x : SelfField F α}
    (hc : fs.check = .ok ()) (hlaw : fs.Forall (EncodeAs.Lawful enc)) (h : fs.filterSkip = [x]) :
    (encodeSingleField enc x).toEncode.Lawful ∧ ∀ v bs,
      Encodes (encodeSingleField enc x).toEncode v bs ↔ Writes (encodeFields enc fs v) bs := by
  have hlawful := encodeSingleField_lawful hlaw (h ▸ List.mem_singleton_self x)
  refine ⟨hlawful, fun v bs => ?_⟩
  rw [encodeFields_of_filterSkip_eq_singleton hc h v]
  exact hlawful.writes.symm

theorem Fields.filterSkip_of_singleField {fields : Fields F α} {x : SelfField F α}
    (h : fields.singleField = some x) : fields.list.filterSkip = [x] := by
  cases fields with
  | unit => cases h
  | named fs | unnamed fs =>
    simp only [Fields.singleField] at h
    split at h
    · next hfs => rw [Fields.list, hfs, Option.some.inj h]
    · cases h

theorem Fields.mem_filterSkip_of_singleField {fields : Fields F α} {x : SelfField F α}
    (h : fields.singleField = some x) : x ∈ fields.list.filterSkip := by
  rw [Fields.filterSkip_of_singleField h]
  exact List.mem_singleton_self x

/-- A struct is encoded as its fields, with or without the single field optimisation. -/
theorem Data.encodes_struct {fields : Fields F α} (hc : fields.list.check = .ok ())
    (hlaw : fields.list.Forall (EncodeAs.Lawful enc)) :
    ((Data.struct fields).encodeImpl enc).toEncode.Lawful ∧ ∀ v bs,
      Encodes ((Data.struct fields).encodeImpl enc).toEncode v bs ↔
        Writes (encodeFields enc fields.list v) bs := by
  unfold Data.encodeImpl
  cases h : (Data.struct fields).singleField with
  | none => exact ⟨EncodeImpl.lawful_encodeTo _, fun _ _ => Iff.rfl⟩
  | some x =>
    exact encodes_encodeSingleField hc hlaw (Fields.filterSkip_of_singleField h)

/-- An enum is encoded as the index byte and the fields of a variant. -/
theorem Data.encodes_enum {vs : VariantList F α} (hcount : vs.count ≠ 0) :
    ((Data.enum vs).encodeImpl enc).toEncode.Lawful ∧ ∀ v bs,
      Encodes ((Data.enum vs).encodeImpl enc).toEncode v bs ↔
        Writes (encodeVariants enc vs 0 v) bs := by
  have h : (Data.enum vs).encodeImpl enc = { encodeTo := some (encodeVariants enc vs 0) } := by
    show (if vs.count = 0 then {} else _ : EncodeImpl α) = _
    rw [if_neg hcount]
  rw [h]
  exact ⟨EncodeImpl.lawful_encodeTo _, fun _ _ => Iff.rfl⟩

end Encoding

end ScaleCodec
