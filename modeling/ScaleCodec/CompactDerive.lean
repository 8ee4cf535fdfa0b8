import ScaleCodec.DeriveTermination
import ScaleCodec.RoundTrip

/-!
# `derive(CompactAs)`

A struct with one field that is not skipped may be `CompactAs` that field : `Compact` of the struct
is encoded as `Compact` of the field, and decoded with the skipped fields at their defaults.

`compact_as_derive` : these are the structs the macro accepts, and `Compact` of a struct comes back
with the skipped fields at their defaults and everything else as it was.
-/

universe u

namespace ScaleCodec

variable {F : Type → Type u} {α β T : Type}

/-- `impl CompactAs`. -/
structure CompactAs (F : Type → Type u) (T : Type) where
  {As : Type}
  ty : F As
  encodeAs : T → As
  decodeFrom : As → Except Error T

/-- `Compact<T>`, given `Compact<T::As>`. -/
def CompactAs.compactTy (impl : CompactAs F T) (inner : CompactTy impl.As) : CompactTy T :=
  .as inner impl.encodeAs impl.decodeFrom

/-! ## The macro -/

/-- The field that is not skipped, and the `constructor` for a value `x` of it. -/
structure InnerField (F : Type → Type u) (α : Type) where
  {As : Type}
  ty : F As
  get : α → As
  constructor : As → α

/-- The `val_or_default` of fields that are all skipped. -/
def FieldList.defaults {α : Type} : FieldList F α → Option α
  | nil => some ()
  | cons f fs => do
    let a ← f.skip
    let as ← fs.defaults
    return (a, as)

/-- The field that is not skipped, if there is exactly one. -/
def FieldList.innerField {α : Type} : FieldList F α → Option (InnerField F α)
  | nil => none
  | cons f fs =>
    match f.skip with
    | some a => fs.innerField.map fun inner =>
        ⟨inner.ty, fun v => inner.get v.2, fun x => (a, inner.constructor x)⟩
    | none => fs.defaults.map fun as => ⟨f.ty, fun v => v.1, fun x => (x, as)⟩

/-- `compact_as_derive`. -/
def DeriveInput.compactAs (di : DeriveInput F T) : Except String (CompactAs F T) :=
  match di with
  | { data := .struct fields, repr, .. } =>
    match fields.list.innerField with
    | some inner => .ok
        { ty := inner.ty
          encodeAs := fun v => inner.get (repr v)
          decodeFrom := fun x => .ok (repr.symm (inner.constructor x)) }
    | none => .error "Only structs with a single non-skipped field can derive CompactAs"
  | { data := .enum _, .. } => .error "Only structs can derive CompactAs"

/-! ## Skipped fields -/

/-- The skipped fields at their defaults. -/
def FieldList.reset {α : Type} : FieldList F α → α → α
  | nil, _ => ()
  | cons f fs, (a, as) => (f.skip.getD a, fs.reset as)

section Reset

variable {fs : FieldList F α}

/-- A derived codec resets the same fields. -/
theorem FieldList.reset_eq_defaulted (hc : fs.check = .ok ()) (v : α) :
    fs.reset v = fs.defaulted v := by
  induction fs with
  | nil => rfl
  | cons f fs ih =>
    obtain ⟨a, as⟩ := v
    obtain ⟨hf, hfs⟩ := FieldList.check_cons.mp hc
    rw [reset, defaulted, ih hfs]
    rcases f.encoding_of_check hf with ⟨e, he, hskip⟩ | ⟨d, he, hskip⟩
    · rw [he, hskip]
      rfl
    · rw [he, hskip]
      rfl

theorem FieldList.reset_of_defaults {d : α} (h : fs.defaults = some d) (v : α) :
    fs.reset v = d := by
  induction fs with
  | nil => rfl
  | cons f fs ih =>
    obtain ⟨a, as⟩ := v
    obtain ⟨a', ha, h⟩ := Option.bind_eq_some_iff.mp h
    obtain ⟨as', has, h⟩ := Option.bind_eq_some_iff.mp h
    cases h
    rw [reset, ha, ih has]
    rfl

theorem FieldList.get_constructor {inner : InnerField F α} (h : fs.innerField = some inner)
    (x : inner.As) : inner.get (inner.constructor x) = x := by
  induction fs with
  | nil => cases h
  | cons f fs ih =>
    rw [innerField] at h
    cases hskip : f.skip with
    | some a =>
      rw [hskip] at h
      obtain ⟨inner', hinner', rfl⟩ := Option.map_eq_some_iff.mp h
      exact ih hinner' x
    | none =>
      rw [hskip] at h
      obtain ⟨as, -, rfl⟩ := Option.map_eq_some_iff.mp h
      rfl

theorem FieldList.constructor_get {inner : InnerField F α} (h : fs.innerField = some inner)
    (v : α) : inner.constructor (inner.get v) = fs.reset v := by
  induction fs with
  | nil => cases h
  | cons f fs ih =>
    obtain ⟨a, as⟩ := v
    rw [innerField] at h
    rw [reset]
    cases hskip : f.skip with
    | some d =>
      rw [hskip] at h
      obtain ⟨inner', hinner', rfl⟩ := Option.map_eq_some_iff.mp h
      exact congrArg (d, ·) (ih hinner' as)
    | none =>
      rw [hskip] at h
      obtain ⟨ds, hds, rfl⟩ := Option.map_eq_some_iff.mp h
      exact congrArg (a, ·) (reset_of_defaults hds as).symm

theorem FieldList.isSome_defaults (fs : FieldList F α) :
    fs.defaults.isSome ↔ fs.filterSkip.length = 0 := by
  induction fs with
  | nil => simp [defaults, filterSkip]
  | cons f fs ih =>
    rw [defaults, filterSkip]
    cases f.skip with
    | none => simp
    | some a =>
      cases hd : fs.defaults with
      | none => simpa [hd] using ih
      | some d => simpa [hd] using ih

/-- There is exactly one field that is not skipped. -/
theorem FieldList.isSome_innerField (fs : FieldList F α) :
    fs.innerField.isSome ↔ fs.filterSkip.length = 1 := by
  induction fs with
  | nil => simp [innerField, filterSkip]
  | cons f fs ih =>
    rw [innerField, filterSkip]
    cases f.skip with
    | some a => simpa using ih
    | none => simpa using fs.isSome_defaults

end Reset

/-! ## `Compact` of a struct -/

/-- What is decoded as `Compact` of the inner field has the skipped fields at their defaults. -/
theorem CompactAs.decodes_compactTy {impl : CompactAs F T} {inner : CompactTy impl.As}
    (hinner : inner.Faithful) (tgt : Target) {v v' : T}
    (hfrom : impl.decodeFrom (impl.encodeAs v) = .ok v') :
    ∃ bs, Encodes (impl.compactTy inner).encode v bs ∧ Encodes inner.encode (impl.encodeAs v) bs ∧
      ∀ rest, Decodes ((impl.compactTy inner).decode tgt) (bs ++ rest) v' rest := by
  obtain ⟨bs, henc, hdec⟩ := CompactTy.decodes_encode tgt hinner (impl.encodeAs v)
  refine ⟨bs, henc, henc, fun rest => decodes_bind.mpr ⟨_, rest, hdec rest, ?_⟩⟩
  rw [hfrom]
  exact decodes_pure.mpr ⟨rfl, rfl⟩

/-- The macro accepts the structs with one field that is not skipped. -/
theorem DeriveInput.exists_compactAs_iff (di : DeriveInput F T) :
    (∃ impl, di.compactAs = .ok impl) ↔
      ∃ fields, di.data = .struct fields ∧ fields.list.filterSkip.length = 1 := by
  obtain ⟨ident, transparent, data, repr⟩ := di
  cases data with
  | enum vs =>
    refine iff_of_false ?_ ?_
    · rintro ⟨_, h⟩
      cases h
    · rintro ⟨_, h, -⟩
      cases h
  | struct fields =>
    have hinner := fields.list.isSome_innerField
    constructor
    · rintro ⟨impl, h⟩
      refine ⟨fields, rfl, hinner.mp ?_⟩
      rw [compactAs] at h
      split at h
      · next hsome => rw [hsome, Option.isSome_some]
      · cases h
    · rintro ⟨_, h, hlen⟩
      cases h
      obtain ⟨inner, hsome⟩ := Option.isSome_iff_exists.mp (hinner.mpr hlen)
      exact ⟨_, by rw [compactAs, hsome]⟩

/-- `decode_from` undoes `encode_as`, up to the skipped fields, which `encode_as` ignores. -/
theorem DeriveInput.decodeFrom_encodeAs {di : DeriveInput F T} {impl : CompactAs F T}
    (h : di.compactAs = .ok impl) (hc : di.decodeCheck = .ok ()) (v : T) :
    let v' := di.repr.symm (di.data.defaulted (di.repr v))
    impl.decodeFrom (impl.encodeAs v) = .ok v' ∧ impl.encodeAs v' = impl.encodeAs v := by
  obtain ⟨ident, transparent, data, repr⟩ := di
  cases data with
  | enum vs => cases h
  | struct fields =>
    rw [compactAs] at h
    split at h
    · next inner hinner =>
      cases h
      have hv : inner.constructor (inner.get (repr v)) = fields.list.defaulted (repr v) := by
        rw [FieldList.constructor_get hinner, FieldList.reset_eq_defaulted hc]
      refine ⟨congrArg (fun x => Except.ok (repr.symm x)) hv, ?_⟩
      show inner.get (repr (repr.symm (fields.list.defaulted (repr v)))) = inner.get (repr v)
      rw [Equiv.apply_symm_apply, ← hv, FieldList.get_constructor hinner]
    · cases h

/-- The macro accepts the structs with one field that is not skipped. `Compact` of such a struct is
encoded as `Compact` of this field, and decoded, whatever follows, to the value with its skipped
fields at their defaults, which has the same encoding. -/
theorem compact_as_derive (di : DeriveInput F T) :
    ((∃ impl, di.compactAs = .ok impl) ↔
      ∃ fields, di.data = .struct fields ∧ fields.list.filterSkip.length = 1) ∧
    ∀ impl, di.compactAs = .ok impl → di.decodeCheck = .ok () → ∀ inner : CompactTy impl.As,
      inner.Faithful → ∀ (tgt : Target) (v : T),
        let v' := di.repr.symm (di.data.defaulted (di.repr v))
        ∃ bs, Encodes (impl.compactTy inner).encode v bs ∧
          Encodes (impl.compactTy inner).encode v' bs ∧
          Encodes inner.encode (impl.encodeAs v) bs ∧
          ∀ rest, Decodes ((impl.compactTy inner).decode tgt) (bs ++ rest) v' rest := by
  refine ⟨di.exists_compactAs_iff, fun impl h hc inner hinner tgt v => ?_⟩
  obtain ⟨hfrom, has⟩ := DeriveInput.decodeFrom_encodeAs h hc v
  obtain ⟨bs, henc, hfield, hdec⟩ := CompactAs.decodes_compactTy hinner tgt hfrom
  have hreset := hfield
  rw [← has] at hreset
  exact ⟨bs, henc, hreset, hfield, hdec⟩

/-- `struct Wrapper(u32, #[codec(skip)] u8)`. -/
def wrapperInput : DeriveInput (Ty Empty.elim) (Prim.u32.Val × Prim.u8.Val × Unit) where
  ident := "Wrapper"
  data := .struct (.unnamed (.cons { ident := none, ty := .prim .u32 }
    (.cons { ident := none, ty := .prim .u8, skip := some 0 } .nil)))
  repr := .refl _

/-- The `impl CompactAs` of `Wrapper` : by its first field, the second one reset. -/
def wrapperImpl : CompactAs (Ty Empty.elim) (Prim.u32.Val × Prim.u8.Val × Unit) where
  ty := .prim .u32
  encodeAs v := v.1
  decodeFrom x := .ok (x, 0, ())

theorem compact_as_derive_wrapper :
    let c : CompactTy (Prim.u32.Val × Prim.u8.Val × Unit) := wrapperImpl.compactTy (.uint .u32)
    wrapperInput.compactAs = .ok wrapperImpl ∧ ∃ bs, Encodes c.encode (300, 9, ()) bs ∧
      Encodes c.encode (300, 0, ()) bs ∧
      ∀ rest, Decodes (c.decode ⟨.w64, true⟩) (bs ++ rest) (300, 0, ()) rest := by
  intro c
  have hok : wrapperInput.compactAs = .ok wrapperImpl := rfl
  obtain ⟨bs, henc, henc', -, hdec⟩ := (compact_as_derive wrapperInput).2 wrapperImpl hok rfl
    (.uint .u32) trivial ⟨.w64, true⟩ (300, 9, ())
  exact ⟨hok, bs, henc, henc', hdec⟩

end ScaleCodec
