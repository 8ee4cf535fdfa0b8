import ScaleCodec.Attributes

/-!
# The bounds of generic declarations

The macros add to the `where` clause of an `impl` what its fields need (`trait_bounds::add`) : a
bound on the type of a field that uses a type parameter. A type that mentions the declared type may
have none, since the compiler would need the `impl` to prove the bound of the `impl`. Such a type is
taken apart, down to the type paths that do not mention the declared type.

The declared type is recognised by the first segment of a path only : a field of type
`crate::Nest<T>` is taken for some other type.

`TraitBounds.add_bounds` : the types with a bound for the fields that are encoded as they are use a
type parameter, are parts of the types of these fields, and have no path that starts with the
declared type; and every type path of these fields with such a parameter and no such path is part of
a type with a bound.
-/

universe v

namespace ScaleCodec

/-! ## Types -/

/-- `syn::Type`, as the visitors see it : idents and type paths in the order they are visited.
A type path has its `qself`, the ident of its first segment, and what follows. -/
inductive SynType where
  | nothing
  | ident (name : String)
  | typePath (qself : SynType) (first : String) (rest : SynType)
  | seq (a b : SynType)
deriving DecidableEq, Repr

/-- `syn::Path`. -/
structure SynPath where
  first : String
  rest : List String := []
deriving DecidableEq, Repr

/-- `#path::name`. -/
def SynPath.push (path : SynPath) (name : String) : SynPath :=
  { path with rest := path.rest ++ [name] }

/-- `<#qself as #path>::#name`. -/
def SynType.qualified (qself : SynType) (path : SynPath) (name : String) : SynType :=
  .typePath qself path.first
    ((path.push name).rest.foldr (fun segment rest => .seq (.ident segment) rest) .nothing)

namespace SynType

/-- `type_contain_idents`. -/
def containIdents (idents : List String) : SynType → Bool
  | nothing => false
  | ident name => idents.contains name
  | typePath qself first rest =>
    qself.containIdents idents || idents.contains first || rest.containIdents idents
  | seq a b => a.containIdents idents || b.containIdents idents

/-- `type_or_sub_type_path_starts_with_ident`, and for a type path
`type_path_or_sub_starts_with_ident`. -/
def startsWithIdent (name : String) : SynType → Bool
  | nothing => false
  | ident _ => false
  | typePath qself first rest =>
    first == name || qself.startsWithIdent name || rest.startsWithIdent name
  | seq a b => a.startsWithIdent name || b.startsWithIdent name

/-- `find_type_paths_not_start_or_contain_ident`. -/
def findTypePaths (name : String) : SynType → List SynType
  | nothing => []
  | ident _ => []
  | typePath qself first rest =>
    if (typePath qself first rest).startsWithIdent name then
      qself.findTypePaths name ++ rest.findTypePaths name
    else [typePath qself first rest]
  | seq a b => a.findTypePaths name ++ b.findTypePaths name

/-- The type paths in a type. -/
def paths : SynType → List SynType
  | nothing => []
  | ident _ => []
  | typePath qself first rest => typePath qself first rest :: (qself.paths ++ rest.paths)
  | seq a b => a.paths ++ b.paths

/-- A type path in the type starts with the ident. -/
def Mentions (t : SynType) (name : String) : Prop :=
  ∃ qself rest, typePath qself name rest ∈ t.paths

/-- The type, or a type path in it. -/
def Part (u t : SynType) : Prop := u = t ∨ u ∈ t.paths

variable {t u : SynType} {name : String} {idents : List String}

@[simp]
theorem containIdents_nil (t : SynType) : t.containIdents [] = false := by
  induction t with simp_all [containIdents]

theorem containIdents_of_mem_paths (h : u ∈ t.paths) (hu : u.containIdents idents) :
    t.containIdents idents := by
  induction t with
  | nothing => cases h
  | ident _ => cases h
  | typePath qself first rest ihq ihr =>
    rcases List.mem_cons.mp h with rfl | h
    · exact hu
    · rcases List.mem_append.mp h with h | h
      · simp [containIdents, ihq h]
      · simp [containIdents, ihr h]
  | seq a b iha ihb =>
    rcases List.mem_append.mp h with h | h
    · simp [containIdents, iha h]
    · simp [containIdents, ihb h]

theorem startsWithIdent_iff : t.startsWithIdent name ↔ t.Mentions name := by
  unfold Mentions
  induction t with
  | nothing => simp [startsWithIdent, paths]
  | ident _ => simp [startsWithIdent, paths]
  | typePath qself first rest ihq ihr =>
    simp only [startsWithIdent, paths, Bool.or_eq_true, beq_iff_eq, ihq, ihr, List.mem_cons,
      List.mem_append, typePath.injEq]
    constructor
    · rintro ((rfl | ⟨q, r, h⟩) | ⟨q, r, h⟩)
      · exact ⟨qself, rest, .inl ⟨rfl, rfl, rfl⟩⟩
      · exact ⟨q, r, .inr (.inl h)⟩
      · exact ⟨q, r, .inr (.inr h)⟩
    · rintro ⟨q, r, ⟨-, rfl, -⟩ | h | h⟩
      · exact .inl (.inl rfl)
      · exact .inl (.inr ⟨q, r, h⟩)
      · exact .inr ⟨q, r, h⟩
  | seq a b iha ihb =>
    simp only [startsWithIdent, paths, Bool.or_eq_true, iha, ihb, List.mem_append]
    constructor
    · rintro (⟨q, r, h⟩ | ⟨q, r, h⟩)
      · exact ⟨q, r, .inl h⟩
      · exact ⟨q, r, .inr h⟩
    · rintro ⟨q, r, h | h⟩
      · exact .inl ⟨q, r, h⟩
      · exact .inr ⟨q, r, h⟩

theorem startsWithIdent_eq_false_iff : t.startsWithIdent name = false ↔ ¬t.Mentions name := by
  rw [← startsWithIdent_iff, Bool.not_eq_true]

/-- What is found are type paths in the type that do not mention the ident. -/
theorem of_mem_findTypePaths (h : u ∈ t.findTypePaths name) :
    u ∈ t.paths ∧ u.startsWithIdent name = false := by
  induction t with
  | nothing => cases h
  | ident _ => cases h
  | typePath qself first rest ihq ihr =>
    rw [findTypePaths] at h
    split_ifs at h with hname
    · rcases List.mem_append.mp h with h | h
      · exact ⟨List.mem_cons_of_mem _ (List.mem_append_left _ (ihq h).1), (ihq h).2⟩
      · exact ⟨List.mem_cons_of_mem _ (List.mem_append_right _ (ihr h).1), (ihr h).2⟩
    · rw [List.mem_singleton.mp h]
      exact ⟨List.mem_cons_self, Bool.eq_false_iff.mpr hname⟩
  | seq a b iha ihb =>
    rcases List.mem_append.mp h with h | h
    · exact ⟨List.mem_append_left _ (iha h).1, (iha h).2⟩
    · exact ⟨List.mem_append_right _ (ihb h).1, (ihb h).2⟩

/-- Every type path that does not mention the ident is in one that is found. -/
theorem exists_mem_findTypePaths (h : u ∈ t.paths) (hu : u.startsWithIdent name = false) :
    ∃ v ∈ t.findTypePaths name, u ∈ v.paths := by
  induction t with
  | nothing => cases h
  | ident _ => cases h
  | typePath qself first rest ihq ihr =>
    rw [findTypePaths]
    split_ifs with hname
    · rcases List.mem_cons.mp h with rfl | h
      · exact absurd hname (Bool.eq_false_iff.mp hu)
      · rcases List.mem_append.mp h with h | h
        · obtain ⟨v, hv, huv⟩ := ihq h
          exact ⟨v, List.mem_append_left _ hv, huv⟩
        · obtain ⟨v, hv, huv⟩ := ihr h
          exact ⟨v, List.mem_append_right _ hv, huv⟩
    · exact ⟨_, List.mem_singleton_self _, h⟩
  | seq a b iha ihb =>
    rcases List.mem_append.mp h with h | h
    · obtain ⟨v, hv, huv⟩ := iha h
      exact ⟨v, List.mem_append_left _ hv, huv⟩
    · obtain ⟨v, hv, huv⟩ := ihb h
      exact ⟨v, List.mem_append_right _ hv, huv⟩

theorem Part.containIdents (h : u.Part t) (hu : u.containIdents idents) :
    t.containIdents idents := by
  obtain rfl | h := h
  · exact hu
  · exact containIdents_of_mem_paths h hu

theorem containIdents_qualified {path : SynPath} (h : t.containIdents idents) :
    (t.qualified path name).containIdents idents := by
  simp [qualified, SynType.containIdents, h]

end SynType

/-! ## Declarations -/

/-- `#bounded : #bound`. -/
structure WherePredicate where
  bounded : SynType
  bound : SynPath
deriving DecidableEq, Repr

/-- `syn::Generics` : the type parameters and the `where` clause. -/
structure Generics where
  typeParams : List String
  predicates : List WherePredicate := []
deriving DecidableEq, Repr

/-- `syn::Field` : its type and attributes. -/
structure SynField where
  ty : SynType
  attrs : List Attribute := []

/-- `syn::Variant` : its fields and attributes. -/
structure SynVariant where
  fields : List SynField
  attrs : List Attribute := []

/-- `syn::Data`. -/
inductive SynData where
  | struct (fields : List SynField)
  | enum (variants : List SynVariant)
  | union

/-- `CustomTraitBound`. -/
inductive CustomTraitBound where
  | specifiedBounds (bounds : List WherePredicate)
  | skipTypeParams (typeNames : List String)

namespace TraitBounds

variable {ρ : Type v}

/-- The fields `collect_types` goes through. -/
def fieldsOf : SynData → Except String (List SynField)
  | .struct fields => .ok fields
  | .enum variants =>
    .ok ((variants.filter fun variant => !shouldSkip variant.attrs).flatMap (·.fields))
  | .union => .error "Union types are not supported."

/-- `collect_types`. -/
def collectTypes (data : SynData) (typeFilter : SynField → Bool) :
    Except String (List SynType) := do
  return ((← fieldsOf data).filter typeFilter).map (·.ty)

/-- The field is encoded as it is. The attributes have been checked, so `get_encoded_as_type`
does not panic. -/
def needsCodecBound (fromStr : String → Option ρ) (f : SynField) : Bool :=
  !isCompact f.attrs && (getEncodedAsType fromStr f.attrs).isNone && !shouldSkip f.attrs

/-- The types `get_types_to_add_trait_bound` makes of the type of a field. -/
def splitType (inputIdent : String) (tyParams : List String) (ty : SynType) : List SynType :=
  (ty.findTypePaths inputIdent).filter (·.containIdents tyParams) ++ [ty]

/-- `get_types_to_add_trait_bound`. -/
def getTypesToAddTraitBound (fromStr : String → Option ρ) (inputIdent : String) (data : SynData)
    (tyParams : List String) (dumbTraitBound : Bool) : Except String (List SynType) := do
  if dumbTraitBound then
    return tyParams.map fun t => .typePath .nothing t .nothing
  else
    let types ← collectTypes data (needsCodecBound fromStr)
    return ((types.filter (·.containIdents tyParams)).flatMap
      (splitType inputIdent tyParams)).filter (!·.startsWithIdent inputIdent)

/-- The type parameters a bound is looked for. -/
def keptParams (generics : Generics) (skipTypeParams : List String) : List String :=
  generics.typeParams.filter fun tp => skipTypeParams.all (· != tp)

/-- The bounds for a type in `Compact`. -/
def compactPredicates (codecBound cratePath : SynPath) (ty : SynType) : List WherePredicate :=
  [⟨ty, cratePath.push "HasCompact"⟩,
    ⟨ty.qualified (cratePath.push "HasCompact") "Type", codecBound⟩]

/-- The part of `add` behind the custom bounds. -/
def addFor (fromStr : String → Option ρ) (inputIdent : String) (generics : Generics)
    (data : SynData) (tyParams : List String) (codecBound : SynPath)
    (codecSkipBound : Option SynPath) (dumbTraitBounds : Bool) (cratePath : SynPath) :
    Except String Generics := do
  if tyParams.isEmpty then return generics
  let codecTypes ← getTypesToAddTraitBound fromStr inputIdent data tyParams dumbTraitBounds
  let compactTypes := (← collectTypes data (isCompact ·.attrs)).filter (·.containIdents tyParams)
  let skipPredicates ← match codecSkipBound with
    | some skipBound => do
      let types := (← collectTypes data (shouldSkip ·.attrs)).filter (·.containIdents tyParams)
      pure (types.map fun ty => ⟨ty, skipBound⟩)
    | none => pure []
  let predicates := codecTypes.map (fun ty => ⟨ty, codecBound⟩) ++
    compactTypes.flatMap (compactPredicates codecBound cratePath) ++ skipPredicates
  return { generics with predicates := generics.predicates ++ predicates }

/-- `add`. -/
def add (fromStr : String → Option ρ) (inputIdent : String) (generics : Generics)
    (data : SynData) (customTraitBound : Option CustomTraitBound) (codecBound : SynPath)
    (codecSkipBound : Option SynPath) (dumbTraitBounds : Bool) (cratePath : SynPath) :
    Except String Generics :=
  match customTraitBound with
  | some (.specifiedBounds bounds) =>
    .ok { generics with predicates := generics.predicates ++ bounds }
  | some (.skipTypeParams typeNames) =>
    addFor fromStr inputIdent generics data (keptParams generics typeNames) codecBound
      codecSkipBound dumbTraitBounds cratePath
  | none =>
    addFor fromStr inputIdent generics data (keptParams generics []) codecBound codecSkipBound
      dumbTraitBounds cratePath

section

variable {fromStr : String → Option ρ} {inputIdent : String} {data : SynData}
  {fields : List SynField} {tyParams : List String} {codecBound cratePath : SynPath}

/-- The types with a bound for the codec, among those of the fields. -/
structure CodecBounds (fromStr : String → Option ρ) (inputIdent : String) (tyParams : List String)
    (fields : List SynField) (types : List SynType) : Prop where
  uses : ∀ ty ∈ types, ty.containIdents tyParams
  foreign : ∀ ty ∈ types, ¬ty.Mentions inputIdent
  needed : ∀ ty ∈ types, ∃ f ∈ fields, needsCodecBound fromStr f ∧ ty.Part f.ty
  covers : ∀ f ∈ fields, needsCodecBound fromStr f → ∀ u : SynType, u.Part f.ty →
    u.containIdents tyParams → ¬u.Mentions inputIdent → ∃ ty ∈ types, u.Part ty

theorem collectTypes_of_fieldsOf (h : fieldsOf data = .ok fields) (p : SynField → Bool) :
    collectTypes data p = .ok ((fields.filter p).map (·.ty)) := by
  simp [collectTypes, h, pure, Except.pure, bind, Except.bind]

theorem of_mem_splitType {ty u : SynType} (hty : ty.containIdents tyParams)
    (h : u ∈ splitType inputIdent tyParams ty) : u.containIdents tyParams ∧ u.Part ty := by
  rcases List.mem_append.mp h with h | h
  · obtain ⟨hu, hparam⟩ := List.mem_filter.mp h
    exact ⟨hparam, .inr (SynType.of_mem_findTypePaths hu).1⟩
  · rw [List.mem_singleton.mp h]
    exact ⟨hty, .inl rfl⟩

theorem exists_mem_splitType {ty u : SynType} (hu : u.Part ty) (hparam : u.containIdents tyParams)
    (hname : ¬u.Mentions inputIdent) :
    ∃ w ∈ splitType inputIdent tyParams ty, ¬w.Mentions inputIdent ∧ u.Part w := by
  obtain rfl | hu := hu
  · exact ⟨u, List.mem_append_right _ (List.mem_singleton_self u), hname, .inl rfl⟩
  · obtain ⟨w, hw, huw⟩ :=
      SynType.exists_mem_findTypePaths hu (SynType.startsWithIdent_eq_false_iff.mpr hname)
    have hwparam : w.containIdents tyParams := SynType.containIdents_of_mem_paths huw hparam
    exact ⟨w, List.mem_append_left _ (List.mem_filter.mpr ⟨hw, hwparam⟩),
      SynType.startsWithIdent_eq_false_iff.mp (SynType.of_mem_findTypePaths hw).2, .inr huw⟩

theorem getTypesToAddTraitBound_spec (fromStr : String → Option ρ) (inputIdent : String)
    (tyParams : List String) (h : fieldsOf data = .ok fields) :
    ∃ types, getTypesToAddTraitBound fromStr inputIdent data tyParams false = .ok types ∧
      CodecBounds fromStr inputIdent tyParams fields types := by
  simp only [getTypesToAddTraitBound, collectTypes_of_fieldsOf h, Bool.false_eq_true, if_false]
  refine ⟨_, rfl, ?_⟩
  -- a type is kept exactly if it comes from a field that needs it and does not mention the ident
  have hmem : ∀ ty, ty ∈ ((((fields.filter (needsCodecBound fromStr)).map (·.ty)).filter
      (·.containIdents tyParams)).flatMap (splitType inputIdent tyParams)).filter
        (!·.startsWithIdent inputIdent) ↔
      (∃ f ∈ fields, needsCodecBound fromStr f ∧ f.ty.containIdents tyParams ∧
        ty ∈ splitType inputIdent tyParams f.ty) ∧ ¬ty.Mentions inputIdent := by
    intro ty
    simp [SynType.startsWithIdent_eq_false_iff, and_assoc]
  refine ⟨fun ty hty => ?_, fun ty hty => ((hmem ty).mp hty).2, fun ty hty => ?_, ?_⟩
  · obtain ⟨⟨f, -, -, hparam, hsplit⟩, -⟩ := (hmem ty).mp hty
    exact (of_mem_splitType hparam hsplit).1
  · obtain ⟨⟨f, hf, hneeds, hparam, hsplit⟩, -⟩ := (hmem ty).mp hty
    exact ⟨f, hf, hneeds, (of_mem_splitType hparam hsplit).2⟩
  · intro f hf hneeds u hu hparam hname
    obtain ⟨w, hw, hwname, huw⟩ := exists_mem_splitType hu hparam hname
    exact ⟨w, (hmem w).mpr ⟨⟨f, hf, hneeds, hu.containIdents hparam, hw⟩, hwname⟩, huw⟩

/-- The bounds for the fields in `Compact` and for the skipped ones. -/
def otherPredicates (fields : List SynField) (tyParams : List String) (codecBound : SynPath)
    (codecSkipBound : Option SynPath) (cratePath : SynPath) : List WherePredicate :=
  (((fields.filter (isCompact ·.attrs)).map (·.ty)).filter (·.containIdents tyParams)).flatMap
      (compactPredicates codecBound cratePath) ++
    match codecSkipBound with
    | some skipBound => (((fields.filter (shouldSkip ·.attrs)).map (·.ty)).filter
        (·.containIdents tyParams)).map fun ty => ⟨ty, skipBound⟩
    | none => []

theorem mem_otherPredicates {codecSkipBound : Option SynPath} {p : WherePredicate} :
    p ∈ otherPredicates fields tyParams codecBound codecSkipBound cratePath ↔
      ∃ f ∈ fields, f.ty.containIdents tyParams ∧
        (isCompact f.attrs ∧ p ∈ compactPredicates codecBound cratePath f.ty ∨
          shouldSkip f.attrs ∧ ∃ skipBound ∈ codecSkipBound, p = ⟨f.ty, skipBound⟩) := by
  cases codecSkipBound with
  | none =>
    simp only [otherPredicates, List.append_nil, List.mem_flatMap, List.mem_filter, List.mem_map]
    constructor
    · rintro ⟨_, ⟨⟨f, ⟨hf, hcompact⟩, rfl⟩, hparam⟩, hp⟩
      exact ⟨f, hf, hparam, .inl ⟨hcompact, hp⟩⟩
    · rintro ⟨f, hf, hparam, ⟨hcompact, hp⟩ | ⟨-, _, h, -⟩⟩
      · exact ⟨f.ty, ⟨⟨f, ⟨hf, hcompact⟩, rfl⟩, hparam⟩, hp⟩
      · cases h
  | some skipBound =>
    simp only [otherPredicates, List.mem_append, List.mem_flatMap, List.mem_filter, List.mem_map]
    constructor
    · rintro (⟨_, ⟨⟨f, ⟨hf, hcompact⟩, rfl⟩, hparam⟩, hp⟩ |
        ⟨_, ⟨⟨f, ⟨hf, hskip⟩, rfl⟩, hparam⟩, rfl⟩)
      · exact ⟨f, hf, hparam, .inl ⟨hcompact, hp⟩⟩
      · exact ⟨f, hf, hparam, .inr ⟨hskip, skipBound, rfl, rfl⟩⟩
    · rintro ⟨f, hf, hparam, ⟨hcompact, hp⟩ | ⟨hskip, _, h, rfl⟩⟩
      · exact .inl ⟨f.ty, ⟨⟨f, ⟨hf, hcompact⟩, rfl⟩, hparam⟩, hp⟩
      · cases h
        exact .inr ⟨f.ty, ⟨⟨f, ⟨hf, hskip⟩, rfl⟩, hparam⟩, rfl⟩

theorem bounded_containIdents_of_mem_compactPredicates {ty : SynType} {p : WherePredicate}
    (hty : ty.containIdents tyParams) (h : p ∈ compactPredicates codecBound cratePath ty) :
    p.bounded.containIdents tyParams := by
  simp only [compactPredicates, List.mem_cons, List.not_mem_nil, or_false] at h
  obtain rfl | rfl := h
  · exact hty
  · exact SynType.containIdents_qualified hty

theorem addFor_spec (fromStr : String → Option ρ) (inputIdent : String) (generics : Generics)
    (tyParams : List String) (codecBound : SynPath) (codecSkipBound : Option SynPath)
    (cratePath : SynPath) (h : fieldsOf data = .ok fields) :
    ∃ types, addFor fromStr inputIdent generics data tyParams codecBound codecSkipBound false
        cratePath = .ok { generics with predicates := generics.predicates ++
          (types.map (fun ty => ⟨ty, codecBound⟩) ++
            otherPredicates fields tyParams codecBound codecSkipBound cratePath) } ∧
      CodecBounds fromStr inputIdent tyParams fields types := by
  obtain ⟨types, htypes, hspec⟩ := getTypesToAddTraitBound_spec fromStr inputIdent tyParams h
  cases tyParams with
  | nil =>
    refine ⟨[], ?_, by simp, by simp, by simp, by simp⟩
    have hother : otherPredicates fields [] codecBound codecSkipBound cratePath = [] := by
      refine List.eq_nil_iff_forall_not_mem.mpr fun p hp => ?_
      obtain ⟨f, -, hparam, -⟩ := mem_otherPredicates.mp hp
      simp at hparam
    simp [addFor, hother, pure, Except.pure]
  | cons tyParam tyParams =>
    refine ⟨types, ?_, hspec⟩
    cases codecSkipBound <;>
      simp [addFor, htypes, collectTypes_of_fieldsOf h, otherPredicates, bind, Except.bind, pure,
        Except.pure]

/-- Unless the bounds are given by hand, `add` adds those the fields need : for a field that is
encoded as it is every type path that uses a parameter but not the declared type, and for the fields
in `Compact` and the skipped ones their own. -/
theorem add_bounds (fromStr : String → Option ρ) (inputIdent : String) (generics : Generics)
    (skipped : Option (List String)) (codecBound : SynPath) (codecSkipBound : Option SynPath)
    (cratePath : SynPath) (h : fieldsOf data = .ok fields) :
    ∃ types rest,
      add fromStr inputIdent generics data (skipped.map .skipTypeParams) codecBound codecSkipBound
          false cratePath = .ok { generics with predicates := generics.predicates ++
            (types.map (fun ty => ⟨ty, codecBound⟩) ++ rest) } ∧
        CodecBounds fromStr inputIdent (keptParams generics (skipped.getD [])) fields types ∧
        (∀ p ∈ rest, p.bounded.containIdents (keptParams generics (skipped.getD []))) ∧
        ∀ f ∈ fields, f.ty.containIdents (keptParams generics (skipped.getD [])) →
          (isCompact f.attrs → ∀ p ∈ compactPredicates codecBound cratePath f.ty, p ∈ rest) ∧
          (shouldSkip f.attrs → ∀ skipBound ∈ codecSkipBound, ⟨f.ty, skipBound⟩ ∈ rest) := by
  obtain ⟨types, hadd, hspec⟩ := addFor_spec fromStr inputIdent generics
    (keptParams generics (skipped.getD [])) codecBound codecSkipBound cratePath h
  refine ⟨types, otherPredicates fields (keptParams generics (skipped.getD [])) codecBound
    codecSkipBound cratePath, ?_, hspec, fun p hp => ?_, fun f hf hparam => ⟨?_, ?_⟩⟩
  · rw [← hadd]
    cases skipped <;> rfl
  · obtain ⟨f, -, hparam, ⟨-, hp⟩ | ⟨-, _, -, rfl⟩⟩ := mem_otherPredicates.mp hp
    · exact bounded_containIdents_of_mem_compactPredicates hparam hp
    · exact hparam
  · exact fun hcompact p hp => mem_otherPredicates.mpr ⟨f, hf, hparam, .inl ⟨hcompact, hp⟩⟩
  · exact fun hskip b hb => mem_otherPredicates.mpr ⟨f, hf, hparam, .inr ⟨hskip, b, hb, rfl⟩⟩

/-- `struct Nest<T>(Vec<(Nest<T>, T)>)`. -/
def nestFields : List SynField :=
  let param := .typePath .nothing "T" .nothing
  [{ ty := .typePath .nothing "Vec" (.seq (.typePath .nothing "Nest" param) param) }]

theorem add_bounds_nest :
    fieldsOf (.struct nestFields) = .ok nestFields ∧ ∃ types rest,
      add (fun _ => some ()) "Nest" ⟨["T"], []⟩ (.struct nestFields) none ⟨"Encode", []⟩ none false
          ⟨"codec", []⟩ = .ok ⟨["T"], types.map (fun ty => ⟨ty, ⟨"Encode", []⟩⟩) ++ rest⟩ ∧
        CodecBounds (fun _ => some ()) "Nest" ["T"] nestFields types := by
  have h : fieldsOf (.struct nestFields) = .ok nestFields := rfl
  obtain ⟨types, rest, hadd, hspec, -⟩ := add_bounds (fun _ => some ()) "Nest" ⟨["T"], []⟩ none
    ⟨"Encode", []⟩ none ⟨"codec", []⟩ h
  exact ⟨h, types, rest, hadd, hspec⟩

/-- The bound of `Nest<T>` is on `T` and nothing else. -/
example : add (fun _ => some ()) "Nest" ⟨["T"], []⟩ (.struct nestFields) none ⟨"Encode", []⟩ none
    false ⟨"codec", []⟩ = .ok ⟨["T"], [⟨.typePath .nothing "T" .nothing, ⟨"Encode", []⟩⟩,
      ⟨.typePath .nothing "T" .nothing, ⟨"Encode", []⟩⟩]⟩ := by
  decide

end

end TraitBounds

end ScaleCodec
