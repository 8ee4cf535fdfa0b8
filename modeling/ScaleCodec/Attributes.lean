import ScaleCodec.Derive

/-!
# `codec` attributes

Before the macros generate code they check the attributes of a declaration (`check_attributes`),
and then look each attribute up where they need it (`find_meta_item`). An attribute that passes the
check is never reported again : the look-ups panic on none of them
(`attributes_take_effect`).

The two read the arguments in different ways. The check takes a list that may end in a comma, the
look-ups one item and nothing behind it. So `#[codec(index = 5,)]` is accepted and has no effect :
the variant has the index it has without the attribute.
-/

universe u v

namespace ScaleCodec

variable {F : Type → Type u} {α : Type} {ρ : Type v}

/-! ## Syntax -/

/-- The idents the macros look for. A path is one of them, or something else. -/
inductive Ident where
  | codec | skip | compact | encodedAs | index
  | other (path : String)
deriving DecidableEq, Repr

/-- `syn::Expr`, as far as the macros tell them apart. -/
inductive Expr where
  | str (value : String)
  | int (value : ℕ)
  | other
deriving DecidableEq, Repr

/-- `syn::Meta`. -/
inductive MetaItem where
  | path (path : Ident)
  | list (path : Ident)
  | nameValue (path : Ident) (value : Expr)
deriving DecidableEq, Repr

/-- `syn::Attribute`. The arguments are what `Punctuated::<Meta, Token![,]>::parse_terminated` makes
of them, which may fail, and whether they end in a comma. -/
structure Attribute where
  path : Ident
  args : Except String (List MetaItem)
  trailingComma : Bool := false

/-- `attr.parse_args::<Meta>().ok()`. Of `syn`, which is not modelled, it is assumed that
`parse_args` parses one item and fails if a token is left behind it. -/
def Attribute.parseArgs (attr : Attribute) : Option MetaItem :=
  match attr.args, attr.trailingComma with
  | .ok [m], false => some m
  | _, _ => none

/-- The attribute is `#[codec(m)]` or `#[codec(m,)]`. -/
def Attribute.Says (attr : Attribute) (m : MetaItem) : Prop :=
  attr.path = .codec ∧ attr.args = .ok [m]

/-! ## Checks -/

/-- What `check_field_attribute` and `check_variant_attribute` have in common. -/
def checkAttribute (error : String) (check : MetaItem → Except String Unit) (attr : Attribute) :
    Except String Unit :=
  if attr.path = .codec then do
    match ← attr.args with
    | [m] => check m
    | _ => .error error
  else .ok ()

/-- The message of `check_field_attribute`. -/
def fieldError : String :=
  "Invalid attribute on field, only `#[codec(skip)]`, `#[codec(compact)]` and " ++
    "`#[codec(encoded_as = \"$EncodeAs\")]` are accepted."

/-- The items `check_field_attribute` accepts, where `fromStr` is `TokenStream::from_str`. -/
def checkFieldItem (fromStr : String → Option ρ) : MetaItem → Except String Unit
  | .path .skip => .ok ()
  | .path .compact => .ok ()
  | .nameValue .encodedAs (.str s) =>
    if (fromStr s).isSome then .ok () else .error "Invalid token stream"
  | _ => .error fieldError

/-- `check_field_attribute`. -/
def checkFieldAttribute (fromStr : String → Option ρ) : Attribute → Except String Unit :=
  checkAttribute fieldError (checkFieldItem fromStr)

/-- The message of `check_variant_attribute`. -/
def variantError : String :=
  "Invalid attribute on variant, only `#[codec(skip)]` and `#[codec(index = $u8)]` are accepted."

/-- The items `check_variant_attribute` accepts. -/
def checkVariantItem : MetaItem → Except String Unit
  | .path .skip => .ok ()
  | .nameValue .index (.int n) => if n < 256 then .ok () else .error "Index must be in 0..255"
  | _ => .error variantError

/-- `check_variant_attribute`. -/
def checkVariantAttribute : Attribute → Except String Unit :=
  checkAttribute variantError checkVariantItem

/-! ## Look-ups -/

/-- `find_meta_item`. A panic of `pred` is a result it finds. -/
def findMetaItem (pred : MetaItem → Option ρ) (attrs : List Attribute) : Option ρ :=
  attrs.findSome? fun attr => if attr.path = .codec then attr.parseArgs.bind pred else none

/-- The look-up of `variant_index`. -/
def indexAttribute : List Attribute → Option (Except Halt Byte) :=
  findMetaItem fun
    | .nameValue .index (.int n) =>
      some (if n < 256 then .ok (BitVec.ofNat 8 n)
        else .error (.panic "Internal error, index attribute must have been checked"))
    | _ => none

/-- `get_encoded_as_type`. -/
def getEncodedAsType (fromStr : String → Option ρ) : List Attribute → Option (Except Halt ρ) :=
  findMetaItem fun
    | .nameValue .encodedAs (.str s) =>
      some (match fromStr s with
        | some tokens => .ok tokens
        | none => .error (.panic "Internal error, encoded_as attribute must have been checked"))
    | _ => none

/-- `is_compact`. -/
def isCompact (attrs : List Attribute) : Bool :=
  (findMetaItem (fun m => if m = .path .compact then some () else none) attrs).isSome

/-- `should_skip`. -/
def shouldSkip (attrs : List Attribute) : Bool :=
  (findMetaItem (fun m => if m = .path .skip then some () else none) attrs).isSome

/-- A variant with its attributes looked up. -/
def Variant.ofAttrs (ident : String) (fields : Fields F α) (discriminant : Option ℤ)
    (attrs : List Attribute) : Except Halt (Variant F α) :=
  match indexAttribute attrs with
  | some (.error h) => .error h
  | some (.ok index) =>
    .ok { ident, fields, skip := shouldSkip attrs, index := some index, discriminant }
  | none => .ok { ident, fields, skip := shouldSkip attrs, discriminant }

/-- A field with its attributes looked up. `compact` is what it is encoded as if it is `compact`,
and `fromStr` gives what it is encoded as for the text of a type. -/
def Field.ofAttrs (ident : Option String) (ty : F α) (default : α) (compact : EncodeAs F α)
    (fromStr : String → Option (EncodeAs F α)) (attrs : List Attribute) :
    Except Halt (Field F α) :=
  let skip := if shouldSkip attrs then some default else none
  let compact := if isCompact attrs then some compact else none
  match getEncodedAsType fromStr attrs with
  | some (.error h) => .error h
  | some (.ok as) => .ok { ident, ty, skip, compact, encodedAs := some as }
  | none => .ok { ident, ty, skip, compact }

/-! ## Accepted attributes -/

section Accepted

variable {attr : Attribute} {attrs : List Attribute} {m : MetaItem}

theorem Attribute.parseArgs_eq_some :
    attr.parseArgs = some m ↔ attr.args = .ok [m] ∧ attr.trailingComma = false := by
  unfold Attribute.parseArgs
  split
  · next m' hargs hcomma =>
    rw [hargs, hcomma]
    simp
  · next h =>
    refine iff_of_false (fun h => by cases h) ?_
    rintro ⟨hargs, hcomma⟩
    exact h m hargs hcomma

theorem Attribute.Says.unique {m' : MetaItem} (h : attr.Says m) (h' : attr.Says m') : m = m' :=
  (List.cons.inj (Except.ok.inj (h.2.symm.trans h'.2))).1

/-- Where a look-up finds something, an attribute without a comma behind its item says so. -/
theorem findMetaItem_eq_some {pred : MetaItem → Option ρ} {r : ρ}
    (h : findMetaItem pred attrs = some r) :
    ∃ attr ∈ attrs, ∃ m, attr.Says m ∧ attr.trailingComma = false ∧ pred m = some r := by
  obtain ⟨attr, hattr, h⟩ := List.exists_of_findSome?_eq_some h
  split_ifs at h with hpath
  obtain ⟨m, hm, hpred⟩ := Option.bind_eq_some_iff.mp h
  obtain ⟨hargs, hcomma⟩ := Attribute.parseArgs_eq_some.mp hm
  exact ⟨attr, hattr, m, ⟨hpath, hargs⟩, hcomma, hpred⟩

theorem isSome_findMetaItem {pred : MetaItem → Option ρ} : (findMetaItem pred attrs).isSome ↔
    ∃ attr ∈ attrs, ∃ m, attr.Says m ∧ attr.trailingComma = false ∧ (pred m).isSome := by
  constructor
  · intro h
    obtain ⟨r, hr⟩ := Option.isSome_iff_exists.mp h
    obtain ⟨attr, hattr, m, hsaid, hcomma, hpred⟩ := findMetaItem_eq_some hr
    exact ⟨attr, hattr, m, hsaid, hcomma, Option.isSome_iff_exists.mpr ⟨r, hpred⟩⟩
  · rintro ⟨attr, hattr, m, hsaid, hcomma, hpred⟩
    refine List.findSome?_isSome_iff.mpr ⟨attr, hattr, ?_⟩
    rw [if_pos hsaid.1, Attribute.parseArgs_eq_some.mpr ⟨hsaid.2, hcomma⟩]
    exact hpred

/-- The look-up of one item. -/
theorem isSome_findMetaItem_path {p : MetaItem} :
    (findMetaItem (fun m => if m = p then some () else none) attrs).isSome ↔
      ∃ attr ∈ attrs, attr.Says p ∧ attr.trailingComma = false := by
  rw [isSome_findMetaItem]
  constructor
  · rintro ⟨attr, hattr, m, hsaid, hcomma, hm⟩
    split_ifs at hm with hmp
    · exact ⟨attr, hattr, hmp ▸ hsaid, hcomma⟩
    · cases hm
  · rintro ⟨attr, hattr, hsaid, hcomma⟩
    exact ⟨attr, hattr, p, hsaid, hcomma, by rw [if_pos rfl]; rfl⟩

/-- An accepted `codec` attribute has one item, which is accepted. -/
theorem says_of_checkAttribute {error : String} {check : MetaItem → Except String Unit}
    (h : checkAttribute error check attr = .ok ()) (hpath : attr.path = .codec) :
    ∃ m, attr.Says m ∧ check m = .ok () := by
  rw [checkAttribute, if_pos hpath] at h
  cases hargs : attr.args with
  | error e =>
    rw [hargs] at h
    cases h
  | ok ms =>
    rw [hargs] at h
    match ms, h with
    | [m], h => exact ⟨m, ⟨hpath, hargs⟩, h⟩

theorem checkVariantItem_eq_ok (h : checkVariantItem m = .ok ()) :
    m = .path .skip ∨ ∃ n < 256, m = .nameValue .index (.int n) := by
  unfold checkVariantItem at h
  split at h
  · exact Or.inl rfl
  · next n =>
    split_ifs at h with hn
    exact Or.inr ⟨n, hn, rfl⟩
  · cases h

theorem checkFieldItem_eq_ok {fromStr : String → Option ρ} (h : checkFieldItem fromStr m = .ok ()) :
    m = .path .skip ∨ m = .path .compact ∨
      ∃ s tokens, fromStr s = some tokens ∧ m = .nameValue .encodedAs (.str s) := by
  unfold checkFieldItem at h
  split at h
  · exact Or.inl rfl
  · exact Or.inr (Or.inl rfl)
  · next s =>
    split_ifs at h with hs
    obtain ⟨tokens, htokens⟩ := Option.isSome_iff_exists.mp hs
    exact Or.inr (Or.inr ⟨s, tokens, htokens, rfl⟩)
  · cases h

/-- What is found for the index of accepted attributes is a byte one of them has. -/
theorem indexAttribute_of_accepted (h : ∀ attr ∈ attrs, checkVariantAttribute attr = .ok ())
    {r : Except Halt Byte} (hr : indexAttribute attrs = some r) :
    ∃ attr ∈ attrs, ∃ n < 256, attr.Says (.nameValue .index (.int n)) ∧
      attr.trailingComma = false ∧ r = .ok (BitVec.ofNat 8 n) := by
  obtain ⟨attr, hattr, m, hsaid, hcomma, hpred⟩ := findMetaItem_eq_some hr
  obtain ⟨m', hsaid', hm'⟩ := says_of_checkAttribute (h attr hattr) hsaid.1
  obtain rfl := hsaid'.unique hsaid
  rcases checkVariantItem_eq_ok hm' with rfl | ⟨n, hn, rfl⟩
  · cases hpred
  · refine ⟨attr, hattr, n, hn, hsaid, hcomma, ?_⟩
    simp only [if_pos hn, Option.some.injEq] at hpred
    exact hpred.symm

/-- The same for the type of a field. -/
theorem getEncodedAsType_of_accepted {fromStr : String → Option ρ}
    (h : ∀ attr ∈ attrs, checkFieldAttribute fromStr attr = .ok ()) {r : Except Halt ρ}
    (hr : getEncodedAsType fromStr attrs = some r) :
    ∃ attr ∈ attrs, ∃ s tokens, attr.Says (.nameValue .encodedAs (.str s)) ∧
      attr.trailingComma = false ∧ fromStr s = some tokens ∧ r = .ok tokens := by
  obtain ⟨attr, hattr, m, hsaid, hcomma, hpred⟩ := findMetaItem_eq_some hr
  obtain ⟨m', hsaid', hm'⟩ := says_of_checkAttribute (h attr hattr) hsaid.1
  obtain rfl := hsaid'.unique hsaid
  rcases checkFieldItem_eq_ok hm' with rfl | rfl | ⟨s, tokens, htokens, rfl⟩
  · cases hpred
  · cases hpred
  · refine ⟨attr, hattr, s, tokens, hsaid, hcomma, htokens, ?_⟩
    simp only [htokens, Option.some.injEq] at hpred
    exact hpred.symm

theorem isSome_indexAttribute : (indexAttribute attrs).isSome ↔
    ∃ attr ∈ attrs, ∃ n, attr.Says (.nameValue .index (.int n)) ∧ attr.trailingComma = false := by
  refine isSome_findMetaItem.trans ⟨?_, ?_⟩
  · rintro ⟨attr, hattr, m, hsaid, hcomma, hm⟩
    split at hm
    · next n => exact ⟨attr, hattr, n, hsaid, hcomma⟩
    · cases hm
  · rintro ⟨attr, hattr, n, hsaid, hcomma⟩
    exact ⟨attr, hattr, _, hsaid, hcomma, rfl⟩

theorem isSome_getEncodedAsType {fromStr : String → Option ρ} :
    (getEncodedAsType fromStr attrs).isSome ↔ ∃ attr ∈ attrs, ∃ s,
      attr.Says (.nameValue .encodedAs (.str s)) ∧ attr.trailingComma = false := by
  refine isSome_findMetaItem.trans ⟨?_, ?_⟩
  · rintro ⟨attr, hattr, m, hsaid, hcomma, hm⟩
    split at hm
    · next s => exact ⟨attr, hattr, s, hsaid, hcomma⟩
    · cases hm
  · rintro ⟨attr, hattr, s, hsaid, hcomma⟩
    exact ⟨attr, hattr, _, hsaid, hcomma, rfl⟩

theorem Variant.ofAttrs_accepted (h : ∀ attr ∈ attrs, checkVariantAttribute attr = .ok ())
    (ident : String) (fields : Fields F α) (discriminant : Option ℤ) :
    ∃ v, Variant.ofAttrs ident fields discriminant attrs = .ok v ∧ v.skip = shouldSkip attrs ∧
      v.index.isSome = (indexAttribute attrs).isSome ∧ ∀ b, v.index = some b →
        ∃ attr ∈ attrs, ∃ n < 256, attr.Says (.nameValue .index (.int n)) ∧
          attr.trailingComma = false ∧ b = BitVec.ofNat 8 n := by
  unfold Variant.ofAttrs
  cases hindex : indexAttribute attrs with
  | none => exact ⟨_, rfl, rfl, rfl, fun b hb => nomatch hb⟩
  | some r =>
    obtain ⟨attr, hattr, n, hn, hsaid, hcomma, rfl⟩ := indexAttribute_of_accepted h hindex
    refine ⟨_, rfl, rfl, rfl, fun b hb => ⟨attr, hattr, n, hn, hsaid, hcomma, ?_⟩⟩
    exact (Option.some.inj hb).symm

theorem Field.ofAttrs_accepted {fromStr : String → Option (EncodeAs F α)}
    (h : ∀ attr ∈ attrs, checkFieldAttribute fromStr attr = .ok ()) (ident : Option String)
    (ty : F α) (default : α) (compact : EncodeAs F α) :
    ∃ f, Field.ofAttrs ident ty default compact fromStr attrs = .ok f ∧
      f.skip.isSome = shouldSkip attrs ∧ f.compact.isSome = isCompact attrs ∧
      f.encodedAs.isSome = (getEncodedAsType fromStr attrs).isSome := by
  have hskip : (if shouldSkip attrs then some default else none).isSome = shouldSkip attrs :=
    Bool.eq_iff_iff.mpr Option.isSome_ite
  have hcompact : (if isCompact attrs then some compact else none).isSome = isCompact attrs :=
    Bool.eq_iff_iff.mpr Option.isSome_ite
  unfold Field.ofAttrs
  cases hty : getEncodedAsType fromStr attrs with
  | none => exact ⟨_, rfl, hskip, hcompact, rfl⟩
  | some r =>
    obtain ⟨_, _, _, as, _, _, _, rfl⟩ := getEncodedAsType_of_accepted h hty
    exact ⟨_, rfl, hskip, hcompact, rfl⟩

end Accepted

/-- The attributes a declaration is accepted with make no look-up panic. Each of them is one of
those the macros know, and the variant or field is what one of them says exactly if it has no comma
behind its item. -/
theorem attributes_take_effect (attrs : List Attribute)
    (fromStr : String → Option (EncodeAs F α)) :
    ((∀ attr ∈ attrs, checkVariantAttribute attr = .ok ()) → ∀ ident fields discriminant,
      (∀ attr ∈ attrs, attr.path = .codec → attr.Says (.path .skip) ∨
        ∃ n < 256, attr.Says (.nameValue .index (.int n))) ∧
      ∃ v : Variant F α, Variant.ofAttrs ident fields discriminant attrs = .ok v ∧
        (v.skip = true ↔
          ∃ attr ∈ attrs, attr.Says (.path .skip) ∧ attr.trailingComma = false) ∧
        (v.index.isSome ↔ ∃ attr ∈ attrs, ∃ n, attr.Says (.nameValue .index (.int n)) ∧
          attr.trailingComma = false) ∧
        ∀ b, v.index = some b → ∃ attr ∈ attrs, ∃ n < 256,
          attr.Says (.nameValue .index (.int n)) ∧ attr.trailingComma = false ∧
            b = BitVec.ofNat 8 n) ∧
    ((∀ attr ∈ attrs, checkFieldAttribute fromStr attr = .ok ()) → ∀ ident ty default compact,
      (∀ attr ∈ attrs, attr.path = .codec → attr.Says (.path .skip) ∨ attr.Says (.path .compact) ∨
        ∃ s, attr.Says (.nameValue .encodedAs (.str s))) ∧
      ∃ f : Field F α, Field.ofAttrs ident ty default compact fromStr attrs = .ok f ∧
        (f.skip.isSome ↔
          ∃ attr ∈ attrs, attr.Says (.path .skip) ∧ attr.trailingComma = false) ∧
        (f.compact.isSome ↔
          ∃ attr ∈ attrs, attr.Says (.path .compact) ∧ attr.trailingComma = false) ∧
        (f.encodedAs.isSome ↔ ∃ attr ∈ attrs, ∃ s,
          attr.Says (.nameValue .encodedAs (.str s)) ∧ attr.trailingComma = false)) := by
  refine ⟨fun h ident fields discriminant => ⟨fun attr hattr hpath => ?_, ?_⟩,
    fun h ident ty default compact => ⟨fun attr hattr hpath => ?_, ?_⟩⟩
  · obtain ⟨m, hsaid, hm⟩ := says_of_checkAttribute (h attr hattr) hpath
    rcases checkVariantItem_eq_ok hm with rfl | ⟨n, hn, rfl⟩
    · exact Or.inl hsaid
    · exact Or.inr ⟨n, hn, hsaid⟩
  · obtain ⟨v, hv, hskip, hindex, hbyte⟩ := Variant.ofAttrs_accepted h ident fields discriminant
    refine ⟨v, hv, ?_, ?_, hbyte⟩
    · rw [hskip]
      exact isSome_findMetaItem_path
    · rw [hindex]
      exact isSome_indexAttribute
  · obtain ⟨m, hsaid, hm⟩ := says_of_checkAttribute (h attr hattr) hpath
    rcases checkFieldItem_eq_ok hm with rfl | rfl | ⟨s, _, _, rfl⟩
    · exact Or.inl hsaid
    · exact Or.inr (Or.inl hsaid)
    · exact Or.inr (Or.inr ⟨s, hsaid⟩)
  · obtain ⟨f, hf, hskip, hcompact, hty⟩ := Field.ofAttrs_accepted h ident ty default compact
    refine ⟨f, hf, ?_, ?_, ?_⟩
    · rw [hskip]
      exact isSome_findMetaItem_path
    · rw [hcompact]
      exact isSome_findMetaItem_path
    · rw [hty]
      exact isSome_getEncodedAsType

/-- With `#[codec(index = 5,)]` the first variant is accepted and has the index 0. -/
theorem attributes_take_effect_comma :
    let attr : Attribute := ⟨.codec, .ok [.nameValue .index (.int 5)], true⟩
    checkVariantAttribute attr = .ok () ∧
      ∃ v : Variant (fun _ => Unit) Unit, Variant.ofAttrs "A" .unit none [attr] = .ok v ∧
        v.index = none ∧ v.indexByte 0 = 0 := by
  intro attr
  have haccepted : ∀ a ∈ [attr], checkVariantAttribute a = .ok () := by
    intro a ha
    rw [List.mem_singleton.mp ha]
    rfl
  obtain ⟨-, v, hv, -, hindex, -⟩ :=
    (attributes_take_effect (F := fun _ => Unit) (α := Unit) [attr] fun _ => none).1 haccepted
      "A" .unit none
  have hnone : v.index = none := by
    by_contra h
    obtain ⟨a, ha, _, _, hcomma⟩ := hindex.mp (Option.isSome_iff_ne_none.mpr h)
    rw [List.mem_singleton.mp ha] at hcomma
    cases hcomma
  refine ⟨rfl, v, hv, hnone, ?_⟩
  cases hv
  rfl

end ScaleCodec
