import ScaleCodec.Derive
import ScaleCodec.Types

/-!
# How the decoders of types use their input

Two decoders of a type are related in every `DecoderLogic` (`Ty.decodeWith_rel`), if those of the
named types in it are : at the depth of the type itself for the named types it contains, and deeper
for those it holds behind a reference. The same goes for a derived decoder
(`DeriveInput.decodeImpl_rel`).

`TypeDefs` is a system of declarations of named types, each of which may mention all of them.
`TypeDefs.decodeNamedWith` runs their decoders with fuel, one unit for each call from one named
type to another.
-/

namespace ScaleCodec

/-! ## Types -/

/-- The errors `decode_from` makes. -/
def CompactTy.ErrorsIn (p : String → Prop) {α : Type} : CompactTy α → Prop
  | unit | uint _ => True
  | as inner _ decodeFrom => inner.ErrorsIn p ∧ ∀ x e, decodeFrom x = .error e → p e.root

theorem CompactTy.errorsIn_of_forall {p : String → Prop} (hp : ∀ msg, p msg) :
    ∀ {α : Type} (c : CompactTy α), c.ErrorsIn p
  | _, .unit | _, .uint _ => trivial
  | _, .as inner _ _ => ⟨inner.errorsIn_of_forall hp, fun _ _ _ => hp _⟩

namespace Ty

variable {ι : Type} {ν : ι → Type} {α : Type}

/-- The named types a type mentions. -/
def names {α : Type} : Ty ν α → List ι
  | option t | tuple1 t | array _ t | genericArray _ t | vec t | vecDeque t | linkedList t
  | btreeSet _ t | binaryHeap _ t | box t | rc t | arc t | cow t | range t | rangeInclusive t =>
    t.names
  | result t u | pair t u | btreeMap _ t u => t.names ++ u.names
  | named i => [i]
  | _ => []

/-- The named types a type contains, as opposed to holding them behind a reference. -/
def contains {α : Type} : Ty ν α → List ι
  | option t | tuple1 t | array _ t | genericArray _ t | cow t | range t | rangeInclusive t =>
    t.contains
  | result t u | pair t u => t.contains ++ u.contains
  | named i => [i]
  | _ => []

/-- The errors of the types that are `CompactAs` another. -/
def ErrorsIn (p : String → Prop) {α : Type} : Ty ν α → Prop
  | option t | tuple1 t | array _ t | genericArray _ t | vec t | vecDeque t | linkedList t
  | btreeSet _ t | binaryHeap _ t | box t | rc t | arc t | cow t | range t | rangeInclusive t =>
    t.ErrorsIn p
  | result t u | pair t u | btreeMap _ t u => t.ErrorsIn p ∧ u.ErrorsIn p
  | compact c => c.ErrorsIn p
  | _ => True

theorem errorsIn_of_forall {p : String → Prop} (hp : ∀ msg, p msg) (t : Ty ν α) :
    t.ErrorsIn p := by
  induction t with
  | result t u iht ihu | pair t u iht ihu | btreeMap _ t u iht ihu => exact ⟨iht, ihu⟩
  | compact c => exact c.errorsIn_of_forall hp
  | option t ih | tuple1 t ih | array n t ih | genericArray n t ih | vec t ih | vecDeque t ih
  | linkedList t ih | btreeSet _ t ih | binaryHeap _ t ih | box t ih | rc t ih | arc t ih
  | cow t ih | range t ih | rangeInclusive t ih => exact ih
  | _ => trivial

theorem contains_subset_names (t : Ty ν α) : t.contains ⊆ t.names := by
  induction t with
  | result t u iht ihu | pair t u iht ihu =>
    exact List.append_subset.mpr
      ⟨List.Subset.trans iht (List.subset_append_left _ _),
        List.Subset.trans ihu (List.subset_append_right _ _)⟩
  | named i => exact List.Subset.refl _
  | option t ih | tuple1 t ih | array n t ih | genericArray n t ih | cow t ih | range t ih
  | rangeInclusive t ih => exact ih
  | _ => exact List.nil_subset _

end Ty

section Rel

variable {ι : Type} {ν : ι → Type} {α : Type} {L : DecoderLogic} {P : Platform ν}
  {internal internal' : DecodeM (List Prim.u8.Val)} {env env' : ∀ i, Decode (ν i)} {d : ℕ}

theorem CompactTy.decode_rel {L : ReadLogic} {tgt : Target} : ∀ {α : Type} {c : CompactTy α},
    c.ErrorsIn L.errorOk → L.Rel d (c.decode tgt) (c.decode tgt)
  | _, .unit, _ => L.rel_pure ()
  | _, .uint w, _ => compactDecode_rel w
  | _, .as inner _ decodeFrom, h => by
    refine L.rel_bind (decode_rel h.1) fun x => ?_
    cases hx : decodeFrom x with
    | ok a => exact L.rel_pure a
    | error e => exact L.rel_throw (h.2 x e hx)

/-- The named types in `t` are related where a decoder of `t` entered at depth `d` calls theirs. -/
structure EnvRel (L : DecoderLogic) (env env' : ∀ i, Decode (ν i)) (d : ℕ) (t : Ty ν α) : Prop where
  contains : ∀ i ∈ t.contains, (env i).Rel L d (env' i)
  names : ∀ i ∈ t.names, ∀ d' > d, L.depthOk d' → (env i).Rel L d' (env' i)

/-- Behind a reference all named types are deeper. -/
theorem EnvRel.deeper {β : Type} {t : Ty ν α} {u : Ty ν β} (h : EnvRel L env env' d t)
    (hu : u.names ⊆ t.names) (hd : L.depthOk (d + 1)) : EnvRel L env env' (d + 1) u where
  contains i hi := h.names i (hu (u.contains_subset_names hi)) (d + 1) (Nat.lt_succ_self d) hd
  names i hi d' hd' := h.names i (hu hi) d' (Nat.lt_of_succ_lt hd')

theorem EnvRel.mono {β : Type} {t : Ty ν α} {u : Ty ν β} (h : EnvRel L env env' d t)
    (hc : u.contains ⊆ t.contains) (hn : u.names ⊆ t.names) : EnvRel L env env' d u where
  contains i hi := h.contains i (hc hi)
  names i hi := h.names i (hn hi)

/-- The shape of a decoder is that of its type. -/
theorem Ty.sameShape_decodeWith (henv : ∀ i, (env i).SameShape (env' i)) (t : Ty ν α) :
    (t.decodeWith P internal env).SameShape (t.decodeWith P internal' env') := by
  induction t with
  | prim p => exact .refl _
  | bool => exact .refl _
  | array n t ih => exact arrayDecode_sameShape ih
  | named i => exact henv i
  | _ => exact Decode.sameShape_ofDecode

theorem Ty.decodeWith_rel (hinternal : ∀ d, L.Rel d internal internal')
    (hsize : ∀ i, (env i).size = P.size (.named i)) (henv : ∀ i, (env i).SameShape (env' i))
    {t : Ty ν α} (hc : t.Compiles P) (he : t.ErrorsIn L.errorOk) (h : EnvRel L env env' d t) :
    (t.decodeWith P internal env).Rel L d (t.decodeWith P internal' env') := by
  have hshape : ∀ {σ : Type} (t : Ty ν σ),
      (t.decodeWith P internal env).SameShape (t.decodeWith P internal' env') :=
    fun t => t.sameShape_decodeWith henv
  induction t generalizing d with
  | prim p => exact primDecode_rel p
  | bool => exact boolDecode_rel
  | nonZero p _ => exact nonZeroDecode_rel p
  | unit => exact Decode.rel_ofDecode (L.rel_pure ())
  | phantomData => exact Decode.rel_ofDecode (L.rel_pure ())
  | option t ih => exact optionDecode_rel (ih hc he ⟨h.contains, h.names⟩).decode
  | optionBool => exact optionBoolDecode_rel
  | result t u iht ihu =>
    have ht := h.mono (u := t) (List.subset_append_left _ _) (List.subset_append_left _ _)
    have hu := h.mono (u := u) (List.subset_append_right _ _) (List.subset_append_right _ _)
    exact resultDecode_rel (iht hc.1 he.1 ht).decode (ihu hc.2 he.2 hu).decode
  | tuple1 t ih => exact Decode.rel_ofDecode (ih hc he ⟨h.contains, h.names⟩).decode
  | pair t u iht ihu =>
    have ht := h.mono (u := t) (List.subset_append_left _ _) (List.subset_append_left _ _)
    have hu := h.mono (u := u) (List.subset_append_right _ _) (List.subset_append_right _ _)
    exact pairDecode_rel (iht hc.1 he.1 ht).decode (ihu hc.2 he.2 hu).decode
  | array n t ih => exact arrayDecode_rel (hshape t) (ih hc he ⟨h.contains, h.names⟩)
  | genericArray n t ih => exact genericArrayDecode_rel (ih hc he ⟨h.contains, h.names⟩).decode
  | vec t ih =>
    refine vecDecode_rel ?_ (hshape t) fun hd =>
      (ih hc.2 he (h.deeper (List.Subset.refl _) hd)).decode
    rw [size_decodeWith hsize]
    exact hc.1
  | vecDeque t ih =>
    refine Decode.rel_ofDecode (vecDecode_rel ?_ (hshape t) fun hd =>
      (ih hc.2 he (h.deeper (List.Subset.refl _) hd)).decode).decode
    rw [size_decodeWith hsize]
    exact hc.1
  | linkedList t ih =>
    exact Decode.rel_ofDecode (nodesDecode_rel fun hd =>
      (ih hc he (h.deeper (List.Subset.refl _) hd)).decode)
  | btreeMap ord k v ihk ihv =>
    refine Decode.rel_ofDecode (nodesDecode_rel fun hd => ?_)
    exact (pairDecode_rel (ihk hc.1 he.1 (h.deeper (List.subset_append_left _ _) hd)).decode
      (ihv hc.2 he.2 (h.deeper (List.subset_append_right _ _) hd)).decode).decode
  | btreeSet ord k ih =>
    exact Decode.rel_ofDecode (nodesDecode_rel fun hd =>
      (ih hc he (h.deeper (List.Subset.refl _) hd)).decode)
  | binaryHeap ord t ih =>
    refine Decode.rel_ofDecode (L.rel_map (vecDecode_rel ?_ (hshape t) fun hd =>
      (ih hc.2 he (h.deeper (List.Subset.refl _) hd)).decode).decode)
    rw [size_decodeWith hsize]
    exact hc.1
  | string => exact stringDecode_rel
  | box t ih =>
    exact boxDecode_rel (hshape t) fun hd =>
      (ih hc he (h.deeper (List.Subset.refl _) hd)).decodeInto
  | rc t ih | arc t ih =>
    exact Decode.rel_ofDecode (boxDecode_rel (hshape t) fun hd =>
      (ih hc he (h.deeper (List.Subset.refl _) hd)).decodeInto).decode
  | cow t ih => exact Decode.rel_ofDecode (ih hc he ⟨h.contains, h.names⟩).decode
  | duration => exact durationDecode_rel
  | range t ih => exact rangeDecode_rel (ih hc he ⟨h.contains, h.names⟩).decode
  | rangeInclusive t ih => exact rangeInclusiveDecode_rel (ih hc he ⟨h.contains, h.names⟩).decode
  | compact c => exact Decode.rel_ofDecode (CompactTy.decode_rel he)
  | bytes => exact Decode.rel_ofDecode (hinternal d)
  | bitVec st o => exact bitVecDecode_rel st o
  | bitBox st o => exact Decode.rel_ofDecode (bitVecDecode_rel st o).decode
  | named i => exact h.contains i (List.mem_singleton_self i)

/-- A type with no named types in it. -/
theorem Ty.decode_rel {ν : Empty → Type} {P : Platform ν} {t : Ty ν α} (hc : t.Compiles P)
    (he : t.ErrorsIn L.errorOk) :
    (t.decode P fun i => nomatch i).Rel L d (t.decode P fun i => nomatch i) :=
  Ty.decodeWith_rel decodeBytes_rel (fun i => nomatch i) (fun i => nomatch i) hc he
    ⟨(fun i => nomatch i), (fun i => nomatch i)⟩

end Rel

section Obeys

variable {ι : Type} {ν : ι → Type} {α : Type} {D : Discipline} {P : Platform ν}
  {internal : DecodeM (List Prim.u8.Val)} {env : ∀ i, Decode (ν i)} {d : ℕ}

/-- The named types in `t` obey where a decoder of `t` entered at depth `d` calls theirs. -/
structure EnvObeys (D : Discipline) (env : ∀ i, Decode (ν i)) (d : ℕ) (t : Ty ν α) : Prop where
  contains : ∀ i ∈ t.contains, (env i).Obeys D d
  names : ∀ i ∈ t.names, ∀ d' > d, D.depthOk d' → (env i).Obeys D d'

theorem EnvObeys.rel {t : Ty ν α} (h : EnvObeys D env d t) : EnvRel D.logic env env d t where
  contains i hi := (h.contains i hi).rel
  names i hi d' hd' hok := (h.names i hi d' hd' hok).rel

theorem Ty.decodeWith_obeys (hinternal : ∀ d, Obeys D d internal)
    (hsize : ∀ i, (env i).size = P.size (.named i)) {t : Ty ν α} (hc : t.Compiles P)
    (he : t.ErrorsIn D.errorOk) (h : EnvObeys D env d t) :
    (t.decodeWith P internal env).Obeys D d :=
  (Ty.decodeWith_rel (L := D.logic) hinternal hsize (fun i => .refl (env i)) hc he h.rel).obeys

/-- The default `scale_internal_decode_bytes`. -/
theorem obeys_decodeBytes {tgt : Target} {size : ℕ} (d : ℕ) :
    Obeys D d (vecDecode tgt size (primDecode .u8)).decode :=
  show D.logic.Rel d (vecDecode tgt size (primDecode .u8)).decode _ from decodeBytes_rel d

/-- A type with no named types in it. -/
theorem Ty.decode_obeys {ν : Empty → Type} {P : Platform ν} {t : Ty ν α} (hc : t.Compiles P)
    (he : t.ErrorsIn D.errorOk) : (t.decode P fun i => nomatch i).Obeys D d :=
  (Ty.decode_rel (L := D.logic) hc he).obeys

/-- Such a type decodes or fails on every slice. -/
theorem Ty.exists_runSlice {ν : Empty → Type} {P : Platform ν} {t : Ty ν α} (hc : t.Compiles P)
    (s : List Byte) : ∃ r rest, runSlice (t.decode P fun i => nomatch i).decode s =
      .ok (r, rest) := by
  have hobeys : Obeys Discipline.total 0 (t.decode P fun i => nomatch i).decode :=
    (Ty.decode_obeys hc (t.errorsIn_of_forall fun _ => trivial)).decode
  rcases runSlice_of_obeys (fun _ => trivial) hobeys s with h | ⟨_, _, h⟩
  · exact h
  · exact h.elim

end Obeys

/-! ## Declarations -/

section Declarations

universe u

variable {F : Type → Type u} {α T : Type} {dec dec' : ∀ {σ : Type}, F σ → Decode σ}
  {L : ReadLogic} {d : ℕ}

/-- The decoders of the type a field is decoded as are related. -/
def EncodeAs.Rel (dec dec' : ∀ {σ : Type}, F σ → Decode σ) (L : ReadLogic) (d : ℕ)
    (as : EncodeAs F α) : Prop :=
  (dec as.asTy).Rel L d (dec' as.asTy)

/-- The layout of a `#[repr(transparent)]` struct : it is as large as its fields, of which at most
one has a size. -/
def DeriveInput.LayoutOk (size : ∀ {σ : Type}, F σ → ℕ) (selfSize : ℕ) (di : DeriveInput F T) :
    Prop :=
  di.transparent → ∀ fs, di.data.plainFields = some fs → (fs.sizes size).sum = selfSize ∧
    ((fs.sizes size).map fun n => if n > 0 then 1 else 0).sum ≤ 1

theorem couldNotDecode_ne_oom (name : String) : "Could not decode `" ++ name ≠ decodeOomMsg := by
  intro h
  have hhead := congrArg (fun s => s.toList.head?) h
  simp [decodeOomMsg] at hhead

theorem decodeField_rel {f : Field F α} {name : String}
    (h : f.encoding.elim (EncodeAs.Rel dec dec' L d) fun _ => True) :
    L.Rel d (decodeField dec name f) (decodeField dec' name f) := by
  rw [decodeField_eq, decodeField_eq]
  cases hf : f.encoding with
  | inl as =>
    rw [hf] at h
    exact L.rel_map (L.rel_chainErr h.decode)
  | inr default => exact L.rel_pure default

theorem decodeFields_rel {fieldName : ℕ → Option String → String} :
    ∀ {α : Type} {fs : FieldList F α} {i : ℕ}, fs.Forall (EncodeAs.Rel dec dec' L d) →
      L.Rel d (decodeFields dec fieldName fs i) (decodeFields dec' fieldName fs i)
  | _, .nil, _, _ => L.rel_pure ()
  | _, .cons _ _, _, h => L.rel_bind (decodeField_rel h.1) fun _ =>
      L.rel_bind (decodeFields_rel h.2) fun _ => L.rel_pure _

theorem createInstance_rel {nameStr : String} {fields : Fields F α}
    (h : fields.list.Forall (EncodeAs.Rel dec dec' L d)) :
    L.Rel d (createInstance dec nameStr fields) (createInstance dec' nameStr fields) := by
  obtain ⟨fieldName, hname⟩ := exists_createInstance_eq nameStr fields
  rw [hname dec, hname dec']
  exact decodeFields_rel h

theorem decodeVariants_rel {typeName : String} : ∀ {α : Type} {vs : VariantList F α} {i : ℕ}
    {x : Byte}, vs.Forall (EncodeAs.Rel dec dec' L d) →
      L.Rel d (decodeVariants dec typeName vs i x) (decodeVariants dec' typeName vs i x)
  | _, .nil, _, _, _ => L.rel_err (String.append_assoc .. ▸ couldNotDecode_ne_oom _)
  | _, .cons v vs, i, x, h => by
    refine L.rel_ite (fun _ => L.rel_map (decodeVariants_rel h.2)) fun hskip => ?_
    refine L.rel_ite (fun _ => L.rel_map (createInstance_rel (h.1 ?_))) fun _ =>
      L.rel_map (decodeVariants_rel h.2)
    exact Bool.eq_false_iff.mpr hskip

theorem Data.decode_rel {typeName : String} {data : Data F α}
    (h : data.Forall (EncodeAs.Rel dec dec' L d)) :
    L.Rel d (data.decode dec typeName) (data.decode dec' typeName) := by
  cases data with
  | struct fields => exact createInstance_rel h
  | enum vs => exact L.rel_bind (L.rel_chainErr L.rel_readByte) fun _ => decodeVariants_rel h

/-- A field without attributes is encoded as itself. -/
theorem FieldList.encoding_of_anyAttribute {β : Type} {f : Field F α} {fs : FieldList F β}
    (h : (cons f fs).anyAttribute = false) :
    f.encoding = .inl ⟨f.ty, f.ty, id, id⟩ ∧ fs.anyAttribute = false := by
  simp only [anyAttribute, Bool.or_eq_false_iff, Option.isSome_eq_false_iff,
    Option.isNone_iff_eq_none] at h
  obtain ⟨⟨⟨hencodedAs, hcompact⟩, hskip⟩, h⟩ := h
  refine ⟨?_, h⟩
  unfold Field.encoding Field.attribute
  rw [hencodedAs, hcompact, hskip]

theorem decodeIntoFields_rel : ∀ {α : Type} {fs : FieldList F α}, fs.anyAttribute = false →
    fs.Forall (EncodeAs.Rel dec dec' L d) →
      L.Rel d (decodeIntoFields dec fs) (decodeIntoFields dec' fs)
  | _, .nil, _, _ => L.rel_pure ()
  | _, .cons f fs, hany, h => by
    obtain ⟨hf, hany⟩ := FieldList.encoding_of_anyAttribute hany
    have hrel := h.1
    rw [hf] at hrel
    exact L.rel_bind hrel.decodeInto fun _ =>
      L.rel_bind (decodeIntoFields_rel hany h.2) fun _ => L.rel_pure _

/-- `quote_decode_into` is for structs without attributes. -/
theorem Data.eq_struct_of_plainFields {data : Data F α} {fs : FieldList F α}
    (hfs : data.plainFields = some fs) :
    ∃ fields, data = .struct fields ∧ fields.list = fs ∧ fs.anyAttribute = false := by
  cases data with
  | enum vs => cases hfs
  | struct fields =>
    refine ⟨fields, rfl, ?_⟩
    cases fields with
    | unit => cases hfs
    | named fs' | unnamed fs' =>
      simp only [Data.plainFields, Fields.plainFields] at hfs
      split_ifs at hfs with hany
      obtain rfl := Option.some.inj hfs
      exact ⟨rfl, (Bool.or_eq_false_iff.mp (Bool.eq_false_iff.mpr hany)).2⟩

theorem DeriveInput.decodeImpl_sameShape {di : DeriveInput F T} {size : ℕ} :
    (di.decodeImpl dec size).SameShape (di.decodeImpl dec' size) :=
  ⟨rfl, rfl, rfl⟩

/-- For an enum `decode_into` keeps its default body. -/
theorem DeriveInput.decodeImpl_rel_of_enum {di di' : DeriveInput F T} {size : ℕ}
    (henum : di.data.plainFields = none) (henum' : di'.data.plainFields = none)
    (h : L.Rel d (di.repr.symm <$> di.data.decode dec di.ident)
      (di'.repr.symm <$> di'.data.decode dec' di'.ident)) :
    (di.decodeImpl dec size).Rel L d (di'.decodeImpl dec' size) := by
  have hinto : ∀ {dec : ∀ {σ : Type}, F σ → Decode σ} {di : DeriveInput F T},
      di.data.plainFields = none → di.decodeInto dec size = none := by
    intro dec di hdi
    unfold DeriveInput.decodeInto
    rw [hdi]
    exact ite_self _
  refine ⟨h, ?_, L.rel_map h⟩
  show L.Rel d ((di.decodeInto dec size).getD _) ((di'.decodeInto dec' size).getD _)
  rw [hinto henum, hinto henum']
  exact h

/-- The derived decoders are related if the fields' are. -/
theorem DeriveInput.decodeImpl_rel {di : DeriveInput F T} {size : ℕ}
    (hlayout : di.LayoutOk (fun t => (dec t).size) size)
    (hsize : ∀ {σ : Type} (t : F σ), (dec' t).size = (dec t).size)
    (h : di.data.Forall (EncodeAs.Rel dec dec' L d)) :
    (di.decodeImpl dec size).Rel L d (di.decodeImpl dec' size) := by
  have hdecode : L.Rel d (di.repr.symm <$> di.data.decode dec di.ident)
      (di.repr.symm <$> di.data.decode dec' di.ident) :=
    L.rel_map (Data.decode_rel h)
  refine ⟨hdecode, ?_, L.rel_map hdecode⟩
  show L.Rel d ((di.decodeInto dec size).getD _) ((di.decodeInto dec' size).getD _)
  unfold DeriveInput.decodeInto
  split_ifs with htransparent
  · cases hfs : di.data.plainFields with
    | none => exact hdecode
    | some fs =>
      obtain ⟨hsum, hcount⟩ := hlayout htransparent fs hfs
      obtain ⟨fields, hdata, rfl, hany⟩ := Data.eq_struct_of_plainFields hfs
      rw [hdata] at h
      simp only [hsize]
      show L.Rel d (if _ then _ else if _ then _ else _) (if _ then _ else if _ then _ else _)
      rw [if_neg (not_not.mpr hsum), if_neg (not_lt.mpr hcount), if_neg (not_not.mpr hsum),
        if_neg (not_lt.mpr hcount)]
      exact L.rel_map (decodeIntoFields_rel hany h)
  · exact hdecode

end Declarations

/-! ## Systems of declarations -/

/-- Declarations of the named types, each of which may mention all of them. -/
abbrev TypeDefs {ι : Type} (ν : ι → Type) : Type 1 :=
  ∀ i, DeriveInput (Ty ν) (ν i)

namespace TypeDefs

variable {ι : Type} {ν : ι → Type}

/-- The derived decoders, run with fuel for the calls from one named type to another. -/
def decodeNamedWith (P : Platform ν) (internal : DecodeM (List Prim.u8.Val)) (Δ : TypeDefs ν) :
    ℕ → ∀ i, Decode (ν i)
  | 0, i => Decode.ofDecode (P.size (.named i)) .outOfFuel
  | n + 1, i =>
    (Δ i).decodeImpl (Ty.decodeWith P internal (Δ.decodeNamedWith P internal n)) (P.size (.named i))

/-- The decoder of a type over the named types, with fuel. -/
def decodeWith (P : Platform ν) (internal : DecodeM (List Prim.u8.Val)) (Δ : TypeDefs ν) (n : ℕ)
    {α : Type} (t : Ty ν α) : Decode α :=
  t.decodeWith P internal (Δ.decodeNamedWith P internal n)

/-- The same for an input that keeps the default `scale_internal_decode_bytes`. -/
abbrev decode (P : Platform ν) (Δ : TypeDefs ν) (n : ℕ) {α : Type} (t : Ty ν α) : Decode α :=
  Δ.decodeWith P (vecDecode P.target (P.size (.vec (.prim .u8))) (primDecode .u8)).decode n t

/-- The macros accept the declarations, and the compiler what they generate. -/
structure Compiles (P : Platform ν) (Δ : TypeDefs ν) : Prop where
  check : ∀ i, (Δ i).decodeCheck = .ok ()
  fields : ∀ i, (Δ i).data.Forall fun as => as.asTy.Compiles P
  layout : ∀ i, (Δ i).LayoutOk P.size (P.size (.named i))

/-- The errors of the types that are `CompactAs` another. -/
def ErrorsIn (p : String → Prop) (Δ : TypeDefs ν) : Prop :=
  ∀ i, (Δ i).data.Forall fun as => as.asTy.ErrorsIn p

theorem errorsIn_of_forall {p : String → Prop} (hp : ∀ msg, p msg) (Δ : TypeDefs ν) :
    Δ.ErrorsIn p :=
  fun _ => Data.forall_iff.mpr fun x _ => x.2.asTy.errorsIn_of_forall hp

/-- The named types the decoder of the `i`-th calls. -/
def names (Δ : TypeDefs ν) (i : ι) : List ι :=
  (Δ i).data.encodings.flatMap fun x => x.2.asTy.names

/-- The named types the decoder of the `i`-th calls without entering a reference. -/
def contains (Δ : TypeDefs ν) (i : ι) : List ι :=
  (Δ i).data.encodings.flatMap fun x => x.2.asTy.contains

section Rel

variable {L : DecoderLogic} {P : Platform ν} {internal internal' : DecodeM (List Prim.u8.Val)}
  {Δ : TypeDefs ν} {n d : ℕ}

theorem size_decodeNamedWith (i : ι) :
    (Δ.decodeNamedWith P internal n i).size = P.size (.named i) := by
  cases n <;> rfl

theorem sameShape_decodeNamedWith (i : ι) :
    (Δ.decodeNamedWith P internal n i).SameShape (Δ.decodeNamedWith P internal' n i) := by
  cases n with
  | zero => exact Decode.sameShape_ofDecode
  | succ n => exact DeriveInput.decodeImpl_sameShape

/-- One call of a named type, given the calls it makes. -/
theorem decodeNamedWith_succ_rel (hinternal : ∀ d, L.Rel d internal internal')
    (hΔ : Δ.Compiles P) (he : Δ.ErrorsIn L.errorOk) {i : ι}
    (hcontains : ∀ j ∈ Δ.contains i,
      (Δ.decodeNamedWith P internal n j).Rel L d (Δ.decodeNamedWith P internal' n j))
    (hnames : ∀ j ∈ Δ.names i, ∀ d' > d, L.depthOk d' →
      (Δ.decodeNamedWith P internal n j).Rel L d' (Δ.decodeNamedWith P internal' n j)) :
    (Δ.decodeNamedWith P internal (n + 1) i).Rel L d
      (Δ.decodeNamedWith P internal' (n + 1) i) := by
  have hsize : ∀ {internal : DecodeM (List Prim.u8.Val)} {σ : Type} (t : Ty ν σ),
      (t.decodeWith P internal (Δ.decodeNamedWith P internal n)).size = P.size t :=
    Ty.size_decodeWith size_decodeNamedWith
  refine DeriveInput.decodeImpl_rel ?_ ?_ (Data.forall_iff.mpr fun x hx => ?_)
  · simp only [hsize]
    exact hΔ.layout i
  · exact fun t => (hsize t).trans (hsize t).symm
  · refine Ty.decodeWith_rel hinternal size_decodeNamedWith sameShape_decodeNamedWith
      (Data.forall_iff.mp (hΔ.fields i) x hx) (Data.forall_iff.mp (he i) x hx) ⟨?_, ?_⟩
    · exact fun j hj => hcontains j (List.mem_flatMap.mpr ⟨x, hx, hj⟩)
    · exact fun j hj => hnames j (List.mem_flatMap.mpr ⟨x, hx, hj⟩)

/-- Where a decoder may run out of fuel, the decoders of every type are related with any fuel. -/
theorem decodeWith_rel (hinternal : ∀ d, L.Rel d internal internal') (hΔ : Δ.Compiles P)
    (he : Δ.ErrorsIn L.errorOk) (hfuel : L.haltOk .outOfFuel) {α : Type} {t : Ty ν α}
    (ht : t.Compiles P) (het : t.ErrorsIn L.errorOk) :
    (Δ.decodeWith P internal n t).Rel L d (Δ.decodeWith P internal' n t) := by
  have hnamed : ∀ n i d,
      (Δ.decodeNamedWith P internal n i).Rel L d (Δ.decodeNamedWith P internal' n i) := by
    intro n
    induction n with
    | zero => exact fun i d => Decode.rel_ofDecode (L.rel_halt hfuel)
    | succ n ih =>
      exact fun i d => decodeNamedWith_succ_rel hinternal hΔ he (fun j _ => ih j d)
        fun j _ d' _ _ => ih j d'
  exact Ty.decodeWith_rel hinternal size_decodeNamedWith sameShape_decodeNamedWith ht het
    ⟨fun i _ => hnamed n i d, fun i _ d' _ _ => hnamed n i d'⟩

end Rel

section Obeys

variable {D : Discipline} {P : Platform ν} {internal : DecodeM (List Prim.u8.Val)}
  {Δ : TypeDefs ν} {n d : ℕ}

theorem decodeNamedWith_succ_obeys (hinternal : ∀ d, Obeys D d internal) (hΔ : Δ.Compiles P)
    (he : Δ.ErrorsIn D.errorOk) {i : ι}
    (hcontains : ∀ j ∈ Δ.contains i, (Δ.decodeNamedWith P internal n j).Obeys D d)
    (hnames : ∀ j ∈ Δ.names i, ∀ d' > d, D.depthOk d' →
      (Δ.decodeNamedWith P internal n j).Obeys D d') :
    (Δ.decodeNamedWith P internal (n + 1) i).Obeys D d :=
  (decodeNamedWith_succ_rel (L := D.logic) hinternal hΔ he (fun j hj => (hcontains j hj).rel)
    fun j hj d' hd' hok => (hnames j hj d' hd' hok).rel).obeys

theorem decodeWith_obeys (hinternal : ∀ d, Obeys D d internal) (hΔ : Δ.Compiles P)
    (he : Δ.ErrorsIn D.errorOk) (hfuel : D.haltOk .outOfFuel) {α : Type} {t : Ty ν α}
    (ht : t.Compiles P) (het : t.ErrorsIn D.errorOk) :
    (Δ.decodeWith P internal n t).Obeys D d :=
  (decodeWith_rel (L := D.logic) hinternal hΔ he hfuel ht het).obeys

end Obeys

end TypeDefs

end ScaleCodec
