import Mathlib.Algebra.Order.BigOperators.Group.List
import Mathlib.Data.Set.Finite.Lattice
import ScaleCodec.Declared
import ScaleCodec.Spending

/-!
# The memory allocated is linear in the input

The length in front of a sequence says how many items follow, not that they are there. Vectors are
therefore reserved in chunks, each after the items of the one before have been read. So the memory a
decoder asks of the allocator is linear in the number of bytes of its input, whatever they are and
whether or not it returns a value (`TypeDefs.allocated_le`). For a byte of the input it is at most a
chunk and twice what the types allocate without reading (`TypeDefs.Bounds`), which is bounded if no
decoder calls itself for ever without reading a byte (`TypeDefs.exists_bounds`). The items of a
sequence have to be read from some byte : others are all reserved, as many as the length says
(`TypeDefs.le_allocated`).

What is counted is the memory of boxes and of the vectors `decode_vec_chunked` reserves. Not counted
are the nodes of linked collections, the vector in which a `GenericArray` gathers its items and the
copy that makes an `Rc` or an `Arc` of a `Box`.
-/

universe u

namespace ScaleCodec

variable {α β σ : Type}

/-! ## Types -/

namespace Ty

variable {ι : Type} {ν : ι → Type} {P : Platform ν} {a a' : ι → ℕ}

/-- What a decoder may allocate before it has read a byte, given this for the named types. -/
def upfront (P : Platform ν) (a : ι → ℕ) {α : Type} : Ty ν α → ℕ
  | tuple1 t | cow t => t.upfront P a
  | pair t u => t.upfront P a + u.upfront P a
  | array n t | genericArray n t => n * t.upfront P a
  | box t | rc t | arc t => P.size t + t.upfront P a
  | range t | rangeInclusive t => t.upfront P a + t.upfront P a
  | named i => a i
  | _ => 0

/-- What a decoder may have to pay with one byte it reads, a chunk of a vector apart : what comes
after it up front, and the place of an item in its vector. -/
def peak (P : Platform ν) (a : ι → ℕ) {α : Type} : Ty ν α → ℕ
  | tuple1 t | cow t | array _ t | genericArray _ t | box t | rc t | arc t | range t
  | rangeInclusive t => t.peak P a
  | pair t u => t.peak P a + u.peak P a
  | option t | linkedList t | btreeSet _ t => t.upfront P a + t.peak P a
  | vec t | vecDeque t | binaryHeap _ t => t.upfront P a + P.size t + t.peak P a
  | result t u | btreeMap _ t u =>
    t.upfront P a + u.upfront P a + (t.peak P a + u.peak P a)
  | _ => 0

/-- The types of the items of the sequences in a type. -/
def Items (p : ∀ {β : Type}, Ty ν β → Prop) {α : Type} : Ty ν α → Prop
  | option t | tuple1 t | cow t | array _ t | genericArray _ t | box t | rc t | arc t | range t
  | rangeInclusive t => t.Items p
  | result t u | pair t u => t.Items p ∧ u.Items p
  | vec t | vecDeque t | linkedList t | btreeSet _ t | binaryHeap _ t => p t ∧ t.Items p
  | btreeMap _ k v => p (pair k v) ∧ k.Items p ∧ v.Items p
  | _ => True

theorem Items.imp {p q : ∀ {β : Type}, Ty ν β → Prop} {t : Ty ν α} (h : t.Items p)
    (ht : t.Compiles P) (hpq : ∀ {β : Type} {u : Ty ν β}, u.Compiles P → p u → q u) :
    t.Items q := by
  induction t with
  | option t ih | tuple1 t ih | cow t ih | array n t ih | genericArray n t ih | box t ih | rc t ih
  | arc t ih | range t ih | rangeInclusive t ih => exact ih h ht
  | result t u iht ihu | pair t u iht ihu => exact ⟨iht h.1 ht.1, ihu h.2 ht.2⟩
  | vec t ih | vecDeque t ih | binaryHeap _ t ih => exact ⟨hpq ht.2 h.1, ih h.2 ht.2⟩
  | linkedList t ih | btreeSet _ t ih => exact ⟨hpq ht h.1, ih h.2 ht⟩
  | btreeMap _ k v ihk ihv => exact ⟨hpq ht h.1, ihk h.2.1 ht.1, ihv h.2.2 ht.2⟩
  | _ => trivial

theorem upfront_congr {t : Ty ν α} (h : ∀ i ∈ t.unguarded, a i = a' i) :
    t.upfront P a = t.upfront P a' := by
  induction t with
  | tuple1 t ih | cow t ih => exact ih h
  | array n t ih | genericArray n t ih => exact congrArg (n * ·) (ih h)
  | box t ih | rc t ih | arc t ih => exact congrArg (P.size t + ·) (ih h)
  | range t ih | rangeInclusive t ih => exact congrArg (fun k => k + k) (ih h)
  | pair t u iht ihu =>
    exact congrArg₂ (· + ·) (iht fun i hi => h i (List.mem_append_left _ hi))
      (ihu fun i hi => h i (List.mem_append_right _ hi))
  | named i => exact h i (List.mem_singleton_self i)
  | _ => rfl

/-- A decoder pays for its memory with the bytes it reads, if those of the named types do and the
items of its sequences are read from some byte. -/
theorem decodeWith_spends {h : Handler inputInterface Halt σ} {R : σ → List Byte → Prop}
    (hh : ReadsBytes h R) {c M : ℕ} (hc : maxPreallocation + 2 * M ≤ c)
    {internal : DecodeM (List Prim.u8.Val)} {env : ∀ i, Decode (ν i)}
    (hsize : ∀ i, (env i).size = P.size (.named i)) (hinternal : Spends h R c M 0 internal)
    (henv : ∀ i, (env i).Spends h R c M (a i)) {t : Ty ν α}
    (hitems : t.Items fun u => Reads h R (u.decodeWith P internal env).decode)
    (hpeak : t.peak P a ≤ M) : (t.decodeWith P internal env).Spends h R c M (t.upfront P a) := by
  have hpos : 0 < c := lt_of_lt_of_le (by decide : 0 < maxPreallocation) (by omega)
  have hM : M ≤ c := by omega
  have hsz : ∀ {β : Type} (u : Ty ν β), (u.decodeWith P internal env).size = P.size u :=
    size_decodeWith hsize
  have hvec : ∀ {β : Type} {u : Ty ν β} {size : ℕ}, u.upfront P a + P.size u ≤ M →
      Reads h R (u.decodeWith P internal env).decode →
      (u.decodeWith P internal env).Spends h R c M (u.upfront P a) →
        (vecDecode P.target size (u.decodeWith P internal env)).Spends h R c M 0 := by
    intro β u size hu hreads hspends
    rw [← hsz] at hu
    exact vecDecode_spends hh hpos (hspends.decode.earns hreads hu) (by omega)
  induction t with
  | option t ih =>
    change t.upfront P a + t.peak P a ≤ M at hpeak
    exact optionDecode_spends hh (ih hitems (by omega)).decode.forget (by omega)
  | result t u iht ihu =>
    change t.upfront P a + u.upfront P a + (t.peak P a + u.peak P a) ≤ M at hpeak
    exact resultDecode_spends hh (iht hitems.1 (by omega)).decode.forget
      (ihu hitems.2 (by omega)).decode.forget (by omega)
  | tuple1 t ih | cow t ih => exact Decode.spends_ofDecode (ih hitems hpeak).decode
  | pair t u iht ihu =>
    change t.peak P a + u.peak P a ≤ M at hpeak
    exact pairDecode_spends (iht hitems.1 (by omega)).decode (ihu hitems.2 (by omega)).decode
  | array n t ih => exact arrayDecode_spends hh hM (ih hitems hpeak).decodeInto
  | genericArray n t ih => exact genericArrayDecode_spends (ih hitems hpeak).decode
  | vec t ih =>
    change t.upfront P a + P.size t + t.peak P a ≤ M at hpeak
    exact hvec (by omega) hitems.1 (ih hitems.2 (by omega))
  | vecDeque t ih =>
    change t.upfront P a + P.size t + t.peak P a ≤ M at hpeak
    exact Decode.spends_ofDecode (hvec (by omega) hitems.1 (ih hitems.2 (by omega))).decode
  | binaryHeap ord t ih =>
    change t.upfront P a + P.size t + t.peak P a ≤ M at hpeak
    exact Decode.spends_ofDecode (hvec (by omega) hitems.1 (ih hitems.2 (by omega))).decode.map
  | linkedList t ih | btreeSet _ t ih =>
    change t.upfront P a + t.peak P a ≤ M at hpeak
    have hitem := (ih hitems.2 (by omega)).decode.earns hitems.1 (g := 0) (by omega)
    exact Decode.spends_ofDecode (nodesDecode_spends hh hitem (by omega))
  | btreeMap ord k v ihk ihv =>
    change k.upfront P a + v.upfront P a + (k.peak P a + v.peak P a) ≤ M at hpeak
    have hpair : (pairDecode (P.size (pair k v)) _ _).Spends h R c M _ :=
      pairDecode_spends (ihk hitems.2.1 (by omega)).decode (ihv hitems.2.2 (by omega)).decode
    exact Decode.spends_ofDecode (nodesDecode_spends hh
      (hpair.decode.earns hitems.1 (g := 0) (by omega)) (by omega))
  | box t ih =>
    have hbox : (boxDecode (P.size (box t)) _).Spends h R c M _ :=
      boxDecode_spends hh (ih hitems hpeak).decodeInto
    rwa [hsz] at hbox
  | rc t ih | arc t ih =>
    have hbox : (boxDecode (P.size (box t)) _).Spends h R c M _ :=
      boxDecode_spends hh (ih hitems hpeak).decodeInto
    rw [hsz] at hbox
    exact Decode.spends_ofDecode hbox.decode
  | range t ih | rangeInclusive t ih =>
    have hpair : (pairDecode (P.size (pair t t)) _ _).Spends h R c M _ :=
      pairDecode_spends (ih hitems hpeak).decode (ih hitems hpeak).decode
    exact Decode.spends_ofDecode (hpair.decode.chainErr.bind fun _ => spends_pure _)
  | string =>
    refine Decode.spends_ofDecode ?_
    refine (decodeBytes_spends hh hpos (by omega)).bind (b := 0) fun v => ?_
    cases fromUtf8 v with
    | some v => exact spends_pure v
    | none => exact spends_throw _
  | bytes => exact Decode.spends_ofDecode hinternal
  | bitVec st o => exact bitVecDecode_spends hh hpos (by omega) st o
  | bitBox st o =>
    exact Decode.spends_ofDecode (bitVecDecode_spends hh hpos (by omega) st o).decode
  | named i => exact henv i
  | prim p => exact (primDecode_rel (L := spending hh hM) (d := 0) p).spends
  | bool => exact (boolDecode_rel (L := spending hh hM) (d := 0)).spends
  | nonZero p _ => exact (nonZeroDecode_rel (L := spending hh hM) (d := 0) p).spends
  | unit | phantomData => exact Decode.spends_ofDecode (spends_pure ())
  | optionBool => exact (optionBoolDecode_rel (L := spending hh hM) (d := 0)).spends
  | duration => exact (durationDecode_rel (L := spending hh hM) (d := 0)).spends
  | compact k =>
    exact Decode.spends_ofDecode (CompactTy.decode_rel (L := spending hh hM) (d := 0)
      (k.errorsIn_of_forall fun _ => trivial))

end Ty

/-! ## Declarations -/

section Derived

variable {F : Type → Type u} {T : Type} {dec : ∀ {σ : Type}, F σ → Decode σ}
  {up : ∀ {σ : Type}, F σ → ℕ} {h : Handler inputInterface Halt σ} {R : σ → List Byte → Prop}
  {c M : ℕ}

/-- The sum of what the fields may allocate before a byte is read. -/
def encodingsUpfront (up : ∀ {σ : Type}, F σ → ℕ) (l : List (Σ σ, EncodeAs F σ)) : ℕ :=
  (l.map fun x => up x.2.asTy).sum

theorem encodingsUpfront_append (l l' : List (Σ σ, EncodeAs F σ)) :
    encodingsUpfront up (l ++ l') = encodingsUpfront up l + encodingsUpfront up l' := by
  rw [encodingsUpfront, List.map_append, List.sum_append]
  rfl

/-- What the generated decoder may allocate before it has read a byte. -/
def Data.upfront (up : ∀ {σ : Type}, F σ → ℕ) : Data F α → ℕ
  | struct fields => encodingsUpfront up fields.list.encodings
  | enum _ => 0

/-- The decoder of the type of a field spends what the field may allocate up front. -/
def EncodeAs.Spends (h : Handler inputInterface Halt σ) (R : σ → List Byte → Prop) (c M : ℕ)
    (dec : ∀ {σ : Type}, F σ → Decode σ) (up : ∀ {σ : Type}, F σ → ℕ) (as : EncodeAs F α) : Prop :=
  (dec as.asTy).Spends h R c M (up as.asTy)

theorem decodeFields_spends {fieldName : ℕ → Option String → String} {fs : FieldList F α}
    (hfs : fs.Forall (EncodeAs.Spends h R c M dec up)) (i : ℕ) :
    Spends h R c M (encodingsUpfront up fs.encodings) (decodeFields dec fieldName fs i) := by
  induction fs generalizing i with
  | nil => exact spends_pure ()
  | cons f fs ih =>
    have hfield : Spends h R c M
        (encodingsUpfront up (f.encoding.elim (fun as => [⟨_, as⟩]) fun _ => []))
        (decodeField dec (fieldName i f.ident) f) := by
      have hf := hfs.1
      rw [decodeField_eq]
      cases hfe : f.encoding with
      | inl as =>
        rw [hfe] at hf
        exact hf.decode.chainErr.map
      | inr default => exact spends_pure default
    rw [FieldList.encodings, encodingsUpfront_append]
    exact hfield.bind fun _ => (ih hfs.2 (i + 1)).bind fun _ => spends_pure _

theorem createInstance_spends {nameStr : String} {fields : Fields F α}
    (hfs : fields.list.Forall (EncodeAs.Spends h R c M dec up)) :
    Spends h R c M (encodingsUpfront up fields.list.encodings)
      (createInstance dec nameStr fields) := by
  obtain ⟨fieldName, hname⟩ := exists_createInstance_eq nameStr fields
  rw [hname dec]
  exact decodeFields_spends hfs 0

theorem decodeVariants_spends {typeName : String} {vs : VariantList F α}
    (hvs : vs.Forall (EncodeAs.Spends h R c M dec up)) (i : ℕ) (x : Byte) :
    Spends h R c M (encodingsUpfront up vs.encodings) (decodeVariants dec typeName vs i x) := by
  induction vs generalizing i with
  | nil => exact spends_throw _
  | cons v vs ih =>
    rw [VariantList.encodings, encodingsUpfront_append, decodeVariants]
    cases hskip : v.skip with
    | true => exact (ih hvs.2 i).map.mono (Nat.le_add_left _ _)
    | false =>
      rw [if_neg Bool.false_ne_true, if_neg Bool.false_ne_true]
      split_ifs
      · exact (createInstance_spends (hvs.1 hskip)).map.mono (Nat.le_add_right _ _)
      · exact (ih hvs.2 (i + 1)).map.mono (Nat.le_add_left _ _)

/-- The byte of the variant pays for the fields of an enum. -/
theorem Data.decode_spends (hh : ReadsBytes h R) {typeName : String} {data : Data F α}
    (hdata : data.Forall (EncodeAs.Spends h R c M dec up))
    (hc : encodingsUpfront up data.encodings + M ≤ c) :
    Spends h R c M (data.upfront up) (data.decode dec typeName) := by
  cases data with
  | struct fields => exact createInstance_spends hdata
  | enum vs => exact spends_variant hh (fun x => (decodeVariants_spends hdata 0 x).forget) hc

theorem decodeIntoFields_spends {fs : FieldList F α} (hany : fs.anyAttribute = false)
    (hfs : fs.Forall (EncodeAs.Spends h R c M dec up)) :
    Spends h R c M (encodingsUpfront up fs.encodings) (decodeIntoFields dec fs) := by
  induction fs with
  | nil => exact spends_pure ()
  | cons f fs ih =>
    obtain ⟨hf, hany⟩ := FieldList.encoding_of_anyAttribute hany
    have hfield := hfs.1
    rw [FieldList.encodings, encodingsUpfront_append, hf]
    rw [hf] at hfield
    exact hfield.decodeInto.bind fun _ => (ih hany hfs.2).bind fun _ => spends_pure _

theorem DeriveInput.decodeImpl_spends (hh : ReadsBytes h R) {di : DeriveInput F T} {size : ℕ}
    (hdata : di.data.Forall (EncodeAs.Spends h R c M dec up))
    (hc : encodingsUpfront up di.data.encodings + M ≤ c) :
    (di.decodeImpl dec size).Spends h R c M (di.data.upfront up) := by
  have hdecode : Spends h R c M (di.data.upfront up)
      (di.repr.symm <$> di.data.decode dec di.ident) :=
    (Data.decode_spends hh hdata hc).map
  refine ⟨hdecode, ?_⟩
  show Spends h R c M _ ((di.decodeInto dec size).getD _)
  unfold DeriveInput.decodeInto
  split_ifs
  · cases hfs : di.data.plainFields with
    | none => exact hdecode
    | some fs =>
      obtain ⟨fields, hstruct, rfl, hany⟩ := Data.eq_struct_of_plainFields hfs
      rw [hstruct] at hdata ⊢
      show Spends h R c M _ (if _ then _ else if _ then _ else _)
      split_ifs
      · exact (spends_halt _).mono (Nat.zero_le _)
      · exact (spends_halt _).mono (Nat.zero_le _)
      · exact (decodeIntoFields_spends hany hdata).map
  · exact hdecode

end Derived

namespace TypeDefs

variable {ι : Type} {ν : ι → Type} {P : Platform ν} {Δ : TypeDefs ν}

theorem upfront_congr {a a' : ι → ℕ} {i : ι} (h : ∀ j ∈ Δ.unguarded i, a j = a' j) :
    (Δ i).data.upfront (Ty.upfront P a) = (Δ i).data.upfront (Ty.upfront P a') := by
  unfold unguarded at h
  cases hdata : (Δ i).data with
  | enum vs => rfl
  | struct fields =>
    rw [hdata] at h
    refine congrArg List.sum (List.map_congr_left fun x hx => Ty.upfront_congr fun j hj => ?_)
    exact h j (List.mem_flatMap.mpr ⟨x, hx, hj⟩)

/-- What the named types may allocate before they have read a byte, if no chain of calls goes on for
ever before. -/
theorem exists_upfront (P : Platform ν) (hwf : WellFounded fun j i => j ∈ Δ.unguarded i) :
    ∃ a : ι → ℕ, ∀ i, (Δ i).data.upfront (Ty.upfront P a) = a i := by
  classical
  let known (i : ι) (rec : ∀ j, j ∈ Δ.unguarded i → ℕ) (j : ι) : ℕ :=
    if hj : j ∈ Δ.unguarded i then rec j hj else 0
  let a : ι → ℕ := hwf.fix fun i rec => (Δ i).data.upfront (Ty.upfront P (known i rec))
  refine ⟨a, fun i => ?_⟩
  have ha : a i = (Δ i).data.upfront (Ty.upfront P (known i fun j _ => a j)) := hwf.fix_eq _ i
  rw [ha]
  exact upfront_congr fun j hj => by simp only [known, hj, dite_true]

/-- What the decoder of the `i`-th type may have to pay with one byte. -/
def peak (P : Platform ν) (a : ι → ℕ) (Δ : TypeDefs ν) (i : ι) : ℕ :=
  encodingsUpfront (fun t => t.upfront P a + t.peak P a) (Δ i).data.encodings

/-- The `i`-th type allocates at most `a i` bytes before it has read a byte, and no byte has to pay
for more than `M`. -/
structure Bounds (P : Platform ν) (Δ : TypeDefs ν) (a : ι → ℕ) (M : ℕ) : Prop where
  upfront : ∀ i, (Δ i).data.upfront (Ty.upfront P a) ≤ a i
  peak : ∀ i, Δ.peak P a i ≤ M

/-- There are bounds, if no decoder calls itself for ever without reading a byte. -/
theorem exists_bounds [Finite ι] (P : Platform ν)
    (hwf : WellFounded fun j i => j ∈ Δ.unguarded i) : ∃ a M, Δ.Bounds P a M := by
  obtain ⟨a, ha⟩ := exists_upfront P hwf
  obtain ⟨M, hM⟩ := (Set.finite_range (Δ.peak P a)).bddAbove
  exact ⟨a, M, fun i => (ha i).le, fun i => hM ⟨i, rfl⟩⟩

/-- No value of the type is decoded from no bytes. -/
def ReadsSome (P : Platform ν) (Δ : TypeDefs ν) {α : Type} (t : Ty ν α) : Prop :=
  ∀ v s, ¬Δ.DecodesAs P t [] v s

/-- The items of every sequence are read from some byte. -/
def ItemsRead (P : Platform ν) (Δ : TypeDefs ν) : Prop :=
  ∀ i, (Δ i).data.Forall fun as => as.asTy.Items (Δ.ReadsSome P)

theorem ReadsSome.reads {h : Handler inputInterface Halt σ} {R : σ → List Byte → Prop}
    (hh : ReadsBytes h R) (hΔ : Δ.Compiles P) {t : Ty ν α} (ht : t.Compiles P)
    (hsome : Δ.ReadsSome P t) (n : ℕ) : Reads h R (Δ.decode P n t).decode := by
  have hsim : Simulates h R (Δ.decode P n t).decode (Δ.decode P n t).decode :=
    (TypeDefs.decodeWith_rel (L := hh.logic) (d := 0) decodeBytes_rel hΔ
      (Δ.errorsIn_of_forall fun _ => trivial) trivial ht
      (t.errorsIn_of_forall fun _ => trivial)).decode
  refine Consumes.reads hh hsim fun s v s' hs' => ?_
  have hdec : Δ.DecodesAs P t s v s' := ⟨n, hs'⟩
  obtain ⟨b, rfl, hext, -⟩ := hdec.consumed hΔ ht
  cases b with
  | nil => exact absurd (hext []) (hsome v [])
  | cons b bs =>
    rw [List.length_append, List.length_cons]
    omega

/-- With any fuel a named type pays for its memory with the bytes it reads. -/
theorem decodeNamed_spends {h : Handler inputInterface Halt σ} {R : σ → List Byte → Prop}
    (hh : ReadsBytes h R) (hΔ : Δ.Compiles P) (hitems : Δ.ItemsRead P) {a : ι → ℕ} {M c : ℕ}
    (hb : Δ.Bounds P a M) (hc : maxPreallocation + 2 * M ≤ c) (n : ℕ) (i : ι) :
    (Δ.decode P n (.named i)).Spends h R c M (a i) := by
  induction n generalizing i with
  | zero => exact Decode.spends_ofDecode ((spends_halt _).mono (Nat.zero_le _))
  | succ n ih =>
    have hi := hb.peak i
    have hpos : 0 < c := lt_of_lt_of_le (by decide : 0 < maxPreallocation) (by omega)
    have hsum : encodingsUpfront (Ty.upfront P a) (Δ i).data.encodings ≤ Δ.peak P a i :=
      List.sum_le_sum fun x _ => Nat.le_add_right _ _
    refine (DeriveInput.decodeImpl_spends hh (Data.forall_iff.mpr fun x hx => ?_) (by omega)).mono
      (hb.upfront i)
    have hpeak : x.2.asTy.upfront P a + x.2.asTy.peak P a ≤ Δ.peak P a i :=
      List.single_le_sum (fun _ _ => Nat.zero_le _) _ (List.mem_map.mpr ⟨x, hx, rfl⟩)
    exact Ty.decodeWith_spends hh hc size_decodeNamedWith (decodeBytes_spends hh hpos (by omega)) ih
      ((Data.forall_iff.mp (hitems i) x hx).imp (Data.forall_iff.mp (hΔ.fields i) x hx)
        fun hu hsome => hsome.reads hh hΔ hu n) (by omega)

/-- Whatever the input holds and however it hands it out, for each of its bytes a decoder allocates
at most a chunk of a vector and twice the bound of the types, besides what it allocates before it
has read a byte. -/
theorem allocated_le (hΔ : Δ.Compiles P) (hitems : Δ.ItemsRead P) {a : ι → ℕ} {M : ℕ}
    (hb : Δ.Bounds P a M) {t : Ty ν α} (ht : t.Compiles P) (htitems : t.Items (Δ.ReadsSome P))
    (htM : t.peak P a ≤ M) {h : Handler inputInterface Halt σ} {R : σ → List Byte → Prop}
    (hh : ReadsBytes h R) {x : σ} {s : List Byte} (hx : R x s) (n : ℕ) :
    allocated ((Δ.decode P n t).decode.run.trace h x) ≤
      t.upfront P a + (maxPreallocation + 2 * M) * s.length := by
  have hpos : 0 < maxPreallocation + 2 * M := Nat.add_pos_left (by decide) _
  have hspends := Ty.decodeWith_spends hh le_rfl size_decodeNamedWith
    (decodeBytes_spends hh hpos (by omega)) (decodeNamed_spends hh hΔ hitems hb le_rfl n)
    (htitems.imp ht fun hu hsome => hsome.reads hh hΔ hu n) htM
  exact (hspends.decode x s hx).1

/-- A reader whose four bytes announce 2^30 - 1 items of a `Vec<(u64, Nest)>`, and which then has no
more, makes the decoder allocate one chunk. -/
theorem allocated_le_nest :
    let P := Platform.unpadded fun _ : Unit => ℕ
    let t : Ty (fun _ : Unit => ℕ) _ := .vec (.pair (.prim .u64) (.named ()))
    let bytes : List Byte := [254, 255, 255, 255]
    allocated ((nestDefs.decode P 3 t).decode.run.trace ioReaderInput bytes) = 16384 ∧
      ∀ n, allocated ((nestDefs.decode P n t).decode.run.trace ioReaderInput bytes) ≤
        (16384 + 2 * 8) * 4 := by
  intro P t bytes
  have hitems : nestDefs.ItemsRead P := fun _ => ⟨trivial, trivial⟩
  have hb : nestDefs.Bounds P (fun _ => 0) 8 := ⟨fun _ => le_rfl, fun _ => Nat.zero_le 8⟩
  have hsome : nestDefs.ReadsSome P (.pair (.prim .u64) (.named ())) := by
    rintro v s ⟨n, hn⟩
    cases hn
  refine ⟨by decide +kernel, fun n => ?_⟩
  have hle := allocated_le nestDefs_compiles hitems hb (t := t) ⟨by decide, trivial, trivial⟩
    ⟨hsome, trivial, trivial⟩ le_rfl ioReaderInput_readsBytes (s := bytes) rfl n
  exact hle.trans (by decide)

end TypeDefs

/-! ## Items read from no bytes -/

section Unread

variable {s : List Byte} {p : DecodeM α} {f : α → DecodeM β}

theorem allocatedBy_bind_of_decodes {v : α} {s' : List Byte} (hp : Decodes p s v s') :
    allocatedBy sliceInput (p >>= f) s =
      allocatedBy sliceInput p s + allocatedBy sliceInput (f v) s' := by
  rw [allocatedBy, trace_bind_of_decodes hp, allocated_append]
  rfl

theorem allocatedBy_le_bind : allocatedBy sliceInput p s ≤ allocatedBy sliceInput (p >>= f) s := by
  rcases allocatedBy_bind sliceInput p f s with ⟨_, _, -, -, hsum⟩ | ⟨-, hsum⟩ <;> omega

/-- What is read from no bytes can be read any number of times. -/
theorem decodes_replicateM_unread {v : α} (hp : Decodes p s v s) (n : ℕ) :
    Decodes (p.replicateM n) s (List.replicate n v) s := by
  induction n with
  | zero => exact decodes_pure.mpr ⟨rfl, rfl⟩
  | succ n ih =>
    exact decodes_bind.mpr ⟨v, s, hp, decodes_bind.mpr ⟨_, s, ih, decodes_pure.mpr ⟨rfl, rfl⟩⟩⟩

/-- No chunk runs into the end of the input, so all are reserved. -/
theorem le_allocatedBy_chunkLoop {tgt : Target} {size chunkLen : ℕ}
    {decodeChunk : ℕ → DecodeM (List α)} (hpos : 0 < chunkLen)
    (hchunk : ∀ n, ∃ as, Decodes (decodeChunk n) s as s) {fuel n : ℕ} (hn : n ≤ fuel) :
    n * size ≤ allocatedBy sliceInput (chunkLoop tgt size chunkLen decodeChunk fuel n) s := by
  induction fuel generalizing n with
  | zero =>
    obtain rfl := Nat.le_zero.mp hn
    rw [Nat.zero_mul]
    exact Nat.zero_le _
  | succ fuel ih =>
    cases n with
    | zero =>
      rw [Nat.zero_mul]
      exact Nat.zero_le _
    | succ n =>
      obtain ⟨as, has⟩ := hchunk (min chunkLen (n + 1))
      have hmin : 0 < min chunkLen (n + 1) := lt_min hpos (Nat.succ_pos n)
      have hrest := ih (n := n + 1 - min chunkLen (n + 1)) (by omega)
      have halloc : allocatedBy sliceInput (DecodeM.allocate (min chunkLen (n + 1) * size)) s =
          min chunkLen (n + 1) * size := allocatedBy_call
      have hloop := allocatedBy_le_bind (s := s) (f := fun rest => pure (as ++ rest))
        (p := chunkLoop tgt size chunkLen decodeChunk fuel (n + 1 - min chunkLen (n + 1)))
      rw [chunkLoop, allocatedBy_bind_of_decodes (v := ()) (decodes_onBeforeAllocMem.mpr rfl),
        allocatedBy_bind_of_decodes (v := ()) (decodes_allocate.mpr rfl),
        allocatedBy_bind_of_decodes has, halloc]
      calc (n + 1) * size
          = min chunkLen (n + 1) * size + (n + 1 - min chunkLen (n + 1)) * size := by
            rw [← Nat.add_mul, Nat.add_sub_cancel' (min_le_right _ _)]
        _ ≤ _ := by omega

/-- What is decoded from no bytes is none of the types that are read in bulk. -/
theorem Decode.Lawful.typeInfo_eq_unknown {I : Decode α} (hI : I.Lawful) {v : α}
    (hitem : Decodes I.decode [] v []) : I.typeInfo = .unknown := by
  cases hinfo : I.typeInfo with
  | unknown => rfl
  | known p e =>
    have hnil := congrArg List.length (((hI.typeInfo p e hinfo).2 [] v []).mp hitem)
    rw [List.length_append, length_toLeBytes] at hnil
    exact absurd hnil.symm p.size_ne_zero

theorem le_allocatedBy_vecDecode {tgt : Target} {size : ℕ} {I : Decode α} (hI : I.Lawful)
    (hsize : I.size ≤ maxPreallocation) {v : α} (hitem : ∀ s, Decodes I.decode s v s)
    (len : Width.u32.Val) (rest : List Byte) :
    len.toNat * I.size ≤
      allocatedBy sliceInput (vecDecode tgt size I).decode (compactBytes len.toNat ++ rest) := by
  have hlen : Decodes (compactDecode tgt .u32) (compactBytes len.toNat ++ rest) len rest :=
    decodes_compactDecode.mpr rfl
  have hchunks : len.toNat * I.size ≤
      allocatedBy sliceInput (decodeVecChunked tgt I.size I.decode.replicateM len.toNat) rest :=
    le_allocatedBy_chunkLoop (chunkLen_pos tgt hsize)
      (fun k => ⟨_, decodes_replicateM_unread (hitem rest) k⟩) le_rfl
  have hitems : decodeVecWithLen tgt I len.toNat = decodeVecFromItems tgt I len.toNat := by
    rw [decodeVecWithLen, hI.typeInfo_eq_unknown (hitem [])]
  show _ ≤ allocatedBy sliceInput (compactDecode tgt .u32 >>= fun len =>
    decodeVecWithLen tgt I len.toNat) _
  rw [allocatedBy_bind_of_decodes hlen, hitems, decodeVecFromItems, DecodeM.nested,
    allocatedBy_bind_of_decodes (v := ()) (decodes_descendRef.mpr rfl)]
  exact le_add_left (le_add_left (hchunks.trans allocatedBy_le_bind))

end Unread

namespace TypeDefs

variable {ι : Type} {ν : ι → Type} {P : Platform ν} {Δ : TypeDefs ν}

/-- If a value is decoded from no bytes, a vector of such items is reserved as long as its length
says, and that takes at most five bytes. -/
theorem le_allocated (hΔ : Δ.Compiles P) {t : Ty ν α} (ht : (Ty.vec t).Compiles P) {v : α}
    {s : List Byte} (hv : Δ.DecodesAs P t [] v s) :
    ∃ n, ∀ m ≥ n, ∀ (len : Width.u32.Val) (rest : List Byte),
      (compactBytes len.toNat).length ≤ 5 ∧
        len.toNat * P.size t ≤ allocated ((Δ.decode P m (.vec t)).decode.run.trace sliceInput
          (compactBytes len.toNat ++ rest)) := by
  obtain ⟨n, hv⟩ := hv
  obtain ⟨c, hc, hext⟩ := (local_decode hΔ ht.2 n).1 [] v s hv
  obtain ⟨rfl, rfl⟩ := List.append_eq_nil_iff.mp hc.symm
  refine ⟨n, fun m hm len rest => ⟨length_compactBytes_le .u32 len, ?_⟩⟩
  have hsize : (Δ.decode P m t).size = P.size t := Ty.size_decodeWith size_decodeNamedWith t
  rw [← hsize]
  exact le_allocatedBy_vecDecode (Ty.decodeWith_lawful (decodeNamedWith_lawful hΔ m) t)
    (hsize.trans_le ht.1) (fun rest => decodes_mono hΔ ht.2 hm (hext rest)) len rest

/-- Four bytes make a `Vec<RangeInclusive<()>>` allocate 2^30 - 1 bytes : an item is the flag that
iteration sets, which is not encoded. -/
theorem le_allocated_range :
    let P := Platform.unpadded fun _ : Unit => ℕ
    let t : Ty (fun _ : Unit => ℕ) (List (RangeInclusive Unit)) := .vec (.rangeInclusive .unit)
    ∃ n, 2 ^ 30 - 1 ≤
      allocated ((nestDefs.decode P n t).decode.run.trace sliceInput [254, 255, 255, 255]) := by
  intro P t
  have ht : t.Compiles P := ⟨by decide, trivial⟩
  have hv : nestDefs.DecodesAs P (.rangeInclusive .unit) [] ⟨(), (), false⟩ [] := ⟨0, rfl⟩
  obtain ⟨n, hn⟩ := le_allocated nestDefs_compiles ht hv
  obtain ⟨-, hle⟩ := hn n le_rfl (BitVec.ofNat 32 (2 ^ 30 - 1)) []
  exact ⟨n, hle⟩

end TypeDefs

end ScaleCodec
