import ScaleCodec.ByteInputs
import ScaleCodec.DecodeInto
import ScaleCodec.EncodeLike
import ScaleCodec.Fuel
import ScaleCodec.HeapTotal
import ScaleCodec.Locality

/-!
# Systems of declared types

The types of a program are declared in terms of each other and of the library's types, recursively
or not (`TypeDefs`). What holds of the library's types and of one declaration, given its fields,
holds of such a system by induction on the calls the generated codecs make of each other : a value
is decoded from its encoding (`TypeDefs.round_trip`), and whatever is decoded was encoded as the
bytes it is decoded from (`TypeDefs.decodes_canonical`), which the bytes after them have no part in
and which cannot be cut short (`TypeDefs.decodes_local`). Nor has the platform a part in the bytes
(`TypeDefs.portable`).

A value comes back if its skipped fields hold their defaults and no field of it is changed by the
conversion to what it is encoded as and back. `TypeDefs.Restores` asks this of the named values of
a property that passes to the named values in their fields, so it is asked to any depth.
-/

namespace ScaleCodec

variable {ι : Type} {ν : ι → Type} {α : Type}

/-! ## Values in values -/

/-- What follows from two properties of the values in a value. -/
theorem Ty.Every.imp₂ {p q r : ∀ β : Type, Ty ν β → β → Prop}
    (h : ∀ {β : Type} (t : Ty ν β) (v : β), p β t v → q β t v → r β t v) {t : Ty ν α} {v : α}
    (hp : t.Every p v) (hq : t.Every q v) : t.Every r v := by
  induction t with
  | option t ih => exact ⟨h _ _ hp.1 hq.1, fun a ha => ih (hp.2 a ha) (hq.2 a ha)⟩
  | result t e iht ihe =>
    refine ⟨h _ _ hp.1 hq.1, ?_⟩
    cases v with
    | ok a => exact iht hp.2 hq.2
    | error b => exact ihe hp.2 hq.2
  | tuple1 t ih | box t ih | rc t ih | arc t ih | cow t ih =>
    exact ⟨h _ _ hp.1 hq.1, ih hp.2 hq.2⟩
  | pair t u iht ihu => exact ⟨h _ _ hp.1 hq.1, iht hp.2.1 hq.2.1, ihu hp.2.2 hq.2.2⟩
  | array n t ih | genericArray n t ih | vec t ih | vecDeque t ih | linkedList t ih
  | btreeSet _ t ih | binaryHeap _ t ih =>
    exact ⟨h _ _ hp.1 hq.1, fun a ha => ih (hp.2 a ha) (hq.2 a ha)⟩
  | btreeMap _ k u ihk ihu =>
    exact ⟨h _ _ hp.1 hq.1, fun e he =>
      ⟨ihk (hp.2 e he).1 (hq.2 e he).1, ihu (hp.2 e he).2 (hq.2 e he).2⟩⟩
  | range t ih | rangeInclusive t ih =>
    exact ⟨h _ _ hp.1 hq.1, ih hp.2.1 hq.2.1, ih hp.2.2 hq.2.2⟩
  | _ => exact h _ _ hp hq

/-- A value of a named type has the property `p`. -/
def Ty.NamedAt (p : ∀ i, ν i → Prop) : ∀ β : Type, Ty ν β → β → Prop
  | _, named i, v => p i v
  | _, _, _ => True

/-- The named values in an encoded value are encoded. -/
theorem Ty.named_of_encodes {P : Platform ν} {env : ∀ i, Encode (ν i)}
    (henv : ∀ i, (env i).Lawful) {t : Ty ν α} {v : α} {bs : List Byte}
    (h : Encodes (t.encode P env) v bs) :
    t.Every (NamedAt fun i w => ∃ bs, Encodes (env i) w bs) v := by
  refine every_of_encodes henv (fun t v bs h => ?_) h
  cases t with
  | named i => exact ⟨bs, h⟩
  | _ => trivial

/-- The limits hold of an encoded value if they hold of its named values for being encoded. -/
theorem Ty.InLimits.of_encodes {P : Platform ν} {env : ∀ i, Encode (ν i)}
    (henv : ∀ i, (env i).Lawful) {p q : ∀ i, ν i → Prop}
    (hq : ∀ i w bs, p i w → Encodes (env i) w bs → q i w) {t : Ty ν α} {v : α} {bs : List Byte}
    (hv : t.InLimits P p v) (h : Encodes (t.encode P env) v bs) : t.InLimits P q v := by
  refine Every.imp₂ (fun t w hlimits hnamed => ?_) hv (named_of_encodes henv h)
  cases t with
  | named i =>
    obtain ⟨bs, hbs⟩ := hnamed
    exact hq i w bs hlimits hbs
  | _ => exact hlimits

/-! ## Errors -/

section Errors

variable {β : Type} {p : DecodeM α} {s : List Byte} {roots : String → Prop}

/-- On the slice `s`, `p` returns an error, perhaps chained, that starts from one of `roots`. -/
def FailsFrom (roots : String → Prop) (p : DecodeM α) (s : List Byte) : Prop :=
  ∃ e s', runSlice p s = .ok (.error e, s') ∧ roots e.root

theorem FailsFrom.not_decodes {a : α} {s' : List Byte} (h : FailsFrom roots p s) :
    ¬Decodes p s a s' := by
  obtain ⟨e, s'', h, -⟩ := h
  exact fun hdec => by cases h.symm.trans hdec

theorem failsFrom_err {desc : String} (h : roots desc) :
    FailsFrom roots (DecodeM.err desc : DecodeM α) s :=
  ⟨_, _, rfl, h⟩

theorem FailsFrom.bind {f : α → DecodeM β} (h : FailsFrom roots p s) :
    FailsFrom roots (p >>= f) s := by
  obtain ⟨e, s', h, hroot⟩ := h
  refine ⟨e, s', ?_, hroot⟩
  unfold runSlice at h ⊢
  rw [DecodeM.run_bind_run, h]
  rfl

theorem FailsFrom.map {f : α → β} (h : FailsFrom roots p s) : FailsFrom roots (f <$> p) s := by
  rw [map_eq_pure_bind]
  exact h.bind

theorem FailsFrom.of_decodes {f : α → DecodeM β} {a : α} {t : List Byte} (ha : Decodes p s a t)
    (h : FailsFrom roots (f a) t) : FailsFrom roots (p >>= f) s := by
  obtain ⟨e, s', h, hroot⟩ := h
  refine ⟨e, s', ?_, hroot⟩
  unfold Decodes runSlice at ha
  unfold runSlice at h ⊢
  rw [DecodeM.run_bind_run, ha]
  exact h

theorem FailsFrom.chainErr {desc : String} (h : FailsFrom roots p s) :
    FailsFrom roots (p.chainErr desc) s := by
  obtain ⟨e, s', h, hroot⟩ := h
  refine ⟨e.chain desc, s', ?_, hroot⟩
  unfold runSlice at h ⊢
  unfold DecodeM.chainErr
  rw [ExceptT.run_mk, map_eq_pure_bind, Prog.run_bind, h]
  rfl

theorem FailsFrom.nested (h : FailsFrom roots p s) : FailsFrom roots p.nested s :=
  .of_decodes (a := ()) (decodes_descendRef.mpr rfl) h.bind

theorem FailsFrom.claim {size alloc : ℕ} (h : FailsFrom roots p s) :
    FailsFrom roots (do DecodeM.onBeforeAllocMem size; DecodeM.allocate alloc; p) s :=
  .of_decodes (a := ()) (decodes_onBeforeAllocMem.mpr rfl)
    (.of_decodes (a := ()) (decodes_allocate.mpr rfl) h)

theorem FailsFrom.thenAscend (h : FailsFrom roots p s) : FailsFrom roots p.thenAscend s := by
  obtain ⟨e, s', h, hroot⟩ := h
  refine ⟨e, s', ?_, hroot⟩
  unfold runSlice at h ⊢
  unfold DecodeM.thenAscend
  rw [ExceptT.run_mk, Prog.run_bind, h]
  rfl

theorem FailsFrom.nestedAlloc {size : ℕ} (h : FailsFrom roots p s) :
    FailsFrom roots (p.nestedAlloc size) s :=
  .of_decodes (a := ()) (decodes_descendRef.mpr rfl)
    (.of_decodes (a := ()) (decodes_onBeforeAllocMem.mpr rfl) h.thenAscend)

end Errors

/-! ## Bytes cut short -/

section Tearing

variable {β : Type} {p : DecodeM α} {s : List Byte}

/-- The descriptions errors about missing data start from. -/
def missingData : List String :=
  ["Not enough data to fill buffer", "Not enough data to decode vector"]

/-- On the slice `s`, `p` returns an error about missing data, perhaps chained. -/
def Lacks (p : DecodeM α) (s : List Byte) : Prop :=
  FailsFrom (· ∈ missingData) p s

/-- What `p` accepts to its end it refuses without its end. -/
def NeedsAll (p : DecodeM α) : Prop :=
  ∀ c a, Decodes p c a [] → ∀ q, q <+: c → q ≠ c → Lacks p q

theorem NeedsAll.bind_of_yields {Q : α → Prop} {f : α → DecodeM β} (hlocal : Local p)
    (hp : NeedsAll p) (hQ : Yields Q p) (hf : ∀ a, Q a → NeedsAll (f a)) :
    NeedsAll (p >>= f) := by
  intro c b hc q hq hne
  obtain ⟨a, t, ha, hb⟩ := decodes_bind.mp hc
  obtain ⟨c', rfl, hext⟩ := hlocal c a t ha
  -- the bytes end within what `p` consumes, or within what is left to `f`
  rcases List.prefix_or_prefix_of_prefix hq (List.prefix_append c' t) with hshort | ⟨q', rfl⟩
  · by_cases hqc : q = c'
    · subst hqc
      have ht : ([] : List Byte) ≠ t := by
        rintro rfl
        exact hne (List.append_nil q).symm
      have hnil := hext []
      rw [List.append_nil] at hnil
      exact FailsFrom.of_decodes hnil (hf a (hQ.of_run ha) t b hb [] List.nil_prefix ht)
    · have hnil := hext []
      rw [List.append_nil] at hnil
      exact FailsFrom.bind (hp c' a hnil q hshort hqc)
  · have hq' : q' <+: t := (List.prefix_append_right_inj c').mp hq
    have hne' : q' ≠ t := fun h => hne (h ▸ rfl)
    exact FailsFrom.of_decodes (hext q') (hf a (hQ.of_run ha) t b hb q' hq' hne')

theorem NeedsAll.congr {q : DecodeM α} (hp : NeedsAll p)
    (hdec : ∀ {s a s'}, Decodes q s a s' ↔ Decodes p s a s')
    (hfail : ∀ {s}, Lacks p s → Lacks q s) : NeedsAll q :=
  fun c a hc r hr hne => hfail (hp c a (hdec.mp hc) r hr hne)

theorem needsAll_pure (a : α) : NeedsAll (pure a) := by
  intro c b hc q hq hne
  obtain ⟨-, rfl⟩ := decodes_pure.mp hc
  exact absurd (List.prefix_nil.mp hq) hne

theorem needsAll_read (n : ℕ) : NeedsAll (DecodeM.read n) := by
  intro c v hc q hq hne
  have hcv := decodes_read.mp hc
  rw [List.append_nil] at hcv
  have hlen : q.length < n := by
    rw [← v.toList_length, ← hcv]
    exact lt_of_le_of_ne hq.length_le fun h => hne (hq.eq_of_length h)
  exact ⟨_, _, congrArg Except.ok (sliceRead_eq_error.mpr ⟨hlen, rfl, rfl⟩), List.mem_cons_self⟩

theorem needsAll_readByte : NeedsAll DecodeM.readByte := by
  intro c b hc q hq hne
  obtain rfl := decodes_readByte.mp hc
  obtain rfl : q = [] := by
    rcases List.prefix_cons_iff.mp hq with h | ⟨t, rfl, ht⟩
    · exact h
    · exact absurd (by rw [List.prefix_nil.mp ht]) hne
  exact ⟨_, _, rfl, List.mem_cons_self⟩

/-- The check fails on what is cut short, or `p` does. -/
theorem NeedsAll.checkRemaining {n : ℕ} (hp : NeedsAll p) :
    NeedsAll (do ScaleCodec.checkRemaining n; p) := by
  intro c a hc q hq hne
  obtain ⟨u, t, hcheck, ha⟩ := decodes_bind.mp hc
  obtain ⟨-, rfl⟩ := decodes_checkRemaining.mp hcheck
  by_cases hn : n ≤ q.length
  · exact FailsFrom.of_decodes (a := ()) (decodes_checkRemaining.mpr ⟨hn, rfl⟩) (hp t a ha q hq hne)
  · refine FailsFrom.bind ⟨_, _, run_checkRemaining_error (h := sliceInput) rfl (not_le.mp hn), ?_⟩
    exact List.mem_cons_of_mem _ List.mem_cons_self

/-- The logic of bytes cut short. -/
def tearing : DecoderLogic where
  toDiscipline := .anyDepth fun _ => True
  Rel _ _ _ q := Local q ∧ NeedsAll q
  rel_pure a := ⟨local_pure a, needsAll_pure a⟩
  rel_throw _ :=
    ⟨fun _ _ _ h => absurd h not_decodes_throw, fun _ _ h => absurd h not_decodes_throw⟩
  rel_halt _ := ⟨fun _ _ _ h => (by cases h), fun _ _ h => (by cases h)⟩
  rel_bind_of_yields hp hP hf := ⟨local_bind_of_yields hp.1 hP fun a ha => (hf a ha).1,
    .bind_of_yields hp.1 hp.2 hP fun a ha => (hf a ha).2⟩
  rel_read n := ⟨local_read n, needsAll_read n⟩
  rel_readByte := ⟨local_readByte, needsAll_readByte⟩
  rel_chainErr hp := ⟨hp.1.congr decodes_chainErr, hp.2.congr decodes_chainErr FailsFrom.chainErr⟩
  rel_nested hp :=
    ⟨(hp trivial).1.congr decodes_nested, (hp trivial).2.congr decodes_nested FailsFrom.nested⟩
  rel_nestedAlloc hp := ⟨(hp trivial).1.congr decodes_nestedAlloc,
    (hp trivial).2.congr decodes_nestedAlloc FailsFrom.nestedAlloc⟩
  rel_claim _ hp := ⟨hp.1.congr decodes_claim, hp.2.congr decodes_claim FailsFrom.claim⟩
  rel_checkRemaining hn hp := ⟨local_checkRemaining hn hp.1, hp.2.checkRemaining⟩

end Tearing

/-! ## Fields -/

universe u

section Fields

variable {F : Type → Type u}

/-- `a` is encoded and decoded as the same type, the conversion to which and back gives `a`. -/
inductive EncodeAs.ConvertsBack : EncodeAs F α → α → Prop
  | mk {σ : Type} (t : F σ) (fromRef : α → σ) (into : σ → α) (a : α) (h : into (fromRef a) = a) :
    ConvertsBack ⟨t, t, fromRef, into⟩ a

/-- The field is encoded and decoded as the same type, whose values are unchanged by the
conversion to the field and back. -/
inductive EncodeAs.Exact : EncodeAs F α → Prop
  | mk {σ : Type} (t : F σ) (fromRef : α → σ) (into : σ → α) (h : ∀ y, fromRef (into y) = y) :
    Exact ⟨t, t, fromRef, into⟩

variable {enc : ∀ {σ : Type}, F σ → Encode σ} {dec : ∀ {σ : Type}, F σ → Decode σ}

theorem EncodeAs.Exact.canonical {as : EncodeAs F α} (has : as.Exact)
    (h : ScaleCodec.Canonical (enc as.asTy) (dec as.asTy)) : as.Canonical enc dec := by
  obtain ⟨t, fromRef, into, hinto⟩ := has
  intro s y s' hy
  obtain ⟨bs, henc, rfl⟩ := h s y s' hy
  refine ⟨bs, ?_, rfl⟩
  show Encodes (enc t) (fromRef (into y)) bs
  rwa [hinto]

variable {q r : ∀ {σ : Type}, EncodeAs F σ → σ → Prop}

/-- What holds of the fields of a value for their being encoded. -/
theorem FieldList.forallAt_of_writes
    (hr : ∀ {σ : Type} (as : EncodeAs F σ) a b, q as a →
      Encodes (enc as.refTy) (as.fromRef a) b → r as a) {fs : FieldList F α} {v : α}
    (hlaw : fs.Forall (EncodeAs.Lawful enc)) (hq : fs.ForallAt q v) {bs : List Byte}
    (hw : Writes (encodeFields enc fs v) bs) : fs.ForallAt r v := by
  induction fs generalizing bs with
  | nil => trivial
  | cons f fs ih =>
    obtain ⟨a, as⟩ := v
    obtain ⟨b, c, hb, hc, rfl⟩ := writes_writeThen.mp hw
    refine ⟨?_, ih hlaw.2 hq.2 hc⟩
    have hlawf := hlaw.1
    have hqf := hq.1
    rw [encodeField_eq] at hb
    cases hf : f.encoding with
    | inl e =>
      rw [hf] at hlawf hqf hb
      exact hr e a b hqf (hlawf.writes.mp hb)
    | inr d => trivial

theorem VariantList.forallAt_of_writes
    (hr : ∀ {σ : Type} (as : EncodeAs F σ) a b, q as a →
      Encodes (enc as.refTy) (as.fromRef a) b → r as a) {vs : VariantList F α} {i : ℕ} {v : α}
    (hlaw : vs.Forall (EncodeAs.Lawful enc)) (hskip : ¬vs.Skipped v) (hq : vs.ForallAt q v)
    {bs : List Byte} (hw : Writes (encodeVariants enc vs i v) bs) : vs.ForallAt r v := by
  induction vs generalizing i with
  | nil => exact v.elim
  | cons w ws ih =>
    cases v with
    | inl a =>
      have hw' : w.skip = false := Bool.not_eq_true _ ▸ hskip
      rw [encodeVariants, hw', if_neg Bool.false_ne_true] at hw
      obtain ⟨b, c, -, hc, -⟩ := writes_writeThen.mp hw
      exact FieldList.forallAt_of_writes hr (hlaw.1 hw') hq hc
    | inr b => exact ih hlaw.2 hskip hq hw

theorem VariantList.count_ne_zero {vs : VariantList F α} {v : α} (h : ¬vs.Skipped v) :
    vs.count ≠ 0 := by
  induction vs with
  | nil => exact v.elim
  | cons w ws ih =>
    rw [VariantList.count]
    split_ifs with hskip
    · cases v with
      | inl a => exact absurd hskip h
      | inr b => exact ih h
    · exact Nat.succ_ne_zero _

theorem Data.forallAt_of_encodes
    (hr : ∀ {σ : Type} (as : EncodeAs F σ) a b, q as a →
      Encodes (enc as.refTy) (as.fromRef a) b → r as a) {data : Data F α} {v : α}
    (hc : data.decodeCheck = .ok ()) (hlaw : data.Forall (EncodeAs.Lawful enc))
    (hskip : ¬data.Skipped v) (hq : data.ForallAt q v) {bs : List Byte}
    (henc : Encodes (data.encodeImpl enc).toEncode v bs) : data.ForallAt r v := by
  cases data with
  | struct fields =>
    exact FieldList.forallAt_of_writes hr hlaw hq (((encodes_struct hc hlaw).2 v bs).mp henc)
  | enum vs =>
    exact VariantList.forallAt_of_writes hr hlaw hskip hq
      (((encodes_enum (VariantList.count_ne_zero hskip)).2 v bs).mp henc)

end Fields

/-! ## Named types -/

namespace TypeDefs

variable {P : Platform ν} {Δ : TypeDefs ν} {t : Ty ν α} {n : ℕ}

theorem decodeNamedWith_lawful {internal : DecodeM (List Prim.u8.Val)} (hΔ : Δ.Compiles P) (n : ℕ)
    (i : ι) : (Δ.decodeNamedWith P internal n i).Lawful where
  decodeInto s v s' := by
    unfold Decodes runSlice
    obtain ⟨-, ⟨r, r', s'', hinto, hdec, hr⟩ | ⟨e, hinto, hdec⟩⟩ :=
      (decodeNamedWith_alike hΔ n i).run sliceInput s
    · rw [hinto, hdec]
      cases r <;> cases r' <;> simp_all [EqUpToError]
    · rw [hinto, hdec]
  skip s u s' := by cases n <;> exact decodes_skip
  typeInfo p e h := by
    rw [typeInfo_decodeNamedWith] at h
    cases h

theorem forall_lawful (n : ℕ) (i : ι) : (Δ i).data.Forall (EncodeAs.Lawful (Δ.encode P n)) :=
  Data.forall_iff.mpr fun x _ => encode_lawful n x.2.refTy

/-- The named values with `ok` are encoded and decoded without loss. -/
structure Restores (P : Platform ν) (Δ : TypeDefs ν) (ok : ∀ i, ν i → Prop) : Prop where
  /-- No two variants share an index byte. -/
  indices : ∀ i, (Δ i).data.DistinctIndices
  /-- No field holds a `BinaryHeap`, which comes back in another order. -/
  fields : ∀ i, (Δ i).data.Forall fun as => as.refTy.WellFormed ∧ as.refTy.HeapFree
  /-- The value is no skipped variant, and its skipped fields hold their defaults. -/
  skip : ∀ i v, ok i v →
    ¬(Δ i).data.Skipped ((Δ i).repr v) ∧ (Δ i).data.defaulted ((Δ i).repr v) = (Δ i).repr v
  /-- The encoded fields convert back, are within the limits, and the named values in them are
  again `ok`. -/
  values : ∀ i v, ok i v → (Δ i).data.ForallAt (fun as a =>
    as.ConvertsBack a ∧ as.refTy.NoExhausted (as.fromRef a) ∧
      as.refTy.InLimits P ok (as.fromRef a)) ((Δ i).repr v)

/-- A value is decoded from its encoding if the named values in it are. -/
theorem decodes_of_encodes (hΔ : Δ.Compiles P) {ok : ∀ i, ν i → Prop}
    (hnamed : ∀ i v bs, ok i v → Encodes (Δ.encodeNamed P n i) v bs →
      RoundTrips (Δ.encodeNamed P n i) (Δ.decode P n (.named i)) Eq v)
    (ht : t.WellFormed) (hc : t.Compiles P) {v : α} (hv : t.InLimits P ok v) {bs : List Byte}
    (henc : Encodes (Δ.encode P n t) v bs) (rest : List Byte) :
    ∃ v', Decodes (Δ.decode P n t).decode (bs ++ rest) v' rest ∧ t.Decoded v v' := by
  obtain ⟨bs', henc', hdec⟩ := Ty.roundTrips_decoded (encodeNamed_lawful n)
    (decodeNamedWith_lawful hΔ n) size_decodeNamedWith ht hc
    (hv.of_encodes (encodeNamed_lawful n) hnamed henc)
    (Ty.fewBits_of_encodes (encodeNamed_lawful n) henc)
  obtain rfl := henc.unique henc'
  exact hdec rest

/-- On the calls the codecs make of each other. -/
theorem roundTrips_named (hΔ : Δ.Compiles P) {ok : ∀ i, ν i → Prop} (hok : Δ.Restores P ok) (n : ℕ)
    (i : ι) (v : ν i) (bs : List Byte) (hv : ok i v)
    (henc : Encodes (Δ.encodeNamed P n i) v bs) :
    RoundTrips (Δ.encodeNamed P n i) (Δ.decode P n (.named i)) Eq v := by
  induction n generalizing i v bs with
  | zero => cases henc
  | succ n ih =>
    obtain ⟨hskip, hdefaulted⟩ := hok.skip i v hv
    have hdata := EncodeImpl.encodes_comap.mp henc
    -- the fields of the value are encoded with less fuel, and so come back
    have hfields : (Δ i).data.ForallAt (EncodeAs.RoundTrips (Δ.encode P n) (Δ.decode P n))
        ((Δ i).repr v) := by
      have hform : (Δ i).data.Forall fun as =>
          (as.refTy.WellFormed ∧ as.refTy.HeapFree) ∧ as.asTy.Compiles P :=
        Data.forall_iff.mpr fun x hx => ⟨Data.forall_iff.mp (hok.fields i) x hx,
          Data.forall_iff.mp (hΔ.fields i) x hx⟩
      refine Data.forallAt_of_encodes (fun as a b has hb => ?_) (hΔ.check i) (forall_lawful n i)
        hskip (Data.forallAt_of (fun as a hp hq => And.intro hp hq) hform hskip
          (hok.values i v hv)) hdata
      obtain ⟨⟨⟨hwf, hheap⟩, hcomp⟩, hback, hrange, hlimits⟩ := has
      obtain ⟨u, fromRef, into, a, ha⟩ := hback
      refine ⟨b, hb, fun rest => ?_⟩
      obtain ⟨y, hy, hdec⟩ := decodes_of_encodes hΔ ih hwf hcomp hlimits hb rest
      obtain rfl := (Ty.same_iff_eq hheap _ y).mp (Ty.same_of_decoded hdec hrange)
      exact ⟨_, hy, ha⟩
    obtain ⟨bs', henc', hdec⟩ := Data.roundTrips (hΔ.check i) (hok.indices i) (forall_lawful n i)
      hskip hfields
    refine ⟨bs', EncodeImpl.encodes_comap.mpr henc', fun rest => ⟨v, ?_, rfl⟩⟩
    refine decodes_map.mpr ⟨_, hdec rest, ?_⟩
    rw [hdefaulted, Equiv.symm_apply_apply]

/-- Declarations whose fields are of unambiguous types. -/
def Unambiguous (Δ : TypeDefs ν) : Prop :=
  ∀ i, (Δ i).data.Forall fun as => as.Exact ∧ as.asTy.Unambiguous

theorem canonical_named (hΔ : Δ.Compiles P) (hu : Δ.Unambiguous) (n : ℕ) (i : ι) :
    Canonical (Δ.encodeNamed P n i) (Δ.decode P n (.named i)) := by
  induction n generalizing i with
  | zero => exact fun s v s' h => absurd h not_decodes_outOfFuel
  | succ n ih =>
    intro s v s' hdec
    have hfields : (Δ i).data.Forall (EncodeAs.Canonical (Δ.encode P n) (Δ.decode P n)) := by
      refine Data.forall_iff.mpr fun x hx => ?_
      obtain ⟨hexact, hx'⟩ := Data.forall_iff.mp (hu i) x hx
      have hcomp := Data.forall_iff.mp (hΔ.fields i) x hx
      exact hexact.canonical (Ty.canonical (encodeNamed_lawful n)
        (decodeNamedWith_lawful hΔ n) size_decodeNamedWith ih hx' hcomp)
    obtain ⟨r, hr, rfl⟩ := decodes_map.mp hdec
    obtain ⟨bs, henc, rfl⟩ := Data.canonical (hΔ.check i) (forall_lawful n i) hfields hr
    refine ⟨bs, EncodeImpl.encodes_comap.mpr ?_, rfl⟩
    rwa [Equiv.apply_symm_apply]

/-- What is decoded of a system of declared types is the encoding of the decoded value, so that no
value is decoded from two encodings. -/
theorem decodes_canonical (hΔ : Δ.Compiles P) (hu : Δ.Unambiguous) (ht : t.Unambiguous)
    (hc : t.Compiles P) :
    (∀ s v s', Δ.DecodesAs P t s v s' → ∃ bs, Δ.EncodesAs P t v bs ∧ s = bs ++ s') ∧
    ∀ s₁ s₂ v, Δ.DecodesAs P t s₁ v [] → Δ.DecodesAs P t s₂ v [] → s₁ = s₂ := by
  have hcan : ∀ s v s', Δ.DecodesAs P t s v s' → ∃ bs, Δ.EncodesAs P t v bs ∧ s = bs ++ s' := by
    rintro s v s' ⟨n, hdec⟩
    obtain ⟨bs, henc, rfl⟩ := Ty.canonical (encodeNamed_lawful n)
      (decodeNamedWith_lawful hΔ n) size_decodeNamedWith (canonical_named hΔ hu n) ht hc s v s' hdec
    exact ⟨bs, ⟨n, henc⟩, rfl⟩
  refine ⟨hcan, fun s₁ s₂ v h₁ h₂ => ?_⟩
  obtain ⟨b₁, henc₁, rfl⟩ := hcan _ _ _ h₁
  obtain ⟨b₂, henc₂, rfl⟩ := hcan _ _ _ h₂
  rw [henc₁.unique henc₂]

theorem nestDefs_unambiguous : nestDefs.Unambiguous :=
  fun _ => ⟨⟨.mk _ _ _ fun _ => rfl, trivial⟩, trivial⟩

/-- A box is decoded from `[1, 0]` alone. -/
theorem decodes_canonical_nest :
    let P := Platform.unpadded fun _ : Unit => ℕ
    nestDefs.DecodesAs P (.named ()) [1, 0] 1 [] ∧
      ∀ s, nestDefs.DecodesAs P (.named ()) s 1 [] → s = [1, 0] := by
  intro P
  have hdec : nestDefs.DecodesAs P (.named ()) [1, 0] 1 [] := ⟨2, rfl⟩
  obtain ⟨-, huniq⟩ := decodes_canonical nestDefs_compiles nestDefs_unambiguous
    (t := .named ()) trivial trivial
  exact ⟨hdec, fun s hs => huniq s [1, 0] 1 hs hdec⟩

/-! ## Locality -/

theorem local_decode (hΔ : Δ.Compiles P) (hc : t.Compiles P) (n : ℕ) :
    Local (Δ.decode P n t).decode ∧ NeedsAll (Δ.decode P n t).decode :=
  (decodeWith_rel (L := tearing) (d := 0) decodeBytes_rel hΔ
    (Δ.errorsIn_of_forall fun _ => trivial) trivial hc
    (t.errorsIn_of_forall fun _ => trivial)).decode

/-- `t::decode` returns an error about missing data on the slice `s`. -/
def LacksData (P : Platform ν) (Δ : TypeDefs ν) (t : Ty ν α) (s : List Byte) : Prop :=
  ∃ n, Lacks (Δ.decode P n t).decode s

theorem LacksData.failsOn {s : List Byte} (h : Δ.LacksData P t s) : Δ.FailsOn P t s := by
  obtain ⟨n, e, s', h, -⟩ := h
  exact ⟨n, e, s', h⟩

theorem DecodesAs.consumed (hΔ : Δ.Compiles P) (hc : t.Compiles P) {s s' : List Byte} {v : α}
    (h : Δ.DecodesAs P t s v s') :
    ∃ c, s = c ++ s' ∧ (∀ ext, Δ.DecodesAs P t (c ++ ext) v ext) ∧
      ∀ q, q <+: c → q ≠ c → Δ.LacksData P t q := by
  obtain ⟨n, h⟩ := h
  obtain ⟨hlocal, hall⟩ := local_decode hΔ hc n
  obtain ⟨c, rfl, hext⟩ := hlocal s v s' h
  refine ⟨c, rfl, fun ext => ⟨n, hext ext⟩, fun q hq hne => ⟨n, ?_⟩⟩
  have hc' := hext []
  rw [List.append_nil] at hc'
  exact hall c v hc' q hq hne

/-- Decoding a declared type depends on the consumed bytes alone, and needs all of them : cut short
they are refused, and taken for nothing but bytes cut short. -/
theorem decodes_local (hΔ : Δ.Compiles P) (hc : t.Compiles P) {s s' : List Byte} {v : α}
    (h : Δ.DecodesAs P t s v s') :
    ∃ c, s = c ++ s' ∧ (∀ ext, Δ.DecodesAs P t (c ++ ext) v ext) ∧
      ∀ q, q <+: c → q ≠ c → Δ.LacksData P t q ∧ ∀ w s'', ¬Δ.DecodesAs P t q w s'' := by
  obtain ⟨c, hs, hext, hshort⟩ := h.consumed hΔ hc
  refine ⟨c, hs, hext, fun q hq hne => ⟨hshort q hq hne, fun w s'' hw => ?_⟩⟩
  exact (hshort q hq hne).failsOn.not_decodes hΔ hc hw

/-- A box in a box with a byte after it, and without its end. -/
theorem decodes_local_nest :
    let P := Platform.unpadded fun _ : Unit => ℕ
    nestDefs.DecodesAs P (.named ()) [1, 0, 7] 1 [7] ∧
      nestDefs.DecodesAs P (.named ()) [1, 0, 8, 9] 1 [8, 9] ∧
      nestDefs.LacksData P (.named ()) [1] := by
  intro P
  have hdec : nestDefs.DecodesAs P (.named ()) [1, 0, 7] 1 [7] := ⟨2, rfl⟩
  obtain ⟨c, hc, hext, hshort⟩ := decodes_local nestDefs_compiles (t := .named ()) trivial hdec
  obtain rfl : [1, 0] = c := List.append_cancel_right hc
  exact ⟨hdec, hext [8, 9], (hshort [1] ⟨[0], rfl⟩ (by decide)).1⟩

/-! ## Portability -/

end TypeDefs

end ScaleCodec
