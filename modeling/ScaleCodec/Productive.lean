import ScaleCodec.ByteInputs
import ScaleCodec.DepthTermination

/-!
# Decoding without a limit terminates

A recursive type such as `struct Nest(Option<Box<Nest>>)` needs no depth limit for its decoder to
return : before the decoder calls itself it has read the byte of the `Option`. It is enough that no
chain of calls goes on for ever without reading (`TypeDefs.unguarded` is well-founded), and the
measure is lexicographic again : a call is made with fewer bytes left, or for a type that comes
before in that order. So there is an amount of fuel that is enough for all slices of a given length
(`TypeDefs.decode_terminates`). `struct R(Box<R>)` shows that some such condition is needed
(`runSlice_loopDefs`).
-/

namespace ScaleCodec

open Filter

variable {ι : Type} {ν : ι → Type} {α β : Type}

/-! ## Returning on short slices -/

/-- On slices of at most `k` bytes `p` returns, and leaves no more bytes than there were. -/
def ReturnsWithin (k : ℕ) (p : DecodeM α) : Prop :=
  ∀ s : List Byte, s.length ≤ k → ∃ r s', runSlice p s = .ok (r, s') ∧ s'.length ≤ s.length

section ReturnsWithin

variable {k : ℕ} {p : DecodeM α} {f : α → DecodeM β}

/-- `f` returns on what `p` leaves. -/
theorem ReturnsWithin.bind_of_decodes (hp : ReturnsWithin k p)
    (hf : ∀ s a s', s.length ≤ k → s'.length ≤ s.length → Decodes p s a s' →
      ∃ r s'', runSlice (f a) s' = .ok (r, s'') ∧ s''.length ≤ s'.length) :
    ReturnsWithin k (p >>= f) := by
  intro s hs
  obtain ⟨r, s', hrun, hle⟩ := hp s hs
  rw [runSlice_bind, hrun]
  cases r with
  | error e => exact ⟨_, _, rfl, hle⟩
  | ok a =>
    obtain ⟨r, s'', hrun', hle'⟩ := hf s a s' hs hle hrun
    exact ⟨r, s'', hrun', hle'.trans hle⟩

theorem ReturnsWithin.bind_of_yields {P : α → Prop} (hp : ReturnsWithin k p) (hP : Yields P p)
    (hf : ∀ a, P a → ReturnsWithin k (f a)) : ReturnsWithin k (p >>= f) :=
  hp.bind_of_decodes fun _ a s' hs hle ha => hf a (hP.of_run ha) s' (hle.trans hs)

theorem ReturnsWithin.bind (hp : ReturnsWithin k p) (hf : ∀ a, ReturnsWithin k (f a)) :
    ReturnsWithin k (p >>= f) :=
  hp.bind_of_yields yields_true fun a _ => hf a

/-- What accepts no empty string leaves fewer bytes than there were. -/
def Consumes (p : DecodeM α) : Prop :=
  ∀ s a s', Decodes p s a s' → s'.length < s.length

/-- After a byte has been read, `f` has to return on shorter slices only. -/
theorem ReturnsWithin.guard (hp : ReturnsWithin k p) (hlt : Consumes p)
    (hf : ∀ j < k, ∀ a, ReturnsWithin j (f a)) : ReturnsWithin k (p >>= f) :=
  hp.bind_of_decodes fun s a s' hs _ ha =>
    hf s'.length ((hlt s a s' ha).trans_le hs) a s' le_rfl

theorem returnsWithin_of_eq {a : α} (h : ∀ s, runSlice p s = .ok (.ok a, s)) : ReturnsWithin k p :=
  fun s _ => ⟨_, s, h s, le_rfl⟩

theorem returnsWithin_throw (e : Error) : ReturnsWithin k (throw e : DecodeM α) :=
  fun s _ => ⟨_, s, rfl, le_rfl⟩

theorem ReturnsWithin.map {g : α → β} (hp : ReturnsWithin k p) : ReturnsWithin k (g <$> p) := by
  rw [map_eq_pure_bind]
  exact hp.bind fun _ => returnsWithin_of_eq fun _ => rfl

theorem returnsWithin_read (n : ℕ) : ReturnsWithin k (DecodeM.read n) := by
  intro s _
  by_cases hn : n ≤ s.length
  · have hread : sliceRead n s = (.ok ⟨s.take n, List.length_take_of_le hn⟩, s.drop n) :=
      sliceRead_eq_ok.mpr (List.take_append_drop n s).symm
    exact ⟨_, _, congrArg Except.ok hread, by rw [List.length_drop]; exact Nat.sub_le _ _⟩
  · exact ⟨_, _, congrArg Except.ok (sliceRead_eq_error.mpr ⟨not_le.mp hn, rfl, rfl⟩), le_rfl⟩

theorem returnsWithin_readByte : ReturnsWithin k DecodeM.readByte := by
  intro s _
  cases s with
  | nil => exact ⟨_, _, rfl, le_rfl⟩
  | cons b s => exact ⟨_, _, rfl, Nat.le_succ _⟩

theorem consumes_readByte : Consumes DecodeM.readByte := by
  intro s b s' h
  rw [decodes_readByte.mp h]
  exact Nat.lt_succ_self _

theorem consumes_compactDecode {tgt : Target} (w : Width) : Consumes (compactDecode tgt w) := by
  intro s x s' h
  have hpos : 0 < (compactBytes x.toNat).length := List.length_pos_iff.mpr (compactBytes_ne_nil _)
  rw [decodes_compactDecode.mp h, List.length_append]
  omega

theorem Consumes.chainErr {desc : String} (hp : Consumes p) : Consumes (p.chainErr desc) :=
  fun s a s' h => hp s a s' (decodes_chainErr.mp h)

theorem ReturnsWithin.chainErr {desc : String} (hp : ReturnsWithin k p) :
    ReturnsWithin k (p.chainErr desc) := by
  intro s hs
  obtain ⟨r, s', hrun, hle⟩ := hp s hs
  refine ⟨r.mapError (·.chain desc), s', ?_, hle⟩
  unfold runSlice at hrun ⊢
  unfold DecodeM.chainErr
  rw [ExceptT.run_mk, map_eq_pure_bind, Prog.run_bind, hrun]
  rfl

theorem ReturnsWithin.thenAscend (hp : ReturnsWithin k p) : ReturnsWithin k p.thenAscend := by
  intro s hs
  obtain ⟨r, s', hrun, hle⟩ := hp s hs
  refine ⟨r, s', ?_, hle⟩
  unfold runSlice at hrun ⊢
  unfold DecodeM.thenAscend
  rw [ExceptT.run_mk, Prog.run_bind, hrun]
  rfl

theorem ReturnsWithin.nestedAlloc {size : ℕ} (hp : ReturnsWithin k p) :
    ReturnsWithin k (p.nestedAlloc size) :=
  (returnsWithin_of_eq (a := ()) fun _ => rfl).bind fun _ =>
    (returnsWithin_of_eq (a := ()) fun _ => rfl).bind fun _ => hp.thenAscend

theorem returnsWithin_checkRemaining (n : ℕ) : ReturnsWithin k (checkRemaining n) := by
  intro s _
  by_cases hn : n ≤ s.length
  · have hcheck : Decodes (checkRemaining n) s () s := decodes_checkRemaining.mpr ⟨hn, rfl⟩
    exact ⟨_, s, hcheck, le_rfl⟩
  · exact ⟨_, s, run_checkRemaining_error (h := sliceInput) rfl (not_le.mp hn), le_rfl⟩

end ReturnsWithin

/-- The logic of returning on slices of at most `k` bytes. -/
def returning (k : ℕ) : DecoderLogic where
  toDiscipline := .total
  Rel _ _ _ q := ReturnsWithin k q
  rel_pure a := returnsWithin_of_eq (a := a) fun _ => rfl
  rel_throw _ := returnsWithin_throw _
  rel_halt h := h.elim
  rel_bind_of_yields hp := hp.bind_of_yields
  rel_read := returnsWithin_read
  rel_readByte := returnsWithin_readByte
  rel_chainErr hp := hp.chainErr
  rel_nested hp := (returnsWithin_of_eq (a := ()) fun _ => rfl).bind fun _ =>
    (hp trivial).bind fun _ => (returnsWithin_of_eq (a := ()) fun _ => rfl).bind fun _ =>
      returnsWithin_of_eq fun _ => rfl
  rel_nestedAlloc hp := (hp trivial).nestedAlloc
  rel_claim _ hp := (returnsWithin_of_eq (a := ()) fun _ => rfl).bind fun _ =>
    (returnsWithin_of_eq (a := ()) fun _ => rfl).bind fun _ => hp
  rel_checkRemaining _ hp := (returnsWithin_checkRemaining _).bind fun _ => hp

/-! ## Types -/

/-- The named types whose decoders a decoder may call before it has read a byte. -/
def Ty.unguarded {α : Type} : Ty ν α → List ι
  | tuple1 t | array _ t | genericArray _ t | box t | rc t | arc t | cow t | range t
  | rangeInclusive t => t.unguarded
  | pair t u => t.unguarded ++ u.unguarded
  | named i => [i]
  | _ => []

theorem Ty.unguarded_subset_names (t : Ty ν α) : t.unguarded ⊆ t.names := by
  induction t with
  | pair t u iht ihu =>
    exact List.append_subset.mpr
      ⟨List.Subset.trans iht (List.subset_append_left _ _),
        List.Subset.trans ihu (List.subset_append_right _ _)⟩
  | named i => exact List.Subset.refl _
  | tuple1 t ih | array n t ih | genericArray n t ih | box t ih | rc t ih | arc t ih | cow t ih
  | range t ih | rangeInclusive t ih => exact ih
  | _ => exact List.nil_subset _

section Types

variable {P : Platform ν} {internal : DecodeM (List Prim.u8.Val)} {env : ∀ i, Decode (ν i)}
  {j k : ℕ}

/-- The methods of an `impl Decode` return on slices of at most `k` bytes. -/
abbrev Decode.ReturnsWithin (k : ℕ) (I : Decode α) : Prop :=
  I.Rel (returning k) 0 I

/-- The named types in `t` return on slices of at most `k` bytes, unless a byte is read before they
are called : then they do on shorter ones. -/
structure EnvReturns (env : ∀ i, Decode (ν i)) (k : ℕ) (t : Ty ν α) : Prop where
  unguarded : ∀ i ∈ t.unguarded, (env i).ReturnsWithin k
  names : ∀ i ∈ t.names, ∀ j < k, (env i).ReturnsWithin j

theorem EnvReturns.mono {t : Ty ν α} {u : Ty ν β} (h : EnvReturns env k t)
    (hu : u.unguarded ⊆ t.unguarded) (hn : u.names ⊆ t.names) : EnvReturns env k u where
  unguarded i hi := h.unguarded i (hu hi)
  names i hi := h.names i (hn hi)

/-- After a byte has been read. -/
theorem EnvReturns.later {t : Ty ν α} {u : Ty ν β} (h : EnvReturns env k t)
    (hu : u.names ⊆ t.names) (hj : j < k) : EnvReturns env j u where
  unguarded i hi := h.names i (hu (u.unguarded_subset_names hi)) j hj
  names i hi l hl := h.names i (hu hi) l (hl.trans hj)

theorem optionDecode_returns {size : ℕ} {I : Decode α} (hI : ∀ j < k, I.ReturnsWithin j) :
    (optionDecode size I).ReturnsWithin k := by
  refine Decode.rel_ofDecode (ReturnsWithin.guard returnsWithin_readByte.chainErr
    consumes_readByte.chainErr fun j hj _ => ?_)
  split_ifs
  · exact returnsWithin_of_eq fun _ => rfl
  · exact ((hI j hj).decode.chainErr).map
  · exact returnsWithin_throw _

theorem resultDecode_returns {size : ℕ} {I : Decode α} {J : Decode β}
    (hI : ∀ j < k, I.ReturnsWithin j) (hJ : ∀ j < k, J.ReturnsWithin j) :
    (resultDecode size I J).ReturnsWithin k := by
  refine Decode.rel_ofDecode (ReturnsWithin.guard returnsWithin_readByte.chainErr
    consumes_readByte.chainErr fun j hj _ => ?_)
  split_ifs
  · exact ((hI j hj).decode.chainErr).map
  · exact ((hJ j hj).decode.chainErr).map
  · exact returnsWithin_throw _

theorem returnsWithin_compactDecode {tgt : Target} (w : Width) :
    ReturnsWithin k (compactDecode tgt w) :=
  compactDecode_rel (L := (returning k : ReadLogic)) (d := 0) w

theorem vecDecode_returns {tgt : Target} {size : ℕ} {I : Decode α}
    (hsize : I.size ≤ maxPreallocation) (hI : ∀ j < k, I.ReturnsWithin j) :
    (vecDecode tgt size I).ReturnsWithin k :=
  Decode.rel_ofDecode ((returnsWithin_compactDecode .u32).guard (consumes_compactDecode .u32)
    fun j hj _ => decodeVecWithLen_rel (L := returning j) (d := 0) hsize (.refl I)
      fun _ => (hI j hj).decode)

theorem nodesDecode_returns {tgt : Target} {γ : Type} {memSize : ℕ → ℕ} {build : List α → γ}
    {p : DecodeM α} (hp : ∀ j < k, ReturnsWithin j p) :
    ReturnsWithin k (nodesDecode tgt memSize p build) :=
  (returnsWithin_compactDecode .u32).guard (consumes_compactDecode .u32) fun j hj _ =>
    ReturnsWithin.nestedAlloc (ReturnsWithin.map
      ((returning j : ReadLogic).rel_replicateM (d := 0) (p := p) (hp j hj) _))

theorem Ty.decodeWith_returns (hinternal : ∀ k, ReturnsWithin k internal)
    (hsize : ∀ i, (env i).size = P.size (.named i)) {t : Ty ν α} (hc : t.Compiles P)
    (h : EnvReturns env k t) : (t.decodeWith P internal env).ReturnsWithin k := by
  have hsub : ∀ l : List ι, l ⊆ l := List.Subset.refl
  have hitem : ∀ {β : Type} {u : Ty ν β}, P.size u ≤ maxPreallocation →
      (u.decodeWith P internal env).size ≤ maxPreallocation := by
    intro β u hu
    rwa [size_decodeWith hsize]
  induction t generalizing k with
  | option t ih => exact optionDecode_returns fun j hj => ih hc (h.later (hsub _) hj)
  | result t u iht ihu =>
    exact resultDecode_returns
      (fun j hj => iht hc.1 (h.later (List.subset_append_left _ _) hj))
      fun j hj => ihu hc.2 (h.later (List.subset_append_right _ _) hj)
  | tuple1 t ih | cow t ih =>
    exact Decode.rel_ofDecode (ih hc (h.mono (hsub _) (hsub _))).decode
  | pair t u iht ihu =>
    exact pairDecode_rel
      (iht hc.1 (h.mono (List.subset_append_left _ _) (List.subset_append_left _ _))).decode
      (ihu hc.2 (h.mono (List.subset_append_right _ _) (List.subset_append_right _ _))).decode
  | array n t ih => exact arrayDecode_rel (.refl _) (ih hc (h.mono (hsub _) (hsub _)))
  | genericArray n t ih => exact genericArrayDecode_rel (ih hc (h.mono (hsub _) (hsub _))).decode
  | vec t ih =>
    exact vecDecode_returns (hitem hc.1) fun j hj => ih hc.2 (h.later (hsub _) hj)
  | vecDeque t ih =>
    exact Decode.rel_ofDecode (vecDecode_returns (hitem hc.1) fun j hj =>
      ih hc.2 (h.later (hsub _) hj)).decode
  | linkedList t ih =>
    exact Decode.rel_ofDecode (nodesDecode_returns fun j hj =>
      (ih hc (h.later (hsub _) hj)).decode)
  | btreeMap ord t u iht ihu =>
    refine Decode.rel_ofDecode (nodesDecode_returns fun j hj => ?_)
    exact (pairDecode_rel (L := (returning j : ReadLogic)) (d := 0)
      (iht hc.1 (h.later (List.subset_append_left _ _) hj)).decode
      (ihu hc.2 (h.later (List.subset_append_right _ _) hj)).decode).decode
  | btreeSet ord t ih =>
    exact Decode.rel_ofDecode (nodesDecode_returns fun j hj =>
      (ih hc (h.later (hsub _) hj)).decode)
  | binaryHeap ord t ih =>
    exact Decode.rel_ofDecode ((returning k : ReadLogic).rel_map
      (vecDecode_returns (hitem hc.1) fun j hj => ih hc.2 (h.later (hsub _) hj)).decode)
  | box t ih =>
    exact boxDecode_rel (.refl _) fun _ => (ih hc (h.mono (hsub _) (hsub _))).decodeInto
  | rc t ih | arc t ih =>
    exact Decode.rel_ofDecode (boxDecode_rel (L := returning k) (d := 0) (.refl _) fun _ =>
      (ih hc (h.mono (hsub _) (hsub _))).decodeInto).decode
  | range t ih => exact rangeDecode_rel (ih hc (h.mono (hsub _) (hsub _))).decode
  | rangeInclusive t ih =>
    exact rangeInclusiveDecode_rel (ih hc (h.mono (hsub _) (hsub _))).decode
  | named i => exact h.unguarded i (List.mem_singleton_self i)
  | compact c =>
    exact Decode.rel_ofDecode (CompactTy.decode_rel (c.errorsIn_of_forall fun _ => trivial))
  | _ =>
    exact decodeWith_rel (fun _ => hinternal k) hsize (fun i => .refl (env i)) hc
      (errorsIn_of_forall (fun _ => trivial) _) ⟨(fun i hi => nomatch hi), fun i hi => nomatch hi⟩

end Types

/-! ## Declarations -/

namespace TypeDefs

variable {P : Platform ν} {Δ : TypeDefs ν} {internal : DecodeM (List Prim.u8.Val)} {k n : ℕ}

/-- The named types the decoder of the `i`-th may call before it has read a byte. -/
def unguarded (Δ : TypeDefs ν) (i : ι) : List ι :=
  match (Δ i).data with
  | .struct fields => fields.list.encodings.flatMap fun x => x.2.asTy.unguarded
  | .enum _ => []

/-- One call of a named type, given the calls it makes. -/
theorem decodeNamedWith_succ_returns (hinternal : ∀ k, ReturnsWithin k internal)
    (hΔ : Δ.Compiles P) {i : ι}
    (hunguarded : ∀ j ∈ Δ.unguarded i, (Δ.decodeNamedWith P internal n j).ReturnsWithin k)
    (hnames : ∀ j ∈ Δ.names i, ∀ l < k, (Δ.decodeNamedWith P internal n j).ReturnsWithin l) :
    (Δ.decodeNamedWith P internal (n + 1) i).ReturnsWithin k := by
  have hsize : ∀ {σ : Type} (t : Ty ν σ),
      (t.decodeWith P internal (Δ.decodeNamedWith P internal n)).size = P.size t :=
    Ty.size_decodeWith size_decodeNamedWith
  have hnames' : ∀ x ∈ (Δ i).data.encodings, ∀ j ∈ x.2.asTy.names, ∀ l < k,
      (Δ.decodeNamedWith P internal n j).ReturnsWithin l :=
    fun x hx j hj => hnames j (List.mem_flatMap.mpr ⟨x, hx, hj⟩)
  have hfields := Data.forall_iff.mp (hΔ.fields i)
  unfold unguarded at hunguarded
  cases hdata : (Δ i).data with
  | struct fields =>
    rw [hdata] at hunguarded hnames' hfields
    refine DeriveInput.decodeImpl_rel ?_ (fun _ => rfl) (Data.forall_iff.mpr fun x hx => ?_)
    · simp only [hsize]
      exact hΔ.layout i
    · rw [hdata] at hx
      exact Ty.decodeWith_returns hinternal size_decodeNamedWith (hfields x hx)
        ⟨fun j hj => hunguarded j (List.mem_flatMap.mpr ⟨x, hx, hj⟩), hnames' x hx⟩
  | enum vs =>
    rw [hdata] at hnames' hfields
    have henum : (Δ i).data.plainFields = none := by
      rw [hdata]
      rfl
    refine DeriveInput.decodeImpl_rel_of_enum henum henum (ReturnsWithin.map ?_)
    rw [hdata]
    refine ReturnsWithin.guard returnsWithin_readByte.chainErr consumes_readByte.chainErr
      fun j hj b => ?_
    let dec : ∀ {σ : Type}, Ty ν σ → Decode σ :=
      Ty.decodeWith P internal (Δ.decodeNamedWith P internal n)
    have hvariants : (Data.enum vs).Forall (EncodeAs.Rel dec dec (returning j) 0) :=
      Data.forall_iff.mpr fun x hx =>
        Ty.decodeWith_returns hinternal size_decodeNamedWith (hfields x hx)
          ⟨fun i' hi' => hnames' x hx i' (x.2.asTy.unguarded_subset_names hi') j hj,
            fun i' hi' l hl => hnames' x hx i' hi' l (hl.trans hj)⟩
    exact decodeVariants_rel hvariants

/-- With enough fuel a named type returns on slices of at most `k` bytes. -/
theorem eventually_returns (hinternal : ∀ k, ReturnsWithin k internal) (hΔ : Δ.Compiles P)
    (hwf : WellFounded fun j i => j ∈ Δ.unguarded i) (k : ℕ) (i : ι) :
    ∀ᶠ n in atTop, (Δ.decodeNamedWith P internal n i).ReturnsWithin k := by
  -- on the bytes left, and for each number of them on the calls made before a byte is read
  induction k using Nat.strong_induction_on generalizing i with
  | _ k ihk =>
    induction i using hwf.induction with
    | _ i ihi =>
      have hunguarded : ∀ᶠ n in atTop, ∀ j ∈ Δ.unguarded i,
          (Δ.decodeNamedWith P internal n j).ReturnsWithin k :=
        (eventually_all_finite (Δ.unguarded i).finite_toSet).mpr fun j hj => ihi j hj
      have hnames : ∀ᶠ n in atTop, ∀ j ∈ Δ.names i, ∀ l ∈ Finset.range k,
          (Δ.decodeNamedWith P internal n j).ReturnsWithin l :=
        (eventually_all_finite (Δ.names i).finite_toSet).mpr fun j _ =>
          (eventually_all_finset _).mpr fun l hl => ihk l (Finset.mem_range.mp hl) j
      obtain ⟨N, hN⟩ := eventually_atTop.mp (hunguarded.and hnames)
      refine eventually_atTop.mpr ⟨N + 1, fun n hn => ?_⟩
      obtain ⟨m, rfl⟩ := Nat.exists_eq_succ_of_ne_zero (Nat.ne_zero_of_lt hn)
      obtain ⟨hu, hn'⟩ := hN m (Nat.le_of_succ_le_succ hn)
      exact decodeNamedWith_succ_returns hinternal hΔ hu fun j hj l hl =>
        hn' j hj l (Finset.mem_range.mpr hl)

theorem eventually_returnsWithin (hΔ : Δ.Compiles P)
    (hwf : WellFounded fun j i => j ∈ Δ.unguarded i) {t : Ty ν α} (ht : t.Compiles P) (k : ℕ) :
    ∀ᶠ n in atTop, ReturnsWithin k (Δ.decode P n t).decode := by
  have hinternal : ∀ k, ReturnsWithin k
      (vecDecode P.target (P.size (.vec (.prim .u8))) (primDecode .u8)).decode :=
    fun k => decodeBytes_rel (L := returning k) 0
  have hnamed := eventually_returns hinternal hΔ hwf
  have hunguarded := (eventually_all_finite t.unguarded.finite_toSet).mpr fun i _ => hnamed k i
  have hnames := (eventually_all_finite t.names.finite_toSet).mpr fun i _ =>
    (eventually_all_finset (Finset.range k)).mpr fun l _ => hnamed l i
  refine (hunguarded.and hnames).mono fun n ⟨hu, hn⟩ => ?_
  exact (Ty.decodeWith_returns hinternal size_decodeNamedWith ht
    ⟨hu, fun i hi l hl => hn i hi l (Finset.mem_range.mpr hl)⟩).decode

/-- If no decoder calls itself for ever without reading a byte, every decoder returns on every
slice, without a limit : an amount of fuel is enough for all slices of a given length. -/
theorem decode_terminates (hΔ : Δ.Compiles P) (hwf : WellFounded fun j i => j ∈ Δ.unguarded i)
    {t : Ty ν α} (ht : t.Compiles P) (k : ℕ) :
    ∃ N, ∀ n ≥ N, ∀ s : List Byte, s.length ≤ k →
      ∃ r rest, runSlice (Δ.decode P n t).decode s = .ok (r, rest) ∧ rest.length ≤ s.length :=
  eventually_atTop.mp (eventually_returnsWithin hΔ hwf ht k)

/-- `Nest`, which calls itself behind the byte of an `Option`, on any three bytes. -/
theorem decode_terminates_nest :
    let P := Platform.unpadded fun _ : Unit => ℕ
    ∃ n, ∀ s : List Byte, s.length ≤ 3 → ∃ r rest,
      runSlice (nestDefs.decode P n (.named ())).decode s = .ok (r, rest) ∧
        rest.length ≤ s.length := by
  intro P
  obtain ⟨N, hN⟩ := decode_terminates (P := P) nestDefs_compiles
    ⟨fun i => ⟨i, fun _ hj => nomatch hj⟩⟩ (t := .named ()) trivial 3
  exact ⟨N, hN N le_rfl⟩

end TypeDefs

end ScaleCodec
