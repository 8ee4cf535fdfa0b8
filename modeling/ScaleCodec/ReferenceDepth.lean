import ScaleCodec.DepthLimit

/-!
# The depth of a run

`Nests p s d` : on the slice `s` the decoder `p` enters `d` references at once, from wherever it
starts, and has left them when it returns a value. `Measured p s N R` : it enters at most `N`, and
`R` holds of the value it returns and of the number it entered. The latter is read off the program
text, with the larger depth of two parts that follow each other, and one more inside a reference.

So a vector is one level deeper than its items if they are decoded one by one
(`measured_decodeVecFromItems`), and has no level of its own if they are read all at once
(`measured_readVecFromU8s`). A run whose depth is bounded by `u32::MAX` meets every depth limit or
fails at it, the largest limit included (`runSlice_limited_of_depthReached_le`).
-/

namespace ScaleCodec

open Prog

variable {α β : Type} {p : DecodeM α} {s t : List Byte} {a : α} {d d' N : ℕ}

/-! ## The depth of one run -/

theorem deepest_append {calls calls' : List InputCall} : ∀ {n : ℕ},
    deepest n (calls ++ calls') =
      max (deepest n calls) (deepest (calls.foldl depthAfter n) calls') := by
  induction calls with
  | nil => exact fun {n} => (max_eq_right (le_deepest n calls')).symm
  | cons c calls ih =>
    intro n
    rw [List.cons_append, deepest, deepest, ih, max_assoc]
    rfl

/-- On `s` the decoder enters `d` references at once, and leaves them when it returns a value. -/
def Nests (p : DecodeM α) (s : List Byte) (d : ℕ) : Prop :=
  ∀ n, deepest n (p.run.trace sliceInput s) = n + d ∧
    ∀ a s', Decodes p s a s' → (p.run.trace sliceInput s).foldl depthAfter n = n

theorem Nests.depthReached_eq (h : Nests p s d) : depthReached p s = d :=
  (h 0).1.trans (Nat.zero_add d)

theorem nests_bind {f : α → DecodeM β} (hp : Nests p s d) (h : Decodes p s a t)
    (hf : Nests (f a) t d') : Nests (p >>= f) s (max d d') := by
  intro n
  have hback := (hp n).2 a t h
  rw [trace_bind_of_decodes h, deepest_append, List.foldl_append, (hp n).1, hback, (hf n).1]
  refine ⟨(Nat.add_max_add_left n d d'), fun b s' hb => ?_⟩
  obtain ⟨a', t', ha, hb⟩ := decodes_bind.mp hb
  obtain ⟨rfl, rfl⟩ := h.unique ha
  exact (hf n).2 b s' hb

/-- Where the first decoder does not return a value, nothing follows it. -/
theorem nests_bind_of_not_decodes {f : α → DecodeM β} (hp : Nests p s d)
    (h : ∀ a t, ¬Decodes p s a t) : Nests (p >>= f) s d := by
  have htrace : (p >>= f).run.trace sliceInput s = p.run.trace sliceInput s := by
    cases hs : runSlice p s with
    | error e => exact trace_bind_of_halt hs
    | ok x =>
      obtain ⟨_ | a, t⟩ := x
      · exact trace_bind_of_error hs
      · exact absurd hs (h a t)
  intro n
  rw [htrace]
  refine ⟨(hp n).1, fun b s' hb => ?_⟩
  obtain ⟨a, t, ha, -⟩ := decodes_bind.mp hb
  exact absurd ha (h a t)

theorem nests_chainErr {desc : String} (hp : Nests p s d) : Nests (p.chainErr desc) s d := by
  intro n
  rw [trace_chainErr]
  exact ⟨(hp n).1, fun a s' h => (hp n).2 a s' (decodes_chainErr.mp h)⟩

/-- A reference is one level. -/
theorem nests_nested (hp : Nests p s d) : Nests p.nested s (d + 1) := by
  intro n
  have hcalls : p.nested.run.trace sliceInput s =
      .descendRef :: (do let a ← p; DecodeM.ascendRef; pure a).run.trace sliceInput s := rfl
  rw [hcalls, deepest, depthAfter, List.foldl_cons, depthAfter]
  obtain ⟨hdeep, hback⟩ := hp (n + 1)
  by_cases h : ∃ a t, Decodes p s a t
  · obtain ⟨a, t, ha⟩ := h
    have hascend : (do DecodeM.ascendRef; pure a : DecodeM α).run.trace sliceInput t =
        [.ascendRef] := rfl
    rw [trace_bind_of_decodes ha, hascend, deepest_append, List.foldl_append, hdeep,
      hback a t ha]
    refine ⟨?_, fun _ _ _ => rfl⟩
    show max n (max (n + 1 + d) (max (n + 1) (n + 1 - 1))) = n + (d + 1)
    omega
  · push Not at h
    obtain ⟨hdeep, -⟩ := nests_bind_of_not_decodes (f := fun a => do DecodeM.ascendRef; pure a) hp h
      (n + 1)
    refine ⟨?_, fun a s' ha => absurd (decodes_nested.mp ha) (h a s')⟩
    rw [hdeep]
    omega

/-- A decoder that enters no reference. -/
def Flat (p : DecodeM α) : Prop :=
  ∀ s, Nests p s 0

theorem flat_of_no_call (hp : ∀ s, p.run.trace sliceInput s = []) : Flat p := by
  intro s n
  rw [hp s]
  exact ⟨rfl, fun _ _ _ => rfl⟩

theorem flat_of_call (c : InputCall) (hc : ∀ n, depthAfter n c = n)
    (hp : ∀ s, p.run.trace sliceInput s = [c]) : Flat p := by
  intro s n
  rw [hp s, deepest, List.foldl_cons, hc n]
  exact ⟨max_self n, fun _ _ _ => rfl⟩

theorem flat_pure (a : α) : Flat (pure a) :=
  flat_of_no_call fun _ => rfl

theorem flat_throw (e : Error) : Flat (throw e : DecodeM α) :=
  flat_of_no_call fun _ => rfl

theorem flat_read (n : ℕ) : Flat (DecodeM.read n) :=
  flat_of_call (.read n) (fun _ => rfl) fun _ => rfl

theorem flat_onBeforeAllocMem (size : ℕ) : Flat (DecodeM.onBeforeAllocMem size) :=
  flat_of_call (.onBeforeAllocMem size) (fun _ => rfl) fun _ => rfl

theorem flat_allocate (size : ℕ) : Flat (DecodeM.allocate size) :=
  flat_of_call (.allocate size) (fun _ => rfl) fun _ => rfl

theorem flat_bind {f : α → DecodeM β} {P : α → Prop} (hp : Flat p) (hP : Yields P p)
    (hf : ∀ a, P a → Flat (f a)) : Flat (p >>= f) := by
  intro s
  by_cases h : ∃ a t, Decodes p s a t
  · obtain ⟨a, t, ha⟩ := h
    exact nests_bind (hp s) ha (hf a (hP.of_run ha) t)
  · push Not at h
    exact nests_bind_of_not_decodes (hp s) h

/-- The logic of decoders that enter no reference. -/
def flatness : ReadLogic where
  toDiscipline := .anyDepth fun _ => True
  Rel _ _ _ q := Flat q
  rel_pure := flat_pure
  rel_throw _ := flat_throw _
  rel_halt _ := flat_of_no_call fun _ => rfl
  rel_bind_of_yields := flat_bind
  rel_read := flat_read
  rel_readByte := flat_of_call .readByte (fun _ => rfl) fun _ => rfl
  rel_chainErr hp s := nests_chainErr (hp s)

theorem flat_checkRemaining (n : ℕ) : Flat (checkRemaining n) := by
  have hlen : Flat DecodeM.remainingLen :=
    flat_of_call .remainingLen (fun _ => rfl) fun _ => rfl
  refine flat_bind hlen yields_true fun r _ => ?_
  cases r with
  | none => exact flat_pure ()
  | some len =>
    show Flat (if len < n then _ else _)
    split_ifs
    · exact flat_throw _
    · exact flat_pure ()

/-! ## Depths read off the program text -/

/-- On `s` the decoder enters at most `N` references at once, and `R` holds of the value that it
returns and of the number it entered. -/
def Measured (p : DecodeM α) (s : List Byte) (N : ℕ) (R : α → ℕ → Prop) : Prop :=
  ∃ d ≤ N, Nests p s d ∧ ∀ a s', Decodes p s a s' → R a d

section Measured

variable {R : α → ℕ → Prop} {Q : β → ℕ → Prop}

theorem Flat.measured (hp : Flat p) (hR : ∀ a s', Decodes p s a s' → R a 0) : Measured p s N R :=
  ⟨0, Nat.zero_le N, hp s, hR⟩

theorem Measured.mono {M : ℕ} (hp : Measured p s M R) (h : M ≤ N) : Measured p s N R := by
  obtain ⟨d, hd, hp⟩ := hp
  exact ⟨d, hd.trans h, hp⟩

theorem measured_pure (h : R a 0) : Measured (pure a) s N R :=
  (flat_pure a).measured fun b s' hb => by
    obtain ⟨rfl, rfl⟩ := decodes_pure.mp hb
    exact h

/-- The larger depth of two parts that follow each other. -/
theorem measured_bind {f : α → DecodeM β} (hp : Measured p s N R)
    (hf : ∀ a t d, Decodes p s a t → R a d → Measured (f a) t N fun b d' => Q b (max d d')) :
    Measured (p >>= f) s N Q := by
  obtain ⟨d, hd, hnests, hR⟩ := hp
  by_cases h : ∃ a t, Decodes p s a t
  · obtain ⟨a, t, ha⟩ := h
    obtain ⟨d', hd', hnests', hQ⟩ := hf a t d ha (hR a t ha)
    refine ⟨max d d', max_le hd hd', nests_bind hnests ha hnests', fun b s' hb => ?_⟩
    obtain ⟨a', t', ha', hb⟩ := decodes_bind.mp hb
    obtain ⟨rfl, rfl⟩ := ha.unique ha'
    exact hQ b s' hb
  · push Not at h
    refine ⟨d, hd, nests_bind_of_not_decodes hnests h, fun b s' hb => ?_⟩
    obtain ⟨a, t, ha, -⟩ := decodes_bind.mp hb
    exact absurd ha (h a t)

theorem Flat.measured_bind {f : α → DecodeM β} (hp : Flat p)
    (hf : ∀ a t, Decodes p s a t → Measured (f a) t N Q) : Measured (p >>= f) s N Q := by
  have h : Measured p s N fun _ d => d = 0 := hp.measured fun _ _ _ => rfl
  refine ScaleCodec.measured_bind h fun a t d ha hd => ?_
  simp only [hd, Nat.zero_max]
  exact hf a t ha

theorem measured_map {f : α → β} (hp : Measured p s N fun a d => Q (f a) d) :
    Measured (f <$> p) s N Q := by
  rw [map_eq_pure_bind]
  refine measured_bind hp fun a t d _ h => measured_pure ?_
  rwa [Nat.max_zero]

theorem measured_chainErr {desc : String} (hp : Measured p s N R) :
    Measured (p.chainErr desc) s N R := by
  obtain ⟨d, hd, hnests, hR⟩ := hp
  exact ⟨d, hd, nests_chainErr hnests, fun a s' h => hR a s' (decodes_chainErr.mp h)⟩

/-- One level more inside a reference. -/
theorem measured_nested (hp : Measured p s N fun a d => R a (d + 1)) :
    Measured p.nested s (N + 1) R := by
  obtain ⟨d, hd, hnests, hR⟩ := hp
  exact ⟨d + 1, Nat.succ_le_succ hd, nests_nested hnests,
    fun a s' h => hR a s' (decodes_nested.mp h)⟩

end Measured

/-! ## Items in a row -/

/-- The largest value of `f` on the list. -/
def maxOf (f : α → ℕ) (as : List α) : ℕ :=
  as.foldr (fun a n => max (f a) n) 0

theorem maxOf_cons (f : α → ℕ) (a : α) (as : List α) :
    maxOf f (a :: as) = max (f a) (maxOf f as) :=
  rfl

theorem maxOf_append {f : α → ℕ} {as bs : List α} :
    maxOf f (as ++ bs) = max (maxOf f as) (maxOf f bs) := by
  induction as with
  | nil => exact (Nat.zero_max _).symm
  | cons a as ih => rw [List.cons_append, maxOf_cons, maxOf_cons, ih, max_assoc]

theorem maxOf_zero : ∀ as : List α, maxOf (fun _ => 0) as = 0
  | [] => rfl
  | _ :: as => by rw [maxOf_cons, maxOf_zero as, max_self]

theorem maxOf_perm {f : α → ℕ} {as bs : List α} (h : as.Perm bs) : maxOf f as = maxOf f bs :=
  h.foldr_eq' (fun a _ b _ n => max_left_comm (f b) (f a) n) 0

theorem maxOf_mono {f g : α → ℕ} (h : ∀ a, f a ≤ g a) (as : List α) : maxOf f as ≤ maxOf g as := by
  induction as with
  | nil => exact le_rfl
  | cons a as ih => exact max_le_max (h a) ih

section Items

variable {f : α → ℕ}

theorem measured_replicateM (hp : ∀ s, Measured p s N fun a d => d = f a) (n : ℕ) :
    ∀ s, Measured (p.replicateM n) s N fun as d => d = maxOf f as := by
  induction n with
  | zero => exact fun s => measured_pure rfl
  | succ n ih =>
    intro s
    refine measured_bind (hp s) fun a t d _ hd => measured_bind (ih t) fun as u d' _ hd' =>
      measured_pure ?_
    rw [Nat.max_zero, maxOf_cons, hd, hd']

variable {tgt : Target} {size chunkLen : ℕ} {decodeChunk : ℕ → DecodeM (List α)}

theorem measured_chunkLoop
    (hchunk : ∀ n s, Measured (decodeChunk n) s N fun as d => d = maxOf f as) (fuel : ℕ) :
    ∀ n s, Measured (chunkLoop tgt size chunkLen decodeChunk fuel n) s N
      fun as d => d = maxOf f as := by
  induction fuel with
  | zero =>
    intro n s
    cases n with
    | zero => exact measured_pure rfl
    | succ n =>
      exact Flat.measured (flat_of_no_call fun _ => rfl)
        fun as s' h => absurd h not_decodes_outOfFuel
  | succ fuel ih =>
    intro n s
    cases n with
    | zero => exact measured_pure rfl
    | succ n =>
      rw [chunkLoop]
      refine (flat_onBeforeAllocMem _).measured_bind fun _ t _ =>
        (flat_allocate _).measured_bind fun _ u _ =>
        measured_bind (hchunk _ u) fun as v d _ hd => measured_bind (ih _ v) fun bs w d' _ hd' =>
        measured_pure ?_
      rw [Nat.max_zero, maxOf_append, hd, hd']

theorem measured_decodeVecChunked (tgt : Target) (size : ℕ)
    (hchunk : ∀ n s, Measured (decodeChunk n) s N fun as d => d = maxOf f as) (n : ℕ)
    (s : List Byte) :
    Measured (decodeVecChunked tgt size decodeChunk n) s N fun as d => d = maxOf f as :=
  measured_chunkLoop hchunk n n s

/-- Items that are decoded one by one are one level deeper than the vector. -/
theorem measured_decodeVecFromItems {I : Decode α}
    (hI : ∀ s, Measured I.decode s N fun a d => d = f a) (n : ℕ) (s : List Byte) :
    Measured (decodeVecFromItems tgt I n) s (N + 1) fun as d => d = maxOf f as + 1 := by
  refine measured_nested ?_
  simp only [Nat.add_right_cancel_iff]
  exact measured_decodeVecChunked tgt I.size (measured_replicateM hI) n s

/-- Items that are read all at once have no level. -/
theorem measured_readVecFromU8s {q : Prim} (e : q.Val ≃ α) (n : ℕ) (s : List Byte) :
    Measured (readVecFromU8s tgt e n) s N fun _ d => d = 0 := by
  unfold readVecFromU8s
  split_ifs
  · exact (flat_throw _).measured fun _ _ _ => rfl
  · refine (flat_checkRemaining _).measured_bind fun _ t _ => ?_
    have hchunk : ∀ n s, Measured
        ((fun buf => (valuesOf q n buf.toList).map e) <$> DecodeM.read (n * q.size)) s N
        fun as d => d = maxOf (fun _ => 0) as := fun n s =>
      measured_map ((flat_read _).measured fun _ _ _ => (maxOf_zero _).symm)
    have hvec := measured_decodeVecChunked tgt q.size hchunk n t
    simpa only [maxOf_zero] using hvec

end Items

/-! ## The largest depth limit -/

section Limit

variable {r : Except Error α} {rest : List Byte} {l : ℕ}

/-- A run that stays within a limit of at most `u32::MAX` is the plain run. -/
theorem run_depthTracking_of_deepest_le {D : Discipline} {g : Track}
    {q : Prog inputInterface Halt (Except Error α)} (hD : ∀ d, D.depthOk d)
    (hq : q.Meets D.contract D.halts (D.returns d) g) {x : DepthTrackingInput}
    (hg : g.depth ≤ x.depth) (hmax : x.maxDepth ≤ u32Max)
    (hdeep : deepest x.depth (q.trace sliceInput s) ≤ x.maxDepth)
    (hrun : q.run sliceInput s = .ok (r, rest)) :
    ∃ y, q.run (depthTracking.over sliceInput) (x, s) = .ok (r, (y, rest)) := by
  induction q generalizing g x s with
  | ret b =>
    cases hrun
    exact ⟨x, rfl⟩
  | halt e => cases hrun
  | call c k ih =>
    let I : InputStack ⟨.w64, true⟩ (DepthTrackingInput × List Byte) := .depth .slice
    have hbytes := Discipline.ne_scaleInternalDecodeBytes hq.1
    obtain ⟨a, s₁, hc⟩ := exists_sliceInput hbytes s
    rw [run_call hc] at hrun
    rw [trace_call hc, deepest, max_le_iff] at hdeep
    have hnext : depthAfter x.depth c ≤ x.maxDepth := (le_deepest _ _).trans hdeep.2
    have hsafe : ∀ t ∈ I.layers (x, s), t.Safe c := by
      refine List.forall_mem_singleton.mpr ⟨?_, ?_⟩
      · rintro rfl
        exact (Nat.lt_of_succ_le (hnext.trans hmax)).ne
      · rintro rfl
        exact (Nat.lt_of_lt_of_le hq.1 hg).ne'
    have hacc : ∀ t ∈ I.layers (x, s), t.Accepts c := by
      refine List.forall_mem_singleton.mpr ?_
      rintro rfl
      exact hnext
    obtain ⟨⟨y, _⟩, hy, hlayers, rfl⟩ := InputStack.input_of_accepts (I := I) (x := (x, s)) hbytes
      hc hsafe hacc
    obtain rfl : y = { x with depth := depthAfter x.depth c } := by
      cases hlayers
      rfl
    obtain ⟨g', hpost, hg'⟩ := exists_post_sliceInput hD hc
    have hle : g'.depth ≤ depthAfter x.depth c := by
      rw [hg']
      cases c <;> simp only [depthAfter] <;> omega
    obtain ⟨z, hz⟩ := ih a (x := { x with depth := depthAfter x.depth c }) (hq.2 a g' hpost) hle
      hmax hdeep.2 hrun
    exact ⟨z, (run_call hy k).trans hz⟩

/-- The limit is met or not, and decides, for every limit where the depth is bounded. -/
theorem runSlice_limited_of_depthReached_le (hl : l ≤ u32Max)
    (hdepth : l = u32Max → depthReached p s ≤ u32Max) {haltOk : Halt → Prop}
    (hp : Obeys (Discipline.anyDepth haltOk) 0 p) (hrun : runSlice p s = .ok (r, rest)) :
    (depthReached p s ≤ l ∧ runSlice (decodeWithDepthLimit l p) s = .ok (r, rest)) ∨
      l < depthReached p s ∧
        ∃ e rest', runSlice (decodeWithDepthLimit l p) s = .ok (.error e, rest') := by
  rcases hl.lt_or_eq with hlt | rfl
  · exact runSlice_limited hlt hp hrun
  · have hdepth := hdepth rfl
    refine .inl ⟨hdepth, ?_⟩
    obtain ⟨y, hy⟩ := run_depthTracking_of_deepest_le (x := ⟨0, u32Max⟩) (fun _ => trivial) hp
      le_rfl le_rfl hdepth hrun
    rw [runSlice_decodeWithDepthLimit, hy]
    rfl

end Limit

end ScaleCodec
