import ScaleCodec.Trackers

/-!
# Runs under limits

A decoder run on an `InputStack` and the same decoder run on the slice at its bottom are in step,
each tracker having seen the calls made so far, until a tracker refuses a call. From there on the
decoder only ascends, and returns an error (`InputStack.run_cases`). So a stack accepts what the
plain decoder accepts iff each of its trackers accepts the calls of the plain run, whatever the
trackers are and whatever order they stand in (`InputStack.returns_iff`).
-/

namespace ScaleCodec

open Prog

/-- References entered and not left after a call. -/
def depthAfter (n : ℕ) : InputCall → ℕ
  | .descendRef => n + 1
  | .ascendRef => n - 1
  | _ => n

/-! ## Trackers -/

/-- A limiting input, without the input it wraps. -/
inductive Tracker (tgt : Target) where
  | mem (t : MemTrackingInput tgt)
  | depth (t : DepthTrackingInput)

namespace Tracker

variable {tgt : Target} {n : ℕ} {c : InputCall} {t : Tracker tgt}

/-- The tracker after a call. -/
def next (c : InputCall) : Tracker tgt → Tracker tgt
  | mem t =>
    match c with
    | .onBeforeAllocMem size => mem (t.use size)
    | _ => mem t
  | depth t => depth { t with depth := depthAfter t.depth c }

/-- The call is within the limit. -/
def Accepts (c : InputCall) : Tracker tgt → Prop
  | mem t => ∀ size, c = .onBeforeAllocMem size → (t.use size).usedMem < t.memLimit
  | depth t => c = .descendRef → t.depth < t.maxDepth

/-- The tracker does not panic. -/
def Safe (c : InputCall) : Tracker tgt → Prop
  | mem _ => True
  | depth t => (c = .descendRef → t.depth ≠ u32Max) ∧ (c = .ascendRef → t.depth ≠ 0)

/-- At least `n` references have been entered and not left. -/
def DepthAtLeast (n : ℕ) : Tracker tgt → Prop
  | mem _ => True
  | depth t => n ≤ t.depth

/-- No more references than its limit allows have been entered, which is less than `u32::MAX`. -/
def WithinLimit : Tracker tgt → Prop
  | mem _ => True
  | depth t => t.depth ≤ t.maxDepth ∧ t.maxDepth < u32Max

/-- The memory it counts. -/
def usedMem : Tracker tgt → ℕ
  | mem t => t.usedMem
  | depth _ => 0

/-- The tracker after the calls. -/
def after (t : Tracker tgt) (calls : List InputCall) : Tracker tgt :=
  calls.foldl (fun t c => t.next c) t

/-- All the calls are within the limit. -/
def AcceptsAll : Tracker tgt → List InputCall → Prop
  | _, [] => True
  | t, c :: calls => t.Accepts c ∧ (t.next c).AcceptsAll calls

theorem safe_of_withinLimit (h : t.WithinLimit) (hc : c ≠ .ascendRef) : t.Safe c := by
  cases t with
  | mem t => trivial
  | depth t => exact ⟨fun _ => (h.1.trans_lt h.2).ne, fun h => absurd h hc⟩

theorem safe_ascendRef (hn : 0 < n) (h : t.DepthAtLeast n) : t.Safe .ascendRef := by
  cases t with
  | mem t => trivial
  | depth t => exact ⟨(fun h => nomatch h), fun _ => (hn.trans_le h).ne'⟩

theorem depthAtLeast_next (h : t.DepthAtLeast n) : (t.next c).DepthAtLeast (depthAfter n c) := by
  cases t with
  | mem t => cases c <;> trivial
  | depth t =>
    cases c with
    | descendRef => exact Nat.succ_le_succ h
    | ascendRef => exact Nat.sub_le_sub_right h 1
    | _ => exact h

theorem withinLimit_next (h : t.WithinLimit) (hc : t.Accepts c) : (t.next c).WithinLimit := by
  cases t with
  | mem t => cases c <;> trivial
  | depth t =>
    cases c with
    | descendRef => exact ⟨hc rfl, h.2⟩
    | ascendRef => exact ⟨(Nat.sub_le _ _).trans h.1, h.2⟩
    | _ => exact h

end Tracker

/-! ## Calls on a stack -/

namespace InputStack

variable {tgt : Target} {σ : Type} {I : InputStack tgt σ} {x : σ} {c : InputCall} {a : c.Reply}
  {s' : List Byte}

/-- The trackers, outermost first. -/
def layers {σ : Type} : InputStack tgt σ → σ → List (Tracker tgt)
  | slice, _ => []
  | mem inner, x => .mem x.1 :: inner.layers x.2
  | depth inner, x => .depth x.1 :: inner.layers x.2

/-- The unread bytes. -/
def bytes {σ : Type} : InputStack tgt σ → σ → List Byte
  | slice, s => s
  | mem inner, x => inner.bytes x.2
  | depth inner, x => inner.bytes x.2

/-- A call every tracker accepts is answered as the slice answers it. -/
theorem input_of_accepts (hbytes : c ≠ .scaleInternalDecodeBytes)
    (hc : sliceInput c (I.bytes x) = .ok (a, s')) (hsafe : ∀ t ∈ I.layers x, t.Safe c)
    (hacc : ∀ t ∈ I.layers x, t.Accepts c) :
    ∃ y, I.input c x = .ok (a, y) ∧ I.layers y = (I.layers x).map (Tracker.next c) ∧
      I.bytes y = s' := by
  induction I with
  | slice => exact ⟨s', hc, rfl, rfl⟩
  | mem inner ih =>
    obtain ⟨t, x⟩ := x
    obtain ⟨ht, hacc⟩ := List.forall_mem_cons.mp hacc
    obtain ⟨y, hin, hy, hs'⟩ := ih hc (List.forall_mem_cons.mp hsafe).2 hacc
    cases c with
    | onBeforeAllocMem size =>
      cases hc
      refine ⟨(t.use size, y), (memTracking_over_alloc hin).trans ?_, ?_, hs'⟩
      · rw [if_neg (not_le.mpr (ht size rfl))]
      · exact congrArg (Tracker.mem (t.use size) :: ·) hy
    | scaleInternalDecodeBytes => exact absurd rfl hbytes
    | _ =>
      exact ⟨(t, y), over_eq_ok (run_call hin _), congrArg (Tracker.mem t :: ·) hy, hs'⟩
  | depth inner ih =>
    obtain ⟨t, x⟩ := x
    obtain ⟨ht, hacc⟩ := List.forall_mem_cons.mp hacc
    obtain ⟨hts, hsafe⟩ := List.forall_mem_cons.mp hsafe
    obtain ⟨y, hin, hy, hs'⟩ := ih hc hsafe hacc
    refine ⟨({ t with depth := depthAfter t.depth c }, y), ?_, congrArg (_ :: ·) hy, hs'⟩
    cases c with
    | descendRef =>
      cases hc
      refine (depthTracking_descendRef hin (hts.1 rfl)).trans ?_
      rw [if_neg (not_lt.mpr (Nat.succ_le_of_lt (ht rfl)))]
      rfl
    | ascendRef => exact depthTracking_ascendRef hin (hts.2 rfl)
    | scaleInternalDecodeBytes => exact absurd rfl hbytes
    | _ => exact over_eq_ok (run_call hin _)

/-- A call some tracker does not accept fails, and no reference is left. -/
theorem input_of_not_accepts {n : ℕ} (hbytes : c ≠ .scaleInternalDecodeBytes)
    (hc : sliceInput c (I.bytes x) = .ok (a, s')) (hsafe : ∀ t ∈ I.layers x, t.Safe c)
    (hdepth : ∀ t ∈ I.layers x, t.DepthAtLeast n) (hacc : ¬∀ t ∈ I.layers x, t.Accepts c) :
    ∃ r e y, I.input c x = .ok (r, y) ∧ c.error r = some e ∧
      ∀ t ∈ I.layers y, t.DepthAtLeast n := by
  induction I with
  | slice => exact absurd (fun _ ht => by cases ht) hacc
  | mem inner ih =>
    obtain ⟨t, x⟩ := x
    have hsafe := (List.forall_mem_cons.mp hsafe).2
    have hdepth : ∀ t ∈ inner.layers x, t.DepthAtLeast n := (List.forall_mem_cons.mp hdepth).2
    by_cases hin : ∀ t ∈ inner.layers x, t.Accepts c
    · obtain ⟨y, hy, hlayers, -⟩ := input_of_accepts (I := inner) hbytes hc hsafe hin
      have ht : ¬Tracker.Accepts c (.mem t) := fun ht => hacc (List.forall_mem_cons.mpr ⟨ht, hin⟩)
      unfold Tracker.Accepts at ht
      push Not at ht
      obtain ⟨size, rfl, hlim⟩ := ht
      cases hc
      refine ⟨.error (.desc decodeOomMsg), _, (t.use size, y), ?_, rfl, ?_⟩
      · exact (memTracking_over_alloc hy).trans (by rw [if_pos hlim])
      · refine List.forall_mem_cons.mpr ⟨trivial, ?_⟩
        rw [hlayers, List.forall_mem_map]
        exact fun t ht => Tracker.depthAtLeast_next (hdepth t ht)
    · obtain ⟨r, e, y, hy, he, hlayers⟩ := ih hc hsafe hdepth hin
      have hlayers : ∀ t' ∈ (mem inner).layers (t, y), t'.DepthAtLeast n :=
        List.forall_mem_cons.mpr ⟨trivial, hlayers⟩
      cases c with
      | onBeforeAllocMem size =>
        cases r with
        | ok u => cases he
        | error e' => exact ⟨.error e', e, (t, y), memTracking_over_alloc hy, he, hlayers⟩
      | scaleInternalDecodeBytes => exact absurd rfl hbytes
      | _ => exact ⟨r, e, (t, y), over_eq_ok (run_call hy _), he, hlayers⟩
  | depth inner ih =>
    obtain ⟨t, x⟩ := x
    obtain ⟨hts, hsafe⟩ := List.forall_mem_cons.mp hsafe
    obtain ⟨htd, hdepth⟩ : n ≤ t.depth ∧ ∀ t ∈ inner.layers x, t.DepthAtLeast n :=
      List.forall_mem_cons.mp hdepth
    by_cases hin : ∀ t ∈ inner.layers x, t.Accepts c
    · obtain ⟨y, hy, hlayers, -⟩ := input_of_accepts (I := inner) hbytes hc hsafe hin
      have ht : ¬(Tracker.depth t : Tracker tgt).Accepts c := fun ht =>
        hacc (List.forall_mem_cons.mpr ⟨ht, hin⟩)
      unfold Tracker.Accepts at ht
      push Not at ht
      obtain ⟨rfl, hlim⟩ := ht
      cases hc
      refine ⟨.error (.desc decodeMaxDepthMsg), _, ({ t with depth := t.depth + 1 }, y), ?_, rfl,
        List.forall_mem_cons.mpr ⟨Nat.le_succ_of_le htd, ?_⟩⟩
      · exact (depthTracking_descendRef hy (hts.1 rfl)).trans
          (by rw [if_pos (Nat.lt_succ_of_le hlim)])
      · rw [hlayers, List.forall_mem_map]
        intro t ht
        cases t with
        | mem t => trivial
        | depth t => exact Nat.le_succ_of_le (hdepth _ ht)
    · obtain ⟨r, e, y, hy, he, hlayers⟩ := ih hc hsafe hdepth hin
      have hlayers : ∀ t' ∈ (depth inner).layers (t, y), t'.DepthAtLeast n :=
        List.forall_mem_cons.mpr ⟨htd, hlayers⟩
      cases c with
      | descendRef =>
        cases r with
        | ok u => cases he
        | error e' =>
          have hw : (depthTracking .descendRef t).run inner.input x = _ := run_call hy _
          exact ⟨.error e', e, (t, y), over_eq_ok hw, he, hlayers⟩
      | ascendRef => cases he
      | scaleInternalDecodeBytes => exact absurd rfl hbytes
      | _ => exact ⟨r, e, (t, y), over_eq_ok (run_call hy _), he, hlayers⟩

end InputStack

/-! ## Runs on a stack -/

section Runs

variable {α : Type} {D : Discipline} {d : ℕ} {g : Track}
  {p : Prog inputInterface Halt (Except Error α)} {r : Except Error α}

theorem Discipline.ne_scaleInternalDecodeBytes {c : InputCall} (h : D.contract.pre c g) :
    c ≠ .scaleInternalDecodeBytes := by
  rintro rfl
  exact h

/-- A failed call is recorded, and changes nothing else. -/
theorem Discipline.post_of_error {c : InputCall} {a : c.Reply} {e : Error}
    (he : c.error a = some e) : D.contract.post c g a { g with failed := some e.root } := by
  cases c with
  | ascendRef => cases he
  | allocate size => cases he
  | _ =>
    cases a with
    | ok u => cases he
    | error e' =>
      cases he
      rfl

/-- What a slice replies counts the references as a depth tracker does. -/
theorem exists_post_sliceInput (hD : ∀ d, D.depthOk d) {c : InputCall} {a : c.Reply}
    {s s' : List Byte} (hc : sliceInput c s = .ok (a, s')) :
    ∃ g', D.contract.post c g a g' ∧ g'.depth = depthAfter g.depth c := by
  cases c with
  | descendRef =>
    cases hc
    exact ⟨_, ⟨hD _, rfl⟩, rfl⟩
  | ascendRef => exact ⟨_, rfl, rfl⟩
  | allocate size => exact ⟨_, rfl, rfl⟩
  | scaleInternalDecodeBytes => cases hc
  | _ =>
    refine ⟨_, rfl, ?_⟩
    cases a <;> rfl

namespace InputStack

variable {tgt : Target} {σ : Type} {I : InputStack tgt σ} {x : σ} {rest : List Byte}

/-- After a failed call the decoder returns an error. -/
theorem run_failed (hp : p.Meets D.contract D.halts (D.returns d) g) {root : String}
    (hg : g.failed = some root) (hx : ∀ t ∈ I.layers x, t.DepthAtLeast g.depth) :
    ∃ e y, p.run I.input x = .ok (.error e, y) := by
  have hkeeps : I.input.Keeps D.contract fun g x =>
      g.failed = some root ∧ ∀ t ∈ I.layers x, t.DepthAtLeast g.depth := by
    rintro c g x hpre ⟨hfailed, hdepth⟩
    cases c with
    | ascendRef =>
      obtain ⟨y, hy, hlayers, -⟩ := input_of_accepts (by simp) rfl
        (fun t ht => Tracker.safe_ascendRef hpre (hdepth t ht)) fun t _ => by
          cases t <;> simp [Tracker.Accepts]
      refine ⟨(), y, _, hy, rfl, hfailed, ?_⟩
      rw [hlayers, List.forall_mem_map]
      exact fun t ht => Tracker.depthAtLeast_next (hdepth t ht)
    | scaleInternalDecodeBytes => exact hpre.elim
    | _ => cases hfailed.symm.trans hpre
  rcases run_of_meets hkeeps hp ⟨hg, hx⟩ with
    ⟨r, y, g', hrun, hr, hg', _⟩ | ⟨_, _, g', _, hhalts, hg', _⟩
  · obtain ⟨e, rfl, _⟩ := hr.exists_error hg'
    exact ⟨e, y, hrun⟩
  · cases hg'.symm.trans hhalts.1

/-- A run every tracker accepts the calls of is the plain run, and any other fails. -/
theorem run_cases (hD : ∀ d, D.depthOk d) (hp : p.Meets D.contract D.halts (D.returns d) g)
    (hlim : ∀ t ∈ I.layers x, t.WithinLimit) (hdepth : ∀ t ∈ I.layers x, t.DepthAtLeast g.depth)
    (hrun : p.run sliceInput (I.bytes x) = .ok (r, rest)) :
    let calls := p.trace sliceInput (I.bytes x)
    ((∀ t ∈ I.layers x, t.AcceptsAll calls) ∧ ∃ y, p.run I.input x = .ok (r, y) ∧
      I.layers y = (I.layers x).map (Tracker.after · calls) ∧ I.bytes y = rest) ∨
    (¬∀ t ∈ I.layers x, t.AcceptsAll calls) ∧ ∃ e y, p.run I.input x = .ok (.error e, y) := by
  dsimp only
  induction p generalizing g x with
  | ret b =>
    cases hrun
    exact Or.inl ⟨fun _ _ => trivial, x, rfl, (List.map_id _).symm, rfl⟩
  | halt e => cases hrun
  | call c k ih =>
    have hbytes := Discipline.ne_scaleInternalDecodeBytes hp.1
    obtain ⟨a, s₁, hc⟩ := exists_sliceInput hbytes (I.bytes x)
    rw [run_call hc] at hrun
    rw [trace_call hc]
    have hsafe : ∀ t ∈ I.layers x, t.Safe c := by
      intro t ht
      by_cases hasc : c = .ascendRef
      · subst hasc
        exact Tracker.safe_ascendRef hp.1 (hdepth t ht)
      · exact Tracker.safe_of_withinLimit (hlim t ht) hasc
    by_cases hacc : ∀ t ∈ I.layers x, t.Accepts c
    · obtain ⟨y, hy, hlayers, rfl⟩ := input_of_accepts hbytes hc hsafe hacc
      obtain ⟨g', hpost, hg'⟩ := exists_post_sliceInput hD hc
      have hall : (∀ t ∈ I.layers y, t.AcceptsAll ((k a).trace sliceInput (I.bytes y))) ↔
          ∀ t ∈ I.layers x, t.AcceptsAll (c :: (k a).trace sliceInput (I.bytes y)) := by
        rw [hlayers, List.forall_mem_map]
        exact forall₂_congr fun t ht => (and_iff_right (hacc t ht)).symm
      rw [← hall, run_call hy]
      refine (ih a (hp.2 a g' hpost) ?_ ?_ hrun).imp_left fun ⟨h, z, hz, hlz, hrest⟩ =>
        ⟨h, z, hz, ?_, hrest⟩
      · rw [hlayers, List.forall_mem_map]
        exact fun t ht => Tracker.withinLimit_next (hlim t ht) (hacc t ht)
      · rw [hlayers, List.forall_mem_map, hg']
        exact fun t ht => Tracker.depthAtLeast_next (hdepth t ht)
      · rw [hlz, hlayers, List.map_map]
        rfl
    · refine Or.inr ⟨fun h => hacc fun t ht => (h t ht).1, ?_⟩
      obtain ⟨b, e, y, hy, he, hlayers⟩ := input_of_not_accepts hbytes hc hsafe hdepth hacc
      rw [run_call hy]
      exact run_failed (hp.2 b _ (Discipline.post_of_error he)) rfl hlayers

/-- Through the stack, `p` returns `Ok(v)`, and leaves `rest` unread and `used` bytes of memory
counted. -/
def Returns (I : InputStack tgt σ) (x : σ) (p : DecodeM α) (v : α) (rest : List Byte) (used : ℕ) :
    Prop :=
  ∃ y, p.run.run I.input x = .ok (.ok v, y) ∧ I.bytes y = rest ∧ I.usedMem y = used

theorem usedMem_eq_sum (I : InputStack tgt σ) (x : σ) :
    I.usedMem x = ((I.layers x).map Tracker.usedMem).sum := by
  induction I with
  | slice => rfl
  | mem inner ih => exact (usedMem_mem inner x).trans (congrArg (x.1.usedMem + ·) (ih x.2))
  | depth inner ih => exact (ih x.2).trans (Nat.zero_add _).symm

/-- What a stack accepts is what the plain decoder accepts by calls that every tracker accepts. -/
theorem returns_iff {p : DecodeM α} (hD : ∀ d, D.depthOk d) (hp : Obeys D d p)
    (hlim : ∀ t ∈ I.layers x, t.WithinLimit) (hdepth : ∀ t ∈ I.layers x, t.DepthAtLeast d)
    {s : List Byte} (hs : I.bytes x = s) (hrun : runSlice p s = .ok (r, rest)) {v : α}
    {rest' : List Byte} {used : ℕ} :
    I.Returns x p v rest' used ↔ (r = .ok v ∧ rest = rest') ∧
      (∀ t ∈ I.layers x, t.AcceptsAll (p.run.trace sliceInput s)) ∧
      ((I.layers x).map fun t => (t.after (p.run.trace sliceInput s)).usedMem).sum = used := by
  subst hs
  unfold Returns
  rcases run_cases hD hp hlim hdepth hrun with ⟨hall, y, hy, hlayers, rfl⟩ | ⟨hall, e, y, hy⟩
  · have hused : I.usedMem y = ((I.layers x).map fun t =>
        (t.after (p.run.trace sliceInput (I.bytes x))).usedMem).sum := by
      rw [usedMem_eq_sum, hlayers, List.map_map]
      rfl
    rw [hy, ← hused]
    constructor
    · rintro ⟨_, h, rfl, rfl⟩
      cases h
      exact ⟨⟨rfl, rfl⟩, hall, rfl⟩
    · rintro ⟨⟨rfl, rfl⟩, -, rfl⟩
      exact ⟨y, rfl, rfl, rfl⟩
  · rw [hy]
    refine iff_of_false ?_ fun h => hall h.2.1
    rintro ⟨_, h, -⟩
    cases h

end InputStack

end Runs

end ScaleCodec
