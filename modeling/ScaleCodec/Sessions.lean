import ScaleCodec.Declared
import ScaleCodec.MemLimit

/-!
# Several limits, several values

The limits of `MemTrackingInput` and `DepthTrackingInput` are kept in the input, and any number of
such inputs may be put around each other. What a stack of them accepts is what each of its trackers
accepts alone, so their order does not matter (`TypeDefs.limits_commute`). The trackers may have
been used before, and values decoded one after the other are decoded as a tuple is, so this holds of
a row of values that spend the limits together.

A memory tracker that has refused an allocation refuses all later ones : whatever is decoded through
it afterwards takes no memory (`TypeDefs.refusal_final`).
-/

namespace ScaleCodec

open Prog

variable {ι : Type} {ν : ι → Type} {α β σ : Type}

theorem TypeDefs.decode_obeys {P : Platform ν} {Δ : TypeDefs ν} (hΔ : Δ.Compiles P) {t : Ty ν α}
    (hc : t.Compiles P) (n : ℕ) :
    Obeys (Discipline.anyDepth fun _ => True) 0 (Δ.decode P n t).decode :=
  (TypeDefs.decodeWith_obeys obeys_decodeBytes hΔ (Δ.errorsIn_of_forall fun _ => trivial) trivial hc
    (t.errorsIn_of_forall fun _ => trivial)).decode

/-! ## Trackers apart and together -/

section Stacks

variable {tgt : Target}

/-- Through the tracker alone, around the slice `s`, `p` returns `Ok(v)` and leaves `rest`. -/
def Tracker.Returns (s : List Byte) (p : DecodeM α) (v : α) (rest : List Byte) :
    Tracker tgt → Prop
  | mem t => ∃ used, (InputStack.mem .slice).Returns (t, s) p v rest used
  | depth t => ∃ used, (.depth .slice : InputStack tgt _).Returns (t, s) p v rest used

variable {p : DecodeM α} {s rest rest' : List Byte} {r : Except Error α} {v : α}

theorem Tracker.depthAtLeast_zero (t : Tracker tgt) : t.DepthAtLeast 0 := by
  cases t with
  | mem t => trivial
  | depth t => exact Nat.zero_le _

theorem Tracker.returns_iff (hp : Obeys (Discipline.anyDepth fun _ => True) 0 p) {t : Tracker tgt}
    (ht : t.WithinLimit) (hrun : runSlice p s = .ok (r, rest)) :
    t.Returns s p v rest' ↔ (r = .ok v ∧ rest = rest') ∧
      t.AcceptsAll (p.run.trace sliceInput s) := by
  have honly : ∀ u ∈ [t], u.WithinLimit := by simpa using ht
  have hdepth : ∀ u ∈ [t], u.DepthAtLeast 0 := fun u _ => u.depthAtLeast_zero
  have hiff : t.Returns s p v rest' ↔ ∃ used, (r = .ok v ∧ rest = rest') ∧
      (∀ u ∈ [t], u.AcceptsAll (p.run.trace sliceInput s)) ∧
      ([t].map fun u => (u.after (p.run.trace sliceInput s)).usedMem).sum = used := by
    cases t with
    | mem t =>
      exact exists_congr fun used => InputStack.returns_iff (I := .mem .slice) (x := (t, s))
        (fun _ => trivial) hp honly hdepth rfl hrun
    | depth t =>
      exact exists_congr fun used => InputStack.returns_iff (I := .depth .slice) (x := (t, s))
        (fun _ => trivial) hp honly hdepth rfl hrun
  rw [hiff]
  simp

end Stacks

/-- What a stack of limits accepts is what each of them accepts alone, and they may be put around
each other in any order. -/
theorem TypeDefs.limits_commute {P : Platform ν} {Δ : TypeDefs ν} (hΔ : Δ.Compiles P) {t : Ty ν α}
    (hc : t.Compiles P) {n : ℕ} {s rest₀ : List Byte} {r : Except Error α}
    (hrun : runSlice (Δ.decode P n t).decode s = .ok (r, rest₀)) {tgt : Target}
    {I : InputStack tgt σ} {x : σ} (hx : I.bytes x = s) (hlim : ∀ l ∈ I.layers x, l.WithinLimit) :
    let p := (Δ.decode P n t).decode
    (∀ v rest, (∃ used, I.Returns x p v rest used) ↔
      Decodes p s v rest ∧ ∀ l ∈ I.layers x, l.Returns s p v rest) ∧
    ∀ {τ : Type} (J : InputStack tgt τ) (y : τ), J.bytes y = s →
      (J.layers y).Perm (I.layers x) → ∀ v rest used,
        J.Returns y p v rest used ↔ I.Returns x p v rest used := by
  intro p
  have hobeys := decode_obeys hΔ hc n
  have hiff : ∀ {τ : Type} (J : InputStack tgt τ) (y : τ), J.bytes y = s →
      (∀ l ∈ J.layers y, l.WithinLimit) → ∀ v rest used, J.Returns y p v rest used ↔ _ :=
    fun J y hy hJ v rest used => InputStack.returns_iff (fun _ => trivial) hobeys hJ
      (fun l _ => l.depthAtLeast_zero) hy hrun
  refine ⟨fun v rest => ?_, fun J y hy hperm v rest used => ?_⟩
  · simp only [hiff I x hx hlim]
    constructor
    · rintro ⟨_, ⟨rfl, rfl⟩, hacc, -⟩
      exact ⟨hrun, fun l hl => (Tracker.returns_iff hobeys (hlim l hl) hrun).mpr
        ⟨⟨rfl, rfl⟩, hacc l hl⟩⟩
    · rintro ⟨hdec, hall⟩
      obtain ⟨rfl, rfl⟩ : r = .ok v ∧ rest₀ = rest := by
        rw [Decodes, hrun] at hdec
        cases hdec
        exact ⟨rfl, rfl⟩
      exact ⟨_, ⟨rfl, rfl⟩, fun l hl =>
        ((Tracker.returns_iff hobeys (hlim l hl) hrun).mp (hall l hl)).2, rfl⟩
  · have hJ : ∀ l ∈ J.layers y, l.WithinLimit := fun l hl => hlim l (hperm.subset hl)
    rw [hiff J y hy hJ, hiff I x hx hlim]
    have hmem : (∀ l ∈ J.layers y, l.AcceptsAll (p.run.trace sliceInput s)) ↔
        ∀ l ∈ I.layers x, l.AcceptsAll (p.run.trace sliceInput s) :=
      forall_congr' fun l => by rw [hperm.mem_iff]
    have hsum : ((J.layers y).map fun l =>
        (l.after (p.run.trace sliceInput s)).usedMem).sum =
        ((I.layers x).map fun l => (l.after (p.run.trace sliceInput s)).usedMem).sum :=
      (hperm.map _).sum_eq
    rw [hmem, hsum]

/-- A box through a memory limit between two depth limits, or inside both of them. -/
theorem TypeDefs.limits_commute_box :
    let P := Platform.unpadded Empty.elim
    let Δ : TypeDefs Empty.elim := fun i => nomatch i
    let p := (Δ.decode P 0 (.box (.prim .u8))).decode
    let m : MemTrackingInput P.target := .new ⟨5, by decide⟩
    ∃ used, (InputStack.depth (.mem (.depth .slice))).Returns (⟨0, 1⟩, (m, (⟨2, 4⟩, [7, 9]))) p 7
        [9] used ∧
      (InputStack.depth (.depth (.mem .slice))).Returns (⟨2, 4⟩, (⟨0, 1⟩, (m, [7, 9]))) p 7 [9]
        used := by
  intro P Δ p m
  let outer : Tracker P.target := .depth ⟨0, 1⟩
  let inner : Tracker P.target := .depth ⟨2, 4⟩
  have hlim : ∀ l ∈ [outer, .mem m, inner], l.WithinLimit := by
    simp [outer, inner, Tracker.WithinLimit, u32Max]
  have hall : ∀ l ∈ [outer, .mem m, inner], l.Returns [7, 9] p 7 [9] := by
    simp only [List.mem_cons, List.not_mem_nil, or_false, forall_eq_or_imp, forall_eq]
    exact ⟨⟨0, _, rfl, rfl, rfl⟩, ⟨1, _, rfl, rfl, rfl⟩, ⟨0, _, rfl, rfl, rfl⟩⟩
  have hΔ : Δ.Compiles P := ⟨(fun i => nomatch i), (fun i => nomatch i), fun i => nomatch i⟩
  have hrun : Decodes p [7, 9] 7 [9] := rfl
  obtain ⟨halone, hperm⟩ := TypeDefs.limits_commute hΔ (t := .box (.prim .u8)) trivial hrun
    (I := .depth (.mem (.depth .slice))) (x := (⟨0, 1⟩, (m, (⟨2, 4⟩, [7, 9])))) rfl hlim
  obtain ⟨used, h⟩ := (halone 7 [9]).mpr ⟨hrun, hall⟩
  refine ⟨used, h, (hperm (.depth (.depth (.mem .slice))) _ rfl ?_ 7 [9] used).mpr h⟩
  show [inner, outer, .mem m].Perm [outer, .mem m, inner]
  exact (List.perm_append_comm : ([inner] ++ [outer, .mem m]).Perm ([outer, .mem m] ++ [inner]))

/-! ## Refused allocations -/

section Refused

variable {tgt : Target} {h : Handler inputInterface Halt σ} {D : Discipline} {d : ℕ} {g : Track}

/-- The limit has been reached. -/
def MemTrackingInput.Exhausted (t : MemTrackingInput tgt) : Prop :=
  t.memLimit ≤ t.usedMem

instance (t : MemTrackingInput tgt) : Decidable t.Exhausted :=
  inferInstanceAs (Decidable (t.memLimit ≤ t.usedMem))

/-- In the run of `p` the tracker refuses an allocation, which the input inside it does not. -/
def Refuses (h : Handler inputInterface Halt σ) (p : Prog inputInterface Halt α)
    (x : MemTrackingInput tgt × σ) : Prop :=
  ∃ size y s', (.onBeforeAllocMem size, y) ∈ p.callsAt ((memTracking tgt).over h) x ∧
    h (.onBeforeAllocMem size) y.2 = .ok (.ok (), s') ∧ (y.1.use size).Exhausted

/-- The reply to an announced allocation, and what the tracker becomes. -/
theorem memTracking_alloc_cases {size : ℕ} {x y : MemTrackingInput tgt × σ} {r : Except Error Unit}
    (hc : (memTracking tgt).over h (.onBeforeAllocMem size) x = .ok (r, y)) :
    (∃ e, r = .error e ∧ y.1 = x.1) ∨
      y.1 = x.1.use size ∧ ((x.1.use size).Exhausted → ∃ e, r = .error e) := by
  cases hs : h (.onBeforeAllocMem size) x.2 with
  | error e =>
    have hw : (memTracking tgt (.onBeforeAllocMem size) x.1).run h x.2 = _ := run_call_error hs _
    rw [show x = (x.1, x.2) from rfl, over_eq_error hw] at hc
    cases hc
  | ok z =>
    rw [show x = (x.1, x.2) from rfl, memTracking_over_alloc hs] at hc
    rcases z with ⟨_ | u, s'⟩
    · cases hc
      exact Or.inl ⟨_, rfl, rfl⟩
    · cases hc
      exact Or.inr ⟨rfl, fun hex => ⟨_, if_pos hex⟩⟩

/-- A tracker counts up, to the same limit. -/
theorem memTracking_grows {p : Prog inputInterface Halt α} {x y : MemTrackingInput tgt × σ} {a : α}
    (hrun : p.run ((memTracking tgt).over h) x = .ok (a, y)) :
    x.1.usedMem ≤ y.1.usedMem ∧ y.1.memLimit = x.1.memLimit := by
  let R (x y : MemTrackingInput tgt × σ) : Prop :=
    x.1.usedMem ≤ y.1.usedMem ∧ y.1.memLimit = x.1.memLimit
  have htrans : ∀ {x y z}, R x y → R y z → R x z := fun h₁ h₂ =>
    ⟨h₁.1.trans h₂.1, h₂.2.trans h₁.2⟩
  refine run_preserves (R := R) (fun _ => ⟨le_rfl, rfl⟩) htrans (fun c x r y hc => ?_) hrun
  show x.1.usedMem ≤ y.1.usedMem ∧ y.1.memLimit = x.1.memLimit
  rcases c.alloc_or_ne with ⟨size, rfl⟩ | hsize
  · rcases memTracking_alloc_cases hc with ⟨-, -, hy⟩ | ⟨hy, -⟩
    · rw [hy]
      exact ⟨le_rfl, rfl⟩
    · rw [hy]
      exact ⟨x.1.usedMem_le_use size, rfl⟩
  · rw [(memTracking_over_eq_ok hsize hc).1]
    exact ⟨le_rfl, rfl⟩

theorem MemTrackingInput.Exhausted.of_run {p : Prog inputInterface Halt α}
    {x y : MemTrackingInput tgt × σ} {a : α} (hx : x.1.Exhausted)
    (hrun : p.run ((memTracking tgt).over h) x = .ok (a, y)) : y.1.Exhausted := by
  obtain ⟨hused, hlimit⟩ := memTracking_grows hrun
  unfold Exhausted at *
  omega

/-- A refused allocation is counted all the same. -/
theorem Refuses.exhausted {p : Prog inputInterface Halt α} {x y : MemTrackingInput tgt × σ} {a : α}
    (hp : Refuses h p x) (hrun : p.run ((memTracking tgt).over h) x = .ok (a, y)) :
    y.1.Exhausted := by
  obtain ⟨size, z, s', hz, hs, hex⟩ := hp
  induction p generalizing x with
  | ret b => cases hz
  | halt e => cases hz
  | call c k ih =>
    obtain ⟨r, x', hc, hrest⟩ := run_call_eq_ok.mp hrun
    rcases mem_callsAt_call.mp hz with heq | ⟨r', x'', hc', hz⟩
    · cases heq
      refine MemTrackingInput.Exhausted.of_run ?_ hrest
      have hover := memTracking_over_alloc (t := z.1) hs
      cases hover.symm.trans hc
      exact hex
    · cases hc.symm.trans hc'
      exact ih r hrest hz

/-- A reply that is no failure lets a decoder go on. -/
theorem Discipline.exists_post_of_ok (hD : ∀ d, D.depthOk d) {c : InputCall} {r : c.Reply}
    (hbytes : c ≠ .scaleInternalDecodeBytes) (hr : c.error r = none) :
    ∃ g', D.contract.post c g r g' ∧ g'.failed = g.failed := by
  cases c with
  | ascendRef => exact ⟨_, rfl, rfl⟩
  | allocate _ => exact ⟨_, rfl, rfl⟩
  | scaleInternalDecodeBytes => exact absurd rfl hbytes
  | descendRef =>
    cases r with
    | ok u => exact ⟨_, ⟨hD _, rfl⟩, rfl⟩
    | error e => cases hr
  | _ =>
    cases r with
    | ok a => exact ⟨_, rfl, rfl⟩
    | error e => cases hr

/-- Beyond the limit a decoder succeeds only if it announces nothing. -/
theorem announces_nothing (hD : ∀ d, D.depthOk d)
    {p : Prog inputInterface Halt (Except Error α)}
    (hp : p.Meets D.contract D.halts (D.returns d) g) {x y : MemTrackingInput tgt × σ}
    (hx : x.1.Exhausted) {v : α} (hrun : p.run ((memTracking tgt).over h) x = .ok (.ok v, y)) :
    (∀ size, .onBeforeAllocMem size ∉ p.trace ((memTracking tgt).over h) x) ∧ y.1 = x.1 := by
  induction p generalizing g x with
  | ret b =>
    cases hrun
    exact ⟨fun size => List.not_mem_nil, rfl⟩
  | halt e => cases hrun
  | call c k ih =>
    obtain ⟨r, x', hc, hrun⟩ := run_call_eq_ok.mp hrun
    -- a failed call would be returned
    have hr : c.error r = none := by
      cases he : c.error r with
      | none => rfl
      | some e =>
        obtain ⟨_, h, -⟩ := returns_failed (hp.2 r _ (Discipline.post_of_error he)) rfl hrun
        cases h
    have hsize : ∀ size, c ≠ .onBeforeAllocMem size := by
      rintro size rfl
      have hex : (x.1.use size).Exhausted := le_trans hx (x.1.usedMem_le_use size)
      rcases memTracking_alloc_cases hc with ⟨e, rfl, -⟩ | ⟨-, h⟩
      · cases hr
      · obtain ⟨e, rfl⟩ := h hex
        cases hr
    obtain ⟨hx', -⟩ := memTracking_over_eq_ok hsize hc
    obtain ⟨g', hpost, -⟩ := Discipline.exists_post_of_ok hD
      (Discipline.ne_scaleInternalDecodeBytes hp.1) hr
    obtain ⟨hrest, hy⟩ := ih r (hp.2 r g' hpost) (by rwa [hx']) hrun
    refine ⟨fun size hmem => ?_, hy.trans hx'⟩
    rw [trace_call hc] at hmem
    rcases List.mem_cons.mp hmem with heq | hmem
    · exact hsize size heq.symm
    · exact hrest size hmem

end Refused

/-- Once a memory tracker has refused an allocation, in whatever was decoded through it, nothing
that takes memory is decoded through it any more. -/
theorem TypeDefs.refusal_final {P : Platform ν} {Δ : TypeDefs ν} (hΔ : Δ.Compiles P) {t : Ty ν α}
    (hc : t.Compiles P) (n : ℕ) {h : Handler inputInterface Halt σ} {p : DecodeM β}
    {x y z : MemTrackingInput P.target × σ} {r : Except Error β} {v : α}
    (hrefuses : Refuses h p.run x)
    (hfirst : p.run.run ((memTracking P.target).over h) x = .ok (r, y))
    (hthen : (Δ.decode P n t).decode.run.run ((memTracking P.target).over h) y = .ok (.ok v, z)) :
    (∀ size, .onBeforeAllocMem size ∉
      (Δ.decode P n t).decode.run.trace ((memTracking P.target).over h) y) ∧ z.1 = y.1 :=
  announces_nothing (fun _ => trivial) (decode_obeys hΔ hc n) (hrefuses.exhausted hfirst) hthen

/-- After a `Box<u8>` has been refused, a `u8` is decoded and nothing announced. -/
theorem TypeDefs.refusal_final_box :
    let P := Platform.unpadded Empty.elim
    let Δ : TypeDefs Empty.elim := fun i => nomatch i
    let p := (Δ.decode P 0 (.box (.prim .u8))).decode
    let q := (Δ.decode P 0 (.prim .u8)).decode
    let m : MemTrackingInput P.target := .new ⟨1, by decide⟩
    let h := (memTracking P.target).over sliceInput
    ∃ e y z, p.run.run h (m, [5, 6]) = .ok (.error e, y) ∧ q.run.run h y = .ok (.ok 5, z) ∧
      (∀ size, .onBeforeAllocMem size ∉ q.run.trace h y) ∧ z.1 = y.1 := by
  intro P Δ p q m h
  have hΔ : Δ.Compiles P := ⟨(fun i => nomatch i), (fun i => nomatch i), fun i => nomatch i⟩
  have hrefuses : Refuses sliceInput p.run (m, [5, 6]) :=
    ⟨1, (m, [5, 6]), [5, 6], List.mem_iff_getElem?.mpr ⟨1, rfl⟩, rfl, by decide⟩
  have hfirst : p.run.run h (m, [5, 6]) = .ok (.error (.desc decodeOomMsg), (m.use 1, [5, 6])) :=
    rfl
  have hthen : q.run.run h (m.use 1, [5, 6]) = .ok (.ok 5, (m.use 1, [6])) := rfl
  exact ⟨_, _, _, hfirst, hthen,
    TypeDefs.refusal_final hΔ (t := .prim .u8) trivial 0 hrefuses hfirst hthen⟩

end ScaleCodec
