import ScaleCodec.DepthLimit

/-!
# References are left as often as they are entered

A `DepthTrackingInput` counts up when a decoder descends and down when it ascends. The decoders
that return early do not ascend, and those of maps, sets and lists ascend also when an item has
failed, from whatever depth that was. The ghost depth of a decoder that obeys its obligations
(`Obeys`) bounds the counter from below on both paths and equals it as long as nothing has failed
(`Follows`), whatever the input below does (`depthTracking_respects`). So a decoder that returns
`Ok` has left all references it entered, one that returns `Err` no more than these, and the counter
is positive at every `ascend_ref` (`TypeDefs.depth_balanced`).
-/

namespace ScaleCodec

open Prog

variable {σ : Type} {h : Handler inputInterface Halt σ} {l : ℕ} {haltOk : Halt → Prop}

/-- The counter under the limit `l`, against the ghost depth : equal while no call has failed, and
at least as large afterwards. A refused descent is counted too. -/
structure Follows (l : ℕ) (g : Track) (t : DepthTrackingInput) : Prop where
  maxDepth : t.maxDepth = l
  le : g.depth ≤ t.depth
  eq : g.failed = none → t.depth = g.depth ∧ t.depth ≤ l

/-- A call that is passed on and does not change the ghost depth. -/
theorem Follows.after {α : Type} {g : Track} {t : DepthTrackingInput} (hg : Follows l g t)
    (r : Except Error α) : Follows l (g.after r) t := by
  cases r with
  | ok a => exact hg
  | error e => exact ⟨hg.maxDepth, hg.le, fun hfailed => by cases hfailed⟩

/-- Whatever the input below replies, the counter follows the ghost depth. -/
theorem depthTracking_respects (h : Handler inputInterface Halt σ) (hl : l < u32Max) :
    (depthTracking.over h).Respects (Discipline.anyDepth haltOk).contract
      fun g x => Follows l g x.1 := by
  rintro c g ⟨t, s⟩ r ⟨t', s'⟩ hpre hg hc
  have hg : Follows l g t := hg
  cases c with
  | scaleInternalDecodeBytes => exact hpre.elim
  | descendRef =>
    obtain ⟨heq, hle⟩ := hg.eq hpre
    obtain ⟨r', hin, hr⟩ := depthTracking_over_eq_ok hc
    cases r' with
    | error e =>
      have hw : (depthTracking .descendRef t).run h s = _ := run_call hin _
      cases (over_eq_ok hw).symm.trans hc
      exact ⟨_, rfl, hg.after (.error e : Except Error Unit)⟩
    | ok u =>
      have hover := depthTracking_descendRef (t := t) hin (by omega)
      by_cases hlim : t.depth + 1 > t.maxDepth
      · rw [if_pos hlim] at hover
        cases hover.symm.trans hc
        exact ⟨_, rfl, hg.maxDepth, Nat.le_succ_of_le hg.le, fun hfailed => by cases hfailed⟩
      · rw [if_neg hlim] at hover
        cases hover.symm.trans hc
        refine ⟨_, ⟨trivial, rfl⟩, hg.maxDepth, Nat.succ_le_succ hg.le, fun _ => ⟨?_, ?_⟩⟩
        · exact congrArg (· + 1) heq
        · exact (not_lt.mp hlim).trans_eq hg.maxDepth
  | ascendRef =>
    have hpos : t.depth ≠ 0 := (Nat.lt_of_lt_of_le hpre hg.le).ne'
    obtain ⟨r', hin, -⟩ := depthTracking_over_eq_ok hc
    cases (depthTracking_ascendRef hin hpos).symm.trans hc
    refine ⟨_, rfl, hg.maxDepth, Nat.sub_le_sub_right hg.le 1, fun hfailed => ?_⟩
    obtain ⟨heq, hle⟩ := hg.eq hfailed
    exact ⟨congrArg (· - 1) heq, (Nat.sub_le _ _).trans hle⟩
  | allocate size =>
    obtain ⟨ht, -⟩ := of_over_forward rfl hc
    obtain rfl : t' = t := ht
    exact ⟨_, rfl, hg⟩
  | remainingLen | read _ | readByte | onBeforeAllocMem _ =>
    obtain ⟨ht, -⟩ := of_over_forward rfl hc
    obtain rfl : t' = t := ht
    exact ⟨_, rfl, hg.after r⟩

/-- Under a depth limit that is not exceeded yet, on any input : after `Ok` the counter is what it
was, after `Err` it is at least that. It is positive at every `ascend_ref` and below `u32::MAX` at
every `descend_ref`. -/
theorem TypeDefs.depth_balanced {ι : Type} {ν : ι → Type} {P : Platform ν} {Δ : TypeDefs ν}
    (hΔ : Δ.Compiles P) {α : Type} {t : Ty ν α} (ht : t.Compiles P) (n : ℕ)
    (h : Handler inputInterface Halt σ) {x : DepthTrackingInput} (hmax : x.maxDepth < u32Max)
    (hd : x.depth ≤ x.maxDepth) (s : σ) :
    let p := (Δ.decode P n t).decode.run
    (∀ v y, p.run (depthTracking.over h) (x, s) = .ok (.ok v, y) → y.1.depth = x.depth) ∧
    (∀ e y, p.run (depthTracking.over h) (x, s) = .ok (.error e, y) → x.depth ≤ y.1.depth) ∧
    ∀ c ∈ p.callsAt (depthTracking.over h) (x, s),
      (c.1 = .ascendRef → 1 ≤ c.2.1.depth) ∧ (c.1 = .descendRef → c.2.1.depth < u32Max) := by
  intro p
  have hobeys : Obeys (Discipline.anyDepth fun _ => True) x.depth (Δ.decode P n t).decode :=
    (TypeDefs.decodeWith_obeys obeys_decodeBytes hΔ (Δ.errorsIn_of_forall fun _ => trivial) trivial
      ht (t.errorsIn_of_forall fun _ => trivial)).decode
  have hrespects : (depthTracking.over h).Respects (Discipline.anyDepth fun _ => True).contract
      fun g y => Follows x.maxDepth g y.1 := depthTracking_respects h hmax
  have hstart : Follows x.maxDepth ⟨x.depth, none⟩ x := ⟨rfl, le_rfl, fun _ => ⟨rfl, hd⟩⟩
  refine ⟨fun v y hrun => ?_, fun e y hrun => ?_, fun c hc => ?_⟩
  · obtain ⟨g, hg, hfollows⟩ := returns_of_meets hrespects hobeys hstart hrun
    obtain rfl : g = ⟨x.depth, none⟩ := hg
    exact (hfollows.eq rfl).1
  · obtain ⟨g, hg, hfollows⟩ := returns_of_meets hrespects hobeys hstart hrun
    exact hg.1.trans hfollows.le
  · obtain ⟨g, hpre, hfollows⟩ := hobeys.of_mem_callsAt hrespects hstart c hc
    obtain ⟨c, y⟩ := c
    constructor
    · rintro rfl
      exact Nat.lt_of_lt_of_le hpre hfollows.le
    · rintro rfl
      exact (hfollows.eq hpre).2.trans_lt hmax

/-- A list of one box, two levels deep under a limit of two. -/
theorem TypeDefs.depth_balanced_list :
    let Δ : TypeDefs Empty.elim := fun i => i.elim
    let p := (Δ.decode (Platform.unpadded _) 0 (.linkedList (.box (.prim .u8)))).decode.run
    p.run (depthTracking.over sliceInput) (⟨0, 2⟩, [4, 7]) = .ok (.ok [7], (⟨0, 2⟩, [])) ∧
      ∀ c ∈ p.callsAt (depthTracking.over sliceInput) (⟨0, 2⟩, [4, 7]),
        c.1 = .ascendRef → 1 ≤ c.2.1.depth := by
  intro Δ p
  have hΔ : Δ.Compiles (Platform.unpadded _) :=
    ⟨fun i => i.elim, fun i => i.elim, fun i => i.elim⟩
  obtain ⟨-, -, hcalls⟩ := TypeDefs.depth_balanced hΔ (t := .linkedList (.box (.prim .u8))) trivial
    0 sliceInput (x := ⟨0, 2⟩) (by decide) (by decide) [4, 7]
  exact ⟨rfl, fun c hc => (hcalls c hc).1⟩

end ScaleCodec
