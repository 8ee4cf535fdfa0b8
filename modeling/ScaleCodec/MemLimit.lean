import ScaleCodec.Counted
import ScaleCodec.DepthLimit

/-!
# Decoding with a memory limit

A memory tracker accepts the calls of a run iff no allocation is announced, or all of them together
stay below its limit (`acceptsAll_mem_iff`) : the checks in between ask for less than the last one.
So the limit is exact (`LibTy.mem_limit_exact`), and since a stack accepts what each of its trackers
accepts, a depth limit and a memory limit do not get in each other's way
(`LibTy.limits_compose`).
-/

namespace ScaleCodec

open Prog

section Tracker

variable {tgt : Target}

/-- Calls other than the announcement of an allocation leave a memory tracker as it is. -/
theorem next_mem_of_ne {c : InputCall} (hc : ∀ size, c ≠ .onBeforeAllocMem size)
    (t : MemTrackingInput tgt) : (Tracker.mem t).next c = .mem t := by
  cases c with
  | onBeforeAllocMem size => exact absurd rfl (hc size)
  | _ => rfl

/-- The memory counted is the sum of the allocations announced. -/
theorem usedMem_after_mem (calls : List InputCall) : ∀ t : MemTrackingInput tgt,
    ((Tracker.mem t).after calls).usedMem =
      min (t.usedMem + (allocSizes calls).sum) tgt.usizeMax := by
  induction calls with
  | nil => exact fun t => (min_eq_left t.usedMem_le).symm
  | cons c calls ih =>
    intro t
    rcases c.alloc_or_ne with ⟨size, rfl⟩ | hsize
    · have huse : (t.use size).usedMem = min (t.usedMem + size) tgt.usizeMax := rfl
      have hsum : (allocSizes (.onBeforeAllocMem size :: calls)).sum =
          size + (allocSizes calls).sum := rfl
      refine (ih (t.use size)).trans ?_
      omega
    · have hafter : (Tracker.mem t).after (c :: calls) = (Tracker.mem t).after calls :=
        congrArg (Tracker.after · calls) (next_mem_of_ne hsize t)
      rw [allocSizes_cons_of_ne hsize, hafter]
      exact ih t

theorem usedMem_after_depth (calls : List InputCall) : ∀ t : DepthTrackingInput,
    ((Tracker.depth t : Tracker tgt).after calls).usedMem = 0 := by
  induction calls with
  | nil => exact fun _ => rfl
  | cons c calls ih => exact fun _ => ih _

/-- A memory tracker accepts what stays below its limit. -/
theorem acceptsAll_mem_iff (calls : List InputCall) : ∀ t : MemTrackingInput tgt,
    (Tracker.mem t).AcceptsAll calls ↔
      allocSizes calls = [] ∨ t.usedMem + (allocSizes calls).sum < t.memLimit := by
  induction calls with
  | nil => exact fun t => iff_of_true trivial (Or.inl rfl)
  | cons c calls ih =>
    intro t
    rcases c.alloc_or_ne with ⟨size, rfl⟩ | hsize
    · have hacc : (Tracker.mem t).Accepts (.onBeforeAllocMem size) ↔
          (t.use size).usedMem < t.memLimit :=
        ⟨fun h => h size rfl, fun h size' hs => by cases hs; exact h⟩
      have huse : (t.use size).usedMem = min (t.usedMem + size) tgt.usizeMax := rfl
      have hlim : (t.use size).memLimit = t.memLimit := rfl
      have hmax := t.memLimit_le
      have hcons : allocSizes (.onBeforeAllocMem size :: calls) = size :: allocSizes calls := rfl
      refine (and_congr hacc (ih (t.use size))).trans ?_
      rw [hcons, List.sum_cons, hlim, huse]
      cases allocSizes calls with
      | nil =>
        simp only [List.sum_nil, true_or, and_true, reduceCtorEq, false_or]
        omega
      | cons n sizes =>
        simp only [reduceCtorEq, false_or]
        omega
    · have hacc : (Tracker.mem t).Accepts c := fun size hs => absurd hs (hsize size)
      rw [allocSizes_cons_of_ne hsize, ← ih t]
      refine (and_iff_right hacc).trans ?_
      rw [next_mem_of_ne hsize]

end Tracker

/-! ## `decode_with_mem_limit` -/

/-- The sizes passed to `on_before_alloc_mem` in a plain run. -/
def announced {α : Type} (p : DecodeM α) (s : List Byte) : List ℕ :=
  allocSizes (p.run.trace sliceInput s)

section MemLimit

variable {tgt : Target} {α : Type} {m : tgt.Usize} {p : DecodeM α} {s rest : List Byte}
  {r : Except Error α} {haltOk : Halt → Prop}

theorem runSlice_decodeWithMemLimit (m : tgt.Usize) (p : DecodeM α) (s : List Byte) :
    runSlice (decodeWithMemLimit m p) s =
      p.run.run ((memTracking tgt).over sliceInput) (.new m, s) >>= fun x => .ok (x.1, x.2.2) := by
  rw [runSlice, decodeWithMemLimit, ExceptT.run_mk, map_eq_pure_bind, run_bind, run_through]
  cases p.run.run ((memTracking tgt).over sliceInput) (.new m, s) <;> rfl

theorem acceptsAll_new_iff :
    (Tracker.mem (.new m)).AcceptsAll (p.run.trace sliceInput s) ↔
      announced p s = [] ∨ min (announced p s).sum tgt.usizeMax < m := by
  have hm := m.property
  refine (acceptsAll_mem_iff _ _).trans (or_congr_right ?_)
  show 0 + (announced p s).sum < m.val ↔ _
  omega

theorem usedMem_after_new :
    ((Tracker.mem (.new m)).after (p.run.trace sliceInput s)).usedMem =
      min (announced p s).sum tgt.usizeMax := by
  rw [usedMem_after_mem, show (MemTrackingInput.new m).usedMem = 0 from rfl, Nat.zero_add]
  rfl

/-- The limit allows the plain run or not, and decides. -/
theorem runSlice_memLimited (hp : Obeys (Discipline.anyDepth haltOk) 0 p)
    (hrun : runSlice p s = .ok (r, rest)) :
    ((announced p s = [] ∨ min (announced p s).sum tgt.usizeMax < m) ∧
      runSlice (decodeWithMemLimit m p) s = .ok (r, rest)) ∨
    ¬(announced p s = [] ∨ min (announced p s).sum tgt.usizeMax < m) ∧
      ∃ e rest', runSlice (decodeWithMemLimit m p) s = .ok (.error e, rest') := by
  let I : InputStack tgt (MemTrackingInput tgt × List Byte) := .mem .slice
  let x : MemTrackingInput tgt × List Byte := (.new m, s)
  have hacc : (∀ t ∈ I.layers x, t.AcceptsAll (p.run.trace sliceInput s)) ↔
      announced p s = [] ∨ min (announced p s).sum tgt.usizeMax < m :=
    List.forall_mem_singleton.trans acceptsAll_new_iff
  rw [runSlice_decodeWithMemLimit]
  rcases InputStack.run_cases (I := I) (x := x) (fun _ => trivial) hp
    (List.forall_mem_singleton.mpr trivial) (List.forall_mem_singleton.mpr trivial) hrun with
    ⟨hall, y, hy, -, rfl⟩ | ⟨hall, e, y, hy⟩
  · exact Or.inl ⟨hacc.mp hall, congrArg (· >>= _) hy⟩
  · exact Or.inr ⟨fun h => hall (hacc.mpr h), e, y.2, congrArg (· >>= _) hy⟩

/-- What a limited decoder accepts is what the plain one accepts within the limit. -/
theorem decodes_memLimited_iff (hp : Obeys (Discipline.anyDepth haltOk) 0 p)
    (hrun : runSlice p s = .ok (r, rest)) {v : α} {rest' : List Byte} :
    Decodes (decodeWithMemLimit m p) s v rest' ↔ (r = .ok v ∧ rest = rest') ∧
      (announced p s = [] ∨ min (announced p s).sum tgt.usizeMax < m) := by
  unfold Decodes
  rcases runSlice_memLimited hp hrun with ⟨hm, h⟩ | ⟨hm, e, rest₁, h⟩
  · rw [h, and_iff_left hm, Except.ok.injEq, Prod.mk.injEq]
  · rw [h]
    refine iff_of_false (fun h => ?_) fun h => hm h.2
    cases h

/-- The memory a tracker counts is that of the plain run. -/
theorem returns_mem_iff (hp : Obeys (Discipline.anyDepth haltOk) 0 p)
    (hrun : runSlice p s = .ok (r, rest)) {v : α} {rest' : List Byte} {used : ℕ} :
    (InputStack.mem .slice).Returns (.new m, s) p v rest' used ↔ (r = .ok v ∧ rest = rest') ∧
      (announced p s = [] ∨ min (announced p s).sum tgt.usizeMax < m) ∧
      min (announced p s).sum tgt.usizeMax = used := by
  rw [InputStack.returns_iff (I := .mem .slice) (x := (.new m, s)) (fun _ => trivial) hp
    (List.forall_mem_singleton.mpr trivial) (List.forall_mem_singleton.mpr trivial) rfl hrun]
  refine and_congr_right' (and_congr (List.forall_mem_singleton.trans acceptsAll_new_iff) ?_)
  show ((Tracker.mem (.new m)).after (p.run.trace sliceInput s)).usedMem + 0 = used ↔ _
  rw [usedMem_after_new, Nat.add_zero]

/-! ### Two limits -/

section Both

variable {d : ℕ} (hd : d < u32Max) (hp : Obeys (Discipline.anyDepth haltOk) 0 p)
  (hrun : runSlice p s = .ok (r, rest)) {v : α} {rest' : List Byte} {used : ℕ}

include hd hp hrun

theorem returns_depth_mem_iff :
    (InputStack.depth (.mem .slice)).Returns (⟨0, d⟩, (.new m, s)) p v rest' used ↔
      (r = .ok v ∧ rest = rest') ∧ (depthReached p s ≤ d ∧
        (announced p s = [] ∨ min (announced p s).sum tgt.usizeMax < m)) ∧
      min (announced p s).sum tgt.usizeMax = used := by
  rw [InputStack.returns_iff (I := .depth (.mem .slice)) (x := (⟨0, d⟩, (.new m, s)))
    (fun _ => trivial) hp
    (List.forall_mem_cons.mpr ⟨⟨Nat.zero_le d, hd⟩, List.forall_mem_singleton.mpr trivial⟩)
    (List.forall_mem_cons.mpr ⟨Nat.zero_le 0, List.forall_mem_singleton.mpr trivial⟩) rfl hrun]
  refine and_congr_right' (and_congr ?_ ?_)
  · refine List.forall_mem_cons.trans (and_congr (acceptsAll_depth_iff (Nat.zero_le d)) ?_)
    exact List.forall_mem_singleton.trans acceptsAll_new_iff
  · show (Tracker.after (.depth ⟨0, d⟩) (p.run.trace sliceInput s)).usedMem +
      ((Tracker.after (.mem (.new m)) (p.run.trace sliceInput s)).usedMem + 0) = used ↔ _
    rw [usedMem_after_new, usedMem_after_depth, Nat.zero_add, Nat.add_zero]

/-- The order of the two does not matter. -/
theorem returns_mem_depth_iff :
    (InputStack.mem (.depth .slice)).Returns (.new m, (⟨0, d⟩, s)) p v rest' used ↔
      (r = .ok v ∧ rest = rest') ∧ (depthReached p s ≤ d ∧
        (announced p s = [] ∨ min (announced p s).sum tgt.usizeMax < m)) ∧
      min (announced p s).sum tgt.usizeMax = used := by
  rw [InputStack.returns_iff (I := .mem (.depth .slice)) (x := (.new m, (⟨0, d⟩, s)))
    (fun _ => trivial) hp
    (List.forall_mem_cons.mpr ⟨trivial, List.forall_mem_singleton.mpr ⟨Nat.zero_le d, hd⟩⟩)
    (List.forall_mem_cons.mpr ⟨trivial, List.forall_mem_singleton.mpr (Nat.zero_le 0)⟩) rfl hrun]
  refine and_congr_right' (and_congr ?_ ?_)
  · rw [and_comm]
    refine List.forall_mem_cons.trans (and_congr acceptsAll_new_iff ?_)
    exact List.forall_mem_singleton.trans (acceptsAll_depth_iff (Nat.zero_le d))
  · show (Tracker.after (.mem (.new m)) (p.run.trace sliceInput s)).usedMem +
      ((Tracker.after (.depth ⟨0, d⟩) (p.run.trace sliceInput s)).usedMem + 0) = used ↔ _
    rw [usedMem_after_new, usedMem_after_depth, Nat.add_zero]

end Both

end MemLimit

/-! ## The types of the library -/

namespace LibTy

variable {P : Platform Empty.elim} {α : Type} {t : LibTy α}

/-- The memory limit is exact and harmless : what the plain decoder accepts is accepted iff it
announces no allocation, or all of them together stay below the limit. -/
theorem mem_limit_exact (hc : t.Compiles P) (s : List Byte) :
    let p := (t.decode P).decode
    let A := announced p s
    let S := min A.sum P.target.usizeMax
    (∀ (m : P.target.Usize) v rest, runSlice p s = .ok (.ok v, rest) →
      ((A = [] ∨ S < m) → runSlice (decodeWithMemLimit m p) s = .ok (.ok v, rest) ∧
        (InputStack.mem .slice).Returns (.new m, s) p v rest S) ∧
      (¬(A = [] ∨ S < m) →
        ∃ e rest', runSlice (decodeWithMemLimit m p) s = .ok (.error e, rest'))) ∧
    (∀ (m : P.target.Usize) e rest, runSlice p s = .ok (.error e, rest) →
      ∃ e' rest', runSlice (decodeWithMemLimit m p) s = .ok (.error e', rest')) ∧
    ∀ (m m' : P.target.Usize) v rest, m ≤ m' → Decodes (decodeWithMemLimit m p) s v rest →
      Decodes (decodeWithMemLimit m' p) s v rest := by
  intro p A S
  have hobeys : Obeys (Discipline.anyDepth fun _ => False) 0 p :=
    (Ty.decode_obeys hc (t.errorsIn_of_forall fun _ => trivial)).decode
  refine ⟨fun m v rest hrun => ⟨fun hm => ⟨?_, ?_⟩, fun hm => ?_⟩, fun m e rest hrun => ?_,
    fun m m' v rest hle h => ?_⟩
  · exact (decodes_memLimited_iff hobeys hrun).mpr ⟨⟨rfl, rfl⟩, hm⟩
  · exact (returns_mem_iff hobeys hrun).mpr ⟨⟨rfl, rfl⟩, hm, rfl⟩
  · rcases runSlice_memLimited hobeys hrun with ⟨hm', _⟩ | ⟨_, h⟩
    · exact absurd hm' hm
    · exact h
  · rcases runSlice_memLimited hobeys hrun with ⟨_, h⟩ | ⟨_, h⟩
    · exact ⟨e, rest, h⟩
    · exact h
  · obtain ⟨r, rest₁, hrun⟩ := Ty.exists_runSlice hc s
    obtain ⟨hr, hm⟩ := (decodes_memLimited_iff hobeys hrun).mp h
    exact (decodes_memLimited_iff hobeys hrun).mpr ⟨hr, hm.imp_right fun h => h.trans_le hle⟩

/-- `Box<u8>` : one byte is announced, so the limit 2 lets it pass and the limit 1 does not. -/
theorem mem_limit_exact_box :
    let P := Platform.unpadded Empty.elim
    let p := (LibTy.decode P (.box (.prim .u8))).decode
    announced p [7] = [1] ∧
      runSlice (@decodeWithMemLimit P.target _ ⟨2, by decide⟩ p) [7] = .ok (.ok 7, []) ∧
      ∃ e rest, runSlice (@decodeWithMemLimit P.target _ ⟨1, by decide⟩ p) [7] =
        .ok (.error e, rest) := by
  obtain ⟨h, -⟩ := @mem_limit_exact (Platform.unpadded Empty.elim) _ (.box (.prim .u8)) trivial [7]
  refine ⟨rfl, ((h ⟨2, by decide⟩ 7 [] rfl).1 (Or.inr (by decide))).1, ?_⟩
  refine (h ⟨1, by decide⟩ 7 [] rfl).2 ?_
  rintro (hA | hS)
  · cases hA
  · exact absurd hS (by decide)

/-- A depth limit and a memory limit compose in either order : the two accept together what each of
them accepts, with the same value, the same unread bytes and the same memory counted. -/
theorem limits_compose (hc : t.Compiles P) (s : List Byte) {d : ℕ} (hd : d < u32Max)
    (m : P.target.Usize) :
    let p := (t.decode P).decode
    let Both := fun v rest used => Decodes (decodeWithDepthLimit d p) s v rest ∧
      Decodes (decodeWithMemLimit m p) s v rest ∧
      (InputStack.mem .slice).Returns (.new m, s) p v rest used
    (∀ v rest used,
      (InputStack.depth (.mem .slice)).Returns (⟨0, d⟩, (.new m, s)) p v rest used ↔
        Both v rest used) ∧
    (∀ v rest used,
      (InputStack.mem (.depth .slice)).Returns (.new m, (⟨0, d⟩, s)) p v rest used ↔
        Both v rest used) ∧
    ((∃ v rest used, Both v rest used) ↔
      (∃ v rest, Decodes (decodeWithDepthLimit d p) s v rest) ∧
        ∃ v rest, Decodes (decodeWithMemLimit m p) s v rest) := by
  intro p Both
  have hobeys : Obeys (Discipline.anyDepth fun _ => False) 0 p :=
    (Ty.decode_obeys hc (t.errorsIn_of_forall fun _ => trivial)).decode
  obtain ⟨r, rest₁, hrun⟩ := Ty.exists_runSlice hc s
  have hboth : ∀ v rest used, Both v rest used ↔ (r = .ok v ∧ rest₁ = rest) ∧
      (depthReached p s ≤ d ∧
        (announced p s = [] ∨ min (announced p s).sum P.target.usizeMax < m)) ∧
      min (announced p s).sum P.target.usizeMax = used := by
    intro v rest used
    show Decodes _ _ _ _ ∧ Decodes _ _ _ _ ∧ InputStack.Returns _ _ _ _ _ _ ↔ _
    rw [decodes_limited_iff hd hobeys hrun, decodes_memLimited_iff hobeys hrun,
      returns_mem_iff hobeys hrun]
    constructor
    · rintro ⟨⟨hr, hdep⟩, -, -, hm, hused⟩
      exact ⟨hr, ⟨hdep, hm⟩, hused⟩
    · rintro ⟨hr, ⟨hdep, hm⟩, hused⟩
      exact ⟨⟨hr, hdep⟩, ⟨hr, hm⟩, hr, hm, hused⟩
  refine ⟨fun v rest used => ?_, fun v rest used => ?_, ?_⟩
  · rw [hboth, returns_depth_mem_iff hd hobeys hrun]
  · rw [hboth, returns_mem_depth_iff hd hobeys hrun]
  · simp only [hboth, decodes_limited_iff hd hobeys hrun, decodes_memLimited_iff hobeys hrun]
    constructor
    · rintro ⟨v, rest, _, hr, ⟨hdep, hm⟩, -⟩
      exact ⟨⟨v, rest, hr, hdep⟩, v, rest, hr, hm⟩
    · rintro ⟨⟨v, rest, hr, hdep⟩, _, _, -, hm⟩
      exact ⟨v, rest, _, hr, ⟨hdep, hm⟩, rfl⟩

/-- `Box<u8>` within the depth limit 1 and the memory limit 2, in either order. -/
theorem limits_compose_box :
    let P := Platform.unpadded Empty.elim
    let p := (LibTy.decode P (.box (.prim .u8))).decode
    let m : P.target.Usize := ⟨2, by decide⟩
    (InputStack.depth (.mem .slice)).Returns (⟨0, 1⟩, (.new m, [7])) p 7 [] 1 ∧
      (InputStack.mem (.depth .slice)).Returns (.new m, (⟨0, 1⟩, [7])) p 7 [] 1 := by
  obtain ⟨hdm, hmd, -⟩ := @limits_compose (Platform.unpadded Empty.elim) _ (.box (.prim .u8))
    trivial [7] 1 (by decide) ⟨2, by decide⟩
  exact ⟨(hdm 7 [] 1).mpr ⟨rfl, rfl, _, rfl, rfl, rfl⟩,
    (hmd 7 [] 1).mpr ⟨rfl, rfl, _, rfl, rfl, rfl⟩⟩

end LibTy

end ScaleCodec
