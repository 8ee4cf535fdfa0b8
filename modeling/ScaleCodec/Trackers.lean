import ScaleCodec.Traits

/-!
# Inputs that wrap another input

`DepthTrackingInput` limits the references entered at once, `MemTrackingInput` the memory announced
before it is allocated, and `CountedInput` counts the bytes read. Each passes its calls on to an
inner input, so it is a `Wrapper` with the fields of the struct as its state.

An `InputStack` is a byte slice under any number of the two limiting inputs, in any order.
`InputStack.onBeforeAllocMem_cases` says what the announcement of an allocation does to it, and
`InputStack.trackers_eq` that no other call concerns the memory trackers.
-/

namespace ScaleCodec

open Prog

variable {σ : Type} {h : Handler inputInterface Halt σ} {c : InputCall} {r : c.Reply}

/-! ## Calls and their errors -/

/-- Whether a call announces an allocation. -/
theorem InputCall.alloc_or_ne (c : InputCall) :
    (∃ size, c = .onBeforeAllocMem size) ∨ ∀ size, c ≠ .onBeforeAllocMem size := by
  cases c with
  | onBeforeAllocMem size => exact Or.inl ⟨size, rfl⟩
  | _ => exact Or.inr fun _ h => (by cases h)

/-- The error the method returned, if it did. -/
def InputCall.error : (c : InputCall) → c.Reply → Option Error
  | .remainingLen, .error e | .read _, .error e | .readByte, .error e | .descendRef, .error e
  | .onBeforeAllocMem _, .error e | .scaleInternalDecodeBytes, .error e => some e
  | _, _ => none

/-- The one error of a slice. -/
theorem sliceInput_error {s s' : List Byte} {e : Error}
    (hc : sliceInput c s = .ok (r, s')) (he : c.error r = some e) :
    e = .desc "Not enough data to fill buffer" := by
  cases c with
  | read n =>
    have hread : sliceRead n s = (r, s') := Except.ok.inj hc
    cases r with
    | error e' =>
      cases he
      exact (sliceRead_eq_error.mp hread).2.1
    | ok buf => cases he
  | readByte =>
    cases s with
    | nil =>
      cases hc
      cases he
      rfl
    | cons b s =>
      rw [sliceInput, sliceReadByte_cons] at hc
      cases hc
      cases he
  | scaleInternalDecodeBytes => cases hc
  | _ =>
    cases hc
    cases he

/-! ## `DepthTrackingInput` -/

/-- `DECODE_MAX_DEPTH_MSG`. -/
def decodeMaxDepthMsg : String :=
  "Maximum recursion depth reached when decoding"

/-- `struct DepthTrackingInput`, without its input. -/
structure DepthTrackingInput where
  depth : ℕ
  maxDepth : ℕ
deriving DecidableEq, Repr

/-- `impl Input for DepthTrackingInput`. The counter is a `u32`, with overflow checked. -/
def depthTracking : Wrapper inputInterface inputInterface Halt DepthTrackingInput
  | .descendRef, t => .call .descendRef fun
    | .error e => .ret (.error e, t)
    | .ok () =>
      if t.depth = u32Max then .halt (.panic "attempt to add with overflow")
      else if t.depth + 1 > t.maxDepth then
        .ret (.error (.desc decodeMaxDepthMsg), { t with depth := t.depth + 1 })
      else .ret (.ok (), { t with depth := t.depth + 1 })
  | .ascendRef, t => .call .ascendRef fun _ =>
      if t.depth = 0 then .halt (.panic "attempt to subtract with overflow")
      else .ret ((), { t with depth := t.depth - 1 })
  | .scaleInternalDecodeBytes, _ => .halt notOverridden
  | c, t => Wrapper.forward c t

/-- `DecodeLimit::decode_with_depth_limit`. -/
def decodeWithDepthLimit {α : Type} (limit : ℕ) (p : DecodeM α) : DecodeM α :=
  .mk (Prod.fst <$> p.run.through depthTracking ⟨0, limit⟩)

theorem depthTracking_descendRef {t : DepthTrackingInput} {s s' : σ}
    (hs : h .descendRef s = .ok (.ok (), s')) (hmax : t.depth ≠ u32Max) :
    depthTracking.over h .descendRef (t, s) =
      .ok (if t.depth + 1 > t.maxDepth then .error (.desc decodeMaxDepthMsg) else .ok (),
        ({ t with depth := t.depth + 1 }, s')) := by
  have hw : (depthTracking .descendRef t).run h s = _ := run_call hs _
  dsimp only at hw
  rw [if_neg hmax] at hw
  split_ifs at hw ⊢ with hlim
  · exact over_eq_ok hw
  · exact over_eq_ok hw

theorem depthTracking_ascendRef {t : DepthTrackingInput} {s s' : σ}
    (hs : h .ascendRef s = .ok ((), s')) (hpos : t.depth ≠ 0) :
    depthTracking.over h .ascendRef (t, s) = .ok ((), ({ t with depth := t.depth - 1 }, s')) := by
  have hw : (depthTracking .ascendRef t).run h s = _ := run_call hs _
  rw [if_neg hpos] at hw
  exact over_eq_ok hw

/-- A depth tracker makes the same call, and may refuse to descend. -/
theorem depthTracking_over_eq_ok {x y : DepthTrackingInput × σ}
    (hc : depthTracking.over h c x = .ok (r, y)) :
    ∃ r', h c x.2 = .ok (r', y.2) ∧ (r = r' ∨ c.error r = some (.desc decodeMaxDepthMsg)) := by
  obtain ⟨t, s⟩ := x
  cases hs : h c s with
  | error e =>
    have herr : ∃ e, depthTracking.over h c (t, s) = .error e := by
      cases c with
      | scaleInternalDecodeBytes => exact ⟨_, over_eq_error rfl⟩
      | _ => exact ⟨_, over_eq_error (run_call_error hs _)⟩
    obtain ⟨e', herr⟩ := herr
    rw [herr] at hc
    cases hc
  | ok z =>
    refine ⟨z.1, ?_⟩
    cases c with
    | scaleInternalDecodeBytes => cases hc
    | descendRef =>
      have hw : (depthTracking .descendRef t).run h s = _ := run_call hs _
      obtain ⟨_ | _, s'⟩ := z
      · rw [over_eq_ok hw] at hc
        cases hc
        exact ⟨rfl, Or.inl rfl⟩
      · dsimp only at hw
        split_ifs at hw with hmax hlim
        · rw [over_eq_error hw] at hc
          cases hc
        · rw [over_eq_ok hw] at hc
          cases hc
          exact ⟨rfl, Or.inr rfl⟩
        · rw [over_eq_ok hw] at hc
          cases hc
          exact ⟨rfl, Or.inl rfl⟩
    | ascendRef =>
      have hw : (depthTracking .ascendRef t).run h s = _ := run_call hs _
      split_ifs at hw with hzero
      · rw [over_eq_error hw] at hc
        cases hc
      · rw [over_eq_ok hw] at hc
        cases hc
        exact ⟨rfl, Or.inl rfl⟩
    | _ =>
      rw [over_eq_ok (run_call hs _)] at hc
      cases hc
      exact ⟨rfl, Or.inl rfl⟩

/-! ## `MemTrackingInput` -/

/-- `struct MemTrackingInput`, without its input. Both fields are a `usize`. -/
@[ext] structure MemTrackingInput (tgt : Target) where
  usedMem : ℕ
  memLimit : ℕ
  usedMem_le : usedMem ≤ tgt.usizeMax
  memLimit_le : memLimit ≤ tgt.usizeMax

/-- `MemTrackingInput::new`. -/
def MemTrackingInput.new {tgt : Target} (memLimit : tgt.Usize) : MemTrackingInput tgt where
  usedMem := 0
  memLimit := memLimit
  usedMem_le := Nat.zero_le _
  memLimit_le := memLimit.property

/-- `self.used_mem = self.used_mem.saturating_add(size)`. -/
def MemTrackingInput.use {tgt : Target} (t : MemTrackingInput tgt) (size : ℕ) :
    MemTrackingInput tgt :=
  { t with
    usedMem := tgt.saturatingAdd t.usedMem size
    usedMem_le := min_le_right _ _ }

/-- `impl Input for MemTrackingInput`. -/
def memTracking (tgt : Target) :
    Wrapper inputInterface inputInterface Halt (MemTrackingInput tgt)
  | .onBeforeAllocMem size, t => .call (.onBeforeAllocMem size) fun
    | .error e => .ret (.error e, t)
    | .ok () =>
      if (t.use size).usedMem ≥ t.memLimit then
        .ret (.error (.desc decodeOomMsg), t.use size)
      else .ret (.ok (), t.use size)
  | .scaleInternalDecodeBytes, _ => .halt notOverridden
  | c, t => Wrapper.forward c t

/-- `DecodeWithMemLimit::decode_with_mem_limit`. -/
def decodeWithMemLimit {tgt : Target} {α : Type} (memLimit : tgt.Usize) (p : DecodeM α) :
    DecodeM α :=
  .mk (Prod.fst <$> p.run.through (memTracking tgt) (.new memLimit))

theorem MemTrackingInput.usedMem_le_use {tgt : Target} (t : MemTrackingInput tgt) (size : ℕ) :
    t.usedMem ≤ (t.use size).usedMem :=
  le_min (Nat.le_add_right _ _) t.usedMem_le

/-- Below the limit nothing has been cut off. -/
theorem MemTrackingInput.usedMem_use {tgt : Target} {t : MemTrackingInput tgt} {size : ℕ}
    (h : (t.use size).usedMem < t.memLimit) : (t.use size).usedMem = t.usedMem + size := by
  have hmin : min (t.usedMem + size) tgt.usizeMax < t.memLimit := h
  have hlim := t.memLimit_le
  show min (t.usedMem + size) tgt.usizeMax = _
  omega

/-- A memory tracker passes on all calls but the announcement of an allocation. -/
theorem memTracking_over_eq_ok {tgt : Target} {x y : MemTrackingInput tgt × σ}
    (hsize : ∀ size, c ≠ .onBeforeAllocMem size)
    (hc : (memTracking tgt).over h c x = .ok (r, y)) : y.1 = x.1 ∧ h c x.2 = .ok (r, y.2) := by
  cases c with
  | onBeforeAllocMem size => exact absurd rfl (hsize size)
  | scaleInternalDecodeBytes => cases hc
  | _ => exact of_over_forward rfl hc

/-- The reply of a memory tracker to an announced allocation. -/
theorem memTracking_over_alloc {tgt : Target} {size : ℕ} {t : MemTrackingInput tgt} {s s' : σ}
    {r : Except Error Unit}
    (hs : h (.onBeforeAllocMem size) s = .ok (r, s')) :
    (memTracking tgt).over h (.onBeforeAllocMem size) (t, s) =
      match r with
      | .error e => .ok (.error e, (t, s'))
      | .ok () => .ok (if (t.use size).usedMem ≥ t.memLimit then .error (.desc decodeOomMsg)
          else .ok (), (t.use size, s')) := by
  have hw : (memTracking tgt (.onBeforeAllocMem size) t).run h s = _ := run_call hs _
  cases r with
  | error e => exact over_eq_ok hw
  | ok u =>
    dsimp only at hw ⊢
    split_ifs at hw ⊢ with hlim
    · exact over_eq_ok hw
    · exact over_eq_ok hw

/-! ## `CountedInput` -/

/-- `struct CountedInput`, without its input. -/
structure CountedInput where
  counter : ℕ
deriving DecidableEq, Repr

/-- `CountedInput::new`. -/
def CountedInput.new : CountedInput :=
  ⟨0⟩

/-- `self.counter = self.counter.saturating_add(n)`. The counter is a `u64`. -/
def CountedInput.count (t : CountedInput) (n : ℕ) : CountedInput :=
  ⟨min (t.counter + n) (2 ^ 64 - 1)⟩

/-- `impl Input for CountedInput`. It keeps the default body of `on_before_alloc_mem`. -/
def countedInput : Wrapper inputInterface inputInterface Halt CountedInput
  | .read n, t => .call (.read n) fun
    | .error e => .ret (.error e, t)
    | .ok buf => .ret (.ok buf, t.count n)
  | .readByte, t => .call .readByte fun
    | .error e => .ret (.error e, t)
    | .ok b => .ret (.ok b, t.count 1)
  | .onBeforeAllocMem _, t => .ret (.ok (), t)
  | .scaleInternalDecodeBytes, _ => .halt notOverridden
  | c, t => Wrapper.forward c t

/-- `CountedInput` passes on all calls but the announcement of an allocation. -/
theorem exists_countedInput_over {t : CountedInput} {s s' : σ}
    (hsize : ∀ size, c ≠ .onBeforeAllocMem size) (hbytes : c ≠ .scaleInternalDecodeBytes)
    (hs : h c s = .ok (r, s')) : ∃ t', countedInput.over h c (t, s) = .ok (r, (t', s')) := by
  cases c with
  | onBeforeAllocMem size => exact absurd rfl (hsize size)
  | scaleInternalDecodeBytes => exact absurd rfl hbytes
  | read n =>
    have hw : (countedInput (.read n) t).run h s = _ := run_call hs _
    cases r <;> exact ⟨_, over_eq_ok hw⟩
  | readByte =>
    have hw : (countedInput .readByte t).run h s = _ := run_call hs _
    cases r <;> exact ⟨_, over_eq_ok hw⟩
  | _ => exact ⟨_, over_eq_ok (run_call hs _)⟩

theorem countedInput_over_error {e : Halt} {x : CountedInput × σ}
    (hsize : ∀ size, c ≠ .onBeforeAllocMem size) (hs : h c x.2 = .error e) :
    ∃ e', countedInput.over h c x = .error e' := by
  cases c with
  | onBeforeAllocMem size => exact absurd rfl (hsize size)
  | scaleInternalDecodeBytes => exact ⟨_, over_eq_error rfl⟩
  | _ => exact ⟨e, over_eq_error (run_call_error hs _)⟩

theorem countedInput_over_eq_ok {x y : CountedInput × σ}
    (hsize : ∀ size, c ≠ .onBeforeAllocMem size) (hc : countedInput.over h c x = .ok (r, y)) :
    h c x.2 = .ok (r, y.2) := by
  cases hs : h c x.2 with
  | error e =>
    obtain ⟨e', herr⟩ := countedInput_over_error hsize hs
    rw [herr] at hc
    cases hc
  | ok z =>
    have hbytes : c ≠ .scaleInternalDecodeBytes := by
      rintro rfl
      cases hc
    obtain ⟨t', ht'⟩ := exists_countedInput_over (t := x.1) hsize hbytes hs
    rw [ht'] at hc
    cases hc
    rfl

/-! ## Limiting inputs over a slice -/

/-- A byte slice under limiting inputs, with the type of their states. -/
inductive InputStack (tgt : Target) : Type → Type 1 where
  | slice : InputStack tgt (List Byte)
  | mem {σ : Type} (inner : InputStack tgt σ) : InputStack tgt (MemTrackingInput tgt × σ)
  | depth {σ : Type} (inner : InputStack tgt σ) : InputStack tgt (DepthTrackingInput × σ)

namespace InputStack

variable {tgt : Target}

/-- `impl Input` of the outermost of them. -/
def input {σ : Type} : InputStack tgt σ → Handler inputInterface Halt σ
  | slice => sliceInput
  | mem inner => (memTracking tgt).over inner.input
  | depth inner => depthTracking.over inner.input

/-- The memory trackers, outermost first. -/
def trackers {σ : Type} : InputStack tgt σ → σ → List (MemTrackingInput tgt)
  | slice, _ => []
  | mem inner, s => s.1 :: inner.trackers s.2
  | depth inner, s => inner.trackers s.2

/-- The memory they count together. -/
def usedMem (I : InputStack tgt σ) (s : σ) : ℕ :=
  ((I.trackers s).map MemTrackingInput.usedMem).sum

/-- No memory tracker takes notice of an allocation of `size` bytes : there is none, or nothing is
allocated while each is below its limit. -/
def Unaffected (I : InputStack tgt σ) (s : σ) (size : ℕ) : Prop :=
  ∀ t ∈ I.trackers s, size = 0 ∧ t.usedMem < t.memLimit

/-- Calls other than the announcement of an allocation leave the memory trackers alone, and do not
fail for want of memory. -/
theorem trackers_eq (hsize : ∀ size, c ≠ .onBeforeAllocMem size) (I : InputStack tgt σ) {s s' : σ}
    (hc : I.input c s = .ok (r, s')) :
    I.trackers s' = I.trackers s ∧ ∀ e, c.error r = some e → e.root ≠ decodeOomMsg := by
  induction I generalizing r with
  | slice =>
    refine ⟨rfl, fun e he => ?_⟩
    rw [sliceInput_error hc he]
    decide
  | mem inner ih =>
    obtain ⟨ht, hc⟩ := memTracking_over_eq_ok hsize hc
    obtain ⟨htrackers, herror⟩ := ih hc
    exact ⟨by rw [trackers, trackers, ht, htrackers], herror⟩
  | depth inner ih =>
    obtain ⟨r', hc, hr⟩ := depthTracking_over_eq_ok hc
    obtain ⟨htrackers, herror⟩ := ih hc
    refine ⟨htrackers, fun e he => ?_⟩
    rcases hr with rfl | hr
    · exact herror e he
    · obtain rfl := Option.some.inj (hr.symm.trans he)
      decide

theorem usedMem_mem (I : InputStack tgt σ) (x : MemTrackingInput tgt × σ) :
    (mem I).usedMem x = x.1.usedMem + I.usedMem x.2 := by
  simp [usedMem, trackers]

/-- What an announced allocation does : nothing if no tracker takes notice of it, or it is counted
or refused. -/
theorem onBeforeAllocMem_cases (I : InputStack tgt σ) (s : σ) (size : ℕ) :
    (I.Unaffected s size ∧ I.input (.onBeforeAllocMem size) s = .ok (.ok (), s)) ∨
      ∃ r s', ¬I.Unaffected s size ∧ I.input (.onBeforeAllocMem size) s = .ok (r, s') ∧
        I.usedMem s ≤ I.usedMem s' ∧
        (I.usedMem s < I.usedMem s' ∨ ∃ e, r = .error e ∧ e.root = decodeOomMsg) := by
  induction I with
  | slice => exact Or.inl ⟨fun _ ht => (by cases ht), rfl⟩
  | depth inner ih =>
    obtain ⟨t, s⟩ := s
    rcases ih s with ⟨hun, hin⟩ | ⟨r, s', hun, hin, hle, hr⟩
    · exact Or.inl ⟨hun, over_eq_ok (run_call hin _)⟩
    · exact Or.inr ⟨r, (t, s'), hun, over_eq_ok (run_call hin _), hle, hr⟩
  | mem inner ih =>
    obtain ⟨t, s⟩ := s
    have hcons : (mem inner).Unaffected (t, s) size ↔
        (size = 0 ∧ t.usedMem < t.memLimit) ∧ inner.Unaffected s size := List.forall_mem_cons
    rw [hcons]
    simp only [usedMem_mem]
    rcases ih s with ⟨hun, hin⟩ | ⟨_ | u, s', hun, hin, hle, hr⟩
    · by_cases ht : size = 0 ∧ t.usedMem < t.memLimit
      · have huse : t.use size = t := by
          rw [ht.1]
          exact MemTrackingInput.ext (min_eq_left t.usedMem_le) rfl
        refine Or.inl ⟨⟨ht, hun⟩, (memTracking_over_alloc hin).trans ?_⟩
        rw [huse, if_neg (not_le.mpr ht.2)]
      · refine Or.inr ⟨_, _, fun h => ht h.1, memTracking_over_alloc hin, ?_, ?_⟩
        · exact Nat.add_le_add_right (t.usedMem_le_use size) _
        · by_cases hlim : (t.use size).usedMem ≥ t.memLimit
          · exact Or.inr ⟨_, if_pos hlim, rfl⟩
          · have huse := MemTrackingInput.usedMem_use (not_le.mp hlim)
            have hpos : size ≠ 0 := fun h => ht ⟨h, by omega⟩
            refine Or.inl (Nat.add_lt_add_right ?_ (inner.usedMem s))
            rw [huse]
            exact Nat.lt_add_of_pos_right (Nat.pos_of_ne_zero hpos)
    · refine Or.inr ⟨_, _, fun h => hun h.2, memTracking_over_alloc hin, ?_, ?_⟩
      · exact Nat.add_le_add_left hle _
      · exact hr.imp (fun h => Nat.add_lt_add_left h _) id
    · refine Or.inr ⟨_, _, fun h => hun h.2, memTracking_over_alloc hin, ?_, ?_⟩
      · exact Nat.add_le_add (t.usedMem_le_use size) hle
      · rcases hr with hlt | ⟨e, he, -⟩
        · exact Or.inl (Nat.add_lt_add_of_le_of_lt (t.usedMem_le_use size) hlt)
        · cases he

end InputStack

end ScaleCodec
