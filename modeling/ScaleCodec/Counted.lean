import ScaleCodec.RoundTrip
import ScaleCodec.Trackers
import ScaleCodec.TypeDiscipline

/-!
# Decoding through `CountedInput`

`CountedInput` passes on every method of `Input` but `on_before_alloc_mem`, so a `MemTrackingInput`
below it does not learn of the allocations. A decoder run through it and the same decoder run on the
inner input make the same calls until the first allocation a memory tracker takes notice of. From
there on the runs end differently : the tracker counts the memory, which no later call undoes, or it
refuses it, which the decoder cannot conceal (`run_counted_iff`). So counting is transparent iff
every allocation announced leaves the trackers unaffected (`LibTy.counted_transparent_iff`).

Over a slice the counter and the unread bytes keep their sum, call by call and so along the run of
any program (`run_countedSlice`) : however many values are decoded one after another, the count is
what has been consumed (`LibTy.count_eq_consumed`).
-/

namespace ScaleCodec

open Prog

/-- The sizes passed to `on_before_alloc_mem`. -/
def allocSizes (calls : List InputCall) : List ℕ :=
  calls.filterMap fun
    | .onBeforeAllocMem size => some size
    | _ => none

theorem allocSizes_cons_of_ne {c : InputCall} (hc : ∀ size, c ≠ .onBeforeAllocMem size)
    (calls : List InputCall) : allocSizes (c :: calls) = allocSizes calls := by
  cases c with
  | onBeforeAllocMem size => exact absurd rfl (hc size)
  | _ => rfl

/-- Decoders that do not make the error of `MemTrackingInput` themselves. -/
def Discipline.noOom : Discipline where
  depthOk _ := True
  errorOk msg := msg ≠ decodeOomMsg
  haltOk _ := True
  own _ h := h

section Failures

variable {σ α : Type} {D : Discipline} {d : ℕ} {g : Track}
  {p : Prog inputInterface Halt (Except Error α)} {r : Except Error α}

/-- After a failed call only `ascend_ref` is left, which does not fail. -/
theorem respects_failed (h : Handler inputInterface Halt σ) (root : String) :
    h.Respects D.contract fun g _ => g.failed = some root := by
  intro c g s r s' hpre hfailed _
  cases c with
  | ascendRef => exact ⟨_, rfl, hfailed⟩
  | scaleInternalDecodeBytes => exact hpre.elim
  | _ => cases hfailed.symm.trans hpre

/-- A failure is returned, if the decoder returns. -/
theorem returns_failed {h : Handler inputInterface Halt σ} {s s' : σ} {root : String}
    (hp : p.Meets D.contract D.halts (D.returns d) g) (hg : g.failed = some root)
    (hrun : p.run h s = .ok (r, s')) : ∃ e, r = .error e ∧ e.root = root := by
  obtain ⟨g', hr, hg'⟩ := returns_of_meets (respects_failed h root) hp hg hrun
  exact hr.exists_error hg'

end Failures

section Counted

variable {tgt : Target} {σ α : Type} {I : InputStack tgt σ} {d : ℕ} {g : Track}
  {n n' : CountedInput} {s s' : σ} {r : Except Error α}

/-- Replies other than that of a memory tracker. -/
theorem exists_post {c : InputCall} {r : c.Reply}
    (hr : ∀ e, c.error r = some e → e.root ≠ decodeOomMsg) (hg : g.failed ≠ some decodeOomMsg) :
    ∃ g', Discipline.noOom.contract.post c g r g' ∧ g'.failed ≠ some decodeOomMsg := by
  cases c with
  | ascendRef => exact ⟨_, rfl, hg⟩
  | allocate _ => exact ⟨_, rfl, hg⟩
  | descendRef =>
    cases r with
    | ok u => exact ⟨_, ⟨trivial, rfl⟩, hg⟩
    | error e => exact ⟨_, rfl, fun h => hr e rfl (Option.some.inj h)⟩
  | _ =>
    cases r with
    | ok a => exact ⟨_, rfl, hg⟩
    | error e => exact ⟨_, rfl, fun h => hr e rfl (Option.some.inj h)⟩

/-- Through `CountedInput` no call fails for want of memory. -/
theorem respects_counted (I : InputStack tgt σ) :
    (countedInput.over I.input).Respects Discipline.noOom.contract
      fun g _ => g.failed ≠ some decodeOomMsg := by
  intro c g x r y _ hg hc
  rcases c.alloc_or_ne with ⟨size, rfl⟩ | hsize
  · cases hc
    exact ⟨g, rfl, hg⟩
  · exact exists_post (I.trackers_eq hsize (countedInput_over_eq_ok hsize hc)).2 hg

/-- So no decoder run through it returns such a failure. -/
theorem root_ne_oom {p : Prog inputInterface Halt (Except Error α)}
    (hp : p.Meets Discipline.noOom.contract Discipline.noOom.halts (Discipline.noOom.returns d) g)
    (hg : g.failed ≠ some decodeOomMsg)
    (hrun : p.run (countedInput.over I.input) (n, s) = .ok (r, (n', s'))) (e : Error)
    (he : r = .error e) : e.root ≠ decodeOomMsg := by
  obtain ⟨g', hr, hg'⟩ := returns_of_meets (respects_counted I) hp hg hrun
  rw [he] at hr
  have haccounts : Discipline.noOom.accounts g' e := hr.2
  unfold Discipline.accounts at haccounts
  cases hfailed : g'.failed with
  | none =>
    rw [hfailed] at haccounts
    exact haccounts
  | some root =>
    rw [hfailed] at haccounts hg'
    rw [show e.root = root from haccounts]
    exact fun h => hg' (congrArg some h)

/-- Through `CountedInput` the memory trackers stay as they are. -/
theorem trackers_counted {p : Prog inputInterface Halt (Except Error α)}
    (hrun : p.run (countedInput.over I.input) (n, s) = .ok (r, (n', s'))) :
    I.trackers s = I.trackers s' := by
  refine run_preserves (R := fun x y => I.trackers x.2 = I.trackers y.2) (fun _ => rfl) Eq.trans
    (fun c x r y hc => ?_) hrun
  rcases c.alloc_or_ne with ⟨size, rfl⟩ | hsize
  · cases hc
    rfl
  · exact (I.trackers_eq hsize (countedInput_over_eq_ok hsize hc)).1.symm

/-- The memory counted only grows. -/
theorem usedMem_le {p : Prog inputInterface Halt (Except Error α)}
    (hrun : p.run I.input s = .ok (r, s')) : I.usedMem s ≤ I.usedMem s' := by
  refine run_preserves (R := fun x y => I.usedMem x ≤ I.usedMem y) (fun _ => le_rfl)
    le_trans (fun c x r y hc => ?_) hrun
  rcases c.alloc_or_ne with ⟨size, rfl⟩ | hsize
  · rcases I.onBeforeAllocMem_cases x size with ⟨_, h⟩ | ⟨_, _, _, h, hle, _⟩
    · cases h.symm.trans hc
      exact le_rfl
    · cases h.symm.trans hc
      exact hle
  · rw [InputStack.usedMem, InputStack.usedMem, (I.trackers_eq hsize hc).1]

/-- An allocation that a memory tracker takes notice of shows in the result or in the state. -/
theorem run_ne_of_affected {size : ℕ}
    {k : Except Error Unit → Prog inputInterface Halt (Except Error α)}
    (hk : ∀ e, (k (.error e)).Meets Discipline.noOom.contract Discipline.noOom.halts
      (Discipline.noOom.returns d) (g.after (.error e : Except Error Unit)))
    (hsize : ¬I.Unaffected s size) (hr : ∀ e, r = .error e → e.root ≠ decodeOomMsg)
    (hs' : I.trackers s = I.trackers s') :
    (@Prog.call inputInterface Halt _ (.onBeforeAllocMem size) k).run I.input s ≠ .ok (r, s') := by
  intro hrun
  have hused : I.usedMem s = I.usedMem s' := by rw [InputStack.usedMem, hs', InputStack.usedMem]
  rcases I.onBeforeAllocMem_cases s size with ⟨h, _⟩ | ⟨r₁, s₁, _, h, _, hlt | ⟨e, rfl, he⟩⟩
  · exact hsize h
  · rw [run_call h] at hrun
    have hle := usedMem_le hrun
    omega
  · rw [run_call h] at hrun
    have hfail : (g.after (.error e : Except Error Unit)).failed = some decodeOomMsg :=
      congrArg some he
    obtain ⟨e', rfl, he'⟩ := returns_failed (hk e) hfail hrun
    exact hr e' rfl he'

/-- The run through `CountedInput` and the run on the inner input end alike iff no allocation
announced affects a memory tracker. -/
theorem run_counted_iff {p : Prog inputInterface Halt (Except Error α)}
    (hp : p.Meets Discipline.noOom.contract Discipline.noOom.halts (Discipline.noOom.returns d) g)
    (hg : g.failed ≠ some decodeOomMsg)
    (hrun : p.run (countedInput.over I.input) (n, s) = .ok (r, (n', s'))) :
    p.run I.input s = .ok (r, s') ↔
      ∀ size ∈ allocSizes (p.trace (countedInput.over I.input) (n, s)), I.Unaffected s size := by
  induction p generalizing g n s with
  | ret a =>
    cases hrun
    simp [allocSizes, Prog.trace]
  | halt e => cases hrun
  | call c k ih =>
    rcases c.alloc_or_ne with ⟨size, rfl⟩ | hsize
    · have hn : countedInput.over I.input (.onBeforeAllocMem size) (n, s) = .ok (.ok (), (n, s)) :=
        rfl
      rw [run_call hn] at hrun
      rw [trace_call hn]
      show _ ↔ ∀ size' ∈ size :: allocSizes _, _
      rw [List.forall_mem_cons]
      have hk : ∀ e, _ := fun e => hp.2 (.error e) (g.after (.error e : Except Error Unit)) rfl
      have hok := hp.2 (.ok ()) g rfl
      by_cases hun : I.Unaffected s size
      · rcases I.onBeforeAllocMem_cases s size with ⟨_, h⟩ | ⟨_, _, h, _⟩
        · rw [run_call h, ih (.ok ()) hok hg hrun]
          exact (and_iff_right hun).symm
        · exact absurd hun h
      · have hr : ∀ e, r = .error e → e.root ≠ decodeOomMsg := root_ne_oom hok hg hrun
        exact iff_of_false (run_ne_of_affected hk hun hr (trackers_counted hrun)) fun h => hun h.1
    · cases hs : I.input c s with
      | error e =>
        obtain ⟨e', herr⟩ := countedInput_over_error (x := (n, s)) hsize hs
        rw [run_call_error herr] at hrun
        cases hrun
      | ok x =>
        obtain ⟨r₁, s₁⟩ := x
        have hbytes : c ≠ .scaleInternalDecodeBytes := by
          rintro rfl
          exact hp.1
        obtain ⟨n₁, hn₁⟩ := exists_countedInput_over (t := n) hsize hbytes hs
        obtain ⟨g₁, hpost, hg₁⟩ := respects_counted I c g (n, s) r₁ (n₁, s₁) hp.1 hg hn₁
        rw [run_call hn₁] at hrun
        have hiff := ih r₁ (hp.2 r₁ g₁ hpost) hg₁ hrun
        rw [run_call hs, trace_call hn₁, hiff, allocSizes_cons_of_ne hsize]
        simp only [InputStack.Unaffected, (I.trackers_eq hsize hs).1]

end Counted

/-! ## The types of the library -/

/-- `CountedInput` is transparent iff no allocation announced to it affects a memory tracker below :
the decoder returns the same result on the inner input itself, and leaves it in the same state. -/
theorem LibTy.counted_transparent_iff {P : Platform Empty.elim} {α σ : Type} {t : LibTy α}
    (hc : t.Compiles P) (he : t.ErrorsIn (· ≠ decodeOomMsg)) (I : InputStack P.target σ) {s s' : σ}
    {r : Except Error α} {n : CountedInput}
    (hrun : ((t.decode P).decode.run.through countedInput .new).run I.input s = .ok ((r, n), s')) :
    (t.decode P).decode.run.run I.input s = .ok (r, s') ↔
      ∀ size ∈ allocSizes ((t.decode P).decode.run.trace (countedInput.over I.input) (.new, s)),
        I.Unaffected s size := by
  have hobeys : (t.decode P).Obeys Discipline.noOom 0 := Ty.decode_obeys hc he
  rw [run_through] at hrun
  cases h : (t.decode P).decode.run.run (countedInput.over I.input) (.new, s) with
  | error e =>
    rw [h] at hrun
    cases hrun
  | ok x =>
    rw [h] at hrun
    cases hrun
    exact run_counted_iff hobeys.decode (by simp) h

/-- Over a memory tracker with room for both, a `u16` is decoded through `CountedInput` as it is
without it. A `Box<u8>` is not, since the tracker counts its byte. -/
theorem LibTy.counted_transparent_iff_box :
    let P := Platform.unpadded Empty.elim
    let I : InputStack P.target _ := .mem .slice
    let m : MemTrackingInput P.target := ⟨0, 100, by decide, by decide⟩
    (LibTy.decode P (.prim .u16)).decode.run.run I.input (m, [1, 2]) = .ok (.ok 513, (m, [])) ∧
      (LibTy.decode P (.box (.prim .u8))).decode.run.run I.input (m, [5]) ≠
        .ok (.ok 5, (m, [])) := by
  intro P I m
  refine ⟨?_, fun h => ?_⟩
  · exact (LibTy.counted_transparent_iff (t := .prim .u16) trivial trivial I rfl).mpr
      fun size hsize => nomatch hsize
  · have hall := (LibTy.counted_transparent_iff (t := .box (.prim .u8)) trivial trivial I rfl).mp h
    have hone : I.Unaffected (m, [5]) 1 := hall 1 List.mem_cons_self
    exact absurd (hone m List.mem_cons_self).1 Nat.one_ne_zero

/-- `Box<u8>` under a memory tracker with limit 1 : refused, but accepted through `CountedInput`,
with no memory counted. -/
theorem LibTy.counted_box_not_transparent :
    let P := Platform.unpadded Empty.elim
    let I : InputStack P.target _ := .mem .slice
    let t : LibTy _ := .box (.prim .u8)
    let s := (⟨0, 1, by decide, by decide⟩, [5])
    (t.decode P).decode.run.run I.input s =
        .ok (.error (.desc decodeOomMsg), (⟨1, 1, by decide, by decide⟩, [5])) ∧
      ((t.decode P).decode.run.through countedInput .new).run I.input s =
        .ok ((.ok 5, ⟨1⟩), (⟨0, 1, by decide, by decide⟩, [])) :=
  ⟨rfl, rfl⟩

/-! ## The count -/

section Count

variable {t : CountedInput} {s s' : List Byte}

theorem CountedInput.counter_count {n : ℕ} (h : t.counter + n ≤ 2 ^ 64 - 1) :
    (t.count n).counter = t.counter + n :=
  min_eq_left h

/-- A call takes bytes from the slice iff it counts them. -/
theorem countedSlice_call {c : InputCall} {r : c.Reply} (hle : t.counter + s.length ≤ 2 ^ 64 - 1)
    (hc : sliceInput c s = .ok (r, s')) :
    ∃ t', countedInput.over sliceInput c (t, s) = .ok (r, (t', s')) ∧
      t'.counter + s'.length = t.counter + s.length := by
  cases c with
  | read n =>
    have hw : (countedInput (.read n) t).run sliceInput s = _ := run_call hc _
    have hread : sliceRead n s = (r, s') := Except.ok.inj hc
    cases r with
    | error e =>
      obtain ⟨-, -, rfl⟩ := sliceRead_eq_error.mp hread
      exact ⟨t, over_eq_ok hw, rfl⟩
    | ok buf =>
      obtain rfl := sliceRead_eq_ok.mp hread
      rw [List.length_append, buf.toList_length] at hle ⊢
      refine ⟨t.count n, over_eq_ok hw, ?_⟩
      rw [CountedInput.counter_count (by omega), Nat.add_assoc]
  | readByte =>
    have hw : (countedInput .readByte t).run sliceInput s = _ := run_call hc _
    cases s with
    | nil =>
      cases hc
      exact ⟨t, over_eq_ok hw, rfl⟩
    | cons b s =>
      rw [sliceInput, sliceReadByte_cons] at hc
      cases hc
      rw [List.length_cons] at hle ⊢
      refine ⟨t.count 1, over_eq_ok hw, ?_⟩
      rw [CountedInput.counter_count (by omega)]
      omega
  | scaleInternalDecodeBytes => cases hc
  | _ =>
    cases hc
    exact ⟨t, rfl, rfl⟩

/-- A program that returns on the slice returns the same through a `CountedInput`, which counts
what it consumes. -/
theorem run_countedSlice {α : Type} : ∀ {p : Prog inputInterface Halt α} {t : CountedInput}
    {s s' : List Byte} {a : α}, t.counter + s.length ≤ 2 ^ 64 - 1 →
      p.run sliceInput s = .ok (a, s') →
        ∃ t', p.run (countedInput.over sliceInput) (t, s) = .ok (a, (t', s')) ∧
          t'.counter + s'.length = t.counter + s.length ∧ s' <:+ s
  | ret _, t, s, _, _, _, hrun => by
    cases hrun
    exact ⟨t, rfl, rfl, List.suffix_refl s⟩
  | halt _, _, _, _, _, _, hrun => by cases hrun
  | call c k, t, s, _, _, hle, hrun => by
    obtain ⟨r, s₁, hc, hrun⟩ := run_call_eq_ok.mp hrun
    obtain ⟨t₁, hcall, hsum⟩ := countedSlice_call hle hc
    obtain ⟨t', hrun', hsum', hsuffix⟩ := run_countedSlice (hsum ▸ hle) hrun
    exact ⟨t', by rw [run_call hcall, hrun'], hsum'.trans hsum,
      hsuffix.trans (suffix_of_sliceInput hc)⟩

end Count

/-- `T::decode(&mut input)` for one type after another, whatever each returns : the states of the
input after each of them. -/
def LibTy.decodeEach {σ : Type} (P : Platform Empty.elim) (h : Handler inputInterface Halt σ) :
    List (Σ α, LibTy α) → σ → Except Halt (List σ)
  | [], _ => .ok []
  | t :: ts, s => do
    let (_, s') ← (t.2.decode P).decode.run.run h s
    let states ← decodeEach P h ts s'
    .ok (s' :: states)

theorem LibTy.decodeEach_countedSlice {P : Platform Empty.elim} :
    ∀ {ts : List (Σ α, LibTy α)} {t : CountedInput} {s : List Byte}, (∀ t ∈ ts, t.2.Compiles P) →
      t.counter + s.length ≤ 2 ^ 64 - 1 →
        ∃ states, decodeEach P (countedInput.over sliceInput) ts (t, s) = .ok states ∧
          states.length = ts.length ∧
          ∀ x ∈ states, x.2 <:+ s ∧ x.1.counter + x.2.length = t.counter + s.length
  | [], _, _, _, _ => ⟨[], rfl, rfl, fun _ hx => (by cases hx)⟩
  | u :: us, t, s, hc, hle => by
    obtain ⟨r, s₁, hrun⟩ := Ty.exists_runSlice (hc u List.mem_cons_self) s
    obtain ⟨t₁, hcounted, hsum, hsuffix⟩ :=
      run_countedSlice (p := (LibTy.decode P u.2).decode.run) hle hrun
    obtain ⟨states, hstates, hlen, hall⟩ :=
      decodeEach_countedSlice (fun t ht => hc t (List.mem_cons_of_mem u ht)) (hsum ▸ hle)
    refine ⟨(t₁, s₁) :: states, ?_, congrArg (· + 1) hlen, fun x hx => ?_⟩
    · rw [decodeEach, hcounted]
      show (decodeEach P _ us (t₁, s₁) >>= fun states => .ok ((t₁, s₁) :: states)) = _
      rw [hstates]
      rfl
    · rcases List.mem_cons.mp hx with rfl | hx
      · exact ⟨hsuffix, hsum⟩
      · exact ⟨(hall x hx).1.trans hsuffix, (hall x hx).2.trans hsum⟩

/-- After each of the values decoded through one `CountedInput`, or failing to decode, the count is
the number of bytes consumed. -/
theorem LibTy.count_eq_consumed {P : Platform Empty.elim} {ts : List (Σ α, LibTy α)}
    {s : List Byte} (hc : ∀ t ∈ ts, t.2.Compiles P) (hs : s.length < 2 ^ 64 - 1) :
    ∃ states, decodeEach P (countedInput.over sliceInput) ts (.new, s) = .ok states ∧
      states.length = ts.length ∧
      ∀ x ∈ states, x.2 <:+ s ∧ x.1.counter = s.length - x.2.length := by
  have hle : CountedInput.new.counter + s.length ≤ 2 ^ 64 - 1 := by
    show 0 + s.length ≤ 2 ^ 64 - 1
    omega
  obtain ⟨states, hstates, hlen, hall⟩ := decodeEach_countedSlice hc hle
  refine ⟨states, hstates, hlen, fun x hx => ⟨(hall x hx).1, ?_⟩⟩
  have hsum : x.1.counter + x.2.length = 0 + s.length := (hall x hx).2
  omega

/-- A `u16`, a vector that is cut short and a `bool` from four bytes. -/
theorem LibTy.count_eq_consumed_three :
    let P := Platform.unpadded Empty.elim
    let ts : List (Σ α, LibTy α) := [⟨_, .prim .u16⟩, ⟨_, .vec (.prim .u8)⟩, ⟨_, .bool⟩]
    ∃ states, decodeEach P (countedInput.over sliceInput) ts (.new, [1, 2, 8, 1]) = .ok states ∧
      states.length = 3 ∧
      ∀ x ∈ states, x.2 <:+ [1, 2, 8, 1] ∧ x.1.counter = 4 - x.2.length := by
  intro P ts
  have hvec : (Ty.vec (.prim .u8) : LibTy _).Compiles P := ⟨by decide, trivial⟩
  have hc : ∀ t ∈ ts, t.2.Compiles P := by
    refine List.forall_mem_cons.mpr ⟨trivial, List.forall_mem_cons.mpr ⟨hvec, ?_⟩⟩
    exact List.forall_mem_singleton.mpr trivial
  exact LibTy.count_eq_consumed hc (by decide)

end ScaleCodec
