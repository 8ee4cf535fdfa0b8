import ScaleCodec.Canonical
import ScaleCodec.Limits
import ScaleCodec.TypeDiscipline

/-!
# Decoding with a depth limit

A depth tracker accepts the calls of a run iff no more references than its limit are entered at
once (`acceptsAll_depth_iff`). So the limit is exact (`TypeDefs.depth_limit_exact`) : what the
plain decoder accepts is accepted iff it never enters more than `l` references at once.
-/

namespace ScaleCodec

open Prog

/-! ## References entered at once -/

/-- The largest number of references entered and not left, starting from `n`. -/
def deepest : ℕ → List InputCall → ℕ
  | n, [] => n
  | n, c :: calls => max n (deepest (depthAfter n c) calls)

/-- The largest number of `descend_ref` calls not yet matched by `ascend_ref` in a plain run. -/
def depthReached {α : Type} (p : DecodeM α) (s : List Byte) : ℕ :=
  deepest 0 (p.run.trace sliceInput s)

theorem le_deepest (n : ℕ) (calls : List InputCall) : n ≤ deepest n calls := by
  cases calls with
  | nil => exact le_rfl
  | cons c calls => exact le_max_left _ _

/-- A depth tracker accepts what stays within its limit. -/
theorem acceptsAll_depth_iff {tgt : Target} {calls : List InputCall} :
    ∀ {t : DepthTrackingInput}, t.depth ≤ t.maxDepth →
      ((Tracker.depth t : Tracker tgt).AcceptsAll calls ↔ deepest t.depth calls ≤ t.maxDepth) := by
  induction calls with
  | nil => exact fun h => iff_of_true trivial h
  | cons c calls ih =>
    intro t h
    rw [deepest, max_le_iff, and_iff_right h]
    by_cases hd : depthAfter t.depth c ≤ t.maxDepth
    · have hacc : (Tracker.depth t : Tracker tgt).Accepts c := by
        rintro rfl
        exact hd
      exact (and_iff_right hacc).trans (ih hd)
    · obtain rfl : c = .descendRef := by
        cases c with
        | descendRef => rfl
        | ascendRef => exact absurd ((Nat.sub_le _ _).trans h) hd
        | _ => exact absurd h hd
      exact iff_of_false (fun hacc => hd (hacc.1 rfl)) fun hle => hd ((le_deepest _ _).trans hle)

/-! ## `decode_with_depth_limit` -/

section DecodeLimit

variable {α : Type} {l : ℕ} {p : DecodeM α} {s rest : List Byte} {r : Except Error α}

theorem runSlice_decodeWithDepthLimit (l : ℕ) (p : DecodeM α) (s : List Byte) :
    runSlice (decodeWithDepthLimit l p) s =
      p.run.run (depthTracking.over sliceInput) (⟨0, l⟩, s) >>= fun x => .ok (x.1, x.2.2) := by
  rw [runSlice, decodeWithDepthLimit, ExceptT.run_mk, map_eq_pure_bind, run_bind, run_through]
  cases p.run.run (depthTracking.over sliceInput) (⟨0, l⟩, s) <;> rfl

/-- The limit is met or not, and decides. -/
theorem runSlice_limited (hl : l < u32Max) {haltOk : Halt → Prop}
    (hp : Obeys (Discipline.anyDepth haltOk) 0 p) (hrun : runSlice p s = .ok (r, rest)) :
    (depthReached p s ≤ l ∧ runSlice (decodeWithDepthLimit l p) s = .ok (r, rest)) ∨
      l < depthReached p s ∧
        ∃ e rest', runSlice (decodeWithDepthLimit l p) s = .ok (.error e, rest') := by
  let I : InputStack ⟨.w64, true⟩ (DepthTrackingInput × List Byte) := .depth .slice
  let x : DepthTrackingInput × List Byte := (⟨0, l⟩, s)
  have hlim : ∀ t ∈ I.layers x, t.WithinLimit := List.forall_mem_singleton.mpr ⟨Nat.zero_le l, hl⟩
  have hdepth : ∀ t ∈ I.layers x, t.DepthAtLeast 0 := List.forall_mem_singleton.mpr (Nat.zero_le 0)
  have hacc : (∀ t ∈ I.layers x, t.AcceptsAll (p.run.trace sliceInput s)) ↔
      depthReached p s ≤ l :=
    List.forall_mem_singleton.trans (acceptsAll_depth_iff (Nat.zero_le l))
  rw [runSlice_decodeWithDepthLimit]
  rcases InputStack.run_cases (fun _ => trivial) hp hlim hdepth hrun with
    ⟨hall, y, hy, -, rfl⟩ | ⟨hall, e, y, hy⟩
  · exact Or.inl ⟨hacc.mp hall, congrArg (· >>= _) hy⟩
  · exact Or.inr ⟨not_le.mp fun h => hall (hacc.mpr h), e, y.2, congrArg (· >>= _) hy⟩

/-- `DecodeLimit::decode_all_with_depth_limit` : the result, and the unread bytes. -/
def decodeAllWithDepthLimit (limit : ℕ) (p : DecodeM α) (s : List Byte) :
    Except Halt (Except Error α × List Byte) := do
  match ← runSlice (decodeWithDepthLimit limit p) s with
  | (.ok a, rest) => pure (if rest.isEmpty then .ok a else .error (.desc decodeAllErrMsg), rest)
  | (.error e, rest) => pure (.error e, rest)

theorem decodeAllWithDepthLimit_eq_ok {v : α} :
    (∃ rest, decodeAllWithDepthLimit l p s = .ok (.ok v, rest)) ↔
      Decodes (decodeWithDepthLimit l p) s v [] := by
  unfold decodeAllWithDepthLimit Decodes
  cases runSlice (decodeWithDepthLimit l p) s with
  | error h => simp [Bind.bind, Except.bind]
  | ok x =>
    obtain ⟨_ | a, _ | ⟨b, rest⟩⟩ := x <;> simp [Bind.bind, Except.bind, pure, Except.pure]

/-- What a limited decoder accepts is what the plain one accepts within the limit. -/
theorem decodes_limited_iff (hl : l < u32Max) {haltOk : Halt → Prop}
    (hp : Obeys (Discipline.anyDepth haltOk) 0 p) (hrun : runSlice p s = .ok (r, rest)) {v : α}
    {rest' : List Byte} : Decodes (decodeWithDepthLimit l p) s v rest' ↔
      (r = .ok v ∧ rest = rest') ∧ depthReached p s ≤ l := by
  unfold Decodes
  rcases runSlice_limited hl hp hrun with ⟨hd, h⟩ | ⟨hd, e, rest₁, h⟩
  · rw [h]
    simp [hd]
  · rw [h]
    simp [not_le.mpr hd]

end DecodeLimit

/-- `struct Nest(Option<Box<Nest>>)`, a value being the number of boxes in it. -/
def nestDefs : TypeDefs fun _ : Unit => ℕ := fun _ =>
  { ident := "Nest"
    data := .struct (.unnamed (.cons { ident := none, ty := .option (.box (.named ())) } .nil))
    repr :=
      { toFun := fun
          | 0 => (none, ())
          | n + 1 => (some n, ())
        invFun := fun
          | (none, _) => 0
          | (some n, _) => n + 1
        left_inv := fun
          | 0 => rfl
          | _ + 1 => rfl
        right_inv := fun
          | (none, _) => rfl
          | (some _, _) => rfl } }

theorem nestDefs_compiles : nestDefs.Compiles (Platform.unpadded _) where
  check _ := rfl
  fields _ := ⟨trivial, trivial⟩
  layout _ h := nomatch h

/-- The depth limit is exact and harmless, for the library's types and declared ones, recursive or
not, on every input that the plain decoder returns on. -/
theorem TypeDefs.depth_limit_exact {ι : Type} {ν : ι → Type} {P : Platform ν} {Δ : TypeDefs ν}
    (hΔ : Δ.Compiles P) {α : Type} {t : Ty ν α} (ht : t.Compiles P) {fuel : ℕ} {s rest : List Byte}
    {r : Except Error α} (hrun : runSlice (Δ.decode P fuel t).decode s = .ok (r, rest)) :
    let p := (Δ.decode P fuel t).decode
    (∀ l < u32Max, ∀ v, r = .ok v →
      (depthReached p s ≤ l → runSlice (decodeWithDepthLimit l p) s = .ok (.ok v, rest)) ∧
      (l < depthReached p s →
        ∃ e rest', runSlice (decodeWithDepthLimit l p) s = .ok (.error e, rest'))) ∧
    (∀ l < u32Max, ∀ e, r = .error e →
      ∃ e' rest', runSlice (decodeWithDepthLimit l p) s = .ok (.error e', rest')) ∧
    (∀ l l', l ≤ l' → l' < u32Max → ∀ v rest', Decodes (decodeWithDepthLimit l p) s v rest' →
      Decodes (decodeWithDepthLimit l' p) s v rest') ∧
    ∀ l < u32Max, ∀ v, (∃ rest', decodeAllWithDepthLimit l p s = .ok (.ok v, rest')) ↔
      (r = .ok v ∧ rest = []) ∧ depthReached p s ≤ l := by
  intro p
  have hobeys : Obeys (Discipline.anyDepth fun _ => True) 0 p :=
    (TypeDefs.decodeWith_obeys obeys_decodeBytes hΔ (Δ.errorsIn_of_forall fun _ => trivial) trivial
      ht (t.errorsIn_of_forall fun _ => trivial)).decode
  refine ⟨fun l hl v hv => ?_, fun l hl e he => ?_, fun l l' hle hl' v rest' h => ?_,
    fun l hl v => ?_⟩
  · subst hv
    rcases runSlice_limited hl hobeys hrun with ⟨hd, h⟩ | ⟨hd, h⟩
    · exact ⟨fun _ => h, fun hlt => absurd hd (not_le.mpr hlt)⟩
    · exact ⟨fun hle => absurd hle (not_le.mpr hd), fun _ => h⟩
  · subst he
    rcases runSlice_limited hl hobeys hrun with ⟨_, h⟩ | ⟨_, h⟩
    · exact ⟨e, rest, h⟩
    · exact h
  · obtain ⟨hr, hd⟩ := (decodes_limited_iff (hle.trans_lt hl') hobeys hrun).mp h
    exact (decodes_limited_iff hl' hobeys hrun).mpr ⟨hr, hd.trans hle⟩
  · exact decodeAllWithDepthLimit_eq_ok.trans (decodes_limited_iff hl hobeys hrun)

/-- Two boxes in each other : accepted within the limit 2, but not within the limit 1. -/
theorem TypeDefs.depth_limit_exact_nest :
    let P := Platform.unpadded fun _ : Unit => ℕ
    let p := (nestDefs.decode P 3 (.named ())).decode
    depthReached p [1, 1, 0] = 2 ∧ Decodes (decodeWithDepthLimit 2 p) [1, 1, 0] 2 [] ∧
      ∃ e rest, runSlice (decodeWithDepthLimit 1 p) [1, 1, 0] = .ok (.error e, rest) := by
  obtain ⟨h, -⟩ := @TypeDefs.depth_limit_exact _ _ _ _ nestDefs_compiles _ (.named ()) trivial 3
    [1, 1, 0] [] (.ok 2) rfl
  exact ⟨rfl, (h 2 (by decide) 2 rfl).1 (by decide), (h 1 (by decide) 2 rfl).2 (by decide)⟩

end ScaleCodec
