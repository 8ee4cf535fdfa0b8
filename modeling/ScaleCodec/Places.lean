import Mathlib.Control.Lawful
import Mathlib.Data.List.Basic
import Mathlib.Logic.Function.Basic

/-!
# Values built in place

Code that builds values in memory it was given has to release them itself when it cannot finish.
Here memory is a family of cells, each of which holds a value or nothing, with a log of what was
built and of the destructors that were run (`Memory`). Dropping a cell that holds nothing is
undefined (`Exit.undefined`), so a run that ends otherwise dropped only what was there, and nothing
twice.

An `OwnedType` says how a value is made, which may fail, and which destructors dropping one runs.
`PlaceM.onExit` is a guard : code to run when a computation is left early. `PlaceM.Runs` is the run
of a computation, with a rule for each way to put computations together.
-/

namespace ScaleCodec

/-- A value built in a cell, or a destructor of it run. -/
inductive Event (ι δ : Type) where
  | built (i : ι)
  | dropped (i : ι) (d : δ)
deriving DecidableEq, Repr

/-- How a computation is left early. -/
inductive Exit (φ : Type) where
  | failed (f : φ)
  | undefined
deriving DecidableEq, Repr

/-- A computation that ended with the failure given, if any. -/
def Exit.result {φ : Type} : Option φ → Except (Exit φ) Unit
  | none => .ok ()
  | some f => .error (.failed f)

/-- The cells, what has been done to them, and the source values are made from. -/
structure Memory (ι σ α δ : Type) where
  source : σ
  cells : ι → Option α
  log : List (Event ι δ)

/-- Computations in memory, left early by a failure or where their meaning is undefined. -/
abbrev PlaceM (ι σ α δ φ : Type) : Type → Type :=
  ExceptT (Exit φ) (StateM (Memory ι σ α δ))

/-- Values that own something : how one is made, and the destructors run when one is dropped, in
order. -/
structure OwnedType (σ α δ φ : Type) where
  make : σ → Except φ α × σ
  destructors : List δ

/-! ## Runs -/

namespace PlaceM

variable {ι σ α δ φ β γ : Type}

/-- Run `cleanup` if `p` is left early. -/
def onExit (p : PlaceM ι σ α δ φ β) (cleanup : PlaceM ι σ α δ φ Unit) : PlaceM ι σ α δ φ β :=
  tryCatch p fun e => do
    cleanup
    throw e

/-- From memory `m` the computation ends with `r`, in memory `m'`. -/
def Runs (p : PlaceM ι σ α δ φ β) (m : Memory ι σ α δ) (r : Except (Exit φ) β)
    (m' : Memory ι σ α δ) : Prop :=
  p.run.run m = (r, m')

variable {p : PlaceM ι σ α δ φ β} {f : β → PlaceM ι σ α δ φ γ}
  {cleanup : PlaceM ι σ α δ φ Unit} {m m' m'' : Memory ι σ α δ} {e : Exit φ}

theorem runs_pure (b : β) : (pure b : PlaceM ι σ α δ φ β).Runs m (.ok b) m :=
  rfl

theorem Runs.bind {b : β} {r : Except (Exit φ) γ} (hp : p.Runs m (.ok b) m')
    (hf : (f b).Runs m' r m'') : (p >>= f).Runs m r m'' := by
  unfold Runs at hp hf ⊢
  rw [ExceptT.run_bind, StateT.run_bind, hp]
  exact hf

theorem Runs.bind_error (hp : p.Runs m (.error e) m') : (p >>= f).Runs m (.error e) m' := by
  unfold Runs at hp ⊢
  rw [ExceptT.run_bind, StateT.run_bind, hp]
  rfl

theorem Runs.onExit {b : β} (hp : p.Runs m (.ok b) m') : (p.onExit cleanup).Runs m (.ok b) m' := by
  unfold Runs at hp ⊢
  rw [PlaceM.onExit, ExceptT.run_tryCatch, StateT.run_bind, hp]
  rfl

/-- Left early, the computation ends after the cleanup. -/
theorem Runs.onExit_error (hp : p.Runs m (.error e) m') (hcleanup : cleanup.Runs m' (.ok ()) m'') :
    (p.onExit cleanup).Runs m (.error e) m'' := by
  have hthrow : (cleanup >>= fun _ => throw e : PlaceM ι σ α δ φ β).Runs m' (.error e) m'' :=
    hcleanup.bind rfl
  unfold Runs at hp ⊢
  rw [PlaceM.onExit, ExceptT.run_tryCatch, StateT.run_bind, hp]
  exact hthrow

end PlaceM

/-! ## Cells -/

namespace OwnedType

variable {ι σ α δ φ : Type} [DecidableEq ι] (T : OwnedType σ α δ φ)

/-- Dropping a value does something. -/
def needsDrop : Bool :=
  !T.destructors.isEmpty

/-- The log of the value in the cell `i` being dropped. -/
def drops (i : ι) : List (Event ι δ) :=
  T.destructors.map (.dropped i)

/-- A value made and written to the cell `i`. -/
def makeIn (i : ι) : PlaceM ι σ α δ φ Unit := do
  let m ← get
  match T.make m.source with
  | (.ok a, x) =>
    set { source := x, cells := Function.update m.cells i (some a), log := m.log ++ [.built i] :
      Memory ι σ α δ }
  | (.error f, x) =>
    set { m with source := x }
    throw (.failed f)

/-- The value in the cell `i` dropped. -/
def dropIn (i : ι) : PlaceM ι σ α δ φ Unit := do
  let m ← get
  match m.cells i with
  | none => throw .undefined
  | some _ =>
    set { m with cells := Function.update m.cells i none, log := m.log ++ T.drops i }

/-- Values of the types made one after the other, until one fails. -/
def makeEach : List (OwnedType σ α δ φ) → σ → List α × Option φ × σ
  | [], x => ([], none, x)
  | T :: Ts, x =>
    match T.make x with
    | (.ok a, y) =>
      let (as, f, z) := makeEach Ts y
      (a :: as, f, z)
    | (.error f, y) => ([], some f, y)

variable {T} {Ts Us : List (OwnedType σ α δ φ)} {x y : σ}

theorem makeEach_cons_ok {a : α} (h : T.make x = (.ok a, y)) :
    makeEach (T :: Ts) x = (a :: (makeEach Ts y).1, (makeEach Ts y).2) := by
  rw [makeEach, h]

theorem makeEach_cons_error {f : φ} (h : T.make x = (.error f, y)) :
    makeEach (T :: Ts) x = ([], some f, y) := by
  rw [makeEach, h]

theorem length_makeEach : ∀ {Ts : List (OwnedType σ α δ φ)} {x y : σ} {as : List α},
    makeEach Ts x = (as, none, y) → as.length = Ts.length
  | [], _, _, _, h => by
    cases h
    rfl
  | T :: Ts, x, y, as, h => by
    rcases hx : T.make x with ⟨f | a, z⟩
    · rw [makeEach_cons_error hx] at h
      cases h
    · rw [makeEach_cons_ok hx] at h
      obtain ⟨rfl, hrest⟩ := Prod.mk.inj h
      exact congrArg (· + 1) (length_makeEach (Prod.ext rfl hrest))

/-- The first ones are made, and then the others. -/
theorem makeEach_append : ∀ {Ts : List (OwnedType σ α δ φ)} {x y : σ} {as : List α},
    makeEach Ts x = (as, none, y) →
      makeEach (Ts ++ Us) x = (as ++ (makeEach Us y).1, (makeEach Us y).2)
  | [], _, _, _, h => by
    cases h
    rfl
  | T :: Ts, x, y, as, h => by
    rcases hx : T.make x with ⟨f | a, z⟩
    · rw [makeEach_cons_error hx] at h
      cases h
    · rw [makeEach_cons_ok hx] at h
      obtain ⟨rfl, hrest⟩ := Prod.mk.inj h
      rw [List.cons_append, makeEach_cons_ok hx, makeEach_append (Prod.ext rfl hrest)]
      rfl

/-- Once one fails no other is made. -/
theorem makeEach_append_failed : ∀ {Ts : List (OwnedType σ α δ φ)} {x y : σ} {as : List α} {f : φ},
    makeEach Ts x = (as, some f, y) → makeEach (Ts ++ Us) x = (as, some f, y)
  | [], _, _, _, _, h => by cases h
  | T :: Ts, x, y, as, f, h => by
    rw [List.cons_append]
    rcases hx : T.make x with ⟨f' | a, z⟩
    · rw [makeEach_cons_error hx] at h ⊢
      exact h
    · rw [makeEach_cons_ok hx] at h ⊢
      obtain ⟨rfl, hrest⟩ := Prod.mk.inj h
      rw [makeEach_append_failed (Prod.ext rfl hrest)]

variable (T) in
/-- `n` values of the type. -/
def makeMany (n : ℕ) : σ → List α × Option φ × σ :=
  makeEach (List.replicate n T)

variable {n : ℕ} {as : List α}

theorem length_makeMany (h : T.makeMany n x = (as, none, y)) : as.length = n := by
  rw [length_makeEach h, List.length_replicate]

theorem makeMany_add (k : ℕ) (h : T.makeMany n x = (as, none, y)) :
    T.makeMany (n + k) x = (as ++ (T.makeMany k y).1, (T.makeMany k y).2) := by
  rw [makeMany, List.replicate_add]
  exact makeEach_append h

theorem makeMany_add_failed (k : ℕ) {f : φ} (h : T.makeMany n x = (as, some f, y)) :
    T.makeMany (n + k) x = (as, some f, y) := by
  rw [makeMany, List.replicate_add]
  exact makeEach_append_failed h

end OwnedType

/-! ## Cells filled and cleared -/

namespace Memory

variable {ι σ α δ φ : Type} {m m' m'' : Memory ι σ α δ} {is js : List ι} {as bs : List α} {x y : σ}

/-- From `m` to `m'` the values `as` were built in the cells `is`, in order. -/
structure Filled (is : List ι) (as : List α) (x : σ) (m m' : Memory ι σ α δ) : Prop where
  source : m'.source = x
  log : m'.log = m.log ++ is.map .built
  cells : is.map m'.cells = as.map some
  others : ∀ i ∉ is, m'.cells i = m.cells i

/-- From `m` to `m'` the values in the cells `is` were dropped, in order. -/
structure Cleared (T : OwnedType σ α δ φ) (is : List ι) (m m' : Memory ι σ α δ) : Prop where
  source : m'.source = m.source
  log : m'.log = m.log ++ is.flatMap T.drops
  cells : ∀ i ∈ is, m'.cells i = none
  others : ∀ i ∉ is, m'.cells i = m.cells i

theorem Filled.isSome (h : Filled is as x m m') {i : ι} (hi : i ∈ is) : (m'.cells i).isSome := by
  have hmem : m'.cells i ∈ as.map some := h.cells ▸ List.mem_map_of_mem hi
  obtain ⟨a, -, ha⟩ := List.mem_map.mp hmem
  rw [← ha]
  rfl

theorem filled_nil : Filled [] [] m.source m m :=
  ⟨rfl, (List.append_nil _).symm, rfl, fun _ _ => rfl⟩

theorem Filled.append (h : Filled is as x m m') (h' : Filled js bs y m' m'')
    (hdisj : is.Disjoint js) : Filled (is ++ js) (as ++ bs) y m m'' where
  source := h'.source
  log := by rw [h'.log, h.log, List.append_assoc, List.map_append]
  cells := by
    have hkeep : is.map m''.cells = is.map m'.cells :=
      List.map_congr_left fun i hi => h'.others i fun hj => hdisj hi hj
    rw [List.map_append, List.map_append, hkeep, h.cells, h'.cells]
  others i hi := by
    rw [List.mem_append, not_or] at hi
    rw [h'.others i hi.2, h.others i hi.1]

variable {T : OwnedType σ α δ φ}

theorem cleared_nil : Cleared T [] m m :=
  ⟨rfl, (List.append_nil _).symm, fun _ h => absurd h List.not_mem_nil, fun _ _ => rfl⟩

theorem Cleared.append (h : Cleared T is m m') (h' : Cleared T js m' m'') :
    Cleared T (is ++ js) m m'' where
  source := h'.source.trans h.source
  log := by rw [h'.log, h.log, List.append_assoc, List.flatMap_append]
  cells i hi := by
    by_cases hj : i ∈ js
    · exact h'.cells i hj
    · rw [h'.others i hj]
      exact h.cells i ((List.mem_append.mp hi).resolve_right hj)
  others i hi := by
    rw [List.mem_append, not_or] at hi
    rw [h'.others i hi.2, h.others i hi.1]

end Memory

namespace OwnedType

variable {ι σ α δ φ : Type} [DecidableEq ι] {T : OwnedType σ α δ φ} {m : Memory ι σ α δ} {i : ι}
  {x : σ}

theorem exists_runs_makeIn {a : α} (h : T.make m.source = (.ok a, x)) :
    ∃ m', (T.makeIn i).Runs m (.ok ()) m' ∧ Memory.Filled [i] [a] x m m' := by
  refine ⟨⟨x, Function.update m.cells i (some a), m.log ++ [.built i]⟩, ?_, rfl, rfl, ?_, ?_⟩
  · refine PlaceM.Runs.bind (b := m) rfl ?_
    rw [h]
    rfl
  · exact congrArg (fun b => [b]) (Function.update_self i _ m.cells)
  · exact fun j hj => Function.update_of_ne (List.mem_singleton.not.mp hj) _ _

theorem runs_makeIn_failed {f : φ} (h : T.make m.source = (.error f, x)) :
    (T.makeIn i).Runs m (.error (.failed f)) { m with source := x } := by
  refine PlaceM.Runs.bind (b := m) rfl ?_
  rw [h]
  rfl

theorem exists_runs_dropIn (h : (m.cells i).isSome) :
    ∃ m', (T.dropIn i).Runs m (.ok ()) m' ∧ Memory.Cleared T [i] m m' := by
  obtain ⟨a, ha⟩ := Option.isSome_iff_exists.mp h
  refine ⟨{ m with cells := Function.update m.cells i none, log := m.log ++ T.drops i }, ?_, rfl,
    ?_, ?_, ?_⟩
  · refine PlaceM.Runs.bind (b := m) rfl ?_
    rw [ha]
    rfl
  · rw [List.flatMap_singleton]
  · intro j hj
    rw [List.mem_singleton.mp hj]
    exact Function.update_self i _ m.cells
  · exact fun j hj => Function.update_of_ne (List.mem_singleton.not.mp hj) _ _

end OwnedType

end ScaleCodec
