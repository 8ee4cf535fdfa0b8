import ScaleCodec.Places
import ScaleCodec.Sequences

/-!
# What a failed array releases

`<[T; N]>::decode_into` decodes the items of an array into the memory of the array, and a guard
drops those decoded so far when an item fails or panics. Here it runs on cells that hold a value or
nothing (`Shape.decodeInto`), for arrays of arrays of any dimension : an inner array is an item of
the outer one, with a guard of its own.

What one row does (`Shape.Tidy`) gives what the loop over the rows does
(`Shape.exists_runs_decodeLoop`), and so by induction on the dimension what any array does
(`Shape.tidy`) : it is built in full, or all it built is dropped, each item once
(`Shape.decodeInto_releases`). The cells then hold the value of `arrayDecodeInto`, with the same
outcome (`Shape.decodeInto_refines`, `Shape.arrayDecodeInto_eq_decode`).
-/

namespace ScaleCodec

/-! ## Decoders in memory -/

/-- A decoder returned `Err(e)`, or did not return. -/
inductive Failure where
  | err (e : Error)
  | panic (e : Halt)
deriving DecidableEq, Repr

/-- The values `p` decodes from the input `h`. -/
def OwnedType.ofDecoder {σ α δ : Type} (h : Handler inputInterface Halt σ) (p : DecodeM α)
    (destructors : List δ) : OwnedType σ α δ Failure where
  make x :=
    match p.run.run h x with
    | .ok (.ok a, y) => (.ok a, y)
    | .ok (.error e, y) => (.error (.err e), y)
    | .error e => (.error (.panic e), x)
  destructors := destructors

section Decoders

variable {ι σ α β γ δ : Type} {h : Handler inputInterface Halt σ}
  {Ts Us : List (OwnedType σ α δ Failure)} {R : β → List α → Prop}

/-- The values made are those of what the run of a decoder returned, and both end in the same
way. -/
def Agrees (R : β → List α → Prop) :
    Except Halt (Except Error β × σ) → List α × Option Failure × σ → Prop
  | .ok (.ok b, y), made => ∃ as, made = (as, none, y) ∧ R b as
  | .ok (.error e, y), made => made.2 = (some (.err e), y)
  | .error e, made => made.2.1 = some (.panic e)

theorem agrees_ofDecoder (p : DecodeM α) (ds : List δ) (x : σ) : Agrees (fun a as => as = [a])
    (p.run.run h x) (OwnedType.makeEach [.ofDecoder h p ds] x) := by
  have hmake : ∀ {r}, p.run.run h x = r → (OwnedType.ofDecoder h p ds).make x = match r with
      | .ok (.ok a, y) => (.ok a, y)
      | .ok (.error e, y) => (.error (.err e), y)
      | .error e => (.error (.panic e), x) := by
    rintro r rfl
    rfl
  rcases hrun : p.run.run h x with e | ⟨e | a, y⟩
  · rw [OwnedType.makeEach_cons_error (hmake hrun)]
    rfl
  · rw [OwnedType.makeEach_cons_error (hmake hrun)]
    rfl
  · rw [OwnedType.makeEach_cons_ok (hmake hrun)]
    exact ⟨[a], rfl, rfl⟩

theorem agrees_bind_pure {S : γ → List α → Prop} {p : DecodeM β} {g : β → γ} {x : σ}
    {made : List α × Option Failure × σ} (hp : Agrees R (p.run.run h x) made)
    (hS : ∀ b as, R b as → S (g b) as) :
    Agrees S ((p >>= fun b => pure (g b)).run.run h x) made := by
  rw [DecodeM.run_bind_run]
  generalize p.run.run h x = r at hp ⊢
  rcases r with e | ⟨e | b, y⟩
  · exact hp
  · exact hp
  · obtain ⟨as, hmade, hR⟩ := hp
    exact ⟨as, hmade, hS b as hR⟩

/-- One decoder after the other. -/
theorem agrees_bind {S : γ → List α → Prop} {T : β → γ → List α → Prop} {p : DecodeM β}
    {f : β → DecodeM γ} {x : σ} (hp : Agrees R (p.run.run h x) (OwnedType.makeEach Ts x))
    (hf : ∀ b y, Agrees (T b) ((f b).run.run h y) (OwnedType.makeEach Us y))
    (hS : ∀ b c as bs, R b as → T b c bs → S c (as ++ bs)) :
    Agrees S ((p >>= f).run.run h x) (OwnedType.makeEach (Ts ++ Us) x) := by
  rw [DecodeM.run_bind_run]
  rcases hmade : OwnedType.makeEach Ts x with ⟨as, g, y⟩
  rw [hmade] at hp
  generalize p.run.run h x = r at hp ⊢
  rcases r with e | ⟨e | b, y'⟩
  · obtain rfl : g = some (.panic e) := hp
    rw [OwnedType.makeEach_append_failed hmade]
    rfl
  · obtain ⟨rfl, rfl⟩ : g = some (.err e) ∧ y = y' := Prod.mk.inj hp
    rw [OwnedType.makeEach_append_failed hmade]
    rfl
  · obtain ⟨as', has, hR⟩ := hp
    cases has
    have hnext := hf b y
    rw [OwnedType.makeEach_append hmade]
    show Agrees S ((f b).run.run h y) _
    generalize (f b).run.run h y = r at hnext ⊢
    rcases r with e | ⟨e | c, z⟩
    · exact hnext
    · exact hnext
    · obtain ⟨bs, hbs, hT⟩ := hnext
      rw [hbs]
      exact ⟨as ++ bs, rfl, hS b c as bs hR hT⟩

/-- In memory `m`, the computation ends as the run of a decoder did, with what it returned. -/
def PlaceM.Refines (p : PlaceM ι σ α δ Failure Unit) (m : Memory ι σ α δ)
    (R : β → Memory ι σ α δ → Prop) : Except Halt (Except Error β × σ) → Prop
  | .ok (.ok b, y) => ∃ m', p.Runs m (.ok ()) m' ∧ m'.source = y ∧ R b m'
  | .ok (.error e, y) => ∃ m', p.Runs m (.error (.failed (.err e))) m' ∧ m'.source = y
  | .error e => ∃ m', p.Runs m (.error (.failed (.panic e))) m'

theorem PlaceM.refines_of_agrees {p : PlaceM ι σ α δ Failure Unit} {m : Memory ι σ α δ}
    {S : β → Memory ι σ α δ → Prop} {r : Except Halt (Except Error β × σ)}
    {made : List α × Option Failure × σ} (hr : Agrees R r made)
    (hruns : ∀ {as f y}, made = (as, f, y) → ∃ m', p.Runs m (Exit.result f) m' ∧ m'.source = y ∧
      (f = none → ∀ b, R b as → S b m')) : p.Refines m S r := by
  obtain ⟨as, f, z⟩ := made
  obtain ⟨m', hrun, hsource, hS⟩ := hruns rfl
  rcases r with e | ⟨e | b, y⟩
  · obtain rfl : f = some (.panic e) := hr
    exact ⟨m', hrun⟩
  · obtain ⟨rfl, rfl⟩ : f = some (.err e) ∧ z = y := Prod.mk.inj hr
    exact ⟨m', hrun, hsource⟩
  · obtain ⟨as', has, hR⟩ := hr
    cases has
    exact ⟨m', hrun, hsource, hS rfl b hR⟩

end Decoders

/-! ## Arrays of arrays -/

/-- The item type, or arrays of it. -/
inductive Shape where
  | item
  | array (n : ℕ) (s : Shape)

namespace Shape

/-- The items of a value of the shape, by their indices. -/
abbrev Slot : Shape → Type
  | item => Unit
  | array n s => Fin n × s.Slot

/-- The items in memory order. -/
def slots : (s : Shape) → List s.Slot
  | item => [()]
  | array n s => (List.finRange n).flatMap fun i => s.slots.map (i, ·)

/-- The items before the item `p`. -/
def before : (s : Shape) → s.Slot → List s.Slot
  | item, _ => []
  | array n s, (k, p) =>
    ((List.finRange n).take k).flatMap (fun i => s.slots.map (i, ·)) ++ (s.before p).map (k, ·)

/-- The items dropped when the item `p` fails : an inner array drops its own first, and then the
outer one its rows. -/
def released : (s : Shape) → s.Slot → List s.Slot
  | item, _ => []
  | array n s, (k, p) =>
    (s.released p).map (k, ·) ++ ((List.finRange n).take k).flatMap (fun i => s.slots.map (i, ·))

section Memory

variable {ι σ α δ φ : Type} [DecidableEq ι] (T : OwnedType σ α δ φ)

/-- `mem::needs_drop`. -/
def needsDrop : Shape → Bool
  | item => T.needsDrop
  | array n s => n != 0 && s.needsDrop

/-- `MaybeUninit::assume_init_drop` : an array drops its items in order. -/
def assumeInitDrop : (s : Shape) → (s.Slot → ι) → PlaceM ι σ α δ φ Unit
  | item, dst => T.dropIn (dst ())
  | array n s, dst => (List.finRange n).forM fun i => s.assumeInitDrop fun p => dst (i, p)

/-- `<State as Drop>::drop` : the first `count` items of `slice`. -/
def stateDrop (n : ℕ) (s : Shape) (slice : Fin n × s.Slot → ι) (count : ℕ) :
    PlaceM ι σ α δ φ Unit :=
  if s.needsDrop T then
    ((List.finRange n).take count).forM fun i => s.assumeInitDrop T fun p => slice (i, p)
  else pure ()

/-- The loop of `decode_into`, with `state.count` items decoded. It is left by `?` or by a panic,
either of which drops `state`, or when all items are decoded, and `state` is forgotten. Fuel is an
upper bound of its turns. -/
def decodeLoop {n : ℕ} (decodeItem : Fin n → PlaceM ι σ α δ φ Unit)
    (drop : ℕ → PlaceM ι σ α δ φ Unit) : ℕ → ℕ → PlaceM ι σ α δ φ Unit
  | 0, _ => pure ()
  | fuel + 1, count =>
    if h : count < n then do
      (decodeItem ⟨count, h⟩).onExit (drop count)
      decodeLoop decodeItem drop fuel (count + 1)
    else pure ()

/-- `<[T; N]>::decode_into`, item by item. -/
def decodeInto : (s : Shape) → (s.Slot → ι) → PlaceM ι σ α δ φ Unit
  | item, dst => T.makeIn (dst ())
  | array n s, dst =>
    decodeLoop (fun i => s.decodeInto fun p => dst (i, p)) (stateDrop T n s dst) n 0

end Memory

/-! ## The order of the items -/

theorem finRange_eq_append {n : ℕ} (k : Fin n) :
    List.finRange n = (List.finRange n).take k ++ k :: (List.finRange n).drop (k + 1) := by
  have hk : (k : ℕ) < (List.finRange n).length := by
    rw [List.length_finRange]
    exact k.isLt
  conv_lhs => rw [← List.take_append_drop k (List.finRange n), List.drop_eq_getElem_cons hk]
  rw [List.getElem_finRange]
  rfl

/-- The items are those before `p`, `p` itself and others. -/
theorem exists_slots_eq : ∀ {s : Shape} (p : s.Slot), ∃ after, s.slots = s.before p ++ p :: after
  | item, _ => ⟨[], rfl⟩
  | array n s, (k, p) => by
    obtain ⟨after, hs⟩ := exists_slots_eq p
    refine ⟨after.map (k, ·) ++
      ((List.finRange n).drop (k + 1)).flatMap fun i => s.slots.map (i, ·), ?_⟩
    show (List.finRange n).flatMap (fun i => s.slots.map (i, ·)) = _ ++ _ ++ _
    conv_lhs => rw [finRange_eq_append k, List.flatMap_append, List.flatMap_cons]
    rw [hs]
    simp

theorem length_slots_array (n : ℕ) (s : Shape) :
    (array n s).slots.length = n * s.slots.length := by
  show ((List.finRange n).flatMap _).length = _
  rw [List.length_flatMap]
  simp

theorem mem_slots {s : Shape} (p : s.Slot) : p ∈ s.slots := by
  obtain ⟨after, hs⟩ := exists_slots_eq p
  rw [hs]
  exact List.mem_append_right _ List.mem_cons_self

theorem nodup_slots : ∀ s : Shape, s.slots.Nodup
  | item => List.nodup_singleton ()
  | array n s => by
    refine List.nodup_flatMap.mpr ⟨fun i _ => ?_, ?_⟩
    · exact (nodup_slots s).map (Prod.mk_right_injective i)
    · refine (List.nodup_finRange n).imp fun {i j} hij q hi hj => ?_
      obtain ⟨_, -, rfl⟩ := List.mem_map.mp hi
      obtain ⟨_, -, h⟩ := List.mem_map.mp hj
      exact hij (congrArg Prod.fst h).symm

/-- What is dropped is what was there, each item once. -/
theorem released_perm_before : ∀ {s : Shape} (p : s.Slot), (s.released p).Perm (s.before p)
  | item, _ => List.Perm.refl _
  | array _ _, (_, p) =>
    (((released_perm_before p).map _).append_right _).trans List.perm_append_comm

/-! ## Dropping -/

section Runs

variable {ι σ α δ φ : Type} {T : OwnedType σ α δ φ} {n : ℕ} {s : Shape} {m m' : Memory ι σ α δ}

/-- The cells of one row of an array. -/
abbrev row (dst : Fin n × s.Slot → ι) (i : Fin n) : List ι :=
  s.slots.map fun p => dst (i, p)

theorem map_flatMap_slots (dst : Fin n × s.Slot → ι) (rows : List (Fin n)) :
    (rows.flatMap fun i => s.slots.map (i, ·)).map dst = rows.flatMap (row dst) := by
  rw [List.map_flatMap]
  simp only [List.map_map]
  rfl

/-- The cells of an array are those of its rows. -/
theorem map_slots_array (dst : Fin n × s.Slot → ι) :
    (array n s).slots.map dst = (List.finRange n).flatMap (row dst) :=
  map_flatMap_slots dst _

/-- A type that does not need to be dropped has no destructors to run. -/
theorem drops_eq_nil : ∀ {s : Shape} (dst : s.Slot → ι), s.needsDrop T = false →
    (s.slots.map dst).flatMap T.drops = []
  | item, dst, h => by
    have hnil : T.destructors = [] := by
      rw [needsDrop, OwnedType.needsDrop, Bool.not_eq_false', List.isEmpty_iff] at h
      exact h
    simp [slots, OwnedType.drops, hnil]
  | array n s, dst, h => by
    rw [map_slots_array, List.flatMap_assoc]
    rcases Bool.and_eq_false_iff.mp h with hn | hs
    · obtain rfl : n = 0 := by simpa using hn
      rfl
    · refine List.flatMap_eq_nil_iff.mpr fun i _ => ?_
      exact drops_eq_nil (fun p => dst (i, p)) hs

variable [DecidableEq ι] {dst : Fin n × s.Slot → ι}

/-- The rows are dropped one after the other. -/
theorem exists_runs_dropRows
    (hdrop : ∀ {dst : s.Slot → ι} {m : Memory ι σ α δ}, (s.slots.map dst).Nodup →
      (∀ i ∈ s.slots.map dst, (m.cells i).isSome) →
        ∃ m', (s.assumeInitDrop T dst).Runs m (.ok ()) m' ∧ m.Cleared T (s.slots.map dst) m') :
    ∀ {rows : List (Fin n)} {m : Memory ι σ α δ}, (rows.flatMap (row dst)).Nodup →
      (∀ i ∈ rows.flatMap (row dst), (m.cells i).isSome) →
        ∃ m', (rows.forM fun i => s.assumeInitDrop T fun p => dst (i, p)).Runs m (.ok ()) m' ∧
          m.Cleared T (rows.flatMap (row dst)) m'
  | [], m, _, _ => ⟨m, PlaceM.runs_pure _, Memory.cleared_nil⟩
  | i :: rows, m, hnodup, hm => by
    rw [List.flatMap_cons] at hnodup hm ⊢
    obtain ⟨hrow, hrows, hdisj⟩ := List.nodup_append'.mp hnodup
    obtain ⟨m₁, hrun₁, hclear₁⟩ := hdrop hrow fun c hc => hm c (List.mem_append_left _ hc)
    have hm₁ : ∀ c ∈ rows.flatMap (row dst), (m₁.cells c).isSome := by
      intro c hc
      rw [hclear₁.others c fun hc' => hdisj hc' hc]
      exact hm c (List.mem_append_right _ hc)
    obtain ⟨m₂, hrun₂, hclear₂⟩ := exists_runs_dropRows hdrop hrows hm₁
    exact ⟨m₂, hrun₁.bind hrun₂, hclear₁.append hclear₂⟩

theorem exists_runs_assumeInitDrop : ∀ {s : Shape} {dst : s.Slot → ι} {m : Memory ι σ α δ},
    (s.slots.map dst).Nodup → (∀ i ∈ s.slots.map dst, (m.cells i).isSome) →
      ∃ m', (s.assumeInitDrop T dst).Runs m (.ok ()) m' ∧ m.Cleared T (s.slots.map dst) m'
  | item, dst, m, _, hm => OwnedType.exists_runs_dropIn (hm _ (List.mem_singleton.mpr rfl))
  | array n s, dst, m, hnodup, hm => by
    rw [map_slots_array] at hnodup hm ⊢
    exact exists_runs_dropRows exists_runs_assumeInitDrop hnodup hm

/-- From `m` to `m'` the values in the cells `is` were released : dropped, if they need to be. -/
structure Freed (T : OwnedType σ α δ φ) (s : Shape) (is : List ι) (m m' : Memory ι σ α δ) :
    Prop where
  source : m'.source = m.source
  log : m'.log = m.log ++ is.flatMap T.drops
  cells : s.needsDrop T = true → ∀ i ∈ is, m'.cells i = none
  others : ∀ i ∉ is, m'.cells i = m.cells i

/-- The guard releases the rows decoded so far. -/
theorem exists_runs_stateDrop {done rest : List (Fin n)} (hrange : List.finRange n = done ++ rest)
    (hnodup : (done.flatMap (row dst)).Nodup)
    (hm : ∀ i ∈ done.flatMap (row dst), (m.cells i).isSome) :
    ∃ m', (stateDrop T n s dst done.length).Runs m (.ok ()) m' ∧
      Freed T s (done.flatMap (row dst)) m m' := by
  have htake : (List.finRange n).take done.length = done := by
    rw [hrange, List.take_left]
  unfold stateDrop
  cases hs : s.needsDrop T with
  | true =>
    obtain ⟨m', hrun, hclear⟩ := exists_runs_dropRows exists_runs_assumeInitDrop hnodup hm
    rw [if_pos rfl, htake]
    exact ⟨m', hrun, hclear.source, hclear.log, fun _ => hclear.cells, hclear.others⟩
  | false =>
    refine ⟨m, PlaceM.runs_pure _, rfl, ?_, fun h => ?_, fun _ _ => rfl⟩
    · rw [List.flatMap_assoc, List.flatMap_eq_nil_iff.mpr fun i _ => drops_eq_nil _ hs,
        List.append_nil]
    · rw [hs] at h
      cases h

/-! ## Decoding -/

/-- From `m` to `m'` the items before `p` were built, and then released. -/
structure Undone (T : OwnedType σ α δ φ) (s : Shape) (dst : s.Slot → ι) (p : s.Slot) (x : σ)
    (m m' : Memory ι σ α δ) : Prop where
  source : m'.source = x
  log : m'.log = m.log ++ ((s.before p).map dst).map .built ++
    ((s.released p).map dst).flatMap T.drops
  cells : s.needsDrop T = true → ∀ i ∈ s.slots.map dst, m'.cells i = none
  others : ∀ i ∉ s.slots.map dst, m'.cells i = m.cells i

/-- Decoding into cells that hold nothing fills them all, or fails at an item with the items before
it released. -/
def Tidy (ι : Type) [DecidableEq ι] (T : OwnedType σ α δ φ) (s : Shape) : Prop :=
  ∀ {dst : s.Slot → ι} {m : Memory ι σ α δ}, (s.slots.map dst).Nodup →
    (∀ i ∈ s.slots.map dst, m.cells i = none) →
      (∀ {as x}, T.makeMany s.slots.length m.source = (as, none, x) →
        ∃ m', (s.decodeInto T dst).Runs m (.ok ()) m' ∧ m.Filled (s.slots.map dst) as x m') ∧
      ∀ {as f x}, T.makeMany s.slots.length m.source = (as, some f, x) →
        ∃ p m', as.length = (s.before p).length ∧
          (s.decodeInto T dst).Runs m (.error (.failed f)) m' ∧ Undone T s dst p x m m'

theorem tidy_item : Tidy ι T item := by
  intro dst m hnodup hm
  have hone : T.makeMany item.slots.length m.source = OwnedType.makeEach [T] m.source := rfl
  rw [hone]
  rcases hmake : T.make m.source with ⟨f | a, x⟩
  · rw [OwnedType.makeEach_cons_error hmake]
    refine ⟨fun h => (by cases h), fun h => ?_⟩
    cases h
    refine ⟨(), _, rfl, OwnedType.runs_makeIn_failed hmake, rfl, ?_, fun _ => hm, fun _ _ => rfl⟩
    simp [before, released]
  · rw [OwnedType.makeEach_cons_ok hmake]
    refine ⟨fun h => ?_, fun h => by cases h⟩
    cases h
    exact OwnedType.exists_runs_makeIn hmake

/-- From `m` to `m'` the rows `mid` were built, of the row `i` the items before `p`, and then these
were released and the rows, with those built earlier. -/
structure Interrupted (T : OwnedType σ α δ φ) (dst : Fin n × s.Slot → ι)
    (done mid : List (Fin n)) (i : Fin n) (p : s.Slot) (x : σ) (m m' : Memory ι σ α δ) :
    Prop where
  source : m'.source = x
  log : m'.log = m.log ++
    (mid.flatMap (row dst) ++ (s.before p).map fun q => dst (i, q)).map .built ++
      ((s.released p).map (fun q => dst (i, q)) ++ (done ++ mid).flatMap (row dst)).flatMap T.drops
  cells : s.needsDrop T = true → ∀ c ∈ (List.finRange n).flatMap (row dst), m'.cells c = none
  others : ∀ c ∉ (List.finRange n).flatMap (row dst), m'.cells c = m.cells c

omit [DecidableEq ι] in
theorem decodeLoop_succ (decodeItem : Fin n → PlaceM ι σ α δ φ Unit)
    (drop : ℕ → PlaceM ι σ α δ φ Unit) (fuel : ℕ) (i : Fin n) :
    decodeLoop decodeItem drop (fuel + 1) i = (do
      (decodeItem i).onExit (drop i)
      decodeLoop decodeItem drop fuel (i + 1)) :=
  dif_pos i.isLt

theorem coe_eq_length {done rest : List (Fin n)} {i : Fin n}
    (hrange : List.finRange n = done ++ i :: rest) : (i : ℕ) = done.length := by
  have hlt : done.length < (List.finRange n).length := by
    rw [hrange, List.length_append, List.length_cons]
    omega
  have hget : (List.finRange n)[done.length] = i := by
    simp only [hrange, List.getElem_append_right le_rfl, Nat.sub_self, List.getElem_cons_zero]
  rw [← hget, List.getElem_finRange]
  rfl

/-- The loop decodes the rows left, or is left early at one of their items. -/
theorem exists_runs_decodeLoop (hs : Tidy ι T s)
    (hnodup : ((List.finRange n).flatMap (row dst)).Nodup) :
    ∀ {rest done : List (Fin n)} {m : Memory ι σ α δ}, List.finRange n = done ++ rest →
      (∀ c ∈ done.flatMap (row dst), (m.cells c).isSome) →
      (∀ c ∈ rest.flatMap (row dst), m.cells c = none) →
      (∀ {as x}, T.makeMany (rest.length * s.slots.length) m.source = (as, none, x) →
        ∃ m', (decodeLoop (fun i => s.decodeInto T fun p => dst (i, p)) (stateDrop T n s dst)
          rest.length done.length).Runs m (.ok ()) m' ∧
            m.Filled (rest.flatMap (row dst)) as x m') ∧
      ∀ {as f x}, T.makeMany (rest.length * s.slots.length) m.source = (as, some f, x) →
        ∃ mid i after p m', rest = mid ++ i :: after ∧
          as.length = (mid.flatMap (row dst)).length + (s.before p).length ∧
          (decodeLoop (fun i => s.decodeInto T fun p => dst (i, p)) (stateDrop T n s dst)
            rest.length done.length).Runs m (.error (.failed f)) m' ∧
          Interrupted T dst done mid i p x m m'
  | [], done, m, _, _, _ => by
    have hzero : T.makeMany (([] : List (Fin n)).length * s.slots.length) m.source =
        ([], none, m.source) := by
      rw [List.length_nil, Nat.zero_mul]
      rfl
    rw [hzero]
    refine ⟨fun h => ?_, fun h => (by cases h)⟩
    cases h
    exact ⟨m, PlaceM.runs_pure _, Memory.filled_nil⟩
  | i :: rest, done, m, hrange, hdone, hrest => by
    have hstep := decodeLoop_succ (fun i => s.decodeInto T fun p => dst (i, p))
      (stateDrop T n s dst) rest.length i
    rw [coe_eq_length hrange] at hstep
    have hmany : (i :: rest).length * s.slots.length =
        s.slots.length + rest.length * s.slots.length := by
      rw [List.length_cons, Nat.succ_mul, Nat.add_comm]
    have hcells : (List.finRange n).flatMap (row dst) =
        done.flatMap (row dst) ++ (row dst i ++ rest.flatMap (row dst)) := by
      rw [hrange, List.flatMap_append, List.flatMap_cons]
    have hmem : ∀ c, c ∈ (List.finRange n).flatMap (row dst) ↔
        c ∈ done.flatMap (row dst) ∨ c ∈ row dst i ∨ c ∈ rest.flatMap (row dst) := fun c => by
      rw [hcells, List.mem_append, List.mem_append]
    obtain ⟨hnodupDone, hnodupRest, hdisjDone⟩ := List.nodup_append'.mp (hcells ▸ hnodup)
    obtain ⟨hnodupRow, -, hdisjRow⟩ := List.nodup_append'.mp hnodupRest
    obtain ⟨hok, hfail⟩ := hs hnodupRow fun c hc => hrest c (List.mem_append_left _ hc)
    rw [hmany, List.length_cons, hstep]
    rcases hrow : T.makeMany s.slots.length m.source with ⟨as₁, _ | f₁, x₁⟩
    · -- the row is built, and the loop goes on with the others
      obtain ⟨m₁, hrun₁, hfilled₁⟩ := hok hrow
      have hrange₁ : List.finRange n = (done ++ [i]) ++ rest := by
        rw [hrange, List.append_assoc]
        rfl
      have hdone₁ : ∀ c ∈ (done ++ [i]).flatMap (row dst), (m₁.cells c).isSome := by
        intro c hc
        rw [List.flatMap_append, List.flatMap_singleton, List.mem_append] at hc
        by_cases hc' : c ∈ row dst i
        · exact hfilled₁.isSome hc'
        · rw [hfilled₁.others c hc']
          exact hdone c (hc.resolve_right hc')
      have hrest₁ : ∀ c ∈ rest.flatMap (row dst), m₁.cells c = none := by
        intro c hc
        rw [hfilled₁.others c fun hc' => hdisjRow hc' hc]
        exact hrest c (List.mem_append_right _ hc)
      obtain ⟨hok₁, hfail₁⟩ := exists_runs_decodeLoop hs hnodup hrange₁ hdone₁ hrest₁
      rw [List.length_append, List.length_singleton, hfilled₁.source] at hok₁ hfail₁
      rw [OwnedType.makeMany_add _ hrow]
      refine ⟨fun h => ?_, fun h => ?_⟩
      · obtain ⟨rfl, hrest⟩ := Prod.mk.inj h
        obtain ⟨m₂, hrun₂, hfilled₂⟩ := hok₁ (Prod.ext rfl hrest)
        exact ⟨m₂, hrun₁.onExit.bind hrun₂, hfilled₁.append hfilled₂ hdisjRow⟩
      · obtain ⟨rfl, hrest⟩ := Prod.mk.inj h
        obtain ⟨mid, k, after, p, m₂, hsplit, hlen, hrun₂, hint⟩ := hfail₁ (Prod.ext rfl hrest)
        refine ⟨i :: mid, k, after, p, m₂, congrArg (i :: ·) hsplit, ?_,
          hrun₁.onExit.bind hrun₂, hint.source, ?_, hint.cells, fun c hc => ?_⟩
        · rw [List.length_append, hlen, OwnedType.length_makeMany hrow, List.flatMap_cons,
            List.length_append, List.length_map, Nat.add_assoc]
        · rw [hint.log, hfilled₁.log]
          simp
        · rw [hint.others c hc]
          exact hfilled₁.others c fun hc' => hc ((hmem c).mpr (Or.inr (Or.inl hc')))
    · -- the row releases what it built of itself, and the guard the rows before it
      obtain ⟨p, m₁, hlen, hrun₁, hundone⟩ := hfail hrow
      rw [OwnedType.makeMany_add_failed _ hrow]
      refine ⟨fun h => (by cases h), fun h => ?_⟩
      cases h
      have hdone₁ : ∀ c ∈ done.flatMap (row dst), (m₁.cells c).isSome := by
        intro c hc
        rw [hundone.others c fun hc' => hdisjDone hc (List.mem_append_left _ hc')]
        exact hdone c hc
      obtain ⟨m₂, hrun₂, hfreed⟩ := exists_runs_stateDrop (T := T) hrange hnodupDone hdone₁
      refine ⟨[], i, rest, p, m₂, rfl, ?_, (hrun₁.onExit_error hrun₂).bind_error, ?_⟩
      · rw [hlen]
        simp
      · refine ⟨hfreed.source.trans hundone.source, ?_, fun hneeds c hc => ?_, fun c hc => ?_⟩
        · rw [hfreed.log, hundone.log]
          simp
        · by_cases hc' : c ∈ done.flatMap (row dst)
          · exact hfreed.cells hneeds c hc'
          rw [hfreed.others c hc']
          by_cases hci : c ∈ row dst i
          · exact hundone.cells hneeds c hci
          rw [hundone.others c hci]
          have hcr := (((hmem c).mp hc).resolve_left hc').resolve_left hci
          exact hrest c (List.mem_append_right _ hcr)
        · rw [hfreed.others c fun hc' => hc ((hmem c).mpr (Or.inl hc'))]
          exact hundone.others c fun hc' => hc ((hmem c).mpr (Or.inr (Or.inl hc')))

/-- An array of tidy rows is tidy. -/
theorem tidy_array (hs : Tidy ι T s) : Tidy ι T (array n s) := by
  intro dst m hnodup hm
  rw [map_slots_array] at hnodup hm ⊢
  rw [length_slots_array]
  have hrange : List.finRange n = [] ++ List.finRange n := rfl
  obtain ⟨hok, hfail⟩ := exists_runs_decodeLoop hs hnodup hrange (fun c hc => by cases hc) hm
  rw [List.length_finRange] at hok hfail
  refine ⟨fun h => hok h, fun h => ?_⟩
  obtain ⟨mid, i, after, p, m', hsplit, has, hrun, hint⟩ := hfail h
  have hmid : mid = (List.finRange n).take i := by
    rw [coe_eq_length hsplit, hsplit, List.take_left]
  subst hmid
  have hbefore : ((array n s).before (i, p)).map dst =
      ((List.finRange n).take i).flatMap (row dst) ++ (s.before p).map fun q => dst (i, q) := by
    show List.map dst (_ ++ (s.before p).map _) = _
    rw [List.map_append, map_flatMap_slots, List.map_map]
    rfl
  have hreleased : ((array n s).released (i, p)).map dst =
      (s.released p).map (fun q => dst (i, q)) ++
        ((List.finRange n).take i).flatMap (row dst) := by
    show List.map dst ((s.released p).map _ ++ _) = _
    rw [List.map_append, map_flatMap_slots, List.map_map]
    rfl
  refine ⟨(i, p), m', ?_, hrun, hint.source, ?_, fun hneeds => ?_, ?_⟩
  · rw [has, ← List.length_map dst, hbefore, List.length_append, List.length_map]
  · rw [hbefore, hreleased]
    exact hint.log
  · rw [map_slots_array]
    exact hint.cells (Bool.and_eq_true_iff.mp hneeds).2
  · rw [map_slots_array]
    exact hint.others

/-- Arrays of any dimension are tidy. -/
theorem tidy : ∀ s : Shape, Tidy ι T s
  | item => tidy_item
  | array _ s => tidy_array (tidy s)

end Runs

/-! ## The decoder of arrays -/

section Decoders

variable {σ α β δ : Type} {h : Handler inputInterface Halt σ} {p : DecodeM α}

/-- The values of the shape. -/
abbrev Val (α : Type) : Shape → Type
  | item => α
  | array n s => List.Vector (s.Val α) n

/-- The items of a value. -/
def values : (s : Shape) → s.Val α → List α
  | item, a => [a]
  | array _ s, v => v.toList.flatMap s.values

/-- `decode_into` of the shape, with the value it leaves in memory, for items decoded by `p`. -/
def decode (p : DecodeM α) : (s : Shape) → DecodeM (s.Val α)
  | item => p
  | array n s => (s.decode p).vectorM n

theorem agrees_vectorM {Ts : List (OwnedType σ α δ Failure)} {values : β → List α}
    {q : DecodeM β} (hq : ∀ x, Agrees (fun b as => as = values b) (q.run.run h x)
      (OwnedType.makeEach Ts x)) : ∀ (n : ℕ) (x : σ),
    Agrees (fun v as => as = v.toList.flatMap values) ((q.vectorM n).run.run h x)
      (OwnedType.makeEach (List.replicate n Ts).flatten x)
  | 0, _ => ⟨[], rfl, rfl⟩
  | n + 1, x => by
    rw [List.replicate_succ, List.flatten_cons]
    refine agrees_bind (T := fun b v as => ∃ vs, v = b ::ᵥ vs ∧ as = vs.toList.flatMap values)
      (f := fun b => q.vectorM n >>= fun vs => pure (b ::ᵥ vs)) (hq x) (fun b y => ?_) ?_
    · exact agrees_bind_pure (agrees_vectorM hq n y) fun vs _ has => ⟨vs, rfl, has⟩
    · rintro b _ _ _ rfl ⟨vs, rfl, rfl⟩
      rw [List.Vector.toList_cons, List.flatMap_cons]

theorem agrees_decode (ds : List δ) : ∀ (s : Shape) (x : σ),
    Agrees (fun v as => as = s.values v) ((s.decode p).run.run h x)
      ((OwnedType.ofDecoder h p ds).makeMany s.slots.length x)
  | item, x => agrees_ofDecoder p ds x
  | array n s, x => by
    rw [OwnedType.makeMany, length_slots_array, ← List.flatten_replicate_replicate]
    exact agrees_vectorM (agrees_decode ds s) n x

/-- In memory that holds nothing, `decode_into` ends as the decoder does, and leaves its value. -/
theorem decodeInto_refines {ι : Type} [DecidableEq ι] (h : Handler inputInterface Halt σ)
    (p : DecodeM α) (ds : List δ) (s : Shape) {dst : s.Slot → ι} (hdst : dst.Injective)
    {m : Memory ι σ α δ} (hm : ∀ p, m.cells (dst p) = none) :
    (s.decodeInto (.ofDecoder h p ds) dst).Refines m
      (fun v m' => (s.slots.map dst).map m'.cells = (s.values v).map some)
      ((s.decode p).run.run h m.source) := by
  obtain ⟨hok, hfail⟩ := tidy (T := .ofDecoder h p ds) s ((nodup_slots s).map hdst)
    (List.forall_mem_map.mpr fun p _ => hm p)
  refine PlaceM.refines_of_agrees (agrees_decode ds s m.source) fun {as f y} hmade => ?_
  cases f with
  | none =>
    obtain ⟨m', hrun, hfilled⟩ := hok hmade
    refine ⟨m', hrun, hfilled.source, fun _ v hv => ?_⟩
    rw [hfilled.cells, hv]
  | some f =>
    obtain ⟨_, m', -, hrun, hundone⟩ := hfail hmade
    exact ⟨m', hrun, hundone.source, fun h => (by cases h)⟩

/-- `arrayDecodeInto`, where it decodes item by item. -/
theorem arrayDecodeInto_eq_decode {tgt : Target} {I : Decode α}
    (hI : ∀ q e, I.typeInfo = .known q e → ¬(q.oneByte ∨ tgt.littleEndian)) (n : ℕ) :
    arrayDecodeInto tgt n I = (array n item).decode I.decodeInto := by
  unfold arrayDecodeInto
  cases hinfo : I.typeInfo with
  | unknown => rfl
  | known q e => exact if_neg (hI q e hinfo)

/-- The same for an array of arrays. -/
theorem arrayDecodeInto_array_eq_decode {tgt : Target} {I : Decode α}
    (hI : ∀ q e, I.typeInfo = .known q e → ¬(q.oneByte ∨ tgt.littleEndian)) (n k size : ℕ) :
    arrayDecodeInto tgt n (arrayDecode tgt k size I) =
      (array n (array k item)).decode I.decodeInto :=
  congrArg (DecodeM.vectorM · n) (arrayDecodeInto_eq_decode hI k)

end Decoders

/-! ## What is released -/

section Releases

variable {ι σ α δ φ : Type} [DecidableEq ι]

/-- `decode_into` of an array of any dimension, into memory that holds nothing. If all items can be
decoded, they all are, and nothing is dropped. If one cannot, for an error or a panic, exactly the
items before it are dropped, each once : first what its own row has built, then the rows before. -/
theorem decodeInto_releases (T : OwnedType σ α δ φ) (s : Shape) {dst : s.Slot → ι}
    (hdst : dst.Injective) {m : Memory ι σ α δ} (hm : ∀ p, m.cells (dst p) = none) :
    (∀ as x, T.makeMany s.slots.length m.source = (as, none, x) →
      ∃ m', (s.decodeInto T dst).Runs m (.ok ()) m' ∧
        m'.log = m.log ++ s.slots.map (fun p => .built (dst p)) ∧
        s.slots.map (fun p => m'.cells (dst p)) = as.map some) ∧
    ∀ as f x, T.makeMany s.slots.length m.source = (as, some f, x) →
      ∃ p after m', s.slots = s.before p ++ p :: after ∧ (s.before p).length = as.length ∧
        (s.decodeInto T dst).Runs m (.error (.failed f)) m' ∧
        m'.log = m.log ++ (s.before p).map (fun q => .built (dst q)) ++
          (s.released p).flatMap (fun q => T.drops (dst q)) ∧
        (s.released p).Perm (s.before p) ∧ (s.released p).Nodup ∧
        (s.needsDrop T = true → ∀ q, m'.cells (dst q) = none) := by
  have hnodup : (s.slots.map dst).Nodup := (nodup_slots s).map hdst
  have hcells : ∀ i ∈ s.slots.map dst, m.cells i = none := by
    intro i hi
    obtain ⟨p, -, rfl⟩ := List.mem_map.mp hi
    exact hm p
  obtain ⟨hok, hfail⟩ := tidy s hnodup hcells
  refine ⟨fun as x h => ?_, fun as f x h => ?_⟩
  · obtain ⟨m', hrun, hfilled⟩ := hok h
    refine ⟨m', hrun, ?_, ?_⟩
    · rw [hfilled.log, List.map_map]
      rfl
    · rw [← hfilled.cells, List.map_map]
      rfl
  · obtain ⟨p, m', hlen, hrun, hundone⟩ := hfail h
    obtain ⟨after, hslots⟩ := exists_slots_eq p
    have hbefore : (s.before p).Nodup := by
      have hnodup := nodup_slots s
      rw [hslots] at hnodup
      exact hnodup.of_append_left
    refine ⟨p, after, m', hslots, hlen.symm, hrun, ?_, released_perm_before p,
      (released_perm_before p).nodup_iff.mpr hbefore, fun hneeds q => ?_⟩
    · rw [hundone.log, List.map_map, List.flatMap_map]
      rfl
    · exact hundone.cells hneeds _ (List.mem_map_of_mem (mem_slots q))

/-- Two rows of two bytes, where the last byte is missing. -/
theorem decodeInto_releases_rows :
    let T : OwnedType (List Byte) Byte Unit Failure := .ofDecoder sliceInput DecodeM.readByte [()]
    let s := array 2 (array 2 item)
    ∃ m' : Memory (Fin 2 × Fin 2 × Unit) (List Byte) Byte Unit,
      (s.decodeInto T id).Runs ⟨[1, 2, 3], fun _ => none, []⟩
        (.error (.failed (.err (.desc "Not enough data to fill buffer")))) m' ∧
      m'.log = [.built (0, 0, ()), .built (0, 1, ()), .built (1, 0, ()),
        .dropped (1, 0, ()) (), .dropped (0, 0, ()) (), .dropped (0, 1, ()) ()] := by
  intro T s
  have hid : Function.Injective (id : s.Slot → Fin 2 × Fin 2 × Unit) := Function.injective_id
  obtain ⟨-, hfail⟩ := decodeInto_releases T s hid (m := ⟨[1, 2, 3], fun _ => none, []⟩)
    fun _ => rfl
  obtain ⟨⟨i, j, _⟩, -, m', -, hlen, hrun, hlog, -⟩ := hfail [1, 2, 3] _ _ rfl
  have hp : ∀ i j : Fin 2, (s.before (i, j, ())).length = 3 → i = 1 ∧ j = 1 := by decide
  obtain ⟨rfl, rfl⟩ := hp i j hlen
  exact ⟨m', hrun, hlog⟩

end Releases

end Shape

end ScaleCodec
