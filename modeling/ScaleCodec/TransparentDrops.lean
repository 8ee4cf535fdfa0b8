import ScaleCodec.ArrayDrops
import ScaleCodec.DecodeInto

/-!
# What a failed transparent struct releases

For a `#[repr(transparent)]` struct `derive(Decode)` generates a `decode_into` that decodes the
fields one after the other into the memory of the struct and leaves with `?` when one fails. That
memory is a `MaybeUninit`, which drops nothing, so the fields decoded by then are never dropped. The
expression generated for `decode` has them as temporaries, which are.

Both are run on cells here (`transparentDecodeInto`, `createInstanceIn`), each field in a cell of
its own. A failed `decode_into` releases what it built iff no field before the failing one needs to
be dropped (`transparent_releases_iff`). `transparentDecodeInto_refines` and
`createInstanceIn_refines` take the computations back to `decodeIntoFields` and `decodeFields`.
-/

universe u

namespace ScaleCodec

/-! ## The generated code in memory -/

section Memory

variable {σ α δ φ : Type}

/-- The code `quote_decode_into` generates after its assertions, for the fields from the `i`-th on.
The fields have the address of the struct, but only one of them takes memory. -/
def transparentDecodeInto : ℕ → List (OwnedType σ α δ φ) → PlaceM ℕ σ α δ φ Unit
  | _, [] => pure ()
  | i, T :: Ts => do
    T.makeIn i
    transparentDecodeInto (i + 1) Ts

/-- The expression `create_instance` generates : left early, it drops the fields it has, the last
one first. -/
def createInstanceIn : ℕ → List (OwnedType σ α δ φ) → PlaceM ℕ σ α δ φ Unit
  | _, [] => pure ()
  | i, T :: Ts => do
    T.makeIn i
    (createInstanceIn (i + 1) Ts).onExit (T.dropIn i)

/-- The destructors run on the field `i`. -/
def dropsOf (i : ℕ) (log : List (Event ℕ δ)) : List δ :=
  log.filterMap fun
    | .built _ => none
    | .dropped j d => if j = i then some d else none

/-- Each of the fields was dropped exactly once. -/
def Releases (Ts : List (OwnedType σ α δ φ)) (log : List (Event ℕ δ)) : Prop :=
  ∀ i T, Ts[i]? = some T → dropsOf i log = T.destructors

/-- The fields from the `i`-th on dropped, the last one first. -/
def dropsBack : ℕ → List (OwnedType σ α δ φ) → List (Event ℕ δ)
  | _, [] => []
  | i, T :: Ts => dropsBack (i + 1) Ts ++ T.drops i

/-- Memory that holds nothing yet. -/
def Memory.fresh (x : σ) : Memory ℕ σ α δ :=
  ⟨x, fun _ => none, []⟩

/-! ## The logs -/

theorem dropsOf_append (i : ℕ) (l l' : List (Event ℕ δ)) :
    dropsOf i (l ++ l') = dropsOf i l ++ dropsOf i l' :=
  List.filterMap_append

theorem dropsOf_built (i : ℕ) (is : List ℕ) :
    dropsOf i (is.map .built : List (Event ℕ δ)) = [] := by
  simp [dropsOf]

theorem dropsOf_drops (T : OwnedType σ α δ φ) (i : ℕ) : dropsOf i (T.drops i) = T.destructors := by
  simp [dropsOf, OwnedType.drops, List.filterMap_map]

theorem dropsOf_drops_of_ne (T : OwnedType σ α δ φ) {i j : ℕ} (h : j ≠ i) :
    dropsOf i (T.drops j) = [] := by
  simp [dropsOf, OwnedType.drops, h]

theorem dropsOf_dropsBack_of_lt {i : ℕ} : ∀ {j : ℕ} {Ts : List (OwnedType σ α δ φ)}, i < j →
    dropsOf i (dropsBack j Ts) = []
  | _, [], _ => rfl
  | j, T :: Ts, h => by
    rw [dropsBack, dropsOf_append, dropsOf_dropsBack_of_lt (Nat.lt_succ_of_lt h),
      dropsOf_drops_of_ne T h.ne']
    rfl

/-- Dropped back to front, each field is dropped once. -/
theorem dropsOf_dropsBack : ∀ {Ts : List (OwnedType σ α δ φ)} {i j : ℕ} {T : OwnedType σ α δ φ},
    Ts[j]? = some T → dropsOf (i + j) (dropsBack i Ts) = T.destructors
  | T :: Ts, i, 0, _, h => by
    cases h
    rw [Nat.add_zero, dropsBack, dropsOf_append, dropsOf_dropsBack_of_lt (Nat.lt_succ_self i)]
    exact dropsOf_drops T i
  | T :: Ts, i, j + 1, _, h => by
    have hne : i ≠ i + (j + 1) := by omega
    rw [dropsBack, dropsOf_append, dropsOf_drops_of_ne T hne, List.append_nil, Nat.add_comm j,
      ← Nat.add_assoc]
    exact dropsOf_dropsBack h

/-! ## Runs -/

/-- `decode_into` builds the fields before the one that fails, and drops none. -/
theorem exists_runs_transparentDecodeInto : ∀ {Ts : List (OwnedType σ α δ φ)} {i : ℕ}
    {m : Memory ℕ σ α δ} {as : List α} {f : Option φ} {y : σ},
      OwnedType.makeEach Ts m.source = (as, f, y) →
        ∃ m', (transparentDecodeInto i Ts).Runs m (Exit.result f) m' ∧ m'.source = y ∧
          m'.log = m.log ++ (List.range' i as.length).map .built
  | [], _, m, _, _, _, h => by
    cases h
    exact ⟨m, PlaceM.runs_pure _, rfl, (List.append_nil _).symm⟩
  | T :: Ts, i, m, as, f, y, h => by
    rcases hmake : T.make m.source with ⟨f' | a, x⟩
    · rw [OwnedType.makeEach_cons_error hmake] at h
      cases h
      exact ⟨_, (OwnedType.runs_makeIn_failed hmake).bind_error, rfl, (List.append_nil _).symm⟩
    · rw [OwnedType.makeEach_cons_ok hmake] at h
      obtain ⟨rfl, hrest⟩ := Prod.mk.inj h
      obtain ⟨m₁, hrun₁, hfilled⟩ := OwnedType.exists_runs_makeIn (i := i) hmake
      rw [← hfilled.source] at hrest ⊢
      have hmade : OwnedType.makeEach Ts m₁.source = (_, f, y) := Prod.ext rfl hrest
      obtain ⟨m₂, hrun₂, hy, hlog⟩ := exists_runs_transparentDecodeInto (i := i + 1) hmade
      refine ⟨m₂, hrun₁.bind hrun₂, hy, ?_⟩
      rw [hlog, hfilled.log, List.append_assoc]
      rfl

/-- `decode` drops them again, and does not touch the cells before. -/
theorem exists_runs_createInstanceIn : ∀ {Ts : List (OwnedType σ α δ φ)} {i : ℕ}
    {m : Memory ℕ σ α δ} {as : List α} {f : Option φ} {y : σ},
      OwnedType.makeEach Ts m.source = (as, f, y) →
        ∃ m', (createInstanceIn i Ts).Runs m (Exit.result f) m' ∧ m'.source = y ∧
          m'.log = m.log ++ (List.range' i as.length).map .built ++
            (if f.isSome then dropsBack i (Ts.take as.length) else []) ∧
          ∀ j < i, m'.cells j = m.cells j
  | [], _, m, _, _, _, h => by
    cases h
    exact ⟨m, PlaceM.runs_pure _, rfl, by simp, fun _ _ => rfl⟩
  | T :: Ts, i, m, as, f, y, h => by
    rcases hmake : T.make m.source with ⟨f' | a, x⟩
    · rw [OwnedType.makeEach_cons_error hmake] at h
      cases h
      exact ⟨_, (OwnedType.runs_makeIn_failed hmake).bind_error, rfl, by simp [dropsBack],
        fun _ _ => rfl⟩
    · rw [OwnedType.makeEach_cons_ok hmake] at h
      obtain ⟨rfl, hrest⟩ := Prod.mk.inj h
      obtain ⟨m₁, hrun₁, hfilled⟩ := OwnedType.exists_runs_makeIn (i := i) hmake
      rw [← hfilled.source] at hrest ⊢
      have hmade : OwnedType.makeEach Ts m₁.source = (_, f, y) := Prod.ext rfl hrest
      obtain ⟨m₂, hrun₂, hy, hlog, hcells⟩ := exists_runs_createInstanceIn (i := i + 1) hmade
      have hcells₁ : ∀ j < i, m₁.cells j = m.cells j := fun j hj =>
        hfilled.others j (List.mem_singleton.not.mpr hj.ne)
      cases f with
      | none =>
        refine ⟨m₂, hrun₁.bind hrun₂.onExit, hy, ?_, fun j hj => ?_⟩
        · rw [hlog, hfilled.log]
          simp [List.range'_succ]
        · rw [hcells j (Nat.lt_succ_of_lt hj), hcells₁ j hj]
      | some f =>
        have hsome : (m₂.cells i).isSome := by
          rw [hcells i (Nat.lt_succ_self i)]
          exact hfilled.isSome (List.mem_singleton.mpr rfl)
        obtain ⟨m₃, hrun₃, hcleared⟩ := OwnedType.exists_runs_dropIn (T := T) hsome
        refine ⟨m₃, hrun₁.bind (hrun₂.onExit_error hrun₃), hcleared.source.trans hy, ?_,
          fun j hj => ?_⟩
        · rw [hcleared.log, hlog, hfilled.log]
          simp [List.range'_succ, dropsBack]
        · rw [hcleared.others j (List.mem_singleton.not.mpr hj.ne),
            hcells j (Nat.lt_succ_of_lt hj), hcells₁ j hj]

end Memory

/-! ## Derived decoders -/

section Derived

variable {F : Type → Type u} {σ α δ : Type} {h : Handler inputInterface Halt σ}

/-- The fields from the `i`-th on, the `i`-th decoded by `prog i`. -/
def FieldList.decodeWith (prog : ∀ {α : Type}, ℕ → Field F α → DecodeM α) {α : Type} :
    FieldList F α → ℕ → DecodeM α
  | .nil, _ => pure ()
  | .cons f fs, i => do
    let a ← prog i f
    let as ← fs.decodeWith prog (i + 1)
    pure (a, as)

theorem decodeIntoFields_eq (dec : ∀ {σ : Type}, F σ → Decode σ) {α : Type} :
    ∀ (fs : FieldList F α) (i : ℕ),
      decodeIntoFields dec fs = fs.decodeWith (fun _ f => (dec f.ty).decodeInto) i
  | .nil, _ => rfl
  | .cons f fs, i => by
    rw [decodeIntoFields, FieldList.decodeWith, decodeIntoFields_eq dec fs (i + 1)]

theorem decodeFields_eq (dec : ∀ {σ : Type}, F σ → Decode σ)
    (fieldName : ℕ → Option String → String) {α : Type} : ∀ (fs : FieldList F α) (i : ℕ),
      decodeFields dec fieldName fs i =
        fs.decodeWith (fun i f => decodeField dec (fieldName i f.ident) f) i
  | .nil, _ => rfl
  | .cons f fs, i => by
    rw [decodeFields, FieldList.decodeWith, decodeFields_eq dec fieldName fs (i + 1)]

/-- The fields as values in memory, of which the cells only say that they are there. -/
def FieldList.owned (prog : ∀ {α : Type}, ℕ → Field F α → DecodeM α)
    (h : Handler inputInterface Halt σ) (destructors : ∀ {α : Type}, F α → List δ) {α : Type} :
    FieldList F α → ℕ → List (OwnedType σ Unit δ Failure)
  | .nil, _ => []
  | .cons f fs, i =>
    .ofDecoder h ((fun _ => ()) <$> prog i f) (destructors f.ty) ::
      fs.owned prog h destructors (i + 1)

theorem agrees_unit (p : DecodeM α) (ds : List δ) (x : σ) : Agrees (fun _ _ => True)
    (p.run.run h x) (OwnedType.makeEach [.ofDecoder h ((fun _ => ()) <$> p) ds] x) := by
  have hp := agrees_ofDecoder (h := h) ((fun _ => ()) <$> p) ds x
  generalize OwnedType.makeEach [.ofDecoder h ((fun _ => ()) <$> p) ds] x = made at hp ⊢
  rw [map_eq_pure_bind, DecodeM.run_bind_run] at hp
  generalize p.run.run h x = r at hp ⊢
  rcases r with e | ⟨e | a, y⟩
  · exact hp
  · exact hp
  · obtain ⟨as, hmade, -⟩ := hp
    exact ⟨as, hmade, trivial⟩

theorem agrees_decodeWith (prog : ∀ {α : Type}, ℕ → Field F α → DecodeM α)
    (destructors : ∀ {α : Type}, F α → List δ) {α : Type} : ∀ (fs : FieldList F α) (i : ℕ) (x : σ),
    Agrees (fun _ _ => True) ((fs.decodeWith prog i).run.run h x)
      (OwnedType.makeEach (fs.owned prog h destructors i) x)
  | .nil, _, x => ⟨[], rfl, trivial⟩
  | .cons f fs, i, x => by
    have hhead := agrees_unit (h := h) (prog i f) (destructors f.ty) x
    refine agrees_bind (T := fun _ _ _ => True) hhead (fun a y => ?_) fun _ _ _ _ _ _ => trivial
    exact agrees_bind_pure (agrees_decodeWith prog destructors fs (i + 1) y) fun _ _ _ => trivial

/-- `transparentDecodeInto` is the `decode_into` of the fields, in memory. -/
theorem transparentDecodeInto_refines (dec : ∀ {σ : Type}, F σ → Decode σ)
    (destructors : ∀ {α : Type}, F α → List δ) (fs : FieldList F α)
    (h : Handler inputInterface Halt σ) (m : Memory ℕ σ Unit δ) :
    (transparentDecodeInto 0 (fs.owned (fun _ f => (dec f.ty).decodeInto) h destructors 0)).Refines
      m (fun _ _ => True) ((decodeIntoFields dec fs).run.run h m.source) := by
  rw [decodeIntoFields_eq dec fs 0]
  have hfields := agrees_decodeWith (h := h) (fun _ f => (dec f.ty).decodeInto) destructors fs 0
  refine PlaceM.refines_of_agrees (hfields m.source) fun hmade => ?_
  obtain ⟨m', hrun, hsource, -⟩ := exists_runs_transparentDecodeInto (i := 0) hmade
  exact ⟨m', hrun, hsource, fun _ _ _ => trivial⟩

/-- `createInstanceIn` is the decoder of the fields, in memory. -/
theorem createInstanceIn_refines (dec : ∀ {σ : Type}, F σ → Decode σ)
    (destructors : ∀ {α : Type}, F α → List δ) (fieldName : ℕ → Option String → String)
    (fs : FieldList F α) (h : Handler inputInterface Halt σ) (m : Memory ℕ σ Unit δ) :
    (createInstanceIn 0 (fs.owned (fun i f => decodeField dec (fieldName i f.ident) f) h
      destructors 0)).Refines m (fun _ _ => True)
        ((decodeFields dec fieldName fs 0).run.run h m.source) := by
  rw [decodeFields_eq dec fieldName fs 0]
  have hfields := agrees_decodeWith (h := h)
    (fun i f => decodeField dec (fieldName i f.ident) f) destructors fs 0
  refine PlaceM.refines_of_agrees (hfields m.source) fun hmade => ?_
  obtain ⟨m', hrun, hsource, -⟩ := exists_runs_createInstanceIn (i := 0) hmade
  exact ⟨m', hrun, hsource, fun _ _ _ => trivial⟩

end Derived

/-! ## What is released -/

section Releases

variable {σ α δ φ : Type}

/-- Where a field fails, `decode` has dropped each field before it once. `decode_into` has done so
iff none of them needs to be dropped. -/
theorem transparent_releases_iff {Ts : List (OwnedType σ α δ φ)} {x y : σ} {as : List α} {f : φ}
    (hfail : OwnedType.makeEach Ts x = (as, some f, y)) :
    (∃ m', (createInstanceIn 0 Ts).Runs (.fresh x) (.error (.failed f)) m' ∧
      Releases (Ts.take as.length) m'.log) ∧
    ∃ m', (transparentDecodeInto 0 Ts).Runs (.fresh x) (.error (.failed f)) m' ∧
      (Releases (Ts.take as.length) m'.log ↔ ∀ T ∈ Ts.take as.length, T.needsDrop = false) := by
  obtain ⟨m₁, hrun₁, -, hlog₁, -⟩ :=
    exists_runs_createInstanceIn (i := 0) (m := .fresh x) hfail
  obtain ⟨m₂, hrun₂, -, hlog₂⟩ :=
    exists_runs_transparentDecodeInto (i := 0) (m := .fresh x) hfail
  refine ⟨⟨m₁, hrun₁, fun i T hT => ?_⟩, m₂, hrun₂, ?_⟩
  · rw [hlog₁, dropsOf_append, dropsOf_append, dropsOf_built, ← Nat.zero_add i]
    exact dropsOf_dropsBack hT
  · have hnone : ∀ i, dropsOf i m₂.log = [] := fun i => by
      rw [hlog₂, dropsOf_append, dropsOf_built]
      rfl
    have hneeds : ∀ T : OwnedType σ α δ φ, T.needsDrop = false ↔ [] = T.destructors := fun T => by
      rw [OwnedType.needsDrop, Bool.not_eq_false', List.isEmpty_iff, eq_comm]
    simp only [Releases, hnone, hneeds]
    constructor
    · intro h T hT
      obtain ⟨i, hi⟩ := List.mem_iff_getElem?.mp hT
      exact h i T hi
    · exact fun h i T hT => h T (List.mem_of_getElem? hT)

/-- A box drops what it owns. -/
def boxDestructor {α : Type} : Ty wrapTypes α → List Unit
  | .box _ => [()]
  | _ => []

/-- The fields of a struct `#[repr(transparent)]` on a slice. -/
def wrapFields {α : Type} (fs : FieldList (Ty wrapTypes) α) :
    List (OwnedType (List Byte) Unit Unit Failure) :=
  let P := Platform.unpadded wrapTypes
  fs.owned (fun _ f => (wrapDefs.decode P 1 f.ty).decodeInto) sliceInput boxDestructor 0

/-- `struct Tagged(Only, Box<u8>)` fails without its last byte. -/
theorem transparent_releases_iff_only :
    let Ts := wrapFields (.cons { ident := none, ty := .named false }
      (.cons { ident := none, ty := .box (.prim .u8) } .nil))
    ∃ e m', (transparentDecodeInto 0 Ts).Runs (.fresh [0]) (.error (.failed e)) m' ∧
      Releases (Ts.take 1) m'.log := by
  intro Ts
  have hfail : OwnedType.makeEach Ts [0] = ([()], some _, []) := rfl
  obtain ⟨-, m', hrun, hiff⟩ := transparent_releases_iff hfail
  refine ⟨_, m', hrun, hiff.mpr ?_⟩
  decide

/-- `struct Tagged(Box<u8>, Only)` fails at its last byte : `decode` drops the box, `decode_into`
does not. -/
theorem transparent_leaks_box :
    let Ts := wrapFields (.cons { ident := none, ty := .box (.prim .u8) }
      (.cons { ident := none, ty := .named false } .nil))
    ∃ e m₁ m₂, (createInstanceIn 0 Ts).Runs (.fresh [7, 1]) (.error (.failed (.err e))) m₁ ∧
      m₁.log = [.built 0, .dropped 0 ()] ∧
      (transparentDecodeInto 0 Ts).Runs (.fresh [7, 1]) (.error (.failed (.err e))) m₂ ∧
      m₂.log = [.built 0] ∧ ¬Releases (Ts.take 1) m₂.log := by
  intro Ts
  refine ⟨_, _, _, rfl, rfl, rfl, rfl, fun h => ?_⟩
  cases h 0 _ rfl

end Releases

end ScaleCodec
