import ScaleCodec.Input

/-!
# How decoders use their input

The obligations every decoder of the library meets, whatever its input replies, as a
`Contract` over a ghost state (`Track`) : the references entered and not left, and the failure
of a call. A decoder that saw a call fail makes no further call but `ascend_ref`, and returns
the failure, perhaps chained. It leaves a reference only after entering it. A decoder that
returns `Ok` has left what it entered.

`Obeys D d p` is the obligation of `p` at depth `d`. The parameters `D` are the depths the input
lets `descend_ref` reach, the errors `p` may make itself, and the ways it may halt. The lemmas
`obeys_bind`, `obeys_nested` and so on follow the program text; `runSlice_of_obeys` is what
follows for slices.
-/

namespace ScaleCodec

/-- `DECODE_OOM_MSG`. -/
def decodeOomMsg : String :=
  "Heap memory limit exceeded while decoding"

/-- The depths an input allows, the errors a decoder makes, and the halts it may end in. The
library's own errors are those other than that of `MemTrackingInput`. -/
structure Discipline where
  depthOk : ℕ → Prop
  errorOk : String → Prop
  haltOk : Halt → Prop
  own : ∀ msg, msg ≠ decodeOomMsg → errorOk msg

/-- Any depth, and no halt. -/
def Discipline.total : Discipline where
  depthOk _ := True
  errorOk _ := True
  haltOk _ := False
  own _ _ := trivial

/-- Any depth, and the halts `haltOk`. -/
def Discipline.anyDepth (haltOk : Halt → Prop) : Discipline where
  depthOk _ := True
  errorOk _ := True
  haltOk := haltOk
  own _ _ := trivial

/-- References entered and not left, and the root of the error of the call that failed. -/
structure Track where
  depth : ℕ
  failed : Option String

/-- The call that replied `r` has been made. -/
def Track.after {α : Type} (g : Track) : Except Error α → Track
  | .ok _ => g
  | .error e => { g with failed := some e.root }

namespace Discipline

variable (D : Discipline) {α β : Type}

/-- What a decoder owes before a call, and what the input may reply. -/
def contract : Contract inputInterface Track where
  pre
    | .ascendRef, g => 0 < g.depth
    | .scaleInternalDecodeBytes, _ => False
    | _, g => g.failed = none
  post
    | .remainingLen, g, r, g' => g' = g.after r
    | .read _, g, r, g' => g' = g.after r
    | .readByte, g, r, g' => g' = g.after r
    | .onBeforeAllocMem _, g, r, g' => g' = g.after r
    | .scaleInternalDecodeBytes, g, r, g' => g' = g.after r
    | .allocate _, g, _, g' => g' = g
    | .descendRef, g, .ok _, g' => D.depthOk (g.depth + 1) ∧ g' = { g with depth := g.depth + 1 }
    | .descendRef, g, .error e, g' => g' = g.after (.error e : Except Error Unit)
    | .ascendRef, g, _, g' => g' = { g with depth := g.depth - 1 }

/-- The error `e` is the one of the call that failed, or the decoder's own. -/
def accounts (g : Track) (e : Error) : Prop :=
  match g.failed with
  | none => D.errorOk e.root
  | some root => e.root = root

/-- A decoder halts, if it may, only while no call has failed. -/
def halts (h : Halt) (g : Track) : Prop :=
  g.failed = none ∧ D.haltOk h

/-- How a decoder entered at depth `d` returns. -/
def returns (d : ℕ) : Except Error α → Track → Prop
  | .ok _, g => g = ⟨d, none⟩
  | .error e, g => d ≤ g.depth ∧ D.accounts g e

variable {D} in
/-- A failed call is returned. -/
theorem returns.exists_error {d : ℕ} {r : Except Error α} {g : Track} {root : String}
    (hr : D.returns d r g) (hg : g.failed = some root) : ∃ e, r = .error e ∧ e.root = root := by
  cases r with
  | ok a =>
    obtain rfl : g = ⟨d, none⟩ := hr
    cases hg
  | error e =>
    have haccounts : D.accounts g e := hr.2
    rw [accounts, hg] at haccounts
    exact ⟨e, rfl, haccounts⟩

end Discipline

/-- The obligation of a decoder entered at depth `d`. -/
def Obeys {α : Type} (D : Discipline) (d : ℕ) (p : DecodeM α) : Prop :=
  p.run.Meets D.contract D.halts (D.returns d) ⟨d, none⟩

/-! ## Following the program text -/

section Obeys

variable {D : Discipline} {d : ℕ} {α β : Type} {p : DecodeM α}

theorem obeys_pure (a : α) : Obeys D d (pure a) :=
  show D.returns d (Except.ok a) ⟨d, none⟩ from rfl

theorem obeys_throw {e : Error} (he : D.errorOk e.root) : Obeys D d (throw e : DecodeM α) :=
  show D.returns d (Except.error e : Except Error α) ⟨d, none⟩ from ⟨le_rfl, he⟩

theorem obeys_err {msg : String} (h : msg ≠ decodeOomMsg) :
    Obeys D d (DecodeM.err msg : DecodeM α) :=
  obeys_throw (D.own msg h)

theorem obeys_halt {h : Halt} (hh : D.haltOk h) :
    Obeys D d (ExceptT.mk (Prog.halt h) : DecodeM α) :=
  show D.halts h ⟨d, none⟩ from ⟨rfl, hh⟩

theorem obeys_bind {f : α → DecodeM β} (hp : Obeys D d p) (hf : ∀ a, Obeys D d (f a)) :
    Obeys D d (p >>= f) := by
  unfold Obeys
  rw [ExceptT.run_bind]
  refine Prog.Meets.bind (fun r g hr => ?_) hp
  cases r with
  | ok a =>
    obtain rfl : g = ⟨d, none⟩ := hr
    exact hf a
  | error e => exact hr

theorem obeys_ite {c : Prop} [Decidable c] {p q : DecodeM α} (hp : c → Obeys D d p)
    (hq : ¬c → Obeys D d q) : Obeys D d (if c then p else q) := by
  split_ifs with h
  · exact hp h
  · exact hq h

/-- A call whose reply is returned as it is. -/
theorem returns_after (r : Except Error α) : D.returns d r (Track.after ⟨d, none⟩ r) := by
  cases r with
  | ok a => rfl
  | error e => exact ⟨le_rfl, rfl⟩

theorem obeys_remainingLen : Obeys D d DecodeM.remainingLen :=
  ⟨rfl, fun r _ hr => by rw [show _ = _ from hr]; exact returns_after r⟩

theorem obeys_read (n : ℕ) : Obeys D d (DecodeM.read n) :=
  ⟨rfl, fun r _ hr => by rw [show _ = _ from hr]; exact returns_after r⟩

theorem obeys_readByte : Obeys D d DecodeM.readByte :=
  ⟨rfl, fun r _ hr => by rw [show _ = _ from hr]; exact returns_after r⟩

theorem obeys_onBeforeAllocMem (size : ℕ) : Obeys D d (DecodeM.onBeforeAllocMem size) :=
  ⟨rfl, fun r _ hr => by rw [show _ = _ from hr]; exact returns_after r⟩

theorem obeys_allocate (size : ℕ) : Obeys D d (DecodeM.allocate size) :=
  ⟨rfl, fun _ _ hr => by rw [show _ = _ from hr]; rfl⟩

theorem obeys_chainErr {desc : String} (hp : Obeys D d p) : Obeys D d (p.chainErr desc) := by
  refine Prog.Meets.bind (fun r g hr => ?_) hp
  cases r with
  | ok a => exact hr
  | error e => exact hr

/-- Entering a reference : the rest runs one deeper, where the input allows it. -/
theorem obeys_descendRef_bind {q : DecodeM α} (hq : D.depthOk (d + 1) →
      q.run.Meets D.contract D.halts (D.returns d) ⟨d + 1, none⟩) :
    Obeys D d (DecodeM.descendRef >>= fun _ => q) := by
  refine ⟨rfl, fun r g hr => ?_⟩
  cases r with
  | ok a =>
    obtain ⟨hd, rfl⟩ := hr
    exact hq hd
  | error e =>
    obtain rfl := hr
    exact ⟨le_rfl, rfl⟩

/-- A reference left on success alone. -/
theorem obeys_nested (hp : D.depthOk (d + 1) → Obeys D (d + 1) p) : Obeys D d p.nested := by
  refine obeys_descendRef_bind fun hd => ?_
  rw [ExceptT.run_bind]
  refine Prog.Meets.bind (fun r g hr => ?_) (hp hd)
  cases r with
  | ok a =>
    obtain rfl : g = ⟨d + 1, none⟩ := hr
    refine ⟨Nat.succ_pos d, fun _ g hg => ?_⟩
    rw [show g = _ from hg]
    rfl
  | error e => exact ⟨Nat.le_of_succ_le hr.1, hr.2⟩

/-- A reference left whether the decoder failed or not, but not where the memory was refused. -/
theorem obeys_nestedAlloc {size : ℕ} (hp : D.depthOk (d + 1) → Obeys D (d + 1) p) :
    Obeys D d (p.nestedAlloc size) := by
  refine obeys_descendRef_bind fun hd => ?_
  rw [ExceptT.run_bind]
  refine Prog.Meets.bind (fun r g hr => ?_) (obeys_onBeforeAllocMem (D := D) (d := d + 1) size)
  cases r with
  | error e => exact ⟨Nat.le_of_succ_le hr.1, hr.2⟩
  | ok _ =>
    obtain rfl : g = ⟨d + 1, none⟩ := hr
    refine Prog.Meets.bind (fun r g hr => ?_) (hp hd)
    cases r with
    | ok a =>
      obtain rfl : g = ⟨d + 1, none⟩ := hr
      refine ⟨Nat.succ_pos d, fun _ g hg => ?_⟩
      rw [show g = _ from hg]
      rfl
    | error e =>
      have hd : d < g.depth := hr.1
      refine ⟨Nat.zero_lt_of_lt hd, fun _ g' hg => ?_⟩
      rw [show g' = _ from hg]
      exact ⟨Nat.le_pred_of_lt hd, hr.2⟩

end Obeys

/-! ## Slices -/

/-- A slice allows any depth. -/
theorem sliceInput_keeps {D : Discipline} (hD : ∀ d, D.depthOk d) :
    sliceInput.Keeps D.contract fun _ _ => True := by
  intro c g s hpre _
  cases c with
  | descendRef => exact ⟨_, _, _, rfl, ⟨hD _, rfl⟩, trivial⟩
  | scaleInternalDecodeBytes => exact hpre.elim
  | _ => exact ⟨_, _, _, rfl, rfl, trivial⟩

/-- On a slice, a decoder that obeys returns, or halts as it may. -/
theorem runSlice_of_obeys {α : Type} {D : Discipline} (hD : ∀ d, D.depthOk d) {d : ℕ}
    {p : DecodeM α} (hp : Obeys D d p) (s : List Byte) :
    (∃ r s', runSlice p s = .ok (r, s')) ∨ ∃ h, runSlice p s = .error h ∧ D.haltOk h := by
  rcases Prog.run_of_meets (sliceInput_keeps hD) hp trivial with
    ⟨r, s', _, h, _⟩ | ⟨e, _, _, h, he, _⟩
  · exact Or.inl ⟨r, s', h⟩
  · exact Or.inr ⟨e, h, he.2⟩

end ScaleCodec
