import Mathlib.Logic.Basic
import Mathlib.Control.Basic
import Mathlib.Data.List.Forall2

/-!
# Programs over an interface

A function that is generic in its environment can only call the methods of the
environment and act on their replies. It is the tree of its calls (`Prog`) : a leaf
returns a value or halts, a node makes a call and continues with the reply.

A `Handler` answers calls from a state, and `Prog.run` runs a program against it, making the
calls `Prog.trace`, each in a state (`Prog.callsAt`), and passing through `Prog.moments`. A
`Wrapper` answers the calls of one interface by programs over another, from a state of its own,
where it may keep a record of the replies (`Wrapper.recording`);
`Prog.through` runs a program behind it, and `Prog.run_through` says that this is running the
program against the wrapper and the handler together (`Wrapper.over`).

A `Contract` says what a program may rely on and what it owes, call by call, over a
ghost state. `Prog.Meets` is the obligation of a program, whatever the replies. A
handler that keeps the contract runs such a program to its postcondition
(`Prog.run_of_meets`); one that keeps it whenever it replies does so if the run returns
(`Prog.returns_of_meets`).

`Prog.CanReturn` and `Prog.CanCall` say what a program returns or calls for some replies. Two
programs are `Prog.Alike` if they make the same calls whatever the replies. Then their runs
against any handler have the same trace and the same outcome, up to the relation on what they
return (`Prog.Alike.run`). A program that `Prog.Approximates` another runs as that one does until
it gives up.

`Handler.transcript` is what a handler replies to a sequence of calls. Two handlers that reply to
each call alike have the same transcripts (`Handler.exists_transcripts`).
-/

namespace ScaleCodec

/-! ## Programs -/

/-- The calls a program may make, and the type of the reply to each. -/
structure Interface where
  Call : Type
  Reply : Call → Type

/-- A program over `I` that returns an `α` or halts with an `ε`. -/
inductive Prog (I : Interface) (ε α : Type) where
  | ret (a : α)
  | halt (e : ε)
  | call (c : I.Call) (k : I.Reply c → Prog I ε α)

namespace Prog

variable {I J : Interface} {ε α β γ σ τ : Type}

/-- Run the second program on what the first returns. -/
def bind : Prog I ε α → (α → Prog I ε β) → Prog I ε β
  | ret a, f => f a
  | halt e, _ => halt e
  | call c k, f => call c fun r => (k r).bind f

instance : Monad (Prog I ε) where
  pure := ret
  bind := bind

@[simp] theorem ret_bind (a : α) (f : α → Prog I ε β) : (ret a : Prog I ε α) >>= f = f a :=
  rfl

@[simp] theorem halt_bind (e : ε) (f : α → Prog I ε β) : (halt e : Prog I ε α) >>= f = halt e :=
  rfl

@[simp] theorem call_bind (c : I.Call) (k : I.Reply c → Prog I ε α) (f : α → Prog I ε β) :
    call c k >>= f = call c fun r => k r >>= f :=
  rfl

theorem pure_eq_ret (a : α) : (pure a : Prog I ε α) = ret a :=
  rfl

theorem bind_ret : ∀ p : Prog I ε α, p >>= ret = p
  | ret _ => rfl
  | halt _ => rfl
  | call c k => by
    rw [call_bind]
    congr 1
    funext r
    exact bind_ret (k r)

theorem bind_assoc (f : α → Prog I ε β) (g : β → Prog I ε γ) :
    ∀ p : Prog I ε α, p >>= f >>= g = p >>= fun a => f a >>= g
  | ret _ => rfl
  | halt _ => rfl
  | call c k => by
    simp only [call_bind]
    congr 1
    funext r
    exact bind_assoc f g (k r)

instance : LawfulMonad (Prog I ε) :=
  LawfulMonad.mk' _ bind_ret (fun _ _ => rfl) (fun p f g => bind_assoc f g p)

end Prog

/-! ## Handlers -/

/-- Answers to the calls of `I` from a state `σ`. -/
def Handler (I : Interface) (ε σ : Type) : Type :=
  (c : I.Call) → σ → Except ε (I.Reply c × σ)

namespace Prog

variable {I J : Interface} {ε α β γ σ τ : Type}

/-- Run a program, each call answered by `h`. -/
def run (h : Handler I ε σ) : Prog I ε α → σ → Except ε (α × σ)
  | ret a, s => .ok (a, s)
  | halt e, _ => .error e
  | call c k, s =>
    match h c s with
    | .error e => .error e
    | .ok (r, s') => (k r).run h s'

@[simp] theorem run_ret (h : Handler I ε σ) (a : α) (s : σ) :
    (ret a : Prog I ε α).run h s = .ok (a, s) :=
  rfl

@[simp] theorem run_halt (h : Handler I ε σ) (e : ε) (s : σ) :
    (halt e : Prog I ε α).run h s = .error e :=
  rfl

theorem run_call {h : Handler I ε σ} {c : I.Call} {s : σ} {r : I.Reply c} {s' : σ}
    (hc : h c s = .ok (r, s')) (k : I.Reply c → Prog I ε α) :
    (call c k).run h s = (k r).run h s' := by
  simp only [run, hc]

theorem run_call_error {h : Handler I ε σ} {c : I.Call} {s : σ} {e : ε}
    (hc : h c s = .error e) (k : I.Reply c → Prog I ε α) :
    (call c k).run h s = .error e := by
  simp only [run, hc]

/-- A run that returns had a reply to its first call. -/
theorem run_call_eq_ok {h : Handler I ε σ} {c : I.Call} {k : I.Reply c → Prog I ε α} {s : σ}
    {x : α × σ} : (call c k).run h s = .ok x ↔
      ∃ r s', h c s = .ok (r, s') ∧ (k r).run h s' = .ok x := by
  constructor
  · intro hrun
    cases hc : h c s with
    | error e =>
      rw [run_call_error hc] at hrun
      cases hrun
    | ok y => exact ⟨y.1, y.2, rfl, run_call hc k ▸ hrun⟩
  · rintro ⟨r, s', hc, hrun⟩
    rw [run_call hc, hrun]

/-- A call alone. -/
theorem run_call_ret (h : Handler I ε σ) (c : I.Call) (s : σ) :
    (call c ret : Prog I ε (I.Reply c)).run h s = h c s := by
  cases hc : h c s with
  | error e => rw [run_call_error hc]
  | ok x => rw [run_call hc, run_ret]

theorem run_bind (h : Handler I ε σ) (f : α → Prog I ε β) :
    ∀ (p : Prog I ε α) (s : σ), (p >>= f).run h s = p.run h s >>= fun x => (f x.1).run h x.2
  | ret _, _ => rfl
  | halt _, _ => rfl
  | call c k, s => by
    rw [call_bind]
    cases hc : h c s with
    | error e => rw [run_call_error hc, run_call_error hc]; rfl
    | ok x => rw [run_call hc, run_call hc, run_bind h f (k x.1) x.2]

/-- A run does to the state what all its calls do. -/
theorem run_preserves {h : Handler I ε σ} {R : σ → σ → Prop} (hrefl : ∀ s, R s s)
    (htrans : ∀ {s t u}, R s t → R t u → R s u)
    (hstep : ∀ c s r s', h c s = .ok (r, s') → R s s') :
    ∀ {p : Prog I ε α} {s s' : σ} {a : α}, p.run h s = .ok (a, s') → R s s'
  | ret _, s, _, _, hrun => by
    cases hrun
    exact hrefl s
  | halt _, _, _, _, hrun => by cases hrun
  | call c k, s, _, _, hrun => by
    obtain ⟨r, t, hc, hrun⟩ := run_call_eq_ok.mp hrun
    exact htrans (hstep c s r t hc) (run_preserves hrefl htrans hstep hrun)

/-- The calls a run makes, in order. -/
def trace (h : Handler I ε σ) : Prog I ε α → σ → List I.Call
  | ret _, _ => []
  | halt _, _ => []
  | call c k, s =>
    match h c s with
    | .error _ => [c]
    | .ok (r, s') => c :: (k r).trace h s'

theorem trace_call {h : Handler I ε σ} {c : I.Call} {s : σ} {r : I.Reply c} {s' : σ}
    (hc : h c s = .ok (r, s')) (k : I.Reply c → Prog I ε α) :
    (call c k).trace h s = c :: (k r).trace h s' := by
  simp only [trace, hc]

theorem trace_call_error {h : Handler I ε σ} {c : I.Call} {s : σ} {e : ε} (hc : h c s = .error e)
    (k : I.Reply c → Prog I ε α) : (call c k).trace h s = [c] := by
  simp only [trace, hc]

/-- The calls of the first program, and then those of the second. -/
theorem trace_bind {h : Handler I ε σ} {f : α → Prog I ε β} :
    ∀ {p : Prog I ε α} {s s' : σ} {a : α}, p.run h s = .ok (a, s') →
      (p >>= f).trace h s = p.trace h s ++ (f a).trace h s'
  | ret _, _, _, _, hrun => by
    cases hrun
    rfl
  | halt _, _, _, _, hrun => by cases hrun
  | call c k, s, _, _, hrun => by
    obtain ⟨r, t, hc, hrun⟩ := run_call_eq_ok.mp hrun
    rw [call_bind, trace_call hc, trace_call hc, trace_bind hrun, List.cons_append]

theorem trace_bind_error {h : Handler I ε σ} {f : α → Prog I ε β} :
    ∀ {p : Prog I ε α} {s : σ} {e : ε}, p.run h s = .error e →
      (p >>= f).trace h s = p.trace h s
  | ret _, _, _, hrun => by cases hrun
  | halt _, _, _, _ => rfl
  | call c k, s, _, hrun => by
    cases hc : h c s with
    | error e => rw [call_bind, trace_call_error hc, trace_call_error hc]
    | ok x =>
      rw [run_call hc] at hrun
      rw [call_bind, trace_call hc, trace_call hc, trace_bind_error hrun]

/-- The moments of a run : the calls made so far, after those of `past`, and the state. -/
def moments (h : Handler I ε σ) : Prog I ε α → σ → List I.Call → List (List I.Call × σ)
  | ret _, s, past => [(past, s)]
  | halt _, s, past => [(past, s)]
  | call c k, s, past =>
    (past, s) ::
      match h c s with
      | .error _ => []
      | .ok (r, s') => (k r).moments h s' (past ++ [c])

theorem mem_moments_call {h : Handler I ε σ} {c : I.Call} {k : I.Reply c → Prog I ε α} {s : σ}
    {past : List I.Call} {m : List I.Call × σ} :
    m ∈ (call c k).moments h s past ↔ m = (past, s) ∨
      ∃ r s', h c s = .ok (r, s') ∧ m ∈ (k r).moments h s' (past ++ [c]) := by
  rw [moments, List.mem_cons]
  refine or_congr_right ?_
  cases hc : h c s with
  | error e => simp
  | ok x =>
    constructor
    · exact fun hm => ⟨x.1, x.2, rfl, hm⟩
    · rintro ⟨r, s', heq, hm⟩
      cases heq
      exact hm

/-- The calls a run makes, each with the state it is made in. -/
def callsAt (h : Handler I ε σ) : Prog I ε α → σ → List (I.Call × σ)
  | ret _, _ => []
  | halt _, _ => []
  | call c k, s =>
    (c, s) ::
      match h c s with
      | .error _ => []
      | .ok (r, s') => (k r).callsAt h s'

theorem mem_callsAt_call {h : Handler I ε σ} {c : I.Call} {k : I.Reply c → Prog I ε α} {s : σ}
    {x : I.Call × σ} : x ∈ (call c k).callsAt h s ↔ x = (c, s) ∨
      ∃ r s', h c s = .ok (r, s') ∧ x ∈ (k r).callsAt h s' := by
  rw [callsAt, List.mem_cons]
  refine or_congr_right ?_
  cases hc : h c s with
  | error e => simp
  | ok y =>
    constructor
    · exact fun hx => ⟨y.1, y.2, rfl, hx⟩
    · rintro ⟨r, s', heq, hx⟩
      cases heq
      exact hx

/-- What every call preserves holds at every moment. -/
theorem of_mem_moments {h : Handler I ε σ} {Q : σ → Prop}
    (hstep : ∀ c s r s', Q s → h c s = .ok (r, s') → Q s') :
    ∀ {p : Prog I ε α} {s : σ} {past : List I.Call}, Q s →
      ∀ m ∈ p.moments h s past, Q m.2
  | ret _, _, _, hs, m, hm => by
    rw [moments, List.mem_singleton] at hm
    rwa [hm]
  | halt _, _, _, hs, m, hm => by
    rw [moments, List.mem_singleton] at hm
    rwa [hm]
  | call c k, s, past, hs, m, hm => by
    rcases mem_moments_call.mp hm with rfl | ⟨r, s', hc, hm⟩
    · exact hs
    · exact of_mem_moments hstep (hstep c s r s' hs hc) m hm

end Prog

/-! ## Wrappers -/

/-- Answers to the calls of `I` by programs over `J`, from a state `τ`. -/
def Wrapper (I J : Interface) (ε τ : Type) : Type :=
  (c : I.Call) → τ → Prog J ε (I.Reply c × τ)

/-- Every call passed on. -/
def Wrapper.forward {I : Interface} {ε τ : Type} : Wrapper I I ε τ :=
  fun c t => .call c fun r => .ret (r, t)

/-- Every call passed on, and its reply recorded. -/
def Wrapper.recording {I : Interface} {ε τ : Type} (after : τ → (c : I.Call) → I.Reply c → τ) :
    Wrapper I I ε τ :=
  fun c t => .call c fun r => .ret (r, after t c r)

/-- The wrapper together with a handler of the calls it makes. -/
def Wrapper.over {I J : Interface} {ε σ τ : Type} (w : Wrapper I J ε τ) (h : Handler J ε σ) :
    Handler I ε (τ × σ) :=
  fun c s => (w c s.1).run h s.2 >>= fun x => .ok (x.1.1, (x.1.2, x.2))

namespace Prog

variable {I J : Interface} {ε α β γ σ τ : Type}

/-- The program with each call answered by the wrapper. -/
def through (w : Wrapper I J ε τ) : Prog I ε α → τ → Prog J ε (α × τ)
  | ret a, t => ret (a, t)
  | halt e, _ => halt e
  | call c k, t => w c t >>= fun x => (k x.1).through w x.2

theorem over_eq_ok {w : Wrapper I J ε τ} {h : Handler J ε σ} {c : I.Call} {t t' : τ} {s s' : σ}
    {r : I.Reply c} (hw : (w c t).run h s = .ok ((r, t'), s')) :
    w.over h c (t, s) = .ok (r, (t', s')) := by
  rw [Wrapper.over, hw]
  rfl

theorem over_eq_error {w : Wrapper I J ε τ} {h : Handler J ε σ} {c : I.Call} {t : τ} {s : σ}
    {e : ε} (hw : (w c t).run h s = .error e) : w.over h c (t, s) = .error e := by
  rw [Wrapper.over, hw]
  rfl

/-- A call recorded is passed on as well. -/
theorem of_over_recording {after : τ → (c : I.Call) → I.Reply c → τ} {h : Handler I ε σ}
    {c : I.Call} {r : I.Reply c} {x y : τ × σ}
    (hc : (Wrapper.recording after).over h c x = .ok (r, y)) :
    y.1 = after x.1 c r ∧ h c x.2 = .ok (r, y.2) := by
  rw [Wrapper.over] at hc
  cases hs : h c x.2 with
  | error e =>
    rw [Wrapper.recording, run_call_error hs] at hc
    cases hc
  | ok z =>
    rw [Wrapper.recording, run_call hs] at hc
    cases hc
    exact ⟨rfl, rfl⟩

/-- A call passed on leaves the wrapper as it is. -/
theorem of_over_forward {w : Wrapper I I ε τ} {h : Handler I ε σ} {c : I.Call} {r : I.Reply c}
    {x y : τ × σ} (hw : w c x.1 = Wrapper.forward c x.1) (hc : w.over h c x = .ok (r, y)) :
    y.1 = x.1 ∧ h c x.2 = .ok (r, y.2) := by
  have hrec : (Wrapper.recording fun t _ _ => t).over h c x = .ok (r, y) := by
    rwa [Wrapper.over, hw] at hc
  exact of_over_recording hrec

theorem of_over_recording_error {after : τ → (c : I.Call) → I.Reply c → τ} {h : Handler I ε σ}
    {c : I.Call} {e : ε} {x : τ × σ} (hc : (Wrapper.recording after).over h c x = .error e) :
    h c x.2 = .error e := by
  rw [Wrapper.over] at hc
  cases hs : h c x.2 with
  | error e' =>
    rw [Wrapper.recording, run_call_error hs] at hc
    cases hc
    rfl
  | ok z =>
    rw [Wrapper.recording, run_call hs] at hc
    cases hc

theorem through_bind (w : Wrapper I J ε τ) (f : α → Prog I ε β) :
    ∀ (p : Prog I ε α) (t : τ),
      (p >>= f).through w t = p.through w t >>= fun x => (f x.1).through w x.2
  | ret _, _ => rfl
  | halt _, _ => rfl
  | call c k, t => by
    rw [call_bind, through, through, bind_assoc]
    congr 1
    funext x
    exact through_bind w f (k x.1) x.2

/-- Running a program behind a wrapper is running it against wrapper and handler. -/
theorem run_through (w : Wrapper I J ε τ) (h : Handler J ε σ) :
    ∀ (p : Prog I ε α) (t : τ) (s : σ), (p.through w t).run h s =
      p.run (w.over h) (t, s) >>= fun x => .ok ((x.1, x.2.1), x.2.2)
  | ret _, _, _ => rfl
  | halt _, _, _ => rfl
  | call c k, t, s => by
    rw [through, run_bind]
    cases hw : (w c t).run h s with
    | error e =>
      rw [run_call_error (over_eq_error hw)]
      rfl
    | ok x =>
      obtain ⟨⟨r, t'⟩, s'⟩ := x
      rw [run_call (over_eq_ok hw)]
      exact run_through w h (k r) t' s'

end Prog

/-! ## Contracts -/

/-- What a program owes before each call, and may rely on after it, over a ghost state
`γ`. -/
structure Contract (I : Interface) (γ : Type) where
  pre : I.Call → γ → Prop
  post : (c : I.Call) → γ → I.Reply c → γ → Prop

/-- Every reply of the handler keeps the contract, on the states `R` relates to the ghost
state. -/
def Handler.Respects {I : Interface} {ε σ γ : Type} (h : Handler I ε σ) (K : Contract I γ)
    (R : γ → σ → Prop) : Prop :=
  ∀ c g s r s', K.pre c g → R g s → h c s = .ok (r, s') → ∃ g', K.post c g r g' ∧ R g' s'

/-- The handler replies, and keeps the contract, on the states `R` relates to the ghost
state. -/
def Handler.Keeps {I : Interface} {ε σ γ : Type} (h : Handler I ε σ) (K : Contract I γ)
    (R : γ → σ → Prop) : Prop :=
  ∀ c g s, K.pre c g → R g s → ∃ r s' g', h c s = .ok (r, s') ∧ K.post c g r g' ∧ R g' s'

namespace Prog

variable {I J : Interface} {ε α β γ σ τ : Type}

/-- Whatever the replies the contract allows, the program makes no call it does not
allow, returns only with `Q`, and halts only with `H`. -/
def Meets (K : Contract I γ) (H : ε → γ → Prop) (Q : α → γ → Prop) : Prog I ε α → γ → Prop
  | ret a, g => Q a g
  | halt e, g => H e g
  | call c k, g => K.pre c g ∧ ∀ r g', K.post c g r g' → (k r).Meets K H Q g'

theorem Meets.imp {K : Contract I γ} {H : ε → γ → Prop} {Q Q' : α → γ → Prop}
    (hQ : ∀ a g, Q a g → Q' a g) :
    ∀ {p : Prog I ε α} {g : γ}, p.Meets K H Q g → p.Meets K H Q' g
  | ret _, _, hp => hQ _ _ hp
  | halt _, _, hp => hp
  | call _ _, _, hp => ⟨hp.1, fun r g' hr => (hp.2 r g' hr).imp hQ⟩

theorem Meets.bind {K : Contract I γ} {H : ε → γ → Prop} {Q : α → γ → Prop} {R : β → γ → Prop}
    {f : α → Prog I ε β} (hf : ∀ a g, Q a g → (f a).Meets K H R g) :
    ∀ {p : Prog I ε α} {g : γ}, p.Meets K H Q g → (p >>= f).Meets K H R g
  | ret _, _, hp => hf _ _ hp
  | halt _, _, hp => hp
  | call _ _, _, hp => ⟨hp.1, fun r g' hr => (hp.2 r g' hr).bind hf⟩

/-- Run against a handler that keeps the contract, a program that meets it returns with
its postcondition or halts as it may. -/
theorem run_of_meets {K : Contract I γ} {H : ε → γ → Prop} {Q : α → γ → Prop}
    {h : Handler I ε σ} {R : γ → σ → Prop} (hK : h.Keeps K R) :
    ∀ {p : Prog I ε α} {g : γ} {s : σ}, p.Meets K H Q g → R g s →
      (∃ a s' g', p.run h s = .ok (a, s') ∧ Q a g' ∧ R g' s') ∨
        ∃ e s' g', p.run h s = .error e ∧ H e g' ∧ R g' s'
  | ret a, g, s, hp, hR => Or.inl ⟨a, s, g, rfl, hp, hR⟩
  | halt e, g, s, hp, hR => Or.inr ⟨e, s, g, rfl, hp, hR⟩
  | call c k, g, s, hp, hR => by
    obtain ⟨r, s', g', hc, hpost, hR'⟩ := hK c g s hp.1 hR
    rw [run_call hc]
    exact run_of_meets hK (hp.2 r g' hpost) hR'

/-- At every moment of a run the state is related to a ghost state, if the replies keep the
contract and what has been called along with it. -/
theorem Meets.of_mem_moments {K : Contract I γ} {H : ε → γ → Prop} {Q : α → γ → Prop}
    {h : Handler I ε σ} {R : γ → List I.Call → σ → Prop}
    (hK : ∀ c g past s r s', K.pre c g → R g past s → h c s = .ok (r, s') →
      ∃ g', K.post c g r g' ∧ R g' (past ++ [c]) s') :
    ∀ {p : Prog I ε α} {g : γ} {past : List I.Call} {s : σ}, p.Meets K H Q g → R g past s →
      ∀ m ∈ p.moments h s past, ∃ g', R g' m.1 m.2
  | ret _, g, past, s, _, hR, m, hm => by
    rw [moments, List.mem_singleton] at hm
    exact ⟨g, by rwa [hm]⟩
  | halt _, g, past, s, _, hR, m, hm => by
    rw [moments, List.mem_singleton] at hm
    exact ⟨g, by rwa [hm]⟩
  | call c k, g, past, s, hp, hR, m, hm => by
    rcases mem_moments_call.mp hm with rfl | ⟨r, s', hc, hm⟩
    · exact ⟨g, hR⟩
    · obtain ⟨g', hpost, hR'⟩ := hK c g past s r s' hp.1 hR hc
      exact Meets.of_mem_moments hK (hp.2 r g' hpost) hR' m hm

/-- Every call of a run is one the contract allows, if the replies keep it. -/
theorem Meets.of_mem_callsAt {K : Contract I γ} {H : ε → γ → Prop} {Q : α → γ → Prop}
    {h : Handler I ε σ} {R : γ → σ → Prop} (hK : h.Respects K R) :
    ∀ {p : Prog I ε α} {g : γ} {s : σ}, p.Meets K H Q g → R g s →
      ∀ x ∈ p.callsAt h s, ∃ g', K.pre x.1 g' ∧ R g' x.2
  | ret _, _, _, _, _, _, hx => by cases hx
  | halt _, _, _, _, _, _, hx => by cases hx
  | call c k, g, s, hp, hR, x, hx => by
    rcases mem_callsAt_call.mp hx with rfl | ⟨r, s', hc, hx⟩
    · exact ⟨g, hp.1, hR⟩
    · obtain ⟨g', hpost, hR'⟩ := hK c g s r s' hp.1 hR hc
      exact Meets.of_mem_callsAt hK (hp.2 r g' hpost) hR' x hx

/-- A program that does not halt by itself halts at a call the handler halts at. -/
theorem Meets.exists_call_halts {K : Contract I γ} {Q : α → γ → Prop} {h : Handler I ε σ}
    {R : γ → σ → Prop} (hK : h.Respects K R) :
    ∀ {p : Prog I ε α} {g : γ} {s : σ} {e : ε}, p.Meets K (fun _ _ => False) Q g → R g s →
      p.run h s = .error e → ∃ x ∈ p.callsAt h s, h x.1 x.2 = .error e
  | ret _, _, _, _, _, _, hrun => by cases hrun
  | halt _, _, _, _, hp, _, _ => hp.elim
  | call c k, g, s, e, hp, hR, hrun => by
    cases hc : h c s with
    | error e' =>
      rw [run_call_error hc] at hrun
      cases hrun
      exact ⟨(c, s), mem_callsAt_call.mpr (Or.inl rfl), hc⟩
    | ok y =>
      rw [run_call hc] at hrun
      obtain ⟨g', hpost, hR'⟩ := hK c g s y.1 y.2 hp.1 hR hc
      obtain ⟨x, hx, hhalt⟩ := Meets.exists_call_halts hK (hp.2 y.1 g' hpost) hR' hrun
      exact ⟨x, mem_callsAt_call.mpr (Or.inr ⟨y.1, y.2, hc, hx⟩), hhalt⟩

/-- A run that returns does so with the postcondition, if the replies keep the contract. -/
theorem returns_of_meets {K : Contract I γ} {H : ε → γ → Prop} {Q : α → γ → Prop}
    {h : Handler I ε σ} {R : γ → σ → Prop} (hK : h.Respects K R) :
    ∀ {p : Prog I ε α} {g : γ} {s s' : σ} {a : α}, p.Meets K H Q g → R g s →
      p.run h s = .ok (a, s') → ∃ g', Q a g' ∧ R g' s'
  | ret _, g, _, _, _, hp, hR, hrun => by
    cases hrun
    exact ⟨g, hp, hR⟩
  | halt _, _, _, _, _, _, _, hrun => by cases hrun
  | call c k, g, s, _, _, hp, hR, hrun => by
    obtain ⟨r, t, hc, hrun⟩ := run_call_eq_ok.mp hrun
    obtain ⟨g', hpost, hR'⟩ := hK c g s r t hp.1 hR hc
    exact returns_of_meets hK (hp.2 r g' hpost) hR' hrun

end Prog

/-! ## What a program can do -/

namespace Prog

variable {I : Interface} {ε α β σ : Type}

/-- Some replies let the program return `a`. -/
def CanReturn (a : α) : Prog I ε α → Prop
  | ret b => b = a
  | halt _ => False
  | call _ k => ∃ r, (k r).CanReturn a

/-- Some replies lead the program to the call `c`. -/
def CanCall (c : I.Call) : Prog I ε α → Prop
  | ret _ => False
  | halt _ => False
  | call c' k => c' = c ∨ ∃ r, (k r).CanCall c

theorem canReturn_bind {f : α → Prog I ε β} {b : β} : ∀ {p : Prog I ε α},
    (p >>= f).CanReturn b ↔ ∃ a, p.CanReturn a ∧ (f a).CanReturn b
  | ret a => ⟨fun h => ⟨a, rfl, h⟩, fun ⟨_, ha, h⟩ => ha ▸ h⟩
  | halt _ => ⟨False.elim, fun ⟨_, h, _⟩ => h⟩
  | call c k => by
    have ih : ∀ r, (k r >>= f).CanReturn b ↔ ∃ a, (k r).CanReturn a ∧ (f a).CanReturn b :=
      fun r => canReturn_bind
    rw [call_bind, CanReturn]
    simp only [ih]
    constructor
    · rintro ⟨r, a, ha, h⟩
      exact ⟨a, ⟨r, ha⟩, h⟩
    · rintro ⟨a, ⟨r, ha⟩, h⟩
      exact ⟨r, a, ha, h⟩

theorem canCall_bind {f : α → Prog I ε β} {c : I.Call} : ∀ {p : Prog I ε α},
    (p >>= f).CanCall c ↔ p.CanCall c ∨ ∃ a, p.CanReturn a ∧ (f a).CanCall c
  | ret a => ⟨fun h => Or.inr ⟨a, rfl, h⟩, fun h => h.elim False.elim fun ⟨_, ha, h⟩ => ha ▸ h⟩
  | halt _ => ⟨False.elim, fun h => h.elim id fun ⟨_, h, _⟩ => h⟩
  | call c' k => by
    have ih : ∀ r, (k r >>= f).CanCall c ↔
        (k r).CanCall c ∨ ∃ a, (k r).CanReturn a ∧ (f a).CanCall c := fun r => canCall_bind
    rw [call_bind, CanCall]
    simp only [ih]
    constructor
    · rintro (rfl | ⟨r, h | ⟨a, ha, h⟩⟩)
      · exact Or.inl (Or.inl rfl)
      · exact Or.inl (Or.inr ⟨r, h⟩)
      · exact Or.inr ⟨a, ⟨r, ha⟩, h⟩
    · rintro ((rfl | ⟨r, h⟩) | ⟨a, ⟨r, ha⟩, h⟩)
      · exact Or.inl rfl
      · exact Or.inr ⟨r, Or.inl h⟩
      · exact Or.inr ⟨r, Or.inr ⟨a, ha, h⟩⟩

/-- What a run returns can be returned. -/
theorem canReturn_of_run {h : Handler I ε σ} : ∀ {p : Prog I ε α} {s s' : σ} {a : α},
    p.run h s = .ok (a, s') → p.CanReturn a
  | ret _, _, _, _, hrun => by
    cases hrun
    rfl
  | halt _, _, _, _, hrun => by cases hrun
  | call c k, s, _, _, hrun => by
    obtain ⟨r, t, -, hrun⟩ := run_call_eq_ok.mp hrun
    exact ⟨r, canReturn_of_run hrun⟩

end Prog

/-! ## Programs that make the same calls -/

namespace Prog

variable {I : Interface} {ε α β γ δ σ : Type}

/-- Whatever the replies, the programs make the same calls, and then return values that `R` relates
or halt for the same reason. -/
inductive Alike (R : α → β → Prop) : Prog I ε α → Prog I ε β → Prop where
  | ret {a : α} {b : β} (h : R a b) : Alike R (ret a) (ret b)
  | halt (e : ε) : Alike R (halt e) (halt e)
  | call (c : I.Call) {k : I.Reply c → Prog I ε α} {k' : I.Reply c → Prog I ε β}
      (h : ∀ r, Alike R (k r) (k' r)) : Alike R (call c k) (call c k')

namespace Alike

theorem refl {R : α → α → Prop} (hR : ∀ a, R a a) : ∀ p : Prog I ε α, Alike R p p
  | .ret a => ret (hR a)
  | .halt e => halt e
  | .call c k => call c fun r => refl hR (k r)

theorem bind {R : α → β → Prop} {S : γ → δ → Prop} {p : Prog I ε α} {q : Prog I ε β}
    {f : α → Prog I ε γ} {g : β → Prog I ε δ} (hp : Alike R p q)
    (hf : ∀ a b, R a b → Alike S (f a) (g b)) : Alike S (p >>= f) (q >>= g) := by
  induction hp with
  | ret h => exact hf _ _ h
  | halt e => exact halt e
  | call c _ ih => exact call c ih

/-- Against any handler the programs make the same calls, and both return in the same state, or
both halt. -/
theorem run {R : α → β → Prop} {p : Prog I ε α} {q : Prog I ε β} (hp : Alike R p q)
    (h : Handler I ε σ) (s : σ) : p.trace h s = q.trace h s ∧
      ((∃ a b s', p.run h s = .ok (a, s') ∧ q.run h s = .ok (b, s') ∧ R a b) ∨
        ∃ e, p.run h s = .error e ∧ q.run h s = .error e) := by
  induction hp generalizing s with
  | ret hab => exact ⟨rfl, Or.inl ⟨_, _, s, rfl, rfl, hab⟩⟩
  | halt e => exact ⟨rfl, Or.inr ⟨e, rfl, rfl⟩⟩
  | call c _ ih =>
    cases hc : h c s with
    | error e =>
      rw [trace_call_error hc, trace_call_error hc, run_call_error hc, run_call_error hc]
      exact ⟨rfl, Or.inr ⟨e, rfl, rfl⟩⟩
    | ok x =>
      rw [trace_call hc, trace_call hc, run_call hc, run_call hc]
      exact ⟨congrArg (c :: ·) (ih x.1 x.2).1, (ih x.1 x.2).2⟩

end Alike

end Prog

/-! ## Programs cut short -/

namespace Prog

variable {I : Interface} {ε α β σ : Type} {e : ε} {p q r : Prog I ε α}

/-- Against any handler `p` halts with `e`, or runs as `q` does. -/
structure Approximates (e : ε) (p q : Prog I ε α) : Prop where
  run : ∀ {σ : Type} (h : Handler I ε σ) (s : σ), p.run h s = .error e ∨ p.run h s = q.run h s

namespace Approximates

theorem refl (p : Prog I ε α) : p.Approximates e p :=
  ⟨fun _ _ => Or.inr rfl⟩

theorem halt (p : Prog I ε α) : (Prog.halt e : Prog I ε α).Approximates e p :=
  ⟨fun _ _ => Or.inl rfl⟩

theorem trans (hpq : p.Approximates e q) (hqr : q.Approximates e r) : p.Approximates e r := by
  refine ⟨fun h s => ?_⟩
  rcases hpq.run h s with hp | hp
  · exact Or.inl hp
  · rw [hp]
    exact hqr.run h s

theorem bind {f g : α → Prog I ε β} (hp : p.Approximates e q)
    (hf : ∀ a, q.CanReturn a → (f a).Approximates e (g a)) :
    (p >>= f).Approximates e (q >>= g) := by
  refine ⟨fun h s => ?_⟩
  rw [run_bind, run_bind]
  rcases hp.run h s with hrun | hrun
  · rw [hrun]
    exact Or.inl rfl
  · rw [hrun]
    cases hq : q.run h s with
    | error e => exact Or.inr rfl
    | ok x => exact (hf x.1 (canReturn_of_run hq)).run h x.2

/-- What `p` returns `q` returns. -/
theorem run_eq_ok (hp : p.Approximates e q) {h : Handler I ε σ} {s : σ} {x : α × σ}
    (hrun : p.run h s = .ok x) : q.run h s = .ok x := by
  rcases hp.run h s with hp | hp
  · rw [hp] at hrun
    cases hrun
  · rwa [← hp]

end Approximates

end Prog

/-! ## Calls made one after the other -/

/-- A call with its reply, and the state after it. -/
structure Answer (I : Interface) (σ : Type) where
  reply : (c : I.Call) × I.Reply c
  state : σ

namespace Handler

variable {I : Interface} {ε σ τ : Type}

/-- The answers to the calls made one after the other, up to and including the first that fails. -/
def transcript (h : Handler I ε σ) (fails : (c : I.Call) × I.Reply c → Bool) :
    List I.Call → σ → Except ε (List (Answer I σ))
  | [], _ => .ok []
  | c :: calls, s =>
    match h c s with
    | .error e => .error e
    | .ok (r, s') =>
      if fails ⟨c, r⟩ then .ok [⟨⟨c, r⟩, s'⟩]
      else (⟨⟨c, r⟩, s'⟩ :: ·) <$> h.transcript fails calls s'

section Transcript

variable {h : Handler I ε σ} {fails : (c : I.Call) × I.Reply c → Bool} {c : I.Call}
  {calls : List I.Call} {r : I.Reply c} {s s' : σ}

theorem transcript_of_fails (hc : h c s = .ok (r, s')) (hr : fails ⟨c, r⟩ = true) :
    h.transcript fails (c :: calls) s = .ok [⟨⟨c, r⟩, s'⟩] := by
  simp only [transcript, hc, hr, if_true]

theorem transcript_of_not_fails {as : List (Answer I σ)} (hc : h c s = .ok (r, s'))
    (hr : fails ⟨c, r⟩ = false) (has : h.transcript fails calls s' = .ok as) :
    h.transcript fails (c :: calls) s = .ok (⟨⟨c, r⟩, s'⟩ :: as) := by
  simp only [transcript, hc, hr, has]
  rfl

/-- Two handlers that reply to each call alike, and keep their states related until one fails, have
transcripts alike. -/
theorem exists_transcripts {h' : Handler I ε τ} {R : σ → τ → Prop}
    (hstep : ∀ c ∈ calls, ∀ x y, R x y → ∃ r x' y', h c x = .ok (r, x') ∧
      h' c y = .ok (r, y') ∧ (fails ⟨c, r⟩ = false → R x' y'))
    {x : σ} {y : τ} (hR : R x y) :
    ∃ as bs, h.transcript fails calls x = .ok as ∧ h'.transcript fails calls y = .ok bs ∧
      List.Forall₂ (fun a b => a.reply = b.reply ∧ (fails a.reply = false → R a.state b.state))
        as bs := by
  induction calls generalizing x y with
  | nil => exact ⟨[], [], rfl, rfl, .nil⟩
  | cons c calls ih =>
    obtain ⟨r, x', y', hx, hy, hR'⟩ := hstep c List.mem_cons_self x y hR
    cases hr : fails ⟨c, r⟩ with
    | true =>
      refine ⟨_, _, transcript_of_fails hx hr, transcript_of_fails hy hr, ?_⟩
      exact .cons ⟨rfl, hR'⟩ .nil
    | false =>
      obtain ⟨as, bs, has, hbs, hall⟩ :=
        ih (fun c hc => hstep c (List.mem_cons_of_mem _ hc)) (hR' hr)
      refine ⟨_, _, transcript_of_not_fails hx hr has, transcript_of_not_fails hy hr hbs, ?_⟩
      exact .cons ⟨rfl, hR'⟩ hall

end Transcript

end Handler

end ScaleCodec
