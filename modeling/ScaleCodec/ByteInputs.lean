import ScaleCodec.RoundTrip
import ScaleCodec.TypeDiscipline

/-!
# Inputs over the same bytes

An input other than a slice may still be an input over bytes (`ReadsBytes`) : it has a string of
bytes left, which its reads take from the front, and its hooks do nothing. It need not know how many
bytes are left. A decoder has the same outcome on it as on the slice of these bytes : `Ok` with the
same value and the same bytes left, or `Err` (`SameOutcome`). This too is a logic of decoders
(`ReadsBytes.logic`), in which the first decoder runs on the input and the second on the slice.

`IoReader` is such an input, and the remaining length it does not know is not missed
(`LibTy.remaining_len_unneeded`).
-/

namespace ScaleCodec

variable {α β σ τ : Type}

/-! ## Outcomes -/

/-- Both runs return `Ok` with the same value in related states, both return `Err`, or both halt. -/
inductive SameOutcome (R : σ → τ → Prop) :
    Except Halt (Except Error α × σ) → Except Halt (Except Error α × τ) → Prop where
  | ok {a : α} {x : σ} {s : τ} (hR : R x s) : SameOutcome R (.ok (.ok a, x)) (.ok (.ok a, s))
  | err {e e' : Error} {x : σ} {s : τ} : SameOutcome R (.ok (.error e, x)) (.ok (.error e', s))
  | halt {h : Halt} : SameOutcome R (.error h) (.error h)

namespace SameOutcome

variable {R : σ → τ → Prop} {h : Handler inputInterface Halt σ} {h' : Handler inputInterface Halt τ}
  {p q : DecodeM α} {x : σ} {s : τ}

theorem bind {f g : α → DecodeM β} (hpq : SameOutcome R (p.run.run h x) (q.run.run h' s))
    (hfg : ∀ a x' s', q.run.run h' s = .ok (.ok a, s') → R x' s' →
      SameOutcome R ((f a).run.run h x') ((g a).run.run h' s')) :
    SameOutcome R ((p >>= f).run.run h x) ((q >>= g).run.run h' s) := by
  rw [DecodeM.run_bind_run, DecodeM.run_bind_run]
  generalize p.run.run h x = y at hpq
  generalize q.run.run h' s = z at hpq hfg
  cases hpq with
  | ok hR => exact hfg _ _ _ rfl hR
  | err => exact .err
  | halt => exact .halt

theorem chainErr {desc : String} (hpq : SameOutcome R (p.run.run h x) (q.run.run h' s)) :
    SameOutcome R ((p.chainErr desc).run.run h x) ((q.chainErr desc).run.run h' s) := by
  unfold DecodeM.chainErr
  rw [ExceptT.run_mk, ExceptT.run_mk, map_eq_pure_bind, map_eq_pure_bind, Prog.run_bind,
    Prog.run_bind]
  generalize p.run.run h x = y at hpq
  generalize q.run.run h' s = z at hpq
  cases hpq with
  | ok hR => exact .ok hR
  | err => exact .err
  | halt => exact .halt

section Iff

variable {y : Except Halt (Except Error α × σ)} {z : Except Halt (Except Error α × τ)}

theorem fst_ok_iff (hyz : SameOutcome R y z) {a : α} :
    Prod.fst <$> y = .ok (.ok a) ↔ ∃ s, z = .ok (.ok a, s) := by
  cases hyz with
  | ok hR =>
    constructor
    · intro h
      cases h
      exact ⟨_, rfl⟩
    · rintro ⟨_, h⟩
      cases h
      rfl
  | err => exact ⟨(fun h => by cases h), fun ⟨_, h⟩ => by cases h⟩
  | halt => exact ⟨(fun h => by cases h), fun ⟨_, h⟩ => by cases h⟩

theorem fst_error_iff (hyz : SameOutcome R y z) :
    (∃ e, Prod.fst <$> y = .ok (.error e)) ↔ ∃ e s, z = .ok (.error e, s) := by
  cases hyz with
  | ok hR => exact ⟨fun ⟨_, h⟩ => (by cases h), fun ⟨_, _, h⟩ => by cases h⟩
  | err => exact ⟨fun _ => ⟨_, _, rfl⟩, fun _ => ⟨_, rfl⟩⟩
  | halt => exact ⟨fun ⟨_, h⟩ => (by cases h), fun ⟨_, _, h⟩ => by cases h⟩

theorem fst_halt_iff (hyz : SameOutcome R y z) {h : Halt} :
    Prod.fst <$> y = .error h ↔ z = .error h := by
  cases hyz with
  | ok hR => exact ⟨(fun h => by cases h), fun h => by cases h⟩
  | err => exact ⟨(fun h => by cases h), fun h => by cases h⟩
  | halt =>
    constructor
    · intro h
      cases h
      rfl
    · intro h
      cases h
      rfl

end Iff

end SameOutcome

/-! ## Inputs over bytes -/

/-- In the state `x` the input has the bytes `s` left if `R x s`. It replies to `remaining_len`
with their number or with `None`, and the hooks keep their default bodies. -/
structure ReadsBytes (h : Handler inputInterface Halt σ) (R : σ → List Byte → Prop) : Prop where
  remainingLen : ∀ {x s}, R x s → ∃ o x', h .remainingLen x = .ok (.ok o, x') ∧
    (o = none ∨ o = some s.length) ∧ R x' s
  read : ∀ {x s} (n : ℕ), R x s → SameOutcome R (h (.read n) x) (.ok (sliceRead n s))
  readByte : ∀ {x s}, R x s → SameOutcome R (h .readByte x) (.ok (sliceReadByte s))
  descendRef : ∀ x, h .descendRef x = .ok (.ok (), x)
  ascendRef : ∀ x, h .ascendRef x = .ok ((), x)
  onBeforeAllocMem : ∀ size x, h (.onBeforeAllocMem size) x = .ok (.ok (), x)
  allocate : ∀ size x, h (.allocate size) x = .ok ((), x)

/-- `p` on the input and `q` on the slice of the bytes it has left have the same outcome. -/
def Simulates (h : Handler inputInterface Halt σ) (R : σ → List Byte → Prop) (p q : DecodeM α) :
    Prop :=
  ∀ x s, R x s → SameOutcome R (p.run.run h x) (runSlice q s)

section Simulates

variable {h : Handler inputInterface Halt σ} {R : σ → List Byte → Prop} {p q : DecodeM α}

theorem Simulates.bind {f g : α → DecodeM β} (hp : Simulates h R p q)
    (hf : ∀ a, Simulates h R (f a) (g a)) : Simulates h R (p >>= f) (q >>= g) :=
  fun _ _ hx => (hp _ _ hx).bind fun a _ _ _ hx' => hf a _ _ hx'

theorem Simulates.bind_of_yields {P : α → Prop} {f g : α → DecodeM β} (hp : Simulates h R p q)
    (hP : Yields P q) (hf : ∀ a, P a → Simulates h R (f a) (g a)) :
    Simulates h R (p >>= f) (q >>= g) :=
  fun _ _ hx => (hp _ _ hx).bind fun a _ _ hq hx' => hf a (hP.of_run hq) _ _ hx'

theorem Simulates.pure (a : α) : Simulates h R (pure a) (pure a) :=
  fun _ _ hx => .ok hx

theorem run_checkRemaining {x x' : σ} {o : Option ℕ} {n : ℕ}
    (hlen : h .remainingLen x = .ok (.ok o, x')) (ho : ∀ m ∈ o, n ≤ m) :
    (checkRemaining n).run.run h x = .ok (.ok (), x') := by
  have hrun : DecodeM.remainingLen.run.run h x = .ok (.ok o, x') := Prog.run_call hlen _
  rw [checkRemaining, DecodeM.run_bind_run, hrun]
  cases o with
  | none => rfl
  | some m =>
    show Prog.run h (ExceptT.run (if m < n then _ else _)) x' = _
    rw [if_neg (not_lt.mpr (ho m rfl))]
    rfl

theorem run_checkRemaining_error {x x' : σ} {m n : ℕ}
    (hlen : h .remainingLen x = .ok (.ok (some m), x')) (hm : m < n) :
    (checkRemaining n).run.run h x =
      .ok (.error (.desc "Not enough data to decode vector"), x') := by
  have hrun : DecodeM.remainingLen.run.run h x = .ok (.ok (some m), x') := Prog.run_call hlen _
  rw [checkRemaining, DecodeM.run_bind_run, hrun]
  show Prog.run h (ExceptT.run (if m < n then _ else _)) x' = _
  rw [if_pos hm]
  rfl

namespace ReadsBytes

variable (hh : ReadsBytes h R)

include hh

theorem simulates_read (n : ℕ) : Simulates h R (DecodeM.read n) (DecodeM.read n) := by
  intro x s hx
  have hrun : (DecodeM.read n).run.run h x = h (.read n) x := Prog.run_call_ret h _ x
  rw [hrun]
  exact hh.read n hx

theorem simulates_readByte : Simulates h R DecodeM.readByte DecodeM.readByte := by
  intro x s hx
  have hrun : DecodeM.readByte.run.run h x = h .readByte x := Prog.run_call_ret h _ x
  rw [hrun]
  exact hh.readByte hx

theorem simulates_descendRef : Simulates h R DecodeM.descendRef DecodeM.descendRef := by
  intro x s hx
  have hrun : DecodeM.descendRef.run.run h x = .ok (.ok (), x) := Prog.run_call (hh.descendRef x) _
  rw [hrun]
  exact .ok hx

theorem simulates_ascendRef : Simulates h R DecodeM.ascendRef DecodeM.ascendRef := by
  intro x s hx
  have hrun : DecodeM.ascendRef.run.run h x = .ok (.ok (), x) := Prog.run_call (hh.ascendRef x) _
  rw [hrun]
  exact .ok hx

theorem simulates_onBeforeAllocMem (size : ℕ) :
    Simulates h R (DecodeM.onBeforeAllocMem size) (DecodeM.onBeforeAllocMem size) := by
  intro x s hx
  have hrun : (DecodeM.onBeforeAllocMem size).run.run h x = .ok (.ok (), x) :=
    Prog.run_call (hh.onBeforeAllocMem size x) _
  rw [hrun]
  exact .ok hx

theorem simulates_allocate (size : ℕ) :
    Simulates h R (DecodeM.allocate size) (DecodeM.allocate size) := by
  intro x s hx
  have hrun : (DecodeM.allocate size).run.run h x = .ok (.ok (), x) :=
    Prog.run_call (hh.allocate size x) _
  rw [hrun]
  exact .ok hx

theorem simulates_nested (hp : Simulates h R p q) : Simulates h R p.nested q.nested :=
  hh.simulates_descendRef.bind fun _ => hp.bind fun a =>
    hh.simulates_ascendRef.bind fun _ => .pure a

theorem simulates_thenAscend (hp : Simulates h R p q) :
    Simulates h R p.thenAscend q.thenAscend := by
  intro x s hx
  have hpq := hp x s hx
  unfold runSlice DecodeM.thenAscend at *
  rw [ExceptT.run_mk, ExceptT.run_mk, Prog.run_bind, Prog.run_bind]
  generalize p.run.run h x = y at hpq
  generalize q.run.run sliceInput s = z at hpq
  cases hpq with
  | ok hR =>
    show SameOutcome R (Prog.run h (.call .ascendRef _) _) _
    rw [Prog.run_call (hh.ascendRef _)]
    exact .ok hR
  | err =>
    show SameOutcome R (Prog.run h (.call .ascendRef _) _) _
    rw [Prog.run_call (hh.ascendRef _)]
    exact .err
  | halt => exact .halt

/-- Where the input does not know that too few bytes are left, the decoder runs into it. -/
theorem simulates_checkRemaining {n : ℕ} (hn : FailsBelow n q) (hp : Simulates h R p q) :
    Simulates h R (do checkRemaining n; p) (do checkRemaining n; q) := by
  intro x s hx
  obtain ⟨o, x', hlen, ho, hx'⟩ := hh.remainingLen hx
  rw [runSlice, DecodeM.run_bind_run, DecodeM.run_bind_run]
  by_cases hs : s.length < n
  · rw [run_checkRemaining_error (h := sliceInput) rfl hs]
    rcases ho with rfl | rfl
    · obtain ⟨e, s', he⟩ := hn s hs
      have hpq := hp x' s hx'
      rw [run_checkRemaining hlen fun m hm => by cases hm]
      rw [he] at hpq
      show SameOutcome R (p.run.run h x') _
      generalize p.run.run h x' = y at hpq
      cases hpq
      exact .err
    · rw [run_checkRemaining_error hlen hs]
      exact .err
  · have hle : ∀ m ∈ some s.length, n ≤ m := by
      rintro m ⟨⟩
      exact not_lt.mp hs
    rw [run_checkRemaining (h := sliceInput) rfl hle, run_checkRemaining hlen]
    · exact hp x' s hx'
    · rcases ho with rfl | rfl
      · exact fun m hm => by cases hm
      · exact hle

/-- The logic of the input. -/
def logic : DecoderLogic where
  toDiscipline := .anyDepth fun _ => True
  Rel _ _ p q := Simulates h R p q
  rel_pure := .pure
  rel_throw _ _ _ _ := .err
  rel_halt _ _ _ _ := .halt
  rel_bind_of_yields hp := hp.bind_of_yields
  rel_read := hh.simulates_read
  rel_readByte := hh.simulates_readByte
  rel_chainErr hp _ _ hx := (hp _ _ hx).chainErr
  rel_nested hp := hh.simulates_nested (hp trivial)
  rel_nestedAlloc hp := hh.simulates_descendRef.bind fun _ =>
    (hh.simulates_onBeforeAllocMem _).bind fun _ => hh.simulates_thenAscend (hp trivial)
  rel_claim _ hp := (hh.simulates_onBeforeAllocMem _).bind fun _ =>
    (hh.simulates_allocate _).bind fun _ => hp
  rel_checkRemaining := hh.simulates_checkRemaining

end ReadsBytes

end Simulates

/-! ## `IoReader` -/

/-- `io::Read::read_exact` of a reader over bytes. When it fails, what it has read is lost. -/
def readExact (n : ℕ) (s : List Byte) : Except Error (List.Vector Byte n) × List Byte :=
  match sliceRead n s with
  | (.ok buf, s') => (.ok buf, s')
  | (.error _, _) => (.error (.desc "io error: UnexpectedEof"), [])

/-- `impl Input for IoReader<R>`, for a reader over bytes. -/
def ioReaderInput : Handler inputInterface Halt (List Byte)
  | .remainingLen, s => .ok (.ok none, s)
  | .read n, s => .ok (readExact n s)
  | .readByte, s =>
    match readExact 1 s with
    | (.ok buf, s') => .ok (.ok buf.head, s')
    | (.error e, s') => .ok (.error e, s')
  | .descendRef, s => .ok (.ok (), s)
  | .ascendRef, s => .ok ((), s)
  | .onBeforeAllocMem _, s => .ok (.ok (), s)
  | .scaleInternalDecodeBytes, _ => .error notOverridden
  | .allocate _, s => .ok ((), s)

theorem ioReaderInput_readsBytes : ReadsBytes ioReaderInput Eq where
  remainingLen hx := ⟨none, _, rfl, Or.inl rfl, hx⟩
  read := by
    rintro s _ n rfl
    show SameOutcome Eq (.ok (readExact n s)) _
    unfold readExact
    rcases sliceRead n s with ⟨_ | buf, s'⟩
    · exact .err
    · exact .ok rfl
  readByte := by
    rintro s _ rfl
    simp only [ioReaderInput, readExact, sliceReadByte]
    rcases sliceRead 1 s with ⟨_ | buf, s'⟩
    · exact .err
    · exact .ok rfl
  descendRef _ := rfl
  ascendRef _ := rfl
  onBeforeAllocMem _ _ := rfl
  allocate _ _ := rfl

/-- Whether the input knows how many bytes are left or not, decoding them returns the same value and
leaves the same bytes, or fails. -/
theorem LibTy.remaining_len_unneeded {P : Platform Empty.elim} {α σ : Type} {t : LibTy α}
    (hc : t.Compiles P) {h : Handler inputInterface Halt σ} {R : σ → List Byte → Prop}
    (hh : ReadsBytes h R) {x : σ} {b : List Byte} (hx : R x b) :
    let p := (t.decode P).decode
    (∃ v x' rest, p.run.run h x = .ok (.ok v, x') ∧ runSlice p b = .ok (.ok v, rest) ∧ R x' rest) ∨
      ∃ e e' x' rest,
        p.run.run h x = .ok (.error e, x') ∧ runSlice p b = .ok (.error e', rest) := by
  intro p
  have hsim : Simulates h R p p :=
    (Ty.decode_rel (L := hh.logic) (d := 0) hc (t.errorsIn_of_forall fun _ => trivial)).decode
  have houtcome := hsim x b hx
  obtain ⟨r, rest, hrun⟩ := Ty.exists_runSlice hc b
  have hslice : runSlice p b = .ok (r, rest) := hrun
  rw [hslice] at houtcome ⊢
  generalize p.run.run h x = y at houtcome
  cases houtcome with
  | ok hR => exact Or.inl ⟨_, _, _, rfl, rfl, hR⟩
  | err => exact Or.inr ⟨_, _, _, _, rfl, rfl⟩

/-- Two bytes of a vector through an `IoReader`. -/
theorem LibTy.remaining_len_unneeded_ioReader :
    let p := (LibTy.decode (Platform.unpadded _) (.vec (.prim .u8))).decode
    p.run.run ioReaderInput [8, 1, 2, 3] = .ok (.ok [1, 2], [3]) ∧
      runSlice p [8, 1, 2, 3] = .ok (.ok [1, 2], [3]) := by
  intro p
  have hslice : runSlice p [8, 1, 2, 3] = .ok (.ok [1, 2], [3]) := rfl
  rcases LibTy.remaining_len_unneeded (P := Platform.unpadded _) (t := .vec (.prim .u8))
    ⟨by decide, trivial⟩ ioReaderInput_readsBytes (x := [8, 1, 2, 3]) rfl with
      ⟨v, x', rest, hio, hok, rfl⟩ | ⟨_, _, _, _, _, herr⟩
  · cases hslice.symm.trans hok
    exact ⟨hio, hslice⟩
  · cases hslice.symm.trans herr

end ScaleCodec
