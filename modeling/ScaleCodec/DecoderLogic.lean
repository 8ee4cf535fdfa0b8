import ScaleCodec.Discipline

/-!
# Reasoning about all decoders

What holds of every decoder of the library is proved by following the program text : it holds of
the calls a decoder makes, and the ways decoders are put together keep it. A `DecoderLogic` is a
relation between decoders with a rule for each of these, and a `ReadLogic` one that need only have
the rules for decoders that do nothing but read. The modules of the `impl`s relate each decoder
once, for every logic, and a property of all decoders is then one more logic.

The relation is between two decoders because the decoder of a type is not the same program on all
inputs : it holds the body of `scale_internal_decode_bytes`, which one input overrides. The rules
have in them what the decoders do in a fixed order : memory is announced before it is allocated, and
the remaining length is asked for only to fail before a decoder that fails anyway (`FailsBelow`).

`Discipline.logic` is the logic of the obligations `Obeys`.
-/

namespace ScaleCodec

variable {α β : Type}

/-! ## What a decoder can return -/

/-- Whatever the replies, `p` returns only values with `P`. -/
def Yields {α : Type} (P : α → Prop) (p : DecodeM α) : Prop :=
  go p.run
where
  go : Prog inputInterface Halt (Except Error α) → Prop
  | .ret (.ok a) => P a
  | .ret (.error _) => True
  | .halt _ => True
  | .call _ k => ∀ r, go (k r)

section Yields

variable {P : α → Prop} {Q : β → Prop} {p : DecodeM α} {f : α → DecodeM β}

theorem yields_pure {a : α} (h : P a) : Yields P (pure a) :=
  h

theorem yields_err {msg : String} : Yields P (DecodeM.err msg) :=
  trivial

theorem yields_bind (hp : Yields P p) (hf : ∀ a, P a → Yields Q (f a)) : Yields Q (p >>= f) := by
  have go : ∀ q : Prog inputInterface Halt (Except Error α), Yields.go P q →
      Yields.go Q (ExceptT.run (ExceptT.mk q >>= f)) := by
    intro q
    induction q with
    | ret r =>
      cases r with
      | ok a => exact hf a
      | error e => exact fun _ => trivial
    | halt h => exact fun _ => trivial
    | call c k ih => exact fun h r => ih r (h r)
  exact go p.run hp

theorem yields_true : Yields (fun _ => True) p := by
  have go : ∀ q : Prog inputInterface Halt (Except Error α), Yields.go (fun _ => True) q := by
    intro q
    induction q with
    | ret r => cases r <;> trivial
    | halt h => trivial
    | call c k ih => exact ih
  exact go p.run

theorem yields_map {g : α → β} (hp : Yields P p) (hg : ∀ a, P a → Q (g a)) :
    Yields Q (g <$> p) := by
  rw [map_eq_pure_bind]
  exact yields_bind hp fun a ha => yields_pure (hg a ha)

theorem yields_replicateM : ∀ n, Yields (fun as : List α => as.length = n) (p.replicateM n)
  | 0 => yields_pure rfl
  | n + 1 => yields_bind yields_true fun _ _ => yields_bind (yields_replicateM n) fun _ h =>
      yields_pure (congrArg Nat.succ h)

/-- What a decoder can return may be added to any postcondition it meets. -/
theorem Yields.meets {γ : Type} {K : Contract inputInterface γ} {H : Halt → γ → Prop}
    {R : Except Error α → γ → Prop} {g : γ} (hP : Yields P p) (hp : p.run.Meets K H R g) :
    p.run.Meets K H (fun r g => R r g ∧ ∀ a, r = .ok a → P a) g := by
  have go : ∀ (q : Prog inputInterface Halt (Except Error α)) (g : γ), Yields.go P q →
      q.Meets K H R g → q.Meets K H (fun r g => R r g ∧ ∀ a, r = .ok a → P a) g := by
    intro q
    induction q with
    | ret r =>
      refine fun g hy hq => ⟨hq, ?_⟩
      rintro a rfl
      exact hy
    | halt h => exact fun g _ hq => hq
    | call c k ih => exact fun g hy hq => ⟨hq.1, fun r g' hr => ih r g' (hy r) (hq.2 r g' hr)⟩
  exact go p.run g hP hp

/-- A run returns what its decoder can. -/
theorem Yields.of_canReturn (hp : Yields P p) {a : α} (ha : p.run.CanReturn (.ok a)) : P a := by
  have go : ∀ q : Prog inputInterface Halt (Except Error α), Yields.go P q →
      q.CanReturn (.ok a) → P a := by
    intro q
    induction q with
    | ret r =>
      rintro hq rfl
      exact hq
    | halt e => exact fun _ h => h.elim
    | call c k ih => exact fun hq ⟨r, hr⟩ => ih r (hq r) hr
  exact go p.run hp ha

theorem Yields.of_run {σ : Type} {h : Handler inputInterface Halt σ} (hp : Yields P p) {x x' : σ}
    {a : α} (hrun : p.run.run h x = .ok (.ok a, x')) : P a :=
  hp.of_canReturn (Prog.canReturn_of_run hrun)

end Yields

/-- On fewer than `n` bytes `p` returns an error. -/
def FailsBelow (n : ℕ) (p : DecodeM α) : Prop :=
  ∀ s : List Byte, s.length < n → ∃ e s', runSlice p s = .ok (.error e, s')

theorem failsBelow_of_obeys {n d : ℕ} {p : DecodeM α} (hp : Obeys Discipline.total d p)
    (hn : ∀ s a s', Decodes p s a s' → n ≤ s.length) : FailsBelow n p := by
  intro s hs
  rcases runSlice_of_obeys (fun _ => trivial) hp s with ⟨r, s', hr⟩ | ⟨_, _, h⟩
  · cases r with
    | ok a => exact absurd (hn s a s' hr) (not_le.mpr hs)
    | error e => exact ⟨e, s', hr⟩
  · exact h.elim

/-! ## Logics -/

/-- A relation between decoders entered at a depth, with rules that follow the text of a decoder
that only reads. -/
structure ReadLogic extends Discipline where
  Rel : ℕ → ∀ {α : Type}, DecodeM α → DecodeM α → Prop
  rel_pure : ∀ {d : ℕ} {α : Type} (a : α), Rel d (pure a) (pure a)
  rel_throw : ∀ {d : ℕ} {α : Type} {e : Error}, errorOk e.root →
    Rel d (throw e : DecodeM α) (throw e)
  rel_halt : ∀ {d : ℕ} {α : Type} {h : Halt}, haltOk h →
    Rel d (ExceptT.mk (.halt h) : DecodeM α) (ExceptT.mk (.halt h))
  /-- A decoder may rely on what the decoder before it can return. -/
  rel_bind_of_yields : ∀ {d : ℕ} {α β : Type} {P : α → Prop} {p q : DecodeM α}
    {f g : α → DecodeM β}, Rel d p q → Yields P q → (∀ a, P a → Rel d (f a) (g a)) →
      Rel d (p >>= f) (q >>= g)
  rel_read : ∀ {d : ℕ} (n : ℕ), Rel d (DecodeM.read n) (DecodeM.read n)
  rel_readByte : ∀ {d : ℕ}, Rel d DecodeM.readByte DecodeM.readByte
  rel_chainErr : ∀ {d : ℕ} {α : Type} {p q : DecodeM α} {desc : String}, Rel d p q →
    Rel d (p.chainErr desc) (q.chainErr desc)

/-- The same with rules for references, memory and the remaining length. -/
structure DecoderLogic extends ReadLogic where
  rel_nested : ∀ {d : ℕ} {α : Type} {p q : DecodeM α}, (depthOk (d + 1) → Rel (d + 1) p q) →
    Rel d p.nested q.nested
  rel_nestedAlloc : ∀ {d : ℕ} {α : Type} {p q : DecodeM α} {size : ℕ},
    (depthOk (d + 1) → Rel (d + 1) p q) → Rel d (p.nestedAlloc size) (q.nestedAlloc size)
  /-- Memory is allocated after at least as much has been announced. -/
  rel_claim : ∀ {d : ℕ} {α : Type} {p q : DecodeM α} {size alloc : ℕ}, alloc ≤ size → Rel d p q →
    Rel d (do DecodeM.onBeforeAllocMem size; DecodeM.allocate alloc; p)
      (do DecodeM.onBeforeAllocMem size; DecodeM.allocate alloc; q)
  /-- The check of the remaining length refuses only what would fail without it. -/
  rel_checkRemaining : ∀ {d : ℕ} {α : Type} {p q : DecodeM α} {n : ℕ}, FailsBelow n q →
    Rel d p q → Rel d (do checkRemaining n; p) (do checkRemaining n; q)

/-- A logic of decoders is one of their reads. -/
instance : Coe DecoderLogic ReadLogic :=
  ⟨DecoderLogic.toReadLogic⟩

namespace ReadLogic

variable (L : ReadLogic) {d : ℕ} {p q : DecodeM α}

theorem rel_err {msg : String} (h : msg ≠ decodeOomMsg) :
    L.Rel d (DecodeM.err msg : DecodeM α) (DecodeM.err msg) :=
  L.rel_throw (L.own msg h)

theorem rel_bind {f g : α → DecodeM β} (hp : L.Rel d p q) (hf : ∀ a, L.Rel d (f a) (g a)) :
    L.Rel d (p >>= f) (q >>= g) :=
  L.rel_bind_of_yields hp yields_true fun a _ => hf a

theorem rel_map {f : α → β} (hp : L.Rel d p q) : L.Rel d (f <$> p) (f <$> q) := by
  rw [map_eq_pure_bind, map_eq_pure_bind]
  exact L.rel_bind hp fun a => L.rel_pure (f a)

theorem rel_ite {c : Prop} [Decidable c] {p p' q q' : DecodeM α} (hp : c → L.Rel d p p')
    (hq : ¬c → L.Rel d q q') : L.Rel d (if c then p else q) (if c then p' else q') := by
  split_ifs with h
  · exact hp h
  · exact hq h

theorem rel_dite {c : Prop} [Decidable c] {p p' : c → DecodeM α} {q q' : ¬c → DecodeM α}
    (hp : ∀ h, L.Rel d (p h) (p' h)) (hq : ∀ h, L.Rel d (q h) (q' h)) :
    L.Rel d (if h : c then p h else q h) (if h : c then p' h else q' h) := by
  split_ifs with h
  · exact hp h
  · exact hq h

theorem rel_replicateM (hp : L.Rel d p q) : ∀ n, L.Rel d (p.replicateM n) (q.replicateM n)
  | 0 => L.rel_pure _
  | n + 1 => L.rel_bind hp fun _ => L.rel_bind (rel_replicateM hp n) fun _ => L.rel_pure _

theorem rel_vectorM (hp : L.Rel d p q) : ∀ n, L.Rel d (p.vectorM n) (q.vectorM n)
  | 0 => L.rel_pure _
  | n + 1 => L.rel_bind hp fun _ => L.rel_bind (rel_vectorM hp n) fun _ => L.rel_pure _

end ReadLogic

/-! ## The obligations -/

section Obeys

variable {D : Discipline} {d : ℕ} {p : DecodeM α}

theorem obeys_bind_of_yields {P : α → Prop} {f : α → DecodeM β} (hp : Obeys D d p)
    (hP : Yields P p) (hf : ∀ a, P a → Obeys D d (f a)) : Obeys D d (p >>= f) := by
  unfold Obeys
  rw [ExceptT.run_bind]
  refine Prog.Meets.bind (fun r g hr => ?_) (hP.meets hp)
  cases r with
  | ok a =>
    obtain rfl : g = ⟨d, none⟩ := hr.1
    exact hf a (hr.2 a rfl)
  | error e => exact hr.1

theorem obeys_checkRemaining (n : ℕ) : Obeys D d (checkRemaining n) := by
  refine obeys_bind obeys_remainingLen fun r => ?_
  cases r with
  | none => exact obeys_pure _
  | some m => exact obeys_ite (fun _ => obeys_err (by decide)) fun _ => obeys_pure _

/-- The logic of the obligations, in which the first decoder plays no part. -/
def Discipline.logic (D : Discipline) : DecoderLogic where
  toDiscipline := D
  Rel d _ _ q := Obeys D d q
  rel_pure := obeys_pure
  rel_throw := obeys_throw
  rel_halt := obeys_halt
  rel_bind_of_yields := obeys_bind_of_yields
  rel_read := obeys_read
  rel_readByte := obeys_readByte
  rel_chainErr := obeys_chainErr
  rel_nested := obeys_nested
  rel_nestedAlloc := obeys_nestedAlloc
  rel_claim _ hp := obeys_bind (obeys_onBeforeAllocMem _) fun _ =>
    obeys_bind (obeys_allocate _) fun _ => hp
  rel_checkRemaining _ hp := obeys_bind (obeys_checkRemaining _) fun _ => hp

end Obeys

end ScaleCodec
