import ScaleCodec.Productive
import ScaleCodec.Solvency

/-!
# Paying for memory with bytes

A decoder that `Spends` allocates at most `c` bytes of memory for each byte it reads, besides `a`
bytes up front, and saves `M` of what it is paid if it has read anything. The bytes up front add up
along the program text. What is allocated up front behind a byte is paid for by this byte
(`Spends.guard`), and what only reads allocates nothing (`spending`).

An item of a sequence, which has been read from some byte, pays for its place out of what it has
saved (`Earns`). So the vectors that `decode_vec_chunked` reserves are paid for by their items, but
for the last chunk (`earns_chunkLoop`), and this is paid for by the length in front of them
(`vecDecode_spends`).
-/

namespace ScaleCodec

variable {α β σ : Type}

/-! ## What a decoder allocates -/

/-- The memory `p` asks of the allocator when it is run on the input `h` in the state `x`. -/
def allocatedBy (h : Handler inputInterface Halt σ) (p : DecodeM α) (x : σ) : ℕ :=
  allocated (p.run.trace h x)

section AllocatedBy

variable {h : Handler inputInterface Halt σ} {x : σ}

/-- Either `p` returns a value and `f` goes on from it, or nothing more is allocated. -/
theorem allocatedBy_bind (h : Handler inputInterface Halt σ) (p : DecodeM α) (f : α → DecodeM β)
    (x : σ) :
    (∃ a y, p.run.run h x = .ok (.ok a, y) ∧
      (p >>= f).run.run h x = (f a).run.run h y ∧
      allocatedBy h (p >>= f) x = allocatedBy h p x + allocatedBy h (f a) y) ∨
    ((∀ b y, (p >>= f).run.run h x ≠ .ok (.ok b, y)) ∧
      allocatedBy h (p >>= f) x = allocatedBy h p x) := by
  rw [DecodeM.run_bind_run, allocatedBy, ExceptT.run_bind]
  cases hrun : p.run.run h x with
  | error e =>
    rw [Prog.trace_bind_error hrun]
    exact Or.inr ⟨(fun _ _ h => by cases h), rfl⟩
  | ok y =>
    rw [Prog.trace_bind hrun, allocated_append]
    obtain ⟨_ | a, y⟩ := y
    · exact Or.inr ⟨(fun _ _ h => by cases h), rfl⟩
    · exact Or.inl ⟨a, y, rfl, rfl, rfl⟩

/-- A call made alone. -/
theorem allocatedBy_call {c : InputCall} {k : inputInterface.Reply c → Except Error α} :
    allocatedBy h (.mk (.call c fun r => .ret (k r)) : DecodeM α) x = allocated [c] := by
  unfold allocatedBy
  rw [ExceptT.run_mk, Prog.trace]
  cases h c x with
  | error e => rfl
  | ok y => rfl

end AllocatedBy

/-! ## Paying with bytes -/

/-- For each byte it reads `p` allocates at most `c` bytes of memory, besides `a` bytes, and if it
reads any and returns a value it allocates `M` bytes less. -/
def Spends (h : Handler inputInterface Halt σ) (R : σ → List Byte → Prop) (c M a : ℕ)
    (p : DecodeM α) : Prop :=
  ∀ x s, R x s → allocatedBy h p x ≤ a + c * s.length ∧
    ∀ v x', p.run.run h x = .ok (.ok v, x') → ∃ s', R x' s' ∧ s'.length ≤ s.length ∧
      allocatedBy h p x + c * s'.length + (if s'.length < s.length then M else 0) ≤
        a + c * s.length

/-- `p` reads, and allocates nothing. -/
abbrev Free (h : Handler inputInterface Halt σ) (R : σ → List Byte → Prop) (p : DecodeM α) : Prop :=
  Spends h R 0 0 0 p

/-- For each byte it reads `p` allocates at most `c` bytes of memory, and `g` bytes less in all if
it returns a value. If it does not, there are `a` bytes besides. -/
def Earns (h : Handler inputInterface Halt σ) (R : σ → List Byte → Prop) (c g a : ℕ)
    (p : DecodeM α) : Prop :=
  ∀ x s, R x s → allocatedBy h p x ≤ a + c * s.length ∧
    ∀ v x', p.run.run h x = .ok (.ok v, x') → ∃ s', R x' s' ∧ s'.length ≤ s.length ∧
      allocatedBy h p x + c * s'.length + g ≤ c * s.length

section Rules

variable {h : Handler inputInterface Halt σ} {R : σ → List Byte → Prop} {c M a b g : ℕ}
  {p : DecodeM α} {f : α → DecodeM β}

theorem Spends.mono (hp : Spends h R c M a p) (hab : a ≤ b) : Spends h R c M b p := by
  intro x s hx
  obtain ⟨hall, hok⟩ := hp x s hx
  refine ⟨by omega, fun v x' hv => ?_⟩
  obtain ⟨s', hx', hle, hpay⟩ := hok v x' hv
  exact ⟨s', hx', hle, by omega⟩

/-- A decoder that allocates the same, and returns no other values. -/
theorem Spends.of_same {q : DecodeM α} (hp : Spends h R c M a p)
    (hsame : ∀ x, allocatedBy h q x = allocatedBy h p x)
    (hrun : ∀ {v x x'}, q.run.run h x = .ok (.ok v, x') → p.run.run h x = .ok (.ok v, x')) :
    Spends h R c M a q := by
  intro x s hx
  obtain ⟨hall, hok⟩ := hp x s hx
  rw [hsame]
  exact ⟨hall, fun v x' hv => hok v x' (hrun hv)⟩

theorem Spends.bind_of_yields {P : α → Prop} (hp : Spends h R c M a p) (hP : Yields P p)
    (hf : ∀ v, P v → Spends h R c M b (f v)) : Spends h R c M (a + b) (p >>= f) := by
  intro x s hx
  obtain ⟨hall, hok⟩ := hp x s hx
  rcases allocatedBy_bind h p f x with ⟨v, y, hv, hrun, hsum⟩ | ⟨hrun, hsum⟩
  · obtain ⟨t, hy, hle, hpay⟩ := hok v y hv
    obtain ⟨hall', hok'⟩ := hf v (hP.of_run hv) y t hy
    rw [hsum, hrun]
    refine ⟨by omega, fun w x' hw => ?_⟩
    obtain ⟨s', hx', hle', hpay'⟩ := hok' w x' hw
    refine ⟨s', hx', hle'.trans hle, ?_⟩
    split_ifs at hpay hpay' ⊢ <;> omega
  · exact ⟨by omega, fun w x' hw => absurd hw (hrun w x')⟩

theorem Spends.bind (hp : Spends h R c M a p) (hf : ∀ v, Spends h R c M b (f v)) :
    Spends h R c M (a + b) (p >>= f) :=
  hp.bind_of_yields yields_true fun v _ => hf v

theorem spends_pure (v : α) : Spends h R c M 0 (pure v : DecodeM α) := by
  refine fun x s hx => ⟨Nat.zero_le _, ?_⟩
  rintro _ _ ⟨⟩
  refine ⟨s, hx, le_rfl, ?_⟩
  rw [if_neg (lt_irrefl _), show allocatedBy h (pure v) x = 0 from rfl]
  exact le_rfl

theorem spends_throw (e : Error) : Spends h R c M 0 (throw e : DecodeM α) :=
  fun _ _ _ => ⟨Nat.zero_le _, fun _ _ h => by cases h⟩

theorem spends_halt (e : Halt) : Spends h R c M 0 (ExceptT.mk (.halt e) : DecodeM α) :=
  fun _ _ _ => ⟨Nat.zero_le _, fun _ _ h => by cases h⟩

theorem Spends.map {k : α → β} (hp : Spends h R c M a p) : Spends h R c M a (k <$> p) := by
  rw [map_eq_pure_bind]
  exact hp.bind fun v => spends_pure (k v)

theorem Spends.chainErr {desc : String} (hp : Spends h R c M a p) :
    Spends h R c M a (p.chainErr desc) := by
  refine hp.of_same (fun x => ?_) fun {v x x'} hv => ?_
  · unfold allocatedBy DecodeM.chainErr
    rw [ExceptT.run_mk, map_eq_pure_bind]
    cases hrun : p.run.run h x with
    | error e => rw [Prog.trace_bind_error hrun]
    | ok y =>
      rw [Prog.trace_bind hrun]
      exact congrArg allocated (List.append_nil _)
  · unfold DecodeM.chainErr at hv
    rw [ExceptT.run_mk, map_eq_pure_bind, Prog.run_bind] at hv
    generalize p.run.run h x = y at hv
    obtain _ | ⟨_ | w, z⟩ := y
    · cases hv
    · cases hv
    · cases hv
      rfl

/-- A call that leaves the input as it is. -/
theorem spends_call {i : InputCall} {k : inputInterface.Reply i → Except Error α}
    (hcall : ∀ x s, R x s → ∃ r x', h i x = .ok (r, x') ∧ R x' s) :
    Spends h R c M (allocated [i]) (.mk (.call i fun r => .ret (k r))) := by
  intro x s hx
  rw [allocatedBy_call]
  refine ⟨Nat.le_add_right _ _, fun v x' hv => ?_⟩
  obtain ⟨r, y, hc, hy⟩ := hcall x s hx
  rw [ExceptT.run_mk, Prog.run_call hc] at hv
  obtain rfl : y = x' := congrArg Prod.snd (Except.ok.inj hv)
  refine ⟨s, hy, le_rfl, ?_⟩
  rw [if_neg (lt_irrefl _)]
  exact le_rfl

/-- Where the run on the input returns a value, so does the run on the slice. -/
theorem Simulates.decodes {q : DecodeM α} (hpq : Simulates h R p q) {x x' : σ} {s : List Byte}
    {v : α} (hx : R x s) (hv : p.run.run h x = .ok (.ok v, x')) :
    ∃ s', Decodes q s v s' ∧ R x' s' := by
  have hsame := hpq x s hx
  rw [hv] at hsame
  unfold Decodes
  generalize runSlice q s = z at hsame
  cases hsame with
  | ok hR => exact ⟨_, rfl, hR⟩

theorem mul_length_add_le (hM : M ≤ c) {s s' : List Byte} (hle : s'.length ≤ s.length) :
    c * s'.length + (if s'.length < s.length then M else 0) ≤ c * s.length := by
  split_ifs with hlt
  · calc c * s'.length + M ≤ c * (s'.length + 1) := Nat.add_le_add_left hM _
      _ ≤ c * s.length := Nat.mul_le_mul_left c hlt
  · exact Nat.mul_le_mul_left c hle

/-- What only reads is paid for each byte. -/
theorem spends_of_simulates (hM : M ≤ c) (hp : Simulates h R p p)
    (hnone : ∀ x, allocatedBy h p x = 0)
    (hle : ∀ s v s', Decodes p s v s' → s'.length ≤ s.length) : Spends h R c M 0 p := by
  intro x s hx
  rw [hnone]
  refine ⟨Nat.zero_le _, fun v x' hv => ?_⟩
  obtain ⟨s', hs', hx'⟩ := hp.decodes hx hv
  refine ⟨s', hx', hle s v s' hs', ?_⟩
  rw [Nat.zero_add, Nat.zero_add]
  exact mul_length_add_le hM (hle s v s' hs')

theorem Spends.thenAscend (hh : ReadsBytes h R) (hp : Spends h R c M a p) :
    Spends h R c M a p.thenAscend := by
  refine hp.of_same (fun x => ?_) fun {v x x'} hv => ?_
  · unfold allocatedBy DecodeM.thenAscend
    rw [ExceptT.run_mk]
    cases hrun : p.run.run h x with
    | error e => rw [Prog.trace_bind_error hrun]
    | ok y =>
      rw [Prog.trace_bind hrun, allocated_append, Prog.trace_call (hh.ascendRef _)]
      exact Nat.add_zero _
  · unfold DecodeM.thenAscend at hv
    rw [ExceptT.run_mk, Prog.run_bind] at hv
    generalize p.run.run h x = y at hv
    obtain _ | ⟨r, z⟩ := y
    · cases hv
    · have hv' := (Prog.run_call (hh.ascendRef z) _).symm.trans hv
      cases hv'
      rfl

theorem spends_descendRef (hh : ReadsBytes h R) : Spends h R c M 0 DecodeM.descendRef :=
  spends_call fun x _ hx => ⟨_, x, hh.descendRef x, hx⟩

theorem spends_ascendRef (hh : ReadsBytes h R) : Spends h R c M 0 DecodeM.ascendRef :=
  spends_call fun x _ hx => ⟨_, x, hh.ascendRef x, hx⟩

theorem spends_onBeforeAllocMem (hh : ReadsBytes h R) (size : ℕ) :
    Spends h R c M 0 (DecodeM.onBeforeAllocMem size) :=
  spends_call fun x _ hx => ⟨_, x, hh.onBeforeAllocMem size x, hx⟩

theorem spends_allocate (hh : ReadsBytes h R) (size : ℕ) :
    Spends h R c M size (DecodeM.allocate size) :=
  spends_call (i := .allocate size) fun x _ hx => ⟨_, x, hh.allocate size x, hx⟩

theorem Spends.nested (hh : ReadsBytes h R) (hp : Spends h R c M a p) :
    Spends h R c M a p.nested := by
  have hsum := (spends_descendRef hh).bind fun _ => hp.bind fun v =>
    (spends_ascendRef hh).bind fun _ => spends_pure v
  rwa [Nat.zero_add] at hsum

theorem Spends.nestedAlloc (hh : ReadsBytes h R) {size : ℕ} (hp : Spends h R c M a p) :
    Spends h R c M a (p.nestedAlloc size) := by
  have hsum := (spends_descendRef hh).bind fun _ => (spends_onBeforeAllocMem hh size).bind fun _ =>
    hp.thenAscend hh
  rwa [Nat.zero_add, Nat.zero_add] at hsum

theorem spends_checkRemaining (hh : ReadsBytes h R) (n : ℕ) :
    Spends h R c M 0 (checkRemaining n) := by
  have hlen : Spends h R c M 0 DecodeM.remainingLen := spends_call fun x s hx => by
    obtain ⟨o, x', hc, -, hx'⟩ := hh.remainingLen hx
    exact ⟨_, x', hc, hx'⟩
  refine hlen.bind (b := 0) fun o => ?_
  cases o with
  | none => exact spends_pure ()
  | some m =>
    show Spends h R c M 0 (if m < n then _ else _)
    split_ifs
    · exact spends_throw _
    · exact spends_pure ()

theorem Spends.replicateM (hp : Spends h R c M a p) (n : ℕ) :
    Spends h R c M (n * a) (p.replicateM n) := by
  induction n with
  | zero => exact (spends_pure _).mono (Nat.zero_le _)
  | succ n ih =>
    refine (hp.bind fun _ => ih.bind fun _ => spends_pure _).mono ?_
    rw [Nat.succ_mul]
    omega

theorem Spends.vectorM (hp : Spends h R c M a p) (n : ℕ) :
    Spends h R c M (n * a) (p.vectorM n) := by
  induction n with
  | zero => exact (spends_pure _).mono (Nat.zero_le _)
  | succ n ih =>
    refine (hp.bind fun _ => ih.bind fun _ => spends_pure _).mono ?_
    rw [Nat.succ_mul]
    omega

/-- The logic of reading without allocating. -/
def spending (hh : ReadsBytes h R) (hM : M ≤ c) : ReadLogic where
  toDiscipline := .anyDepth fun _ => True
  Rel _ _ _ q := Spends h R c M 0 q
  rel_pure := spends_pure
  rel_throw _ := spends_throw _
  rel_halt _ := spends_halt _
  rel_bind_of_yields hp := hp.bind_of_yields
  rel_read n := spends_of_simulates hM (hh.simulates_read n) (fun _ => allocatedBy_call)
    fun s v s' hs' => by
      rw [decodes_read.mp hs', List.length_append]
      exact Nat.le_add_left _ _
  rel_readByte := spends_of_simulates hM hh.simulates_readByte (fun _ => allocatedBy_call)
    fun s v s' hs' => (consumes_readByte s v s' hs').le
  rel_chainErr hp := hp.chainErr

/-! ## Bytes read first -/

/-- Where `p` returns a value on the input it has read a byte. -/
def Reads (h : Handler inputInterface Halt σ) (R : σ → List Byte → Prop) (p : DecodeM α) : Prop :=
  ∀ x s v x' s', R x s → p.run.run h x = .ok (.ok v, x') → R x' s' → s'.length < s.length

/-- The number of bytes an input has left is a matter of its state. -/
theorem ReadsBytes.length_le (hh : ReadsBytes h R) {x : σ} {s s' : List Byte} (hs : R x s)
    (hs' : R x s') : s'.length ≤ s.length := by
  by_contra hlt
  have hread : sliceRead s'.length s' = (.ok ⟨s', rfl⟩, []) :=
    sliceRead_eq_ok.mpr (List.append_nil s').symm
  have hfail := sliceRead_eq_error.mpr ⟨not_le.mp hlt, rfl, rfl⟩
  have hs₁ := hh.read s'.length hs
  have hs₂ := hh.read s'.length hs'
  rw [hread] at hs₂
  rw [hfail] at hs₁
  generalize h (.read s'.length) x = y at hs₁ hs₂
  cases hs₁
  cases hs₂

theorem Consumes.reads (hh : ReadsBytes h R) (hsim : Simulates h R p p) (hp : Consumes p) :
    Reads h R p := by
  intro x s v x' s' hx hv hx'
  obtain ⟨t, ht, hx''⟩ := hsim.decodes hx hv
  exact (hh.length_le hx'' hx').trans_lt (hp s v t ht)

/-- A byte read first pays for what `f` allocates up front. -/
theorem Spends.guard (hp : Free h R p) (hreads : Reads h R p)
    (hf : ∀ v, Spends h R c 0 a (f v)) (hc : a + M ≤ c) : Spends h R c M 0 (p >>= f) := by
  intro x s hx
  obtain ⟨hall, hok⟩ := hp x s hx
  rcases allocatedBy_bind h p f x with ⟨v, y, hv, hrun, hsum⟩ | ⟨hrun, hsum⟩
  · obtain ⟨t, hy, -, -⟩ := hok v y hv
    obtain ⟨hall', hok'⟩ := hf v y t hy
    have hpaid : c * t.length + c ≤ c * s.length :=
      Nat.mul_le_mul_left c (hreads x s v y t hx hv hy)
    rw [hsum, hrun]
    refine ⟨by omega, fun w x' hw => ?_⟩
    obtain ⟨s', hx', hle', hpay'⟩ := hok' w x' hw
    refine ⟨s', hx', hle'.trans (hreads x s v y t hx hv hy).le, ?_⟩
    rw [if_pos (hle'.trans_lt (hreads x s v y t hx hv hy))]
    rw [ite_self] at hpay'
    omega
  · exact ⟨by omega, fun w x' hw => absurd hw (hrun w x')⟩

/-! ## Items -/

/-- An item that is read from some byte pays for its place in a vector. -/
theorem Spends.earns (hp : Spends h R c M a p) (hreads : Reads h R p) (hg : a + g ≤ M) :
    Earns h R c g a p := by
  intro x s hx
  obtain ⟨hall, hok⟩ := hp x s hx
  refine ⟨hall, fun v x' hv => ?_⟩
  obtain ⟨s', hx', hle, hpay⟩ := hok v x' hv
  rw [if_pos (hreads x s v x' s' hx hv hx')] at hpay
  exact ⟨s', hx', hle, by omega⟩

theorem Free.earns (hp : Free h R p) : Earns h R c 0 a p := by
  intro x s hx
  obtain ⟨hall, hok⟩ := hp x s hx
  refine ⟨by omega, fun v x' hv => ?_⟩
  obtain ⟨s', hx', hle, -⟩ := hok v x' hv
  have hmul := Nat.mul_le_mul_left c hle
  exact ⟨s', hx', hle, by omega⟩

theorem Earns.spends (hp : Earns h R c g a p) : Spends h R c 0 a p := by
  intro x s hx
  obtain ⟨hall, hok⟩ := hp x s hx
  refine ⟨hall, fun v x' hv => ?_⟩
  obtain ⟨s', hx', hle, hpay⟩ := hok v x' hv
  refine ⟨s', hx', hle, ?_⟩
  rw [ite_self]
  omega

theorem Earns.bind (hp : Earns h R c g a p) {g' : ℕ} (hf : ∀ v, Earns h R c g' a (f v)) :
    Earns h R c (g + g') a (p >>= f) := by
  intro x s hx
  obtain ⟨hall, hok⟩ := hp x s hx
  rcases allocatedBy_bind h p f x with ⟨v, y, hv, hrun, hsum⟩ | ⟨hrun, hsum⟩
  · obtain ⟨t, hy, hle, hpay⟩ := hok v y hv
    obtain ⟨hall', hok'⟩ := hf v y t hy
    rw [hsum, hrun]
    refine ⟨by omega, fun w x' hw => ?_⟩
    obtain ⟨s', hx', hle', hpay'⟩ := hok' w x' hw
    exact ⟨s', hx', hle'.trans hle, by omega⟩
  · exact ⟨by omega, fun w x' hw => absurd hw (hrun w x')⟩

theorem Earns.bind_free (hp : Earns h R c g a p) (hf : ∀ v, Free h R (f v)) :
    Earns h R c g a (p >>= f) :=
  hp.bind fun v => Free.earns (hf v)

theorem Earns.replicateM (hp : Earns h R c g a p) (n : ℕ) :
    Earns h R c (n * g) a (p.replicateM n) := by
  induction n with
  | zero =>
    rw [Nat.zero_mul]
    exact Free.earns (spends_pure _)
  | succ n ih =>
    have hsum : Earns h R c (g + n * g) a (p.replicateM (n + 1)) :=
      hp.bind fun _ => ih.bind_free fun _ => spends_pure _
    rwa [Nat.add_comm, ← Nat.succ_mul] at hsum

/-- What is read from `g` bytes of input pays for `g` bytes of memory. -/
theorem Free.earns_of_length (hp : Free h R p) (hsim : Simulates h R p p) (hc : 0 < c)
    (hlen : ∀ s v s', Decodes p s v s' → s.length = g + s'.length) : Earns h R c g a p := by
  intro x s hx
  obtain ⟨hall, -⟩ := hp x s hx
  refine ⟨by omega, fun v x' hv => ?_⟩
  obtain ⟨s', hs', hx'⟩ := hsim.decodes hx hv
  have hmul : g ≤ c * g := Nat.le_mul_of_pos_left g hc
  rw [hlen s v s' hs', Nat.mul_add]
  exact ⟨s', hx', by omega, by omega⟩

theorem earns_map_read (hh : ReadsBytes h R) (hc : 0 < c) (n : ℕ) {k : List.Vector Byte n → β} :
    Earns h R c n a (k <$> DecodeM.read n) := by
  refine Free.earns_of_length (Spends.map ((spending hh le_rfl).rel_read (d := 0) n))
    (hh.logic.rel_map (d := 0) (hh.simulates_read n)) hc fun s v s' hs' => ?_
  obtain ⟨buf, hbuf, -⟩ := decodes_map.mp hs'
  rw [decodes_read.mp hbuf, List.length_append, buf.toList_length]

/-- The items of a chunk pay for the chunk. -/
theorem Earns.allocate (hh : ReadsBytes h R) {p : DecodeM α} (hp : Earns h R c g a p) :
    Earns h R c 0 (g + a) (DecodeM.allocate g >>= fun _ => p) := by
  intro x s hx
  have hsum : allocatedBy h (DecodeM.allocate g >>= fun _ => p) x = g + allocatedBy h p x := by
    have hcalls : (DecodeM.allocate g >>= fun _ => p).run.trace h x =
        .allocate g :: p.run.trace h x := Prog.trace_call (hh.allocate g x) _
    rw [allocatedBy, hcalls]
    rfl
  have hrun : (DecodeM.allocate g >>= fun _ => p).run.run h x = p.run.run h x :=
    Prog.run_call (hh.allocate g x) _
  obtain ⟨hall, hok⟩ := hp x s hx
  rw [hsum, hrun]
  refine ⟨by omega, fun w x' hw => ?_⟩
  obtain ⟨s', hx', hle, hpay⟩ := hok w x' hw
  exact ⟨s', hx', hle, by omega⟩

theorem Earns.mono (hp : Earns h R c g a p) (hab : a ≤ b) : Earns h R c g b p := by
  intro x s hx
  obtain ⟨hall, hok⟩ := hp x s hx
  exact ⟨by omega, hok⟩

/-- The loop of `decode_vec_chunked`. At any time only the last chunk is not paid for. -/
theorem earns_chunkLoop (hh : ReadsBytes h R) {tgt : Target} {size chunkLen : ℕ}
    {decodeChunk : ℕ → DecodeM (List α)} (hmem : chunkLen * size ≤ maxPreallocation)
    (hchunk : ∀ n, Earns h R c (n * size) a (decodeChunk n)) (fuel n : ℕ) :
    Earns h R c 0 (maxPreallocation + a) (chunkLoop tgt size chunkLen decodeChunk fuel n) := by
  induction fuel generalizing n with
  | zero =>
    cases n with
    | zero => exact Free.earns (spends_pure _)
    | succ n => exact Free.earns (spends_halt _)
  | succ fuel ih =>
    cases n with
    | zero => exact Free.earns (spends_pure _)
    | succ n =>
      have hle : min chunkLen (n + 1) * size + a ≤ maxPreallocation + a :=
        Nat.add_le_add_right ((Nat.mul_le_mul_right size (min_le_left _ _)).trans hmem) a
      have hstep : Earns h R c 0 (maxPreallocation + a)
          (DecodeM.allocate (min chunkLen (n + 1) * size) >>= fun _ =>
            decodeChunk (min chunkLen (n + 1))) :=
        ((hchunk _).allocate hh).mono hle
      have hloop := hstep.bind fun items =>
        (ih (n + 1 - min chunkLen (n + 1))).bind_free fun rest => spends_pure (items ++ rest)
      simp only [bind_assoc] at hloop
      exact (Free.earns (spends_onBeforeAllocMem hh _)).bind fun _ => hloop

theorem Earns.nested (hh : ReadsBytes h R) (hp : Earns h R c 0 a p) : Earns h R c 0 a p.nested :=
  (Free.earns (spends_descendRef hh)).bind fun _ => hp.bind_free fun v =>
    (spends_ascendRef hh).bind fun _ => spends_pure v

theorem earns_decodeVecChunked (hh : ReadsBytes h R) {tgt : Target} {size : ℕ}
    {decodeChunk : ℕ → DecodeM (List α)}
    (hchunk : ∀ n, Earns h R c (n * size) a (decodeChunk n)) (len : ℕ) :
    Earns h R c 0 (maxPreallocation + a) (decodeVecChunked tgt size decodeChunk len) :=
  earns_chunkLoop hh (chunkLen_mul_le_maxPreallocation tgt size) hchunk len len

theorem earns_decodeVecWithLen (hh : ReadsBytes h R) (hc : 0 < c) {tgt : Target} {I : Decode α}
    (hI : Earns h R c I.size a I.decode) (len : ℕ) :
    Earns h R c 0 (maxPreallocation + a) (decodeVecWithLen tgt I len) := by
  have hitems : Earns h R c 0 (maxPreallocation + a) (decodeVecFromItems tgt I len) :=
    (earns_decodeVecChunked hh hI.replicateM len).nested hh
  unfold decodeVecWithLen
  cases I.typeInfo with
  | unknown => exact hitems
  | known p e =>
    dsimp only
    split_ifs with hbulk
    · unfold readVecFromU8s
      split_ifs
      · exact Free.earns (spends_throw _)
      · exact (Free.earns (spends_checkRemaining hh _)).bind fun _ =>
          earns_decodeVecChunked hh (fun n => earns_map_read hh hc (n * p.size)) len
    · exact hitems

theorem free_compactDecode (hh : ReadsBytes h R) {tgt : Target} (w : Width) :
    Free h R (compactDecode tgt w) :=
  compactDecode_rel (L := spending hh le_rfl) (d := 0) w

theorem reads_compactDecode (hh : ReadsBytes h R) {tgt : Target} (w : Width) :
    Reads h R (compactDecode tgt w) :=
  (consumes_compactDecode w).reads hh (compactDecode_rel (L := hh.logic) (d := 0) w)

end Rules

/-! ## The `impl`s -/

/-- Both ways to decode spend at most `a` bytes up front. -/
structure Decode.Spends (h : Handler inputInterface Halt σ) (R : σ → List Byte → Prop)
    (c M a : ℕ) (I : Decode α) : Prop where
  decode : ScaleCodec.Spends h R c M a I.decode
  decodeInto : ScaleCodec.Spends h R c M a I.decodeInto

section Impls

variable {h : Handler inputInterface Halt σ} {R : σ → List Byte → Prop} {c M a b size : ℕ}
  {I : Decode α} {J : Decode β}

theorem Decode.spends_ofDecode {p : DecodeM α} (hp : ScaleCodec.Spends h R c M a p) :
    (Decode.ofDecode size p).Spends h R c M a :=
  ⟨hp, hp⟩

theorem Decode.Spends.mono (hI : I.Spends h R c M a) (hab : a ≤ b) : I.Spends h R c M b :=
  ⟨hI.decode.mono hab, hI.decodeInto.mono hab⟩

theorem Decode.Rel.spends {hh : ReadsBytes h R} {hM : M ≤ c} {d : ℕ}
    (hI : I.Rel (spending hh hM) d I) : I.Spends h R c M 0 :=
  ⟨hI.decode, hI.decodeInto⟩

/-- The byte of a variant pays for what the variant allocates up front. -/
theorem spends_variant (hh : ReadsBytes h R) {desc : String} {f : Byte → DecodeM β}
    (hf : ∀ v, Spends h R c 0 a (f v)) (hc : a + M ≤ c) :
    Spends h R c M 0 (DecodeM.readByte.chainErr desc >>= f) := by
  have hsim : Simulates h R (DecodeM.readByte.chainErr desc) (DecodeM.readByte.chainErr desc) :=
    hh.logic.rel_chainErr (d := 0) hh.simulates_readByte
  exact Spends.guard ((spending hh le_rfl).rel_readByte (d := 0)).chainErr
    (consumes_readByte.chainErr.reads hh hsim) hf hc

theorem Spends.forget {p : DecodeM α} (hp : Spends h R c M a p) :
    Spends h R c 0 a p := by
  intro x s hx
  obtain ⟨hall, hok⟩ := hp x s hx
  refine ⟨hall, fun v x' hv => ?_⟩
  obtain ⟨s', hx', hle, hpay⟩ := hok v x' hv
  refine ⟨s', hx', hle, ?_⟩
  rw [ite_self]
  omega

theorem optionDecode_spends (hh : ReadsBytes h R) (hI : Spends h R c 0 a I.decode)
    (hc : a + M ≤ c) : (optionDecode size I).Spends h R c M 0 := by
  refine Decode.spends_ofDecode (spends_variant hh (fun v => ?_) hc)
  split_ifs
  · exact (spends_pure _).mono (Nat.zero_le _)
  · exact hI.chainErr.map
  · exact (spends_throw _).mono (Nat.zero_le _)

theorem resultDecode_spends (hh : ReadsBytes h R) (hI : Spends h R c 0 a I.decode)
    (hJ : Spends h R c 0 b J.decode) (hc : a + b + M ≤ c) :
    (resultDecode size I J).Spends h R c M 0 := by
  refine Decode.spends_ofDecode (spends_variant hh (fun v => ?_) hc)
  split_ifs
  · exact hI.chainErr.map.mono (Nat.le_add_right _ _)
  · exact hJ.chainErr.map.mono (Nat.le_add_left _ _)
  · exact (spends_throw _).mono (Nat.zero_le _)

theorem pairDecode_spends (hI : Spends h R c M a I.decode) (hJ : Spends h R c M b J.decode) :
    (pairDecode size I J).Spends h R c M (a + b) :=
  Decode.spends_ofDecode (hI.bind fun _ => hJ.bind fun _ => spends_pure _)

theorem arrayDecode_spends (hh : ReadsBytes h R) (hM : M ≤ c) {tgt : Target} {n : ℕ}
    (hI : Spends h R c M a I.decodeInto) : (arrayDecode tgt n size I).Spends h R c M (n * a) := by
  have hinto : Spends h R c M (n * a) (arrayDecodeInto tgt n I) := by
    unfold arrayDecodeInto
    cases I.typeInfo with
    | unknown => exact hI.vectorM n
    | known p e =>
      dsimp only
      split_ifs
      · exact (Spends.map ((spending hh hM).rel_read (d := 0) _)).mono (Nat.zero_le _)
      · exact hI.vectorM n
  exact ⟨hinto, hinto⟩

theorem genericArrayDecode_spends {n : ℕ} (hI : Spends h R c M a I.decode) :
    (genericArrayDecode n size I).Spends h R c M (n * a) := by
  refine Decode.spends_ofDecode ((hI.replicateM n).bind (b := 0) fun r => ?_)
  split_ifs
  · exact spends_pure _
  · exact spends_throw _

theorem boxDecode_spends (hh : ReadsBytes h R) (hI : Spends h R c M a I.decodeInto) :
    (boxDecode size I).Spends h R c M (I.size + a) := by
  have hsum := (spends_onBeforeAllocMem hh I.size).bind fun _ =>
    (spends_allocate (c := c) (M := M) hh I.size).bind fun _ => hI
  rw [Nat.zero_add] at hsum
  exact Decode.spends_ofDecode (hsum.nested hh)

theorem vecDecode_spends (hh : ReadsBytes h R) {tgt : Target} (hpos : 0 < c)
    (hI : Earns h R c I.size a I.decode) (hc : maxPreallocation + a + M ≤ c) :
    (vecDecode tgt size I).Spends h R c M 0 :=
  Decode.spends_ofDecode (Spends.guard (free_compactDecode hh .u32) (reads_compactDecode hh .u32)
    (fun _ => (earns_decodeVecWithLen hh hpos hI _).spends) hc)

theorem nodesDecode_spends (hh : ReadsBytes h R) {tgt : Target} {γ : Type} {memSize : ℕ → ℕ}
    {build : List α → γ} {p : DecodeM α} (hp : Earns h R c 0 a p) (hc : a + M ≤ c) :
    Spends h R c M 0 (nodesDecode tgt memSize p build) :=
  Spends.guard (free_compactDecode hh .u32) (reads_compactDecode hh .u32)
    (fun _ => ((hp.replicateM _).spends.map).nestedAlloc hh) hc

theorem primDecode_earns (hh : ReadsBytes h R) (hc : 0 < c) (p : Prim) :
    Earns h R c (primDecode p).size a (primDecode p).decode := by
  refine Free.earns_of_length (primDecode_rel (L := spending hh le_rfl) (d := 0) p).decode
    (primDecode_rel (L := hh.logic) (d := 0) p).decode hc fun s v s' hs' => ?_
  rw [decodes_primDecode.mp hs', List.length_append, length_toLeBytes]
  rfl

/-- The default `scale_internal_decode_bytes`, and the bytes of a string. -/
theorem decodeBytes_spends (hh : ReadsBytes h R) {tgt : Target} (hpos : 0 < c)
    (hc : maxPreallocation + M ≤ c) :
    Spends h R c M 0 (vecDecode tgt size (primDecode .u8)).decode :=
  (vecDecode_spends (a := 0) hh hpos (primDecode_earns hh hpos .u8) hc).decode

theorem bitVecDecode_spends (hh : ReadsBytes h R) {tgt : Target} (hpos : 0 < c)
    (hc : maxPreallocation + M ≤ c) (st : BitStore) (o : BitOrder) :
    (bitVecDecode tgt size st o).Spends h R c M 0 := by
  refine Decode.spends_ofDecode (Spends.guard (free_compactDecode hh .u32)
    (reads_compactDecode hh .u32) (fun len => ?_) hc)
  dsimp only
  split_ifs
  · exact (spends_throw _).mono (Nat.zero_le _)
  · have hvec : Earns h R c 0 (maxPreallocation + 0)
        (decodeVecWithLen tgt (primDecode st.prim) (elts st len.toNat)) :=
      earns_decodeVecWithLen hh hpos (primDecode_earns hh hpos st.prim) _
    refine (hvec.bind_free fun vec => ?_).spends
    split_ifs
    · exact spends_throw _
    · exact spends_pure _
    · exact spends_halt _

end Impls

end ScaleCodec
