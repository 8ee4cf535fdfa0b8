import Mathlib.Data.Vector.Basic
import ScaleCodec.Interaction
import ScaleCodec.LittleEndian

/-!
# The `Input` trait and byte slices

`fn decode<I: Input>(input: &mut I)` is generic in its input, so it is a program over the
methods of `Input` (`DecodeM`). Each method replies with a `Result` that the program sees;
`?` is the bind of `ExceptT`. The memory a decoder asks of the allocator is a call too, which
every input passes on. A program halts when the Rust code panics, or when a recursive decoder
runs out of the fuel it is unfolded with.

`sliceInput` is `impl Input for &[u8]`. `Decodes p s a s'` says that `p`, run on the slice
`s`, returns `Ok(a)` and leaves `s'` unread; `decodes_bind` and its companions read it off
the program text, in both directions.
-/

namespace ScaleCodec

/-! ## Errors -/

/-- `struct Error`, with the `chain-error` feature : a description, and for a chained error
its cause. -/
inductive Error where
  | desc (d : String)
  | chain (cause : Error) (d : String)
deriving DecidableEq, Repr

/-- The description the chain starts from. -/
def Error.root : Error → String
  | desc d => d
  | chain e _ => e.root

/-- Why a call does not return : the Rust code panics, or the model runs out of fuel. -/
inductive Halt where
  | panic (msg : String)
  | outOfFuel
deriving DecidableEq, Repr

/-! ## The methods of `Input` -/

/-- A call of a method of `trait Input`, with its arguments, or of the allocator. `read` takes
the length of the buffer to fill. `scale_internal_decode_bytes` is called on the inputs that
override it; for the others the decoders hold its default body. -/
inductive InputCall where
  | remainingLen
  | read (n : ℕ)
  | readByte
  | descendRef
  | ascendRef
  | onBeforeAllocMem (size : ℕ)
  | scaleInternalDecodeBytes
  | allocate (size : ℕ)
deriving DecidableEq, Repr

/-- What the method returns. A successful `read` returns the filled buffer. -/
abbrev InputCall.Reply : InputCall → Type
  | remainingLen => Except Error (Option ℕ)
  | read n => Except Error (List.Vector Byte n)
  | readByte => Except Error Byte
  | descendRef => Except Error Unit
  | ascendRef => Unit
  | onBeforeAllocMem _ => Except Error Unit
  | scaleInternalDecodeBytes => Except Error (List Byte)
  | allocate _ => Unit

/-- `trait Input`. -/
abbrev inputInterface : Interface :=
  ⟨InputCall, InputCall.Reply⟩

/-- A function `fn f<I: Input>(input: &mut I) -> Result<α, Error>`. -/
abbrev DecodeM : Type → Type :=
  ExceptT Error (Prog inputInterface Halt)

namespace DecodeM

variable {α β : Type}

/-- `input.remaining_len()?`. -/
def remainingLen : DecodeM (Option ℕ) :=
  .mk (.call .remainingLen .ret)

/-- `input.read(&mut buf)?` on a buffer of `n` bytes. -/
def read (n : ℕ) : DecodeM (List.Vector Byte n) :=
  .mk (.call (.read n) .ret)

/-- `input.read_byte()?`. -/
def readByte : DecodeM Byte :=
  .mk (.call .readByte .ret)

/-- `input.descend_ref()?`. -/
def descendRef : DecodeM Unit :=
  .mk (.call .descendRef .ret)

/-- `input.ascend_ref()`. -/
def ascendRef : DecodeM Unit :=
  .mk (.call .ascendRef fun _ => .ret (.ok ()))

/-- `input.on_before_alloc_mem(size)?`. -/
def onBeforeAllocMem (size : ℕ) : DecodeM Unit :=
  .mk (.call (.onBeforeAllocMem size) .ret)

/-- `input.scale_internal_decode_bytes()?`. -/
def scaleInternalDecodeBytes : DecodeM (List Byte) :=
  .mk (.call .scaleInternalDecodeBytes .ret)

/-- `size` bytes of memory asked of the allocator. -/
def allocate (size : ℕ) : DecodeM Unit :=
  .mk (.call (.allocate size) fun _ => .ret (.ok ()))

/-- `Err(desc.into())`. -/
def err (desc : String) : DecodeM α :=
  throw (.desc desc)

/-- A panic. -/
def panic (msg : String) : DecodeM α :=
  .mk (.halt (.panic msg))

/-- The fuel has run out. -/
def outOfFuel : DecodeM α :=
  .mk (.halt .outOfFuel)

/-- `p.map_err(|e| e.chain(desc))`. -/
def chainErr (desc : String) (p : DecodeM α) : DecodeM α :=
  .mk (Except.mapError (·.chain desc) <$> p.run)

/-- `let result = p; input.ascend_ref(); result` : ascend whether `p` failed or not. -/
def thenAscend (p : DecodeM α) : DecodeM α :=
  .mk (p.run >>= fun r => .call .ascendRef fun _ => .ret r)

/-- `input.descend_ref()?; let a = p?; input.ascend_ref(); Ok(a)`. -/
def nested (p : DecodeM α) : DecodeM α := do
  descendRef
  let a ← p
  ascendRef
  pure a

/-- `input.descend_ref()?; input.on_before_alloc_mem(size)?; let result = p;
input.ascend_ref(); result`. -/
def nestedAlloc (size : ℕ) (p : DecodeM α) : DecodeM α := do
  descendRef
  onBeforeAllocMem size
  p.thenAscend

/-- `n` values decoded in order, the first failure returned. -/
def replicateM (p : DecodeM α) : ℕ → DecodeM (List α)
  | 0 => pure []
  | n + 1 => do
    let a ← p
    let as ← replicateM p n
    pure (a :: as)

/-- `n` values decoded in order into an array. -/
def vectorM (p : DecodeM α) : (n : ℕ) → DecodeM (List.Vector α n)
  | 0 => pure .nil
  | n + 1 => do
    let a ← p
    let as ← vectorM p n
    pure (a ::ᵥ as)

end DecodeM

/-- `if let Some(input_len) = input.remaining_len()? { if input_len < byte_len { return Err } }` -/
def checkRemaining (byteLen : ℕ) : DecodeM Unit := do
  match ← DecodeM.remainingLen with
  | some inputLen =>
    if inputLen < byteLen then DecodeM.err "Not enough data to decode vector" else pure ()
  | none => pure ()

/-! ## Byte slices -/

/-- `Input::read` of a slice. -/
def sliceRead (n : ℕ) (s : List Byte) : Except Error (List.Vector Byte n) × List Byte :=
  if h : n > s.length then (.error (.desc "Not enough data to fill buffer"), s)
  else (.ok ⟨s.take n, List.length_take_of_le (not_lt.mp h)⟩, s.drop n)

/-- `Input::read_byte`, which a slice does not override. -/
def sliceReadByte (s : List Byte) : Except Error Byte × List Byte :=
  match sliceRead 1 s with
  | (.ok buf, s') => (.ok buf.head, s')
  | (.error e, s') => (.error e, s')

/-- `scale_internal_decode_bytes` of an input that does not override it, which no decoder calls. -/
def notOverridden : Halt :=
  .panic "scale_internal_decode_bytes keeps its default body"

/-- `impl Input for &[u8]`. The hooks keep their default bodies, which do nothing. -/
def sliceInput : Handler inputInterface Halt (List Byte)
  | .remainingLen, s => .ok (.ok (some s.length), s)
  | .read n, s => .ok (sliceRead n s)
  | .readByte, s => .ok (sliceReadByte s)
  | .descendRef, s => .ok (.ok (), s)
  | .ascendRef, s => .ok ((), s)
  | .onBeforeAllocMem _, s => .ok (.ok (), s)
  | .scaleInternalDecodeBytes, _ => .error notOverridden
  | .allocate _, s => .ok ((), s)

theorem exists_sliceInput {c : InputCall} (hc : c ≠ .scaleInternalDecodeBytes) (s : List Byte) :
    ∃ (r : c.Reply) (s' : List Byte), sliceInput c s = .ok (r, s') := by
  cases c with
  | scaleInternalDecodeBytes => exact absurd rfl hc
  | _ => exact ⟨_, _, rfl⟩

/-- `p(&mut s)` on a slice : the result, and the unread bytes. -/
def runSlice {α : Type} (p : DecodeM α) (s : List Byte) :
    Except Halt (Except Error α × List Byte) :=
  p.run.run sliceInput s

@[simp] theorem sliceReadByte_nil :
    sliceReadByte [] = (.error (.desc "Not enough data to fill buffer"), []) :=
  rfl

@[simp] theorem sliceReadByte_cons (b : Byte) (s : List Byte) :
    sliceReadByte (b :: s) = (.ok b, s) := by
  simp [sliceReadByte, sliceRead, List.Vector.head]

theorem sliceRead_eq_ok {n : ℕ} {s s' : List Byte} {v : List.Vector Byte n} :
    sliceRead n s = (.ok v, s') ↔ s = v.toList ++ s' := by
  unfold sliceRead
  constructor
  · split_ifs with h
    · simp
    · intro heq
      cases heq
      exact (List.take_append_drop n s).symm
  · rintro rfl
    have hlen : v.toList.length = n := v.toList_length
    rw [dif_neg (by simp [hlen])]
    have hv : (v.toList ++ s').take n = v.toList := List.take_left' hlen
    have hs : (v.toList ++ s').drop n = s' := List.drop_left' hlen
    exact Prod.ext (congrArg Except.ok (Subtype.ext hv)) hs

/-- A slice that is too short is left as it is. -/
theorem sliceRead_eq_error {n : ℕ} {s s' : List Byte} {e : Error} :
    sliceRead n s = (.error e, s') ↔
      s.length < n ∧ e = .desc "Not enough data to fill buffer" ∧ s' = s := by
  unfold sliceRead
  constructor
  · split_ifs with h
    · intro heq
      cases heq
      exact ⟨h, rfl, rfl⟩
    · simp
  · rintro ⟨h, rfl, rfl⟩
    exact dif_pos h

/-- A call takes bytes from the front of the slice. -/
theorem suffix_of_sliceInput {c : InputCall} {r : c.Reply} {s s' : List Byte}
    (hc : sliceInput c s = .ok (r, s')) : s' <:+ s := by
  cases c with
  | read n =>
    have hread : sliceRead n s = (r, s') := Except.ok.inj hc
    cases r with
    | error e =>
      obtain ⟨-, -, rfl⟩ := sliceRead_eq_error.mp hread
      exact List.suffix_refl _
    | ok v => exact ⟨v.toList, (sliceRead_eq_ok.mp hread).symm⟩
  | readByte =>
    cases s with
    | nil =>
      cases hc
      exact List.suffix_refl _
    | cons b s =>
      rw [sliceInput, sliceReadByte_cons] at hc
      cases hc
      exact List.suffix_cons b _
  | scaleInternalDecodeBytes => cases hc
  | _ =>
    cases hc
    exact List.suffix_refl _

/-! ## Runs that succeed -/

/-- On the slice `s`, `p` returns `Ok(a)` and leaves `s'` unread. -/
def Decodes {α : Type} (p : DecodeM α) (s : List Byte) (a : α) (s' : List Byte) : Prop :=
  runSlice p s = .ok (.ok a, s')

section Decodes

variable {α β : Type} {s s' : List Byte} {a : α} {b : β} {p : DecodeM α}

theorem Decodes.unique {a₁ a₂ : α} {s₁ s₂ : List Byte} (h₁ : Decodes p s a₁ s₁)
    (h₂ : Decodes p s a₂ s₂) : a₁ = a₂ ∧ s₁ = s₂ := by
  rw [Decodes, h₁] at h₂
  simpa using h₂

@[simp] theorem decodes_pure {a' : α} : Decodes (pure a) s a' s' ↔ a' = a ∧ s' = s := by
  simp only [Decodes, runSlice, ExceptT.run_pure, Prog.pure_eq_ret, Prog.run_ret,
    Except.ok.injEq, Prod.mk.injEq]
  exact and_congr eq_comm eq_comm

/-- Against any input, `f` runs where `p` returned `Ok`. -/
theorem DecodeM.run_bind_run {σ : Type} (h : Handler inputInterface Halt σ) (p : DecodeM α)
    (f : α → DecodeM β) (x : σ) :
    (p >>= f).run.run h x = p.run.run h x >>= fun y =>
      match y with
      | (.ok a, x') => (f a).run.run h x'
      | (.error e, x') => .ok (.error e, x') := by
  rw [ExceptT.run_bind, Prog.run_bind]
  cases p.run.run h x with
  | error e => rfl
  | ok y => obtain ⟨_ | a, x'⟩ := y <;> rfl

theorem runSlice_bind (p : DecodeM α) (f : α → DecodeM β) (s : List Byte) :
    runSlice (p >>= f) s = runSlice p s >>= fun x =>
      match x with
      | (.ok a, s') => runSlice (f a) s'
      | (.error e, s') => .ok (.error e, s') := by
  rw [runSlice, runSlice, DecodeM.run_bind_run]
  congr 1
  funext x
  obtain ⟨_ | a, s'⟩ := x <;> rfl

theorem runSlice_bind_error {f : α → DecodeM β} {h : Halt} (hp : runSlice p s = .error h) :
    runSlice (p >>= f) s = .error h := by
  rw [runSlice_bind, hp]
  rfl

theorem runSlice_bind_congr {q : DecodeM α} {f g : α → DecodeM β}
    (hp : runSlice p s = runSlice q s)
    (hf : ∀ a s', Decodes q s a s' → runSlice (f a) s' = runSlice (g a) s') :
    runSlice (p >>= f) s = runSlice (q >>= g) s := by
  rw [runSlice_bind, runSlice_bind, hp]
  cases hq : runSlice q s with
  | error e => rfl
  | ok x =>
    obtain ⟨_ | a, s'⟩ := x
    · rfl
    · exact hf a s' hq

/-- `p` then `f` succeeds iff `p` does, and `f` on what `p` leaves. -/
theorem decodes_bind {f : α → DecodeM β} :
    Decodes (p >>= f) s b s' ↔ ∃ a t, Decodes p s a t ∧ Decodes (f a) t b s' := by
  unfold Decodes
  rw [runSlice_bind]
  constructor
  · cases h : runSlice p s with
    | error e => intro h'; cases h'
    | ok x =>
      obtain ⟨_ | a, t⟩ := x
      · intro h'; cases h'
      · exact fun h' => ⟨a, t, rfl, h'⟩
  · rintro ⟨a, t, h, h'⟩
    rw [h]
    exact h'

theorem decodes_map {f : α → β} :
    Decodes (f <$> p) s b s' ↔ ∃ a, Decodes p s a s' ∧ b = f a := by
  rw [map_eq_pure_bind, decodes_bind]
  simp only [decodes_pure]
  constructor
  · rintro ⟨a, t, h, rfl, rfl⟩
    exact ⟨a, h, rfl⟩
  · rintro ⟨a, h, rfl⟩
    exact ⟨a, s', h, rfl, rfl⟩

@[simp] theorem not_decodes_throw {e : Error} : ¬Decodes (throw e : DecodeM α) s a s' := by
  intro h
  cases h

@[simp] theorem not_decodes_err {d : String} : ¬Decodes (DecodeM.err d : DecodeM α) s a s' :=
  not_decodes_throw

@[simp] theorem not_decodes_panic {msg : String} :
    ¬Decodes (DecodeM.panic msg : DecodeM α) s a s' := by
  intro h
  cases h

/-- A value read, checked and converted. -/
theorem decodes_checked {Q : α → Prop} [DecidablePred Q] {f : α → β} {e : String} :
    Decodes (do let a ← p; if Q a then pure (f a) else DecodeM.err e) s b s' ↔
      ∃ a, Decodes p s a s' ∧ Q a ∧ b = f a := by
  rw [decodes_bind]
  constructor
  · rintro ⟨a, u, ha, h⟩
    split_ifs at h with hQ
    · obtain ⟨rfl, rfl⟩ := decodes_pure.mp h
      exact ⟨a, ha, hQ, rfl⟩
    · simp at h
  · rintro ⟨a, ha, hQ, rfl⟩
    exact ⟨a, s', ha, by simp [hQ]⟩

@[simp] theorem not_decodes_outOfFuel : ¬Decodes (DecodeM.outOfFuel : DecodeM α) s a s' := by
  intro h
  cases h

@[simp] theorem decodes_remainingLen {o : Option ℕ} :
    Decodes DecodeM.remainingLen s o s' ↔ o = some s.length ∧ s' = s := by
  constructor
  · intro h
    cases h
    exact ⟨rfl, rfl⟩
  · rintro ⟨rfl, rfl⟩
    rfl

@[simp] theorem decodes_read {n : ℕ} {v : List.Vector Byte n} :
    Decodes (DecodeM.read n) s v s' ↔ s = v.toList ++ s' := by
  rw [← sliceRead_eq_ok]
  exact Except.ok.injEq _ _ ▸ Iff.rfl

@[simp] theorem decodes_readByte {b : Byte} :
    Decodes DecodeM.readByte s b s' ↔ s = b :: s' := by
  cases s with
  | nil => exact ⟨fun h => (by cases h), fun h => (by cases h)⟩
  | cons c s =>
    have h : runSlice DecodeM.readByte (c :: s) = .ok (.ok c, s) := by
      show Except.ok (sliceReadByte (c :: s)) = _
      rw [sliceReadByte_cons]
    rw [Decodes, h]
    simp

@[simp] theorem decodes_descendRef {u : Unit} :
    Decodes DecodeM.descendRef s u s' ↔ s' = s :=
  ⟨fun h => (by cases h; rfl), fun h => (by subst h; rfl)⟩

@[simp] theorem decodes_ascendRef {u : Unit} :
    Decodes DecodeM.ascendRef s u s' ↔ s' = s :=
  ⟨fun h => (by cases h; rfl), fun h => (by subst h; rfl)⟩

@[simp] theorem decodes_onBeforeAllocMem {u : Unit} {n : ℕ} :
    Decodes (DecodeM.onBeforeAllocMem n) s u s' ↔ s' = s :=
  ⟨fun h => (by cases h; rfl), fun h => (by subst h; rfl)⟩

@[simp] theorem decodes_allocate {u : Unit} {n : ℕ} :
    Decodes (DecodeM.allocate n) s u s' ↔ s' = s :=
  ⟨fun h => (by cases h; rfl), fun h => (by subst h; rfl)⟩

@[simp] theorem decodes_chainErr {d : String} :
    Decodes (p.chainErr d) s a s' ↔ Decodes p s a s' := by
  unfold Decodes runSlice DecodeM.chainErr
  rw [ExceptT.run_mk, map_eq_pure_bind, Prog.run_bind]
  cases h : p.run.run sliceInput s with
  | error e => exact Iff.rfl
  | ok x =>
    obtain ⟨_ | a, t⟩ := x <;>
      simp [Bind.bind, Except.bind, Except.mapError, Prog.pure_eq_ret]

theorem runSlice_chainErr_error {d : String} {h : Halt} (hp : runSlice p s = .error h) :
    runSlice (p.chainErr d) s = .error h := by
  rw [runSlice] at hp
  rw [runSlice, DecodeM.chainErr, ExceptT.run_mk, map_eq_pure_bind, Prog.run_bind, hp]
  rfl

@[simp] theorem decodes_thenAscend : Decodes p.thenAscend s a s' ↔ Decodes p s a s' := by
  unfold Decodes runSlice DecodeM.thenAscend
  rw [ExceptT.run_mk, Prog.run_bind]
  cases h : p.run.run sliceInput s with
  | error e => exact Iff.rfl
  | ok x => exact Iff.rfl

@[simp] theorem decodes_nested : Decodes p.nested s a s' ↔ Decodes p s a s' := by
  simp only [DecodeM.nested, decodes_bind, decodes_descendRef, decodes_ascendRef, decodes_pure]
  constructor
  · rintro ⟨_, t, rfl, a, u, h, _, v, rfl, rfl, rfl⟩
    exact h
  · exact fun h => ⟨(), s, rfl, a, s', h, (), s', rfl, rfl, rfl⟩

@[simp] theorem decodes_nestedAlloc {size : ℕ} :
    Decodes (p.nestedAlloc size) s a s' ↔ Decodes p s a s' := by
  simp only [DecodeM.nestedAlloc, decodes_bind, decodes_descendRef, decodes_onBeforeAllocMem,
    decodes_thenAscend]
  constructor
  · rintro ⟨_, t, rfl, _, u, rfl, h⟩
    exact h
  · exact fun h => ⟨(), s, rfl, (), s, rfl, h⟩

theorem decodes_checkRemaining {n : ℕ} {u : Unit} :
    Decodes (checkRemaining n) s u s' ↔ n ≤ s.length ∧ s' = s := by
  rw [checkRemaining, decodes_bind]
  simp only [decodes_remainingLen]
  constructor
  · rintro ⟨_, _, ⟨rfl, rfl⟩, h⟩
    dsimp only at h
    split_ifs at h with hlt
    · simp at h
    · exact ⟨not_lt.mp hlt, (decodes_pure.mp h).2⟩
  · rintro ⟨hle, rfl⟩
    exact ⟨_, _, ⟨rfl, rfl⟩, by simp [hle.not_gt]⟩

/-- `p` decodes the values `as` one after the other. -/
def DecodesList (p : DecodeM α) : List α → List Byte → List Byte → Prop
  | [], s, s' => s' = s
  | a :: as, s, s' => ∃ t, Decodes p s a t ∧ DecodesList p as t s'

theorem decodes_replicateM {as : List α} :
    ∀ {n : ℕ} {s : List Byte}, Decodes (p.replicateM n) s as s' ↔
      as.length = n ∧ DecodesList p as s s'
  | 0, s => by
    rw [DecodeM.replicateM, decodes_pure]
    constructor
    · rintro ⟨rfl, rfl⟩
      exact ⟨rfl, rfl⟩
    · rintro ⟨h, hs⟩
      obtain rfl := List.length_eq_zero_iff.mp h
      exact ⟨rfl, hs⟩
  | n + 1, s => by
    simp only [DecodeM.replicateM, decodes_bind, decodes_pure]
    constructor
    · rintro ⟨a, t, ha, as', u, has, rfl, rfl⟩
      obtain ⟨hlen, hd⟩ := decodes_replicateM.mp has
      exact ⟨by rw [List.length_cons, hlen], t, ha, hd⟩
    · rintro ⟨hlen, hd⟩
      cases as with
      | nil => simp at hlen
      | cons a as =>
        obtain ⟨t, ha, hd⟩ := hd
        exact ⟨a, t, ha, as, s', decodes_replicateM.mpr ⟨by simpa using hlen, hd⟩, rfl, rfl⟩

theorem decodes_vectorM : ∀ {n : ℕ} {v : List.Vector α n} {s : List Byte},
    Decodes (p.vectorM n) s v s' ↔ DecodesList p v.toList s s'
  | 0, v, s => by
    obtain rfl := v.eq_nil
    rw [DecodeM.vectorM, decodes_pure]
    exact and_iff_right rfl
  | n + 1, v, s => by
    simp only [DecodeM.vectorM, decodes_bind, decodes_pure]
    constructor
    · rintro ⟨a, t, ha, as, u, has, rfl, rfl⟩
      rw [List.Vector.toList_cons]
      exact ⟨t, ha, decodes_vectorM.mp has⟩
    · intro h
      rw [← v.cons_head_tail, List.Vector.toList_cons] at h
      obtain ⟨t, ha, has⟩ := h
      exact ⟨_, t, ha, _, s', decodes_vectorM.mpr has, v.cons_head_tail.symm, rfl⟩

theorem decodesList_append {as bs : List α} :
    ∀ {s : List Byte}, DecodesList p (as ++ bs) s s' ↔
      ∃ t, DecodesList p as s t ∧ DecodesList p bs t s' := by
  induction as with
  | nil =>
    intro s
    constructor
    · exact fun h => ⟨s, rfl, h⟩
    · rintro ⟨t, rfl, h⟩
      exact h
  | cons a as ih =>
    intro s
    constructor
    · rintro ⟨t, ha, h⟩
      obtain ⟨u, has, hbs⟩ := ih.mp h
      exact ⟨u, ⟨t, ha, has⟩, hbs⟩
    · rintro ⟨u, ⟨t, ha, has⟩, hbs⟩
      exact ⟨t, ha, ih.mpr ⟨u, has, hbs⟩⟩

/-! ### The calls of a run -/

theorem trace_bind_of_decodes {f : α → DecodeM β} {t : List Byte} (hp : Decodes p s a t) :
    (p >>= f).run.trace sliceInput s =
      p.run.trace sliceInput s ++ (f a).run.trace sliceInput t := by
  rw [ExceptT.run_bind, Prog.trace_bind hp]

theorem trace_bind_of_error {f : α → DecodeM β} {e : Error} {t : List Byte}
    (hp : runSlice p s = .ok (.error e, t)) :
    (p >>= f).run.trace sliceInput s = p.run.trace sliceInput s := by
  rw [ExceptT.run_bind, Prog.trace_bind hp]
  exact List.append_nil _

theorem trace_bind_of_halt {f : α → DecodeM β} {h : Halt} (hp : runSlice p s = .error h) :
    (p >>= f).run.trace sliceInput s = p.run.trace sliceInput s := by
  rw [ExceptT.run_bind, Prog.trace_bind_error hp]

theorem trace_chainErr {d : String} :
    (p.chainErr d).run.trace sliceInput s = p.run.trace sliceInput s := by
  rw [DecodeM.chainErr, ExceptT.run_mk, map_eq_pure_bind]
  cases hp : p.run.run sliceInput s with
  | error h => rw [Prog.trace_bind_error hp]
  | ok x =>
    rw [Prog.trace_bind hp]
    exact List.append_nil _

end Decodes

end ScaleCodec
