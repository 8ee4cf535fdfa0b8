import ScaleCodec.Sequences

/-!
# Vectors decoded in chunks

`decode_vec_chunked` does not trust the length an input announces : it reserves the memory of a
vector chunk by chunk, no chunk larger than `MAX_PREALLOCATION`, and goes on only when the items of
the last chunk have been decoded.

Here the loop is a program over its own calls (`ChunkCall`) : the hook, the reservation and the
items, which its closures decode one by one or read as bytes. Decoding an item is a single call, so
what an item costs the input and whether it fails is up to the handler, and the memory the loop asks
for is told apart from the memory its items ask for. `ChunkLog` records what has been asked and
decoded so far. At every moment of every run the memory reserved is at most `MAX_PREALLOCATION`
ahead of the items decoded (`chunkedVec_bounded`).

With the calls answered by an input and the decoder of the items, the program is the loop of
`decodeVecFromItems` and of `readVecFromU8s` (`decodeVecFromItems_eq_behind`,
`readVecFromU8s_eq_behind`, `ChunkM.run_behind`).
-/

namespace ScaleCodec

variable {α β γ σ : Type} {size : ℕ}

/-! ## The loop and its calls -/

/-- What `decode_vec_chunked` and its closures call. An item is decoded by `T::decode`, the memory
of `n` items is filled by one `read`. -/
inductive ChunkCall where
  | onBeforeAllocMem (size : ℕ)
  | reserveExact (additional : ℕ)
  | decode
  | read (n : ℕ)
deriving DecidableEq, Repr

/-- What the call returns. -/
abbrev ChunkCall.Reply (α : Type) : ChunkCall → Type
  | onBeforeAllocMem _ => Except Error Unit
  | reserveExact _ => Unit
  | decode => Except Error α
  | read n => Except Error (List.Vector α n)

/-- The calls of `decode_vec_chunked` and their replies. -/
abbrev chunkInterface (α : Type) : Interface :=
  ⟨ChunkCall, ChunkCall.Reply α⟩

/-- A part of `decode_vec_chunked`, for items of type `α`. -/
abbrev ChunkM (α : Type) : Type → Type :=
  ExceptT Error (Prog (chunkInterface α) Halt)

namespace ChunkM

/-- `input.on_before_alloc_mem(size)?`. -/
def onBeforeAllocMem (size : ℕ) : ChunkM α Unit :=
  .mk (.call (.onBeforeAllocMem size) .ret)

/-- `decoded_vec.reserve_exact(additional)`. -/
def reserveExact (additional : ℕ) : ChunkM α Unit :=
  .mk (.call (.reserveExact additional) fun _ => .ret (.ok ()))

/-- `T::decode(input)?` for the next item. -/
def decode : ChunkM α α :=
  .mk (.call .decode .ret)

/-- `input.read(..)?` into the memory of `n` items. -/
def read (n : ℕ) : ChunkM α (List.Vector α n) :=
  .mk (.call (.read n) .ret)

/-- The closure of `decode_vec_from_items` : `n` items, the first failure returned. -/
def decodeItems : ℕ → ChunkM α (List α)
  | 0 => pure []
  | n + 1 => do
    let a ← decode
    let as ← decodeItems n
    pure (a :: as)

end ChunkM

/-- The closures passed to `decode_vec_chunked`, by `read_vec_from_u8s` and by
`decode_vec_from_items`. -/
inductive ChunkDecoder where
  | bytes
  | items
deriving DecidableEq, Repr

/-- `decode_chunk(input, decoded_vec, n)`, with what it appends to `decoded_vec`. -/
def ChunkDecoder.decodeChunk : ChunkDecoder → ℕ → ChunkM α (List α)
  | bytes, n => List.Vector.toList <$> ChunkM.read n
  | items, n => ChunkM.decodeItems n

/-- The loop of `decode_vec_chunked`. Fuel is an upper bound of its turns. -/
def chunkedLoop (tgt : Target) (size chunkLen : ℕ) (D : ChunkDecoder) : ℕ → ℕ → ChunkM α (List α)
  | _, 0 => pure []
  | 0, _ + 1 => .mk (.halt .outOfFuel)
  | fuel + 1, n + 1 => do
    let chunk := min chunkLen (n + 1)
    ChunkM.onBeforeAllocMem (tgt.saturatingMul chunk size)
    ChunkM.reserveExact chunk
    let items ← D.decodeChunk chunk
    let rest ← chunkedLoop tgt size chunkLen D fuel (n + 1 - chunk)
    pure (items ++ rest)

/-- `decode_vec_chunked`, for items of `size` bytes of memory. -/
def chunkedVec (tgt : Target) (size : ℕ) (D : ChunkDecoder) (len : ℕ) : ChunkM α (List α) :=
  let chunkLen := if size = 0 then tgt.usizeMax else maxPreallocation / size
  chunkedLoop tgt size chunkLen D len len

/-! ## The decoders of vectors -/

section Answers

/-- The calls answered by the input, and by the decoders of an item and of a chunk read as bytes. -/
def ChunkM.answers (size : ℕ) (item : DecodeM α) (chunk : (n : ℕ) → DecodeM (List.Vector α n)) :
    Wrapper (chunkInterface α) inputInterface Halt Unit
  | .onBeforeAllocMem n, _ => .call (.onBeforeAllocMem n) fun r => .ret (r, ())
  | .reserveExact n, _ => .call (.allocate (n * size)) fun r => .ret (r, ())
  | .decode, _ => (·, ()) <$> item.run
  | .read n, _ => (·, ()) <$> (chunk n).run

/-- The closures, with these answers. -/
def ChunkDecoder.closure (item : DecodeM α) (chunk : (n : ℕ) → DecodeM (List.Vector α n)) :
    ChunkDecoder → ℕ → DecodeM (List α)
  | bytes, n => List.Vector.toList <$> chunk n
  | items, n => item.replicateM n

variable {item : DecodeM α} {chunk : (n : ℕ) → DecodeM (List.Vector α n)}
  {w : Wrapper (chunkInterface α) inputInterface Halt Unit} {p : ChunkM α β}

/-- The program over the methods of `Input`. -/
def ChunkM.behind (w : Wrapper (chunkInterface α) inputInterface Halt Unit) (p : ChunkM α β) :
    DecodeM β :=
  .mk (Prod.fst <$> p.run.through w ())

namespace ChunkM

theorem behind_bind (f : β → ChunkM α γ) :
    (p >>= f).behind w = p.behind w >>= fun b => (f b).behind w := by
  apply ExceptT.ext
  simp only [behind, ExceptT.run_bind, ExceptT.run_mk, Prog.through_bind, map_eq_pure_bind,
    bind_assoc, pure_bind]
  congr 1
  funext x
  obtain ⟨b | b, _⟩ := x
  · rfl
  · rfl

theorem run_behind (h : Handler inputInterface Halt σ) (s : σ) : (p.behind w).run.run h s =
    p.run.run (w.over h) ((), s) >>= fun x => .ok (x.1, x.2.2) := by
  rw [behind, ExceptT.run_mk, map_eq_pure_bind, Prog.run_bind, Prog.run_through, bind_assoc]
  rfl

theorem behind_map (f : β → γ) : (f <$> p).behind w = f <$> p.behind w := by
  rw [map_eq_pure_bind, map_eq_pure_bind, behind_bind]
  rfl

/-- A call behind the wrapper is its answer. -/
theorem through_call {c : ChunkCall} {q : Prog inputInterface Halt (c.Reply α)}
    (hw : w c () = (·, ()) <$> q) : Prod.fst <$> (Prog.call c .ret).through w () = q := by
  have hself : (Prog.call c .ret).through w () = w c () := Prog.bind_ret _
  rw [hself, hw, ← comp_map]
  exact id_map q

theorem behind_decode : decode.behind (answers size item chunk) = item :=
  ExceptT.ext (through_call rfl)

theorem behind_read (n : ℕ) : (read n).behind (answers size item chunk) = chunk n :=
  ExceptT.ext (through_call rfl)

theorem behind_decodeItems : ∀ n : ℕ,
    (decodeItems n).behind (answers size item chunk) = item.replicateM n
  | 0 => rfl
  | n + 1 => by
    simp only [decodeItems, DecodeM.replicateM, behind_bind, behind_decode, behind_decodeItems n]
    rfl

theorem behind_decodeChunk (D : ChunkDecoder) (n : ℕ) :
    (D.decodeChunk n).behind (answers size item chunk) = D.closure item chunk n := by
  cases D with
  | bytes => exact (behind_map _).trans (by rw [behind_read]; rfl)
  | items => exact behind_decodeItems n

theorem behind_chunkedLoop {tgt : Target} {chunkLen : ℕ} (D : ChunkDecoder) : ∀ fuel n : ℕ,
    (chunkedLoop tgt size chunkLen D fuel n).behind (answers size item chunk) =
      chunkLoop tgt size chunkLen (D.closure item chunk) fuel n
  | 0, 0 | _ + 1, 0 => by
    rw [chunkedLoop, chunkLoop]
    rfl
  | 0, n + 1 => by
    rw [chunkedLoop, chunkLoop]
    rfl
  | fuel + 1, n + 1 => by
    simp only [chunkedLoop, chunkLoop, behind_bind, behind_decodeChunk, behind_chunkedLoop D fuel]
    rfl

end ChunkM

/-- `decode_vec_from_items`. -/
theorem decodeVecFromItems_eq_behind (tgt : Target) (I : Decode α) (len : ℕ) :
    decodeVecFromItems tgt I len =
      ((chunkedVec tgt I.size .items len).behind
        (ChunkM.answers I.size I.decode chunk)).nested :=
  congrArg DecodeM.nested (ChunkM.behind_chunkedLoop .items len len).symm

/-- `read_vec_from_u8s`. -/
theorem readVecFromU8s_eq_behind (tgt : Target) {p : Prim} (e : p.Val ≃ α) (len : ℕ) :
    readVecFromU8s tgt e len =
      if len * p.size > tgt.usizeMax then DecodeM.err "Item is too big and cannot be allocated"
      else checkRemaining (len * p.size) >>= fun _ =>
        (chunkedVec tgt p.size .bytes len).behind (ChunkM.answers p.size item fun n =>
          (fun buf => arrayOf e n buf.toList) <$> DecodeM.read (n * p.size)) := by
  have hchunk : (fun n => (fun buf => (valuesOf p n buf.toList).map e) <$>
        DecodeM.read (n * p.size)) = ChunkDecoder.bytes.closure item fun n =>
          (fun buf => arrayOf e n buf.toList) <$> DecodeM.read (n * p.size) := by
    funext n
    exact comp_map (fun buf => arrayOf e n buf.toList) List.Vector.toList (DecodeM.read _)
  unfold readVecFromU8s
  rw [hchunk, decodeVecChunked, ← ChunkM.behind_chunkedLoop]
  rfl

end Answers

/-! ## The log -/

/-- What a run has asked for and decoded so far : the sizes passed to `on_before_alloc_mem`, the
length of each chunk, and the vector, with the number of items it has memory for. -/
structure ChunkLog (α : Type) where
  claims : List ℕ
  chunks : List ℕ
  capacity : ℕ
  items : List α

namespace ChunkLog

/-- The log before the first chunk. -/
def empty : ChunkLog α :=
  ⟨[], [], 0, []⟩

/-- The size passed to `on_before_alloc_mem`. -/
def claim (l : ChunkLog α) (size : ℕ) : ChunkLog α :=
  { l with claims := l.claims ++ [size] }

/-- `reserve_exact` : memory for a chunk of `n` more items. -/
def reserve (l : ChunkLog α) (n : ℕ) : ChunkLog α :=
  { l with chunks := l.chunks ++ [n], capacity := max l.capacity (l.items.length + n) }

/-- The items appended to the vector. -/
def push (l : ChunkLog α) (as : List α) : ChunkLog α :=
  { l with items := l.items ++ as }

/-- The call has been made, and the reply is `r`. -/
def after (l : ChunkLog α) : (c : ChunkCall) → c.Reply α → ChunkLog α
  | .onBeforeAllocMem size, _ => l.claim size
  | .reserveExact n, _ => l.reserve n
  | .decode, .ok a => l.push [a]
  | .read _, .ok as => l.push as.toList
  | .decode, .error _ | .read _, .error _ => l

/-- Every chunk has an item, and the memory reserved is at most one allocation ahead of the items
decoded. -/
structure Sound (size : ℕ) (l : ChunkLog α) : Prop where
  chunks_pos : ∀ n ∈ l.chunks, 1 ≤ n
  reserved_le : l.capacity * size ≤ l.items.length * size + maxPreallocation

variable {l : ChunkLog α}

theorem sound_empty : (empty : ChunkLog α).Sound size where
  chunks_pos _ h := by cases h
  reserved_le := by
    rw [show (empty : ChunkLog α).capacity = 0 from rfl, Nat.zero_mul]
    exact Nat.zero_le _

theorem Sound.claim (hl : l.Sound size) (n : ℕ) : (l.claim n).Sound size :=
  ⟨hl.chunks_pos, hl.reserved_le⟩

theorem push_push (as bs : List α) : (l.push as).push bs = l.push (as ++ bs) := by
  simp [push]

theorem Sound.push (hl : l.Sound size) (as : List α) : (l.push as).Sound size where
  chunks_pos := hl.chunks_pos
  reserved_le := by
    have hlen : l.items.length ≤ (l.push as).items.length := by
      simp [ChunkLog.push]
    have hmono := Nat.mul_le_mul_right size hlen
    exact hl.reserved_le.trans (Nat.add_le_add_right hmono _)

/-- A chunk that fits in one allocation may be reserved once the vector is full. -/
theorem Sound.reserve {n : ℕ} (hl : l.Sound size) (hfull : l.capacity ≤ l.items.length)
    (hn : 1 ≤ n) (hmem : n * size ≤ maxPreallocation) : (l.reserve n).Sound size where
  chunks_pos m hm := by
    rcases List.mem_append.mp hm with hm | hm
    · exact hl.chunks_pos m hm
    · rwa [List.mem_singleton.mp hm]
  reserved_le := by
    show max l.capacity (l.items.length + n) * size ≤ l.items.length * size + maxPreallocation
    rw [max_eq_right (hfull.trans (Nat.le_add_right _ _)), Nat.add_mul]
    exact Nat.add_le_add_left hmem _

end ChunkLog

/-! ## What a run keeps -/

/-- The log stays sound, whatever the call returns. -/
def chunkContract (size : ℕ) : Contract (chunkInterface α) (ChunkLog α) where
  pre c l := ∀ r, (l.after c r).Sound size
  post c l r l' := l' = l.after c r

/-- Started with the log `l`, the program keeps it sound, does not halt by itself, and has `Q` if it
succeeds. -/
def Ensures (size : ℕ) (p : ChunkM α β) (l : ChunkLog α) (Q : β → ChunkLog α → Prop) : Prop :=
  p.run.Meets (chunkContract size) (fun _ _ => False) (fun r l' => ∀ b, r = .ok b → Q b l') l

section Ensures

variable {p : ChunkM α β} {l : ChunkLog α} {Q : β → ChunkLog α → Prop}
  {R : γ → ChunkLog α → Prop}

theorem ensures_pure {b : β} (h : Q b l) : Ensures size (pure b : ChunkM α β) l Q := by
  rintro _ ⟨⟩
  exact h

theorem ensures_bind {f : β → ChunkM α γ} (hp : Ensures size p l Q)
    (hf : ∀ b l', Q b l' → Ensures size (f b) l' R) : Ensures size (p >>= f) l R := by
  unfold Ensures
  rw [ExceptT.run_bind]
  refine Prog.Meets.bind (fun r l' hr => ?_) hp
  cases r with
  | ok b => exact hf b l' (hr b rfl)
  | error e =>
    rintro _ ⟨⟩

theorem ensures_map {f : β → γ} (hp : Ensures size p l fun b l' => R (f b) l') :
    Ensures size (f <$> p) l R := by
  rw [map_eq_pure_bind]
  exact ensures_bind hp fun b l' hb => ensures_pure hb

theorem ensures_onBeforeAllocMem (hl : l.Sound size) (n : ℕ) :
    Ensures size (ChunkM.onBeforeAllocMem n) l fun _ l' => l' = l.claim n :=
  ⟨fun _ => hl.claim n, fun _ _ hl' _ _ => hl'⟩

theorem ensures_reserveExact {n : ℕ} (hl : (l.reserve n).Sound size) :
    Ensures size (ChunkM.reserveExact n) l fun _ l' => l' = l.reserve n :=
  ⟨fun _ => hl, fun _ _ hl' _ _ => hl'⟩

theorem ensures_decode (hl : l.Sound size) :
    Ensures size ChunkM.decode l fun a l' => l' = l.push [a] := by
  refine ⟨fun r => ?_, ?_⟩
  · cases r with
    | ok a => exact hl.push [a]
    | error e => exact hl
  · rintro r _ rfl b rfl
    rfl

theorem ensures_read (hl : l.Sound size) (n : ℕ) :
    Ensures size (ChunkM.read n) l fun as l' => l' = l.push as.toList := by
  refine ⟨fun r => ?_, ?_⟩
  · cases r with
    | ok as => exact hl.push as.toList
    | error e => exact hl
  · rintro r _ rfl b rfl
    rfl

theorem ensures_decodeItems : ∀ {n : ℕ} {l : ChunkLog α}, l.Sound size →
    Ensures size (ChunkM.decodeItems n) l fun as l' => as.length = n ∧ l' = l.push as
  | 0, l, _ => ensures_pure ⟨rfl, by simp [ChunkLog.push]⟩
  | n + 1, l, hl => by
    refine ensures_bind (ensures_decode hl) ?_
    rintro a _ rfl
    refine ensures_bind (ensures_decodeItems (hl.push [a])) ?_
    rintro as _ ⟨rfl, rfl⟩
    exact ensures_pure ⟨rfl, ChunkLog.push_push _ _⟩

/-- Either closure appends the items of the chunk. -/
theorem ensures_decodeChunk (D : ChunkDecoder) (n : ℕ) (hl : l.Sound size) :
    Ensures size (D.decodeChunk n) l fun as l' => as.length = n ∧ l' = l.push as := by
  cases D with
  | bytes =>
    refine ensures_map ?_
    refine (ensures_read hl n).imp fun r l' hr as has => ⟨as.2, hr as has⟩
  | items => exact ensures_decodeItems hl

/-- From a full vector, the loop appends `n` items and claims their memory. -/
theorem ensures_chunkedLoop {tgt : Target} {chunkLen : ℕ} (D : ChunkDecoder) (hpos : 0 < chunkLen)
    (hmem : chunkLen * size ≤ maxPreallocation) :
    ∀ {fuel n : ℕ} {l : ChunkLog α}, n ≤ fuel → l.Sound size → l.capacity ≤ l.items.length →
      Ensures size (chunkedLoop tgt size chunkLen D fuel n) l fun as l' =>
        as.length = n ∧ l'.items = l.items ++ as ∧ l'.claims.sum = l.claims.sum + n * size
  | 0, 0, l, _, _, _ | _ + 1, 0, l, _, _, _ => by
    rw [chunkedLoop]
    exact ensures_pure ⟨rfl, (List.append_nil _).symm, by rw [Nat.zero_mul, Nat.add_zero]⟩
  | 0, n + 1, _, h, _, _ => absurd h (Nat.not_succ_le_zero n)
  | fuel + 1, n + 1, l, hfuel, hl, hfull => by
    have hle : min chunkLen (n + 1) ≤ n + 1 := min_le_right _ _
    have hone : 1 ≤ min chunkLen (n + 1) := le_min hpos (Nat.succ_pos n)
    have hchunk : min chunkLen (n + 1) * size ≤ maxPreallocation :=
      (Nat.mul_le_mul_right size (min_le_left _ _)).trans hmem
    have hclaim : tgt.saturatingMul (min chunkLen (n + 1)) size = min chunkLen (n + 1) * size :=
      Target.saturatingMul_eq (hchunk.trans (maxPreallocation_le_usizeMax tgt))
    rw [chunkedLoop]
    generalize min chunkLen (n + 1) = chunk at hle hone hchunk hclaim ⊢
    refine ensures_bind (ensures_onBeforeAllocMem hl _) ?_
    rintro - _ rfl
    have hreserve : ((l.claim (tgt.saturatingMul chunk size)).reserve chunk).Sound size :=
      (hl.claim _).reserve hfull hone hchunk
    refine ensures_bind (ensures_reserveExact hreserve) ?_
    rintro - _ rfl
    refine ensures_bind (ensures_decodeChunk D chunk hreserve) ?_
    rintro as _ ⟨hlen, rfl⟩
    -- the vector is full again
    have hfull' : max l.capacity (l.items.length + chunk) ≤ (l.items ++ as).length := by
      rw [List.length_append, hlen]
      exact max_le (hfull.trans (Nat.le_add_right _ _)) le_rfl
    refine ensures_bind (ensures_chunkedLoop D hpos hmem (by omega) (hreserve.push as) hfull') ?_
    rintro rest l' ⟨hrest, hitems, hsum⟩
    refine ensures_pure ⟨?_, ?_, ?_⟩
    · rw [List.length_append, hlen, hrest]
      omega
    · rw [hitems]
      exact List.append_assoc l.items as rest
    · calc l'.claims.sum
          = (l.claims ++ [tgt.saturatingMul chunk size]).sum + (n + 1 - chunk) * size := hsum
        _ = l.claims.sum + chunk * size + (n + 1 - chunk) * size := by
          rw [hclaim, List.sum_append, List.sum_singleton]
        _ = l.claims.sum + (n + 1) * size := by
          rw [Nat.add_assoc, ← Nat.add_mul, Nat.add_sub_cancel' hle]

theorem ensures_chunkedVec (tgt : Target) (hsize : size ≤ maxPreallocation) (D : ChunkDecoder)
    (len : ℕ) : Ensures size (chunkedVec tgt size D len : ChunkM α (List α)) .empty fun as l =>
      as.length = len ∧ l.items = as ∧ l.claims.sum = len * size := by
  have hloop : Ensures size (chunkedVec tgt size D len : ChunkM α (List α)) .empty _ :=
    ensures_chunkedLoop D (chunkLen_pos tgt hsize) (chunkLen_mul_le_maxPreallocation tgt size)
      le_rfl ChunkLog.sound_empty le_rfl
  refine hloop.imp fun r l hr as has => ?_
  obtain ⟨hlen, hitems, hsum⟩ := hr as has
  exact ⟨hlen, hitems, hsum.trans (Nat.zero_add _)⟩

end Ensures

/-! ## Runs -/

/-- The run of the program, with its log. -/
def chunkLogging (h : Handler (chunkInterface α) Halt σ) :
    Handler (chunkInterface α) Halt (ChunkLog α × σ) :=
  (Wrapper.recording ChunkLog.after).over h

theorem respects_chunkLogging (h : Handler (chunkInterface α) Halt σ) :
    (chunkLogging h).Respects (chunkContract size) fun l x => x.1 = l := by
  rintro c _ x r y - rfl hc
  exact ⟨_, rfl, (Prog.of_over_recording hc).1⟩

/-- `decode_vec_chunked` halts only where a call it makes does. At every moment each chunk requested
has an item, and the bytes reserved are at most `MAX_PREALLOCATION` more than those of the items
decoded, so also where it fails. If it succeeds, the vector has the `len` items in the order of
decoding, and the sizes claimed add up to theirs. -/
theorem chunkedVec_bounded (tgt : Target) (hsize : size ≤ maxPreallocation) (D : ChunkDecoder)
    (len : ℕ) (h : Handler (chunkInterface α) Halt σ) (s : σ) :
    let p := (chunkedVec tgt size D len : ChunkM α (List α)).run
    (∀ e, p.run (chunkLogging h) (.empty, s) = .error e →
        ∃ x ∈ p.callsAt (chunkLogging h) (.empty, s), h x.1 x.2.2 = .error e) ∧
      (∀ m ∈ p.moments (chunkLogging h) (.empty, s) [],
        (∀ n ∈ m.2.1.chunks, 1 ≤ n) ∧
          m.2.1.capacity * size ≤ m.2.1.items.length * size + maxPreallocation) ∧
      ∀ as l s', p.run (chunkLogging h) (.empty, s) = .ok (.ok as, (l, s')) →
        as.length = len ∧ l.items = as ∧ l.claims.sum = len * size := by
  intro p
  have hp : Ensures size (chunkedVec tgt size D len : ChunkM α (List α)) .empty _ :=
    ensures_chunkedVec tgt hsize D len
  refine ⟨fun e hrun => ?_, fun m hm => ?_, fun as l s' hrun => ?_⟩
  · obtain ⟨x, hx, hhalt⟩ :=
      Prog.Meets.exists_call_halts (respects_chunkLogging h) hp rfl hrun
    exact ⟨x, hx, Prog.of_over_recording_error hhalt⟩
  · have hstep : ∀ c g (_ : List ChunkCall) x r y, (chunkContract size).pre c g →
        (x.1 = g ∧ g.Sound size) → chunkLogging h c x = .ok (r, y) →
          ∃ g', (chunkContract size).post c g r g' ∧ y.1 = g' ∧ g'.Sound size := by
      rintro c _ - x r y hpre ⟨rfl, -⟩ hc
      exact ⟨_, rfl, (Prog.of_over_recording hc).1, hpre r⟩
    obtain ⟨l, hl, hsound⟩ :=
      Prog.Meets.of_mem_moments (R := fun g _ x => x.1 = g ∧ g.Sound size) hstep hp
        ⟨rfl, ChunkLog.sound_empty⟩ m hm
    rw [hl]
    exact ⟨hsound.chunks_pos, hsound.reserved_le⟩
  · obtain ⟨l', hl', heq⟩ := Prog.returns_of_meets (respects_chunkLogging h) hp rfl hrun
    obtain rfl : l = l' := heq
    exact hl' as rfl

/-- Three items of two bytes each, decoded from one byte each. -/
theorem chunkedVec_bounded_three :
    let tgt : Target := ⟨.w64, true⟩
    let h := (ChunkM.answers 2 DecodeM.readByte DecodeM.read).over sliceInput
    let p := (chunkedVec tgt 2 .items 3).run
    ∃ l, p.run (chunkLogging h) (.empty, ((), [1, 2, 3])) = .ok (.ok [1, 2, 3], (l, ((), []))) ∧
      l.items = [1, 2, 3] ∧ l.claims.sum = 3 * 2 := by
  intro tgt h p
  have hsize : 2 ≤ maxPreallocation := by decide
  obtain ⟨-, -, hok⟩ := chunkedVec_bounded tgt hsize .items 3 h ((), [1, 2, 3])
  exact ⟨_, rfl, (hok _ _ _ rfl).2⟩

end ScaleCodec
