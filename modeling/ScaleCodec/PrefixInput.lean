import ScaleCodec.ByteInputs
import ScaleCodec.Trackers

/-!
# The byte put back

The first byte of a compact integer tells how it goes on, and where it is part of the number it is
put back : the decoders read the number through a `PrefixInput`. Over a slice this should be the
input of the slice that starts with the byte. A read may take the byte alone or together with bytes
of the slice, and one with an empty buffer leaves it (`exists_run_prefixRead`). So the two inputs
reply to each call alike and then have the same bytes left (`exists_prefixedSlice`), and this goes
on along every sequence of calls (`prefixInput_transcript`).

It ends with the first read that fails, which takes the byte all the same, while a slice that is too
short is left as it is. A decoder has failed by then, so its outcome is the same on both inputs
(`prefixedSlice_readsBytes`, `LibTy.decode_prefixedSlice`).
-/

namespace ScaleCodec

variable {tgt : Target}

/-- `PrefixInput { prefix, input }` over a slice. -/
abbrev prefixedSlice (tgt : Target) : Handler inputInterface Halt (Option Byte × List Byte) :=
  (prefixInput tgt).over sliceInput

/-- The byte put back, unless it has been taken, and the bytes of the slice. -/
def unread (x : Option Byte × List Byte) : List Byte :=
  x.1.toList ++ x.2

/-- The method returned `Err`. -/
def InputCall.failed (reply : (c : InputCall) × c.Reply) : Bool :=
  (reply.1.error reply.2).isSome

/-! ## Calls -/

/-- The input has the bytes `t` left, no more than a `usize` counts. -/
structure HasLeft (tgt : Target) (x : Option Byte × List Byte) (t : List Byte) : Prop where
  unread_eq : unread x = t
  length_le : t.length ≤ tgt.usizeMax

/-- A read returns what a read of the slice with the byte put back does, and leaves as much if it
succeeds. -/
theorem exists_run_prefixRead (n : ℕ) (pfx : Option Byte) (s : List Byte) :
    ∃ r pfx' s' t, (prefixRead n pfx).run sliceInput s = .ok ((r, pfx'), s') ∧
      sliceRead n (unread (pfx, s)) = (r, t) ∧ ∀ v, r = .ok v → unread (pfx', s') = t := by
  cases n with
  | zero => exact ⟨.ok .nil, pfx, s, _, rfl, sliceRead_eq_ok.mpr rfl, fun _ _ => rfl⟩
  | succ n =>
    cases pfx with
    | none =>
      rcases h : sliceRead (n + 1) s with ⟨r, t⟩
      have hcall : sliceInput (.read (n + 1)) s = .ok (r, t) := congrArg Except.ok h
      exact ⟨r, none, t, t, Prog.run_call hcall _, h, fun _ _ => rfl⟩
    | some b =>
      rcases h : sliceRead n s with ⟨e | v, t⟩
      · have hcall : sliceInput (.read n) s = .ok (.error e, t) := congrArg Except.ok h
        have hrun : (prefixRead (n + 1) (some b)).run sliceInput s =
            .ok ((.error e, none), t) := by
          rw [prefixRead, Prog.run_call hcall]
          rfl
        obtain ⟨hlt, he, -⟩ := sliceRead_eq_error.mp h
        have hlong : sliceRead (n + 1) (b :: s) = (.error e, b :: s) :=
          sliceRead_eq_error.mpr ⟨Nat.succ_lt_succ hlt, he, rfl⟩
        exact ⟨_, none, t, _, hrun, hlong, fun v hv => by cases hv⟩
      · have hcall : sliceInput (.read n) s = .ok (.ok v, t) := congrArg Except.ok h
        have hrun : (prefixRead (n + 1) (some b)).run sliceInput s =
            .ok ((.ok (v.cons b), none), t) := by
          rw [prefixRead, Prog.run_call hcall]
          rfl
        have hlong : sliceRead (n + 1) (b :: s) = (.ok (v.cons b), t) := by
          rw [sliceRead_eq_ok, sliceRead_eq_ok.mp h]
          simp
        exact ⟨_, none, t, t, hrun, hlong, fun _ _ => rfl⟩

theorem exists_run_prefixReadByte (pfx : Option Byte) (s : List Byte) :
    ∃ r pfx' s' t, (prefixInput tgt .readByte pfx).run sliceInput s = .ok ((r, pfx'), s') ∧
      sliceReadByte (unread (pfx, s)) = (r, t) ∧ ∀ b, r = .ok b → unread (pfx', s') = t := by
  obtain ⟨r, pfx', s', t, hrun, hslice, hleft⟩ := exists_run_prefixRead 1 pfx s
  have hbyte : (prefixInput tgt .readByte pfx).run sliceInput s =
      .ok ((r.map List.Vector.head, pfx'), s') := by
    show ((prefixRead 1 pfx >>= _).run sliceInput s) = _
    rw [Prog.run_bind, hrun]
    rfl
  rw [sliceReadByte, hslice]
  cases r with
  | error e => exact ⟨_, pfx', s', t, hbyte, rfl, fun b hb => by cases hb⟩
  | ok v => exact ⟨_, pfx', s', t, hbyte, rfl, fun _ _ => hleft v rfl⟩

/-- The inputs reply to a call alike, and have the same bytes left unless it fails. -/
theorem exists_prefixedSlice {c : InputCall} {x : Option Byte × List Byte} {s : List Byte}
    (hc : c ≠ .scaleInternalDecodeBytes) (hx : HasLeft tgt x s) :
    ∃ r x' s', prefixedSlice tgt c x = .ok (r, x') ∧ sliceInput c s = .ok (r, s') ∧
      (InputCall.failed ⟨c, r⟩ = false → HasLeft tgt x' s') := by
  obtain ⟨rfl, hlen⟩ := hx
  obtain ⟨pfx, s⟩ := x
  cases c with
  | remainingLen =>
    have hsum : tgt.saturatingAdd s.length pfx.toList.length = (unread (pfx, s)).length := by
      unfold unread at hlen ⊢
      rw [List.length_append, Nat.add_comm] at hlen ⊢
      exact min_eq_left hlen
    refine ⟨_, (pfx, s), _, ?_, rfl, fun _ => ⟨rfl, hlen⟩⟩
    rw [← hsum]
    rfl
  | read n =>
    obtain ⟨r, pfx', s', t, hrun, hslice, hleft⟩ := exists_run_prefixRead n pfx s
    have hcall : sliceInput (.read n) (unread (pfx, s)) = .ok (r, t) := congrArg Except.ok hslice
    refine ⟨r, (pfx', s'), t, Prog.over_eq_ok hrun, hcall, fun hr => ?_⟩
    cases r with
    | error e => cases hr
    | ok v => exact ⟨hleft v rfl, (suffix_of_sliceInput hcall).length_le.trans hlen⟩
  | readByte =>
    obtain ⟨r, pfx', s', t, hrun, hslice, hleft⟩ := exists_run_prefixReadByte pfx s
    have hcall : sliceInput .readByte (unread (pfx, s)) = .ok (r, t) := congrArg Except.ok hslice
    refine ⟨r, (pfx', s'), t, Prog.over_eq_ok hrun, hcall, fun hr => ?_⟩
    cases r with
    | error e => cases hr
    | ok b => exact ⟨hleft b rfl, (suffix_of_sliceInput hcall).length_le.trans hlen⟩
  | scaleInternalDecodeBytes => exact absurd rfl hc
  | _ => exact ⟨_, (pfx, s), _, rfl, rfl, fun _ => ⟨rfl, hlen⟩⟩

/-! ## Sequences of calls -/

/-- Up to and including the first call that fails, a `PrefixInput` over `s` replies as the slice
with the byte put back does. After every call that succeeds they have the same bytes left. -/
theorem prefixInput_transcript {pfx : Byte} {s : List Byte}
    (hlen : (pfx :: s).length ≤ tgt.usizeMax) {calls : List InputCall}
    (hcalls : .scaleInternalDecodeBytes ∉ calls) :
    ∃ as bs, (prefixedSlice tgt).transcript InputCall.failed calls (some pfx, s) = .ok as ∧
      sliceInput.transcript InputCall.failed calls (pfx :: s) = .ok bs ∧
      List.Forall₂ (fun a b => a.reply = b.reply ∧
        (InputCall.failed a.reply = false → unread a.state = b.state)) as bs := by
  have hstart : HasLeft tgt (some pfx, s) (pfx :: s) := ⟨rfl, hlen⟩
  have hstep : ∀ c ∈ calls, ∀ x t, HasLeft tgt x t →
      ∃ r x' t', prefixedSlice tgt c x = .ok (r, x') ∧ sliceInput c t = .ok (r, t') ∧
        (InputCall.failed ⟨c, r⟩ = false → HasLeft tgt x' t') :=
    fun c hc _ _ hx => exists_prefixedSlice (ne_of_mem_of_not_mem hc hcalls) hx
  obtain ⟨as, bs, has, hbs, hall⟩ :=
    Handler.exists_transcripts (I := inputInterface) hstep hstart
  exact ⟨as, bs, has, hbs, hall.imp fun _ _ hab => ⟨hab.1, fun hr => (hab.2 hr).unread_eq⟩⟩

/-- An empty read, a read across the byte put back, and one that fails. -/
theorem prefixInput_transcript_across :
    ∃ as bs,
      (prefixedSlice ⟨.w32, true⟩).transcript InputCall.failed
        [.read 0, .remainingLen, .read 3, .remainingLen, .read 2] (some 1, [2, 3, 4]) = .ok as ∧
      sliceInput.transcript InputCall.failed
        [.read 0, .remainingLen, .read 3, .remainingLen, .read 2] [1, 2, 3, 4] = .ok bs ∧
      List.Forall₂ (fun a b => a.reply = b.reply ∧
        (InputCall.failed a.reply = false → unread a.state = b.state)) as bs :=
  prefixInput_transcript (by decide) (by decide)

-- the read that fails has taken the byte
example : prefixedSlice ⟨.w32, true⟩ (.read 3) (some 1, [2]) =
    .ok (.error (.desc "Not enough data to fill buffer"), (none, [2])) :=
  rfl

/-! ## Decoders -/

theorem prefixedSlice_readsBytes : ReadsBytes (prefixedSlice tgt) (HasLeft tgt) where
  remainingLen hx := by
    obtain ⟨r, x', s', hcall, hslice, hleft⟩ :=
      exists_prefixedSlice (c := .remainingLen) (by simp) hx
    cases hslice
    exact ⟨_, x', hcall, Or.inr rfl, hleft rfl⟩
  read n hx := by
    obtain ⟨r, x', s', hcall, hslice, hleft⟩ := exists_prefixedSlice (c := .read n) (by simp) hx
    rw [hcall, Except.ok.inj hslice]
    cases r with
    | error e => exact .err
    | ok v => exact .ok (hleft rfl)
  readByte hx := by
    obtain ⟨r, x', s', hcall, hslice, hleft⟩ := exists_prefixedSlice (c := .readByte) (by simp) hx
    rw [hcall, Except.ok.inj hslice]
    cases r with
    | error e => exact .err
    | ok b => exact .ok (hleft rfl)
  descendRef _ := rfl
  ascendRef _ := rfl
  onBeforeAllocMem _ _ := rfl
  allocate _ _ := rfl

/-- A value is decoded through a `PrefixInput` as from the slice with the byte put back. -/
theorem LibTy.decode_prefixedSlice {P : Platform Empty.elim} {α : Type} {t : LibTy α}
    (hc : t.Compiles P) {pfx : Byte} {s : List Byte}
    (hlen : (pfx :: s).length ≤ P.target.usizeMax) :
    let p := (t.decode P).decode
    SameOutcome (HasLeft P.target) (p.run.run (prefixedSlice P.target) (some pfx, s))
      (runSlice p (pfx :: s)) := by
  intro p
  have hsim : Simulates (prefixedSlice P.target) (HasLeft P.target) p p :=
    (Ty.decode_rel (L := prefixedSlice_readsBytes.logic) (d := 0) hc
      (t.errorsIn_of_forall fun _ => trivial)).decode
  exact hsim _ _ ⟨rfl, hlen⟩

end ScaleCodec
