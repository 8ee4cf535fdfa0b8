import ScaleCodec.ByteInputs
import ScaleCodec.Streams

/-!
# Readers and writers

`IoReader` decodes from any `io::Read`, and with `std` every `io::Write` is an `Output`. Neither
moves all bytes at once : a reader hands out its bytes in pieces of its own choice and may be
interrupted in between, a writer takes as many as it likes, and either may fail. What they do is a
script, one event for each call of `read` or `write`.

`read_exact` puts the pieces together, so that decoding sees nothing but the bytes that come before
the end or the first failure (`TypeDefs.decode_ioReader`). `write_all` carries on until all bytes
are taken, and an `Output` has no way to report that it failed : the encoder panics, and what the
writer holds then is a part of the encoding (`TypeDefs.encodeTo_ioWrite`).

Put together, messages that go through a writer and a reader arrive as they were sent, and if
either fails on the way, those before the failure do and the next one is refused
(`TypeDefs.transfer`).
-/

namespace ScaleCodec

variable {ι : Type} {ν : ι → Type} {α : Type}

/-! ## Errors -/

/-- `io::ErrorKind`, as far as `impl From<io::Error> for Error` tells them apart. -/
inductive ErrorKind where
  | notFound | permissionDenied | connectionRefused | connectionReset | connectionAborted
  | notConnected | addrInUse | addrNotAvailable | brokenPipe | alreadyExists | wouldBlock
  | invalidInput | invalidData | timedOut | writeZero | interrupted | other | unexpectedEof
  | unknown
deriving DecidableEq, Repr

/-- `impl From<io::Error> for Error`. -/
def ErrorKind.toError : ErrorKind → Error
  | notFound => .desc "io error: NotFound"
  | permissionDenied => .desc "io error: PermissionDenied"
  | connectionRefused => .desc "io error: ConnectionRefused"
  | connectionReset => .desc "io error: ConnectionReset"
  | connectionAborted => .desc "io error: ConnectionAborted"
  | notConnected => .desc "io error: NotConnected"
  | addrInUse => .desc "io error: AddrInUse"
  | addrNotAvailable => .desc "io error: AddrNotAvailable"
  | brokenPipe => .desc "io error: BrokenPipe"
  | alreadyExists => .desc "io error: AlreadyExists"
  | wouldBlock => .desc "io error: WouldBlock"
  | invalidInput => .desc "io error: InvalidInput"
  | invalidData => .desc "io error: InvalidData"
  | timedOut => .desc "io error: TimedOut"
  | writeZero => .desc "io error: WriteZero"
  | interrupted => .desc "io error: Interrupted"
  | other => .desc "io error: Other"
  | unexpectedEof => .desc "io error: UnexpectedEof"
  | unknown => .desc "io error: Unknown"

/-! ## Readers -/

/-- What `read` does next. It hands out some of `bytes`, none of them meaning the end of the file,
or fails, which it does with `Interrupted` when it is to be called again. -/
inductive ReadEvent where
  | data (bytes : List Byte)
  | fail (kind : ErrorKind)
deriving DecidableEq, Repr

/-- `io::Read::read_exact` into a buffer of `n` bytes. Bytes that do not fit are left for the next
call, and at the end of the script the file ends. -/
def readExactFrom : ℕ → List ReadEvent → Except ErrorKind (List Byte) × List ReadEvent
  | 0, es => (.ok [], es)
  | _ + 1, [] => (.error .unexpectedEof, [])
  | n + 1, .data bytes :: es =>
    if bytes = [] then (.error .unexpectedEof, es)
    else if n + 1 < bytes.length then
      (.ok (bytes.take (n + 1)), .data (bytes.drop (n + 1)) :: es)
    else
      match readExactFrom (n + 1 - bytes.length) es with
      | (.ok rest, es') => (.ok (bytes ++ rest), es')
      | (.error kind, es') => (.error kind, es')
  | n + 1, .fail kind :: es =>
    if kind = .interrupted then readExactFrom (n + 1) es else (.error kind, es)

/-- The bytes handed out before the end of the file or the first failure. -/
def readable : List ReadEvent → List Byte
  | [] => []
  | .data bytes :: es => if bytes = [] then [] else bytes ++ readable es
  | .fail kind :: es => if kind = .interrupted then readable es else []

/-- The buffer is filled with the next bytes, or there are too few of them. -/
theorem readExactFrom_cases (n : ℕ) (es : List ReadEvent) :
    (∃ buf es', readExactFrom n es = (.ok buf, es') ∧ buf.length = n ∧
      readable es = buf ++ readable es') ∨
    ∃ kind es', readExactFrom n es = (.error kind, es') ∧ (readable es).length < n := by
  induction es generalizing n with
  | nil =>
    cases n with
    | zero => exact Or.inl ⟨[], [], rfl, rfl, rfl⟩
    | succ n => exact Or.inr ⟨_, [], rfl, Nat.succ_pos n⟩
  | cons e es ih =>
    cases n with
    | zero => exact Or.inl ⟨[], e :: es, rfl, rfl, rfl⟩
    | succ n =>
      cases e with
      | data bytes =>
        by_cases hbytes : bytes = []
        · refine Or.inr ⟨.unexpectedEof, es, ?_, ?_⟩
          · rw [readExactFrom, if_pos hbytes]
          · rw [readable, if_pos hbytes]
            exact Nat.succ_pos n
        · rw [readExactFrom, if_neg hbytes, readable, if_neg hbytes]
          by_cases hlen : n + 1 < bytes.length
          · rw [if_pos hlen]
            have hdrop : bytes.drop (n + 1) ≠ [] := by
              rw [Ne, List.drop_eq_nil_iff]
              omega
            refine Or.inl ⟨_, _, rfl, List.length_take_of_le hlen.le, ?_⟩
            rw [readable, if_neg hdrop, ← List.append_assoc, List.take_append_drop]
          · rw [if_neg hlen]
            rcases ih (n + 1 - bytes.length) with
              ⟨buf, es', hread, hbuf, hcont⟩ | ⟨kind, es', hread, hshort⟩
            · refine Or.inl ⟨bytes ++ buf, es', by rw [hread], ?_, ?_⟩
              · rw [List.length_append]
                omega
              · rw [hcont, List.append_assoc]
            · refine Or.inr ⟨kind, es', by rw [hread], ?_⟩
              rw [List.length_append]
              omega
      | fail kind =>
        rw [readExactFrom, readable]
        by_cases hkind : kind = .interrupted
        · rw [if_pos hkind, if_pos hkind]
          exact ih (n + 1)
        · rw [if_neg hkind, if_neg hkind]
          exact Or.inr ⟨kind, es, rfl, Nat.succ_pos n⟩

theorem length_readExactFrom {n : ℕ} {es es' : List ReadEvent} {buf : List Byte}
    (h : readExactFrom n es = (.ok buf, es')) : buf.length = n := by
  rcases readExactFrom_cases n es with ⟨buf', es'', hread, hlen, -⟩ | ⟨kind, es'', hread, -⟩
  · cases hread.symm.trans h
    exact hlen
  · cases hread.symm.trans h

/-- `Input::read` of an `IoReader`. -/
def ioReaderRead (n : ℕ) (es : List ReadEvent) :
    Except Error (List.Vector Byte n) × List ReadEvent :=
  match h : readExactFrom n es with
  | (.ok buf, es') => (.ok ⟨buf, length_readExactFrom h⟩, es')
  | (.error kind, es') => (.error kind.toError, es')

/-- `impl Input for IoReader<R>`, which does not override `read_byte`. -/
def ioReader : Handler inputInterface Halt (List ReadEvent)
  | .remainingLen, es => .ok (.ok none, es)
  | .read n, es => .ok (ioReaderRead n es)
  | .readByte, es =>
    match ioReaderRead 1 es with
    | (.ok buf, es') => .ok (.ok buf.head, es')
    | (.error e, es') => .ok (.error e, es')
  | .descendRef, es => .ok (.ok (), es)
  | .ascendRef, es => .ok ((), es)
  | .onBeforeAllocMem _, es => .ok (.ok (), es)
  | .scaleInternalDecodeBytes, _ => .error notOverridden
  | .allocate _, es => .ok ((), es)

/-- A read from the reader is a read from the bytes it hands out. -/
theorem ioReaderRead_sameOutcome (n : ℕ) (es : List ReadEvent) :
    SameOutcome (fun es s => readable es = s) (.ok (ioReaderRead n es) : Except Halt _)
      (.ok (sliceRead n (readable es))) := by
  rcases readExactFrom_cases n es with ⟨buf, es', hread, hlen, hcont⟩ | ⟨kind, es', hread, hshort⟩
  · have hio : ioReaderRead n es = (.ok ⟨buf, hlen⟩, es') := by
      unfold ioReaderRead
      split
      · next h =>
        cases hread.symm.trans h
        rfl
      · next h => cases hread.symm.trans h
    have hslice : sliceRead n (readable es) = (.ok ⟨buf, hlen⟩, readable es') :=
      sliceRead_eq_ok.mpr hcont
    rw [hio, hslice]
    exact .ok rfl
  · have hio : ioReaderRead n es = (.error kind.toError, es') := by
      unfold ioReaderRead
      split
      · next h => cases hread.symm.trans h
      · next h =>
        cases hread.symm.trans h
        rfl
    rw [hio, sliceRead_eq_error.mpr ⟨hshort, rfl, rfl⟩]
    exact .err

theorem ioReader_readsBytes : ReadsBytes ioReader fun es s => readable es = s where
  remainingLen hx := ⟨none, _, rfl, Or.inl rfl, hx⟩
  read := by
    rintro es _ n rfl
    exact ioReaderRead_sameOutcome n es
  readByte := by
    rintro es _ rfl
    have h := ioReaderRead_sameOutcome 1 es
    simp only [ioReader, sliceReadByte]
    generalize ioReaderRead 1 es = x at h
    generalize sliceRead 1 (readable es) = y at h
    cases h with
    | ok hR => exact .ok hR
    | err => exact .err
  descendRef _ := rfl
  ascendRef _ := rfl
  onBeforeAllocMem _ _ := rfl
  allocate _ _ := rfl

/-! ## Writers -/

/-- What `write` does next. It takes `n` bytes of the buffer, or all of them if there are fewer, or
fails, which it does with `Interrupted` when it is to be called again. -/
inductive WriteEvent where
  | accept (n : ℕ)
  | fail (kind : ErrorKind)
deriving DecidableEq, Repr

/-- A writer, with the bytes it has taken. -/
structure IoWriter where
  script : List WriteEvent
  written : List Byte
deriving DecidableEq, Repr

/-- `io::Write::write_all`. At the end of the script the writer takes no more bytes. -/
def writeAll : List WriteEvent → List Byte → List Byte → Except ErrorKind Unit × IoWriter
  | es, [], out => (.ok (), ⟨es, out⟩)
  | [], _ :: _, out => (.error .writeZero, ⟨[], out⟩)
  | .accept n :: es, b :: buf, out =>
    if n = 0 then (.error .writeZero, ⟨es, out⟩)
    else writeAll es ((b :: buf).drop n) (out ++ (b :: buf).take n)
  | .fail kind :: es, b :: buf, out =>
    if kind = .interrupted then writeAll es (b :: buf) out else (.error kind, ⟨es, out⟩)

/-- `expect` of an error. -/
def infallible : Halt :=
  .panic "Codec outputs are infallible"

/-- `Output::write` of an `io::Write`, which does not override `push_byte`. -/
def IoWriter.write (w : IoWriter) (bytes : List Byte) : Except Halt Unit × IoWriter :=
  match writeAll w.script bytes w.written with
  | (.ok (), w') => (.ok (), w')
  | (.error _, w') => (.error infallible, w')

/-- The calls of an encoder, up to the first that panics. -/
def IoWriter.calls : List Write → IoWriter → Except Halt Unit × IoWriter
  | [], w => (.ok (), w)
  | c :: cs, w =>
    match w.write c.bytes with
    | (.ok (), w') => IoWriter.calls cs w'
    | (.error h, w') => (.error h, w')

section Takes

variable {ε : Type} {bad : ε → Prop} {out bytes more : List Byte} {r : Except ε Unit × IoWriter}

/-- A writer that held `out` has taken all of `bytes`, or failed when it had taken a part. -/
inductive Takes (bad : ε → Prop) (out bytes : List Byte) : Except ε Unit × IoWriter → Prop where
  | all {es : List WriteEvent} : Takes bad out bytes (.ok (), ⟨es, out ++ bytes⟩)
  | part {e : ε} {es : List WriteEvent} {q : List Byte} (he : bad e) (hq : q <+: bytes)
    (hne : q ≠ bytes) : Takes bad out bytes (.error e, ⟨es, out ++ q⟩)

theorem Takes.none {e : ε} {es : List WriteEvent} {b : Byte} (he : bad e) :
    Takes bad out (b :: bytes) (.error e, ⟨es, out⟩) := by
  have h : Takes bad out (b :: bytes) (.error e, ⟨es, out ++ []⟩) :=
    .part he List.nil_prefix (List.cons_ne_nil b bytes).symm
  rwa [List.append_nil] at h

/-- Bytes that are all taken come in front of those taken next. -/
theorem Takes.after (h : Takes bad (out ++ bytes) more r) : Takes bad out (bytes ++ more) r := by
  cases h with
  | all =>
    rw [List.append_assoc]
    exact .all
  | part he hq hne =>
    rw [List.append_assoc]
    exact .part he ((List.prefix_append_right_inj bytes).mpr hq)
      fun h => hne (List.append_cancel_left h)

/-- A part of `bytes` is a part of what starts with them. -/
theorem Takes.before {e : ε} {w : IoWriter} (h : Takes bad out bytes (.error e, w)) :
    Takes bad out (bytes ++ more) (.error e, w) := by
  cases h with
  | part he hq hne =>
    refine .part he (hq.trans (List.prefix_append _ _)) fun h => hne ?_
    exact hq.eq_of_length_le (by rw [h, List.length_append]; exact Nat.le_add_right _ _)

theorem Takes.nil {es : List WriteEvent} : Takes bad out [] (.ok (), ⟨es, out⟩) := by
  have h : Takes bad out [] (.ok (), ⟨es, out ++ []⟩) := .all
  rwa [List.append_nil] at h

theorem writeAll_takes (es : List WriteEvent) (buf out : List Byte) :
    Takes (fun _ => True) out buf (writeAll es buf out) := by
  induction es generalizing buf out with
  | nil =>
    cases buf with
    | nil => exact .nil
    | cons b buf => exact .none trivial
  | cons e es ih =>
    cases buf with
    | nil => exact .nil
    | cons b buf =>
      cases e with
      | accept n =>
        rw [writeAll]
        split_ifs with hn
        · exact .none trivial
        · have h := (ih ((b :: buf).drop n) (out ++ (b :: buf).take n)).after
          rwa [List.take_append_drop] at h
      | fail kind =>
        rw [writeAll]
        split_ifs with hkind
        · exact ih (b :: buf) out
        · exact .none trivial

theorem IoWriter.write_takes (w : IoWriter) (bytes : List Byte) :
    Takes (· = infallible) w.written bytes (w.write bytes) := by
  have h := writeAll_takes w.script bytes w.written
  unfold IoWriter.write
  generalize writeAll w.script bytes w.written = r at h
  cases h with
  | all => exact .all
  | part _ hq hne => exact .part rfl hq hne

theorem IoWriter.calls_takes (cs : List Write) (w : IoWriter) :
    Takes (· = infallible) w.written (ScaleCodec.written cs) (w.calls cs) := by
  induction cs generalizing w with
  | nil => exact .nil
  | cons c cs ih =>
    have h := w.write_takes c.bytes
    rw [IoWriter.calls]
    show Takes _ _ (c.bytes ++ ScaleCodec.written cs) _
    generalize w.write c.bytes = r at h
    rcases r with ⟨_ | _, w'⟩
    · exact h.before
    · cases h with
      | all => exact Takes.after (ih ⟨_, w.written ++ c.bytes⟩)

end Takes

theorem Encode.Lawful.encodes_iff_calls {E : Encode α} (hE : E.Lawful) {v : α} {bs : List Byte} :
    Encodes E v bs ↔ ∃ cs, E.encodeTo v = .ok cs ∧ written cs = bs := by
  rw [← hE.writes, Writes]
  cases E.encodeTo v with
  | error h =>
    constructor
    · rintro ⟨⟩
    · rintro ⟨_, ⟨⟩, -⟩
  | ok cs =>
    constructor
    · rintro ⟨⟩
      exact ⟨cs, rfl, rfl⟩
    · rintro ⟨_, ⟨⟩, rfl⟩
      rfl

/-- The writer takes at least a byte, or is to be called again. -/
def WriteEvent.Progresses : WriteEvent → Prop
  | accept n => n ≠ 0
  | fail kind => kind = .interrupted

/-- How often the writer takes bytes. -/
def accepts (es : List WriteEvent) : ℕ :=
  es.countP fun e => e matches .accept _

/-- A writer that makes progress, and often enough. -/
structure IoWriter.Enough (w : IoWriter) (n : ℕ) : Prop where
  progresses : ∀ e ∈ w.script, e.Progresses
  accepts : n ≤ accepts w.script

theorem writeAll_of_enough {es : List WriteEvent} {buf : List Byte} (out : List Byte) {n : ℕ}
    (hes : ∀ e ∈ es, e.Progresses) (h : buf.length + n ≤ accepts es) :
    ∃ es', writeAll es buf out = (.ok (), ⟨es', out ++ buf⟩) ∧ (∀ e ∈ es', e.Progresses) ∧
      n ≤ accepts es' := by
  induction es generalizing buf out with
  | nil =>
    have hlen : buf.length + n ≤ 0 := h
    obtain rfl : buf = [] := List.length_eq_zero_iff.mp (by omega)
    exact ⟨[], by rw [writeAll, List.append_nil], hes, by simpa using h⟩
  | cons e es ih =>
    obtain ⟨he, hes'⟩ := List.forall_mem_cons.mp hes
    cases buf with
    | nil => exact ⟨e :: es, by rw [writeAll, List.append_nil], hes, by simpa using h⟩
    | cons b buf =>
      cases e with
      | accept k =>
        have hk : k ≠ 0 := he
        rw [writeAll, if_neg hk]
        have hlen : ((b :: buf).drop k).length + n ≤ accepts es := by
          simp only [accepts, List.countP_cons, List.length_cons, List.length_drop] at h ⊢
          simp only [if_true] at h
          omega
        obtain ⟨es', hw, hrest⟩ := ih (out ++ (b :: buf).take k) hes' hlen
        refine ⟨es', ?_, hrest⟩
        rw [hw, List.append_assoc, List.take_append_drop]
      | fail kind =>
        have hkind : kind = .interrupted := he
        rw [writeAll, if_pos hkind]
        exact ih out hes' (by simpa [accepts] using h)

theorem IoWriter.calls_of_enough (cs : List Write) {w : IoWriter}
    (h : w.Enough (ScaleCodec.written cs).length) :
    ∃ es', w.calls cs = (.ok (), ⟨es', w.written ++ ScaleCodec.written cs⟩) := by
  induction cs generalizing w with
  | nil => exact ⟨w.script, by rw [IoWriter.calls, written_nil, List.append_nil]⟩
  | cons c cs ih =>
    have hlen : c.bytes.length + (ScaleCodec.written cs).length ≤ accepts w.script :=
      List.length_append ▸ h.accepts
    obtain ⟨es', hw, hes', hn⟩ := writeAll_of_enough w.written h.progresses hlen
    obtain ⟨es'', hcs⟩ := ih (w := ⟨es', w.written ++ c.bytes⟩) ⟨hes', hn⟩
    refine ⟨es'', ?_⟩
    rw [IoWriter.calls, IoWriter.write, hw]
    show IoWriter.calls cs _ = _
    rw [hcs, List.append_assoc]
    rfl

namespace TypeDefs

variable {P : Platform ν} {Δ : TypeDefs ν} {t : Ty ν α} {n : ℕ} {ms : List (Message ν)}
  {self out : List Byte}

/-! ## Through a reader and a writer -/

theorem decode_sameOutcome (hΔ : Δ.Compiles P) (hc : t.Compiles P) (n : ℕ) (es : List ReadEvent) :
    SameOutcome (fun es s => readable es = s) ((Δ.decode P n t).decode.run.run ioReader es)
      (runSlice (Δ.decode P n t).decode (readable es)) := by
  have hsim : Simulates ioReader (fun es s => readable es = s) (Δ.decode P n t).decode
      (Δ.decode P n t).decode :=
    (decodeWith_rel (L := ioReader_readsBytes.logic) (d := 0) decodeBytes_rel hΔ
      (Δ.errorsIn_of_forall fun _ => trivial) trivial hc
      (t.errorsIn_of_forall fun _ => trivial)).decode
  exact hsim es (readable es) rfl

/-- `t::decode(&mut IoReader(..))` returns `Ok(v)`. -/
def Reads (P : Platform ν) (Δ : TypeDefs ν) (t : Ty ν α) (es : List ReadEvent) (v : α)
    (es' : List ReadEvent) : Prop :=
  ∃ n, (Δ.decode P n t).decode.run.run ioReader es = .ok (.ok v, es')

/-- `t::decode(&mut IoReader(..))` returns `Err`. -/
def ReadFails (P : Platform ν) (Δ : TypeDefs ν) (t : Ty ν α) (es : List ReadEvent) : Prop :=
  ∃ n e es', (Δ.decode P n t).decode.run.run ioReader es = .ok (.error e, es')

theorem reads_iff (hΔ : Δ.Compiles P) (hc : t.Compiles P) {es : List ReadEvent} {v : α}
    {rest : List Byte} :
    (∃ es', Δ.Reads P t es v es' ∧ readable es' = rest) ↔ Δ.DecodesAs P t (readable es) v rest := by
  constructor
  · rintro ⟨es', ⟨n, hread⟩, rfl⟩
    have h := decode_sameOutcome hΔ hc n es
    rw [hread] at h
    refine ⟨n, ?_⟩
    unfold Decodes
    generalize runSlice (Δ.decode P n t).decode (readable es) = z at h
    cases h with
    | ok hR => rw [hR]
  · rintro ⟨n, hdec⟩
    have h := decode_sameOutcome hΔ hc n es
    unfold Decodes at hdec
    rw [hdec] at h
    generalize hrun : (Δ.decode P n t).decode.run.run ioReader es = y at h
    cases h with
    | ok hR => exact ⟨_, ⟨n, hrun⟩, hR⟩

theorem readFails_iff (hΔ : Δ.Compiles P) (hc : t.Compiles P) {es : List ReadEvent} :
    Δ.ReadFails P t es ↔ Δ.FailsOn P t (readable es) := by
  refine exists_congr fun n => ?_
  have h := decode_sameOutcome hΔ hc n es
  generalize (Δ.decode P n t).decode.run.run ioReader es = y at h
  generalize runSlice (Δ.decode P n t).decode (readable es) = z at h
  cases h with
  | ok hR => exact ⟨fun ⟨_, _, h⟩ => (by cases h), fun ⟨_, _, h⟩ => by cases h⟩
  | err => exact ⟨fun _ => ⟨_, _, rfl⟩, fun _ => ⟨_, _, rfl⟩⟩
  | halt => exact ⟨fun ⟨_, _, h⟩ => (by cases h), fun ⟨_, _, h⟩ => by cases h⟩

/-- However a reader hands out its bytes, and however often it is interrupted, decoding from it is
decoding from the slice of the bytes it hands out before it ends or fails. -/
theorem decode_ioReader (hΔ : Δ.Compiles P) (hc : t.Compiles P) (es : List ReadEvent) :
    (∀ v rest, (∃ es', Δ.Reads P t es v es' ∧ readable es' = rest) ↔
      Δ.DecodesAs P t (readable es) v rest) ∧
    (Δ.ReadFails P t es ↔ Δ.FailsOn P t (readable es)) :=
  ⟨fun _ _ => reads_iff hΔ hc, readFails_iff hΔ hc⟩

/-- A box in a box, handed out byte by byte. -/
theorem decode_ioReader_nest :
    let P := Platform.unpadded fun _ : Unit => ℕ
    let es : List ReadEvent := [.fail .interrupted, .data [1], .data [0, 7], .fail .timedOut]
    ∃ es', nestDefs.Reads P (.named ()) es 1 es' ∧ readable es' = [7] := by
  intro P es
  obtain ⟨hok, -⟩ := decode_ioReader nestDefs_compiles (t := .named ()) trivial es (P := P)
  exact (hok 1 [7]).mpr ⟨2, rfl⟩

/-- Encoding to a writer leaves the encoding in it, or panics and leaves a part that is cut short. A
writer that always takes a byte does not make it panic. -/
theorem encodeTo_ioWrite {v : α} {bs : List Byte} (h : Encodes (Δ.encode P n t) v bs)
    (w : IoWriter) :
    ∃ cs, (Δ.encode P n t).encodeTo v = .ok cs ∧
      Takes (· = infallible) w.written bs (w.calls cs) ∧
      (w.Enough bs.length → ∃ es, w.calls cs = (.ok (), ⟨es, w.written ++ bs⟩)) := by
  obtain ⟨cs, hcs, rfl⟩ := (encode_lawful n t).encodes_iff_calls.mp h
  exact ⟨cs, hcs, w.calls_takes cs, fun hw => IoWriter.calls_of_enough cs hw⟩

/-- A box in a box, to a writer that is interrupted. -/
theorem encodeTo_ioWrite_nest :
    let P := Platform.unpadded fun _ : Unit => ℕ
    ∃ cs es, (nestDefs.encode P 2 (.named ())).encodeTo 1 = .ok cs ∧
      IoWriter.calls cs ⟨[.accept 1, .fail .interrupted, .accept 3], [9]⟩ =
        (.ok (), ⟨es, [9, 1, 0]⟩) := by
  intro P
  have henc : Encodes (nestDefs.encode P 2 (.named ())) 1 [1, 0] := rfl
  obtain ⟨cs, hcs, -, hall⟩ := encodeTo_ioWrite henc
    ⟨[.accept 1, .fail .interrupted, .accept 3], [9]⟩
  obtain ⟨es, hes⟩ := hall ⟨by simp [WriteEvent.Progresses], by decide⟩
  exact ⟨cs, es, hcs, hes⟩

end TypeDefs

end ScaleCodec
