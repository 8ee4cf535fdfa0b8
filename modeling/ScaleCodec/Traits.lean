import Mathlib.Logic.Equiv.Defs
import ScaleCodec.DecoderLogic

/-!
# The `Encode` and `Decode` traits

An `impl` is a record of its methods. `Encode` has three ways to produce the bytes,
`encode_to`, `encode` and `using_encoded`, whose default bodies call each other in a cycle :
`encode_to → using_encoded → encode → encode_to`. `EncodeImpl` is an `impl` block, which
overrides some of them, and `EncodeImpl.runEncodeTo`, `runEncode` and `runUsingEncoded` run
the cycle with fuel. One turn of the cycle is enough if a method is overridden
(`EncodeImpl.toEncode`).

`encode_to` is generic in its output, so it is the list of the `write` and `push_byte` calls
it makes (`Write`), and a closure passed to `using_encoded` is called once, on some bytes. All
three agree in a lawful `impl` (`Encode.Lawful`).

`Decode` has `decode`, `decode_into`, `skip` and `encoded_fixed_size`. `decode_into` returns
the value it writes.

A `Vec` is the list of its elements, which is taken to find the memory it reserves. So the panic of
the standard library on a capacity of more than `isize::MAX` bytes is not part of the model, neither
in `encode`, which reserves `size_hint()` bytes, nor in the decoders of vectors. On a 32-bit target
both can ask for as much : a `Vec` in an `Rc` is counted as often by `size_hint` as it is shared.
The module `Append` is about code that reckons with this limit, and models it.
-/

namespace ScaleCodec

/-! ## Targets and primitive types -/

/-- Width of `usize`. -/
inductive PointerWidth where
  | w32
  | w64
deriving DecidableEq, Repr

/-- What `cfg!` sees of the compilation target. -/
structure Target where
  pointerWidth : PointerWidth
  littleEndian : Bool

/-- `usize::BITS / 8`. -/
def Target.usizeBytes (tgt : Target) : ℕ :=
  match tgt.pointerWidth with
  | .w32 => 4
  | .w64 => 8

/-- `usize::MAX`. -/
def Target.usizeMax (tgt : Target) : ℕ :=
  256 ^ tgt.usizeBytes - 1

/-- `isize::MAX`. -/
def Target.isizeMax (tgt : Target) : ℕ :=
  tgt.usizeMax / 2

/-- `usize`. -/
abbrev Target.Usize (tgt : Target) : Type :=
  { n : ℕ // n ≤ tgt.usizeMax }

/-- `usize::saturating_add`. -/
def Target.saturatingAdd (tgt : Target) (a b : ℕ) : ℕ :=
  min (a + b) tgt.usizeMax

/-- `usize::saturating_mul`. -/
def Target.saturatingMul (tgt : Target) (a b : ℕ) : ℕ :=
  min (a * b) tgt.usizeMax

/-- `u32::MAX`. -/
def u32Max : ℕ :=
  2 ^ 32 - 1

theorem Target.u32Max_le_usizeMax (tgt : Target) : u32Max ≤ tgt.usizeMax := by
  unfold usizeMax usizeBytes
  cases tgt.pointerWidth <;> decide

/-- The types with a `TypeInfo`, whose encoding is their memory on a little-endian target. -/
inductive Prim where
  | u8 | u16 | u32 | u64 | u128
  | i8 | i16 | i32 | i64 | i128
  | f32 | f64
deriving DecidableEq, Repr

/-- `mem::size_of`. -/
def Prim.size : Prim → ℕ
  | u8 | i8 => 1
  | u16 | i16 => 2
  | u32 | i32 | f32 => 4
  | u64 | i64 | f64 => 8
  | u128 | i128 => 16

/-- A value, as its bit pattern. -/
abbrev Prim.Val (p : Prim) : Type :=
  BitVec (8 * p.size)

theorem Prim.size_ne_zero (p : Prim) : p.size ≠ 0 := by
  cases p <;> decide

theorem Prim.size_le (p : Prim) : p.size ≤ 16 := by
  cases p <;> decide

/-- `enum TypeInfo` of the type `α` : the primitive type `α` is, with the transmute between
the two. -/
inductive TypeInfo (α : Type) where
  | unknown
  | known (p : Prim) (transmute : p.Val ≃ α)

/-- `x.to_le_bytes()`. -/
def toLeBytes {n : ℕ} (x : BitVec (8 * n)) : List Byte :=
  leBytes n x.toNat

/-- `from_le_bytes(buf)`. -/
def fromLeBytes {n : ℕ} (buf : List.Vector Byte n) : BitVec (8 * n) :=
  BitVec.ofNat (8 * n) (leNat buf.toList)

@[simp] theorem length_toLeBytes {n : ℕ} (x : BitVec (8 * n)) : (toLeBytes x).length = n :=
  length_leBytes n _

/-- A buffer holds the bytes of `x` iff it reads back as `x`. -/
theorem toLeBytes_eq_iff {n : ℕ} {buf : List.Vector Byte n} {x : BitVec (8 * n)} :
    buf.toList = toLeBytes x ↔ fromLeBytes buf = x := by
  have hx : x.toNat < 256 ^ n := by
    have := x.isLt
    rwa [pow_mul] at this
  have hbuf : leNat buf.toList < 2 ^ (8 * n) := by
    have := leNat_lt buf.toList
    rwa [buf.toList_length, show (256 : ℕ) = 2 ^ 8 by norm_num, ← pow_mul] at this
  rw [toLeBytes, eq_leBytes_iff buf.toList_length hx, ← BitVec.toNat_inj, fromLeBytes,
    BitVec.toNat_ofNat, Nat.mod_eq_of_lt hbuf]

/-! ## Output and `Encode` -/

/-- A call of a method of `trait Output`. -/
inductive Write where
  | write (bytes : List Byte)
  | pushByte (b : Byte)
deriving DecidableEq, Repr

/-- What the call appends to a `Vec<u8>`. -/
def Write.bytes : Write → List Byte
  | write bs => bs
  | pushByte b => [b]

/-- What the calls append to a `Vec<u8>`. -/
def written (ws : List Write) : List Byte :=
  ws.flatMap Write.bytes

@[simp] theorem written_nil : written [] = [] :=
  rfl

@[simp] theorem written_write (bs : List Byte) : written [.write bs] = bs := by
  simp [written, Write.bytes]

@[simp] theorem written_pushByte_cons (b : Byte) (ws : List Write) :
    written (.pushByte b :: ws) = b :: written ws := by
  simp [written, Write.bytes]

@[simp] theorem written_append (ws ws' : List Write) :
    written (ws ++ ws') = written ws ++ written ws' := by
  simp [written]

/-- `trait Encode` : the methods of an `impl`, defaults filled in. -/
structure Encode (α : Type) where
  typeInfo : TypeInfo α
  /-- The calls `encode_to` makes on its output. -/
  encodeTo : α → Except Halt (List Write)
  encode : α → Except Halt (List Byte)
  /-- The bytes `using_encoded` calls its closure on. -/
  usingEncoded : α → Except Halt (List Byte)

/-- `v.encode()` returns `bs`. -/
def Encodes {α : Type} (E : Encode α) (v : α) (bs : List Byte) : Prop :=
  E.encode v = .ok bs

/-- The three methods produce the same bytes, which for a type with a `TypeInfo` are those of
the primitive type. -/
structure Encode.Lawful {α : Type} (E : Encode α) : Prop where
  encodeTo : ∀ v, written <$> E.encodeTo v = E.encode v
  usingEncoded : ∀ v, E.usingEncoded v = E.encode v
  typeInfo : ∀ p e, E.typeInfo = .known p e → ∀ v, Encodes E v (toLeBytes (e.symm v))

/-- `x` writes `bs` to its output. -/
def Writes (x : Except Halt (List Write)) (bs : List Byte) : Prop :=
  written <$> x = .ok bs

/-- `x; y` on one output. -/
def writeThen (x y : Except Halt (List Write)) : Except Halt (List Write) := do
  let ws ← x
  let ws' ← y
  pure (ws ++ ws')

section Writes

variable {α : Type} {E : Encode α} {v : α} {bs bs' : List Byte} {x y : Except Halt (List Write)}

theorem Encodes.unique (h : Encodes E v bs) (h' : Encodes E v bs') : bs = bs' :=
  Except.ok.inj (h.symm.trans h')

@[simp] theorem writes_ok {ws : List Write} : Writes (.ok ws) bs ↔ bs = written ws :=
  (Except.ok.injEq _ _ ▸ Iff.rfl : Writes (.ok ws) bs ↔ written ws = bs).trans eq_comm

theorem Writes.exists_eq_ok (h : Writes x bs) : ∃ ws, x = .ok ws ∧ written ws = bs := by
  cases x with
  | error e => cases h
  | ok ws => exact ⟨ws, rfl, (writes_ok.mp h).symm⟩

theorem Encode.Lawful.writes (hE : E.Lawful) : Writes (E.encodeTo v) bs ↔ Encodes E v bs := by
  rw [Writes, hE.encodeTo, Encodes]

@[simp] theorem writeThen_nil_left : writeThen (.ok []) y = y := by
  cases y <;> rfl

@[simp] theorem writeThen_nil_right : writeThen x (.ok []) = x := by
  cases x with
  | error h => rfl
  | ok ws => exact congrArg Except.ok (List.append_nil ws)

theorem writes_writeThen :
    Writes (writeThen x y) bs ↔ ∃ b c, Writes x b ∧ Writes y c ∧ bs = b ++ c := by
  cases x with
  | error h =>
    refine iff_of_false (fun h' => by cases h') ?_
    rintro ⟨_, _, h', _⟩
    cases h'
  | ok ws =>
    cases y with
    | error h =>
      refine iff_of_false (fun h' => by cases h') ?_
      rintro ⟨_, _, _, h', _⟩
      cases h'
    | ok ws' =>
      have h : writeThen (.ok ws) (.ok ws') = .ok (ws ++ ws') := rfl
      simp [h]

end Writes

/-- An `impl Encode` block : the methods it overrides. -/
structure EncodeImpl (α : Type) where
  typeInfo : TypeInfo α := .unknown
  encodeTo : Option (α → Except Halt (List Write)) := none
  encode : Option (α → Except Halt (List Byte)) := none
  usingEncoded : Option (α → Except Halt (List Byte)) := none

namespace EncodeImpl

variable {α : Type}

mutual

/-- `encode_to`. The default body is `self.using_encoded(|buf| dest.write(buf))`. -/
def runEncodeTo (I : EncodeImpl α) : ℕ → α → Except Halt (List Write)
  | 0, _ => .error .outOfFuel
  | n + 1, v =>
    match I.encodeTo with
    | some f => f v
    | none => (fun buf => [.write buf]) <$> I.runUsingEncoded n v

/-- `encode`. The default body is `self.encode_to(&mut r)` on an empty `Vec`. Its capacity,
`self.size_hint()`, is left out : the memory is taken to be there. -/
def runEncode (I : EncodeImpl α) : ℕ → α → Except Halt (List Byte)
  | 0, _ => .error .outOfFuel
  | n + 1, v =>
    match I.encode with
    | some f => f v
    | none => written <$> I.runEncodeTo n v

/-- `using_encoded`. The default body is `f(&self.encode())`. -/
def runUsingEncoded (I : EncodeImpl α) : ℕ → α → Except Halt (List Byte)
  | 0, _ => .error .outOfFuel
  | n + 1, v =>
    match I.usingEncoded with
    | some f => f v
    | none => I.runEncode n v

end

/-- The methods of the `impl`. The cycle of default bodies has length three, so a call that
has not reached an overridden method after three steps never does. -/
def toEncode (I : EncodeImpl α) : Encode α where
  typeInfo := I.typeInfo
  encodeTo := I.runEncodeTo 3
  encode := I.runEncode 3
  usingEncoded := I.runUsingEncoded 3

theorem written_map_write (x : Except Halt (List Byte)) :
    written <$> (fun buf => [Write.write buf]) <$> x = x := by
  rw [← comp_map]
  simp [Function.comp_def]

/-- An `impl` that overrides `encode_to` alone is lawful. -/
theorem lawful_encodeTo (f : α → Except Halt (List Write)) :
    (toEncode { encodeTo := some f }).Lawful :=
  ⟨fun _ => rfl, fun _ => rfl, fun _ _ h => by cases h⟩

/-- An `impl` that overrides `using_encoded` alone is lawful. -/
theorem lawful_usingEncoded (f : α → Except Halt (List Byte)) :
    (toEncode { usingEncoded := some f }).Lawful :=
  ⟨fun _ => rfl, fun v => (written_map_write (f v)).symm, fun _ _ h => by cases h⟩

/-- An `impl` that overrides `encode` alone is lawful. -/
theorem lawful_encode (f : α → Except Halt (List Byte)) :
    (toEncode { encode := some f }).Lawful :=
  ⟨fun v => written_map_write (f v), fun _ => rfl, fun _ _ h => by cases h⟩

theorem encodes_encodeTo {f : α → Except Halt (List Write)} {v : α} {bs : List Byte} :
    Encodes (toEncode { encodeTo := some f }) v bs ↔ Writes (f v) bs :=
  Iff.rfl

theorem encodes_encode {f : α → Except Halt (List Byte)} {v : α} {bs : List Byte} :
    Encodes (toEncode { encode := some f }) v bs ↔ f v = .ok bs :=
  Iff.rfl

theorem encodes_usingEncoded {f : α → Except Halt (List Byte)} {v : α} {bs : List Byte} :
    Encodes (toEncode { usingEncoded := some f }) v bs ↔ f v = .ok bs := by
  show written <$> (fun buf => [Write.write buf]) <$> f v = .ok bs ↔ _
  rw [written_map_write]

end EncodeImpl

/-- An `impl Encode` that forwards every method to another value. -/
def Encode.forward {α β : Type} (E : Encode α) (get : β → α) : Encode β :=
  EncodeImpl.toEncode
    { encodeTo := some fun v => E.encodeTo (get v)
      encode := some fun v => E.encode (get v)
      usingEncoded := some fun v => E.usingEncoded (get v) }

theorem Encode.Lawful.forward {α β : Type} {E : Encode α} (hE : E.Lawful) (get : β → α) :
    (E.forward get).Lawful :=
  ⟨fun v => hE.encodeTo (get v), fun v => hE.usingEncoded (get v), fun _ _ h => by cases h⟩

theorem encodes_forward {α β : Type} {E : Encode α} {get : β → α} {v : β} {bs : List Byte} :
    Encodes (E.forward get) v bs ↔ Encodes E (get v) bs :=
  Iff.rfl

/-! ## `Decode` -/

/-- `trait Decode` : the methods of an `impl`, defaults filled in, and the size of the type. -/
structure Decode (α : Type) where
  typeInfo : TypeInfo α
  /-- `mem::size_of::<Self>()`. -/
  size : ℕ
  decode : DecodeM α
  /-- `decode_into`, returning the value it writes to `dst`. -/
  decodeInto : DecodeM α
  skip : DecodeM Unit
  encodedFixedSize : Option ℕ

/-- An `impl Decode` block that defines `decode` alone. -/
def Decode.ofDecode {α : Type} (size : ℕ) (decode : DecodeM α) : Decode α where
  typeInfo := .unknown
  size := size
  decode := decode
  decodeInto := decode
  skip := (fun _ => ()) <$> decode
  encodedFixedSize := none

/-- The three ways to decode accept the same bytes, which for a type with a `TypeInfo` are those
of the primitive type. -/
structure Decode.Lawful {α : Type} (I : Decode α) : Prop where
  decodeInto : ∀ s a s', Decodes I.decodeInto s a s' ↔ Decodes I.decode s a s'
  skip : ∀ s u s', Decodes I.skip s u s' ↔ ∃ a, Decodes I.decode s a s'
  typeInfo : ∀ p e, I.typeInfo = .known p e → I.size = p.size ∧
    ∀ s a s', Decodes I.decode s a s' ↔ s = toLeBytes (e.symm a) ++ s'

theorem decodes_skip {α : Type} {p : DecodeM α} {s s' : List Byte} {u : Unit} :
    Decodes ((fun _ => ()) <$> p) s u s' ↔ ∃ a, Decodes p s a s' := by
  simp [decodes_map]

theorem Decode.lawful_ofDecode {α : Type} {size : ℕ} {p : DecodeM α} :
    (Decode.ofDecode size p).Lawful :=
  ⟨fun _ _ _ => Iff.rfl, fun _ _ _ => decodes_skip, fun _ _ h => by cases h⟩

/-- The decoding methods use their input as they should. -/
structure Decode.Obeys {α : Type} (D : Discipline) (d : ℕ) (I : Decode α) : Prop where
  decode : ScaleCodec.Obeys D d I.decode
  decodeInto : ScaleCodec.Obeys D d I.decodeInto
  skip : ScaleCodec.Obeys D d I.skip

/-- Two `impl`s that differ in their decoding methods alone. -/
structure Decode.SameShape {α : Type} (I J : Decode α) : Prop where
  typeInfo : I.typeInfo = J.typeInfo
  size : I.size = J.size
  encodedFixedSize : I.encodedFixedSize = J.encodedFixedSize

theorem Decode.SameShape.refl {α : Type} (I : Decode α) : I.SameShape I :=
  ⟨rfl, rfl, rfl⟩

theorem Decode.sameShape_ofDecode {α : Type} {size : ℕ} {p q : DecodeM α} :
    (Decode.ofDecode size p).SameShape (Decode.ofDecode size q) :=
  ⟨rfl, rfl, rfl⟩

/-- The decoding methods are related. -/
structure Decode.Rel {α : Type} (L : ReadLogic) (d : ℕ) (I J : Decode α) : Prop where
  decode : L.Rel d I.decode J.decode
  decodeInto : L.Rel d I.decodeInto J.decodeInto
  skip : L.Rel d I.skip J.skip

theorem Decode.rel_ofDecode {α : Type} {L : ReadLogic} {d size : ℕ} {p q : DecodeM α}
    (hp : L.Rel d p q) : (Decode.ofDecode size p).Rel L d (Decode.ofDecode size q) :=
  ⟨hp, hp, L.rel_map hp⟩

theorem Decode.Rel.obeys {α : Type} {D : Discipline} {d : ℕ} {I : Decode α}
    (h : I.Rel D.logic d I) : I.Obeys D d :=
  ⟨h.decode, h.decodeInto, h.skip⟩

theorem Decode.Obeys.rel {α : Type} {D : Discipline} {d : ℕ} {I : Decode α} (h : I.Obeys D d) :
    I.Rel D.logic d I :=
  ⟨h.decode, h.decodeInto, h.skip⟩

end ScaleCodec
