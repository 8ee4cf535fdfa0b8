import ScaleCodec.Primitives

/-!
# Compact integers

`compact.rs` : the encoders `Encode for CompactRef<u8..u128>`, the decoders
`Decode for Compact<u8..u128>`, `CompactLen`, and `PrefixInput`, which the decoders use to
read a multi-byte mode together with its first byte. Machine arithmetic is on `BitVec`, and
every shift, subtraction and multiplication that Rust checks panics here when it is out of
range.
-/

namespace ScaleCodec

/-! ## Encoding -/

/-- The integer types with a compact encoding. -/
inductive Width where
  | u8 | u16 | u32 | u64 | u128
deriving DecidableEq, Repr

/-- The integer type itself. -/
def Width.prim : Width → Prim
  | u8 => .u8
  | u16 => .u16
  | u32 => .u32
  | u64 => .u64
  | u128 => .u128

/-- A value, as its bit pattern. -/
abbrev Width.Val (w : Width) : Type :=
  w.prim.Val

/-- `x.leading_zeros()`. -/
def leadingZeros {n : ℕ} (x : BitVec n) : ℕ :=
  if x.toNat = 0 then n else n - 1 - Nat.log2 x.toNat

/-- `for _ in 0..n { dest.push_byte(v as u8); v >>= 8; }` : the calls, and the final `v`. -/
def pushLowBytes {m : ℕ} : ℕ → BitVec m → List Write × BitVec m
  | 0, v => ([], v)
  | n + 1, v =>
    let (ws, v') := pushLowBytes n (v >>> 8)
    (.pushByte (v.setWidth 8) :: ws, v')

/-- The last arm of `CompactRef<u64>` and `CompactRef<u128>` : a header with the number of
bytes, then that many bytes. -/
def compactBigEncodeTo (size : ℕ) (x : BitVec (8 * size)) : Except Halt (List Write) :=
  let bytesNeeded := size - leadingZeros x / 8
  if bytesNeeded < 4 then
    .error (.panic "Previous match arm matches anyting less than 2^30; qed")
  else
    let low := ((bytesNeeded - 4) <<< 2) % 256
    if 0b11 + low > 255 then .error (.panic "attempt to add with overflow")
    else
      let (ws, v) := pushLowBytes bytesNeeded x
      if v ≠ 0 then
        .error (.panic "shifted sufficient bits right to lead only leading zeros; qed")
      else .ok (.pushByte (BitVec.ofNat 8 (0b11 + low)) :: ws)

/-- `encode_to` of `u16`. -/
def u16EncodeTo : BitVec 16 → Except Halt (List Write) :=
  (primEncode .u16).encodeTo

/-- `encode_to` of `u32`. -/
def u32EncodeTo : BitVec 32 → Except Halt (List Write) :=
  (primEncode .u32).encodeTo

/-- `encode_to` of `CompactRef<u8>`. -/
def compactU8EncodeTo (x : BitVec 8) : Except Halt (List Write) :=
  if x.toNat ≤ 0b00111111 then .ok [.pushByte (x <<< 2)]
  else u16EncodeTo ((x.setWidth 16 <<< 2) ||| 0b01)

/-- `encode_to` of `CompactRef<u16>`. -/
def compactU16EncodeTo (x : BitVec 16) : Except Halt (List Write) :=
  if x.toNat ≤ 0b00111111 then .ok [.pushByte (x.setWidth 8 <<< 2)]
  else if x.toNat ≤ 0b0011111111111111 then u16EncodeTo ((x <<< 2) ||| 0b01)
  else u32EncodeTo ((x.setWidth 32 <<< 2) ||| 0b10)

/-- The first three arms of `CompactRef<u32>`, `CompactRef<u64>` and `CompactRef<u128>`, with
the last arm `big`. -/
def compactWideEncodeTo {n : ℕ} (big : BitVec n → Except Halt (List Write)) (x : BitVec n) :
    Except Halt (List Write) :=
  if x.toNat ≤ 0b00111111 then .ok [.pushByte (x.setWidth 8 <<< 2)]
  else if x.toNat ≤ 0b0011111111111111 then
    u16EncodeTo ((x.setWidth 16 <<< 2) ||| 0b01)
  else if x.toNat ≤ 0b00111111111111111111111111111111 then
    u32EncodeTo ((x.setWidth 32 <<< 2) ||| 0b10)
  else big x

/-- `encode_to` of `CompactRef<u32>`. -/
def compactU32EncodeTo : BitVec 32 → Except Halt (List Write) :=
  compactWideEncodeTo fun x => (Write.pushByte 0b11 :: ·) <$> u32EncodeTo x

/-- `encode_to` of `CompactRef<u64>`. -/
def compactU64EncodeTo : BitVec 64 → Except Halt (List Write) :=
  compactWideEncodeTo (compactBigEncodeTo 8)

/-- `encode_to` of `CompactRef<u128>`. -/
def compactU128EncodeTo : BitVec 128 → Except Halt (List Write) :=
  compactWideEncodeTo (compactBigEncodeTo 16)

/-- `CompactRef(&x).encode_to(dest)`. -/
def compactEncodeTo : (w : Width) → w.Val → Except Halt (List Write)
  | .u8 => compactU8EncodeTo
  | .u16 => compactU16EncodeTo
  | .u32 => compactU32EncodeTo
  | .u64 => compactU64EncodeTo
  | .u128 => compactU128EncodeTo

/-- `impl Output for ArrayVecWrapper<N>` : a call past the capacity panics. -/
def arrayVecWrite (capacity : ℕ) (buf : List Byte) (w : Write) : Except Halt (List Byte) :=
  if (buf ++ w.bytes).length ≤ capacity then .ok (buf ++ w.bytes)
  else .error (.panic "assertion failed: new_len <= self.0.capacity()")

/-- The capacity of the stack buffer in `using_encoded`. -/
def Width.bufferCapacity : Width → ℕ
  | u8 => 2
  | u16 => 4
  | u32 => 5
  | u64 => 9
  | u128 => 17

/-- `impl Encode for CompactRef<w>`. -/
def compactRefEncode (w : Width) : Encode w.Val :=
  EncodeImpl.toEncode
    { encodeTo := some (compactEncodeTo w)
      usingEncoded := some fun x => do
        let ws ← compactEncodeTo w x
        ws.foldlM (arrayVecWrite w.bufferCapacity) [] }

/-- `impl Encode for Compact<w>`. -/
def compactEncode (w : Width) : Encode w.Val :=
  (compactRefEncode w).forward id

/-- `CompactLen::compact_len` of `Compact<u64>` and `Compact<u128>`, from `2^30` on. -/
def compactBigLen (size : ℕ) (x : BitVec (8 * size)) : ℕ :=
  size - leadingZeros x / 8 + 1

/-- `CompactLen::compact_len`. -/
def compactLen : (w : Width) → w.Val → ℕ
  | .u8, x => if x.toNat ≤ 0b00111111 then 1 else 2
  | .u16, x =>
    if x.toNat ≤ 0b00111111 then 1 else if x.toNat ≤ 0b0011111111111111 then 2 else 4
  | .u32, x =>
    if x.toNat ≤ 0b00111111 then 1 else if x.toNat ≤ 0b0011111111111111 then 2
    else if x.toNat ≤ 0b00111111111111111111111111111111 then 4 else 5
  | .u64, x =>
    if x.toNat ≤ 0b00111111 then 1 else if x.toNat ≤ 0b0011111111111111 then 2
    else if x.toNat ≤ 0b00111111111111111111111111111111 then 4 else compactBigLen 8 x
  | .u128, x =>
    if x.toNat ≤ 0b00111111 then 1 else if x.toNat ≤ 0b0011111111111111 then 2
    else if x.toNat ≤ 0b00111111111111111111111111111111 then 4 else compactBigLen 16 x

/-! ## `PrefixInput` -/

/-- `Input::read` of `PrefixInput`. The byte put back is taken before the inner read, also if
that read then fails. -/
def prefixRead : (n : ℕ) → Option Byte →
    Prog inputInterface Halt (Except Error (List.Vector Byte n) × Option Byte)
  | 0, pfx => .ret (.ok .nil, pfx)
  | n + 1, some v => .call (.read n) fun r => .ret (r.map (List.Vector.cons v), none)
  | n + 1, none => .call (.read (n + 1)) fun r => .ret (r, none)

/-- `impl Input for PrefixInput`. `read_byte` and the hooks keep their default bodies. -/
def prefixInput (tgt : Target) : Wrapper inputInterface inputInterface Halt (Option Byte)
  | .remainingLen, pfx =>
    .call .remainingLen fun
      | .ok (some len) => .ret (.ok (some (tgt.saturatingAdd len pfx.toList.length)), pfx)
      | .ok none => .ret (.ok none, pfx)
      | .error e => .ret (.error e, pfx)
  | .read n, pfx => prefixRead n pfx
  | .readByte, pfx => do
    let (r, pfx') ← prefixRead 1 pfx
    pure (r.map List.Vector.head, pfx')
  | .descendRef, pfx => .ret (.ok (), pfx)
  | .ascendRef, pfx => .ret ((), pfx)
  | .onBeforeAllocMem _, pfx => .ret (.ok (), pfx)
  | .scaleInternalDecodeBytes, _ => .halt notOverridden
  | .allocate size, pfx => .call (.allocate size) fun u => .ret (u, pfx)

/-- `p(&mut PrefixInput { prefix: Some(b), input })`. -/
def DecodeM.withPrefix {α : Type} (tgt : Target) (b : Byte) (p : DecodeM α) : DecodeM α :=
  .mk (Prod.fst <$> p.run.through (prefixInput tgt) (some b))

/-! ## Decoding -/

namespace DecodeM

/-- `a - b` on `u8`. -/
def u8Sub (a b : ℕ) : DecodeM ℕ :=
  if a < b then panic "attempt to subtract with overflow" else pure (a - b)

/-- `a + b` on `u8`. -/
def u8Add (a b : ℕ) : DecodeM ℕ :=
  if a + b > 255 then panic "attempt to add with overflow" else pure (a + b)

/-- `a * b` on `u8`. -/
def u8Mul (a b : ℕ) : DecodeM ℕ :=
  if a * b > 255 then panic "attempt to multiply with overflow" else pure (a * b)

/-- `x << k`. -/
def shl {n : ℕ} (x : BitVec n) (k : ℕ) : DecodeM (BitVec n) :=
  if k ≥ n then panic "attempt to shift left with overflow" else pure (x <<< k)

/-- `x >> k`. -/
def shr {n : ℕ} (x : BitVec n) (k : ℕ) : DecodeM (BitVec n) :=
  if k ≥ n then panic "attempt to shift right with overflow" else pure (x >>> k)

end DecodeM

/-- `u16::decode`. -/
def u16Decode : DecodeM (BitVec 16) :=
  (primDecode .u16).decode

/-- `u32::decode`. -/
def u32Decode : DecodeM (BitVec 32) :=
  (primDecode .u32).decode

/-- `u16::decode(&mut PrefixInput { prefix: Some(prefix), input })? >> 2`. -/
def prefixedU16 (tgt : Target) (pfx : Byte) : DecodeM (BitVec 16) :=
  (fun x : BitVec 16 => x >>> 2) <$> u16Decode.withPrefix tgt pfx

/-- `u32::decode(&mut PrefixInput { prefix: Some(prefix), input })? >> 2`. -/
def prefixedU32 (tgt : Target) (pfx : Byte) : DecodeM (BitVec 32) :=
  (fun x : BitVec 32 => x >>> 2) <$> u32Decode.withPrefix tgt pfx

/-- `impl Decode for Compact<u8>`. -/
def compactU8Decode (tgt : Target) : DecodeM (BitVec 8) := do
  let pfx ← DecodeM.readByte
  match (pfx % 4).toNat with
  | 0 => pure (pfx >>> 2)
  | 1 =>
    let x ← prefixedU16 tgt pfx
    if x.toNat > 0b00111111 ∧ x.toNat ≤ 255 then pure (x.setWidth 8)
    else DecodeM.err "out of range decoding Compact<u8>"
  | _ => DecodeM.err "unexpected prefix decoding Compact<u8>"

/-- `impl Decode for Compact<u16>`. -/
def compactU16Decode (tgt : Target) : DecodeM (BitVec 16) := do
  let pfx ← DecodeM.readByte
  match (pfx % 4).toNat with
  | 0 => pure (pfx.setWidth 16 >>> 2)
  | 1 =>
    let x ← prefixedU16 tgt pfx
    if x.toNat > 0b00111111 ∧ x.toNat ≤ 0b0011111111111111 then pure x
    else DecodeM.err "out of range decoding Compact<u16>"
  | 2 =>
    let x ← prefixedU32 tgt pfx
    if x.toNat > 0b0011111111111111 ∧ x.toNat < 65536 then pure (x.setWidth 16)
    else DecodeM.err "out of range decoding Compact<u16>"
  | _ => DecodeM.err "unexpected prefix decoding Compact<u16>"

/-- The arms of `Compact<u32>`, `Compact<u64>` and `Compact<u128>`, with the arm `big` for
the mode `0b11`. -/
def compactWideDecode (tgt : Target) {n : ℕ} (outOfRange : String)
    (big : Byte → DecodeM (BitVec n)) : DecodeM (BitVec n) := do
  let pfx ← DecodeM.readByte
  match (pfx % 4).toNat with
  | 0 => pure (pfx.setWidth n >>> 2)
  | 1 =>
    let x ← prefixedU16 tgt pfx
    if x.toNat > 0b00111111 ∧ x.toNat ≤ 0b0011111111111111 then pure (x.setWidth n)
    else DecodeM.err outOfRange
  | 2 =>
    let x ← prefixedU32 tgt pfx
    if x.toNat > 0b0011111111111111 ∧ x.toNat ≤ u32Max >>> 2 then pure (x.setWidth n)
    else DecodeM.err outOfRange
  | 3 => big pfx
  | _ => DecodeM.panic "internal error: entered unreachable code"

/-- Read an integer of type `p`, which must exceed `lo`. -/
def decodeAbove (p : Prim) (n : ℕ) (lo : ℕ) (outOfRange : String) : DecodeM (BitVec n) := do
  let x ← (primDecode p).decode
  if x.toNat > lo then pure (x.setWidth n) else DecodeM.err outOfRange

/-- `impl Decode for Compact<u32>`. -/
def compactU32Decode (tgt : Target) : DecodeM (BitVec 32) :=
  compactWideDecode tgt "out of range decoding Compact<u32>" fun pfx =>
    if (pfx >>> 2).toNat = 0 then
      decodeAbove .u32 32 (u32Max >>> 2) "out of range decoding Compact<u32>"
    else DecodeM.err "out of range decoding Compact<u32>"

/-- `for i in i0..i0 + n { res |= T::from(input.read_byte()?) << (i * 8); }` -/
def orBytes {m : ℕ} : ℕ → ℕ → BitVec m → DecodeM (BitVec m)
  | 0, _, res => pure res
  | n + 1, i, res => do
    let b ← DecodeM.readByte
    let k ← DecodeM.u8Mul i 8
    let x ← DecodeM.shl (b.setWidth m) k
    orBytes n (i + 1) (res ||| x)

/-- The last arm of the mode `0b11` for an integer of `size` bytes : `bytes_needed` bytes, or-ed
together, that do not fit fewer bytes. -/
def decodeBytesNeeded (size bytesNeeded : ℕ) (outOfRange : String) :
    DecodeM (BitVec (8 * size)) := do
  let res ← orBytes bytesNeeded 0 0
  let d ← DecodeM.u8Sub size bytesNeeded
  let d ← DecodeM.u8Add d 1
  let k ← DecodeM.u8Mul d 8
  let bound ← DecodeM.shr (BitVec.allOnes (8 * size)) k
  if res.toNat > bound.toNat then pure res else DecodeM.err outOfRange

/-- `impl Decode for Compact<u64>`. -/
def compactU64Decode (tgt : Target) : DecodeM (BitVec 64) :=
  let outOfRange := "out of range decoding Compact<u64>"
  compactWideDecode tgt outOfRange fun pfx => do
    let x ← DecodeM.u8Add (pfx >>> 2).toNat 4
    if x = 4 then decodeAbove .u32 64 (u32Max >>> 2) outOfRange
    else if x = 8 then decodeAbove .u64 64 ((2 ^ 64 - 1) >>> 8) outOfRange
    else if x > 8 then DecodeM.err "unexpected prefix decoding Compact<u64>"
    else decodeBytesNeeded 8 x outOfRange

/-- `impl Decode for Compact<u128>`. -/
def compactU128Decode (tgt : Target) : DecodeM (BitVec 128) :=
  let outOfRange := "out of range decoding Compact<u128>"
  compactWideDecode tgt outOfRange fun pfx => do
    let x ← DecodeM.u8Add (pfx >>> 2).toNat 4
    if x = 4 then decodeAbove .u32 128 (u32Max >>> 2) outOfRange
    else if x = 8 then decodeAbove .u64 128 ((2 ^ 64 - 1) >>> 8) outOfRange
    else if x = 16 then decodeAbove .u128 128 ((2 ^ 128 - 1) >>> 8) outOfRange
    else if x > 16 then DecodeM.err "unexpected prefix decoding Compact<u128>"
    else decodeBytesNeeded 16 x outOfRange

/-- `Compact::<w>::decode`. -/
def compactDecode (tgt : Target) : (w : Width) → DecodeM w.Val
  | .u8 => compactU8Decode tgt
  | .u16 => compactU16Decode tgt
  | .u32 => compactU32Decode tgt
  | .u64 => compactU64Decode tgt
  | .u128 => compactU128Decode tgt

end ScaleCodec
