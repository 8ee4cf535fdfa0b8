import ScaleCodec.BitSequences
import ScaleCodec.Collections

/-!
# The types of the library

`Ty ν α` describes a type whose values are the `α`, built to any depth from the types the library
implements `Encode` and `Decode` for and from named types, the `i`-th of which has the values
`ν i`. `Ty.encode` and `Ty.decode` put the `impl`s together along the description.

What the compiler and the standard library decide is a `Platform` : the target, the sizes of types
in memory, the order `BinaryHeap::from` leaves and where the ring buffer of a `VecDeque` wraps.
-/

namespace ScaleCodec

/-! ## Compact types -/

/-- The types `T` with a `Compact<T>` : `()`, the unsigned integers, and the types that are
`CompactAs` another. -/
inductive CompactTy : Type → Type 1 where
  | unit : CompactTy Unit
  | uint (w : Width) : CompactTy w.Val
  | as {α σ : Type} (inner : CompactTy σ) (encodeAs : α → σ)
      (decodeFrom : σ → Except Error α) : CompactTy α

/-- `impl Encode for CompactRef<T>`. -/
def CompactTy.refEncode {α : Type} : CompactTy α → Encode α
  | unit => unitEncode
  | uint w => compactRefEncode w
  | as inner encodeAs _ => inner.refEncode.forward encodeAs

/-- `impl Encode for Compact<T>`. -/
def CompactTy.encode {α : Type} (c : CompactTy α) : Encode α :=
  c.refEncode.forward id

/-- `Compact::<T>::decode`. -/
def CompactTy.decode {α : Type} (tgt : Target) : CompactTy α → DecodeM α
  | unit => pure ()
  | uint w => compactDecode tgt w
  | as inner _ decodeFrom => do
    let x ← inner.decode tgt
    match decodeFrom x with
    | .ok a => pure a
    | .error e => throw e

theorem CompactTy.refEncode_lawful : ∀ {α : Type} (c : CompactTy α), c.refEncode.Lawful
  | _, .unit => unitEncode_lawful
  | _, .uint w => compactRefEncode_lawful w
  | _, .as inner encodeAs _ => (refEncode_lawful inner).forward encodeAs

/-! ## Types -/

/-- A type of the library over the named types `ν`. A tuple of more than two components is a
pair of its first component and the rest. -/
inductive Ty {ι : Type} (ν : ι → Type) : Type → Type 1 where
  | prim (p : Prim) : Ty ν p.Val
  | bool : Ty ν Bool
  | nonZero (p : Prim) (h : p.isInt) : Ty ν (NonZero p)
  | unit : Ty ν Unit
  | phantomData : Ty ν Unit
  | option {α : Type} (t : Ty ν α) : Ty ν (Option α)
  | optionBool : Ty ν OptionBool
  | result {α ε : Type} (t : Ty ν α) (e : Ty ν ε) : Ty ν (Except ε α)
  | tuple1 {α : Type} (t : Ty ν α) : Ty ν α
  | pair {α β : Type} (t : Ty ν α) (u : Ty ν β) : Ty ν (α × β)
  | array {α : Type} (n : ℕ) (t : Ty ν α) : Ty ν (List.Vector α n)
  | genericArray {α : Type} (n : ℕ) (t : Ty ν α) : Ty ν (List.Vector α n)
  | vec {α : Type} (t : Ty ν α) : Ty ν (List α)
  | vecDeque {α : Type} (t : Ty ν α) : Ty ν (List α)
  | linkedList {α : Type} (t : Ty ν α) : Ty ν (List α)
  | btreeMap {κ υ : Type} (ord : LinearOrder κ) (k : Ty ν κ) (v : Ty ν υ) : Ty ν (BTreeMap κ υ)
  | btreeSet {κ : Type} (ord : LinearOrder κ) (k : Ty ν κ) : Ty ν (BTreeSet κ)
  | binaryHeap {α : Type} (ord : LinearOrder α) (t : Ty ν α) : Ty ν (BinaryHeap α)
  | string : Ty ν String
  | box {α : Type} (t : Ty ν α) : Ty ν α
  | rc {α : Type} (t : Ty ν α) : Ty ν α
  | arc {α : Type} (t : Ty ν α) : Ty ν α
  | cow {α : Type} (t : Ty ν α) : Ty ν α
  | duration : Ty ν Duration
  | range {α : Type} (t : Ty ν α) : Ty ν (Range α)
  | rangeInclusive {α : Type} (t : Ty ν α) : Ty ν (RangeInclusive α)
  | compact {α : Type} (c : CompactTy α) : Ty ν α
  | bytes : Ty ν (List Prim.u8.Val)
  | bitVec (st : BitStore) (o : BitOrder) : Ty ν (List Bool)
  | bitBox (st : BitStore) (o : BitOrder) : Ty ν (List Bool)
  | named (i : ι) : Ty ν (ν i)

/-- The choices of the compiler and the standard library. -/
structure Platform {ι : Type} (ν : ι → Type) where
  target : Target
  /-- `mem::size_of::<T>()`. -/
  size : {α : Type} → Ty ν α → ℕ
  size_prim : ∀ p, size (.prim p) = p.size
  size_bool : size .bool = 1
  size_nonZero : ∀ p h, size (.nonZero p h) = p.size
  size_unit : size .unit = 0
  size_phantomData : size .phantomData = 0
  /-- `mem::size_of::<(usize, usize, T)>()`. -/
  listNodeSize : {α : Type} → Ty ν α → ℕ
  /-- `mem::size_of::<(usize, u16, u16, [T; 11])>()`. -/
  leafNodeSize : {α : Type} → Ty ν α → ℕ
  /-- Where `VecDeque::as_slices` cuts the contents. -/
  split : {α : Type} → List α → ℕ
  /-- The order in which `BinaryHeap::from` leaves a vector. -/
  heapify : {α : Type} → LinearOrder α → List α → List α
  heapify_perm : ∀ {α : Type} (ord : LinearOrder α) (l : List α), (heapify ord l).Perm l

/-- The bytes of a type on a 64-bit target, padding and niches left out. -/
def Ty.unpaddedSize {ι : Type} {ν : ι → Type} {α : Type} : Ty ν α → ℕ
  | prim p | nonZero p _ => p.size
  | bool | optionBool => 1
  | unit | phantomData | compact _ | named _ => 0
  | option t | tuple1 t => t.unpaddedSize
  | result t e | pair t e => t.unpaddedSize + e.unpaddedSize
  | array n t | genericArray n t => n * t.unpaddedSize
  | vec _ | linkedList _ | btreeMap _ _ _ | btreeSet _ _ | binaryHeap _ _ | string | cow _
  | bitVec _ _ => 24
  | vecDeque _ | bytes => 32
  | box _ | rc _ | arc _ => 8
  | duration | bitBox _ _ => 16
  | range t => 2 * t.unpaddedSize
  | rangeInclusive t => 2 * t.unpaddedSize + 1

/-- A 64-bit little-endian target with these sizes, where `as_slices` does not cut and vectors
are taken as heaps as they are. -/
def Platform.unpadded {ι : Type} (ν : ι → Type) : Platform ν where
  target := ⟨.w64, true⟩
  size := Ty.unpaddedSize
  size_prim _ := rfl
  size_bool := rfl
  size_nonZero _ _ := rfl
  size_unit := rfl
  size_phantomData := rfl
  listNodeSize t := 16 + t.unpaddedSize
  leafNodeSize t := 12 + 11 * t.unpaddedSize
  split l := l.length
  heapify _ l := l
  heapify_perm _ l := List.Perm.refl l

namespace Ty

variable {ι : Type} {ν : ι → Type}

/-- `impl Encode` of a type, given those of the named types. -/
def encode (P : Platform ν) (env : ∀ i, Encode (ν i)) {α : Type} : Ty ν α → Encode α
  | prim p => primEncode p
  | bool => boolEncode
  | nonZero p _ => nonZeroEncode p
  | unit => unitEncode
  | phantomData => phantomDataEncode
  | option t => optionEncode (t.encode P env)
  | optionBool => optionBoolEncode
  | result t e => resultEncode (t.encode P env) (e.encode P env)
  | tuple1 t => (t.encode P env).forward id
  | pair t u => pairEncode (t.encode P env) (u.encode P env)
  | array n t => arrayEncode P.target n (t.encode P env)
  | genericArray n t => genericArrayEncode n (t.encode P env)
  | vec t => vecEncode P.target (t.encode P env)
  | vecDeque t => vecDequeEncode P.target P.split (t.encode P env)
  | linkedList t => linkedListEncode (t.encode P env)
  | btreeMap _ k v => btreeMapEncode (k.encode P env) (v.encode P env)
  | btreeSet _ k => btreeSetEncode (k.encode P env)
  | binaryHeap _ t => binaryHeapEncode (t.encode P env)
  | string => stringEncode P.target
  | box t => (t.encode P env).forward id
  | rc t => (t.encode P env).forward id
  | arc t => (t.encode P env).forward id
  | cow t => (t.encode P env).forward id
  | duration => durationEncode
  | range t => rangeEncode (t.encode P env)
  | rangeInclusive t => rangeInclusiveEncode (t.encode P env)
  | compact c => c.encode
  | bytes => (sliceEncode P.target (primEncode .u8)).forward id
  | bitVec st o => bitSliceEncode st o
  | bitBox st o => bitSliceEncode st o
  | named i => env i

/-- `impl Decode` of a type, given those of the named types and the body `internal` of
`scale_internal_decode_bytes` of the input. -/
def decodeWith (P : Platform ν) (internal : DecodeM (List Prim.u8.Val)) (env : ∀ i, Decode (ν i))
    {α : Type} : Ty ν α → Decode α
  | prim p => primDecode p
  | bool => boolDecode
  | nonZero p _ => nonZeroDecode p
  | unit => unitDecode
  | phantomData => unitDecode
  | option t => optionDecode (P.size (option t)) (t.decodeWith P internal env)
  | optionBool => optionBoolDecode (P.size optionBool)
  | result t e =>
    resultDecode (P.size (result t e)) (t.decodeWith P internal env) (e.decodeWith P internal env)
  | tuple1 t => Decode.ofDecode (P.size (tuple1 t)) (t.decodeWith P internal env).decode
  | pair t u =>
    pairDecode (P.size (pair t u)) (t.decodeWith P internal env) (u.decodeWith P internal env)
  | array n t => arrayDecode P.target n (P.size (array n t)) (t.decodeWith P internal env)
  | genericArray n t =>
    genericArrayDecode n (P.size (genericArray n t)) (t.decodeWith P internal env)
  | vec t => vecDecode P.target (P.size (vec t)) (t.decodeWith P internal env)
  | vecDeque t =>
    vecDequeDecode P.target (P.size (vecDeque t)) (P.size (vec t)) (t.decodeWith P internal env)
  | linkedList t =>
    linkedListDecode P.target (P.size (linkedList t)) (P.listNodeSize t)
      (t.decodeWith P internal env)
  | btreeMap ord k v =>
    btreeMapDecode P.target (P.size (btreeMap ord k v)) (P.leafNodeSize (pair k v))
      (pairDecode (P.size (pair k v)) (k.decodeWith P internal env) (v.decodeWith P internal env))
  | btreeSet ord k =>
    btreeSetDecode P.target (P.size (btreeSet ord k)) (P.leafNodeSize k)
      (k.decodeWith P internal env)
  | binaryHeap ord t =>
    binaryHeapDecode P.target (P.size (binaryHeap ord t)) (P.size (vec t)) (P.heapify ord)
      (t.decodeWith P internal env)
  | string => stringDecode P.target (P.size string) (P.size (vec (prim .u8)))
  | box t => boxDecode (P.size (box t)) (t.decodeWith P internal env)
  | rc t => rcDecode (P.size (rc t)) (P.size (box t)) (t.decodeWith P internal env)
  | arc t => rcDecode (P.size (arc t)) (P.size (box t)) (t.decodeWith P internal env)
  | cow t => Decode.ofDecode (P.size (cow t)) (t.decodeWith P internal env).decode
  | duration =>
    durationDecode (P.size duration) (P.size (pair (prim .u64) (prim .u32)))
  | range t => rangeDecode (P.size (range t)) (P.size (pair t t)) (t.decodeWith P internal env)
  | rangeInclusive t =>
    rangeInclusiveDecode (P.size (rangeInclusive t)) (P.size (pair t t))
      (t.decodeWith P internal env)
  | compact c => Decode.ofDecode (P.size (compact c)) (c.decode P.target)
  | bytes => Decode.ofDecode (P.size bytes) internal
  | bitVec st o => bitVecDecode P.target (P.size (bitVec st o)) st o
  | bitBox st o =>
    bitBoxDecode P.target (P.size (bitBox st o)) (P.size (bitVec st o)) st o
  | named i => env i

/-- `impl Decode` of a type for an input that keeps the default `scale_internal_decode_bytes`,
which decodes a `Vec<u8>`. -/
abbrev decode (P : Platform ν) (env : ∀ i, Decode (ν i)) {α : Type} (t : Ty ν α) : Decode α :=
  t.decodeWith P
    (vecDecode P.target (P.size (vec (prim .u8))) (primDecode .u8)).decode env

/-! ## Sizes and laws -/

section Laws

variable {P : Platform ν} {internal : DecodeM (List Prim.u8.Val)} {α : Type}

/-- The size in the `impl` is that of the type. -/
theorem size_decodeWith {env : ∀ i, Decode (ν i)} (henv : ∀ i, (env i).size = P.size (named i))
    (t : Ty ν α) : (t.decodeWith P internal env).size = P.size t := by
  cases t with
  | prim p => exact (P.size_prim p).symm
  | bool => exact P.size_bool.symm
  | nonZero p h => exact (P.size_nonZero p h).symm
  | unit => exact P.size_unit.symm
  | phantomData => exact P.size_phantomData.symm
  | named i => exact henv i
  | _ => rfl

/-- The methods of every `impl Encode` agree. -/
theorem encode_lawful {env : ∀ i, Encode (ν i)} (henv : ∀ i, (env i).Lawful) (t : Ty ν α) :
    (t.encode P env).Lawful := by
  induction t with
  | prim p => exact primEncode_lawful p
  | bool => exact boolEncode_lawful
  | nonZero p _ => exact (primEncode_lawful p).forward _
  | unit => exact unitEncode_lawful
  | optionBool => exact EncodeImpl.lawful_usingEncoded _
  | tuple1 t ih => exact ih.forward _
  | vec t => exact vecEncode_lawful
  | string => exact (sliceEncode_lawful.forward _).forward _
  | box t ih => exact ih.forward _
  | rc t ih => exact ih.forward _
  | arc t ih => exact ih.forward _
  | cow t ih => exact ih.forward _
  | duration => exact EncodeImpl.lawful_encode _
  | range t => exact EncodeImpl.lawful_encode _
  | rangeInclusive t => exact EncodeImpl.lawful_encode _
  | compact c => exact (CompactTy.refEncode_lawful c).forward _
  | bytes => exact sliceEncode_lawful.forward _
  | named i => exact henv i
  | _ => exact EncodeImpl.lawful_encodeTo _

/-- The methods of every `impl Decode` accept the same bytes. -/
theorem decodeWith_lawful {env : ∀ i, Decode (ν i)} (henv : ∀ i, (env i).Lawful) (t : Ty ν α) :
    (t.decodeWith P internal env).Lawful := by
  induction t with
  | prim p => exact primDecode_lawful p
  | bool => exact boolDecode_lawful
  | array n t ih => exact arrayDecode_lawful ih
  | named i => exact henv i
  | _ => exact Decode.lawful_ofDecode

end Laws

/-- The types that pass the assertion of `decode_vec_chunked` : an item of a vector takes at
most `MAX_PREALLOCATION` bytes. -/
def Compiles (P : Platform ν) {α : Type} : Ty ν α → Prop
  | option t | tuple1 t | array _ t | genericArray _ t | linkedList t | box t | rc t | arc t
  | cow t | range t | rangeInclusive t => t.Compiles P
  | result t e => t.Compiles P ∧ e.Compiles P
  | pair t u => t.Compiles P ∧ u.Compiles P
  | vec t | vecDeque t | binaryHeap _ t => P.size t ≤ maxPreallocation ∧ t.Compiles P
  | btreeMap _ k v => k.Compiles P ∧ v.Compiles P
  | btreeSet _ k => k.Compiles P
  | _ => True

end Ty

end ScaleCodec
