import ScaleCodec.RoundTrip

/-!
# Types that are encoded alike

`T: EncodeLike<U>` promises that the encoding of a `T` is that of a `U`. Nothing checks the
promise; the `impl`s make it for pointers and what they point to, for the sequences, for the
collections and the slices of their items, and element-wise.

`RefTy ν α` describes the types the `impl`s are about, which unlike those of `Ty` may hold
references. A value is decoded as the owned form of a type (`RefTy.owned`). A term of
`EncodeLike t u` is a chain of `impl`s that ends in `T: EncodeLike<U>`, and `EncodeLike.conv` is
the `U` that corresponds to a `T` along the chain.

The encoding of a `T` decodes to that `U` (`EncodeLike.roundTrips`), but for the exhausted
`RangeInclusive`s in it. So the promise is kept for exactly the values without one
(`EncodeLike.decode_encode_iff`).
-/

namespace ScaleCodec

variable {ι : Type} {ν : ι → Type} {α β γ δ κ κ' υ υ' : Type}

/-! ## Values that can be encoded -/

/-- What every encoded value has, the values in it have too. -/
theorem Ty.every_of_encodes {P : Platform ν} {env : ∀ i, Encode (ν i)}
    (henv : ∀ i, (env i).Lawful) {p : ∀ β : Type, Ty ν β → β → Prop}
    (hp : ∀ {β : Type} (t : Ty ν β) {v : β} {bs : List Byte},
      Encodes (t.encode P env) v bs → p β t v)
    {t : Ty ν α} {v : α} {bs : List Byte} (h : Encodes (t.encode P env) v bs) :
    t.Every p v := by
  have law : ∀ {β : Type} (u : Ty ν β), (u.encode P env).Lawful := encode_lawful henv
  have items : ∀ {β : Type} {E : Encode β} {q : β → Prop} {as : List β} {bs : List Byte},
      (∀ a bs, Encodes E a bs → q a) → EncodesList E as bs → ∀ a ∈ as, q a := by
    intro β E q as bs hq has a ha
    obtain ⟨b, hb⟩ := exists_encodes_of_mem has a ha
    exact hq a b hb
  have pairs : ∀ {β γ : Type} {t : Ty ν β} {u : Ty ν γ},
      (∀ {v bs}, Encodes (t.encode P env) v bs → t.Every p v) →
      (∀ {v bs}, Encodes (u.encode P env) v bs → u.Every p v) → ∀ v bs,
      Encodes (pairEncode (t.encode P env) (u.encode P env)) v bs →
        t.Every p v.1 ∧ u.Every p v.2 := by
    intro β γ t u iht ihu v bs h
    obtain ⟨b, c, hb, hc, -⟩ := (encodes_pairEncode (law t) (law u)).mp h
    exact ⟨iht hb, ihu hc⟩
  have hv := hp t h
  induction t generalizing bs with
  | option t ih =>
    refine ⟨hv, ?_⟩
    rintro a rfl
    obtain ⟨c, hc, -⟩ := (encodes_optionEncode_some (law t)).mp h
    exact ih hc (hp t hc)
  | result t e iht ihe =>
    refine ⟨hv, ?_⟩
    cases v with
    | ok a =>
      obtain ⟨c, hc, -⟩ := (encodes_resultEncode_ok (law t)).mp h
      exact iht hc (hp t hc)
    | error b =>
      obtain ⟨c, hc, -⟩ := (encodes_resultEncode_error (law e)).mp h
      exact ihe hc (hp e hc)
  | tuple1 t ih | box t ih | rc t ih | arc t ih | cow t ih => exact ⟨hv, ih h (hp t h)⟩
  | pair t u iht ihu =>
    exact ⟨hv, pairs (fun h => iht h (hp t h)) (fun h => ihu h (hp u h)) v bs h⟩
  | array n t ih =>
    exact ⟨hv, items (fun a b hb => ih hb (hp t hb)) ((encodes_arrayEncode (law t)).mp h)⟩
  | genericArray n t ih =>
    exact ⟨hv, items (fun a b hb => ih hb (hp t hb)) ((encodes_genericArrayEncode (law t)).mp h)⟩
  | vec t ih =>
    obtain ⟨-, c, hc, -⟩ := (encodes_vecEncode (law t)).mp h
    exact ⟨hv, items (fun a b hb => ih hb (hp t hb)) hc⟩
  | vecDeque t ih =>
    obtain ⟨-, c, hc, -⟩ := (encodes_vecEncode (law t)).mp ((encodes_vecDequeEncode (law t)).mp h)
    exact ⟨hv, items (fun a b hb => ih hb (hp t hb)) hc⟩
  | linkedList t ih | btreeSet _ t ih | binaryHeap _ t ih =>
    obtain ⟨-, c, hc, -⟩ := (encodes_collectionEncode (law t)).mp h
    exact ⟨hv, items (fun a b hb => ih hb (hp t hb)) hc⟩
  | btreeMap _ k u ihk ihu =>
    obtain ⟨-, c, hc, -⟩ := (encodes_collectionEncode pairEncode_lawful).mp h
    exact ⟨hv, items (pairs (fun h => ihk h (hp k h)) fun h => ihu h (hp u h)) hc⟩
  | range t ih | rangeInclusive t ih =>
    exact ⟨hv, pairs (fun h => ih h (hp t h)) (fun h => ih h (hp t h)) (v.start, v.end) bs h⟩
  | _ => exact hv

theorem Ty.fewBits_of_encodes {P : Platform ν} {env : ∀ i, Encode (ν i)}
    (henv : ∀ i, (env i).Lawful) {t : Ty ν α} {v : α} {bs : List Byte}
    (h : Encodes (t.encode P env) v bs) : t.FewBits v := by
  refine every_of_encodes henv (fun t v bs h => ?_) h
  cases t with
  | bitVec | bitBox => exact (encodes_bitSliceEncode.mp h).1
  | _ => trivial

/-! ## Types with references -/

/-- The types that point to a value and are encoded as the value. -/
inductive Pointer where
  | box | rc | arc | cow | ref | refMut
deriving DecidableEq, Repr

/-- The types that are not made of other types, and those of declarations. All are `EncodeLike`
themselves. -/
def Ty.Leaf {α : Type} : Ty ν α → Prop
  | prim _ | bool | nonZero _ _ | unit | phantomData | optionBool | string | duration | compact _
  | bytes | bitVec _ _ | bitBox _ _ | named _ => True
  | _ => False

/-- A type that may hold references. `str` and `slice` are the types without a size, which stand
behind a pointer. `likeRef t u` is `Ref<T, U>`. -/
inductive RefTy {ι : Type} (ν : ι → Type) : Type → Type 1 where
  | leaf {α : Type} (t : Ty ν α) (h : t.Leaf) : RefTy ν α
  | str : RefTy ν String
  | slice {α : Type} (t : RefTy ν α) : RefTy ν (List α)
  | compactRef {α : Type} (c : CompactTy α) : RefTy ν α
  | option {α : Type} (t : RefTy ν α) : RefTy ν (Option α)
  | result {α ε : Type} (t : RefTy ν α) (e : RefTy ν ε) : RefTy ν (Except ε α)
  | tuple1 {α : Type} (t : RefTy ν α) : RefTy ν α
  | pair {α β : Type} (t : RefTy ν α) (u : RefTy ν β) : RefTy ν (α × β)
  | array {α : Type} (n : ℕ) (t : RefTy ν α) : RefTy ν (List.Vector α n)
  | genericArray {α : Type} (n : ℕ) (t : RefTy ν α) : RefTy ν (List.Vector α n)
  | vec {α : Type} (t : RefTy ν α) : RefTy ν (List α)
  | vecDeque {α : Type} (t : RefTy ν α) : RefTy ν (List α)
  | linkedList {α : Type} (t : RefTy ν α) : RefTy ν (List α)
  | btreeMap {κ υ : Type} (ord : LinearOrder κ) (k : RefTy ν κ) (v : RefTy ν υ) :
      RefTy ν (BTreeMap κ υ)
  | btreeSet {κ : Type} (ord : LinearOrder κ) (k : RefTy ν κ) : RefTy ν (BTreeSet κ)
  | binaryHeap {α : Type} (ord : LinearOrder α) (t : RefTy ν α) : RefTy ν (BinaryHeap α)
  | ptr {α : Type} (k : Pointer) (t : RefTy ν α) : RefTy ν α
  | likeRef {α β : Type} (t : RefTy ν α) (u : RefTy ν β) : RefTy ν α
  | range {α : Type} (t : RefTy ν α) : RefTy ν (Range α)
  | rangeInclusive {α : Type} (t : RefTy ν α) : RefTy ν (RangeInclusive α)

namespace RefTy

/-- `T: Sized`. -/
def Sized : RefTy ν α → Prop
  | str | slice _ => False
  | _ => True

/-- `String`. -/
abbrev string : RefTy ν String :=
  leaf .string trivial

/-- `bytes::Bytes`. -/
abbrev bytes : RefTy ν (List Prim.u8.Val) :=
  leaf .bytes trivial

/-- A primitive type. -/
abbrev prim (p : Prim) : RefTy ν p.Val :=
  leaf (.prim p) trivial

/-- `&[T]`. -/
abbrev refSlice (t : RefTy ν α) : RefTy ν (List α) :=
  ptr .ref (slice t)

/-- `impl Encode` of a type, given those of the named types. -/
def encode (P : Platform ν) (env : ∀ i, Encode (ν i)) {α : Type} : RefTy ν α → Encode α
  | leaf t _ => t.encode P env
  | str => strEncode P.target
  | slice t => sliceEncode P.target (t.encode P env)
  | compactRef c => c.refEncode
  | option t => optionEncode (t.encode P env)
  | result t e => resultEncode (t.encode P env) (e.encode P env)
  | tuple1 t => (t.encode P env).forward id
  | pair t u => pairEncode (t.encode P env) (u.encode P env)
  | array n t => arrayEncode P.target n (t.encode P env)
  | genericArray n t => genericArrayEncode n (t.encode P env)
  | vec t => vecEncode P.target (t.encode P env)
  | vecDeque t => vecDequeEncode P.target P.split (t.encode P env)
  | linkedList t => linkedListEncode (t.encode P env)
  | btreeMap _ k v => btreeMapEncode (k.encode P env) (v.encode P env)
  | btreeSet _ k => btreeSetEncode (k.encode P env)
  | binaryHeap _ t => binaryHeapEncode (t.encode P env)
  | ptr _ t => (t.encode P env).forward id
  | likeRef t _ => (t.encode P env).forward id
  | range t => rangeEncode (t.encode P env)
  | rangeInclusive t => rangeInclusiveEncode (t.encode P env)

/-- The type without references that has the values of the type. -/
def owned {α : Type} : RefTy ν α → Ty ν α
  | leaf t _ => t
  | str => .string
  | slice t => .vec t.owned
  | compactRef c => .compact c
  | option t => .option t.owned
  | result t e => .result t.owned e.owned
  | tuple1 t => .tuple1 t.owned
  | pair t u => .pair t.owned u.owned
  | array n t => .array n t.owned
  | genericArray n t => .genericArray n t.owned
  | vec t => .vec t.owned
  | vecDeque t => .vecDeque t.owned
  | linkedList t => .linkedList t.owned
  | btreeMap ord k v => .btreeMap ord k.owned v.owned
  | btreeSet ord k => .btreeSet ord k.owned
  | binaryHeap ord t => .binaryHeap ord t.owned
  | ptr .box t => .box t.owned
  | ptr .rc t => .rc t.owned
  | ptr .arc t => .arc t.owned
  | ptr .cow t => .cow t.owned
  | ptr .ref t | ptr .refMut t | likeRef t _ => t.owned
  | range t => .range t.owned
  | rangeInclusive t => .rangeInclusive t.owned

section

variable {P : Platform ν} {env : ∀ i, Encode (ν i)} {bs : List Byte}

theorem encode_lawful (henv : ∀ i, (env i).Lawful) (t : RefTy ν α) : (t.encode P env).Lawful := by
  induction t with
  | leaf t _ => exact t.encode_lawful henv
  | str => exact sliceEncode_lawful.forward _
  | slice t => exact sliceEncode_lawful
  | compactRef c => exact c.refEncode_lawful
  | tuple1 t ih | ptr _ t ih | likeRef t _ ih => exact ih.forward _
  | vec t => exact vecEncode_lawful
  | range t | rangeInclusive t => exact EncodeImpl.lawful_encode _
  | _ => exact EncodeImpl.lawful_encodeTo _

theorem encodesList_congr {E F : Encode α} (h : ∀ a bs, Encodes E a bs ↔ Encodes F a bs) :
    ∀ {as : List α} {bs : List Byte}, EncodesList E as bs ↔ EncodesList F as bs
  | [], _ => Iff.rfl
  | a :: as, _ => by simp only [EncodesList, h, encodesList_congr h]

theorem encodes_vec_congr {tgt : Target} {E F : Encode α} (hE : E.Lawful) (hF : F.Lawful)
    (h : ∀ a bs, Encodes E a bs ↔ Encodes F a bs) {v : List α} :
    Encodes (vecEncode tgt E) v bs ↔ Encodes (vecEncode tgt F) v bs := by
  simp only [encodes_vecEncode hE, encodes_vecEncode hF, encodesList_congr h]

theorem encodes_collection_congr {E F : Encode α} (hE : E.Lawful) (hF : F.Lawful)
    (h : ∀ a bs, Encodes E a bs ↔ Encodes F a bs) {iter : γ → List α} {v : γ} :
    Encodes (collectionEncode E iter) v bs ↔ Encodes (collectionEncode F iter) v bs := by
  simp only [encodes_collectionEncode hE, encodes_collectionEncode hF, encodesList_congr h]

theorem encodes_pair_congr {E E' : Encode α} {F F' : Encode β} (hE : E.Lawful) (hF : F.Lawful)
    (hE' : E'.Lawful) (hF' : F'.Lawful) (h : ∀ a bs, Encodes E a bs ↔ Encodes E' a bs)
    (h' : ∀ b bs, Encodes F b bs ↔ Encodes F' b bs) {v : α × β} :
    Encodes (pairEncode E F) v bs ↔ Encodes (pairEncode E' F') v bs := by
  simp only [encodes_pairEncode hE hF, encodes_pairEncode hE' hF', h, h']

/-- A type is encoded as its owned form is. -/
theorem encodes_owned (henv : ∀ i, (env i).Lawful) (t : RefTy ν α) (v : α) (bs : List Byte) :
    Encodes (t.owned.encode P env) v bs ↔ Encodes (t.encode P env) v bs := by
  have law : ∀ {β : Type} (u : RefTy ν β), (u.encode P env).Lawful := encode_lawful henv
  have law' : ∀ {β : Type} (u : RefTy ν β), (u.owned.encode P env).Lawful :=
    fun u => u.owned.encode_lawful henv
  have pairs : ∀ {β γ : Type} {t : RefTy ν β} {u : RefTy ν γ},
      (∀ a bs, Encodes (t.owned.encode P env) a bs ↔ Encodes (t.encode P env) a bs) →
      (∀ b bs, Encodes (u.owned.encode P env) b bs ↔ Encodes (u.encode P env) b bs) →
      ∀ v bs, Encodes (pairEncode (t.owned.encode P env) (u.owned.encode P env)) v bs ↔
        Encodes (pairEncode (t.encode P env) (u.encode P env)) v bs :=
    fun iht ihu _ _ => encodes_pair_congr (law' _) (law' _) (law _) (law _) iht ihu
  induction t generalizing bs with
  | leaf | str | compactRef => exact Iff.rfl
  | option t ih =>
    cases v with
    | none => exact encodes_optionEncode_none.trans encodes_optionEncode_none.symm
    | some a =>
      exact (encodes_optionEncode_some (law' t)).trans
        ((exists_congr fun b => and_congr_left' (ih a b)).trans
          (encodes_optionEncode_some (law t)).symm)
  | result t e iht ihe =>
    cases v with
    | ok a =>
      exact (encodes_resultEncode_ok (law' t)).trans
        ((exists_congr fun b => and_congr_left' (iht a b)).trans
          (encodes_resultEncode_ok (law t)).symm)
    | error a =>
      exact (encodes_resultEncode_error (law' e)).trans
        ((exists_congr fun b => and_congr_left' (ihe a b)).trans
          (encodes_resultEncode_error (law e)).symm)
  | tuple1 t ih | likeRef t _ ih => exact ih v bs
  | ptr k t ih => cases k <;> exact ih v bs
  | pair t u iht ihu => exact pairs iht ihu v bs
  | array n t ih =>
    exact (encodes_arrayEncode (law' t)).trans
      ((encodesList_congr ih).trans (encodes_arrayEncode (law t)).symm)
  | genericArray n t ih =>
    exact (encodes_genericArrayEncode (law' t)).trans
      ((encodesList_congr ih).trans (encodes_genericArrayEncode (law t)).symm)
  | slice t ih | vec t ih => exact encodes_vec_congr (law' t) (law t) ih
  | vecDeque t ih =>
    exact (encodes_vecDequeEncode (law' t)).trans
      ((encodes_vec_congr (law' t) (law t) ih).trans (encodes_vecDequeEncode (law t)).symm)
  | linkedList t ih | btreeSet _ t ih | binaryHeap _ t ih =>
    exact encodes_collection_congr (law' t) (law t) ih
  | btreeMap _ k u ihk ihu =>
    exact encodes_collection_congr pairEncode_lawful pairEncode_lawful (pairs ihk ihu)
  | range t ih =>
    exact encodes_rangeEncode.trans ((pairs ih ih _ bs).trans encodes_rangeEncode.symm)
  | rangeInclusive t ih =>
    exact encodes_rangeInclusiveEncode.trans
      ((pairs ih ih _ bs).trans encodes_rangeInclusiveEncode.symm)

end

end RefTy

/-! ## `EncodeLike` -/

/-- The sequences that are encoded like each other. -/
inductive Sequence where
  | vec | slice | vecDeque
deriving DecidableEq, Repr

/-- `Vec<T>`, `&[T]` or `VecDeque<T>`. -/
def Sequence.of {α : Type} : Sequence → RefTy ν α → RefTy ν (List α)
  | vec, t => .vec t
  | slice, t => .refSlice t
  | vecDeque, t => .vecDeque t

/-- The `impl`s between types with the same values. -/
inductive Alike {ι : Type} {ν : ι → Type} : {α : Type} → RefTy ν α → RefTy ν α → Prop
  | leaf {α : Type} (t : Ty ν α) (h : t.Leaf) : Alike (.leaf t h) (.leaf t h)
  | compactRef {α : Type} (c : CompactTy α) : Alike (.compactRef c) (.compactRef c)
  | vecDeque {α : Type} (t : RefTy ν α) : Alike (.vecDeque t) (.vecDeque t)
  | genericArray {α : Type} (n : ℕ) (t : RefTy ν α) :
      Alike (.genericArray n t) (.genericArray n t)
  | ptr {α : Type} (k : Pointer) (t : RefTy ν α) : Alike (.ptr k t) (.ptr k t)
  | ptrContent {α : Type} (k : Pointer) {t : RefTy ν α} (h : t.Sized) : Alike (.ptr k t) t
  | contentPtr {α : Type} (k : Pointer) {t : RefTy ν α} (h : t.Sized) : Alike t (.ptr k t)
  | refRefContent {α : Type} {t : RefTy ν α} (h : t.Sized) : Alike (.ptr .ref (.ptr .ref t)) t
  | contentRefRef {α : Type} {t : RefTy ν α} (h : t.Sized) : Alike t (.ptr .ref (.ptr .ref t))
  | stringStr : Alike .string (.ptr .ref .str)
  | strString : Alike (.ptr .ref .str) .string
  | bytesSlice : Alike .bytes (.refSlice (.prim .u8))
  | bytesVec : Alike .bytes (.vec (.prim .u8))
  | sliceBytes : Alike (.refSlice (.prim .u8)) .bytes
  | vecBytes : Alike (.vec (.prim .u8)) .bytes

/-- The chains of `impl`s that end in `T: EncodeLike<U>`. -/
inductive EncodeLike {ι : Type} {ν : ι → Type} :
    {α β : Type} → RefTy ν α → RefTy ν β → Type 1
  | alike {α : Type} {t u : RefTy ν α} (h : Alike t u) : EncodeLike t u
  | likeRef {α β : Type} {t : RefTy ν α} {u : RefTy ν β} (d : EncodeLike t u) :
      EncodeLike (.likeRef t u) u
  | refLikeRef {α β : Type} {t : RefTy ν α} {u : RefTy ν β} (d : EncodeLike t u) :
      EncodeLike (.ptr .ref (.likeRef t u)) u
  | option {α β : Type} {t : RefTy ν α} {u : RefTy ν β} (d : EncodeLike t u) :
      EncodeLike (.option t) (.option u)
  | result {α β ε ε' : Type} {t : RefTy ν α} {u : RefTy ν β} {e : RefTy ν ε} {f : RefTy ν ε'}
      (d : EncodeLike t u) (d' : EncodeLike e f) : EncodeLike (.result t e) (.result u f)
  | tuple1 {α β : Type} {t : RefTy ν α} {u : RefTy ν β} (d : EncodeLike t u) :
      EncodeLike (.tuple1 t) (.tuple1 u)
  | pair {α α' β β' : Type} {t : RefTy ν α} {t' : RefTy ν α'} {u : RefTy ν β} {u' : RefTy ν β'}
      (d : EncodeLike t u) (d' : EncodeLike t' u') : EncodeLike (.pair t t') (.pair u u')
  | array {α β : Type} (n : ℕ) {t : RefTy ν α} {u : RefTy ν β} (d : EncodeLike t u) :
      EncodeLike (.array n t) (.array n u)
  | sequence {α β : Type} {t : RefTy ν α} {u : RefTy ν β} (k l : Sequence)
      (h : k ≠ l ∨ k = .vec) (d : EncodeLike t u) : EncodeLike (k.of t) (l.of u)
  | linkedList {α β : Type} {t : RefTy ν α} {u : RefTy ν β} (d : EncodeLike t u) :
      EncodeLike (.linkedList t) (.linkedList u)
  | linkedListSlice {α β : Type} {t : RefTy ν α} {u : RefTy ν β} (d : EncodeLike t u) :
      EncodeLike (.linkedList t) (.refSlice (.tuple1 u))
  | sliceLinkedList {α β : Type} {t : RefTy ν α} {u : RefTy ν β} (d : EncodeLike t u) :
      EncodeLike (.refSlice (.tuple1 t)) (.linkedList u)
  | btreeSet {α β : Type} (ord : LinearOrder α) (ord' : LinearOrder β) {t : RefTy ν α}
      {u : RefTy ν β} (d : EncodeLike t u) : EncodeLike (.btreeSet ord t) (.btreeSet ord' u)
  | btreeSetSlice {α β : Type} (ord : LinearOrder α) {t : RefTy ν α} {u : RefTy ν β}
      (d : EncodeLike t u) : EncodeLike (.btreeSet ord t) (.refSlice (.tuple1 u))
  | sliceBTreeSet {α β : Type} (ord' : LinearOrder β) {t : RefTy ν α} {u : RefTy ν β}
      (d : EncodeLike t u) : EncodeLike (.refSlice (.tuple1 t)) (.btreeSet ord' u)
  | binaryHeap {α β : Type} (ord : LinearOrder α) (ord' : LinearOrder β) {t : RefTy ν α}
      {u : RefTy ν β} (d : EncodeLike t u) : EncodeLike (.binaryHeap ord t) (.binaryHeap ord' u)
  | binaryHeapSlice {α β : Type} (ord : LinearOrder α) {t : RefTy ν α} {u : RefTy ν β}
      (d : EncodeLike t u) : EncodeLike (.binaryHeap ord t) (.refSlice (.tuple1 u))
  | sliceBinaryHeap {α β : Type} (ord' : LinearOrder β) {t : RefTy ν α} {u : RefTy ν β}
      (d : EncodeLike t u) : EncodeLike (.refSlice (.tuple1 t)) (.binaryHeap ord' u)
  | btreeMap {κ κ' υ υ' : Type} (ord : LinearOrder κ) (ord' : LinearOrder κ') {k : RefTy ν κ}
      {k' : RefTy ν κ'} {v : RefTy ν υ} {v' : RefTy ν υ'} (d : EncodeLike k k')
      (d' : EncodeLike v v') : EncodeLike (.btreeMap ord k v) (.btreeMap ord' k' v')
  | btreeMapSlice {κ κ' υ υ' : Type} (ord : LinearOrder κ) {k : RefTy ν κ} {k' : RefTy ν κ'}
      {v : RefTy ν υ} {v' : RefTy ν υ'} (d : EncodeLike k k') (d' : EncodeLike v v') :
      EncodeLike (.btreeMap ord k v) (.refSlice (.pair k' v'))
  | sliceBTreeMap {κ κ' υ υ' : Type} (ord' : LinearOrder κ') {k : RefTy ν κ} {k' : RefTy ν κ'}
      {v : RefTy ν υ} {v' : RefTy ν υ'} (d : EncodeLike k k') (d' : EncodeLike v v') :
      EncodeLike (.refSlice (.pair k v)) (.btreeMap ord' k' v')

namespace EncodeLike

/-- The value of `U` that corresponds to a value of `T`. -/
def conv {α β : Type} {t : RefTy ν α} {u : RefTy ν β} : EncodeLike t u → α → β
  | alike _ => id
  | likeRef d | refLikeRef d | tuple1 d => d.conv
  | option d => Option.map d.conv
  | result d d' => fun v =>
    match v with
    | .ok a => .ok (d.conv a)
    | .error b => .error (d'.conv b)
  | pair d d' => Prod.map d.conv d'.conv
  | array _ d => List.Vector.map d.conv
  | sequence _ _ _ d | linkedList d | linkedListSlice d | sliceLinkedList d => List.map d.conv
  | btreeSet _ _ d => fun v => .fromIter (v.iter.map d.conv)
  | btreeSetSlice _ d => fun v => v.iter.map d.conv
  | sliceBTreeSet _ d => fun v => .fromIter (v.map d.conv)
  | binaryHeap _ _ d => fun v => ⟨v.data.map d.conv⟩
  | binaryHeapSlice _ d => fun v => v.data.map d.conv
  | sliceBinaryHeap _ d => fun v => ⟨v.map d.conv⟩
  | btreeMap _ _ d d' => fun v => .fromIter (v.entries.map (Prod.map d.conv d'.conv))
  | btreeMapSlice _ d d' => fun v => v.entries.map (Prod.map d.conv d'.conv)
  | sliceBTreeMap _ d d' => fun v => .fromIter (v.map (Prod.map d.conv d'.conv))

/-- No collection in the value has more than `u32::MAX` elements, and on a 32-bit target the
vectors it is decoded as fit in memory. The values of named types have the property `p`. -/
def Holds (P : Platform ν) (p : ∀ i, ν i → Prop) {α β : Type} {t : RefTy ν α} {u : RefTy ν β} :
    EncodeLike t u → α → Prop
  | alike (u := u) _ => u.owned.InLimits P p
  | likeRef d | refLikeRef d | tuple1 d => d.Holds P p
  | option d => fun v => ∀ a ∈ v, d.Holds P p a
  | result d d' => fun v =>
    match v with
    | .ok a => d.Holds P p a
    | .error b => d'.Holds P p b
  | pair d d' => fun v => d.Holds P p v.1 ∧ d'.Holds P p v.2
  | array _ d => fun v => ∀ a ∈ v.toList, d.Holds P p a
  | sequence (u := u) _ _ _ d => fun v => u.owned.Fits P v.length ∧ ∀ a ∈ v, d.Holds P p a
  | linkedList d | sliceLinkedList d => fun v => v.length ≤ u32Max ∧ ∀ a ∈ v, d.Holds P p a
  | linkedListSlice (u := u) d => fun v =>
    (Ty.tuple1 u.owned).Fits P v.length ∧ ∀ a ∈ v, d.Holds P p a
  | btreeSet _ _ d => fun v => v.iter.length ≤ u32Max ∧ ∀ a ∈ v.iter, d.Holds P p a
  | btreeSetSlice (u := u) _ d => fun v =>
    (Ty.tuple1 u.owned).Fits P v.iter.length ∧ ∀ a ∈ v.iter, d.Holds P p a
  | sliceBTreeSet _ d => fun v => v.length ≤ u32Max ∧ ∀ a ∈ v, d.Holds P p a
  | binaryHeap (u := u) _ _ d => fun v =>
    u.owned.Fits P v.data.length ∧ ∀ a ∈ v.data, d.Holds P p a
  | binaryHeapSlice (u := u) _ d => fun v =>
    (Ty.tuple1 u.owned).Fits P v.data.length ∧ ∀ a ∈ v.data, d.Holds P p a
  | sliceBinaryHeap (u := u) _ d => fun v =>
    u.owned.Fits P v.length ∧ ∀ a ∈ v, d.Holds P p a
  | btreeMap _ _ d d' => fun v => v.entries.length ≤ u32Max ∧
    ∀ e ∈ v.entries, d.Holds P p e.1 ∧ d'.Holds P p e.2
  | @btreeMapSlice _ _ _ _ _ _ _ _ k _ u d d' => fun v =>
    (Ty.pair k.owned u.owned).Fits P v.entries.length ∧
      ∀ e ∈ v.entries, d.Holds P p e.1 ∧ d'.Holds P p e.2
  | sliceBTreeMap _ d d' => fun v => v.length ≤ u32Max ∧
    ∀ e ∈ v, d.Holds P p e.1 ∧ d'.Holds P p e.2

end EncodeLike

/-! ## Encoding one type and decoding the other -/

section

variable {P : Platform ν} {envE : ∀ i, Encode (ν i)} {envD : ∀ i, Decode (ν i)}

theorem Alike.encodes {t u : RefTy ν α} (h : Alike t u) {v : α} {bs : List Byte}
    (hu : Encodes (u.owned.encode P envE) v bs) : Encodes (t.owned.encode P envE) v bs := by
  cases h with
  | ptrContent k | contentPtr k => cases k <;> exact hu
  | _ => exact hu

theorem Alike.fewBits {t u : RefTy ν α} (h : Alike t u) {v : α} (ht : t.owned.FewBits v) :
    u.owned.FewBits v := by
  cases h with
  | ptrContent k =>
    cases k with
    | ref | refMut => exact ht
    | _ => exact ht.2
  | contentPtr k =>
    cases k with
    | ref | refMut => exact ht
    | _ => exact ⟨trivial, ht⟩
  | bytesSlice | bytesVec => exact ⟨trivial, fun _ _ => trivial⟩
  | sliceBytes | vecBytes => trivial
  | _ => exact ht

theorem Sequence.wellFormed_of {k : Sequence} {t : RefTy ν α} (h : (k.of t).owned.WellFormed) :
    t.owned.WellFormed := by
  cases k <;> exact h

theorem Sequence.compiles_of {k : Sequence} {t : RefTy ν α} (h : (k.of t).owned.Compiles P) :
    P.size t.owned ≤ maxPreallocation ∧ t.owned.Compiles P := by
  cases k <;> exact h

theorem Sequence.fewBits_of {k : Sequence} {t : RefTy ν α} {v : List α}
    (h : (k.of t).owned.FewBits v) : ∀ a ∈ v, t.owned.FewBits a := by
  cases k <;> exact h.2

theorem Sequence.encodes_of (henv : ∀ i, (envE i).Lawful) (k : Sequence) {t : RefTy ν α}
    {v : List α} {bs : List Byte} (h : Encodes (vecEncode P.target (t.encode P envE)) v bs) :
    Encodes ((k.of t).encode P envE) v bs := by
  cases k with
  | vecDeque => exact (encodes_vecDequeEncode (t.encode_lawful henv)).mpr h
  | _ => exact h

theorem Sequence.roundTrips_of (henv : ∀ i, (envE i).Lawful) (k l : Sequence) {t : RefTy ν α}
    {u : RefTy ν β} {conv : α → β} {v : List α}
    (h : RoundTrips (vecEncode P.target (t.encode P envE))
      (vecDecode P.target (P.size (.vec u.owned)) (u.owned.decode P envD))
      (fun v w => List.Forall₂ u.owned.Decoded (v.map conv) w) v) :
    RoundTrips ((k.of t).encode P envE) ((l.of u).owned.decode P envD)
      (fun v w => (l.of u).owned.Decoded (v.map conv) w) v := by
  obtain ⟨bs, henc, hdec⟩ := h
  refine ⟨bs, k.encodes_of henv henc, ?_⟩
  cases l <;> exact hdec

/-- A sequence of items is decoded as a vector of the items they correspond to. -/
theorem roundTrips_conv_vec (hD : ∀ i, (envD i).Lawful)
    (hsize : ∀ i, (envD i).size = P.size (.named i)) {E : Encode α} (hE : E.Lawful) {u : Ty ν β}
    {conv : α → β} {size : ℕ} {v : List α} (hu : P.size u ≤ maxPreallocation)
    (hfits : u.Fits P v.length)
    (h : ∀ a ∈ v, RoundTrips E (u.decode P envD) (fun a => u.Decoded (conv a)) a) :
    RoundTrips (vecEncode P.target E) (vecDecode P.target size (u.decode P envD))
      (fun v => List.Forall₂ u.Decoded (v.map conv)) v :=
  (Ty.roundTrips_vec_of_fits hD hsize hE hu hfits h).imp fun _ h =>
    List.forall₂_map_left_iff.mpr h

/-- A collection is decoded as what `build` makes of the items its own correspond to. -/
theorem roundTrips_conv_nodes {tgt : Target} {E : Encode α} (hE : E.Lawful) {I : Decode β}
    {S : β → β → Prop} {conv : α → β} {iter : γ → List α} {build : List β → δ} {size : ℕ}
    {memSize : ℕ → ℕ} {v : γ} (hlen : (iter v).length ≤ u32Max)
    (h : ∀ a ∈ iter v, RoundTrips E I (fun a => S (conv a)) a) :
    RoundTrips (collectionEncode E iter)
      (Decode.ofDecode size (nodesDecode tgt memSize I.decode build))
      (fun v w => ∃ l, List.Forall₂ S ((iter v).map conv) l ∧ w = build l) v := by
  refine (roundTrips_nodes hE hlen h).imp ?_
  rintro w ⟨l, hl, rfl⟩
  exact ⟨l, List.forall₂_map_left_iff.mpr hl, rfl⟩

/-- A collection is encoded as the vector of its items, whatever is decoded of it. -/
theorem RoundTrips.collection {tgt : Target} {E : Encode α} (hE : E.Lawful) {I : Decode β}
    {S : List α → β → Prop} {iter : γ → List α} {v : γ}
    (h : RoundTrips (vecEncode tgt E) I S (iter v)) :
    RoundTrips (collectionEncode E iter) I (fun v => S (iter v)) v := by
  obtain ⟨bs, henc, hdec⟩ := h
  exact ⟨bs, (encodes_collectionEncode_iff hE).mpr henc, hdec⟩

theorem RoundTrips.slice {tgt : Target} {E : Encode α} (hE : E.Lawful) {I : Decode β}
    {S : List α → β → Prop} {v : List α} (h : RoundTrips (collectionEncode E id) I S v) :
    RoundTrips (vecEncode tgt E) I S v := by
  obtain ⟨bs, henc, hdec⟩ := h
  exact ⟨bs, (encodes_collectionEncode_iff hE).mp henc, hdec⟩

theorem roundTrips_conv_heap (hD : ∀ i, (envD i).Lawful)
    (hsize : ∀ i, (envD i).size = P.size (.named i)) {E : Encode α} (hE : E.Lawful) {u : Ty ν β}
    {conv : α → β} {ord : LinearOrder β} {v : List α} (hu : P.size u ≤ maxPreallocation)
    (hfits : u.Fits P v.length)
    (h : ∀ a ∈ v, RoundTrips E (u.decode P envD) (fun a => u.Decoded (conv a)) a) :
    RoundTrips (vecEncode P.target E) ((Ty.binaryHeap ord u).decode P envD)
      (fun v => (Ty.binaryHeap ord u).Decoded ⟨v.map conv⟩) v := by
  obtain ⟨bs, henc, hdec⟩ := roundTrips_conv_vec hD hsize hE hu hfits h
  refine ⟨bs, henc, fun rest => ?_⟩
  obtain ⟨l, hl, hS⟩ := hdec rest
  exact ⟨⟨P.heapify ord l⟩, decodes_map.mpr ⟨l, hl, rfl⟩, l, hS, (P.heapify_perm ord l).symm⟩

theorem roundTrips_conv_pair {E : Encode α} {F : Encode β} (hE : E.Lawful) (hF : F.Lawful)
    {t : Ty ν γ} {u : Ty ν δ} {conv : α → γ} {conv' : β → δ} {v : α × β}
    (h : RoundTrips E (t.decode P envD) (fun a => t.Decoded (conv a)) v.1)
    (h' : RoundTrips F (u.decode P envD) (fun b => u.Decoded (conv' b)) v.2) :
    RoundTrips (pairEncode E F) ((Ty.pair t u).decode P envD)
      (fun v => (Ty.pair t u).Decoded (Prod.map conv conv' v)) v :=
  roundTrips_pair hE hF h h'

/-- The encoding of a value decodes to the value it corresponds to, but for exhausted ranges. -/
theorem EncodeLike.roundTrips (hE : ∀ i, (envE i).Lawful) (hD : ∀ i, (envD i).Lawful)
    (hsize : ∀ i, (envD i).size = P.size (.named i)) {t : RefTy ν α} {u : RefTy ν β}
    (d : EncodeLike t u) (hu : u.owned.WellFormed) (hc : u.owned.Compiles P) {v : α}
    (hv : d.Holds P (fun i => RoundTrips (envE i) (envD i) Eq) v) (hb : t.owned.FewBits v) :
    RoundTrips (t.encode P envE) (u.owned.decode P envD) (fun v => u.owned.Decoded (d.conv v))
      v := by
  have lawE : ∀ {β : Type} (u : RefTy ν β), (u.encode P envE).Lawful := RefTy.encode_lawful hE
  have lawD : ∀ {β : Type} (u : RefTy ν β), (u.owned.decode P envD).Lawful :=
    fun u => Ty.decodeWith_lawful hD u.owned
  induction d with
  | @alike α t u h =>
    obtain ⟨bs, henc, hdec⟩ := Ty.roundTrips_decoded hE hD hsize hu hc hv (h.fewBits hb)
    exact ⟨bs, (t.encodes_owned hE v bs).mp (h.encodes henc), hdec⟩
  | likeRef d ih | refLikeRef d ih => exact ih hu hc hv hb
  | tuple1 d ih => exact ih hu hc hv hb.2
  | option d ih =>
    refine (roundTrips_option (lawE _) fun a ha => ih hu hc (hv a ha) (hb.2 a ha)).imp ?_
    rintro w (h | _)
    · exact .some h
    · exact .none
  | result d d' ih ih' =>
    cases v with
    | ok a =>
      refine (roundTrips_result_ok (lawE _) (ih hu.1 hc.1 hv hb.2)).imp ?_
      rintro _ ⟨a', rfl, h⟩
      exact .ok h
    | error b =>
      refine (roundTrips_result_error (lawE _) (ih' hu.2 hc.2 hv hb.2)).imp ?_
      rintro _ ⟨b', rfl, h⟩
      exact .error h
  | pair d d' ih ih' =>
    exact roundTrips_conv_pair (lawE _) (lawE _) (ih hu.1 hc.1 hv.1 hb.2.1)
      (ih' hu.2 hc.2 hv.2 hb.2.2)
  | array n d ih =>
    refine (roundTrips_array (lawE _) (lawD _) fun a ha => ih hu hc (hv a ha) (hb.2 a ha)).imp ?_
    intro w h
    show List.Forall₂ _ (v.map d.conv).toList _
    rw [List.Vector.toList_map]
    exact List.forall₂_map_left_iff.mpr h
  | sequence k l _ d ih =>
    obtain ⟨hlen, hc⟩ := Sequence.compiles_of hc
    exact Sequence.roundTrips_of hE k l (roundTrips_conv_vec hD hsize (lawE _) hlen hv.1
      fun a ha => ih (Sequence.wellFormed_of hu) hc (hv.2 a ha) (Sequence.fewBits_of hb a ha))
  | linkedList d ih =>
    have hlen : (id v).length ≤ u32Max := hv.1
    refine (roundTrips_conv_nodes (lawE _) hlen fun a ha =>
      ih hu hc (hv.2 a ha) (hb.2 a ha)).imp ?_
    rintro _ ⟨l, hl, rfl⟩
    exact hl
  | linkedListSlice d ih =>
    have hlen : (Ty.tuple1 _).Fits P (id v).length := hv.1
    exact (roundTrips_conv_vec hD hsize (lawE _) hc.1 hlen fun a ha =>
      ih hu hc.2 (hv.2 a ha) (hb.2 a ha)).collection (lawE _)
  | @sliceLinkedList _ _ t _ d ih =>
    have hlen : (id v).length ≤ u32Max := hv.1
    refine ((roundTrips_conv_nodes (lawE (.tuple1 t)) hlen fun a ha =>
      ih hu hc (hv.2 a ha) (hb.2 a ha).2).slice (lawE _)).imp ?_
    rintro _ ⟨l, hl, rfl⟩
    exact hl
  | btreeSet ord ord' d ih =>
    refine (roundTrips_conv_nodes (lawE _) hv.1 fun a ha =>
      ih hu.2 hc (hv.2 a ha) (hb.2 a ha)).imp ?_
    rintro _ ⟨l, hl, rfl⟩
    exact Ty.decoded_setFromIter hu.1 hl
  | btreeSetSlice ord d ih =>
    exact (roundTrips_conv_vec hD hsize (lawE _) hc.1 hv.1 fun a ha =>
      ih hu hc.2 (hv.2 a ha) (hb.2 a ha)).collection (lawE _)
  | @sliceBTreeSet _ _ ord' t _ d ih =>
    have hlen : (id v).length ≤ u32Max := hv.1
    refine ((roundTrips_conv_nodes (lawE (.tuple1 t)) hlen fun a ha =>
      ih hu.2 hc (hv.2 a ha) (hb.2 a ha).2).slice (lawE _)).imp ?_
    rintro _ ⟨l, hl, rfl⟩
    exact Ty.decoded_setFromIter hu.1 hl
  | binaryHeap ord ord' d ih =>
    exact (roundTrips_conv_heap hD hsize (lawE _) hc.1 hv.1 fun a ha =>
      ih hu hc.2 (hv.2 a ha) (hb.2 a ha)).collection (lawE _)
  | binaryHeapSlice ord d ih =>
    exact (roundTrips_conv_vec hD hsize (lawE _) hc.1 hv.1 fun a ha =>
      ih hu hc.2 (hv.2 a ha) (hb.2 a ha)).collection (lawE _)
  | @sliceBinaryHeap _ _ ord' t _ d ih =>
    exact roundTrips_conv_heap hD hsize (lawE (.tuple1 t)) hc.1 hv.1 fun a ha =>
      ih hu hc.2 (hv.2 a ha) (hb.2 a ha).2
  | btreeMap ord ord' d d' ih ih' =>
    refine (roundTrips_conv_nodes pairEncode_lawful hv.1 fun e he => roundTrips_conv_pair (lawE _)
      (lawE _) (ih hu.2.1 hc.1 (hv.2 e he).1 (hb.2 e he).1)
      (ih' hu.2.2 hc.2 (hv.2 e he).2 (hb.2 e he).2)).imp ?_
    rintro _ ⟨l, hl, rfl⟩
    exact Ty.decoded_mapFromIter hu.1 hl
  | btreeMapSlice ord d d' ih ih' =>
    exact (roundTrips_conv_vec hD hsize pairEncode_lawful hc.1 hv.1 fun e he =>
      roundTrips_conv_pair (lawE _) (lawE _) (ih hu.1 hc.2.1 (hv.2 e he).1 (hb.2 e he).1)
        (ih' hu.2 hc.2.2 (hv.2 e he).2 (hb.2 e he).2)).collection pairEncode_lawful
  | sliceBTreeMap ord' d d' ih ih' =>
    have hlen : (id v).length ≤ u32Max := hv.1
    refine ((roundTrips_conv_nodes pairEncode_lawful hlen fun e he => roundTrips_conv_pair
      (lawE _) (lawE _) (ih hu.2.1 hc.1 (hv.2 e he).1 (hb.2 e he).2.1)
      (ih' hu.2.2 hc.2 (hv.2 e he).2 (hb.2 e he).2.2)).slice pairEncode_lawful).imp ?_
    rintro _ ⟨l, hl, rfl⟩
    exact Ty.decoded_mapFromIter hu.1 hl

/-- The value a slice of pairs corresponds to has the last pair of each key. -/
theorem EncodeLike.mem_conv_sliceBTreeMap {ord : LinearOrder κ'} {k : RefTy ν κ} {k' : RefTy ν κ'}
    {u : RefTy ν υ} {u' : RefTy ν υ'} (d : EncodeLike k k') (d' : EncodeLike u u')
    {l : List (κ × υ)} {x : κ' × υ'} :
    x ∈ ((sliceBTreeMap ord d d').conv l).entries ↔ ∃ before after,
      l.map (Prod.map d.conv d'.conv) = before ++ x :: after ∧ ∀ e ∈ after, e.1 ≠ x.1 :=
  SortedMap.mem_fromIter

/-- The set a slice corresponds to has the elements of the slice. -/
theorem EncodeLike.mem_conv_sliceBTreeSet {ord : LinearOrder β} {t : RefTy ν α} {u : RefTy ν β}
    (d : EncodeLike t u) {l : List α} {x : β} :
    x ∈ ((sliceBTreeSet ord d).conv l).iter ↔ x ∈ l.map d.conv :=
  BTreeSet.mem_fromIter

end

end ScaleCodec
