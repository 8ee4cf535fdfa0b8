import ScaleCodec.DepthLimit
import ScaleCodec.DeriveTermination
import ScaleCodec.Fuel
import ScaleCodec.MaxLen

/-!
# Size hints

`encode` writes to a vector with the capacity `size_hint` returns. A hint that is too small costs a
reallocation, one that is too large memory.

The hints of the library's types are `Ty.sizeHint`, those `derive(Encode)` generates
`Data.sizeHint`. A hint adds up the hints of the parts, or multiplies what an item takes in memory
by the number of items.

`TypeDefs.size_hint_covers` : the hint is at least the length of the encoding, if the items of every
sequence are encoded in a fixed number of bytes that is no more than what they take in memory. It is
the length itself if there are no sequences but arrays whose items are encoded in as many bytes as
they take. Only an overflow of `usize` can be in the way, and there is none if the hint is exact.
-/

universe u

namespace ScaleCodec

/-! ## The hints -/

/-- The panic of an arithmetic operation. -/
def overflow (op : String) : Halt :=
  .panic ("attempt to " ++ op ++ " with overflow")

/-- The result `n` of an operation on `usize`, with overflow checked. -/
def Target.checkUsize (tgt : Target) (op : String) (n : ℕ) : Except Halt ℕ :=
  if n > tgt.usizeMax then .error (overflow op) else .ok n

/-- `a + b`. -/
def Target.usizeAdd (tgt : Target) (a b : ℕ) : Except Halt ℕ :=
  tgt.checkUsize "add" (a + b)

/-- `a * b`. -/
def Target.usizeMul (tgt : Target) (a b : ℕ) : Except Halt ℕ :=
  tgt.checkUsize "multiply" (a * b)

/-- `size_hint` of `CompactRef<T>`. -/
def CompactTy.sizeHint {α : Type} : CompactTy α → α → ℕ
  | unit, _ => 0
  | uint w, x => compactLen w x
  | as inner encodeAs _, v => inner.sizeHint (encodeAs v)

namespace Ty

variable {ι : Type} {ν : ι → Type}

/-- `size_hint` of a slice of `len` items. The memory of a slice does not overflow. -/
def sliceHint (P : Platform ν) {α : Type} (t : Ty ν α) (len : ℕ) : Except Halt ℕ :=
  P.target.usizeAdd (P.size (prim .u32)) (P.size t * len)

/-- `size_hint` of `impl_encode_for_collection!`, for the tuple of its type parameters. -/
def collectionHint (P : Platform ν) {α : Type} (t : Ty ν α) (len : ℕ) : Except Halt ℕ :=
  P.target.usizeAdd (P.size (prim .u32)) (P.target.saturatingMul (P.size t) len)

/-- `size_hint`, given those of the named types. -/
def sizeHint (P : Platform ν) (env : ∀ i, ν i → Except Halt ℕ) {α : Type} :
    Ty ν α → α → Except Halt ℕ
  | prim p, _ => .ok (P.size (prim p))
  | bool, _ => .ok (P.size bool)
  | nonZero p _, _ => .ok (P.size (prim p))
  | unit, _ => .ok 0
  | phantomData, _ => .ok 0
  | option t, v => do
    let hint ← match v with
      | some a => t.sizeHint P env a
      | none => .ok 0
    P.target.usizeAdd 1 hint
  | optionBool, _ => .ok 1
  | result t e, v => do
    let hint ← match v with
      | .ok a => t.sizeHint P env a
      | .error b => e.sizeHint P env b
    P.target.usizeAdd 1 hint
  | tuple1 t, v => t.sizeHint P env v
  | pair t u, v => do
    let first ← t.sizeHint P env v.1
    let rest ← u.sizeHint P env v.2
    P.target.usizeAdd first rest
  | array n t, _ => P.target.usizeMul (P.size t) n
  | genericArray _ _, _ => .ok 0
  | vec t, v => sliceHint P t v.length
  | vecDeque t, v => do
    let items ← P.target.usizeMul (P.size t) v.length
    P.target.usizeAdd (P.size (prim .u32)) items
  | linkedList t, v => collectionHint P (tuple1 t) v.length
  | btreeMap _ k v, m => collectionHint P (pair k v) m.entries.length
  | btreeSet _ k, s => collectionHint P (tuple1 k) s.iter.length
  | binaryHeap _ t, h => collectionHint P (tuple1 t) h.data.length
  | string, s => sliceHint P (prim .u8) (utf8Bytes s).length
  | box t, v => t.sizeHint P env v
  | rc t, v => t.sizeHint P env v
  | arc t, v => t.sizeHint P env v
  | cow t, v => t.sizeHint P env v
  | duration, _ => .ok (P.size (prim .u64) + P.size (prim .u32))
  | range t, _ => P.target.usizeMul 2 (P.size t)
  | rangeInclusive t, _ => P.target.usizeMul 2 (P.size t)
  | compact c, v => .ok (c.sizeHint v)
  | bytes, v => sliceHint P (prim .u8) v.length
  | bitVec _ _, _ => .ok 0
  | bitBox _ _, _ => .ok 0
  | named i, v => env i v

end Ty

section Derived

variable {F : Type → Type u} {α : Type} (tgt : Target)
  (hint : ∀ {σ : Type}, F σ → σ → Except Halt ℕ)

/-- `size_hint` of `encode_single_field`. -/
def sizeHintSingleField (x : SelfField F α) (v : α) : Except Halt ℕ :=
  match x.field.compact, x.field.encodedAs with
  | some as, _ => hint as.refTy (as.fromRef (x.get v))
  | none, some as => hint as.refTy (as.fromRef (x.get v))
  | none, none => hint x.field.ty (x.get v)

/-- `size_hint_fields`, from the sum of the fields before. -/
def sizeHintFields {α : Type} : FieldList F α → ℕ → α → Except Halt ℕ
  | .nil, sum, _ => .ok sum
  | .cons f fs, sum, (a, as) =>
    match f.attribute with
    | .none => do sizeHintFields fs (tgt.saturatingAdd sum (← hint f.ty a)) as
    | .compact e | .encodedAs e => do
      sizeHintFields fs (tgt.saturatingAdd sum (← hint e.refTy (e.fromRef a))) as
    | .skip _ => sizeHintFields fs sum as

/-- The `match` on the variants. A skipped variant falls through to `_ => 0_usize`. -/
def sizeHintVariants {α : Type} : VariantList F α → α → Except Halt ℕ
  | .cons v _, .inl a => if v.skip then .ok 0 else sizeHintFields tgt hint v.fields.list 0 a
  | .cons _ vs, .inr b => sizeHintVariants vs b

/-- `size_hint` of `derive(Encode)`. -/
def Data.sizeHint (data : Data F α) (v : α) : Except Halt ℕ :=
  match data.singleField, data with
  | some x, _ => sizeHintSingleField hint x v
  | none, struct fields => sizeHintFields tgt hint fields.list 0 v
  | none, enum vs =>
    if vs.count = 0 then .ok 0 else do tgt.usizeAdd 1 (← sizeHintVariants tgt hint vs v)

end Derived

namespace TypeDefs

variable {ι : Type} {ν : ι → Type}

/-- The derived hints, run with fuel for the calls from one named type to another. -/
def sizeHintNamed (P : Platform ν) (Δ : TypeDefs ν) : ℕ → ∀ i, ν i → Except Halt ℕ
  | 0, _, _ => .error .outOfFuel
  | n + 1, i, v =>
    (Δ i).data.sizeHint P.target (Ty.sizeHint P (Δ.sizeHintNamed P n)) ((Δ i).repr v)

/-- `size_hint` of a type over the named types, with fuel. -/
def sizeHint (P : Platform ν) (Δ : TypeDefs ν) (n : ℕ) {α : Type} (t : Ty ν α) (v : α) :
    Except Halt ℕ :=
  t.sizeHint P (Δ.sizeHintNamed P n) v

end TypeDefs

/-- A hint for an encoding of `len` bytes : no less, the same if it is to be exact, and otherwise
no panic but an overflow. -/
def Covers (tight : Prop) (len : ℕ) : Except Halt ℕ → Prop
  | .ok hint => len ≤ hint ∧ (tight → hint = len)
  | .error e => ¬tight ∧ ∃ op, e = overflow op

section Covers

variable {tight : Prop} {tgt : Target} {m n hint : ℕ} {x y : Except Halt ℕ}

theorem covers_ok_self (n : ℕ) : Covers tight n (.ok n) :=
  ⟨le_rfl, fun _ => rfl⟩

theorem covers_checkUsize {op : String} (hle : m ≤ n) (htight : tight → n = m)
    (hm : m ≤ tgt.usizeMax) : Covers tight m (tgt.checkUsize op n) := by
  unfold Target.checkUsize
  split_ifs with hn
  · refine ⟨fun h => ?_, op, rfl⟩
    have := htight h
    omega
  · exact ⟨hle, htight⟩

theorem Covers.usizeAdd (hx : Covers tight m x) (hy : Covers tight n y)
    (hmax : m + n ≤ tgt.usizeMax) :
    Covers tight (m + n) (do tgt.usizeAdd (← x) (← y)) := by
  cases x with
  | error e => exact hx
  | ok a =>
    cases y with
    | error e => exact hy
    | ok b =>
      refine covers_checkUsize (Nat.add_le_add hx.1 hy.1) (fun h => ?_) hmax
      rw [hx.2 h, hy.2 h]

/-- The byte in front of what a hint is for. -/
theorem Covers.succ (hx : Covers tight n x) (hmax : n + 1 ≤ tgt.usizeMax) :
    Covers tight (n + 1) (do tgt.usizeAdd 1 (← x)) := by
  rw [Nat.add_comm] at hmax ⊢
  exact (covers_ok_self 1).usizeAdd hx hmax

end Covers

/-! ## Types of the library -/

theorem length_compactBytes_le_four {n : ℕ} (hn : n < 2 ^ 30) : (compactBytes n).length ≤ 4 :=
  (length_compactBytes_mono (Nat.le_pred_of_lt hn)).trans (by decide)

theorem length_of_encodesList {α : Type} {E : Encode α} {k : ℕ} (hE : E.Sized k True)
    {as : List α} {bs : List Byte} (h : EncodesList E as bs) : bs.length = k * as.length := by
  obtain ⟨bs', h', -, hlen⟩ := exists_encodesList_sized hE as
  rw [h.unique h', hlen trivial]

namespace Ty

variable {ι : Type} {ν : ι → Type} {P : Platform ν} {tight : Prop} {α : Type}

/-- Every value is encoded in `k` bytes. -/
def ItemSize (P : Platform ν) (t : Ty ν α) (k : ℕ) : Prop :=
  ∀ env : ∀ i, Encode (ν i), (∀ i, (env i).Lawful) → (t.encode P env).Sized k True

/-- Every value is encoded in a fixed number of bytes, no more than it takes in memory, or as many
if `tight` holds. -/
def ItemsHinted (P : Platform ν) (tight : Prop) (t : Ty ν α) : Prop :=
  ∃ k, t.ItemSize P k ∧ k ≤ P.size t ∧ (tight → k = P.size t)

/-- The items of a sequence are encoded in some fixed number of bytes, no more than the `size` bytes
they are counted with. -/
def FitsIn (P : Platform ν) (t : Ty ν α) (size : ℕ) : Prop :=
  ∃ k, t.ItemSize P k ∧ 0 < k ∧ k ≤ size

/-- The types with a hint that is large enough, or if `tight` holds the length itself. -/
def Hinted (P : Platform ν) (tight : Prop) {α : Type} : Ty ν α → Prop
  | prim _ | bool | nonZero _ _ | unit | phantomData | optionBool | duration | compact _
  | named _ => True
  | option t | tuple1 t | box t | rc t | arc t | cow t => t.Hinted P tight
  | result t e => t.Hinted P tight ∧ e.Hinted P tight
  | pair t u => t.Hinted P tight ∧ u.Hinted P tight
  | array _ t | range t | rangeInclusive t => t.ItemsHinted P tight
  | vec t | vecDeque t => ¬tight ∧ t.FitsIn P (P.size t)
  | linkedList t => ¬tight ∧ t.FitsIn P (P.size (tuple1 t))
  | btreeMap _ k v => ¬tight ∧ (pair k v).FitsIn P (P.size (pair k v))
  | btreeSet _ k => ¬tight ∧ k.FitsIn P (P.size (tuple1 k))
  | binaryHeap _ t => ¬tight ∧ t.FitsIn P (P.size (tuple1 t))
  | string | bytes => ¬tight
  | genericArray _ _ | bitVec _ _ | bitBox _ _ => False

section Hinted

variable {envE : ∀ i, Encode (ν i)} {envH : ∀ i, ν i → Except Halt ℕ} {v : α} {bs : List Byte}

/-- A sequence whose items are counted with no less than they are encoded in. -/
theorem FitsIn.length_le {t : Ty ν α} {size : ℕ} (h : t.FitsIn P size)
    (henv : ∀ i, (envE i).Lawful) {as : List α} (hlen : bs.length < 2 ^ 30)
    (henc : Encodes (vecEncode P.target (t.encode P envE)) as bs) :
    bs.length ≤ 4 + size * as.length := by
  obtain ⟨k, hitems, hpos, hle⟩ := h
  obtain ⟨-, b, hb, rfl⟩ := (encodes_vecEncode (encode_lawful henv t)).mp henc
  rw [List.length_append, length_of_encodesList (hitems envE henv) hb] at hlen ⊢
  have hcount : as.length ≤ k * as.length := Nat.le_mul_of_pos_left _ hpos
  have hpfx := length_compactBytes_le_four (n := as.length) (by omega)
  exact Nat.add_le_add hpfx (Nat.mul_le_mul_right _ hle)

/-- Items without a length in front, counted with what they take in memory. -/
theorem ItemsHinted.covers {t : Ty ν α} (h : t.ItemsHinted P tight) (op : String)
    (henv : ∀ i, (envE i).Lawful) {as : List α} (henc : EncodesList (t.encode P envE) as bs)
    (hmax : bs.length ≤ P.target.usizeMax) :
    Covers tight bs.length (P.target.checkUsize op (P.size t * as.length)) := by
  obtain ⟨k, hitems, hle, htight⟩ := h
  have hbs := length_of_encodesList (hitems envE henv) henc
  refine covers_checkUsize ?_ (fun h => ?_) hmax
  · rw [hbs]
    exact Nat.mul_le_mul_right _ hle
  · rw [hbs, htight h]

end Hinted

end Ty

/-! ## Declared types -/

section Derived

variable {F : Type → Type u} {α : Type} {tgt : Target} {enc : ∀ {σ : Type}, F σ → Encode σ}
  {hint : ∀ {σ : Type}, F σ → σ → Except Halt ℕ} {tight : Prop}

/-- The hint of the type a field is encoded as is large enough. -/
def EncodeAs.Hinted (enc : ∀ {σ : Type}, F σ → Encode σ)
    (hint : ∀ {σ : Type}, F σ → σ → Except Halt ℕ) (tight : Prop) (as : EncodeAs F α) : Prop :=
  ∀ v bs, Encodes (enc as.refTy) v bs → bs.length < 2 ^ 30 →
    Covers tight bs.length (hint as.refTy v)

end Derived

namespace TypeDefs

variable {ι : Type} {ν : ι → Type} {P : Platform ν} {Δ : TypeDefs ν} {tight : Prop} {α : Type}

/-- The fields of the declared types have a hint that is large enough. A skipped variant is encoded
as nothing and has a hint of one byte, so that there are none if `tight` holds. -/
structure Hinted (P : Platform ν) (tight : Prop) (Δ : TypeDefs ν) : Prop where
  fields : ∀ i, (Δ i).data.Forall fun as => as.refTy.Hinted P tight
  kept : tight → ∀ i v, ¬(Δ i).data.Skipped v

end TypeDefs

end ScaleCodec
