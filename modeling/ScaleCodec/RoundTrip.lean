import Mathlib.Data.List.Forall2
import ScaleCodec.Types

/-!
# The round trip

`RoundTrips E I S v` : the encoding of `v`, followed by anything, decodes to a value that `S`
relates to `v`, and what follows is left unread. Each `impl` keeps it (`roundTrips_option`,
`roundTrips_vec`, ...), so it holds along the description of a type (`Ty.roundTrips_decoded`).

`Ty.Same` is equality of values, with the array of a `BinaryHeap` taken up to reordering. A
decoded value is the same as the encoded one but for its `RangeInclusive`s, none of which is
exhausted (`Ty.Decoded`). Without exhausted ranges the two are the same (`Ty.same_of_decoded`),
as they are for the whole format (`Ty.roundTrips`), and with one they are not
(`Ty.noExhausted_of_same`).

`Ty.Holds` and `Ty.InLimits` ask of a value that no collection has more than `u32::MAX` elements,
and on a 32-bit target that its vectors fit in memory, as every vector does.
-/

namespace ScaleCodec

/-- The encoding of `v` decodes to a value related to `v`, whatever follows it. -/
def RoundTrips {α β : Type} (E : Encode α) (I : Decode β) (S : α → β → Prop) (v : α) : Prop :=
  ∃ bs, Encodes E v bs ∧ ∀ rest, ∃ v', Decodes I.decode (bs ++ rest) v' rest ∧ S v v'

section Impls

variable {α α' β β' γ γ' : Type} {E : Encode α} {F : Encode β} {I : Decode α'} {J : Decode β'}
  {S : α → α' → Prop} {R : β → β' → Prop} {tgt : Target} {size : ℕ}

theorem RoundTrips.imp {S' : α → α' → Prop} {v : α} (hS : ∀ v', S v v' → S' v v')
    (h : RoundTrips E I S v) : RoundTrips E I S' v := by
  obtain ⟨bs, henc, hdec⟩ := h
  refine ⟨bs, henc, fun rest => ?_⟩
  obtain ⟨v', hv', h'⟩ := hdec rest
  exact ⟨v', hv', hS v' h'⟩

/-- A codec that accepts exactly its encodings round-trips. -/
theorem roundTrips_of_exact {I : Decode α} {v : α} {bs : List Byte} (henc : Encodes E v bs)
    (hdec : ∀ rest, Decodes I.decode (bs ++ rest) v rest) : RoundTrips E I Eq v :=
  ⟨bs, henc, fun rest => ⟨v, hdec rest, rfl⟩⟩

theorem roundTrips_option (hE : E.Lawful) {v : Option α} (h : ∀ a ∈ v, RoundTrips E I S a) :
    RoundTrips (optionEncode E) (optionDecode size I) (Option.Rel S) v := by
  cases v with
  | none =>
    refine ⟨[0], encodes_optionEncode_none.mpr rfl, fun rest => ⟨none, ?_, Option.Rel.none⟩⟩
    exact decodes_optionDecode.mpr (Or.inl ⟨rfl, rfl⟩)
  | some a =>
    obtain ⟨bs, henc, hdec⟩ := h a rfl
    refine ⟨1 :: bs, (encodes_optionEncode_some hE).mpr ⟨bs, henc, rfl⟩, fun rest => ?_⟩
    obtain ⟨a', ha', hS⟩ := hdec rest
    exact ⟨some a', decodes_optionDecode.mpr (Or.inr ⟨a', _, rfl, rfl, ha'⟩), Option.Rel.some hS⟩

theorem roundTrips_result_ok (hE : E.Lawful) {a : α} (h : RoundTrips E I S a) :
    RoundTrips (resultEncode E F) (resultDecode size I J) (fun _ v' => ∃ a', v' = .ok a' ∧ S a a')
      (.ok a) := by
  obtain ⟨bs, henc, hdec⟩ := h
  refine ⟨0 :: bs, (encodes_resultEncode_ok hE).mpr ⟨bs, henc, rfl⟩, fun rest => ?_⟩
  obtain ⟨a', ha', hS⟩ := hdec rest
  exact ⟨.ok a', decodes_resultDecode.mpr (Or.inl ⟨a', _, rfl, rfl, ha'⟩), a', rfl, hS⟩

theorem roundTrips_result_error (hF : F.Lawful) {b : β} (h : RoundTrips F J R b) :
    RoundTrips (resultEncode E F) (resultDecode size I J)
      (fun _ v' => ∃ b', v' = .error b' ∧ R b b') (.error b) := by
  obtain ⟨bs, henc, hdec⟩ := h
  refine ⟨1 :: bs, (encodes_resultEncode_error hF).mpr ⟨bs, henc, rfl⟩, fun rest => ?_⟩
  obtain ⟨b', hb', hR⟩ := hdec rest
  exact ⟨.error b', decodes_resultDecode.mpr (Or.inr ⟨b', _, rfl, rfl, hb'⟩), b', rfl, hR⟩

theorem roundTrips_pair (hE : E.Lawful) (hF : F.Lawful) {v : α × β} (ha : RoundTrips E I S v.1)
    (hb : RoundTrips F J R v.2) :
    RoundTrips (pairEncode E F) (pairDecode size I J) (fun v v' => S v.1 v'.1 ∧ R v.2 v'.2) v := by
  obtain ⟨b, henc, hdec⟩ := ha
  obtain ⟨c, henc', hdec'⟩ := hb
  refine ⟨b ++ c, (encodes_pairEncode hE hF).mpr ⟨b, c, henc, henc', rfl⟩, fun rest => ?_⟩
  obtain ⟨a', ha', hS⟩ := hdec (c ++ rest)
  obtain ⟨b', hb', hR⟩ := hdec' rest
  refine ⟨(a', b'), decodes_pairDecode.mpr ⟨c ++ rest, ?_, hb'⟩, hS, hR⟩
  rwa [List.append_assoc]

/-- Items that round-trip one by one round-trip in a row. -/
theorem roundTrips_items : ∀ {as : List α}, (∀ a ∈ as, RoundTrips E I S a) →
    ∃ bs, EncodesList E as bs ∧ ∀ rest, ∃ as', DecodesList I.decode as' (bs ++ rest) rest ∧
      List.Forall₂ S as as'
  | [], _ => ⟨[], rfl, fun _ => ⟨[], rfl, .nil⟩⟩
  | a :: as, h => by
    obtain ⟨ha, has⟩ := List.forall_mem_cons.mp h
    obtain ⟨b, henc, hdec⟩ := ha
    obtain ⟨c, hencs, hdecs⟩ := roundTrips_items has
    refine ⟨b ++ c, ⟨b, c, henc, hencs, rfl⟩, fun rest => ?_⟩
    obtain ⟨a', ha', hS⟩ := hdec (c ++ rest)
    obtain ⟨as', has', hSs⟩ := hdecs rest
    refine ⟨a' :: as', ⟨c ++ rest, ?_, has'⟩, .cons hS hSs⟩
    rwa [List.append_assoc]

theorem roundTrips_array (hE : E.Lawful) (hI : I.Lawful) {n : ℕ} {v : List.Vector α n}
    (h : ∀ a ∈ v.toList, RoundTrips E I S a) :
    RoundTrips (arrayEncode tgt n E) (arrayDecode tgt n size I)
      (fun v v' => List.Forall₂ S v.toList v'.toList) v := by
  obtain ⟨bs, henc, hdec⟩ := roundTrips_items h
  refine ⟨bs, (encodes_arrayEncode hE).mpr henc, fun rest => ?_⟩
  obtain ⟨as', has', hS⟩ := hdec rest
  have hlen : as'.length = n := by rw [← hS.length_eq, v.toList_length]
  exact ⟨⟨as', hlen⟩, (decodes_arrayDecodeInto hI).mpr has', hS⟩

theorem roundTrips_genericArray (hE : E.Lawful) {n : ℕ} {v : List.Vector α n}
    (h : ∀ a ∈ v.toList, RoundTrips E I S a) :
    RoundTrips (genericArrayEncode n E) (genericArrayDecode n size I)
      (fun v v' => List.Forall₂ S v.toList v'.toList) v := by
  obtain ⟨bs, henc, hdec⟩ := roundTrips_items h
  refine ⟨bs, (encodes_genericArrayEncode hE).mpr henc, fun rest => ?_⟩
  obtain ⟨as', has', hS⟩ := hdec rest
  have hlen : as'.length = n := by rw [← hS.length_eq, v.toList_length]
  exact ⟨⟨as', hlen⟩, decodes_genericArrayDecode.mpr has', hS⟩

theorem roundTrips_vec (hE : E.Lawful) (hI : I.Lawful) (hsize : I.size ≤ maxPreallocation)
    {as : List α} (hlen : as.length ≤ u32Max) (hmem : as.length * I.size ≤ tgt.usizeMax)
    (h : ∀ a ∈ as, RoundTrips E I S a) :
    RoundTrips (vecEncode tgt E) (vecDecode tgt size I) (List.Forall₂ S) as := by
  obtain ⟨bs, henc, hdec⟩ := roundTrips_items h
  refine ⟨_, (encodes_vecEncode hE).mpr ⟨hlen, bs, henc, rfl⟩, fun rest => ?_⟩
  obtain ⟨as', has', hS⟩ := hdec rest
  rw [List.append_assoc, hS.length_eq]
  rw [hS.length_eq] at hlen hmem
  exact ⟨as', decodes_vecDecode hI hsize hlen hmem has', hS⟩

/-- The linked collections, for a value whose items `iter` gives in an order in which `build`
makes it of them. -/
theorem roundTrips_nodes (hE : E.Lawful) {iter : γ → List α} {build : List α' → γ'} {v : γ}
    {memSize : ℕ → ℕ} (hlen : (iter v).length ≤ u32Max)
    (h : ∀ a ∈ iter v, RoundTrips E I S a) :
    RoundTrips (collectionEncode E iter)
      (Decode.ofDecode size (nodesDecode tgt memSize I.decode build))
      (fun v v' => ∃ as, List.Forall₂ S (iter v) as ∧ v' = build as) v := by
  obtain ⟨bs, henc, hdec⟩ := roundTrips_items h
  refine ⟨_, (encodes_collectionEncode hE).mpr ⟨hlen, bs, henc, rfl⟩, fun rest => ?_⟩
  obtain ⟨as', has', hS⟩ := hdec rest
  refine ⟨build as', decodes_nodesDecode.mpr ⟨as', bs ++ rest, ?_, ?_, has', rfl⟩, as', hS, rfl⟩
  · rwa [← hS.length_eq]
  · rw [List.append_assoc, hS.length_eq]

theorem roundTrips_box (hI : I.Lawful) {v : α} (h : RoundTrips E I S v) :
    RoundTrips (E.forward id) (boxDecode size I) S v := by
  obtain ⟨bs, henc, hdec⟩ := h
  refine ⟨bs, henc, fun rest => ?_⟩
  obtain ⟨v', hv', hS⟩ := hdec rest
  exact ⟨v', (decodes_boxDecode hI).mpr hv', hS⟩

theorem roundTrips_u8s {as : List Prim.u8.Val} (hlen : as.length ≤ u32Max) :
    RoundTrips (vecEncode tgt (primEncode .u8)) (vecDecode tgt size (primDecode .u8)) Eq as := by
  refine (roundTrips_vec (S := Eq) (primEncode_lawful _) (primDecode_lawful _) (by decide) hlen ?_
    fun a _ => ?_).imp fun as' h => by rwa [List.forall₂_eq_eq_eq] at h
  · exact (Nat.mul_one _).trans_le (hlen.trans tgt.u32Max_le_usizeMax)
  · exact roundTrips_of_exact (primEncode_encode _ a) fun rest => decodes_primDecode.mpr rfl

/-- On a 32-bit target `bitvec` can address the elements that hold `n` bits. -/
def BitStore.Fits (tgt : Target) (st : BitStore) (n : ℕ) : Prop :=
  tgt.pointerWidth = .w32 → elts st n * st.bits ≤ tgt.usizeMax >>> 3

theorem BitStore.Fits.mul_le {st : BitStore} {n : ℕ} (h : st.Fits tgt n)
    (hlen : n ≤ arch32bitBitsliceMaxBits) : elts st n * st.bits ≤ tgt.usizeMax >>> 3 := by
  cases hw : tgt.pointerWidth with
  | w32 => exact h hw
  | w64 =>
    have hmax : tgt.usizeMax = 256 ^ 8 - 1 := by rw [Target.usizeMax, Target.usizeBytes, hw]
    have hst : st.bits ≤ 64 := by cases st <;> decide
    have hle : elts st n * st.bits ≤ arch32bitBitsliceMaxBits + 64 :=
      (Nat.div_mul_le_self _ _).trans ((Nat.sub_le _ _).trans (Nat.add_le_add hlen hst))
    rw [hmax]
    exact hle.trans (by decide)

theorem roundTrips_bits {st : BitStore} {o : BitOrder} {bits : List Bool}
    (h : st.Fits tgt bits.length) (hlen : bits.length ≤ arch32bitBitsliceMaxBits) :
    RoundTrips (bitSliceEncode st o) (bitVecDecode tgt size st o) Eq bits := by
  refine ⟨_, encodes_bitSliceEncode.mpr ⟨hlen, _, encodesList_prim.mpr rfl, rfl⟩,
    fun rest => ⟨bits, ?_, rfl⟩⟩
  rw [List.append_assoc]
  exact decodes_bitVecDecode hlen (h.mul_le hlen) (decodesList_prim.mpr rfl)

end Impls

/-- `decode_from` undoes `encode_as`. -/
def CompactTy.Faithful {α : Type} : CompactTy α → Prop
  | unit | uint _ => True
  | as inner encodeAs decodeFrom => inner.Faithful ∧ ∀ a, decodeFrom (encodeAs a) = .ok a

theorem CompactTy.decodes_encode (tgt : Target) : ∀ {α : Type} {c : CompactTy α}, c.Faithful →
    ∀ v, ∃ bs, Encodes c.encode v bs ∧ ∀ rest, Decodes (c.decode tgt) (bs ++ rest) v rest
  | _, .unit, _, _ => ⟨[], rfl, fun _ => decodes_unitDecode.mpr rfl⟩
  | _, .uint w, _, v => ⟨_, compactEncode_encode w v, fun _ => decodes_compactDecode.mpr rfl⟩
  | _, .as inner encodeAs decodeFrom, hc, v => by
    obtain ⟨bs, henc, hdec⟩ := decodes_encode tgt hc.1 (encodeAs v)
    refine ⟨bs, henc, fun rest => decodes_bind.mpr ⟨_, rest, hdec rest, ?_⟩⟩
    rw [hc.2 v]
    exact decodes_pure.mpr ⟨rfl, rfl⟩

/-- Results with related contents. -/
inductive ResultRel {α β : Type} (S : α → α → Prop) (R : β → β → Prop) :
    Except β α → Except β α → Prop
  | ok {a a' : α} : S a a' → ResultRel S R (.ok a) (.ok a')
  | error {b b' : β} : R b b' → ResultRel S R (.error b) (.error b')

/-! ## Along a type -/

namespace Ty

variable {ι : Type} {ν : ι → Type} {α : Type}

/-- Equal values, up to the order in the array of a `BinaryHeap`. -/
def Same {α : Type} : Ty ν α → α → α → Prop
  | option t => Option.Rel t.Same
  | result t e => ResultRel t.Same e.Same
  | tuple1 t | box t | rc t | arc t | cow t => t.Same
  | pair t u => fun v v' => t.Same v.1 v'.1 ∧ u.Same v.2 v'.2
  | array _ t | genericArray _ t => fun v v' => List.Forall₂ t.Same v.toList v'.toList
  | vec t | vecDeque t | linkedList t => List.Forall₂ t.Same
  | btreeMap _ k v => fun m m' =>
    List.Forall₂ (fun e e' => k.Same e.1 e'.1 ∧ v.Same e.2 e'.2) m.entries m'.entries
  | btreeSet _ k => fun m m' => List.Forall₂ k.Same m.iter m'.iter
  | binaryHeap _ t => fun h h' => ∃ l, List.Forall₂ t.Same h.data l ∧ l.Perm h'.data
  | range t => fun r r' => t.Same r.start r'.start ∧ t.Same r.end r'.end
  | rangeInclusive t => fun r r' =>
    t.Same r.start r'.start ∧ t.Same r.end r'.end ∧ r.exhausted = r'.exhausted
  | _ => Eq

/-- The types without a `BinaryHeap`. -/
def HeapFree {α : Type} : Ty ν α → Prop
  | option t | tuple1 t | box t | rc t | arc t | cow t | array _ t | genericArray _ t | vec t
  | vecDeque t | linkedList t | btreeSet _ t | range t | rangeInclusive t => t.HeapFree
  | result t e => t.HeapFree ∧ e.HeapFree
  | pair t u | btreeMap _ t u => t.HeapFree ∧ u.HeapFree
  | binaryHeap _ _ => False
  | _ => True

/-- The types of the format. A `BinaryHeap` is not `Ord`, so no key holds one. -/
def InFormat {α : Type} : Ty ν α → Prop
  | option t | tuple1 t | box t | rc t | arc t | cow t | array _ t | genericArray _ t | vec t
  | vecDeque t | linkedList t | binaryHeap _ t | range t => t.InFormat
  | result t e => t.InFormat ∧ e.InFormat
  | pair t u => t.InFormat ∧ u.InFormat
  | btreeMap _ k v => k.HeapFree ∧ k.InFormat ∧ v.InFormat
  | btreeSet _ k => k.HeapFree ∧ k.InFormat
  | compact (.as _ _ _) | rangeInclusive _ | bitVec _ _ | bitBox _ _ | named _ => False
  | _ => True

/-- `n` elements of type `t` are as many as a `Vec` can be encoded with, and on a 32-bit target
fit in memory. -/
def Fits (P : Platform ν) {α : Type} (t : Ty ν α) (n : ℕ) : Prop :=
  n ≤ u32Max ∧ (P.target.pointerWidth = .w32 → n * P.size t ≤ P.target.usizeMax)

/-- No collection in the value has more than `u32::MAX` elements. -/
def Holds (P : Platform ν) {α : Type} : Ty ν α → α → Prop
  | option t => fun v => ∀ a ∈ v, t.Holds P a
  | result t e => fun v =>
    match v with
    | .ok a => t.Holds P a
    | .error b => e.Holds P b
  | tuple1 t | box t | rc t | arc t | cow t => t.Holds P
  | pair t u => fun v => t.Holds P v.1 ∧ u.Holds P v.2
  | array _ t | genericArray _ t => fun v => ∀ a ∈ v.toList, t.Holds P a
  | vec t | vecDeque t => fun v => t.Fits P v.length ∧ ∀ a ∈ v, t.Holds P a
  | linkedList t => fun v => v.length ≤ u32Max ∧ ∀ a ∈ v, t.Holds P a
  | btreeMap _ k v => fun m =>
    m.entries.length ≤ u32Max ∧ ∀ e ∈ m.entries, k.Holds P e.1 ∧ v.Holds P e.2
  | btreeSet _ k => fun m => m.iter.length ≤ u32Max ∧ ∀ a ∈ m.iter, k.Holds P a
  | binaryHeap _ t => fun h => t.Fits P h.data.length ∧ ∀ a ∈ h.data, t.Holds P a
  | string => fun v => (utf8Bytes v).length ≤ u32Max
  | bytes => fun v => v.length ≤ u32Max
  | range t => fun r => t.Holds P r.start ∧ t.Holds P r.end
  | _ => fun _ => True

/-- Every value in the value, itself included, has the property `p`. -/
def Every (p : ∀ β : Type, Ty ν β → β → Prop) {α : Type} : Ty ν α → α → Prop
  | option t => fun v => p _ (option t) v ∧ ∀ a ∈ v, t.Every p a
  | result t e => fun v => p _ (result t e) v ∧
    match v with
    | .ok a => t.Every p a
    | .error b => e.Every p b
  | tuple1 t => fun v => p _ (tuple1 t) v ∧ t.Every p v
  | box t => fun v => p _ (box t) v ∧ t.Every p v
  | rc t => fun v => p _ (rc t) v ∧ t.Every p v
  | arc t => fun v => p _ (arc t) v ∧ t.Every p v
  | cow t => fun v => p _ (cow t) v ∧ t.Every p v
  | pair t u => fun v => p _ (pair t u) v ∧ t.Every p v.1 ∧ u.Every p v.2
  | array n t => fun v => p _ (array n t) v ∧ ∀ a ∈ v.toList, t.Every p a
  | genericArray n t => fun v => p _ (genericArray n t) v ∧ ∀ a ∈ v.toList, t.Every p a
  | vec t => fun v => p _ (vec t) v ∧ ∀ a ∈ v, t.Every p a
  | vecDeque t => fun v => p _ (vecDeque t) v ∧ ∀ a ∈ v, t.Every p a
  | linkedList t => fun v => p _ (linkedList t) v ∧ ∀ a ∈ v, t.Every p a
  | btreeMap ord k u => fun m =>
    p _ (btreeMap ord k u) m ∧ ∀ e ∈ m.entries, k.Every p e.1 ∧ u.Every p e.2
  | btreeSet ord k => fun m => p _ (btreeSet ord k) m ∧ ∀ a ∈ m.iter, k.Every p a
  | binaryHeap ord t => fun h => p _ (binaryHeap ord t) h ∧ ∀ a ∈ h.data, t.Every p a
  | range t => fun r => p _ (range t) r ∧ t.Every p r.start ∧ t.Every p r.end
  | rangeInclusive t => fun r => p _ (rangeInclusive t) r ∧ t.Every p r.start ∧ t.Every p r.end
  | t => p _ t

/-- The limits on the size of a value, its contents aside. Of the values of named types `p` is
asked. -/
def LimitsAt (P : Platform ν) (p : ∀ i, ν i → Prop) : ∀ β : Type, Ty ν β → β → Prop
  | _, vec t, v | _, vecDeque t, v => t.Fits P v.length
  | _, binaryHeap _ t, h => t.Fits P h.data.length
  | _, linkedList _, v => v.length ≤ u32Max
  | _, btreeMap _ _ _, m => m.entries.length ≤ u32Max
  | _, btreeSet _ _, m => m.iter.length ≤ u32Max
  | _, string, v => (utf8Bytes v).length ≤ u32Max
  | _, bytes, v => v.length ≤ u32Max
  | _, bitVec st _, v | _, bitBox st _, v => st.Fits P.target v.length
  | _, named i, v => p i v
  | _, _, _ => True

/-- No collection in the value is too long, and those of named types have the property `p`. -/
def InLimits (P : Platform ν) (p : ∀ i, ν i → Prop) {α : Type} : Ty ν α → α → Prop :=
  Every (LimitsAt P p)

/-- A bit sequence is not longer than the encoder of a `BitSlice` asserts. -/
def FewBitsAt : ∀ β : Type, Ty ν β → β → Prop
  | _, bitVec _ _, v | _, bitBox _ _, v => v.length ≤ arch32bitBitsliceMaxBits
  | _, _, _ => True

/-- No bit sequence in the value is longer than the encoder of a `BitSlice` asserts. -/
def FewBits {α : Type} : Ty ν α → α → Prop :=
  Every FewBitsAt

/-- A `RangeInclusive` is not exhausted. -/
def NotExhaustedAt : ∀ β : Type, Ty ν β → β → Prop
  | _, rangeInclusive _, r => r.exhausted = false
  | _, _, _ => True

/-- The value holds no exhausted `RangeInclusive`. -/
def NoExhausted {α : Type} : Ty ν α → α → Prop :=
  Every NotExhaustedAt

/-- What a value is decoded as : the same value, but for the `RangeInclusive`s, which come out
as `RangeInclusive::new` makes them. -/
def Decoded {α : Type} : Ty ν α → α → α → Prop
  | option t => Option.Rel t.Decoded
  | result t e => ResultRel t.Decoded e.Decoded
  | tuple1 t | box t | rc t | arc t | cow t => t.Decoded
  | pair t u => fun v v' => t.Decoded v.1 v'.1 ∧ u.Decoded v.2 v'.2
  | array _ t | genericArray _ t => fun v v' => List.Forall₂ t.Decoded v.toList v'.toList
  | vec t | vecDeque t | linkedList t => List.Forall₂ t.Decoded
  | btreeMap _ k v => fun m m' =>
    List.Forall₂ (fun e e' => k.Decoded e.1 e'.1 ∧ v.Decoded e.2 e'.2) m.entries m'.entries
  | btreeSet _ k => fun m m' => List.Forall₂ k.Decoded m.iter m'.iter
  | binaryHeap _ t => fun h h' => ∃ l, List.Forall₂ t.Decoded h.data l ∧ l.Perm h'.data
  | range t => fun r r' => t.Decoded r.start r'.start ∧ t.Decoded r.end r'.end
  | rangeInclusive t => fun r r' =>
    t.Decoded r.start r'.start ∧ t.Decoded r.end r'.end ∧ r'.exhausted = false
  | _ => Eq

/-- The types that can be keys : neither a `BinaryHeap` nor a `RangeInclusive` is `Ord`. -/
def IsKey {α : Type} (t : Ty ν α) : Prop :=
  t.HeapFree ∧ ∀ a, t.NoExhausted a

/-- The types whose keys are `Ord` and whose `CompactAs` types convert back to what they are
encoded as. -/
def WellFormed {α : Type} : Ty ν α → Prop
  | option t | tuple1 t | box t | rc t | arc t | cow t | array _ t | genericArray _ t | vec t
  | vecDeque t | linkedList t | binaryHeap _ t | range t | rangeInclusive t => t.WellFormed
  | result t e => t.WellFormed ∧ e.WellFormed
  | pair t u => t.WellFormed ∧ u.WellFormed
  | btreeMap _ k v => k.IsKey ∧ k.WellFormed ∧ v.WellFormed
  | btreeSet _ k => k.IsKey ∧ k.WellFormed
  | compact c => c.Faithful
  | _ => True

theorem forall₂_iff_eq {R : α → α → Prop} (h : ∀ a b, R a b ↔ a = b) {l l' : List α} :
    List.Forall₂ R l l' ↔ l = l' := by
  have hR : R = Eq := by
    funext a b
    exact propext (h a b)
  rw [hR, List.forall₂_eq_eq_eq]

/-- Without a `BinaryHeap`, the same values are equal. -/
theorem same_iff_eq {t : Ty ν α} (h : t.HeapFree) (v v' : α) : t.Same v v' ↔ v = v' := by
  induction t with
  | option t ih =>
    have ih := ih h
    constructor
    · rintro (h | _)
      · exact congrArg some ((ih _ _).mp h)
      · rfl
    · rintro rfl
      cases v with
      | none => exact Option.Rel.none
      | some a => exact Option.Rel.some ((ih _ _).mpr rfl)
  | result t e iht ihe =>
    constructor
    · rintro (h' | h')
      · exact congrArg Except.ok ((iht h.1 _ _).mp h')
      · exact congrArg Except.error ((ihe h.2 _ _).mp h')
    · rintro rfl
      cases v with
      | ok a => exact .ok ((iht h.1 _ _).mpr rfl)
      | error b => exact .error ((ihe h.2 _ _).mpr rfl)
  | tuple1 t ih => exact ih h v v'
  | box t ih => exact ih h v v'
  | rc t ih => exact ih h v v'
  | arc t ih => exact ih h v v'
  | cow t ih => exact ih h v v'
  | pair t u iht ihu =>
    show t.Same v.1 v'.1 ∧ u.Same v.2 v'.2 ↔ v = v'
    rw [iht h.1, ihu h.2, Prod.ext_iff]
  | array n t ih =>
    show List.Forall₂ t.Same v.toList v'.toList ↔ v = v'
    rw [forall₂_iff_eq (ih h), List.Vector.toList_injective.eq_iff]
  | genericArray n t ih =>
    show List.Forall₂ t.Same v.toList v'.toList ↔ v = v'
    rw [forall₂_iff_eq (ih h), List.Vector.toList_injective.eq_iff]
  | vec t ih => exact forall₂_iff_eq (ih h)
  | vecDeque t ih => exact forall₂_iff_eq (ih h)
  | linkedList t ih => exact forall₂_iff_eq (ih h)
  | btreeMap _ k u ihk ihu =>
    show List.Forall₂ _ v.entries v'.entries ↔ v = v'
    rw [forall₂_iff_eq fun e e' => by rw [ihk h.1, ihu h.2, Prod.ext_iff], SortedMap.ext_iff]
  | btreeSet _ k ih =>
    show List.Forall₂ _ v.iter v'.iter ↔ v = v'
    rw [forall₂_iff_eq (ih h), SortedMap.ext_iff]
    exact (List.map_injective_iff.mpr fun e e' he => Prod.ext he rfl).eq_iff
  | binaryHeap _ t => exact h.elim
  | range t ih =>
    show t.Same v.start v'.start ∧ t.Same v.end v'.end ↔ v = v'
    rw [ih h, ih h, Range.ext_iff]
  | rangeInclusive t ih =>
    show t.Same v.start v'.start ∧ t.Same v.end v'.end ∧ _ ↔ v = v'
    rw [ih h, ih h, RangeInclusive.ext_iff]
  | _ => exact Iff.rfl

theorem Fits.mul_le {P : Platform ν} {t : Ty ν α} {n : ℕ} (h : t.Fits P n)
    (hsize : P.size t ≤ maxPreallocation) : n * P.size t ≤ P.target.usizeMax := by
  obtain ⟨hlen, hmem⟩ := h
  cases hw : P.target.pointerWidth with
  | w32 => exact hmem hw
  | w64 =>
    have hmax : P.target.usizeMax = 256 ^ 8 - 1 := by rw [Target.usizeMax, Target.usizeBytes, hw]
    rw [hmax]
    exact (Nat.mul_le_mul hlen hsize).trans (by decide)

/-- Without exhausted ranges a value is decoded as the same value. -/
theorem same_of_decoded {t : Ty ν α} {v v' : α} (h : t.Decoded v v') (hv : t.NoExhausted v) :
    t.Same v v' := by
  have items : ∀ {β : Type} {D S : β → β → Prop} {N : β → Prop} {l l' : List β},
      List.Forall₂ D l l' → (∀ a ∈ l, N a) → (∀ a a', D a a' → N a → S a a') →
        List.Forall₂ S l l' :=
    fun hD hN hS => ((List.forall₂_and_left _ _).mpr ⟨hN, hD⟩).imp fun _ _ h => hS _ _ h.2 h.1
  induction t with
  | option t ih =>
    cases h with
    | none => exact .none
    | some h => exact .some (ih h (hv.2 _ rfl))
  | result t e iht ihe =>
    cases h with
    | ok h => exact .ok (iht h hv.2)
    | error h => exact .error (ihe h hv.2)
  | tuple1 t ih | box t ih | rc t ih | arc t ih | cow t ih => exact ih h hv.2
  | pair t u iht ihu => exact ⟨iht h.1 hv.2.1, ihu h.2 hv.2.2⟩
  | array n t ih | genericArray n t ih | vec t ih | vecDeque t ih | linkedList t ih
  | btreeSet _ t ih => exact items h hv.2 fun _ _ => ih
  | btreeMap _ k u ihk ihu => exact items h hv.2 fun _ _ h hN => ⟨ihk h.1 hN.1, ihu h.2 hN.2⟩
  | binaryHeap _ t ih =>
    obtain ⟨l, hl, hperm⟩ := h
    exact ⟨l, items hl hv.2 fun _ _ => ih, hperm⟩
  | range t ih => exact ⟨ih h.1 hv.2.1, ih h.2 hv.2.2⟩
  | rangeInclusive t ih => exact ⟨ih h.1 hv.2.1, ih h.2.1 hv.2.2, hv.1.trans h.2.2.symm⟩
  | _ => exact h

theorem IsKey.eq_of_decoded {t : Ty ν α} (ht : t.IsKey) {v v' : α} (h : t.Decoded v v') :
    v = v' :=
  (same_iff_eq ht.1 v v').mp (same_of_decoded h (ht.2 v))

theorem decoded_mapFromIter {κ υ : Type} {ord : LinearOrder κ} {k : Ty ν κ} {u : Ty ν υ}
    (hk : k.IsKey) {l l' : List (κ × υ)}
    (h : List.Forall₂ (fun e e' => k.Decoded e.1 e'.1 ∧ u.Decoded e.2 e'.2) l l') :
    (btreeMap ord k u).Decoded (SortedMap.fromIter l) (SortedMap.fromIter l') :=
  SortedMap.forall₂_fromIter (fun _ _ h => hk.eq_of_decoded h.1) h

theorem decoded_setFromIter {κ : Type} {ord : LinearOrder κ} {k : Ty ν κ} (hk : k.IsKey)
    {l l' : List κ} (h : List.Forall₂ k.Decoded l l') :
    (btreeSet ord k).Decoded (BTreeSet.fromIter l) (BTreeSet.fromIter l') := by
  refine List.forall₂_map_left_iff.mpr (List.forall₂_map_right_iff.mpr ?_)
  refine SortedMap.forall₂_fromIter (fun _ _ h => hk.eq_of_decoded h) ?_
  exact List.forall₂_map_left_iff.mpr (List.forall₂_map_right_iff.mpr h)

section

variable {P : Platform ν} {envE : ∀ i, Encode (ν i)} {envD : ∀ i, Decode (ν i)}

theorem roundTrips_vec_of_fits {β γ : Type} {u : Ty ν β} {E : Encode γ} {S : γ → β → Prop}
    (hD : ∀ i, (envD i).Lawful) (hsize : ∀ i, (envD i).size = P.size (named i)) (hE : E.Lawful)
    (hu : P.size u ≤ maxPreallocation) {size : ℕ} {as : List γ} (hfits : u.Fits P as.length)
    (h : ∀ a ∈ as, RoundTrips E (u.decode P envD) S a) :
    RoundTrips (vecEncode P.target E) (vecDecode P.target size (u.decode P envD))
      (List.Forall₂ S) as := by
  have hs : (u.decode P envD).size = P.size u := size_decodeWith hsize u
  refine roundTrips_vec hE (decodeWith_lawful hD u) (hs.trans_le hu) hfits.1 ?_ h
  rw [hs]
  exact hfits.mul_le hu

/-- The encoding of a value decodes to it, but for its exhausted ranges. -/
theorem roundTrips_decoded (hE : ∀ i, (envE i).Lawful) (hD : ∀ i, (envD i).Lawful)
    (hsize : ∀ i, (envD i).size = P.size (named i)) {t : Ty ν α} (ht : t.WellFormed)
    (hc : t.Compiles P) {v : α}
    (hv : t.InLimits P (fun i => RoundTrips (envE i) (envD i) Eq) v) (hb : t.FewBits v) :
    RoundTrips (t.encode P envE) (t.decode P envD) t.Decoded v := by
  have lawE : ∀ {β : Type} (u : Ty ν β), (u.encode P envE).Lawful := encode_lawful hE
  have lawD : ∀ {β : Type} (u : Ty ν β), (u.decode P envD).Lawful := decodeWith_lawful hD
  induction t with
  | prim p =>
    exact roundTrips_of_exact (primEncode_encode p v) fun rest => decodes_primDecode.mpr rfl
  | bool => exact roundTrips_of_exact (boolEncode_encode v) fun rest => decodes_boolDecode.mpr rfl
  | nonZero p h =>
    exact roundTrips_of_exact (encodes_nonZeroEncode.mpr rfl) fun rest =>
      decodes_nonZeroDecode.mpr rfl
  | unit =>
    exact roundTrips_of_exact (encodes_unitEncode.mpr rfl) fun rest => decodes_unitDecode.mpr rfl
  | phantomData =>
    exact roundTrips_of_exact (encodes_phantomDataEncode.mpr rfl) fun rest =>
      decodes_unitDecode.mpr rfl
  | option t ih => exact roundTrips_option (lawE t) fun a ha => ih ht hc (hv.2 a ha) (hb.2 a ha)
  | optionBool =>
    exact roundTrips_of_exact (encodes_optionBoolEncode.mpr rfl) fun rest =>
      decodes_optionBoolDecode.mpr rfl
  | result t e iht ihe =>
    cases v with
    | ok a =>
      refine (roundTrips_result_ok (lawE t) (iht ht.1 hc.1 hv.2 hb.2)).imp ?_
      rintro _ ⟨a', rfl, h⟩
      exact .ok h
    | error b =>
      refine (roundTrips_result_error (lawE e) (ihe ht.2 hc.2 hv.2 hb.2)).imp ?_
      rintro _ ⟨b', rfl, h⟩
      exact .error h
  | tuple1 t ih => exact ih ht hc hv.2 hb.2
  | pair t u iht ihu =>
    exact roundTrips_pair (lawE t) (lawE u) (iht ht.1 hc.1 hv.2.1 hb.2.1)
      (ihu ht.2 hc.2 hv.2.2 hb.2.2)
  | array n t ih =>
    exact roundTrips_array (lawE t) (lawD t) fun a ha => ih ht hc (hv.2 a ha) (hb.2 a ha)
  | genericArray n t ih =>
    exact roundTrips_genericArray (lawE t) fun a ha => ih ht hc (hv.2 a ha) (hb.2 a ha)
  | vec t ih =>
    exact roundTrips_vec_of_fits hD hsize (lawE t) hc.1 hv.1 fun a ha =>
      ih ht hc.2 (hv.2 a ha) (hb.2 a ha)
  | vecDeque t ih =>
    obtain ⟨bs, henc, hdec⟩ := roundTrips_vec_of_fits hD hsize (lawE t) hc.1 hv.1 fun a ha =>
      ih ht hc.2 (hv.2 a ha) (hb.2 a ha)
    exact ⟨bs, (encodes_vecDequeEncode (lawE t)).mpr henc, hdec⟩
  | linkedList t ih =>
    have hlen : (id v).length ≤ u32Max := hv.1
    refine (roundTrips_nodes (lawE t) hlen fun a ha => ih ht hc (hv.2 a ha) (hb.2 a ha)).imp ?_
    rintro _ ⟨as, has, rfl⟩
    exact has
  | btreeMap ord k u ihk ihu =>
    refine (roundTrips_nodes pairEncode_lawful hv.1 fun e he =>
      roundTrips_pair (lawE k) (lawE u) (ihk ht.2.1 hc.1 (hv.2 e he).1 (hb.2 e he).1)
        (ihu ht.2.2 hc.2 (hv.2 e he).2 (hb.2 e he).2)).imp ?_
    rintro _ ⟨l, hl, rfl⟩
    exact v.fromIter_entries ▸ decoded_mapFromIter ht.1 hl
  | btreeSet ord k ih =>
    refine (roundTrips_nodes (lawE k) hv.1 fun a ha => ih ht.2 hc (hv.2 a ha) (hb.2 a ha)).imp ?_
    rintro _ ⟨l, hl, rfl⟩
    exact v.fromIter_iter ▸ decoded_setFromIter ht.1 hl
  | binaryHeap ord t ih =>
    obtain ⟨bs, henc, hdec⟩ := roundTrips_vec_of_fits hD hsize (lawE t) hc.1 hv.1 fun a ha =>
      ih ht hc.2 (hv.2 a ha) (hb.2 a ha)
    refine ⟨bs, (encodes_collectionEncode_iff (lawE t)).mpr henc, fun rest => ?_⟩
    obtain ⟨l, hl, hS⟩ := hdec rest
    exact ⟨⟨P.heapify ord l⟩, decodes_map.mpr ⟨l, hl, rfl⟩, l, hS, (P.heapify_perm ord l).symm⟩
  | string =>
    obtain ⟨bs, henc, hdec⟩ := roundTrips_u8s hv
    refine ⟨bs, encodes_stringEncode.mpr henc, fun rest => ⟨v, ?_, rfl⟩⟩
    obtain ⟨_, hl, rfl⟩ := hdec rest
    exact decodes_stringDecode.mpr hl
  | box t ih | rc t ih | arc t ih => exact roundTrips_box (lawD t) (ih ht hc hv.2 hb.2)
  | cow t ih => exact ih ht hc hv.2 hb.2
  | duration =>
    exact roundTrips_of_exact (encodes_durationEncode.mpr rfl) fun rest =>
      decodes_durationDecode.mpr rfl
  | range t ih =>
    have hpair : RoundTrips _ (pairDecode (P.size (pair t t)) _ _) _ (v.start, v.end) :=
      roundTrips_pair (lawE t) (lawE t) (ih ht hc hv.2.1 hb.2.1) (ih ht hc hv.2.2 hb.2.2)
    obtain ⟨bs, henc, hdec⟩ := hpair
    refine ⟨bs, encodes_rangeEncode.mpr henc, fun rest => ?_⟩
    obtain ⟨v', hv', hS⟩ := hdec rest
    exact ⟨⟨v'.1, v'.2⟩, decodes_rangeDecode.mpr hv', hS⟩
  | rangeInclusive t ih =>
    have hpair : RoundTrips _ (pairDecode (P.size (pair t t)) _ _) _ (v.start, v.end) :=
      roundTrips_pair (lawE t) (lawE t) (ih ht hc hv.2.1 hb.2.1) (ih ht hc hv.2.2 hb.2.2)
    obtain ⟨bs, henc, hdec⟩ := hpair
    refine ⟨bs, encodes_rangeInclusiveEncode.mpr henc, fun rest => ?_⟩
    obtain ⟨v', hv', hS⟩ := hdec rest
    exact ⟨⟨v'.1, v'.2, false⟩, decodes_rangeInclusiveDecode.mpr ⟨rfl, hv'⟩, hS.1, hS.2, rfl⟩
  | compact c =>
    obtain ⟨bs, henc, hdec⟩ := CompactTy.decodes_encode P.target ht v
    exact roundTrips_of_exact henc hdec
  | bytes => exact roundTrips_u8s hv
  | bitVec st o => exact roundTrips_bits hv hb
  | bitBox st o => exact roundTrips_bits hv hb
  | named i => exact hv

/-- What the values of every type of the format have, the values in them have too. -/
theorem InFormat.every {p : ∀ β : Type, Ty ν β → β → Prop}
    (hp : ∀ {β : Type} (t : Ty ν β) (v : β), t.InFormat → p β t v) {t : Ty ν α} (hf : t.InFormat)
    (v : α) : t.Every p v := by
  have hv := hp t v hf
  induction t with
  | option t ih => exact ⟨hv, fun a _ => ih hf a (hp t a hf)⟩
  | result t e iht ihe =>
    refine ⟨hv, ?_⟩
    cases v with
    | ok a => exact iht hf.1 a (hp t a hf.1)
    | error b => exact ihe hf.2 b (hp e b hf.2)
  | tuple1 t ih | box t ih | rc t ih | arc t ih | cow t ih => exact ⟨hv, ih hf v (hp t v hf)⟩
  | pair t u iht ihu => exact ⟨hv, iht hf.1 _ (hp t _ hf.1), ihu hf.2 _ (hp u _ hf.2)⟩
  | array n t ih | genericArray n t ih | vec t ih | vecDeque t ih | linkedList t ih
  | binaryHeap _ t ih => exact ⟨hv, fun a _ => ih hf a (hp t a hf)⟩
  | btreeMap _ k u ihk ihu =>
    exact ⟨hv, fun e _ => ⟨ihk hf.2.1 _ (hp k _ hf.2.1), ihu hf.2.2 _ (hp u _ hf.2.2)⟩⟩
  | btreeSet _ k ih => exact ⟨hv, fun a _ => ih hf.2 a (hp k a hf.2)⟩
  | range t ih => exact ⟨hv, ih hf _ (hp t _ hf), ih hf _ (hp t _ hf)⟩
  | rangeInclusive t => exact hf.elim
  | _ => exact hv

theorem InFormat.noExhausted {t : Ty ν α} (hf : t.InFormat) (v : α) : t.NoExhausted v := by
  refine hf.every (fun t v hf => ?_) v
  cases t with
  | rangeInclusive t => exact hf.elim
  | _ => trivial

theorem InFormat.fewBits {t : Ty ν α} (hf : t.InFormat) (v : α) : t.FewBits v := by
  refine hf.every (fun t v hf => ?_) v
  cases t with
  | bitVec | bitBox => exact hf.elim
  | _ => trivial

theorem InFormat.wellFormed {t : Ty ν α} (hf : t.InFormat) : t.WellFormed := by
  induction t with
  | result t u iht ihu | pair t u iht ihu => exact ⟨iht hf.1, ihu hf.2⟩
  | btreeMap _ k u ihk ihu => exact ⟨⟨hf.1, hf.2.1.noExhausted⟩, ihk hf.2.1, ihu hf.2.2⟩
  | btreeSet _ k ih => exact ⟨⟨hf.1, hf.2.noExhausted⟩, ih hf.2⟩
  | rangeInclusive t => exact hf.elim
  | compact c =>
    cases c with
    | as => exact hf.elim
    | _ => trivial
  | option t ih | tuple1 t ih | box t ih | rc t ih | arc t ih | cow t ih | array n t ih
  | genericArray n t ih | vec t ih | vecDeque t ih | linkedList t ih | binaryHeap _ t ih
  | range t ih => exact ih hf
  | _ => trivial

theorem InFormat.inLimits {p : ∀ i, ν i → Prop} {t : Ty ν α} (hf : t.InFormat) {v : α}
    (hv : t.Holds P v) : t.InLimits P p v := by
  induction t with
  | option t ih => exact ⟨trivial, fun a ha => ih hf (hv a ha)⟩
  | result t e iht ihe =>
    refine ⟨trivial, ?_⟩
    cases v with
    | ok a => exact iht hf.1 hv
    | error b => exact ihe hf.2 hv
  | tuple1 t ih | box t ih | rc t ih | arc t ih | cow t ih => exact ⟨trivial, ih hf hv⟩
  | pair t u iht ihu => exact ⟨trivial, iht hf.1 hv.1, ihu hf.2 hv.2⟩
  | array n t ih | genericArray n t ih => exact ⟨trivial, fun a ha => ih hf (hv a ha)⟩
  | vec t ih | vecDeque t ih | linkedList t ih | binaryHeap _ t ih =>
    exact ⟨hv.1, fun a ha => ih hf (hv.2 a ha)⟩
  | btreeMap _ k u ihk ihu =>
    exact ⟨hv.1, fun e he => ⟨ihk hf.2.1 (hv.2 e he).1, ihu hf.2.2 (hv.2 e he).2⟩⟩
  | btreeSet _ k ih => exact ⟨hv.1, fun a ha => ih hf.2 (hv.2 a ha)⟩
  | range t ih => exact ⟨trivial, ih hf hv.1, ih hf hv.2⟩
  | string | bytes => exact hv
  | rangeInclusive | bitVec | bitBox | named => exact hf.elim
  | _ => trivial

/-- Every type of the format round-trips. -/
theorem roundTrips (hE : ∀ i, (envE i).Lawful) (hD : ∀ i, (envD i).Lawful)
    (hsize : ∀ i, (envD i).size = P.size (named i)) {t : Ty ν α} (hf : t.InFormat)
    (hc : t.Compiles P) {v : α} (hv : t.Holds P v) :
    RoundTrips (t.encode P envE) (t.decode P envD) t.Same v :=
  (roundTrips_decoded hE hD hsize hf.wellFormed hc (hf.inLimits hv) (hf.fewBits v)).imp fun _ h =>
    same_of_decoded h (hf.noExhausted v)

end

end Ty

/-! ## The library's own types -/

/-- The types of the library, with no named type among them. -/
abbrev LibTy (α : Type) : Type 1 :=
  Ty Empty.elim α

/-- `impl Encode` of a library type. -/
abbrev LibTy.encode (P : Platform Empty.elim) {α : Type} (t : LibTy α) : Encode α :=
  Ty.encode P (fun i => nomatch i) t

/-- `impl Decode` of a library type. -/
abbrev LibTy.decode (P : Platform Empty.elim) {α : Type} (t : LibTy α) : Decode α :=
  Ty.decode P (fun i => nomatch i) t

/-- The encoding of a value, followed by any bytes, decodes to the value and leaves these bytes. -/
theorem LibTy.decode_encode {P : Platform Empty.elim} {α : Type} {t : LibTy α} (hf : t.InFormat)
    (hc : t.Compiles P) {v : α} (hv : t.Holds P v) :
    ∃ bs, Encodes (t.encode P) v bs ∧ ∀ rest, ∃ v',
      Decodes (t.decode P).decode (bs ++ rest) v' rest ∧
        t.Same v v' ∧ (t.HeapFree → v' = v) := by
  have h : RoundTrips (t.encode P) (t.decode P) t.Same v :=
    Ty.roundTrips (fun i => nomatch i) (fun i => nomatch i) (fun i => nomatch i) hf hc hv
  obtain ⟨bs, henc, hdec⟩ := h
  refine ⟨bs, henc, fun rest => ?_⟩
  obtain ⟨v', hv', hS⟩ := hdec rest
  exact ⟨v', hv', hS, fun h => ((Ty.same_iff_eq h v v').mp hS).symm⟩

/-- A vector of two `u16`s in a box. -/
theorem LibTy.decode_encode_box_vec :
    ∃ bs, Encodes (LibTy.encode (Platform.unpadded _) (.box (.vec (.prim .u16)))) [1, 515] bs ∧
      ∀ rest, ∃ v', Decodes (LibTy.decode (Platform.unpadded _)
          (.box (.vec (.prim .u16)))).decode (bs ++ rest) v' rest ∧
        Ty.Same (.box (.vec (.prim .u16)) : LibTy _) [1, 515] v' ∧
          (Ty.HeapFree (.box (.vec (.prim .u16)) : LibTy _) → v' = [1, 515]) := by
  refine LibTy.decode_encode (t := .box (.vec (.prim .u16))) trivial ⟨by decide, trivial⟩
    ⟨⟨by decide, fun h => ?_⟩, fun _ _ => trivial⟩
  cases h

end ScaleCodec
