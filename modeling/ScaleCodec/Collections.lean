import ScaleCodec.Impls
import ScaleCodec.SortedMap

/-!
# Collections

`VecDeque`, `LinkedList`, `BTreeMap`, `BTreeSet`, `BinaryHeap` and `GenericArray`. A `BTreeMap` is
a sorted map and a `BTreeSet` the sorted map of its elements. A `BinaryHeap` is its array, in
the order its iterator gives, and `BinaryHeap::from` reorders a vector (`heapify`). A `VecDeque`
is its contents, wherever its ring buffer wraps (`split`).

All are encoded as a length and items (`encodes_collectionEncode`, `encodes_vecDequeEncode`). The
decoders of the linked types enter a reference and announce the memory of all their nodes before
the items (`nodesDecode`).
-/

namespace ScaleCodec

variable {α κ υ γ : Type} {s s' bs : List Byte}

/-! ## Encoding -/

/-- `impl_encode_for_collection!`, for the items `iter` gives. -/
def collectionEncode (E : Encode α) (iter : γ → List α) : Encode γ :=
  EncodeImpl.toEncode
    { encodeTo := some fun v => writeThen (expectLen (iter v).length) (encodeItems E (iter v)) }

/-- `impl Encode for VecDeque<T>`, whose contents `as_slices` cuts at `split`. -/
def vecDequeEncode (tgt : Target) (split : List α → ℕ) (E : Encode α) : Encode (List α) :=
  EncodeImpl.toEncode
    { encodeTo := some fun v =>
        writeThen (expectLen v.length)
          (writeThen (encodeSliceNoLen tgt E (v.take (split v)))
            (encodeSliceNoLen tgt E (v.drop (split v)))) }

/-- `BTreeMap<K, V>`. -/
abbrev BTreeMap (κ υ : Type) [LinearOrder κ] : Type :=
  SortedMap κ υ

/-- `BTreeSet<T>`. -/
abbrev BTreeSet (κ : Type) [LinearOrder κ] : Type :=
  SortedMap κ Unit

/-- `BTreeSet::iter`. -/
def BTreeSet.iter [LinearOrder κ] (v : BTreeSet κ) : List κ :=
  v.entries.map Prod.fst

/-- `BTreeSet::from_iter`. -/
def BTreeSet.fromIter [LinearOrder κ] (l : List κ) : BTreeSet κ :=
  SortedMap.fromIter (l.map fun k => (k, ()))

/-- A set has the elements it is made of. -/
theorem BTreeSet.mem_fromIter [LinearOrder κ] {l : List κ} {k : κ} :
    k ∈ (BTreeSet.fromIter l).iter ↔ k ∈ l := by
  rw [BTreeSet.iter, List.mem_map, BTreeSet.fromIter, SortedMap.exists_key_fromIter]
  simp

theorem BTreeSet.fromIter_iter [LinearOrder κ] (v : BTreeSet κ) :
    BTreeSet.fromIter v.iter = v := by
  have h : (v.iter.map fun k => (k, ())) = v.entries := by
    rw [BTreeSet.iter, List.map_map]
    exact List.map_id _
  rw [BTreeSet.fromIter, h, v.fromIter_entries]

theorem BTreeSet.length_iter_le [LinearOrder κ] (l : List κ) :
    (BTreeSet.fromIter l).iter.length ≤ l.length := by
  have h := (SortedMap.entries_subperm (l.map fun k => (k, ()))).length_le
  rw [List.length_map] at h
  rwa [BTreeSet.iter, List.length_map]

/-- A set has as many elements as it is made of if and only if none was repeated. -/
theorem BTreeSet.length_iter_eq_iff [LinearOrder κ] {l : List κ} :
    (BTreeSet.fromIter l).iter.length = l.length ↔ l.Nodup := by
  have h := SortedMap.length_fromIter_eq_iff (l := l.map fun k => (k, ()))
  rw [List.map_map, List.length_map] at h
  rw [BTreeSet.iter, List.length_map]
  exact h.trans (by rw [show Prod.fst ∘ (fun k : κ => (k, ())) = id from rfl, List.map_id])

/-- `BinaryHeap<T>` : its array. -/
structure BinaryHeap (α : Type) where
  data : List α

/-- `impl Encode for BTreeMap<K, V>`. -/
def btreeMapEncode [LinearOrder κ] (E : Encode κ) (F : Encode υ) : Encode (BTreeMap κ υ) :=
  collectionEncode (pairEncode E F) SortedMap.entries

/-- `impl Encode for BTreeSet<T>`. -/
def btreeSetEncode [LinearOrder κ] (E : Encode κ) : Encode (BTreeSet κ) :=
  collectionEncode E BTreeSet.iter

/-- `impl Encode for LinkedList<T>`. -/
def linkedListEncode (E : Encode α) : Encode (List α) :=
  collectionEncode E id

/-- `impl Encode for BinaryHeap<T>`. -/
def binaryHeapEncode (E : Encode α) : Encode (BinaryHeap α) :=
  collectionEncode E BinaryHeap.data

/-- `impl Encode for GenericArray<T, L>`. -/
def genericArrayEncode (n : ℕ) (E : Encode α) : Encode (List.Vector α n) :=
  EncodeImpl.toEncode { encodeTo := some fun v => encodeItems E v.toList }

section Encoding

variable {tgt : Target} {E : Encode α}

/-- A collection is encoded as its length and its items. -/
theorem encodes_collectionEncode (hE : E.Lawful) {iter : γ → List α} {v : γ} :
    Encodes (collectionEncode E iter) v bs ↔ (iter v).length ≤ u32Max ∧
      ∃ b, EncodesList E (iter v) b ∧ bs = compactBytes (iter v).length ++ b := by
  refine EncodeImpl.encodes_encodeTo.trans (writes_writeThen.trans ?_)
  simp only [writes_expectLen, writes_encodeItems hE]
  constructor
  · rintro ⟨_, c, ⟨hlen, rfl⟩, hc, rfl⟩
    exact ⟨hlen, c, hc, rfl⟩
  · rintro ⟨hlen, c, hc, rfl⟩
    exact ⟨_, c, ⟨hlen, rfl⟩, hc, rfl⟩

/-- A collection is encoded as the vector of its items. -/
theorem encodes_collectionEncode_iff (hE : E.Lawful) {iter : γ → List α} {v : γ} :
    Encodes (collectionEncode E iter) v bs ↔ Encodes (vecEncode tgt E) (iter v) bs :=
  (encodes_collectionEncode hE).trans (encodes_vecEncode hE).symm

/-- Where the ring buffer wraps does not show. -/
theorem encodes_vecDequeEncode (hE : E.Lawful) {split : List α → ℕ} {v : List α} :
    Encodes (vecDequeEncode tgt split E) v bs ↔ Encodes (vecEncode tgt E) v bs := by
  rw [encodes_vecEncode hE]
  refine EncodeImpl.encodes_encodeTo.trans (writes_writeThen.trans ?_)
  simp only [writes_expectLen, writes_writeThen, writes_encodeSliceNoLen hE]
  simp only [← encodesList_append, List.take_append_drop]
  constructor
  · rintro ⟨_, c, ⟨hlen, rfl⟩, hc, rfl⟩
    exact ⟨hlen, c, hc, rfl⟩
  · rintro ⟨hlen, c, hc, rfl⟩
    exact ⟨_, c, ⟨hlen, rfl⟩, hc, rfl⟩

theorem encodes_genericArrayEncode (hE : E.Lawful) {n : ℕ} {v : List.Vector α n} :
    Encodes (genericArrayEncode n E) v bs ↔ EncodesList E v.toList bs :=
  EncodeImpl.encodes_encodeTo.trans (writes_encodeItems hE)

end Encoding

/-! ## Decoding -/

/-- `mem_size_of_btree`, for a leaf node of `leafNodeSize` bytes. -/
def memSizeOfBtree (tgt : Target) (leafNodeSize len : ℕ) : ℕ :=
  if len = 0 then 0
  else
    let internalNodeSize := leafNodeSize + tgt.usizeBytes * 12
    let numNodes := len / ((11 + 5) * 2 / 3)
    if numNodes = 0 then leafNodeSize else tgt.saturatingMul numNodes internalNodeSize

/-- The `decode` of the linked collections : the length, the memory of that many nodes, the
items, of which `build` makes the value. -/
def nodesDecode (tgt : Target) (memSize : ℕ → ℕ) (I : DecodeM α) (build : List α → γ) :
    DecodeM γ := do
  let len ← compactDecode tgt .u32
  (build <$> I.replicateM len.toNat).nestedAlloc (memSize len.toNat)

/-- `impl Decode for BTreeMap<K, V>`. -/
def btreeMapDecode [LinearOrder κ] (tgt : Target) (size leafNodeSize : ℕ) (I : Decode (κ × υ)) :
    Decode (BTreeMap κ υ) :=
  Decode.ofDecode size
    (nodesDecode tgt (memSizeOfBtree tgt leafNodeSize) I.decode SortedMap.fromIter)

/-- `impl Decode for BTreeSet<T>`. -/
def btreeSetDecode [LinearOrder κ] (tgt : Target) (size leafNodeSize : ℕ) (I : Decode κ) :
    Decode (BTreeSet κ) :=
  Decode.ofDecode size
    (nodesDecode tgt (memSizeOfBtree tgt leafNodeSize) I.decode BTreeSet.fromIter)

/-- `impl Decode for LinkedList<T>`. -/
def linkedListDecode (tgt : Target) (size nodeSize : ℕ) (I : Decode α) : Decode (List α) :=
  Decode.ofDecode size (nodesDecode tgt (tgt.saturatingMul · nodeSize) I.decode id)

/-- `impl Decode for BinaryHeap<T>`. -/
def binaryHeapDecode (tgt : Target) (size vecSize : ℕ) (heapify : List α → List α)
    (I : Decode α) : Decode (BinaryHeap α) :=
  Decode.ofDecode size ((fun vec => ⟨heapify vec⟩) <$> (vecDecode tgt vecSize I).decode)

/-- `impl Decode for VecDeque<T>`. -/
def vecDequeDecode (tgt : Target) (size vecSize : ℕ) (I : Decode α) : Decode (List α) :=
  Decode.ofDecode size (vecDecode tgt vecSize I).decode

/-- `impl Decode for GenericArray<T, L>` : `from_exact_iter` takes exactly the length it has. -/
def genericArrayDecode (n size : ℕ) (I : Decode α) : Decode (List.Vector α n) :=
  Decode.ofDecode size (do
    let r ← I.decode.replicateM n
    if h : r.length = n then pure ⟨r, h⟩
    else DecodeM.err "array length does not match definition")

section Decoding

variable {tgt : Target} {I : DecodeM α}

/-- A linked collection is read as its length and its items. -/
theorem decodes_nodesDecode {memSize : ℕ → ℕ} {build : List α → γ} {v : γ} :
    Decodes (nodesDecode tgt memSize I build) s v s' ↔ ∃ as t, as.length ≤ u32Max ∧
      s = compactBytes as.length ++ t ∧ DecodesList I as t s' ∧ v = build as := by
  refine (decodes_len_bind (f := fun n => (build <$> I.replicateM n).nestedAlloc (memSize n))).trans
    ?_
  simp only [decodes_nestedAlloc, decodes_map, decodes_replicateM]
  constructor
  · rintro ⟨_, t, hlen, rfl, as, ⟨rfl, hd⟩, rfl⟩
    exact ⟨as, t, hlen, rfl, hd, rfl⟩
  · rintro ⟨as, t, hlen, rfl, hd, rfl⟩
    exact ⟨_, t, hlen, rfl, as, ⟨rfl, hd⟩, rfl⟩

theorem decodes_genericArrayDecode {n size : ℕ} {J : Decode α} {v : List.Vector α n} :
    Decodes (genericArrayDecode n size J).decode s v s' ↔ DecodesList J.decode v.toList s s' := by
  refine decodes_bind.trans ?_
  simp only [decodes_replicateM]
  constructor
  · rintro ⟨r, t, ⟨hlen, hd⟩, h⟩
    rw [dif_pos hlen] at h
    obtain ⟨rfl, rfl⟩ := decodes_pure.mp h
    exact hd
  · intro h
    refine ⟨v.toList, s', ⟨v.toList_length, h⟩, ?_⟩
    rw [dif_pos v.toList_length]
    exact decodes_pure.mpr ⟨rfl, rfl⟩

variable {L : DecoderLogic} {d : ℕ}

theorem nodesDecode_rel {memSize : ℕ → ℕ} {build : List α → γ} {J : DecodeM α}
    (hI : L.depthOk (d + 1) → L.Rel (d + 1) I J) :
    L.Rel d (nodesDecode tgt memSize I build) (nodesDecode tgt memSize J build) :=
  L.rel_bind (compactDecode_rel .u32) fun _ =>
    L.rel_nestedAlloc fun hd => L.rel_map (L.rel_replicateM (hI hd) _)

theorem genericArrayDecode_rel {n size : ℕ} {J J' : Decode α} (hJ : L.Rel d J.decode J'.decode) :
    (genericArrayDecode n size J).Rel L d (genericArrayDecode n size J') :=
  Decode.rel_ofDecode <| L.rel_bind (L.rel_replicateM hJ n) fun _ =>
    L.rel_dite (fun _ => L.rel_pure _) fun _ => L.rel_err (by decide)

end Decoding

end ScaleCodec
