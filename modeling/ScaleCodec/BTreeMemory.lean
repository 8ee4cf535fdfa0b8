import ScaleCodec.BTrees
import ScaleCodec.MemoryClaims

/-!
# The memory announced for maps and sets

`mem_size_of_btree` estimates the number of nodes by a division that rounds down, with one internal
node for 19 entries. So it covers the entries of every tree if and only if 19 of them are not larger
than an internal node (`memSizeOfBtree_covers_iff`), and then a map or set decoded under a memory
limit is smaller than the limit (`btree_mem_covers_iff`).
-/

namespace ScaleCodec

variable {α γ κ υ : Type} {tgt : Target} {size leafNodeSize : ℕ}

/-! ## The estimate -/

/-- What is known of `mem::size_of::<(usize, u16, u16, [T; 11])>()` for a `T` of `size` bytes : it
has room for the fields, and like all sizes is at most `isize::MAX`. -/
structure LeafLayout (tgt : Target) (size leafNodeSize : ℕ) : Prop where
  fields_le : tgt.usizeBytes + 4 + 11 * size ≤ leafNodeSize
  le_isizeMax : leafNodeSize ≤ tgt.isizeMax

/-- A whole number of nodes for 10 entries each has room for up to 9 more, 19 fitting in one. -/
theorem mul_le_nodes {nodeSize len : ℕ} (h : 19 * size ≤ nodeSize) (hlen : 10 ≤ len) :
    len * size ≤ len / 10 * nodeSize := by
  have hle : len ≤ len / 10 * 19 := by omega
  calc len * size ≤ len / 10 * 19 * size := Nat.mul_le_mul_right size hle
    _ = len / 10 * (19 * size) := Nat.mul_assoc _ _ _
    _ ≤ len / 10 * nodeSize := Nat.mul_le_mul_left _ h

/-- If 19 entries fit in a node, the estimate covers the entries or is cut off. -/
theorem le_memSizeOfBtree (hl : LeafLayout tgt size leafNodeSize)
    (h : 19 * size ≤ leafNodeSize + tgt.usizeBytes * 12) (len : ℕ) :
    len * size ≤ memSizeOfBtree tgt leafNodeSize len ∨
      memSizeOfBtree tgt leafNodeSize len = tgt.usizeMax := by
  have hleaf := hl.fields_le
  unfold memSizeOfBtree
  split_ifs with hzero
  · exact .inl (by rw [hzero, Nat.zero_mul])
  dsimp only
  split_ifs with hnodes
  · have hlen : len ≤ 9 := by omega
    exact .inl ((Nat.mul_le_mul_right size hlen).trans (by omega))
  · have hle := mul_le_nodes h (by omega : 10 ≤ len)
    rcases Nat.le_total (len / 10 * (leafNodeSize + tgt.usizeBytes * 12)) tgt.usizeMax with hu | hu
    · exact .inl (hle.trans (Target.saturatingMul_eq hu).ge)
    · exact .inr (min_eq_right hu)

/-- The estimate covers the entries of every tree if and only if 19 of them fit in an internal
node. -/
theorem memSizeOfBtree_covers_iff (hl : LeafLayout tgt size leafNodeSize) :
    (∀ len ≤ u32Max, len * size ≤ tgt.usizeMax →
      len * size ≤ memSizeOfBtree tgt leafNodeSize len) ↔
        19 * size ≤ leafNodeSize + tgt.usizeBytes * 12 := by
  constructor
  · intro h
    have hleaf := hl.fields_le
    have hmax := hl.le_isizeMax
    unfold Target.isizeMax at hmax
    exact (h 19 (by decide) (by omega)).trans ((min_le_left _ _).trans (Nat.one_mul _).le)
  · intro h len _ hlen
    rcases le_memSizeOfBtree hl h len with hle | heq
    · exact hle
    · exact hlen.trans heq.ge

/-! ## Decoding under a limit -/

theorem announced_nodesDecode {memSize : ℕ → ℕ} {p : DecodeM α} {build : List α → γ} {n : ℕ}
    (hn : n ≤ u32Max) (s : List Byte) :
    ∃ l, announced (nodesDecode tgt memSize p build) (compactBytes n ++ s) = memSize n :: l := by
  have hnat := toNat_ofNat_u32 hn
  have hcompact : Decodes (compactDecode tgt .u32) (compactBytes n ++ s) (BitVec.ofNat _ n) s :=
    decodes_compactDecode.mpr (by rw [hnat])
  have hsilent : Silent (compactDecode tgt .u32) := compactDecode_rel (L := silence) (d := 0) .u32
  refine ⟨announced (build <$> p.replicateM n).thenAscend s, (announced_bind hcompact).trans ?_⟩
  rw [hsilent, hnat]
  rfl

/-- What is decoded under a limit was announced, and the announcement is below the limit. -/
theorem memSize_lt_of_memLimited {memSize : ℕ → ℕ} {p : DecodeM α} {build : List α → γ}
    (hp : Obeys .total 1 p) {m : tgt.Usize} {s rest : List Byte} {v : γ}
    (h : Decodes (decodeWithMemLimit m (nodesDecode tgt memSize p build)) s v rest) :
    ∃ items, v = build items ∧ memSize items.length < m := by
  have hobeys : Obeys (.anyDepth fun _ => False) 0 (nodesDecode tgt memSize p build) :=
    nodesDecode_rel (L := Discipline.total.logic) (I := p) fun _ => hp
  obtain ⟨r, t, hr⟩ := (runSlice_of_obeys (fun _ => trivial) hobeys s).resolve_right
    fun ⟨_, _, hh⟩ => hh
  obtain ⟨⟨rfl, rfl⟩, hm⟩ := (decodes_memLimited_iff hobeys hr).mp h
  obtain ⟨items, ⟨hlen, t', rfl, -⟩, rfl⟩ := decodes_nodesDecode_iff.mp hr
  obtain ⟨l, hl⟩ := @announced_nodesDecode _ _ tgt memSize p build _ hlen t'
  rw [hl, List.sum_cons, or_iff_right (List.cons_ne_nil _ _)] at hm
  exact ⟨items, rfl, by have := m.2; omega⟩

/-- A value of no more items than were announced is smaller than the limit, if the estimate
covers the items. -/
theorem count_lt_of_memLimited (hl : LeafLayout tgt size leafNodeSize)
    (hcover : 19 * size ≤ leafNodeSize + tgt.usizeBytes * 12) {p : DecodeM α}
    {build : List α → γ} (hp : Obeys .total 1 p) (count : γ → ℕ)
    (hcount : ∀ items, count (build items) ≤ items.length) {m : tgt.Usize} {s rest : List Byte}
    {v : γ} (h : Decodes (decodeWithMemLimit m
      (nodesDecode tgt (memSizeOfBtree tgt leafNodeSize) p build)) s v rest) :
    count v * size < m := by
  obtain ⟨items, rfl, hm⟩ := memSize_lt_of_memLimited hp h
  rcases le_memSizeOfBtree hl hcover items.length with hle | heq
  · exact ((Nat.mul_le_mul_right size (hcount items)).trans hle).trans_lt hm
  · rw [heq] at hm
    exact absurd hm (not_lt.mpr m.2)

/-- The memory announced for maps and sets covers their entries, whatever their number, if and only
if 19 entries fit in an internal node. -/
theorem btree_mem_covers_iff [LinearOrder κ] {I : Decode (κ × υ)} {J : Decode κ}
    (hI : Obeys .total 1 I.decode) (hJ : Obeys .total 1 J.decode) {mapLeaf setLeaf : ℕ}
    (hmap : LeafLayout tgt I.size mapLeaf) (hset : LeafLayout tgt J.size setLeaf) (size : ℕ) :
    (((∀ len ≤ u32Max, len * I.size ≤ tgt.usizeMax →
          len * I.size ≤ memSizeOfBtree tgt mapLeaf len) ∧
        ∀ (m : tgt.Usize) s v rest,
          Decodes (decodeWithMemLimit m (btreeMapDecode tgt size mapLeaf I).decode) s v rest →
            v.entries.length * I.size < m) ↔
      19 * I.size ≤ mapLeaf + tgt.usizeBytes * 12) ∧
    (((∀ len ≤ u32Max, len * J.size ≤ tgt.usizeMax →
          len * J.size ≤ memSizeOfBtree tgt setLeaf len) ∧
        ∀ (m : tgt.Usize) s v rest,
          Decodes (decodeWithMemLimit m (btreeSetDecode tgt size setLeaf J).decode) s v rest →
            v.iter.length * J.size < m) ↔
      19 * J.size ≤ setLeaf + tgt.usizeBytes * 12) := by
  constructor
  · refine ⟨fun h => (memSizeOfBtree_covers_iff hmap).mp h.1, fun h =>
      ⟨(memSizeOfBtree_covers_iff hmap).mpr h, fun m s v rest hv => ?_⟩⟩
    exact count_lt_of_memLimited hmap h hI (fun v : BTreeMap κ υ => v.entries.length)
      (fun items => (SortedMap.entries_subperm items).length_le) hv
  · refine ⟨fun h => (memSizeOfBtree_covers_iff hset).mp h.1, fun h =>
      ⟨(memSizeOfBtree_covers_iff hset).mpr h, fun m s v rest hv => ?_⟩⟩
    exact count_lt_of_memLimited hset h hJ (fun v : BTreeSet κ => v.iter.length)
      BTreeSet.length_iter_le hv

/-- A map of two entries of two bytes and a set of two bytes, decoded within 200 bytes. -/
theorem btree_mem_covers_iff_small :
    let _ : LinearOrder Prim.u8.Val :=
      LinearOrder.lift' BitVec.toNat fun _ _ => BitVec.eq_of_toNat_eq
    let m : Target.Usize ⟨.w64, true⟩ := ⟨200, by decide⟩
    let I := pairDecode 2 (primDecode .u8) (primDecode .u8)
    let map : BTreeMap Prim.u8.Val Prim.u8.Val := SortedMap.fromIter [(2, 20), (1, 10)]
    let set : BTreeSet Prim.u8.Val := BTreeSet.fromIter [2, 1]
    7 * 2 ≤ memSizeOfBtree ⟨.w64, true⟩ 40 7 ∧ 7 * 1 ≤ memSizeOfBtree ⟨.w64, true⟩ 24 7 ∧
      Decodes (decodeWithMemLimit m (btreeMapDecode ⟨.w64, true⟩ 24 40 I).decode)
        [8, 2, 20, 1, 10] map [] ∧ map.entries.length * 2 < 200 ∧
      Decodes (decodeWithMemLimit m (btreeSetDecode ⟨.w64, true⟩ 24 24 (primDecode .u8)).decode)
        [8, 2, 1] set [] ∧ set.iter.length * 1 < 200 := by
  intro ord m I map set
  have hprim : ∀ d, (primDecode .u8).Rel Discipline.total.logic d (primDecode .u8) :=
    fun _ => primDecode_rel .u8
  have hpair : I.Rel Discipline.total.logic 1 I :=
    pairDecode_rel (hprim 1).decode (hprim 1).decode
  have hmapLeaf : LeafLayout ⟨.w64, true⟩ I.size 40 := ⟨by decide, by decide⟩
  have hsetLeaf : LeafLayout ⟨.w64, true⟩ (primDecode .u8).size 24 := ⟨by decide, by decide⟩
  obtain ⟨hmap, hset⟩ := btree_mem_covers_iff hpair.decode (hprim 1).decode hmapLeaf hsetLeaf 24
  obtain ⟨hmapSize, hmapLimit⟩ := hmap.mpr (by decide)
  obtain ⟨hsetSize, hsetLimit⟩ := hset.mpr (by decide)
  have hmapDec : Decodes (decodeWithMemLimit m (btreeMapDecode ⟨.w64, true⟩ 24 40 I).decode)
      [8, 2, 20, 1, 10] map [] := rfl
  have hsetDec : Decodes (decodeWithMemLimit m
      (btreeSetDecode ⟨.w64, true⟩ 24 24 (primDecode .u8)).decode) [8, 2, 1] set [] := rfl
  exact ⟨hmapSize 7 (by decide) (by decide), hsetSize 7 (by decide) (by decide), hmapDec,
    hmapLimit m _ map _ hmapDec, hsetDec, hsetLimit m _ set _ hsetDec⟩

/-- A set of 19 `u128`, of 304 bytes, is decoded within a limit of 289 bytes. -/
theorem btree_mem_short :
    let _ : LinearOrder Prim.u128.Val :=
      LinearOrder.lift' BitVec.toNat fun _ _ => BitVec.eq_of_toNat_eq
    let p := (btreeSetDecode ⟨.w64, true⟩ 24 192 (primDecode .u128)).decode
    LeafLayout ⟨.w64, true⟩ 16 192 ∧ memSizeOfBtree ⟨.w64, true⟩ 192 19 < 19 * 16 ∧
      ∃ (m : Target.Usize ⟨.w64, true⟩) (s : List Byte) (v : BTreeSet Prim.u128.Val),
        m.1 = 289 ∧ Decodes (decodeWithMemLimit m p) s v [] ∧ v.iter.length * 16 = 304 := by
  intro ord p
  let items : List Prim.u128.Val := (List.range 19).map (BitVec.ofNat 128)
  have hsilent : Silent (primDecode .u128).decode :=
    (primDecode_rel (L := silence) (d := 0) .u128).decode
  have hobeys : Obeys (.anyDepth fun _ => False) 0 p :=
    nodesDecode_rel (L := Discipline.total.logic) fun _ =>
      (primDecode_rel (L := Discipline.total.logic) (d := 1) .u128).decode
  have hitems : DecodesList (primDecode .u128).decode items
      (items.flatMap toLeBytes ++ []) [] := decodesList_prim.mpr rfl
  have hlen : items.length = 19 := rfl
  obtain ⟨hrun, hsum⟩ : Claims p (compactBytes items.length ++ (items.flatMap toLeBytes ++ []))
      (BTreeSet.fromIter items) [] (memSizeOfBtree ⟨.w64, true⟩ 192 items.length + 0) :=
    claims_nodesDecode (by rw [hlen]; decide) (hsilent.claimsList hitems)
  refine ⟨⟨by decide, by decide⟩, by decide, ⟨289, by decide⟩, _, BTreeSet.fromIter items, rfl,
    (decodes_memLimited_iff hobeys hrun).mpr ⟨⟨rfl, rfl⟩, .inr ?_⟩, ?_⟩
  · rw [hsum, hlen]
    decide
  · rw [BTreeSet.length_iter_eq_iff.mpr (by decide), hlen]

end ScaleCodec
