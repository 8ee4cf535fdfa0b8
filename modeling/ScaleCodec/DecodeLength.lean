import ScaleCodec.Append
import ScaleCodec.BTrees

/-!
# The length of an encoded collection

`DecodeLength::len` reads the length that an encoded collection starts with, and none of its
elements. It is the number of elements that are decoded, except for maps and sets : these may have
fewer, if keys are repeated (`Ty.len_eq_count_iff`).
-/

namespace ScaleCodec

/-- `DecodeLength::len` of the collections, by `impl_len!`. -/
def decodeLength (tgt : Target) (selfEncoded : List Byte) : ResultM ℕ := do
  let (r, _) ← (runSlice (compactDecode tgt .u32) selfEncoded : ResultM _)
  let len ← (ExceptT.mk (.ok r) : ResultM Width.u32.Val)
  if len.toNat ≤ tgt.usizeMax then pure len.toNat
  else throw (.desc "Failed convert decoded size into usize.")

namespace Ty

variable {ι : Type} {ν : ι → Type} {α : Type}

/-- `DecodeLength::len` of a type that has one. A tuple has that of its first component. -/
def len (tgt : Target) {α : Type} : Ty ν α → Option (List Byte → ResultM ℕ)
  | vec _ | btreeSet _ _ | btreeMap _ _ _ | vecDeque _ | binaryHeap _ _ | linkedList _ =>
    some (decodeLength tgt)
  | tuple1 t | pair t _ => t.len tgt
  | _ => none

/-- The number of elements of a collection, of a tuple those of its first component. -/
def count {α : Type} : Ty ν α → α → ℕ
  | vec _, v | vecDeque _, v | linkedList _, v => v.length
  | btreeMap _ _ _, v => v.entries.length
  | btreeSet _ _, v => v.iter.length
  | binaryHeap _ _, v => v.data.length
  | tuple1 t, v => t.count v
  | pair t _, v => t.count v.1
  | _, _ => 0

/-- No key of the map or set that the bytes start with is repeated. -/
def KeysDistinct (P : Platform ν) (env : ∀ i, Decode (ν i)) (bs : List Byte) {α : Type} :
    Ty ν α → Prop
  | btreeMap _ k v => ∀ items rest,
    ItemsIn (pairDecode (P.size (pair k v)) (k.decode P env) (v.decode P env)).decode bs items
      rest → (items.map Prod.fst).Nodup
  | btreeSet _ k => ∀ items rest, ItemsIn (k.decode P env).decode bs items rest → items.Nodup
  | tuple1 t | pair t _ => t.KeysDistinct P env bs
  | _ => True

end Ty

/-! ## Lengths -/

section Lengths

variable {α : Type} {tgt : Target} {p : DecodeM α} {bs s rest rest' : List Byte}

theorem decodeLength_eq {n : ℕ} (hn : n ≤ u32Max) :
    decodeLength tgt (compactBytes n ++ s) = pure n := by
  have hnat := toNat_ofNat_u32 hn
  have hdec : runSlice (compactDecode tgt .u32) (compactBytes n ++ s) =
      .ok (.ok (BitVec.ofNat _ n), s) := decodes_compactDecode.mpr (by rw [hnat])
  unfold decodeLength
  rw [hdec]
  show (if _ then _ else _ : ResultM ℕ) = _
  rw [hnat, if_pos (hn.trans tgt.u32Max_le_usizeMax)]

theorem decodesList_unique : ∀ {as as' : List α} {s : List Byte}, as.length = as'.length →
    DecodesList p as s rest → DecodesList p as' s rest' → as = as'
  | [], [], _, _, _, _ => rfl
  | _ :: _, _ :: _, _, hlen, ⟨_, h, hs⟩, ⟨_, h', hs'⟩ => by
    obtain ⟨rfl, rfl⟩ := h.unique h'
    rw [decodesList_unique (Nat.succ.inj hlen) hs hs']

theorem ItemsIn.unique {items items' : List α} (h : ItemsIn p bs items rest)
    (h' : ItemsIn p bs items' rest') : items = items' := by
  obtain ⟨hlen, t, rfl, hd⟩ := h
  obtain ⟨hlen', t', heq, hd'⟩ := h'
  have hlt : ∀ n, n ≤ u32Max → n < 2 ^ (8 * Width.u128.prim.size) := fun n hn =>
    hn.trans_lt (by decide)
  have hcount := eq_of_compactBytes_append (hlt _ hlen) (hlt _ hlen') heq
  rw [hcount, List.append_cancel_left_eq] at heq
  exact decodesList_unique hcount hd (heq ▸ hd')

theorem ItemsIn.decodeLength_eq {items : List α} (h : ItemsIn p bs items rest) :
    (decodeLength tgt bs).run = .ok (.ok items.length) := by
  obtain ⟨hlen, t, rfl, -⟩ := h
  rw [ScaleCodec.decodeLength_eq hlen]
  rfl

end Lengths

/-! ## Along a type -/

namespace Ty

variable {ι : Type} {ν : ι → Type} {α : Type} {P : Platform ν} {env : ∀ i, Decode (ν i)}

theorem itemsIn_of_vecDecode (henv : ∀ i, (env i).Lawful)
    (hsize : ∀ i, (env i).size = P.size (named i)) {t : Ty ν α} {size : ℕ}
    (hc : P.size t ≤ maxPreallocation) {bs rest : List Byte} {v : List α}
    (h : Decodes (vecDecode P.target size (t.decode P env)).decode bs v rest) :
    ItemsIn (t.decode P env).decode bs v rest :=
  decodesList_of_vecDecode (decodeWith_lawful henv t) (by rwa [size_decodeWith hsize]) h

/-- The length is that of what the bytes list. It is the number of the decoded elements, unless
keys of a map or set are repeated. -/
theorem len_eq_count_iff (henv : ∀ i, (env i).Lawful)
    (hsize : ∀ i, (env i).size = P.size (named i)) {t : Ty ν α} (hc : t.Compiles P)
    {f : List Byte → ResultM ℕ} (hf : t.len P.target = some f) {bs rest : List Byte} {c : α}
    (h : Decodes (t.decode P env).decode bs c rest) :
    ∃ n, (f bs).run = .ok (.ok n) ∧ t.count c ≤ n ∧ (n = t.count c ↔ t.KeysDistinct P env bs) := by
  induction t generalizing rest with
  | vec t =>
    cases hf
    have hitems := itemsIn_of_vecDecode henv hsize hc.1 h
    exact ⟨_, hitems.decodeLength_eq, le_rfl, iff_of_true rfl trivial⟩
  | vecDeque t =>
    cases hf
    have hitems := itemsIn_of_vecDecode henv hsize hc.1 h
    exact ⟨_, hitems.decodeLength_eq, le_rfl, iff_of_true rfl trivial⟩
  | binaryHeap ord t =>
    cases hf
    obtain ⟨v, hv, rfl⟩ := decodes_map.mp h
    have hitems := itemsIn_of_vecDecode henv hsize hc.1 hv
    have hperm : (P.heapify ord v).length = v.length := (P.heapify_perm ord v).length_eq
    exact ⟨_, hitems.decodeLength_eq, hperm.le, iff_of_true hperm.symm trivial⟩
  | linkedList t =>
    cases hf
    have hnodes : Decodes (nodesDecode P.target (P.target.saturatingMul · (P.listNodeSize t))
        (t.decode P env).decode id) bs c rest := h
    obtain ⟨items, hitems, rfl⟩ := decodes_nodesDecode_iff.mp hnodes
    exact ⟨_, hitems.decodeLength_eq, le_rfl, iff_of_true rfl trivial⟩
  | btreeMap ord k v =>
    cases hf
    obtain ⟨items, hitems, rfl⟩ := decodes_nodesDecode_iff.mp h
    refine ⟨_, hitems.decodeLength_eq, (SortedMap.entries_subperm items).length_le,
      eq_comm.trans (SortedMap.length_fromIter_eq_iff.trans ?_)⟩
    exact ⟨fun hn items' _ h' => hitems.unique h' ▸ hn, fun hn => hn items rest hitems⟩
  | btreeSet ord k =>
    cases hf
    obtain ⟨items, hitems, rfl⟩ := decodes_nodesDecode_iff.mp h
    refine ⟨_, hitems.decodeLength_eq, BTreeSet.length_iter_le items,
      eq_comm.trans (BTreeSet.length_iter_eq_iff.trans ?_)⟩
    exact ⟨fun hn items' _ h' => hitems.unique h' ▸ hn, fun hn => hn items rest hitems⟩
  | tuple1 t ih => exact ih hc hf h
  | pair t u iht =>
    obtain ⟨s, ha, -⟩ := decodes_pairDecode.mp h
    exact iht hc.1 hf ha
  | _ => cases hf

end Ty

/-- Two elements that are the same, in a vector. -/
theorem Ty.len_eq_count_iff_vec :
    ∃ n, (decodeLength ⟨.w64, true⟩ [8, 1, 1]).run = .ok (.ok n) ∧ n = 2 := by
  let P := Platform.unpadded Empty.elim
  let t : LibTy (List Prim.u8.Val) := .vec (.prim .u8)
  have hdec : Decodes (t.decode P).decode [8, 1, 1] [1, 1] [] := rfl
  obtain ⟨n, hn, -, hiff⟩ := Ty.len_eq_count_iff (P := P) (t := t) (fun i => i.elim)
    (fun i => i.elim) ⟨by decide, trivial⟩ rfl hdec
  exact ⟨n, hn, hiff.mpr trivial⟩

/-- In a set they are counted twice and decoded once. -/
theorem Ty.len_ne_count_repeated :
    let ord : LinearOrder Prim.u8.Val :=
      LinearOrder.lift' BitVec.toNat fun _ _ => BitVec.eq_of_toNat_eq
    let P := Platform.unpadded Empty.elim
    let t : LibTy (BTreeSet Prim.u8.Val) := .btreeSet ord (.prim .u8)
    ∃ c f, t.len P.target = some f ∧ Decodes (t.decode P).decode [8, 1, 1] c [] ∧
      (f [8, 1, 1]).run = .ok (.ok 2) ∧ t.count c = 1 :=
  let ord : LinearOrder Prim.u8.Val :=
    LinearOrder.lift' BitVec.toNat fun _ _ => BitVec.eq_of_toNat_eq
  ⟨@BTreeSet.fromIter _ ord [1, 1], _, rfl, rfl, rfl, rfl⟩

end ScaleCodec
