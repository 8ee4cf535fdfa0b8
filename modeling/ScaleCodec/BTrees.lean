import ScaleCodec.Canonical
import ScaleCodec.Locality

/-!
# Maps and sets

The decoders of `BTreeMap` and `BTreeSet` accept entries in any order and keys that are repeated.
What they return is a normal form (`btree_decode_normalises`) : the entries inserted one by one, of
which the last of each key stays, whose encoding has the keys in order, is not longer than what was
read and decodes to the same.
-/

namespace ScaleCodec

variable {α β γ κ υ : Type} {tgt : Target} {bs rest : List Byte}

/-! ## Items -/

/-- The bytes are a length and so many items, followed by `rest`. -/
def ItemsIn (p : DecodeM α) (bs : List Byte) (items : List α) (rest : List Byte) : Prop :=
  items.length ≤ u32Max ∧ ∃ t, bs = compactBytes items.length ++ t ∧ DecodesList p items t rest

theorem decodes_nodesDecode_iff {p : DecodeM α} {memSize : ℕ → ℕ} {build : List α → γ} {v : γ} :
    Decodes (nodesDecode tgt memSize p build) bs v rest ↔
      ∃ items, ItemsIn p bs items rest ∧ v = build items := by
  rw [decodes_nodesDecode]
  constructor
  · rintro ⟨items, t, hlen, rfl, hd, rfl⟩
    exact ⟨items, ⟨hlen, t, rfl, hd⟩, rfl⟩
  · rintro ⟨items, ⟨hlen, t, rfl, hd⟩, rfl⟩
    exact ⟨items, t, hlen, rfl, hd, rfl⟩

/-- A decoded value is decoded again from its encoding, whatever follows. -/
theorem roundTrips_of_decodes {E : Encode α} {I : Decode α} (hc : Canonical E I)
    (hl : Local I.decode) {s s' : List Byte} {a : α} (h : Decodes I.decode s a s') :
    RoundTrips E I Eq a := by
  obtain ⟨b, henc, hs⟩ := hc s a s' h
  obtain ⟨c, hs', hdec⟩ := hl s a s' h
  obtain rfl : b = c := List.append_cancel_right (hs.symm.trans hs')
  exact roundTrips_of_exact henc hdec

theorem roundTrips_of_decodesList {E : Encode α} {I : Decode α} (hc : Canonical E I)
    (hl : Local I.decode) : ∀ {as : List α} {s s' : List Byte}, DecodesList I.decode as s s' →
      ∀ a ∈ as, RoundTrips E I Eq a
  | [], _, _, _, _, ha => absurd ha List.not_mem_nil
  | _ :: _, _, _, ⟨_, h, hs⟩, a, ha => by
    rcases List.mem_cons.mp ha with rfl | ha
    · exact roundTrips_of_decodes hc hl h
    · exact roundTrips_of_decodesList hc hl hs a ha

/-! ## Normal forms -/

/-- The decoder `p` of a collection, whose items `iter` lists, normalises it. -/
structure Normalises [LinearOrder κ] (E : Encode γ) (p : DecodeM γ) (item : DecodeM α)
    (empty : γ) (insert : γ → α → γ) (iter : γ → List α) (key : α → κ) : Prop where
  /-- The items are inserted one by one, and the last of each key stays. -/
  insert_items : ∀ {bs v rest}, Decodes p bs v rest →
    ∃ items, ItemsIn item bs items rest ∧ v = items.foldl insert empty ∧
      ∀ x, x ∈ iter v ↔
        ∃ before after, items = before ++ x :: after ∧ ∀ e ∈ after, key e ≠ key x
  /-- The order of items with different keys does not matter. -/
  of_perm : ∀ {bs bs' items items' rest rest'}, ItemsIn item bs items rest →
    ItemsIn item bs' items' rest' → items.Perm items' → (items.map key).Nodup →
      ∃ v, Decodes p bs v rest ∧ Decodes p bs' v rest'
  /-- The encoding has the keys in order, is not longer and decodes to the same. -/
  encoding : ∀ {bs v rest}, Decodes p bs v rest →
    ∃ enc, Encodes E v enc ∧ enc.length + rest.length ≤ bs.length ∧
      ((iter v).map key).Pairwise (· < ·) ∧
      ∀ ext, ItemsIn item (enc ++ ext) (iter v) ext ∧ Decodes p (enc ++ ext) v ext

/-- A linked collection normalises if it is made of its own items, which are the last ones with
their keys among those it was made of. -/
theorem normalises_nodes [LinearOrder κ] {E : Encode α} {I : Decode α} (hE : E.Lawful)
    (hc : Canonical E I) (hl : Local I.decode) {memSize : ℕ → ℕ} {empty : γ}
    {insert : γ → α → γ} {iter : γ → List α} {key : α → κ}
    (hmem : ∀ items x, x ∈ iter (items.foldl insert empty) ↔
      ∃ before after, items = before ++ x :: after ∧ ∀ e ∈ after, key e ≠ key x)
    (hperm : ∀ {items items' : List α}, items.Perm items' → (items.map key).Nodup →
      items.foldl insert empty = items'.foldl insert empty)
    (hsorted : ∀ v, ((iter v).map key).Pairwise (· < ·))
    (hiter : ∀ v, (iter v).foldl insert empty = v) :
    Normalises (collectionEncode E iter)
      (nodesDecode tgt memSize I.decode (List.foldl insert empty)) I.decode empty insert iter
      key where
  insert_items h := by
    obtain ⟨items, hitems, rfl⟩ := decodes_nodesDecode_iff.mp h
    exact ⟨items, hitems, rfl, hmem items⟩
  of_perm h h' hp hn :=
    ⟨_, decodes_nodesDecode_iff.mpr ⟨_, h, rfl⟩, decodes_nodesDecode_iff.mpr ⟨_, h', hperm hp hn⟩⟩
  encoding {bs v rest} h := by
    obtain ⟨items, ⟨hlen, t, rfl, hd⟩, rfl⟩ := decodes_nodesDecode_iff.mp h
    obtain ⟨b, hb, rfl⟩ := canonical_items hc hd
    have hnodup : (iter (items.foldl insert empty)).Nodup :=
      List.Nodup.of_map key ((hsorted _).imp ne_of_lt)
    have hsub : iter (items.foldl insert empty) ⊆ items := by
      intro x hx
      obtain ⟨before, after, rfl, -⟩ := (hmem items x).mp hx
      exact List.mem_append_right _ List.mem_cons_self
    obtain ⟨l, hl', hle⟩ := List.subperm_of_subset hnodup hsub
    have hcount := (List.subperm_of_subset hnodup hsub).length_le
    obtain ⟨c, hc', hdec⟩ := roundTrips_items fun a ha =>
      roundTrips_of_decodesList hc hl hd a (hsub ha)
    obtain ⟨b₁, hb₁, hle₁⟩ := exists_encodesList_of_sublist hle hb
    obtain ⟨b₂, hb₂, hle₂⟩ := exists_encodesList_of_perm hl' hb₁
    obtain rfl := hb₂.unique hc'
    have hread : ∀ ext, ItemsIn I.decode
        (compactBytes (iter (items.foldl insert empty)).length ++ b₂ ++ ext)
        (iter (items.foldl insert empty)) ext := by
      intro ext
      obtain ⟨as, has, heq⟩ := hdec ext
      rw [List.forall₂_eq_eq_eq] at heq
      subst heq
      exact ⟨hcount.trans hlen, _, List.append_assoc _ _ _, has⟩
    refine ⟨_, (encodes_collectionEncode hE).mpr ⟨hcount.trans hlen, b₂, hb₂, rfl⟩, ?_, hsorted _,
      fun ext => ⟨hread ext, decodes_nodesDecode_iff.mpr ⟨_, hread ext, (hiter _).symm⟩⟩⟩
    have hpfx := length_compactBytes_mono hcount
    simp only [List.length_append]
    omega

/-- The elements of a set are the last ones of the elements it is made of. -/
theorem mem_iter_foldl_insert [LinearOrder κ] {items : List κ} {x : κ} :
    x ∈ BTreeSet.iter (items.foldl (fun v k => v.insert (k, ())) SortedMap.empty) ↔
      ∃ before after, items = before ++ x :: after ∧ ∀ e ∈ after, id e ≠ id x := by
  rw [← List.foldl_map (f := fun k => (k, ())) (g := SortedMap.insert)]
  have hiter : x ∈ BTreeSet.iter (BTreeSet.fromIter items) ↔
      (x, ()) ∈ (BTreeSet.fromIter items).entries :=
    List.mem_map.trans ⟨fun ⟨_, he, hx⟩ => hx ▸ he, fun he => ⟨_, he, rfl⟩⟩
  refine hiter.trans (SortedMap.mem_fromIter.trans ?_)
  constructor
  · rintro ⟨before, after, heq, hlast⟩
    obtain ⟨b, l, rfl, rfl, hl⟩ := List.map_eq_append_iff.mp heq
    obtain ⟨k, a, rfl, hk, rfl⟩ := List.map_eq_cons_iff.mp hl
    cases hk
    exact ⟨b, a, rfl, fun e he => hlast (e, ()) (List.mem_map_of_mem he)⟩
  · rintro ⟨before, after, rfl, hlast⟩
    refine ⟨before.map fun k => (k, ()), after.map fun k => (k, ()), List.map_append, ?_⟩
    intro e he
    obtain ⟨k, hk, rfl⟩ := List.mem_map.mp he
    exact hlast k hk

theorem local_pairDecode {I : Decode α} {J : Decode β} (hI : Local I.decode)
    (hJ : Local J.decode) (size : ℕ) : Local (pairDecode size I J).decode :=
  local_bind_of_yields hI yields_true fun _ _ =>
    local_bind_of_yields hJ yields_true fun _ _ => local_pure _

/-- Maps and sets normalise, if keys and values decode canonically, from the bytes they consume. -/
theorem btree_decode_normalises [LinearOrder κ] {E : Encode κ} {F : Encode υ} {I : Decode κ}
    {J : Decode υ} (hE : E.Lawful) (hF : F.Lawful) (hI : Canonical E I) (hJ : Canonical F J)
    (hlI : Local I.decode) (hlJ : Local J.decode) (size leafNodeSize pairSize : ℕ) :
    Normalises (btreeMapEncode E F)
        (btreeMapDecode tgt size leafNodeSize (pairDecode pairSize I J)).decode
        (pairDecode pairSize I J).decode SortedMap.empty SortedMap.insert SortedMap.entries
        Prod.fst ∧
      Normalises (btreeSetEncode E) (btreeSetDecode tgt size leafNodeSize I).decode I.decode
        SortedMap.empty (fun v k => v.insert (k, ())) BTreeSet.iter id := by
  constructor
  · exact normalises_nodes pairEncode_lawful (canonical_pair hE hF hI hJ)
      (local_pairDecode hlI hlJ pairSize) (fun _ _ => SortedMap.mem_fromIter)
      SortedMap.fromIter_eq_of_perm (fun m => List.pairwise_map.mpr m.sorted)
      SortedMap.fromIter_entries
  · have hbuild : (BTreeSet.fromIter : List κ → BTreeSet κ) =
        List.foldl (fun v k => v.insert (k, ())) SortedMap.empty :=
      funext fun _ => List.foldl_map
    show Normalises _ (nodesDecode _ _ _ BTreeSet.fromIter) _ _ _ _ _
    rw [hbuild]
    refine normalises_nodes hE hI hlI (fun _ _ => mem_iter_foldl_insert) (fun hp hn => ?_)
      (fun m => ?_) fun m => ?_
    · rw [← hbuild]
      refine SortedMap.fromIter_eq_of_perm (hp.map _) ?_
      rwa [List.map_map]
    · rw [List.map_id]
      exact List.pairwise_map.mpr m.sorted
    · rw [← hbuild]
      exact m.fromIter_iter

/-- Two entries in either order. -/
theorem btree_decode_normalises_two_orders :
    let _ : LinearOrder Prim.u8.Val :=
      LinearOrder.lift' BitVec.toNat fun _ _ => BitVec.eq_of_toNat_eq
    ∃ m : BTreeMap Prim.u8.Val Prim.u8.Val,
      Decodes (btreeMapDecode ⟨.w64, true⟩ 24 34 (pairDecode 2 (primDecode .u8)
        (primDecode .u8))).decode [8, 2, 7, 1, 9] m [] ∧
      Decodes (btreeMapDecode ⟨.w64, true⟩ 24 34 (pairDecode 2 (primDecode .u8)
        (primDecode .u8))).decode [8, 1, 9, 2, 7] m [] := by
  intro ord
  have hcanonical : Canonical (primEncode .u8) (primDecode .u8) := fun _ v _ h =>
    ⟨_, primEncode_encode .u8 v, decodes_primDecode.mp h⟩
  have hlocal : Local (primDecode .u8).decode :=
    (primDecode_rel (L := locality) (d := 0) .u8).decode
  obtain ⟨hmap, -⟩ := @btree_decode_normalises _ _ ⟨.w64, true⟩ ord _ _ _ _ (primEncode_lawful .u8)
    (primEncode_lawful .u8) hcanonical hcanonical hlocal hlocal 24 34 2
  have hitems : ItemsIn (pairDecode 2 (primDecode .u8) (primDecode .u8)).decode [8, 2, 7, 1, 9]
      [(2, 7), (1, 9)] [] := ⟨by decide, [2, 7, 1, 9], rfl, _, rfl, _, rfl, rfl⟩
  have hitems' : ItemsIn (pairDecode 2 (primDecode .u8) (primDecode .u8)).decode [8, 1, 9, 2, 7]
      [(1, 9), (2, 7)] [] := ⟨by decide, [1, 9, 2, 7], rfl, _, rfl, _, rfl, rfl⟩
  exact hmap.of_perm hitems hitems' (.swap _ _ _) (by decide)

end ScaleCodec
