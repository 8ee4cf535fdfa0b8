import Mathlib.Data.List.Forall2
import Mathlib.Data.List.Nodup
import Mathlib.Data.List.Pairwise
import Mathlib.Data.List.Perm.Subperm
import Mathlib.Order.Lattice

/-!
# Finite maps as sorted lists

A finite map over a linearly ordered key type is the list of its entries in key order
(`SortedMap`). `SortedMap.fromIter` inserts entries one after the other, a later entry
replacing an earlier one of the same key, so that of the entries with one key the last one stays
(`SortedMap.mem_fromIter`); entries that come in key order are the map
(`SortedMap.entries_fromIter`), and entries with different keys may come in any order
(`SortedMap.fromIter_eq_of_perm`).
-/

namespace ScaleCodec

/-- A finite map : its entries, each key above those before it. -/
structure SortedMap (κ υ : Type) [LinearOrder κ] where
  entries : List (κ × υ)
  sorted : entries.Pairwise fun a b => a.1 < b.1

namespace SortedMap

variable {κ υ : Type} [LinearOrder κ]

@[ext] theorem ext {m m' : SortedMap κ υ} (h : m.entries = m'.entries) : m = m' := by
  obtain ⟨l, _⟩ := m
  obtain ⟨l', _⟩ := m'
  obtain rfl : l = l' := h
  rfl

/-- Put the entry `e` in its place, over the entry with its key if there is one. -/
def insertEntry (e : κ × υ) : List (κ × υ) → List (κ × υ)
  | [] => [e]
  | a :: l =>
    if a.1 < e.1 then a :: insertEntry e l
    else if e.1 < a.1 then e :: a :: l
    else e :: l

theorem lt_of_mem_insertEntry {e : κ × υ} {k : κ} (he : k < e.1) :
    ∀ {l : List (κ × υ)}, (∀ b ∈ l, k < b.1) → ∀ b ∈ insertEntry e l, k < b.1
  | [], _, b, hb => by
    obtain rfl := List.mem_singleton.mp hb
    exact he
  | a :: l, h, b, hb => by
    obtain ⟨ha, hl⟩ := List.forall_mem_cons.mp h
    unfold insertEntry at hb
    split_ifs at hb
    · rcases List.mem_cons.mp hb with rfl | hb
      · exact ha
      · exact lt_of_mem_insertEntry he hl b hb
    · rcases List.mem_cons.mp hb with rfl | hb
      · exact he
      · exact h b hb
    · rcases List.mem_cons.mp hb with rfl | hb
      · exact he
      · exact hl b hb

theorem sorted_insertEntry (e : κ × υ) : ∀ {l : List (κ × υ)},
    l.Pairwise (fun a b => a.1 < b.1) → (insertEntry e l).Pairwise fun a b => a.1 < b.1
  | [], _ => List.pairwise_singleton _ _
  | a :: l, h => by
    obtain ⟨ha, hl⟩ := List.pairwise_cons.mp h
    unfold insertEntry
    split_ifs with h₁ h₂
    · exact List.pairwise_cons.mpr ⟨lt_of_mem_insertEntry h₁ ha, sorted_insertEntry e hl⟩
    · refine List.pairwise_cons.mpr ⟨fun b hb => ?_, h⟩
      rcases List.mem_cons.mp hb with rfl | hb
      · exact h₂
      · exact lt_trans h₂ (ha b hb)
    · have heq : e.1 = a.1 := le_antisymm (not_lt.mp h₁) (not_lt.mp h₂)
      exact List.pairwise_cons.mpr ⟨fun b hb => by rw [heq]; exact ha b hb, hl⟩

/-- The map with the entry `e`. -/
def insert (m : SortedMap κ υ) (e : κ × υ) : SortedMap κ υ :=
  ⟨insertEntry e m.entries, sorted_insertEntry e m.sorted⟩

/-- The map without entries. -/
def empty : SortedMap κ υ :=
  ⟨[], List.Pairwise.nil⟩

/-- The entries inserted one after the other. -/
def fromIter (l : List (κ × υ)) : SortedMap κ υ :=
  l.foldl insert empty

theorem insertEntry_eq_append {e : κ × υ} :
    ∀ {l : List (κ × υ)}, (∀ a ∈ l, a.1 < e.1) → insertEntry e l = l ++ [e]
  | [], _ => rfl
  | a :: l, h => by
    obtain ⟨ha, hl⟩ := List.forall_mem_cons.mp h
    rw [insertEntry, if_pos ha, insertEntry_eq_append hl, List.cons_append]

theorem entries_foldl_insert : ∀ {l : List (κ × υ)} {m : SortedMap κ υ},
    (m.entries ++ l).Pairwise (fun a b => a.1 < b.1) →
      (l.foldl insert m).entries = m.entries ++ l
  | [], m, _ => (List.append_nil _).symm
  | e :: l, m, h => by
    have hm : (m.insert e).entries = m.entries ++ [e] :=
      insertEntry_eq_append fun a ha => (List.pairwise_append.mp h).2.2 a ha e List.mem_cons_self
    rw [List.append_cons, ← hm] at h ⊢
    rw [List.foldl_cons]
    exact entries_foldl_insert h

/-- Entries in key order are the map they make. -/
theorem entries_fromIter {l : List (κ × υ)} (h : l.Pairwise fun a b => a.1 < b.1) :
    (fromIter l).entries = l :=
  entries_foldl_insert (m := empty) h

section Related

variable {υ' : Type} {R : κ × υ → κ × υ' → Prop}

theorem forall₂_insertEntry (hR : ∀ e e', R e e' → e.1 = e'.1) {e : κ × υ} {e' : κ × υ'}
    (he : R e e') {l : List (κ × υ)} {l' : List (κ × υ')} (h : List.Forall₂ R l l') :
    List.Forall₂ R (insertEntry e l) (insertEntry e' l') := by
  induction h with
  | nil => exact .cons he .nil
  | @cons a a' l l' ha hl ih =>
    unfold insertEntry
    rw [← hR a a' ha, ← hR e e' he]
    split_ifs
    · exact .cons ha ih
    · exact .cons he (.cons ha hl)
    · exact .cons he hl

/-- Related entries with the same keys make related maps. -/
theorem forall₂_fromIter (hR : ∀ e e', R e e' → e.1 = e'.1) {l : List (κ × υ)}
    {l' : List (κ × υ')} (h : List.Forall₂ R l l') :
    List.Forall₂ R (fromIter l).entries (fromIter l').entries := by
  have hfold : ∀ {m : SortedMap κ υ} {m' : SortedMap κ υ'}, List.Forall₂ R m.entries m'.entries →
      List.Forall₂ R (l.foldl insert m).entries (l'.foldl insert m').entries := by
    induction h with
    | nil => exact id
    | cons he _ ih => exact fun hm => ih (forall₂_insertEntry hR he hm)
  exact hfold .nil

end Related

theorem mem_insertEntry {e x : κ × υ} : ∀ {l : List (κ × υ)},
    l.Pairwise (fun a b => a.1 < b.1) → (x ∈ insertEntry e l ↔ x = e ∨ x ∈ l ∧ x.1 ≠ e.1)
  | [], _ => by simp [insertEntry]
  | a :: l, h => by
    obtain ⟨ha, hl⟩ := List.pairwise_cons.mp h
    have hne : ∀ {k : κ}, k ≤ a.1 → ∀ b ∈ l, b.1 ≠ k := fun hk b hb => (hk.trans_lt (ha b hb)).ne'
    unfold insertEntry
    split_ifs with h₁ h₂
    · simp only [List.mem_cons, mem_insertEntry hl]
      constructor
      · rintro (rfl | rfl | hx)
        · exact Or.inr ⟨Or.inl rfl, h₁.ne⟩
        · exact Or.inl rfl
        · exact Or.inr ⟨Or.inr hx.1, hx.2⟩
      · rintro (rfl | ⟨rfl | hx, hk⟩)
        · exact Or.inr (Or.inl rfl)
        · exact Or.inl rfl
        · exact Or.inr (Or.inr ⟨hx, hk⟩)
    · simp only [List.mem_cons]
      constructor
      · rintro (rfl | rfl | hx)
        · exact Or.inl rfl
        · exact Or.inr ⟨Or.inl rfl, h₂.ne'⟩
        · exact Or.inr ⟨Or.inr hx, hne h₂.le x hx⟩
      · rintro (rfl | ⟨hx, -⟩)
        · exact Or.inl rfl
        · exact Or.inr hx
    · have heq : e.1 = a.1 := le_antisymm (not_lt.mp h₁) (not_lt.mp h₂)
      simp only [List.mem_cons]
      constructor
      · rintro (rfl | hx)
        · exact Or.inl rfl
        · exact Or.inr ⟨Or.inr hx, hne heq.le x hx⟩
      · rintro (rfl | ⟨rfl | hx, hk⟩)
        · exact Or.inl rfl
        · exact absurd heq.symm hk
        · exact Or.inr hx

theorem mem_foldl_insert {x : κ × υ} : ∀ {l : List (κ × υ)} {m : SortedMap κ υ},
    x ∈ (l.foldl insert m).entries ↔
      (∃ before after, l = before ++ x :: after ∧ ∀ e ∈ after, e.1 ≠ x.1) ∨
        x ∈ m.entries ∧ ∀ e ∈ l, e.1 ≠ x.1
  | [], m => by simp
  | e :: l, m => by
    have hinsert : x ∈ (m.insert e).entries ↔ x = e ∨ x ∈ m.entries ∧ x.1 ≠ e.1 :=
      mem_insertEntry m.sorted
    rw [List.foldl_cons, mem_foldl_insert, hinsert]
    constructor
    · rintro (⟨before, after, rfl, h⟩ | ⟨rfl | ⟨hx, hk⟩, h⟩)
      · exact Or.inl ⟨e :: before, after, rfl, h⟩
      · exact Or.inl ⟨[], l, rfl, h⟩
      · exact Or.inr ⟨hx, List.forall_mem_cons.mpr ⟨hk.symm, h⟩⟩
    · rintro (⟨_ | ⟨b, before⟩, after, heq, h⟩ | ⟨hx, h⟩)
      · cases heq
        exact Or.inr ⟨Or.inl rfl, h⟩
      · cases heq
        exact Or.inl ⟨before, after, rfl, h⟩
      · obtain ⟨he, hl⟩ := List.forall_mem_cons.mp h
        exact Or.inr ⟨Or.inr ⟨hx, he.symm⟩, hl⟩

/-- Of the entries with one key the last one stays. -/
theorem mem_fromIter {x : κ × υ} {l : List (κ × υ)} : x ∈ (fromIter l).entries ↔
    ∃ before after, l = before ++ x :: after ∧ ∀ e ∈ after, e.1 ≠ x.1 := by
  rw [fromIter, mem_foldl_insert]
  exact or_iff_left fun h => absurd h.1 List.not_mem_nil

theorem exists_key_foldl_insert {k : κ} : ∀ {l : List (κ × υ)} {m : SortedMap κ υ},
    (∃ x ∈ (l.foldl insert m).entries, x.1 = k) ↔
      (∃ x ∈ l, x.1 = k) ∨ ∃ x ∈ m.entries, x.1 = k
  | [], m => by simp
  | e :: l, m => by
    have hinsert : ∀ x, x ∈ (m.insert e).entries ↔ x = e ∨ x ∈ m.entries ∧ x.1 ≠ e.1 :=
      fun x => mem_insertEntry m.sorted
    simp only [List.foldl_cons, exists_key_foldl_insert, hinsert, List.mem_cons]
    constructor
    · rintro (⟨x, hx, rfl⟩ | ⟨x, rfl | ⟨hx, -⟩, rfl⟩)
      · exact Or.inl ⟨x, Or.inr hx, rfl⟩
      · exact Or.inl ⟨x, Or.inl rfl, rfl⟩
      · exact Or.inr ⟨x, hx, rfl⟩
    · rintro (⟨x, rfl | hx, rfl⟩ | ⟨x, hx, rfl⟩)
      · exact Or.inr ⟨x, Or.inl rfl, rfl⟩
      · exact Or.inl ⟨x, hx, rfl⟩
      · rcases eq_or_ne x.1 e.1 with heq | hne
        · exact Or.inr ⟨e, Or.inl rfl, heq.symm⟩
        · exact Or.inr ⟨x, Or.inr ⟨hx, hne⟩, rfl⟩

/-- A map has the keys of the entries it is made of. -/
theorem exists_key_fromIter {k : κ} {l : List (κ × υ)} :
    (∃ x ∈ (fromIter l).entries, x.1 = k) ↔ ∃ x ∈ l, x.1 = k := by
  rw [fromIter, exists_key_foldl_insert]
  exact or_iff_left fun ⟨_, h, _⟩ => absurd h List.not_mem_nil

theorem nodup_keys (m : SortedMap κ υ) : (m.entries.map Prod.fst).Nodup :=
  (List.pairwise_map.mpr m.sorted).imp ne_of_lt

theorem nodup_entries (m : SortedMap κ υ) : m.entries.Nodup :=
  List.Nodup.of_map _ m.nodup_keys

theorem fromIter_entries (m : SortedMap κ υ) : fromIter m.entries = m :=
  ext (entries_fromIter m.sorted)

/-- A map has no other entries than those it is made of. -/
theorem entries_subset (l : List (κ × υ)) : (fromIter l).entries ⊆ l := by
  intro x hx
  obtain ⟨before, after, rfl, -⟩ := mem_fromIter.mp hx
  exact List.mem_append_right _ List.mem_cons_self

theorem entries_subperm (l : List (κ × υ)) : List.Subperm (fromIter l).entries l :=
  List.subperm_of_subset (nodup_entries _) (entries_subset l)

theorem mem_fromIter_of_nodup {l : List (κ × υ)} (hl : (l.map Prod.fst).Nodup) {x : κ × υ} :
    x ∈ (fromIter l).entries ↔ x ∈ l := by
  refine ⟨fun h => entries_subset l h, fun h => ?_⟩
  obtain ⟨before, after, rfl⟩ := List.append_of_mem h
  refine mem_fromIter.mpr ⟨before, after, rfl, fun e he heq => ?_⟩
  rw [List.map_append, List.map_cons] at hl
  have hcons := (List.nodup_append.mp hl).2.1
  exact (List.nodup_cons.mp hcons).1 (heq ▸ List.mem_map_of_mem he)

/-- Entries with different keys make the same map in any order. -/
theorem fromIter_eq_of_perm {l l' : List (κ × υ)} (h : l.Perm l')
    (hl : (l.map Prod.fst).Nodup) : fromIter l = fromIter l' := by
  have hl' : (l'.map Prod.fst).Nodup := (h.map Prod.fst).nodup_iff.mp hl
  have hperm : (fromIter l).entries.Perm (fromIter l').entries :=
    (List.perm_ext_iff_of_nodup (nodup_entries _) (nodup_entries _)).mpr fun x => by
      rw [mem_fromIter_of_nodup hl, mem_fromIter_of_nodup hl', h.mem_iff]
  exact ext (hperm.eq_of_pairwise (fun a b _ _ hab hba => absurd hba hab.asymm)
    (fromIter l).sorted (fromIter l').sorted)

/-- A map has as many entries as it is made of if and only if no key was repeated. -/
theorem length_fromIter_eq_iff {l : List (κ × υ)} :
    (fromIter l).entries.length = l.length ↔ (l.map Prod.fst).Nodup := by
  constructor
  · intro h
    have hperm := (entries_subperm l).perm_of_length_le h.ge
    exact (hperm.map Prod.fst).nodup_iff.mp (fromIter l).nodup_keys
  · intro hl
    refine le_antisymm (entries_subperm l).length_le ?_
    exact (List.subperm_of_subset (List.Nodup.of_map _ hl)
      fun x hx => (mem_fromIter_of_nodup hl).mpr hx).length_le

end SortedMap

end ScaleCodec
