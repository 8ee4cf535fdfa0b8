import Mathlib.Logic.Relation
import Mathlib.Order.Filter.AtTopBot.Basic
import Mathlib.Order.Filter.Finite
import ScaleCodec.Declared
import ScaleCodec.DeriveTermination

/-!
# Termination of the encoders of declared types

The encoder of a declared type calls those of the declared types in its fields, so whether a call
comes to an end depends on all the values it reaches. These are the value itself, the parts of it
that are encoded, of declared types again, their parts, and so on (`TypeDefs.Inside`). Values are
finite, so this comes to an end (`Acc`), unless a field is `encoded_as` a type that leads back to
the value.

The calls of `encode`, `encode_to` and `using_encoded` come to an end if none of these values is of
an enum with all its variants skipped. If one of them is, no call returns, and none comes to an end
unless it panics, which it does only on a collection that is too long to be encoded
(`TypeDefs.encode_terminates_iff`).
-/

namespace ScaleCodec

variable {ι : Type} {ν : ι → Type} {α β : Type}

/-! ## Parts -/

/-- The values of named types in a value, in the order they are encoded. -/
def Ty.parts {α : Type} : Ty ν α → α → List (Σ i, ν i)
  | option t => fun v => v.toList.flatMap t.parts
  | result t e => fun v =>
    match v with
    | .ok a => t.parts a
    | .error b => e.parts b
  | tuple1 t | box t | rc t | arc t | cow t => t.parts
  | pair t u => fun v => t.parts v.1 ++ u.parts v.2
  | array _ t | genericArray _ t => fun v => v.toList.flatMap t.parts
  | vec t | vecDeque t | linkedList t => fun v => v.flatMap t.parts
  | btreeMap _ k u => fun m => m.entries.flatMap fun e => k.parts e.1 ++ u.parts e.2
  | btreeSet _ k => fun m => m.iter.flatMap k.parts
  | binaryHeap _ t => fun h => h.data.flatMap t.parts
  | range t => fun r => t.parts r.start ++ t.parts r.end
  | rangeInclusive t => fun r => t.parts r.start ++ t.parts r.end
  | named i => fun v => [⟨i, v⟩]
  | _ => fun _ => []

/-- What holds of the named values in a value holds of its parts. -/
theorem Ty.forall_parts {p : ∀ i, ν i → Prop} {t : Ty ν α} {v : α} (h : t.Every (NamedAt p) v) :
    ∀ w ∈ t.parts v, p w.1 w.2 := by
  induction t with
  | option t ih =>
    exact List.forall_mem_flatMap.mpr fun a ha => ih (h.2 a (Option.mem_toList.mp ha))
  | result t e iht ihe =>
    cases v with
    | ok a => exact iht h.2
    | error b => exact ihe h.2
  | tuple1 t ih | box t ih | rc t ih | arc t ih | cow t ih => exact ih h.2
  | pair t u iht ihu => exact List.forall_mem_append.mpr ⟨iht h.2.1, ihu h.2.2⟩
  | array n t ih | genericArray n t ih | vec t ih | vecDeque t ih | linkedList t ih
  | btreeSet _ t ih | binaryHeap _ t ih =>
    exact List.forall_mem_flatMap.mpr fun a ha => ih (h.2 a ha)
  | btreeMap _ k u ihk ihu =>
    exact List.forall_mem_flatMap.mpr fun e he =>
      List.forall_mem_append.mpr ⟨ihk (h.2 e he).1, ihu (h.2 e he).2⟩
  | range t ih | rangeInclusive t ih => exact List.forall_mem_append.mpr ⟨ih h.2.1, ih h.2.2⟩
  | named i => exact List.forall_mem_singleton.mpr h
  | _ => exact fun w hw => absurd hw List.not_mem_nil

/-! ## Library types -/

/-- The collection is not too long to be encoded. -/
def Ty.ShortAt : ∀ β : Type, Ty ν β → β → Prop
  | _, vec _, v | _, vecDeque _, v | _, linkedList _, v => v.length ≤ u32Max
  | _, btreeMap _ _ _, m => m.entries.length ≤ u32Max
  | _, btreeSet _ _, m => m.iter.length ≤ u32Max
  | _, binaryHeap _ _, h => h.data.length ≤ u32Max
  | _, string, v => (utf8Bytes v).length ≤ u32Max
  | _, bytes, v => v.length ≤ u32Max
  | _, bitVec _ _, v | _, bitBox _ _, v => v.length ≤ arch32bitBitsliceMaxBits
  | _, _, _ => True

/-- No collection in the value is too long to be encoded. -/
def Ty.Short {α : Type} : Ty ν α → α → Prop :=
  Every ShortAt

/-- A panic. -/
def Halt.IsPanic : Halt → Prop
  | panic _ => True
  | outOfFuel => False

section Impls

variable {tgt : Target} {E : Encode α} {bad : Halt → Prop}

theorem avoids_of_encodes (hE : E.Lawful) {v : α} {bs : List Byte} (h : Encodes E v bs) :
    Avoids bad (E.encodeTo v) := by
  refine hE.avoids.mp ?_
  rw [h]
  exact avoids_ok _

theorem encodeItems_avoids {as : List α} (h : ∀ a ∈ as, Avoids bad (E.encodeTo a)) :
    Avoids bad (encodeItems E as) := by
  induction as with
  | nil => exact avoids_ok _
  | cons a as ih =>
    obtain ⟨ha, has⟩ := List.forall_mem_cons.mp h
    exact ha.writeThen (ih has)

theorem encodeSliceNoLen_avoids {as : List α} (h : ∀ a ∈ as, Avoids bad (E.encodeTo a)) :
    Avoids bad (encodeSliceNoLen tgt E as) := by
  unfold encodeSliceNoLen
  cases E.typeInfo with
  | unknown => exact encodeItems_avoids h
  | known p e =>
    show Avoids bad (if p.oneByte ∨ tgt.littleEndian then _ else _)
    split_ifs
    · exact avoids_ok _
    · exact encodeItems_avoids h

/-- The only panic of a length prefix is that of a collection that is too long. -/
theorem expectLen_avoids {n : ℕ} (h : (∃ msg, bad (.panic msg)) → n ≤ u32Max) :
    Avoids bad (expectLen n) := by
  by_cases hn : n ≤ u32Max
  · obtain ⟨ws, hws, -⟩ := (writes_expectLen.mpr ⟨hn, rfl⟩).exists_eq_ok
    rw [hws]
    exact avoids_ok _
  · have hpanic : expectLen n = .error (.panic "Compact encodes length") := by
      rw [expectLen, compactEncodeLenTo, if_pos (not_le.mp hn)]
    rw [hpanic]
    rintro e ⟨⟩ hbad
    exact hn (h ⟨_, hbad⟩)

theorem vecEncode_avoids {as : List α} (hlen : (∃ msg, bad (.panic msg)) → as.length ≤ u32Max)
    (h : ∀ a ∈ as, Avoids bad (E.encodeTo a)) : Avoids bad ((vecEncode tgt E).encodeTo as) :=
  (expectLen_avoids hlen).writeThen (encodeSliceNoLen_avoids h)

theorem collectionEncode_avoids {iter : β → List α} {v : β}
    (hlen : (∃ msg, bad (.panic msg)) → (iter v).length ≤ u32Max)
    (h : ∀ a ∈ iter v, Avoids bad (E.encodeTo a)) :
    Avoids bad ((collectionEncode E iter).encodeTo v) :=
  (expectLen_avoids hlen).writeThen (encodeItems_avoids h)

theorem bitSliceEncode_avoids {st : BitStore} {o : BitOrder} {bits : List Bool}
    (hlen : (∃ msg, bad (.panic msg)) → bits.length ≤ arch32bitBitsliceMaxBits) :
    Avoids bad ((bitSliceEncode st o).encodeTo bits) := by
  show Avoids bad (if _ then _ else _)
  split_ifs with h
  · exact (avoids_of_encodes (compactEncode_lawful .u32) (compactEncode_encode _ _)).writeThen
      (encodeItems_avoids fun a _ =>
        avoids_of_encodes (primEncode_lawful _) (primEncode_encode _ a))
  · rintro e ⟨⟩ hbad
    exact h (hlen ⟨_, hbad⟩)

theorem CompactTy.exists_encodes : ∀ {α : Type} (c : CompactTy α) (v : α),
    ∃ bs, Encodes c.refEncode v bs
  | _, .unit, _ => ⟨[], encodes_unitEncode.mpr rfl⟩
  | _, .uint w, v => ⟨_, compactEncode_encode w v⟩
  | _, .as inner encodeAs _, v => exists_encodes inner (encodeAs v)

end Impls

/-- Encoding a value halts where encoding a named value in it does, and panics on a collection that
is too long. -/
theorem Ty.encode_avoids {P : Platform ν} {env : ∀ i, Encode (ν i)} (henv : ∀ i, (env i).Lawful)
    {bad : Halt → Prop} {t : Ty ν α} {v : α}
    (hshort : (∃ msg, bad (.panic msg)) → t.Short v)
    (h : ∀ w ∈ t.parts v, Avoids bad ((env w.1).encodeTo w.2)) :
    Avoids bad ((t.encode P env).encodeTo v) := by
  have law : ∀ {β : Type} (u : Ty ν β), (u.encode P env).Lawful := encode_lawful henv
  have bytes : ∀ as : List Prim.u8.Val, ((∃ msg, bad (.panic msg)) → as.length ≤ u32Max) →
      Avoids bad ((vecEncode P.target (primEncode .u8)).encodeTo as) := fun as hlen =>
    vecEncode_avoids hlen fun a _ =>
      avoids_of_encodes (primEncode_lawful _) (primEncode_encode _ a)
  induction t with
  | prim p => exact avoids_of_encodes (law _) (primEncode_encode p v)
  | bool => exact avoids_of_encodes (law _) (boolEncode_encode v)
  | nonZero p hp => exact avoids_of_encodes (law (nonZero p hp)) (encodes_nonZeroEncode.mpr rfl)
  | unit => exact avoids_ok _
  | phantomData => exact avoids_ok _
  | option t ih =>
    cases v with
    | none => exact avoids_ok _
    | some a =>
      have ha := List.forall_mem_flatMap.mp h a (Option.mem_toList.mpr rfl)
      exact (avoids_ok _).writeThen (ih (fun hb => (hshort hb).2 a rfl) ha)
  | optionBool => exact avoids_ok _
  | result t e iht ihe =>
    cases v with
    | ok a => exact (avoids_ok _).writeThen (iht (fun hb => (hshort hb).2) h)
    | error b => exact (avoids_ok _).writeThen (ihe (fun hb => (hshort hb).2) h)
  | tuple1 t ih | box t ih | rc t ih | arc t ih | cow t ih =>
    exact ih (fun hb => (hshort hb).2) h
  | pair t u iht ihu =>
    obtain ⟨ht, hu⟩ := List.forall_mem_append.mp h
    exact (iht (fun hb => (hshort hb).2.1) ht).writeThen (ihu (fun hb => (hshort hb).2.2) hu)
  | array n t ih =>
    exact encodeSliceNoLen_avoids fun a ha =>
      ih (fun hb => (hshort hb).2 a ha) (List.forall_mem_flatMap.mp h a ha)
  | genericArray n t ih =>
    exact encodeItems_avoids fun a ha =>
      ih (fun hb => (hshort hb).2 a ha) (List.forall_mem_flatMap.mp h a ha)
  | vec t ih =>
    exact vecEncode_avoids (fun hb => (hshort hb).1) fun a ha =>
      ih (fun hb => (hshort hb).2 a ha) (List.forall_mem_flatMap.mp h a ha)
  | vecDeque t ih =>
    have hitem : ∀ a ∈ v, Avoids bad ((t.encode P env).encodeTo a) := fun a ha =>
      ih (fun hb => (hshort hb).2 a ha) (List.forall_mem_flatMap.mp h a ha)
    refine (expectLen_avoids fun hb => (hshort hb).1).writeThen
      (.writeThen (encodeSliceNoLen_avoids fun a ha => ?_) (encodeSliceNoLen_avoids fun a ha => ?_))
    · exact hitem a (List.mem_of_mem_take ha)
    · exact hitem a (List.mem_of_mem_drop ha)
  | linkedList t ih | btreeSet _ t ih | binaryHeap _ t ih =>
    exact collectionEncode_avoids (fun hb => (hshort hb).1) fun a ha =>
      ih (fun hb => (hshort hb).2 a ha) (List.forall_mem_flatMap.mp h a ha)
  | btreeMap _ k u ihk ihu =>
    refine collectionEncode_avoids (fun hb => (hshort hb).1) fun e he => ?_
    obtain ⟨hk, hu⟩ := List.forall_mem_append.mp (List.forall_mem_flatMap.mp h e he)
    exact (ihk (fun hb => ((hshort hb).2 e he).1) hk).writeThen
      (ihu (fun hb => ((hshort hb).2 e he).2) hu)
  | string => exact bytes (utf8Bytes v) hshort
  | duration => exact avoids_of_encodes (law _) (encodes_durationEncode.mpr rfl)
  | range t ih | rangeInclusive t ih =>
    obtain ⟨hs, he⟩ := List.forall_mem_append.mp h
    have hpair : Avoids bad ((pairEncode (t.encode P env) (t.encode P env)).encodeTo
        (v.start, v.end)) :=
      (ih (fun hb => (hshort hb).2.1) hs).writeThen (ih (fun hb => (hshort hb).2.2) he)
    exact avoids_map.mpr (pairEncode_lawful.avoids.mpr hpair)
  | compact c =>
    obtain ⟨bs, hbs⟩ := c.exists_encodes v
    exact avoids_of_encodes (law (compact c)) hbs
  | bytes => exact bytes v hshort
  | bitVec st o | bitBox st o => exact bitSliceEncode_avoids hshort
  | named i => exact h ⟨i, v⟩ (List.mem_singleton_self _)

/-! ## Declared types -/

namespace TypeDefs

open Filter

variable {P : Platform ν} {Δ : TypeDefs ν} {v w : Σ i, ν i} {n : ℕ}

/-- The values that are encoded for the fields of a value. -/
def encodedValues (Δ : TypeDefs ν) (v : Σ i, ν i) : List (EncodedValue (Ty ν)) :=
  (Δ v.1).data.encodedValues ((Δ v.1).repr v.2)

/-- The values of declared types that are encoded for the fields of a value. -/
def parts (Δ : TypeDefs ν) (v : Σ i, ν i) : List (Σ i, ν i) :=
  (Δ.encodedValues v).flatMap fun x => x.ty.parts x.value

/-- `w` is one of the parts of `v`. -/
def PartOf (Δ : TypeDefs ν) (w v : Σ i, ν i) : Prop :=
  w ∈ Δ.parts v

/-- `w` is encoded on the way when `v` is, or is `v`. -/
def Inside (Δ : TypeDefs ν) : (Σ i, ν i) → (Σ i, ν i) → Prop :=
  Relation.ReflTransGen Δ.PartOf

/-- No collection that is encoded on the way is too long to be encoded. -/
def Short (Δ : TypeDefs ν) (v : Σ i, ν i) : Prop :=
  ∀ w, Δ.Inside w v → ∀ x ∈ Δ.encodedValues w, x.ty.Short x.value

theorem encodeTo_encodeNamed_succ :
    (Δ.encodeNamed P (n + 1) v.1).encodeTo v.2 =
      ((Δ v.1).data.encodeImpl (Δ.encode P n)).toEncode.encodeTo ((Δ v.1).repr v.2) :=
  (EncodeImpl.run_comap _ _ 3 v.2).1

/-- A call halts where a call on a part does, panics on a collection that is too long, and runs for
ever if no variant is left. -/
theorem encodeNamed_succ_avoids {bad : Halt → Prop}
    (hleft : bad .outOfFuel → ¬(Δ v.1).data.NoVariantLeft)
    (hshort : (∃ msg, bad (.panic msg)) → ∀ x ∈ Δ.encodedValues v, x.ty.Short x.value)
    (hparts : ∀ w ∈ Δ.parts v, Avoids bad ((Δ.encodeNamed P n w.1).encodeTo w.2)) :
    Avoids bad ((Δ.encodeNamed P (n + 1) v.1).encodeTo v.2) := by
  rw [encodeTo_encodeNamed_succ]
  refine Data.encodeImpl_avoids hleft fun x hx => ?_
  exact Ty.encode_avoids (encodeNamed_lawful n) (fun hb => hshort hb x hx)
    (List.forall_mem_flatMap.mp hparts x hx)

/-- If a value is encoded so are its parts. -/
theorem encodes_parts {bs : List Byte} (h : Encodes (Δ.encodeNamed P (n + 1) v.1) v.2 bs) :
    ¬(Δ v.1).data.NoVariantLeft ∧
      ∀ w ∈ Δ.parts v, ∃ b, Encodes (Δ.encodeNamed P n w.1) w.2 b := by
  obtain ⟨hleft, hvalues⟩ :=
    Data.encodes_encodedValues (encode_lawful n) (EncodeImpl.encodes_comap.mp h)
  refine ⟨hleft, List.forall_mem_flatMap.mpr fun x hx => ?_⟩
  obtain ⟨b, hb⟩ := hvalues x hx
  exact Ty.forall_parts (Ty.named_of_encodes (encodeNamed_lawful n) hb)

/-- If a value is encoded so is every value inside it, of a type with a variant left. -/
theorem not_noVariantLeft_of_encodes {bs : List Byte} (h : Encodes (Δ.encodeNamed P n v.1) v.2 bs)
    (hw : Δ.Inside w v) : ¬(Δ w.1).data.NoVariantLeft := by
  induction hw generalizing n bs with
  | refl =>
    cases n with
    | zero => cases h
    | succ n => exact (encodes_parts h).1
  | tail _ hpart ih =>
    cases n with
    | zero => cases h
    | succ n =>
      obtain ⟨b, hb⟩ := (encodes_parts h).2 _ hpart
      exact ih hb

/-- With enough fuel for its nesting a finite value is encoded without running out of it. -/
theorem eventually_avoids (hfinite : Acc Δ.PartOf v)
    (hleft : ∀ w, Δ.Inside w v → ¬(Δ w.1).data.NoVariantLeft) :
    ∀ᶠ n in atTop, Avoids (· = .outOfFuel) ((Δ.encodeNamed P n v.1).encodeTo v.2) := by
  induction hfinite with
  | intro v _ ih =>
    have hparts : ∀ᶠ n in atTop, ∀ w ∈ Δ.parts v,
        Avoids (· = .outOfFuel) ((Δ.encodeNamed P n w.1).encodeTo w.2) :=
      (eventually_all_finite (Δ.parts v).finite_toSet).mpr fun w hw =>
        ih w hw fun u hu => hleft u (hu.tail hw)
    obtain ⟨N, hN⟩ := eventually_atTop.mp hparts
    refine eventually_atTop.mpr ⟨N + 1, fun n hn => ?_⟩
    obtain ⟨m, rfl⟩ := Nat.exists_eq_succ_of_ne_zero (Nat.ne_zero_of_lt hn)
    refine encodeNamed_succ_avoids (fun _ => hleft v .refl) ?_ (hN m (Nat.le_of_succ_le_succ hn))
    rintro ⟨msg, ⟨⟩⟩

/-- On short collections no call panics, with any fuel. -/
theorem encodeNamed_avoids_panic (hshort : Δ.Short v) (n : ℕ) :
    Avoids Halt.IsPanic ((Δ.encodeNamed P n v.1).encodeTo v.2) := by
  induction n generalizing v with
  | zero =>
    rintro e ⟨⟩
    exact not_false
  | succ n ih =>
    refine encodeNamed_succ_avoids False.elim (fun _ => hshort v .refl) fun w hw => ih ?_
    exact fun u hu => hshort u (hu.tail hw)

/-- A call that neither panics nor runs out of fuel returns. -/
theorem exists_encodes_of_avoids {E : Encode α} (hE : E.Lawful) {a : α}
    (hpanic : Avoids Halt.IsPanic (E.encodeTo a)) (hfuel : Avoids (· = .outOfFuel) (E.encodeTo a)) :
    ∃ bs, Encodes E a bs := by
  cases h : E.encodeTo a with
  | error e =>
    cases e with
    | panic msg => exact absurd trivial (hpanic _ h)
    | outOfFuel => exact absurd rfl (hfuel _ h)
  | ok ws => exact ⟨written ws, hE.writes.mp (h ▸ writes_ok.mpr rfl)⟩

/-- A call that does not return, on short collections, runs out of fuel. -/
theorem outOfFuel_of_not_encodes {E : Encode α} (hE : E.Lawful) {a : α}
    (hpanic : Avoids Halt.IsPanic (E.encodeTo a)) (h : ∀ bs, ¬Encodes E a bs) :
    E.encodeTo a = .error .outOfFuel := by
  by_contra hne
  obtain ⟨bs, hbs⟩ := exists_encodes_of_avoids hE hpanic fun e he hfuel => hne (hfuel ▸ he)
  exact h bs hbs

/-- The calls of `encode`, `encode_to` and `using_encoded` of a derived `impl` on a value without an
infinite chain of parts come to an end if no value that is encoded on the way is of an enum with all
its variants skipped, and a skipped variant is then encoded to nothing. If there is such a value no
call returns, and none comes to an end but for the panic on a collection that is too long. -/
theorem encode_terminates_iff (P : Platform ν) (Δ : TypeDefs ν) {i : ι} {v : ν i}
    (hfinite : Acc Δ.PartOf ⟨i, v⟩) :
    ((∀ w, Δ.Inside w ⟨i, v⟩ → ¬(Δ w.1).data.NoVariantLeft) →
      (∃ n, ∀ m ≥ n, ((Δ i).encodeImpl (Δ.encode P m)).Terminates v ∧
        (Δ.Short ⟨i, v⟩ → ∃ bs, Encodes ((Δ i).encodeImpl (Δ.encode P m)).toEncode v bs)) ∧
      ((Δ i).data.Skipped ((Δ i).repr v) →
        ∀ m, Encodes ((Δ i).encodeImpl (Δ.encode P m)).toEncode v [])) ∧
    ((∃ w, Δ.Inside w ⟨i, v⟩ ∧ (Δ w.1).data.NoVariantLeft) →
      ∀ m, (∀ bs, ¬Encodes ((Δ i).encodeImpl (Δ.encode P m)).toEncode v bs) ∧
        (Δ.Short ⟨i, v⟩ → ((Δ i).encodeImpl (Δ.encode P m)).Diverges v)) := by
  have hlawful : ∀ m, ((Δ i).encodeImpl (Δ.encode P m)).toEncode.Lawful := fun m =>
    encodeNamed_lawful (m + 1) i
  have hpanic : Δ.Short ⟨i, v⟩ → ∀ m, Avoids Halt.IsPanic
      (((Δ i).encodeImpl (Δ.encode P m)).toEncode.encodeTo v) := fun hshort m =>
    encodeNamed_avoids_panic hshort (m + 1)
  refine ⟨fun hleft => ⟨?_, fun hskip m => ?_⟩, ?_⟩
  · obtain ⟨N, hN⟩ := eventually_atTop.mp (eventually_avoids (P := P) hfinite hleft)
    refine ⟨N, fun m hm => ?_⟩
    have hfuel := hN (m + 1) (Nat.le_succ_of_le hm)
    exact ⟨EncodeImpl.terminates_of_lawful (hlawful m) hfuel, fun hshort =>
      exists_encodes_of_avoids (hlawful m) (hpanic hshort m) hfuel⟩
  · exact EncodeImpl.encodes_comap.mpr (Data.encodes_skipped (hleft ⟨i, v⟩ .refl) hskip)
  · rintro ⟨w, hw, hnone⟩ m
    have hnot : ∀ bs, ¬Encodes ((Δ i).encodeImpl (Δ.encode P m)).toEncode v bs := fun bs h =>
      not_noVariantLeft_of_encodes (n := m + 1) (v := ⟨i, v⟩) h hw hnone
    exact ⟨hnot, fun hshort => EncodeImpl.diverges_of_lawful (hlawful m)
      (outOfFuel_of_not_encodes (hlawful m) (hpanic hshort m) hnot)⟩

theorem inside_iff : Δ.Inside w v ↔ w = v ∨ ∃ u ∈ Δ.parts v, Δ.Inside w u := by
  rw [Inside, Relation.ReflTransGen.cases_tail_iff, eq_comm]
  exact or_congr_right (exists_congr fun u => and_comm)

end TypeDefs

/-! ## Switches -/

/-- The names `Switch`, `Nothing` and `Panel`. -/
inductive PanelType where
  | switch
  | nothing
  | panel

/-- The values of `Switch` are `On(b)` and `Off`, that of `Nothing` is `Nil`. -/
abbrev PanelType.Val : PanelType → Type
  | switch => Bool × Unit ⊕ Unit ⊕ Empty
  | nothing => Unit ⊕ Empty
  | panel => (Bool × Unit ⊕ Unit ⊕ Empty) × Option (Unit ⊕ Empty) × Unit

/-- `enum Switch { On(bool), #[codec(skip)] Off }`, `enum Nothing { #[codec(skip)] Nil }` and
`struct Panel(Switch, Option<Nothing>)`. -/
def panelDefs : TypeDefs PanelType.Val
  | .switch =>
    { ident := "Switch"
      data := .enum
        (.cons { ident := "On", fields := .unnamed (.cons { ident := none, ty := .bool } .nil) }
          (.cons { ident := "Off", fields := .unit, skip := true } .nil))
      repr := Equiv.refl _ }
  | .nothing =>
    { ident := "Nothing"
      data := .enum (.cons { ident := "Nil", fields := .unit, skip := true } .nil)
      repr := Equiv.refl _ }
  | .panel =>
    { ident := "Panel"
      data := .struct (.unnamed (.cons { ident := none, ty := .named .switch }
        (.cons { ident := none, ty := .option (.named .nothing) } .nil)))
      repr := Equiv.refl _ }

section Panel

open TypeDefs

theorem parts_switch (s : PanelType.switch.Val) : panelDefs.parts ⟨.switch, s⟩ = [] := by
  rcases s with ⟨b, u⟩ | s | s
  · rfl
  · rfl
  · exact s.elim

theorem parts_nothing (s : PanelType.nothing.Val) : panelDefs.parts ⟨.nothing, s⟩ = [] := by
  rcases s with s | s
  · rfl
  · exact s.elim

theorem acc_panelDefs (v : Σ i, PanelType.Val i) : Acc panelDefs.PartOf v := by
  have hleaf : ∀ w, panelDefs.parts w = [] → Acc panelDefs.PartOf w := fun w hw =>
    ⟨_, fun u hu => absurd (hw ▸ hu : u ∈ []) List.not_mem_nil⟩
  obtain ⟨i, v⟩ := v
  cases i with
  | switch => exact hleaf _ (parts_switch v)
  | nothing => exact hleaf _ (parts_nothing v)
  | panel =>
    refine ⟨_, fun w hw => ?_⟩
    obtain ⟨s, o, u⟩ := v
    cases o with
    | none =>
      obtain rfl : w = ⟨.switch, s⟩ := List.mem_singleton.mp hw
      exact hleaf _ (parts_switch s)
    | some a =>
      obtain rfl | rfl : w = ⟨.switch, s⟩ ∨ w = ⟨.nothing, a⟩ :=
        (List.mem_cons.mp hw).imp_right List.mem_singleton.mp
      · exact hleaf _ (parts_switch s)
      · exact hleaf _ (parts_nothing a)

theorem panelDefs_short (v : Σ i, PanelType.Val i) : panelDefs.Short v := by
  rintro ⟨i, w⟩ - x hx
  cases i with
  | switch =>
    rcases w with ⟨b, u⟩ | w | w
    · obtain rfl := List.mem_singleton.mp hx
      trivial
    · exact absurd hx List.not_mem_nil
    · exact w.elim
  | nothing =>
    rcases w with w | w
    · exact absurd hx List.not_mem_nil
    · exact w.elim
  | panel =>
    rcases List.mem_cons.mp hx with rfl | hx
    · trivial
    · obtain rfl := List.mem_singleton.mp hx
      exact ⟨trivial, fun _ _ => trivial⟩

/-- `Panel(Switch::On(true), None)` and `Switch::Off` are encoded. A panel with a `Nothing` never
is. -/
theorem TypeDefs.encode_terminates_iff_panel :
    let P := Platform.unpadded PanelType.Val
    let on : PanelType.switch.Val := .inl (true, ())
    let encodeImpl := fun i m => (panelDefs i).encodeImpl (panelDefs.encode P m)
    (∃ n, ∀ m ≥ n, (encodeImpl .panel m).Terminates (on, none, ()) ∧
      ∃ bs, Encodes (encodeImpl .panel m).toEncode (on, none, ()) bs) ∧
    Encodes (encodeImpl .panel 1).toEncode (on, none, ()) [0, 1, 0] ∧
    (∀ m, Encodes (encodeImpl .switch m).toEncode (.inr (.inl ())) []) ∧
    ∀ m, (encodeImpl .panel m).Diverges (on, some (.inl ()), ()) := by
  intro P on encodeImpl
  have hswitch : ∀ s w, panelDefs.Inside w ⟨.switch, s⟩ → ¬(panelDefs w.1).data.NoVariantLeft := by
    intro s w hw
    rcases inside_iff.mp hw with rfl | ⟨u, hu, -⟩
    · exact Nat.one_ne_zero
    · exact absurd (parts_switch s ▸ hu) List.not_mem_nil
  have hpanel : ∀ w, panelDefs.Inside w ⟨.panel, on, none, ()⟩ →
      ¬(panelDefs w.1).data.NoVariantLeft := by
    intro w hw
    rcases inside_iff.mp hw with rfl | ⟨u, hu, hw⟩
    · exact not_false
    · obtain rfl := List.mem_singleton.mp hu
      exact hswitch on w hw
  have hnil : panelDefs.Inside ⟨.nothing, .inl ()⟩ ⟨.panel, on, some (.inl ()), ()⟩ :=
    .single (List.mem_cons_of_mem _ List.mem_cons_self)
  obtain ⟨⟨n, hn⟩, -⟩ := (encode_terminates_iff P panelDefs (acc_panelDefs _)).1 hpanel
  have hoff := ((encode_terminates_iff P panelDefs (i := .switch) (v := .inr (.inl ()))
    (acc_panelDefs _)).1 (hswitch _)).2 rfl
  have hnever := (encode_terminates_iff P panelDefs (acc_panelDefs _)).2 ⟨_, hnil, rfl⟩
  exact ⟨⟨n, fun m hm => ⟨(hn m hm).1, (hn m hm).2 (panelDefs_short _)⟩⟩, rfl, hoff,
    fun m => (hnever m).2 (panelDefs_short _)⟩

end Panel

end ScaleCodec
