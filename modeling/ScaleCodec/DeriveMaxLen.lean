import ScaleCodec.CompactExact
import ScaleCodec.DeriveTermination

/-!
# The derived `max_encoded_len`

`derive(MaxEncodedLen)` adds up the bounds of the fields that are not skipped and takes the
largest sum over the variants. For a `compact` field it takes the bound of the compact type, but
for an `encoded_as` field that of the type of the field, not of the type it is encoded as. So what
the fields' types promise carries over to the declaration for all declarations of a layout iff no
field in it that is encoded is `encoded_as` (`Layout.maxEncodedLen_bounds_iff`).
-/

universe u

namespace ScaleCodec

variable {F : Type → Type u} {α β T : Type}

/-! ## `derive(MaxEncodedLen)` -/

section MaxEncodedLen

variable (tgt : Target) (maxLen : ∀ {σ : Type}, F σ → ℕ)

/-- The bound `fields_length_expr` adds for a field. -/
def Field.length (f : Field F α) : ℕ :=
  match f.compact with
  | some as => maxLen as.asTy
  | none => maxLen f.ty

/-- `fields_length_expr`, from the sum so far. -/
def FieldList.length {α : Type} : FieldList F α → ℕ → ℕ
  | nil, sum => sum
  | cons f fs, sum =>
    fs.length (if f.skip.isSome then sum else tgt.saturatingAdd sum (f.length maxLen))

/-- The chain of `.max(...)` over the variants that are not skipped, from the largest so far. -/
def VariantList.length {α : Type} : VariantList F α → ℕ → ℕ
  | nil, largest => largest
  | cons v vs, largest =>
    vs.length (if v.skip then largest else max largest (v.fields.list.length tgt maxLen 0))

/-- `data_length_expr`. -/
def Data.maxEncodedLen : Data F α → ℕ
  | struct fields => fields.list.length tgt maxLen 0
  | enum vs => tgt.saturatingAdd (vs.length tgt maxLen 0) 1

end MaxEncodedLen

/-! ## Layouts -/

/-- The attribute of a field, without the types in it. -/
inductive AttributeKind where
  | none
  | compact
  | encodedAs
  | skip
deriving DecidableEq, Repr

/-- The attribute of a field, as `skip` wherever `max_encoded_len` leaves the field out. -/
def Field.kind (f : Field F α) : AttributeKind :=
  if f.skip.isSome then .skip
  else
    match f.attribute with
    | .none => .none
    | .compact _ => .compact
    | .encodedAs _ => .encodedAs
    | .skip _ => .skip

/-- The attributes of the fields. -/
def FieldList.kinds {α : Type} : FieldList F α → List AttributeKind
  | nil => []
  | cons f fs => f.kind :: fs.kinds

/-- The layout of a variant : whether it is skipped, and its fields. -/
structure VariantLayout where
  skip : Bool
  fields : List AttributeKind
deriving DecidableEq, Repr

/-- The layouts of the variants. -/
def VariantList.layouts {α : Type} : VariantList F α → List VariantLayout
  | nil => []
  | cons v vs => ⟨v.skip, v.fields.list.kinds⟩ :: vs.layouts

/-- What a declaration says apart from names, index bytes and types. -/
inductive Layout where
  | struct (fields : List AttributeKind)
  | enum (variants : List VariantLayout)
deriving DecidableEq, Repr

/-- The layout of a declaration. -/
def Data.layout : Data F α → Layout
  | struct fields => .struct fields.list.kinds
  | enum vs => .enum vs.layouts

namespace Layout

/-- The macros accept declarations of this layout. -/
def Accepted : Layout → Prop
  | struct _ => True
  | enum variants => (variants.filter fun v => !v.skip).length ≤ 256

/-- No field that is encoded is `encoded_as`. -/
def EncodedAsFree : Layout → Prop
  | struct fields => .encodedAs ∉ fields
  | enum variants => ∀ v ∈ variants, v.skip = false → .encodedAs ∉ v.fields

end Layout

/-! ## What is asked of the fields -/

/-- The encodings of `α` as `get` are no longer than the bound, up to `usize::MAX`. -/
def Encode.Bounded {σ : Type} (tgt : Target) (E : Encode σ) (get : α → σ) (bound : ℕ) : Prop :=
  ∀ a bs, Encodes E (get a) bs → min bs.length tgt.usizeMax ≤ bound

/-- The bounds of the type of the field and of the type it is encoded as hold. -/
structure Field.Bounded (tgt : Target) (enc : ∀ {σ : Type}, F σ → Encode σ)
    (maxLen : ∀ {σ : Type}, F σ → ℕ) (f : Field F α) : Prop where
  lawful : f.encoding.elim (EncodeAs.Lawful enc) fun _ => True
  ty : (enc f.ty).Bounded tgt id (maxLen f.ty)
  compact : ∀ as, f.compact = some as →
    (enc as.refTy).Bounded tgt as.fromRef (maxLen as.asTy)
  encodedAs : ∀ as, f.encodedAs = some as →
    (enc as.refTy).Bounded tgt as.fromRef (maxLen as.asTy)

section Bounded

variable (tgt : Target) (enc : ∀ {σ : Type}, F σ → Encode σ) (maxLen : ∀ {σ : Type}, F σ → ℕ)

/-- The bounds of every field that is not skipped hold. -/
def FieldList.Bounded {α : Type} : FieldList F α → Prop
  | nil => True
  | cons f fs => (f.skip = none → f.Bounded tgt enc maxLen) ∧ fs.Bounded

/-- The bounds of every field of a variant that is not skipped hold. -/
def VariantList.Bounded {α : Type} : VariantList F α → Prop
  | nil => True
  | cons v vs => (v.skip = false → v.fields.list.Bounded tgt enc maxLen) ∧ vs.Bounded

/-- The bounds of every field that is not skipped hold. -/
def Data.Bounded : Data F α → Prop
  | struct fields => fields.list.Bounded tgt enc maxLen
  | enum vs => vs.Bounded tgt enc maxLen

end Bounded

/-! ## Declarations without `encoded_as` -/

section Bounds

variable {tgt : Target} {enc : ∀ {σ : Type}, F σ → Encode σ} {maxLen : ∀ {σ : Type}, F σ → ℕ}
  {bs : List Byte}

theorem Field.length_bound {f : Field F α} (hb : f.Bounded tgt enc maxLen) (hskip : f.skip = none)
    (hkind : f.kind ≠ .encodedAs) {as : EncodeAs F α} (has : f.encoding = .inl as) {a : α}
    (henc : Encodes (enc as.refTy) (as.fromRef a) bs) :
    min bs.length tgt.usizeMax ≤ f.length maxLen := by
  unfold Field.encoding Field.attribute at has
  unfold Field.kind Field.attribute at hkind
  unfold Field.length
  rw [hskip] at has hkind
  cases hc : f.compact with
  | some c =>
    rw [hc] at has
    obtain rfl := Sum.inl.inj has
    exact hb.compact _ hc a bs henc
  | none =>
    rw [hc] at has hkind
    cases he : f.encodedAs with
    | some e =>
      rw [he] at hkind
      exact (hkind rfl).elim
    | none =>
      rw [he] at has
      obtain rfl := Sum.inl.inj has
      exact hb.ty a bs henc

theorem FieldList.le_length : ∀ {α : Type} (fs : FieldList F α) {sum : ℕ},
    sum ≤ tgt.usizeMax → sum ≤ fs.length tgt maxLen sum
  | _, .nil, _, _ => le_rfl
  | _, .cons f fs, sum, hsum => by
    rw [FieldList.length]
    split_ifs
    · exact le_length fs hsum
    · have hadd : tgt.saturatingAdd sum (f.length maxLen) ≤ tgt.usizeMax := min_le_right _ _
      have hle : sum ≤ tgt.saturatingAdd sum (f.length maxLen) := le_min (by omega) hsum
      exact hle.trans (le_length fs hadd)

/-- What the fields add to an encoding stays below what they add to the bound. -/
theorem FieldList.length_bound : ∀ {α : Type} {fs : FieldList F α} {v : α} {bs : List Byte},
    fs.check = .ok () → fs.Bounded tgt enc maxLen → .encodedAs ∉ fs.kinds →
    Writes (encodeFields enc fs v) bs → ∀ {n sum : ℕ}, min n tgt.usizeMax ≤ sum →
      min (n + bs.length) tgt.usizeMax ≤ fs.length tgt maxLen sum
  | _, .nil, _, _, _, _, _, hw, _, _, hsum => by
    obtain rfl := writes_ok.mp hw
    exact hsum
  | _, .cons f fs, (a, as), bs, hc, hb, hkinds, hw, n, sum, hsum => by
    obtain ⟨hf, hfs⟩ := FieldList.check_cons.mp hc
    obtain ⟨hkind, hkinds⟩ := not_or.mp (mt List.mem_cons.mpr hkinds)
    obtain ⟨b, c, hwb, hwc, rfl⟩ := writes_writeThen.mp hw
    rw [encodeField_eq] at hwb
    rw [List.length_append, ← Nat.add_assoc, FieldList.length]
    rcases f.encoding_of_check hf with ⟨as', he, hskip⟩ | ⟨d, he, hskip⟩
    · have hfb := hb.1 hskip
      have hlaw := hfb.lawful
      rw [he] at hwb hlaw
      have hle := Field.length_bound hfb hskip (Ne.symm hkind) he (hlaw.writes.mp hwb)
      rw [hskip, Option.isSome_none, if_neg Bool.false_ne_true]
      refine FieldList.length_bound hfs hb.2 hkinds hwc ?_
      unfold Target.saturatingAdd
      omega
    · rw [he] at hwb
      obtain rfl := writes_ok.mp hwb
      rw [hskip, Option.isSome_some, if_pos rfl]
      exact FieldList.length_bound hfs hb.2 hkinds hwc hsum

theorem FieldList.length_bound_zero {fs : FieldList F α} {v : α} (hc : fs.check = .ok ())
    (hb : fs.Bounded tgt enc maxLen) (hkinds : .encodedAs ∉ fs.kinds)
    (hw : Writes (encodeFields enc fs v) bs) :
    min bs.length tgt.usizeMax ≤ fs.length tgt maxLen 0 := by
  have h := FieldList.length_bound hc hb hkinds hw (Nat.min_le_left 0 tgt.usizeMax)
  rwa [Nat.zero_add] at h

/-- The same for the field the single field optimisation applies to. -/
theorem FieldList.length_bound_single : ∀ {α : Type} {fs : FieldList F α} {x : SelfField F α}
    {v : α}, fs.Bounded tgt enc maxLen → .encodedAs ∉ fs.kinds → x ∈ fs.filterSkip →
    Encodes (encodeSingleField enc x).toEncode v bs → ∀ {sum : ℕ}, sum ≤ tgt.usizeMax →
      min bs.length tgt.usizeMax ≤ fs.length tgt maxLen sum
  | _, .nil, _, _, _, _, hx, _, _, _ => by cases hx
  | _, .cons f fs, x, (a, as), hb, hkinds, hx, henc, sum, hsum => by
    obtain ⟨hkind, hkinds⟩ := not_or.mp (mt List.mem_cons.mpr hkinds)
    have hadd : tgt.saturatingAdd sum (f.length maxLen) ≤ tgt.usizeMax := min_le_right _ _
    rw [FieldList.length]
    rcases FieldList.mem_filterSkip_cons hx with ⟨hskip, rfl⟩ | ⟨y, hy, rfl⟩
    · obtain ⟨as', has'⟩ := Field.encoding_of_skip_eq_none hskip
      rw [encodeSingleField_eq has' hskip] at henc
      have hle := Field.length_bound (hb.1 hskip) hskip (Ne.symm hkind) has' henc
      have hsingle : min bs.length tgt.usizeMax ≤ tgt.saturatingAdd sum (f.length maxLen) := by
        unfold Target.saturatingAdd
        omega
      rw [hskip, Option.isSome_none, if_neg Bool.false_ne_true]
      exact hsingle.trans (FieldList.le_length fs hadd)
    · rw [encodeSingleField_comap, EncodeImpl.encodes_comap] at henc
      refine FieldList.length_bound_single hb.2 hkinds hy henc ?_
      split_ifs
      · exact hsum
      · exact hadd

theorem VariantList.check_cons {v : Variant F α} {vs : VariantList F β} :
    (cons v vs).check = .ok () ↔
      (v.skip = false → v.fields.list.check = .ok ()) ∧ vs.check = .ok () := by
  rw [check]
  cases v.skip with
  | true => exact ⟨fun h => ⟨fun h' => (by cases h'), h⟩, fun h => h.2⟩
  | false =>
    cases v.fields.list.check with
    | error e => exact iff_of_false (fun h => by cases h) fun h => by cases h.1 rfl
    | ok u => exact ⟨fun h => ⟨fun _ => rfl, h⟩, fun h => h.2⟩

theorem VariantList.le_length : ∀ {α : Type} (vs : VariantList F α) (largest : ℕ),
    largest ≤ vs.length tgt maxLen largest
  | _, .nil, _ => le_rfl
  | _, .cons v vs, largest => by
    rw [VariantList.length]
    split_ifs
    · exact le_length vs largest
    · exact (le_max_left _ _).trans (le_length vs _)

/-- A variant takes its index byte and what the largest variant may take. -/
theorem VariantList.length_bound : ∀ {α : Type} {vs : VariantList F α} {i : ℕ} {v : α},
    vs.check = .ok () → vs.Bounded tgt enc maxLen →
    (∀ l ∈ vs.layouts, l.skip = false → .encodedAs ∉ l.fields) →
    Writes (encodeVariants enc vs i v) bs → ∀ {largest : ℕ},
      min bs.length tgt.usizeMax ≤ tgt.saturatingAdd (vs.length tgt maxLen largest) 1
  | _, .cons v vs, i, .inl a, hc, hb, hfree, hw, largest => by
    rw [encodeVariants] at hw
    rw [VariantList.length]
    cases hskip : v.skip with
    | true =>
      rw [hskip, if_pos rfl] at hw
      obtain rfl := writes_ok.mp hw
      exact Nat.zero_le _
    | false =>
      rw [hskip, if_neg Bool.false_ne_true] at hw
      obtain ⟨_, c, hb', hwc, rfl⟩ := writes_writeThen.mp hw
      obtain rfl := writes_ok.mp hb'
      have hkinds := hfree _ List.mem_cons_self hskip
      have hle := FieldList.length_bound_zero ((VariantList.check_cons.mp hc).1 hskip) (hb.1 hskip)
        hkinds hwc
      have hmax : v.fields.list.length tgt maxLen 0 ≤
          vs.length tgt maxLen (max largest (v.fields.list.length tgt maxLen 0)) :=
        (le_max_right largest _).trans (VariantList.le_length vs _)
      rw [if_neg Bool.false_ne_true]
      unfold Target.saturatingAdd
      simp only [List.length_append, written_pushByte_cons, written_nil, List.length_cons,
        List.length_nil] at hle ⊢
      omega
  | _, .cons v vs, i, .inr b, hc, hb, hfree, hw, largest => by
    rw [encodeVariants] at hw
    exact VariantList.length_bound (VariantList.check_cons.mp hc).2 hb.2
      (fun l hl => hfree l (List.mem_cons_of_mem _ hl)) hw

theorem Data.check_of_encodeCheck_enum {vs : VariantList F α}
    (hc : (Data.enum vs).encodeCheck = .ok ()) : vs.check = .ok () := by
  have h : vs.tryGetVariants >>= (fun _ => vs.check) = .ok () := hc
  cases hvs : vs.tryGetVariants with
  | error e =>
    rw [hvs] at h
    cases h
  | ok u =>
    rw [hvs] at h
    exact h

/-- Without `encoded_as`, the derived bound holds if those of the fields do. -/
theorem Data.maxEncodedLen_bound {data : Data F α} (hc : data.encodeCheck = .ok ())
    (hb : data.Bounded tgt enc maxLen) (hfree : data.layout.EncodedAsFree) {v : α}
    (henc : Encodes (data.encodeImpl enc).toEncode v bs) :
    min bs.length tgt.usizeMax ≤ data.maxEncodedLen tgt maxLen := by
  cases data with
  | struct fields =>
    unfold Data.encodeImpl at henc
    unfold Data.encodeCheck at hc
    cases hx : (Data.struct fields).singleField with
    | none =>
      rw [hx] at henc hc
      exact FieldList.length_bound_zero hc hb hfree henc
    | some x =>
      rw [hx] at henc
      exact FieldList.length_bound_single hb hfree (Fields.mem_filterSkip_of_singleField hx) henc
        (Nat.zero_le _)
  | enum vs =>
    by_cases hcount : vs.count = 0
    · have himpl : (Data.enum vs).encodeImpl enc = {} := if_pos hcount
      rw [himpl] at henc
      cases henc
    · exact VariantList.length_bound (Data.check_of_encodeCheck_enum hc) hb hfree
        (((Data.encodes_enum hcount).2 v bs).mp henc)

end Bounds

/-! ## Layouts with `encoded_as` -/

/-- A type as its `impl Encode` and its `max_encoded_len`. -/
structure BoundedTy (α : Type) where
  encode : Encode α
  maxEncodedLen : ℕ

/-- A type of one value, encoded as `n` zeros. -/
def BoundedTy.zeros (n : ℕ) : BoundedTy Unit where
  encode := EncodeImpl.toEncode { encodeTo := some fun _ => .ok [.write (List.replicate n 0)] }
  maxEncodedLen := n

/-- A field of an empty type, or encoded as two bytes for `encoded_as`. -/
def Field.ofKind : AttributeKind → Field BoundedTy Unit
  | .none => { ident := none, ty := .zeros 0 }
  | .compact => { ident := none, ty := .zeros 0, compact := some ⟨.zeros 0, .zeros 0, id, id⟩ }
  | .encodedAs => { ident := none, ty := .zeros 0, encodedAs := some ⟨.zeros 2, .zeros 2, id, id⟩ }
  | .skip => { ident := none, ty := .zeros 0, skip := some () }

/-- The values of as many fields. -/
def Units : List AttributeKind → Type
  | [] => Unit
  | _ :: ks => Unit × Units ks

/-- Fields with these attributes. -/
def FieldList.ofKinds : (ks : List AttributeKind) → FieldList BoundedTy (Units ks)
  | [] => nil
  | k :: ks => cons (.ofKind k) (ofKinds ks)

/-- The value of these fields. -/
def Units.mk : (ks : List AttributeKind) → Units ks
  | [] => ()
  | _ :: ks => ((), mk ks)

/-- The values of as many variants. -/
def UnitsSum : List VariantLayout → Type
  | [] => Empty
  | l :: ls => Units l.fields ⊕ UnitsSum ls

/-- Variants with these layouts. -/
def VariantList.ofLayouts : (ls : List VariantLayout) → VariantList BoundedTy (UnitsSum ls)
  | [] => nil
  | l :: ls =>
    cons { ident := "V", fields := .unnamed (.ofKinds l.fields), skip := l.skip } (ofLayouts ls)

section OfLayout

variable (tgt : Target)

theorem zeros_lawful (n : ℕ) : (BoundedTy.zeros n).encode.Lawful :=
  EncodeImpl.lawful_encodeTo _

theorem encodes_zeros {n : ℕ} {u : Unit} {bs : List Byte} :
    Encodes (BoundedTy.zeros n).encode u bs ↔ bs = List.replicate n 0 := by
  refine EncodeImpl.encodes_encodeTo.trans (writes_ok.trans ?_)
  rw [written_write]

theorem zeros_bounded (n : ℕ) :
    (BoundedTy.zeros n).encode.Bounded tgt (id : Unit → Unit) n := by
  intro a bs hbs
  rw [encodes_zeros.mp hbs, List.length_replicate]
  exact min_le_left _ _

theorem ofKind_bounded (k : AttributeKind) :
    (Field.ofKind k).Bounded tgt BoundedTy.encode BoundedTy.maxEncodedLen := by
  cases k
  · exact ⟨zeros_lawful _, zeros_bounded tgt 0, fun _ h => (by cases h), fun _ h => (by cases h)⟩
  · refine ⟨zeros_lawful _, zeros_bounded tgt 0, fun _ h => ?_, fun _ h => (by cases h)⟩
    cases h
    exact zeros_bounded tgt 0
  · refine ⟨zeros_lawful _, zeros_bounded tgt 0, fun _ h => (by cases h), fun _ h => ?_⟩
    cases h
    exact zeros_bounded tgt 2
  · exact ⟨trivial, zeros_bounded tgt 0, fun _ h => (by cases h), fun _ h => (by cases h)⟩

/-- The fields of a layout pass the check, are bounded and add nothing to the derived bound. -/
theorem ofKinds_spec : ∀ ks : List AttributeKind,
    (FieldList.ofKinds ks).kinds = ks ∧ (FieldList.ofKinds ks).check = .ok () ∧
    (FieldList.ofKinds ks).Bounded tgt BoundedTy.encode BoundedTy.maxEncodedLen ∧
    (FieldList.ofKinds ks).Forall (EncodeAs.Lawful BoundedTy.encode) ∧
    (FieldList.ofKinds ks).length tgt BoundedTy.maxEncodedLen 0 = 0
  | [] => ⟨rfl, rfl, trivial, trivial, rfl⟩
  | k :: ks => by
    obtain ⟨hkinds, hcheck, hb, hlaw, hlen⟩ := ofKinds_spec ks
    refine ⟨?_, FieldList.check_cons.mpr ⟨?_, hcheck⟩, ⟨fun _ => ofKind_bounded tgt k, hb⟩,
      ⟨(ofKind_bounded tgt k).lawful, hlaw⟩, ?_⟩
    · show (Field.ofKind k).kind :: (FieldList.ofKinds ks).kinds = k :: ks
      rw [hkinds]
      cases k <;> rfl
    · cases k <;> rfl
    · have hzero : tgt.saturatingAdd 0 0 = 0 := Nat.zero_min _
      show (FieldList.ofKinds ks).length tgt BoundedTy.maxEncodedLen (if _ then 0 else _) = 0
      cases k <;> simpa [Field.ofKind, Field.length, BoundedTy.zeros, hzero] using hlen

/-- A field that is `encoded_as` takes two bytes all the same. -/
theorem writes_ofKinds : ∀ ks : List AttributeKind, Writes
    (encodeFields BoundedTy.encode (FieldList.ofKinds ks) (Units.mk ks))
    (List.replicate (2 * ks.count .encodedAs) 0)
  | [] => writes_ok.mpr rfl
  | k :: ks => by
    refine writes_writeThen.mpr ⟨List.replicate (if k = .encodedAs then 2 else 0) 0, _, ?_,
      writes_ofKinds ks, ?_⟩
    · cases k <;> exact writes_ok.mpr (by simp)
    · rw [List.replicate_append_replicate, List.count_cons]
      congr 1
      cases k <;> simp
      omega

/-- The same for the variants of a layout. -/
theorem ofLayouts_spec : ∀ ls : List VariantLayout,
    (VariantList.ofLayouts ls).layouts = ls ∧ (VariantList.ofLayouts ls).check = .ok () ∧
    (VariantList.ofLayouts ls).count = (ls.filter fun l => !l.skip).length ∧
    (VariantList.ofLayouts ls).Bounded tgt BoundedTy.encode BoundedTy.maxEncodedLen ∧
    (VariantList.ofLayouts ls).length tgt BoundedTy.maxEncodedLen 0 = 0
  | [] => ⟨rfl, rfl, rfl, trivial, rfl⟩
  | l :: ls => by
    obtain ⟨hlayouts, hcheck, hcount, hb, hlen⟩ := ofLayouts_spec ls
    obtain ⟨hkinds, hcheck', hb', -, hlen'⟩ := ofKinds_spec tgt l.fields
    refine ⟨?_, VariantList.check_cons.mpr ⟨fun _ => hcheck', hcheck⟩, ?_, ⟨fun _ => hb', hb⟩, ?_⟩
    · show ⟨l.skip, (FieldList.ofKinds l.fields).kinds⟩ :: (VariantList.ofLayouts ls).layouts = _
      rw [hkinds, hlayouts]
    · show (if l.skip then (VariantList.ofLayouts ls).count
        else (VariantList.ofLayouts ls).count + 1) = _
      rw [hcount]
      cases hl : l.skip <;> simp [hl]
    · show (VariantList.ofLayouts ls).length tgt BoundedTy.maxEncodedLen (if l.skip then 0
        else max 0 ((FieldList.ofKinds l.fields).length tgt BoundedTy.maxEncodedLen 0)) = 0
      rw [hlen', max_self, ite_self, hlen]

/-- A variant with a field that is `encoded_as` takes at least three bytes. -/
theorem writes_ofLayouts : ∀ {ls : List VariantLayout} {i : ℕ} {l : VariantLayout}, l ∈ ls →
    l.skip = false → .encodedAs ∈ l.fields →
    ∃ v bs, Writes (encodeVariants BoundedTy.encode (VariantList.ofLayouts ls) i v) bs ∧
      3 ≤ bs.length
  | l' :: ls, i, l, hl, hskip, hmem => by
    rcases List.mem_cons.mp hl with rfl | hl
    · have hcount : 0 < l.fields.count .encodedAs := List.count_pos_iff.mpr hmem
      refine ⟨.inl (Units.mk l.fields),
        [BitVec.ofNat 8 i] ++ List.replicate (2 * l.fields.count .encodedAs) 0, ?_, ?_⟩
      · show Writes (if l.skip then _ else _) _
        rw [hskip, if_neg Bool.false_ne_true]
        exact writes_writeThen.mpr ⟨_, _, writes_ok.mpr rfl, writes_ofKinds l.fields, rfl⟩
      · rw [List.length_append, List.length_replicate, List.length_singleton]
        omega
    · obtain ⟨v, bs, hbs, hlen⟩ := writes_ofLayouts hl hskip hmem
      exact ⟨.inr v, bs, hbs, hlen⟩

end OfLayout

/-! ## The derived bound -/

/-- The derived bound holds for all declarations of the layout whose fields' bounds do. -/
def Layout.MaxEncodedLenBounds (tgt : Target) (L : Layout) : Prop :=
  ∀ (T : Type) (di : DeriveInput BoundedTy T), di.data.layout = L → di.encodeCheck = .ok () →
    di.data.Bounded tgt BoundedTy.encode BoundedTy.maxEncodedLen →
    ∀ v bs, Encodes (di.encodeImpl BoundedTy.encode).toEncode v bs →
      min bs.length tgt.usizeMax ≤ di.data.maxEncodedLen tgt BoundedTy.maxEncodedLen

theorem FieldList.check_of_mem_filterSkip : ∀ {α : Type} {fs : FieldList F α} {x : SelfField F α},
    fs.check = .ok () → x ∈ fs.filterSkip → x.field.check = .ok ()
  | _, .nil, _, _, hx => by cases hx
  | _, .cons f fs, x, hc, hx => by
    obtain ⟨hf, hfs⟩ := FieldList.check_cons.mp hc
    rcases FieldList.mem_filterSkip_cons hx with ⟨-, rfl⟩ | ⟨y, hy, rfl⟩
    · exact hf
    · show y.field.check = .ok ()
      exact check_of_mem_filterSkip hfs hy

/-- Fields with one attribute at a time pass all checks of `derive(Encode)`. -/
theorem Data.encodeCheck_struct {fields : Fields F α} (hc : fields.list.check = .ok ()) :
    (Data.struct fields).encodeCheck = .ok () := by
  unfold Data.encodeCheck
  cases hx : (Data.struct fields).singleField with
  | none => exact hc
  | some x =>
    have hf := FieldList.check_of_mem_filterSkip hc (Fields.mem_filterSkip_of_singleField hx)
    refine if_neg fun h => ?_
    rw [Field.check, h.1, h.2, if_pos (by simp; omega)] at hf
    cases hf

/-- `encoded_as` on a field of a struct breaks the bound. -/
theorem not_bounds_struct {tgt : Target} {ks : List AttributeKind} (hks : .encodedAs ∈ ks) :
    ¬(Layout.struct ks).MaxEncodedLenBounds tgt := by
  intro h
  obtain ⟨hkinds, hcheck, hb, hlaw, hlen⟩ := ofKinds_spec tgt ks
  have hcount : 0 < ks.count .encodedAs := List.count_pos_iff.mpr hks
  have husize := tgt.u32Max_le_usizeMax
  let di : DeriveInput BoundedTy (Units ks) :=
    { ident := "S", data := .struct (.unnamed (.ofKinds ks)), repr := Equiv.refl _ }
  have hdi : (Fields.unnamed (FieldList.ofKinds ks)).list.check = .ok () := hcheck
  have henc : Encodes (di.encodeImpl BoundedTy.encode).toEncode (Units.mk ks) _ :=
    EncodeImpl.encodes_comap.mpr (((Data.encodes_struct hdi hlaw).2 _ _).mpr (writes_ofKinds ks))
  have hle : min _ tgt.usizeMax ≤ (FieldList.ofKinds ks).length tgt BoundedTy.maxEncodedLen 0 :=
    h _ di (congrArg Layout.struct hkinds) (Data.encodeCheck_struct hdi) hb _ _ henc
  rw [hlen, List.length_replicate] at hle
  unfold u32Max at husize
  omega

/-- `encoded_as` on a field of a variant that is not skipped breaks the bound. -/
theorem not_bounds_enum {tgt : Target} {ls : List VariantLayout} {l : VariantLayout} (hl : l ∈ ls)
    (hskip : l.skip = false) (hmem : .encodedAs ∈ l.fields)
    (haccepted : (Layout.enum ls).Accepted) : ¬(Layout.enum ls).MaxEncodedLenBounds tgt := by
  intro h
  obtain ⟨hlayouts, hcheck, hcount, hb, hlen⟩ := ofLayouts_spec tgt ls
  obtain ⟨v, bs, hbs, hlen3⟩ := writes_ofLayouts (i := 0) hl hskip hmem
  have husize := tgt.u32Max_le_usizeMax
  have hpos : (VariantList.ofLayouts ls).count ≠ 0 := by
    rw [hcount]
    exact (List.length_pos_of_mem (List.mem_filter.mpr ⟨hl, by rw [hskip]; rfl⟩)).ne'
  let di : DeriveInput BoundedTy (UnitsSum ls) :=
    { ident := "E", data := .enum (.ofLayouts ls), repr := Equiv.refl _ }
  have hdi : di.encodeCheck = .ok () := by
    show (VariantList.ofLayouts ls).tryGetVariants >>= (fun _ => _) = _
    rw [VariantList.tryGetVariants, if_neg (by rw [hcount]; exact not_lt.mpr haccepted)]
    exact hcheck
  have henc : Encodes (di.encodeImpl BoundedTy.encode).toEncode v bs :=
    EncodeImpl.encodes_comap.mpr (((Data.encodes_enum hpos).2 v bs).mpr hbs)
  have hle : min bs.length tgt.usizeMax ≤ tgt.saturatingAdd
      ((VariantList.ofLayouts ls).length tgt BoundedTy.maxEncodedLen 0) 1 :=
    h _ di (congrArg Layout.enum hlayouts) hdi hb v bs henc
  rw [hlen] at hle
  unfold Target.saturatingAdd at hle
  unfold u32Max at husize
  omega

/-- The derived bound holds for a layout iff no field that is encoded is `encoded_as`. -/
theorem Layout.maxEncodedLen_bounds_iff (tgt : Target) {L : Layout} (hL : L.Accepted) :
    L.MaxEncodedLenBounds tgt ↔ L.EncodedAsFree := by
  constructor
  · intro h
    cases L with
    | struct ks => exact fun hks => not_bounds_struct hks h
    | enum ls => exact fun l hl hskip hmem => not_bounds_enum hl hskip hmem hL h
  · intro hfree T di hdi hc hb v bs henc
    exact Data.maxEncodedLen_bound hc hb (hdi ▸ hfree) (EncodeImpl.encodes_comap.mp henc)

/-- A plain, a skipped and a `compact` field. -/
theorem Layout.maxEncodedLen_bounds_iff_compact :
    (Layout.struct [.none, .skip, .compact]).MaxEncodedLenBounds ⟨.w64, true⟩ := by
  have hL : (Layout.struct [.none, .skip, .compact]).Accepted := trivial
  have hfree : AttributeKind.encodedAs ∉ [AttributeKind.none, .skip, .compact] := by decide
  exact (Layout.maxEncodedLen_bounds_iff ⟨.w64, true⟩ hL).mpr hfree

/-- `struct Amount { #[codec(encoded_as = "Compact<u32>")] value: u32 }`. -/
def amountDecl : DeriveInput BoundedTy (Width.u32.Val × Unit) where
  ident := "Amount"
  data := .struct (.named
    (.cons
      { ident := some "value"
        ty := ⟨primEncode .u32, 4⟩
        encodedAs := some
          { refTy := ⟨compactRefEncode .u32, 5⟩
            asTy := ⟨compactEncode .u32, 5⟩
            fromRef := id
            into := id } } .nil))
  repr := Equiv.refl _

/-- `Amount { value: u32::MAX }` takes five bytes, the derived bound is four, although the bounds
of `u32` and `Compact<u32>` hold. -/
theorem Layout.amount_exceeds_bound :
    amountDecl.encodeCheck = .ok () ∧
    amountDecl.data.Bounded ⟨.w64, true⟩ BoundedTy.encode BoundedTy.maxEncodedLen ∧
    ∃ bs, Encodes (amountDecl.encodeImpl BoundedTy.encode).toEncode (4294967295#32, ()) bs ∧
      amountDecl.data.maxEncodedLen ⟨.w64, true⟩ BoundedTy.maxEncodedLen <
        min bs.length (Target.usizeMax ⟨.w64, true⟩) := by
  refine ⟨rfl, ⟨fun _ => ⟨compactRefEncode_lawful .u32, fun a bs henc => ?_,
    fun _ h => (by cases h), fun _ h => ?_⟩, trivial⟩, ?_⟩
  · obtain rfl := (primEncode_encode .u32 a).symm.trans henc |> Except.ok.inj
    rw [length_toLeBytes]
    decide
  · cases h
    intro a bs henc
    obtain rfl := (compactEncode_encode .u32 a).symm.trans henc |> Except.ok.inj
    exact (min_le_left _ _).trans (length_compactBytes_le .u32 a)
  · exact ⟨compactBytes 4294967295, compactEncode_encode .u32 4294967295#32, by decide⟩

end ScaleCodec
