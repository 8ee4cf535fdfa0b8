import ScaleCodec.Canonical

/-!
# Appending to an encoded vector

`EncodeAppend::append_or_new` extends the bytes of an encoded vector. It decodes the length prefix
and either overwrites it in place, if the new prefix is as long, or builds a new vector. Both agree
(`appendOrNewImpl_returnsIf`), because a prefix that decodes to `n` is the encoding of `n` and takes
`compact_len(n)` bytes. Batches appended one after the other, from the empty vector on, give the
encoding of all items, if every call fits (`append_or_new_eq_encode`).

No vector has more than `isize::MAX` bytes. Before it builds a new vector the code makes sure that
twice the old length is a `usize`, and then asks for this capacity. If it is more than
`isize::MAX`, `Vec::with_capacity` panics, although the new vector would be a few bytes longer than
the old one only (`append_or_new_capacity_overflow`). A vector that grows reserves here what it
needs. How much more the standard library reserves it leaves open. Apart from its size a vector is
taken to find the memory it asks for.

The two branches guard the length in different ways. On the empty vector it is compared as a
`usize`, on others the number of items is cast to `u32` before the checked addition, so that whole
multiples of `2 ^ 32` items are not counted (`append_or_new_overflow_iff`).
-/

namespace ScaleCodec

variable {α : Type}

/-- A function that returns a `Result` and may panic. -/
abbrev ResultM : Type → Type :=
  ExceptT Error (Except Halt)

/-- `vec[..k].copy_from_slice(src)`. -/
def copyFromSlice (vec : List Byte) (k : ℕ) (src : List Byte) : Except Halt (List Byte) :=
  if k > vec.length then .error (.panic "range end index out of range for slice")
  else if src.length ≠ k then
    .error (.panic
      "copy_from_slice: source slice length does not match destination slice length")
  else .ok (src ++ vec.drop k)

/-- `&vec[k..]`. -/
def sliceFrom (vec : List Byte) (k : ℕ) : Except Halt (List Byte) :=
  if k > vec.length then .error (.panic "range start index out of range for slice")
  else .ok (vec.drop k)

/-- The panic of a vector that would have more than `isize::MAX` bytes. -/
def capacityOverflow : Halt :=
  .panic "capacity overflow"

/-- `Vec::<u8>::with_capacity(capacity)`. -/
def withCapacity (tgt : Target) (capacity : ℕ) : Except Halt (List Byte) :=
  if capacity > tgt.isizeMax then .error capacityOverflow else .ok []

/-- `vec.extend_from_slice(bytes)`. -/
def extendFromSlice (tgt : Target) (vec bytes : List Byte) : Except Halt (List Byte) :=
  if (vec ++ bytes).length > tgt.isizeMax then .error capacityOverflow else .ok (vec ++ bytes)

/-- `compact_encode_len_to(&mut vec, len)?` on an empty `vec`. -/
def encodeLen (len : ℕ) : ResultM (List Byte) :=
  match compactEncodeLenTo len with
  | .error e => throw e
  | .ok ws => written <$> (ws : ResultM (List Write))

/-- The first half of `append_or_new_impl` on a vector that is not empty : the vector with its
length prefix raised by `itemsToAppend`. -/
def raiseLen (tgt : Target) (vec : List Byte) (itemsToAppend : ℕ) : ResultM (List Byte) := do
  let (r, _) ← (runSlice (compactDecode tgt .u32) vec : ResultM _)
  let oldItemCount ← (ExceptT.mk (.ok r) : ResultM Width.u32.Val)
  let newItemCount := oldItemCount.toNat + itemsToAppend % 2 ^ 32
  if newItemCount > u32Max then
    throw (.desc ("cannot append new items into a SCALE-encoded vector: " ++
      "length overflow due to too many items"))
  else
    let oldSize := compactLen .u32 oldItemCount
    let newSize := compactLen .u32 (BitVec.ofNat _ newItemCount)
    if oldSize = newSize then
      let lengthEncoded ← ((compactEncode .u32).usingEncoded (BitVec.ofNat _ newItemCount) :
        ResultM _)
      copyFromSlice vec oldSize lengthEncoded
    else if vec.length * 2 > tgt.usizeMax then
      throw (.desc ("cannot append new items into a SCALE-encoded vector: " ++
        "new vector won't fit in memory"))
    else
      let newVec ← (withCapacity tgt (vec.length * 2) : ResultM _)
      let lengthEncoded ← encodeLen newItemCount
      let tail ← (sliceFrom vec oldSize : ResultM _)
      -- a few bytes more than the old vector, of which twice as many are within `isize::MAX`
      pure (newVec ++ lengthEncoded ++ tail)

/-- `iter.for_each(|e| e.encode_to(&mut vec))`. -/
def appendItems (tgt : Target) (E : Encode α) (vec : List Byte) (items : List α) :
    ResultM (List Byte) :=
  items.foldlM (fun vec e => do
    let ws ← (E.encodeTo e : ResultM _)
    (extendFromSlice tgt vec (written ws) : ResultM _)) vec

/-- `append_or_new_impl`. -/
def appendOrNewImpl (tgt : Target) (E : Encode α) (vec : List Byte) (items : List α) :
    ResultM (List Byte) := do
  let vec ← if vec.isEmpty then encodeLen items.length else raiseLen tgt vec items.length
  appendItems tgt E vec items

/-- The batches appended one after the other to the empty vector. -/
def appendBatches (tgt : Target) (E : Encode α) (batches : List (List α)) : ResultM (List Byte) :=
  batches.foldlM (appendOrNewImpl tgt E) []

/-! ## Vectors that are too large -/

/-- The call returns `out` if `fits`, and panics on a vector that is too large otherwise. -/
def ReturnsIf (fits : Prop) (x : ResultM (List Byte)) (out : List Byte) : Prop :=
  (fits → x.run = .ok (.ok out)) ∧ (¬fits → x.run = .error capacityOverflow)

namespace ReturnsIf

variable {p q : Prop} {x : ResultM (List Byte)} {a b : List Byte}

theorem congr (h : ReturnsIf p x a) (hpq : p ↔ q) : ReturnsIf q x a :=
  ⟨fun hq => h.1 (hpq.mpr hq), fun hq => h.2 fun hp => hq (hpq.mp hp)⟩

theorem bind {f : List Byte → ResultM (List Byte)} (hx : ReturnsIf p x a)
    (hf : p → ReturnsIf q (f a) b) : ReturnsIf (p ∧ q) (x >>= f) b := by
  by_cases hp : p
  · have hrun : (x >>= f).run = (f a).run := by
      rw [ExceptT.run_bind, hx.1 hp]
      rfl
    unfold ReturnsIf
    rw [hrun]
    exact (hf hp).congr (and_iff_right hp).symm
  · refine ⟨fun h => absurd h.1 hp, fun _ => ?_⟩
    rw [ExceptT.run_bind, hx.2 hp]
    rfl

end ReturnsIf

/-! ## The length prefix -/

section Prefix

variable {tgt : Target} {vec rest : List Byte} {x : Width.u32.Val} {n k : ℕ}

theorem encodeLen_eq (hn : n ≤ u32Max) : encodeLen n = pure (compactBytes n) := by
  obtain ⟨ws, hws, hbs⟩ := (writes_expectLen.mpr ⟨hn, rfl⟩).exists_eq_ok
  unfold expectLen at hws
  unfold encodeLen
  cases hlen : compactEncodeLenTo n with
  | error e =>
    rw [hlen] at hws
    cases hws
  | ok x =>
    rw [hlen] at hws
    obtain rfl : x = .ok ws := hws
    rw [← hbs]
    rfl

theorem copyFromSlice_eq {a b s : List Byte} (h : b.length = a.length) :
    copyFromSlice (a ++ s) a.length b = .ok (b ++ s) := by
  rw [copyFromSlice, if_neg (by simp), if_neg (by omega), List.drop_left]

theorem sliceFrom_eq (a s : List Byte) : sliceFrom (a ++ s) a.length = .ok s := by
  rw [sliceFrom, if_neg (by simp), List.drop_left]

/-- The capacity asked for when the length prefix takes more bytes, twice those of `vec`, is one a
vector can have. -/
def GrowthFits (tgt : Target) (vec : List Byte) (oldItemCount newItemCount : Width.u32.Val) :
    Prop :=
  compactLen .u32 oldItemCount = compactLen .u32 newItemCount ∨ vec.length * 2 ≤ tgt.isizeMax

/-- The prefix is raised and the rest of the vector kept, whether or not the new prefix is as
long as the old one. The number of items is taken modulo `2 ^ 32`. -/
theorem raiseLen_returnsIf (hvec : vec.length ≤ tgt.isizeMax)
    (hdec : Decodes (compactDecode tgt .u32) vec x rest) (hk : x.toNat + k % 2 ^ 32 ≤ u32Max) :
    ReturnsIf (GrowthFits tgt vec x (BitVec.ofNat _ (x.toNat + k % 2 ^ 32))) (raiseLen tgt vec k)
      (compactBytes (x.toNat + k % 2 ^ 32) ++ rest) := by
  have hnew := toNat_ofNat_u32 hk
  have hlen : compactLen .u32 (BitVec.ofNat _ (x.toNat + k % 2 ^ 32)) =
      (compactBytes (x.toNat + k % 2 ^ 32)).length := by
    rw [compactLen_eq, hnew]
  have husing : (compactEncode .u32).usingEncoded (BitVec.ofNat _ (x.toNat + k % 2 ^ 32)) =
      .ok (compactBytes (x.toNat + k % 2 ^ 32)) := by
    rw [(compactEncode_lawful .u32).usingEncoded, compactEncode_encode, hnew]
  unfold raiseLen GrowthFits
  rw [hdec]
  obtain rfl := decodes_compactDecode.mp hdec
  show ReturnsIf _ (if _ then _ else _ : ResultM _) _
  rw [if_neg (by omega)]
  show ReturnsIf _ (if _ then _ else _ : ResultM _) _
  split_ifs with hsize hfit
  · refine ⟨fun _ => ?_, fun h => absurd (Or.inl hsize) h⟩
    rw [husing, compactLen_eq]
    rw [compactLen_eq, hlen] at hsize
    show (copyFromSlice _ _ _ : ResultM _).run = _
    rw [copyFromSlice_eq hsize.symm]
    rfl
  · unfold Target.isizeMax at hvec
    omega
  · rw [or_iff_right hsize, encodeLen_eq hk, compactLen_eq, sliceFrom_eq, withCapacity]
    refine ⟨fun hcap => ?_, fun hcap => ?_⟩
    · rw [if_neg (not_lt.mpr hcap)]
      rfl
    · rw [if_pos (not_le.mp hcap)]
      rfl

theorem raiseLen_overflow (hdec : Decodes (compactDecode tgt .u32) vec x rest)
    (hk : u32Max < x.toNat + k % 2 ^ 32) : ∃ e, raiseLen tgt vec k = throw e := by
  unfold raiseLen
  rw [hdec]
  exact ⟨_, if_pos hk⟩

theorem encodeLen_overflow (hn : u32Max < n) : ∃ e, encodeLen n = throw e := by
  unfold encodeLen compactEncodeLenTo
  rw [if_pos hn]
  exact ⟨_, rfl⟩

end Prefix

/-! ## Appending -/

section Appending

variable {tgt : Target} {E : Encode α} {vec rest b bs : List Byte} {as items : List α}
  {x : Width.u32.Val}

theorem isEmpty_of_decodes (hdec : Decodes (compactDecode tgt .u32) vec x rest) :
    vec.isEmpty = false := by
  obtain rfl := decodes_compactDecode.mp hdec
  simp [compactBytes_ne_nil]

/-- The items are added one by one, each of which makes the vector longer. -/
theorem appendItems_returnsIf (hE : E.Lawful) (hvec : vec.length ≤ tgt.isizeMax)
    (hitems : EncodesList E items b) :
    ReturnsIf ((vec ++ b).length ≤ tgt.isizeMax) (appendItems tgt E vec items) (vec ++ b) := by
  induction items generalizing vec b with
  | nil =>
    obtain rfl : b = [] := hitems
    rw [List.append_nil]
    exact ⟨fun _ => rfl, fun h => absurd hvec h⟩
  | cons a items ih =>
    obtain ⟨b, c, ha, hc, rfl⟩ := hitems
    obtain ⟨ws, hws, rfl⟩ := (hE.writes.mpr ha).exists_eq_ok
    have hextend : ReturnsIf ((vec ++ written ws).length ≤ tgt.isizeMax)
        (extendFromSlice tgt vec (written ws) : ResultM _) (vec ++ written ws) := by
      unfold extendFromSlice
      refine ⟨fun h => ?_, fun h => ?_⟩
      · rw [if_neg (not_lt.mpr h)]
        rfl
      · rw [if_pos (not_le.mp h)]
        rfl
    rw [← List.append_assoc, appendItems, List.foldlM_cons, hws]
    refine (hextend.bind fun h => ih h hc).congr (and_iff_right_of_imp fun h => ?_)
    rw [List.length_append] at h
    omega

/-- The vector with the raised prefix is no longer than a vector can be. -/
theorem length_raised_le (hvec : vec.length ≤ tgt.isizeMax)
    (hdec : Decodes (compactDecode tgt .u32) vec x rest) {y : Width.u32.Val}
    (hfits : GrowthFits tgt vec x y) : (compactBytes y.toNat ++ rest).length ≤ tgt.isizeMax := by
  obtain rfl := decodes_compactDecode.mp hdec
  have hy : (compactBytes y.toNat).length ≤ 5 := length_compactBytes_le .u32 y
  have hx := List.length_pos_of_ne_nil (compactBytes_ne_nil x.toNat)
  have hmax := tgt.u32Max_le_usizeMax
  unfold GrowthFits at hfits
  rw [compactLen_eq, compactLen_eq] at hfits
  unfold Target.isizeMax u32Max at *
  simp only [List.length_append] at hvec hfits ⊢
  omega

/-- One call on a vector that is not empty : the prefix is raised, what follows it kept and the
items added. -/
theorem appendOrNewImpl_returnsIf_mod (hE : E.Lawful) (hvec : vec.length ≤ tgt.isizeMax)
    (hdec : Decodes (compactDecode tgt .u32) vec x rest) (hitems : EncodesList E items b)
    (hlen : x.toNat + items.length % 2 ^ 32 ≤ u32Max) :
    ReturnsIf (GrowthFits tgt vec x (BitVec.ofNat _ (x.toNat + items.length % 2 ^ 32)) ∧
        (compactBytes (x.toNat + items.length % 2 ^ 32) ++ rest ++ b).length ≤ tgt.isizeMax)
      (appendOrNewImpl tgt E vec items)
      (compactBytes (x.toNat + items.length % 2 ^ 32) ++ rest ++ b) := by
  unfold appendOrNewImpl
  rw [isEmpty_of_decodes hdec, if_neg Bool.false_ne_true]
  refine (raiseLen_returnsIf hvec hdec hlen).bind fun hfits => appendItems_returnsIf hE ?_ hitems
  have hraised := length_raised_le hvec hdec hfits
  rwa [toNat_ofNat_u32 hlen] at hraised

theorem appendOrNewImpl_returnsIf (hE : E.Lawful) (hvec : vec.length ≤ tgt.isizeMax)
    (hdec : Decodes (compactDecode tgt .u32) vec x rest) (hitems : EncodesList E items b)
    (hlen : x.toNat + items.length ≤ u32Max) :
    ReturnsIf (GrowthFits tgt vec x (BitVec.ofNat _ (x.toNat + items.length)) ∧
        (compactBytes (x.toNat + items.length) ++ rest ++ b).length ≤ tgt.isizeMax)
      (appendOrNewImpl tgt E vec items) (compactBytes (x.toNat + items.length) ++ rest ++ b) := by
  have hmod : items.length % 2 ^ 32 = items.length :=
    Nat.mod_eq_of_lt (by unfold u32Max at hlen; omega)
  have h := appendOrNewImpl_returnsIf_mod hE hvec hdec hitems (by rwa [hmod])
  rwa [hmod] at h

/-- One call on the empty vector. -/
theorem appendOrNewImpl_nil (hE : E.Lawful) (henc : Encodes (vecEncode tgt E) items bs) :
    ReturnsIf (bs.length ≤ tgt.isizeMax) (appendOrNewImpl tgt E [] items) bs := by
  obtain ⟨hlen, b, hitems, rfl⟩ := (encodes_vecEncode hE).mp henc
  have hpfx : (compactBytes items.length).length ≤ tgt.isizeMax := by
    have hle := length_compactBytes_le .u32 (BitVec.ofNat _ items.length)
    have hmax := tgt.u32Max_le_usizeMax
    rw [toNat_ofNat_u32 hlen, Width.bufferCapacity] at hle
    unfold Target.isizeMax u32Max at *
    omega
  unfold appendOrNewImpl
  rw [List.isEmpty_nil, if_pos rfl, encodeLen_eq hlen, pure_bind]
  exact appendItems_returnsIf hE hpfx hitems

/-- The front of an encodable vector is encodable, in no more bytes. -/
theorem encodes_vecEncode_append (hE : E.Lawful)
    (henc : Encodes (vecEncode tgt E) (as ++ items) bs) :
    ∃ vec, Encodes (vecEncode tgt E) as vec ∧ vec.length ≤ bs.length := by
  obtain ⟨hlen, c, hc, rfl⟩ := (encodes_vecEncode hE).mp henc
  obtain ⟨a, b, ha, hb, rfl⟩ := encodesList_append.mp hc
  have hmono : (compactBytes as.length).length ≤ (compactBytes (as ++ items).length).length :=
    length_compactBytes_mono (by simp)
  rw [List.length_append] at hlen
  refine ⟨_, (encodes_vecEncode hE).mpr ⟨by omega, a, ha, rfl⟩, ?_⟩
  simp only [List.length_append] at hmono ⊢
  omega

/-- One call on an encoded vector gives the encoding of the longer vector. -/
theorem appendOrNewImpl_encodes (hE : E.Lawful) (has : Encodes (vecEncode tgt E) as vec)
    (hvec : vec.length ≤ tgt.isizeMax) (henc : Encodes (vecEncode tgt E) (as ++ items) bs) :
    ReturnsIf (GrowthFits tgt vec (BitVec.ofNat _ as.length) (BitVec.ofNat _ (as ++ items).length) ∧
      bs.length ≤ tgt.isizeMax) (appendOrNewImpl tgt E vec items) bs := by
  obtain ⟨hlen, c, hc, rfl⟩ := (encodes_vecEncode hE).mp henc
  obtain ⟨hold, a, ha, rfl⟩ := (encodes_vecEncode hE).mp has
  obtain ⟨a', b, ha', hb, rfl⟩ := encodesList_append.mp hc
  obtain rfl := ha.unique ha'
  rw [List.length_append] at hlen
  have hnat := toNat_ofNat_u32 hold
  have hdec : Decodes (compactDecode tgt .u32) (compactBytes as.length ++ a)
      (BitVec.ofNat _ as.length) a := decodes_compactDecode.mpr (by rw [hnat])
  have h := appendOrNewImpl_returnsIf hE hvec hdec hb (by rwa [hnat])
  rwa [hnat, List.append_assoc, ← List.length_append] at h

/-- Every call that appends one of the batches, the first of them to the encoding of `as`, can get
the capacity it asks for. -/
def BatchesFit (tgt : Target) (E : Encode α) : List α → List (List α) → Prop
  | _, [] => True
  | as, items :: batches =>
    (∀ vec, Encodes (vecEncode tgt E) as vec →
      GrowthFits tgt vec (BitVec.ofNat _ as.length) (BitVec.ofNat _ (as ++ items).length)) ∧
    BatchesFit tgt E (as ++ items) batches

/-- Batches appended to an encoded vector give the encoding of the vector with all of them. -/
theorem foldlM_appendOrNewImpl (hE : E.Lawful) {batches : List (List α)}
    (has : Encodes (vecEncode tgt E) as vec) (hvec : vec.length ≤ tgt.isizeMax)
    (henc : Encodes (vecEncode tgt E) (as ++ batches.flatten) bs) :
    ReturnsIf (BatchesFit tgt E as batches ∧ bs.length ≤ tgt.isizeMax)
      (batches.foldlM (appendOrNewImpl tgt E) vec) bs := by
  induction batches generalizing as vec with
  | nil =>
    rw [List.flatten_nil, List.append_nil] at henc
    obtain rfl := has.unique henc
    exact ⟨fun _ => rfl, fun h => absurd ⟨trivial, hvec⟩ h⟩
  | cons items batches ih =>
    rw [List.flatten_cons, ← List.append_assoc] at henc
    obtain ⟨mid, hmid, hle⟩ := encodes_vecEncode_append hE henc
    rw [List.foldlM_cons]
    refine ((appendOrNewImpl_encodes hE has hvec hmid).bind fun h => ih hmid h.2 henc).congr ?_
    constructor
    · rintro ⟨⟨hgrowth, -⟩, hfit, hbs⟩
      exact ⟨⟨fun vec' has' => has.unique has' ▸ hgrowth, hfit⟩, hbs⟩
    · rintro ⟨⟨hgrowth, hfit⟩, hbs⟩
      exact ⟨⟨hgrowth vec has, hle.trans hbs⟩, hfit, hbs⟩

/-- Appending is re-encoding, as long as no vector is asked for that is larger than a vector can be.
A call on bytes `v` that start with the length `n`, `k` bytes long, gives the prefix of the new
length, `v[k..]` and the items, and batches appended one after the other to the empty vector give
the encoding of all their items. -/
theorem append_or_new_eq_encode {tgt : Target} {E : Encode α} (hE : E.Lawful) :
    (∀ (v : List Byte) (n : Width.u32.Val) (k : ℕ) (ys : List α) (encodings : List Byte),
      v.length ≤ tgt.isizeMax → Decodes (compactDecode tgt .u32) v n (v.drop k) →
      EncodesList E ys encodings → n.toNat + ys.length ≤ u32Max →
      ∃ pfx, Encodes (compactEncode .u32) (BitVec.ofNat _ (n.toNat + ys.length)) pfx ∧
        ReturnsIf (GrowthFits tgt v n (BitVec.ofNat _ (n.toNat + ys.length)) ∧
            (pfx ++ v.drop k ++ encodings).length ≤ tgt.isizeMax)
          (appendOrNewImpl tgt E v ys) (pfx ++ v.drop k ++ encodings)) ∧
    ∀ (first : List α) (batches : List (List α)) (encodings : List Byte),
      EncodesList E (first ++ batches.flatten) encodings →
      (first ++ batches.flatten).length ≤ u32Max →
      ∃ bs, Encodes (vecEncode tgt E) (first ++ batches.flatten) bs ∧
        ReturnsIf (BatchesFit tgt E first batches ∧ bs.length ≤ tgt.isizeMax)
          (appendBatches tgt E (first :: batches)) bs := by
  refine ⟨fun v n k ys c hv hdec hys hlen => ?_, fun first batches c hitems hlen => ?_⟩
  · refine ⟨compactBytes (n.toNat + ys.length), ?_, appendOrNewImpl_returnsIf hE hv hdec hys hlen⟩
    rw [Encodes, compactEncode_encode, toNat_ofNat_u32 hlen]
  · have henc := (@encodes_vecEncode _ tgt _ _ hE _).mpr ⟨hlen, c, hitems, rfl⟩
    refine ⟨_, henc, ?_⟩
    obtain ⟨vec, hfirst, hle⟩ := encodes_vecEncode_append hE henc
    rw [appendBatches, List.foldlM_cons]
    refine ((appendOrNewImpl_nil hE hfirst).bind fun hvec =>
      foldlM_appendOrNewImpl hE hfirst hvec henc).congr (and_iff_right_of_imp fun h => ?_)
    exact hle.trans h.2

end Appending

/-- The 64th item makes the length prefix one byte longer, and two batches of bytes. -/
theorem append_or_new_eq_encode_u8 :
    (appendOrNewImpl ⟨.w64, true⟩ (primEncode .u8) [252, 5] [1]).run = .ok (.ok [1, 1, 5, 1]) ∧
    (appendBatches ⟨.w64, true⟩ (primEncode .u8) [[1, 2], [3]]).run = .ok (.ok [12, 1, 2, 3]) := by
  obtain ⟨happend, hbatches⟩ :=
    @append_or_new_eq_encode _ ⟨.w64, true⟩ _ (primEncode_lawful .u8)
  obtain ⟨pfx, hpfx, hone⟩ := happend [252, 5] 63 1 [1] [1] (by decide)
    (decodes_compactDecode.mpr rfl) ⟨[1], [], rfl, rfl, rfl⟩ (by decide)
  obtain rfl : pfx = [1, 1] := hpfx.unique rfl
  obtain ⟨bs, henc, htwo⟩ := hbatches [1, 2] [[3]] [1, 2, 3]
    ⟨[1], [2, 3], rfl, ⟨[2], [3], rfl, ⟨[3], [], rfl, rfl, rfl⟩, rfl⟩, rfl⟩ (by decide)
  obtain rfl : bs = [12, 1, 2, 3] := henc.unique rfl
  have hfit : BatchesFit ⟨.w64, true⟩ (primEncode .u8) [1, 2] [[3]] :=
    ⟨fun _ _ => Or.inl (by decide), trivial⟩
  exact ⟨hone.1 ⟨Or.inr (by decide), by decide⟩, htwo.1 ⟨hfit, by decide⟩⟩

/-- On a 32-bit target a 64th item cannot be appended to `2 ^ 30 + 1` bytes that start with the
length 63. Twice as many bytes are a `usize`, but no vector holds them. -/
theorem append_or_new_capacity_overflow :
    let v : List Byte := 252 :: List.replicate (2 ^ 30) 0
    v.length ≤ Target.isizeMax ⟨.w32, true⟩ ∧
      Decodes (compactDecode ⟨.w32, true⟩ .u32) v 63 (List.replicate (2 ^ 30) 0) ∧
      (appendOrNewImpl ⟨.w32, true⟩ (primEncode .u8) v [1]).run =
        .error (.panic "capacity overflow") := by
  intro v
  have hlen : v.length = 2 ^ 30 + 1 := by rw [List.length_cons, List.length_replicate]
  have hv : v.length ≤ Target.isizeMax ⟨.w32, true⟩ := by
    rw [hlen]
    decide
  have hdec : Decodes (compactDecode ⟨.w32, true⟩ .u32) v 63 (List.replicate (2 ^ 30) 0) :=
    decodes_compactDecode.mpr rfl
  have henc : EncodesList (primEncode .u8) [1] [1] := ⟨[1], [], rfl, rfl, rfl⟩
  have happend := appendOrNewImpl_returnsIf (primEncode_lawful .u8) hv hdec henc (by decide)
  refine ⟨hv, hdec, happend.2 fun hfits => ?_⟩
  rcases hfits.1 with hsame | hcap
  · exact absurd hsame (by decide)
  · rw [hlen] at hcap
    exact absurd hcap (by decide)

/-! ## Overflow -/

/-- Appending the items returns no error. -/
theorem appendItems_ne_error {tgt : Target} {E : Encode α} {vec : List Byte} {items : List α}
    {e : Error} : (appendItems tgt E vec items).run ≠ .ok (.error e) := by
  induction items generalizing vec with
  | nil => exact fun h => by cases h
  | cons a items ih =>
    rw [appendItems, List.foldlM_cons, ExceptT.run_bind]
    cases E.encodeTo a with
    | error h => exact fun h' => by cases h'
    | ok ws =>
      show (extendFromSlice tgt vec (written ws) : ResultM _).run >>= _ ≠ _
      unfold extendFromSlice
      split_ifs
      · exact fun h => by cases h
      · exact ih

/-- A length that overflows is reported by the call on the empty vector. Otherwise the number of
items is cast to `u32` first, so that only an overflow by less than `2 ^ 32` is seen. -/
theorem append_or_new_overflow_iff {tgt : Target} {E : Encode α} (hE : E.Lawful) {v : List Byte}
    {n : ℕ} {items : List α} (hv : v.length ≤ tgt.isizeMax)
    (hn : v = [] ∧ n = 0 ∨ ∃ as, as.length = n ∧ Encodes (vecEncode tgt E) as v)
    (hover : u32Max < n + items.length) :
    (∃ e, (appendOrNewImpl tgt E v items).run = .ok (.error e)) ↔
      v = [] ∨ u32Max < n + items.length % 2 ^ 32 := by
  rcases hn with ⟨rfl, rfl⟩ | ⟨as, rfl, has⟩
  · refine iff_of_true ?_ (.inl rfl)
    obtain ⟨e, he⟩ := encodeLen_overflow (by omega : u32Max < items.length)
    unfold appendOrNewImpl
    rw [List.isEmpty_nil, if_pos rfl, he]
    exact ⟨e, rfl⟩
  · obtain ⟨hold, a, -, rfl⟩ := (encodes_vecEncode hE).mp has
    have hnat := toNat_ofNat_u32 hold
    have hdec : Decodes (compactDecode tgt .u32) (compactBytes as.length ++ a)
        (BitVec.ofNat _ as.length) a := decodes_compactDecode.mpr (by rw [hnat])
    have hne := isEmpty_of_decodes hdec
    by_cases hlen : u32Max < as.length + items.length % 2 ^ 32
    · refine iff_of_true ?_ (.inr hlen)
      obtain ⟨e, he⟩ := raiseLen_overflow hdec (by rwa [hnat])
      unfold appendOrNewImpl
      rw [hne, if_neg Bool.false_ne_true, he]
      exact ⟨e, rfl⟩
    · refine iff_of_false ?_ (not_or.mpr ⟨fun h => ?_, hlen⟩)
      · have hraise := raiseLen_returnsIf hv hdec (k := items.length) (by rw [hnat]; omega)
        unfold appendOrNewImpl
        rw [hne, if_neg Bool.false_ne_true, ExceptT.run_bind]
        rintro ⟨e, he⟩
        by_cases hfits : GrowthFits tgt (compactBytes as.length ++ a) (BitVec.ofNat _ as.length)
            (BitVec.ofNat _ ((BitVec.ofNat _ as.length : Width.u32.Val).toNat +
              items.length % 2 ^ 32))
        · rw [hraise.1 hfits] at he
          exact appendItems_ne_error he
        · rw [hraise.2 hfits] at he
          cases he
      · rw [h] at hne
        cases hne

theorem encodesList_replicate_unit : ∀ k, EncodesList unitEncode (List.replicate k ()) []
  | 0 => rfl
  | k + 1 => ⟨[], [], encodes_unitEncode.mpr rfl, encodesList_replicate_unit k, rfl⟩

/-- `2 ^ 32` items appended to one leave the length as it is. -/
theorem append_or_new_overflow_unseen :
    Encodes (vecEncode ⟨.w64, true⟩ unitEncode) [()] [4] ∧
      u32Max < 1 + (List.replicate (2 ^ 32) ()).length ∧
      (appendOrNewImpl ⟨.w64, true⟩ unitEncode [4] (List.replicate (2 ^ 32) ())).run =
        .ok (.ok [4]) := by
  refine ⟨rfl, by rw [List.length_replicate]; decide, ?_⟩
  have hdec : Decodes (compactDecode ⟨.w64, true⟩ .u32) [4] 1 [] := decodes_compactDecode.mpr rfl
  have hitems := encodesList_replicate_unit (2 ^ 32)
  have hcount : (1 : Width.u32.Val).toNat + (List.replicate (2 ^ 32) ()).length % 2 ^ 32 = 1 := by
    rw [List.length_replicate]
    rfl
  have happend := appendOrNewImpl_returnsIf_mod unitEncode_lawful (by decide) hdec hitems
    (by rw [hcount]; decide)
  rw [hcount] at happend
  exact happend.1 ⟨Or.inl rfl, by decide⟩

/-- One item less is seen. -/
theorem append_or_new_overflow_iff_seen :
    ∃ e, (appendOrNewImpl ⟨.w64, true⟩ unitEncode [4] (List.replicate (2 ^ 32 - 1) ())).run =
      .ok (.error e) :=
  (append_or_new_overflow_iff unitEncode_lawful (by decide) (.inr ⟨[()], rfl, rfl⟩)
    (by rw [List.length_replicate]; decide)).mpr (.inr (by rw [List.length_replicate]; decide))

end ScaleCodec
