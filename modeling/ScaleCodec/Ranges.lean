import ScaleCodec.RoundTrip

/-!
# Inclusive ranges as iterators

A `RangeInclusive` of an integer type is an iterator over the integers between its bounds, which
`next` and `next_back` move inwards. The last element is taken without moving them : a flag marks
the range as exhausted. `RangeInclusive.remaining` is the number of elements left, which every call
lowers by one (`remaining_after`), so the flag is set once as many calls have been made as there
were elements (`exhausted_after_iff`).

`encode` writes the bounds alone. A range that is not exhausted is decoded as it was, an exhausted
one yields its last element once more (`RangeInclusive.decoded_elements_iff`).
-/

namespace ScaleCodec

/-! ## Integers -/

namespace Prim

variable {p : Prim}

/-- The signed integer types. -/
def signed : Prim → Bool
  | i8 | i16 | i32 | i64 | i128 => true
  | _ => false

/-- The integer a bit pattern stands for. -/
def toInt (p : Prim) (x : p.Val) : ℤ :=
  if p.signed then x.toInt else x.toNat

theorem ofInt_toInt (x : p.Val) : BitVec.ofInt (8 * p.size) (p.toInt x) = x := by
  unfold toInt
  split_ifs
  · exact BitVec.ofInt_toInt
  · rw [BitVec.ofInt_natCast, BitVec.ofNat_toNat, BitVec.setWidth_eq]

/-- An integer between two values is one. -/
theorem toInt_ofInt {x y : p.Val} {z : ℤ} (hx : p.toInt x ≤ z) (hy : z ≤ p.toInt y) :
    p.toInt (BitVec.ofInt (8 * p.size) z) = z := by
  have hpos : 0 < 8 * p.size := Nat.mul_pos (by decide) (Nat.pos_of_ne_zero p.size_ne_zero)
  unfold toInt at *
  split_ifs at hx hy ⊢
  · exact BitVec.toInt_ofInt_eq_self hpos (x.le_toInt.trans hx) (hy.trans_lt BitVec.toInt_lt)
  · lift z to ℕ using (Int.natCast_nonneg _).trans hx
    have hlt : z < 2 ^ (8 * p.size) := (Int.ofNat_le.mp hy).trans_lt y.isLt
    rw [BitVec.ofInt_natCast, BitVec.toNat_ofNat, Nat.mod_eq_of_lt hlt]

theorem toInt_add_one {x y : p.Val} (h : p.toInt x < p.toInt y) :
    p.toInt (x + 1) = p.toInt x + 1 := by
  have hx : x + 1 = BitVec.ofInt (8 * p.size) (p.toInt x + 1) := by
    rw [BitVec.ofInt_add, ofInt_toInt]
    rfl
  rw [hx, toInt_ofInt (Int.le_add_one le_rfl) h]

theorem toInt_sub_one {x y : p.Val} (h : p.toInt x < p.toInt y) :
    p.toInt (y - 1) = p.toInt y - 1 := by
  have hy : y - 1 = BitVec.ofInt (8 * p.size) (p.toInt y - 1) := by
    have hadd : BitVec.ofInt (8 * p.size) (p.toInt y - 1) + 1 = y := by
      rw [show (1 : p.Val) = BitVec.ofInt (8 * p.size) 1 from rfl, ← BitVec.ofInt_add,
        Int.sub_add_cancel, ofInt_toInt]
    rw [← hadd, BitVec.add_sub_cancel, hadd]
  rw [hy, toInt_ofInt (Int.le_sub_one_of_lt h) (Int.sub_le_self _ (by decide))]

end Prim

/-! ## Iteration -/

namespace RangeInclusive

variable {p : Prim}

/-- `RangeInclusive::new`. -/
def new {α : Type} (start stop : α) : RangeInclusive α :=
  ⟨start, stop, false⟩

/-- `is_empty`. -/
def isEmpty (r : RangeInclusive p.Val) : Bool :=
  r.exhausted || !decide (p.toInt r.start ≤ p.toInt r.end)

/-- `Iterator::next`. -/
def next (r : RangeInclusive p.Val) : Option p.Val × RangeInclusive p.Val :=
  if r.isEmpty then (none, r)
  else if p.toInt r.start < p.toInt r.end then (some r.start, { r with start := r.start + 1 })
  else (some r.start, { r with exhausted := true })

/-- `DoubleEndedIterator::next_back`. -/
def nextBack (r : RangeInclusive p.Val) : Option p.Val × RangeInclusive p.Val :=
  if r.isEmpty then (none, r)
  else if p.toInt r.start < p.toInt r.end then (some r.end, { r with «end» := r.end - 1 })
  else (some r.end, { r with exhausted := true })

/-- The end of the range an element is taken from. -/
inductive Side where
  | front | back
deriving DecidableEq, Repr

/-- `next` or `next_back`. -/
def take (r : RangeInclusive p.Val) : Side → Option p.Val × RangeInclusive p.Val
  | .front => r.next
  | .back => r.nextBack

/-- The range after calls of `next` and `next_back`. -/
def after (r : RangeInclusive p.Val) (calls : List Side) : RangeInclusive p.Val :=
  calls.foldl (fun r side => (r.take side).2) r

/-- What the `n`-th call of `next` from here on returns. -/
def elements : RangeInclusive p.Val → ℕ → Option p.Val
  | r, 0 => r.next.1
  | r, n + 1 => r.next.2.elements n

/-- The number of elements left. -/
def remaining (r : RangeInclusive p.Val) : ℕ :=
  if r.exhausted then 0 else (p.toInt r.end - p.toInt r.start + 1).toNat

/-- What a call does : nothing to an empty range, else it moves a bound or sets the flag. -/
theorem take_cases (r : RangeInclusive p.Val) (side : Side) :
    (r.isEmpty = true ∧ (r.take side).2 = r) ∨
    (r.isEmpty = false ∧ (r.take side).2.exhausted = false ∧
      p.toInt (r.take side).2.start ≤ p.toInt (r.take side).2.end ∧
      p.toInt (r.take side).2.end - p.toInt (r.take side).2.start + 1 =
        p.toInt r.end - p.toInt r.start) ∨
    (r.isEmpty = false ∧ p.toInt r.start = p.toInt r.end ∧
      (r.take side).2 = { r with exhausted := true }) := by
  cases hempty : r.isEmpty with
  | true => exact Or.inl ⟨rfl, by cases side <;> simp [take, next, nextBack, hempty]⟩
  | false =>
    obtain ⟨hex, hle⟩ : r.exhausted = false ∧ p.toInt r.start ≤ p.toInt r.end := by
      simpa [isEmpty] using hempty
    right
    by_cases hlt : p.toInt r.start < p.toInt r.end
    · refine Or.inl ⟨rfl, ?_⟩
      cases side with
      | front =>
        have htake : (r.take .front).2 = { r with start := r.start + 1 } := by
          simp [take, next, hempty, hlt]
        simp only [htake, Prim.toInt_add_one hlt]
        exact ⟨hex, by omega, by omega⟩
      | back =>
        have htake : (r.take .back).2 = { r with «end» := r.end - 1 } := by
          simp [take, nextBack, hempty, hlt]
        simp only [htake, Prim.toInt_sub_one hlt]
        exact ⟨hex, by omega, by omega⟩
    · refine Or.inr ⟨rfl, le_antisymm hle (not_lt.mp hlt), ?_⟩
      cases side <;> simp [take, next, nextBack, hempty, hlt]

/-- Every call takes an element, if one is left. -/
theorem remaining_take (r : RangeInclusive p.Val) (side : Side) :
    (r.take side).2.remaining = r.remaining - 1 := by
  rcases r.take_cases side with ⟨hempty, hr⟩ | ⟨hempty, hex, -, hlen⟩ | ⟨hempty, heq, hr⟩
  · rw [hr]
    have hzero : r.remaining = 0 := by
      unfold remaining
      split_ifs with hex
      · rfl
      · simp [isEmpty, hex] at hempty
        omega
    rw [hzero]
  · simp only [isEmpty, Bool.or_eq_false_iff] at hempty
    simp only [remaining, hex, hempty.1, Bool.false_eq_true, if_false, hlen]
    omega
  · simp only [isEmpty, Bool.or_eq_false_iff] at hempty
    rw [hr]
    simp [remaining, hempty.1, heq]

/-- A run of calls takes as many elements, if they are left. -/
theorem remaining_after : ∀ (r : RangeInclusive p.Val) (calls : List Side),
    (r.after calls).remaining = r.remaining - calls.length
  | _, [] => rfl
  | r, side :: calls => by
    have h := remaining_after (r.take side).2 calls
    rw [remaining_take, Nat.sub_sub, Nat.add_comm] at h
    exact h

/-- The bounds of an exhausted range are equal. -/
def Settled (r : RangeInclusive p.Val) : Prop :=
  r.exhausted = true → p.toInt r.start = p.toInt r.end

theorem settled_take {r : RangeInclusive p.Val} (h : r.Settled) (side : Side) :
    (r.take side).2.Settled := by
  rcases r.take_cases side with ⟨-, hr⟩ | ⟨-, hex, -⟩ | ⟨-, heq, hr⟩
  · rwa [hr]
  · intro hex'
    rw [hex] at hex'
    cases hex'
  · rw [hr]
    exact fun _ => heq

theorem settled_after : ∀ {r : RangeInclusive p.Val}, r.Settled → ∀ calls : List Side,
    (r.after calls).Settled
  | _, h, [] => h
  | _, h, side :: calls => settled_after (settled_take h side) calls

theorem settled_new (a b : p.Val) : (new a b).Settled :=
  fun h => by cases h

/-- Calls leave the bounds of a range in order. -/
theorem le_after : ∀ {r : RangeInclusive p.Val}, p.toInt r.start ≤ p.toInt r.end →
    ∀ calls : List Side, p.toInt (r.after calls).start ≤ p.toInt (r.after calls).end
  | _, h, [] => h
  | r, h, side :: calls => by
    refine le_after (r := (r.take side).2) ?_ calls
    rcases r.take_cases side with ⟨-, hr⟩ | ⟨-, -, hle, -⟩ | ⟨-, -, hr⟩
    · rwa [hr]
    · exact hle
    · rwa [hr]

/-- An empty range stays as it is. -/
theorem after_of_isEmpty : ∀ {r : RangeInclusive p.Val}, r.isEmpty = true →
    ∀ calls : List Side, r.after calls = r
  | _, _, [] => rfl
  | r, h, side :: calls => by
    have htake : (r.take side).2 = r := by cases side <;> simp [take, next, nextBack, h]
    exact (congrArg (after · calls) htake).trans (after_of_isEmpty h calls)

/-- A range is exhausted once it has been called as often as it has elements. -/
theorem exhausted_after_iff (a b : p.Val) (calls : List Side) :
    ((new a b).after calls).exhausted = true ↔
      p.toInt a ≤ p.toInt b ∧ p.toInt b - p.toInt a < calls.length := by
  by_cases hab : p.toInt a ≤ p.toInt b
  · have hle := le_after (r := new a b) hab calls
    have hleft := remaining_after (new a b) calls
    have hall : (new a b).remaining = (p.toInt b - p.toInt a + 1).toNat := rfl
    constructor
    · intro hex
      rw [remaining, if_pos hex, hall] at hleft
      exact ⟨hab, by omega⟩
    · rintro ⟨-, hlt⟩
      by_contra hex
      rw [remaining, if_neg hex, hall] at hleft
      omega
  · have hempty : (new a b).isEmpty = true := by simp [isEmpty, new, hab]
    rw [after_of_isEmpty hempty]
    constructor
    · exact fun h => by cases h
    · exact fun h => absurd h.1 hab

/-! ## Encoded and decoded -/

/-- A range reached from `a..=b` is encoded as its bounds, and decoded as the range that enumerates
the same elements iff it is not exhausted. -/
theorem decoded_elements_iff (P : Platform Empty.elim) (a b : p.Val) (calls : List Side) :
    let t : LibTy (RangeInclusive p.Val) := .rangeInclusive (.prim p)
    ∃ bs r', Encodes (t.encode P) ((new a b).after calls) bs ∧
      Decodes (t.decode P).decode bs r' [] ∧
      (r'.elements = ((new a b).after calls).elements ↔
        ((new a b).after calls).exhausted = false) := by
  intro t
  have hsettled := settled_after (settled_new a b) calls
  generalize (new a b).after calls = r at hsettled ⊢
  refine ⟨toLeBytes r.start ++ toLeBytes r.end, new r.start r.end, ?_, ?_, ?_, ?_⟩
  · refine encodes_rangeInclusiveEncode.mpr ?_
    exact (encodes_pairEncode (primEncode_lawful p) (primEncode_lawful p)).mpr
      ⟨_, _, primEncode_encode p _, primEncode_encode p _, rfl⟩
  · refine decodes_rangeInclusiveDecode.mpr ⟨rfl, decodes_pairDecode.mpr ?_⟩
    exact ⟨_, decodes_primDecode.mpr rfl, decodes_primDecode.mpr (List.append_nil _).symm⟩
  · intro helements
    by_contra hex
    rw [Bool.not_eq_false] at hex
    -- the first element tells the two apart
    have hfirst := congrFun helements 0
    have heq := hsettled hex
    simp [elements, next, isEmpty, new, hex, heq] at hfirst
  · intro hex
    rw [show new r.start r.end = r from RangeInclusive.ext rfl rfl hex.symm]

/-- `5..=5` after its element has been taken : decoded, it yields 5 once more. -/
theorem decoded_elements_exhausted :
    let t : LibTy (RangeInclusive Prim.u8.Val) := .rangeInclusive (.prim .u8)
    let r := (new (5 : Prim.u8.Val) 5).after [.front]
    Encodes (t.encode (Platform.unpadded _)) r [5, 5] ∧
      Decodes (t.decode (Platform.unpadded _)).decode [5, 5] (new 5 5) [] ∧
      r.elements 0 = none ∧ (new (5 : Prim.u8.Val) 5).elements 0 = some 5 :=
  ⟨rfl, rfl, rfl, rfl⟩

end RangeInclusive

end ScaleCodec
