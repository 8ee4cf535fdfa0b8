import ScaleCodec.RoundTrip

/-!
# `MaxEncodedLen` of the library's types

`Ty.maxEncodedLen` is what the `impl`s of `max_encoded_len.rs` compute, with the saturating
arithmetic of `usize`. It is the sum `Ty.lenBound` of the lengths of the parts, cut off at
`usize::MAX` (`Ty.maxEncodedLen_eq`). No encoding is longer than the sum, and where the type is
`ConstEncodedLen` each is as long (`Ty.encode_sized`).
-/

namespace ScaleCodec

/-! ## The `impl`s -/

/-- `Compact::<T>::max_encoded_len()`. -/
def CompactTy.maxEncodedLen {α : Type} : CompactTy α → ℕ
  | unit => 0
  | uint .u8 => 2
  | uint .u16 => 4
  | uint .u32 => 5
  | uint .u64 => 9
  | uint .u128 => 17
  | as inner _ _ => inner.maxEncodedLen

namespace Ty

variable {ι : Type} {ν : ι → Type}

/-- The types with an `impl MaxEncodedLen`. -/
def HasMaxEncodedLen {α : Type} : Ty ν α → Prop
  | prim p => p.isInt
  | bool | nonZero _ _ | unit | phantomData | duration | compact _ => True
  | option t | tuple1 t | array _ t | box t | arc t | range t | rangeInclusive t =>
    t.HasMaxEncodedLen
  | result t e => t.HasMaxEncodedLen ∧ e.HasMaxEncodedLen
  | pair t u => t.HasMaxEncodedLen ∧ u.HasMaxEncodedLen
  | _ => False

/-- `T::max_encoded_len()`. The types without an `impl` are given 0. -/
def maxEncodedLen (P : Platform ν) {α : Type} : Ty ν α → ℕ
  | prim p => P.size (prim p)
  | bool => P.size bool
  | nonZero p h => P.size (nonZero p h)
  | compact c => c.maxEncodedLen
  | unit => 0
  | tuple1 t => P.target.saturatingAdd 0 (t.maxEncodedLen P)
  | pair t u => P.target.saturatingAdd (t.maxEncodedLen P) (u.maxEncodedLen P)
  | array n t => P.target.saturatingMul (t.maxEncodedLen P) n
  | box t | arc t => t.maxEncodedLen P
  | option t => P.target.saturatingAdd (t.maxEncodedLen P) 1
  | result t e => P.target.saturatingAdd (max (t.maxEncodedLen P) (e.maxEncodedLen P)) 1
  | phantomData => 0
  | duration => P.size (prim .u64) + P.size (prim .u32)
  | range t | rangeInclusive t => P.target.saturatingMul (t.maxEncodedLen P) 2
  | _ => 0

/-- The types marked `ConstEncodedLen`. -/
def ConstEncodedLen {α : Type} : Ty ν α → Prop
  | prim p => p.isInt
  | bool | nonZero _ _ | unit | phantomData | duration => True
  | tuple1 t | array _ t | box t | range t | rangeInclusive t => t.ConstEncodedLen
  | pair t u => t.ConstEncodedLen ∧ u.ConstEncodedLen
  | _ => False

/-- The bound without the cut at `usize::MAX`. -/
def lenBound {α : Type} : Ty ν α → ℕ
  | prim p | nonZero p _ => p.size
  | bool => 1
  | compact c => c.maxEncodedLen
  | tuple1 t | box t | arc t => t.lenBound
  | pair t u => t.lenBound + u.lenBound
  | array n t => t.lenBound * n
  | option t => t.lenBound + 1
  | result t e => max t.lenBound e.lenBound + 1
  | duration => 12
  | range t | rangeInclusive t => t.lenBound * 2
  | _ => 0

end Ty

/-! ## Saturation -/

section Saturation

variable (tgt : Target) (a b : ℕ)

theorem Target.saturatingAdd_min :
    tgt.saturatingAdd (min a tgt.usizeMax) (min b tgt.usizeMax) = min (a + b) tgt.usizeMax := by
  unfold saturatingAdd
  omega

theorem Target.saturatingMul_min :
    tgt.saturatingMul (min a tgt.usizeMax) b = min (a * b) tgt.usizeMax := by
  unfold saturatingMul
  rcases Nat.eq_zero_or_pos b with rfl | hb
  · simp
  · rcases le_total a tgt.usizeMax with h | h
    · rw [min_eq_left h]
    · rw [min_eq_right h, min_eq_right (Nat.le_mul_of_pos_right _ hb),
        min_eq_right (h.trans (Nat.le_mul_of_pos_right _ hb))]

end Saturation

theorem CompactTy.maxEncodedLen_le : ∀ {α : Type} (c : CompactTy α), c.maxEncodedLen ≤ 17
  | _, .unit => by decide
  | _, .uint w => by cases w <;> decide
  | _, .as inner _ _ => maxEncodedLen_le inner

/-- The bound is cut off once, wherever it saturates. -/
theorem Ty.maxEncodedLen_eq {ι : Type} {ν : ι → Type} {α : Type} (P : Platform ν) (t : Ty ν α) :
    t.maxEncodedLen P = min t.lenBound P.target.usizeMax := by
  have hmax : u32Max ≤ P.target.usizeMax := P.target.u32Max_le_usizeMax
  have hsmall : ∀ {n : ℕ}, n ≤ 17 → n = min n P.target.usizeMax := fun h =>
    (min_eq_left (h.trans (le_trans (by decide) hmax))).symm
  have hone : min 1 P.target.usizeMax = 1 := (hsmall (by decide)).symm
  induction t with
  | prim p => exact (P.size_prim p).trans (hsmall (p.size_le.trans (by decide)))
  | bool => exact P.size_bool.trans (hsmall (by decide))
  | nonZero p h => exact (P.size_nonZero p h).trans (hsmall (p.size_le.trans (by decide)))
  | compact c => exact hsmall c.maxEncodedLen_le
  | tuple1 t ih =>
    have h := P.target.saturatingAdd_min 0 t.lenBound
    rwa [Nat.zero_min, ← ih, Nat.zero_add] at h
  | pair t u iht ihu =>
    have h := P.target.saturatingAdd_min t.lenBound u.lenBound
    rwa [← iht, ← ihu] at h
  | array n t ih =>
    have h := P.target.saturatingMul_min t.lenBound n
    rwa [← ih] at h
  | box t ih => exact ih
  | arc t ih => exact ih
  | option t ih =>
    have h := P.target.saturatingAdd_min t.lenBound 1
    rwa [hone, ← ih] at h
  | result t e iht ihe =>
    have h := P.target.saturatingAdd_min (max t.lenBound e.lenBound) 1
    rwa [hone, min_max_distrib_right, ← iht, ← ihe] at h
  | duration =>
    refine Eq.trans ?_ (hsmall (n := 12) (by decide))
    show P.size (prim .u64) + P.size (prim .u32) = 12
    rw [P.size_prim, P.size_prim]
    rfl
  | range t ih | rangeInclusive t ih =>
    have h := P.target.saturatingMul_min t.lenBound 2
    rwa [← ih] at h
  | _ => exact (Nat.zero_min _).symm

/-! ## Lengths of encodings -/

/-- Every value is encoded, to at most `bound` bytes, and to exactly so many if `const` holds. -/
def Encode.Sized {α : Type} (E : Encode α) (bound : ℕ) (const : Prop) : Prop :=
  ∀ v, ∃ bs, Encodes E v bs ∧ bs.length ≤ bound ∧ (const → bs.length = bound)

section Sized

variable {α β : Type} {E : Encode α} {F : Encode β} {m n : ℕ} {p q : Prop} {tgt : Target}

theorem sized_of_length {bytes : α → List Byte} (henc : ∀ v, Encodes E v (bytes v))
    (hlen : ∀ v, (bytes v).length = n) : E.Sized n p :=
  fun v => ⟨bytes v, henc v, (hlen v).le, fun _ => hlen v⟩

theorem sized_optionEncode (hE : E.Lawful) (h : E.Sized n p) :
    (optionEncode E).Sized (n + 1) False := by
  intro v
  cases v with
  | none => exact ⟨[0], encodes_optionEncode_none.mpr rfl, Nat.le_add_left 1 n, False.elim⟩
  | some a =>
    obtain ⟨bs, henc, hle, -⟩ := h a
    exact ⟨1 :: bs, (encodes_optionEncode_some hE).mpr ⟨bs, henc, rfl⟩, Nat.succ_le_succ hle,
      False.elim⟩

theorem sized_resultEncode (hE : E.Lawful) (hF : F.Lawful) (h : E.Sized m p) (h' : F.Sized n q) :
    (resultEncode E F).Sized (max m n + 1) False := by
  intro v
  cases v with
  | ok a =>
    obtain ⟨bs, henc, hle, -⟩ := h a
    exact ⟨0 :: bs, (encodes_resultEncode_ok hE).mpr ⟨bs, henc, rfl⟩,
      Nat.succ_le_succ (hle.trans (le_max_left m n)), False.elim⟩
  | error b =>
    obtain ⟨bs, henc, hle, -⟩ := h' b
    exact ⟨1 :: bs, (encodes_resultEncode_error hF).mpr ⟨bs, henc, rfl⟩,
      Nat.succ_le_succ (hle.trans (le_max_right m n)), False.elim⟩

theorem sized_pairEncode (hE : E.Lawful) (hF : F.Lawful) (h : E.Sized m p) (h' : F.Sized n q) :
    (pairEncode E F).Sized (m + n) (p ∧ q) := by
  intro v
  obtain ⟨b, henc, hle, hconst⟩ := h v.1
  obtain ⟨c, henc', hle', hconst'⟩ := h' v.2
  refine ⟨b ++ c, (encodes_pairEncode hE hF).mpr ⟨b, c, henc, henc', rfl⟩, ?_, fun hpq => ?_⟩
  · rw [List.length_append]
    exact Nat.add_le_add hle hle'
  · rw [List.length_append, hconst hpq.1, hconst' hpq.2]

/-- Items of bounded lengths in a row. -/
theorem exists_encodesList_sized (h : E.Sized n p) : ∀ as : List α, ∃ bs, EncodesList E as bs ∧
    bs.length ≤ n * as.length ∧ (p → bs.length = n * as.length)
  | [] => ⟨[], rfl, Nat.le_refl 0, fun _ => rfl⟩
  | a :: as => by
    obtain ⟨b, henc, hle, hconst⟩ := h a
    obtain ⟨c, hencs, hles, hconsts⟩ := exists_encodesList_sized h as
    refine ⟨b ++ c, ⟨b, c, henc, hencs, rfl⟩, ?_, fun hp => ?_⟩
    · rw [List.length_append, List.length_cons, Nat.mul_succ]
      omega
    · rw [List.length_append, List.length_cons, Nat.mul_succ, hconst hp, hconsts hp, Nat.add_comm]

theorem sized_arrayEncode (hE : E.Lawful) (h : E.Sized n p) :
    (arrayEncode tgt m E).Sized (n * m) p := by
  intro v
  obtain ⟨bs, henc, hlen⟩ := exists_encodesList_sized h v.toList
  rw [v.toList_length] at hlen
  exact ⟨bs, (encodes_arrayEncode hE).mpr henc, hlen⟩

theorem sized_compact : ∀ {α : Type} (c : CompactTy α), c.refEncode.Sized c.maxEncodedLen False
  | _, .unit => sized_of_length (fun _ => encodes_unitEncode.mpr rfl) fun _ => rfl
  | _, .uint w => fun x => by
    refine ⟨_, compactEncode_encode w x, (length_compactBytes_le w x).trans ?_, False.elim⟩
    cases w <;> exact le_rfl
  | _, .as inner encodeAs _ => fun v => sized_compact inner (encodeAs v)

end Sized

/-- No encoding is longer than the bound, and those of a `ConstEncodedLen` type are as long. -/
theorem Ty.encode_sized {ι : Type} {ν : ι → Type} {α : Type} {P : Platform ν}
    {env : ∀ i, Encode (ν i)} (henv : ∀ i, (env i).Lawful) {t : Ty ν α}
    (ht : t.HasMaxEncodedLen) : (t.encode P env).Sized t.lenBound t.ConstEncodedLen := by
  have law : ∀ {β : Type} (u : Ty ν β), (u.encode P env).Lawful := encode_lawful henv
  induction t with
  | prim p => exact sized_of_length (primEncode_encode p) fun x => length_toLeBytes x
  | bool => exact sized_of_length boolEncode_encode fun _ => rfl
  | nonZero p h =>
    exact sized_of_length (fun _ => encodes_nonZeroEncode.mpr rfl) fun x => length_toLeBytes x.val
  | unit => exact sized_of_length (fun _ => encodes_unitEncode.mpr rfl) fun _ => rfl
  | phantomData =>
    exact sized_of_length (fun _ => encodes_phantomDataEncode.mpr rfl) fun _ => rfl
  | option t ih => exact sized_optionEncode (law t) (ih ht)
  | result t e iht ihe => exact sized_resultEncode (law t) (law e) (iht ht.1) (ihe ht.2)
  | tuple1 t ih => exact ih ht
  | pair t u iht ihu => exact sized_pairEncode (law t) (law u) (iht ht.1) (ihu ht.2)
  | array n t ih => exact sized_arrayEncode (law t) (ih ht)
  | box t ih => exact ih ht
  | arc t ih =>
    intro v
    obtain ⟨bs, henc, hle, -⟩ := ih ht v
    exact ⟨bs, henc, hle, False.elim⟩
  | duration =>
    refine sized_of_length (fun _ => encodes_durationEncode.mpr rfl) fun v => ?_
    rw [List.length_append, length_toLeBytes, length_toLeBytes]
    rfl
  | range t ih | rangeInclusive t ih =>
    intro v
    obtain ⟨bs, henc, hle, hconst⟩ := sized_pairEncode (law t) (law t) (ih ht) (ih ht)
      (v.start, v.end)
    rw [← Nat.mul_two] at hle hconst
    exact ⟨bs, henc, hle, fun h => hconst ⟨h, h⟩⟩
  | compact c => exact fun v => sized_compact c v
  | _ => exact ht.elim

/-- `max_encoded_len` bounds every encoding, and is the length of each if the type is
`ConstEncodedLen`. -/
theorem LibTy.encode_length_le {P : Platform Empty.elim} {α : Type} {t : LibTy α}
    (ht : t.HasMaxEncodedLen) (hfits : t.lenBound ≤ P.target.usizeMax) (v : α) :
    ∃ bs, Encodes (t.encode P) v bs ∧ bs.length ≤ t.maxEncodedLen P ∧
      (t.ConstEncodedLen → bs.length = t.maxEncodedLen P) := by
  rw [Ty.maxEncodedLen_eq, min_eq_left hfits]
  exact Ty.encode_sized (fun i => nomatch i) ht v

/-- `Option<[u16; 3]>` takes up to seven bytes, and `[u16; 3]` is `ConstEncodedLen` and takes
six. -/
theorem LibTy.encode_length_le_option :
    let P := Platform.unpadded Empty.elim
    let t : LibTy _ := .array 3 (.prim .u16)
    let v : List.Vector Prim.u16.Val 3 := ⟨[1, 2, 3], rfl⟩
    (∃ bs, Encodes (LibTy.encode P (.option t)) (some v) bs ∧ bs = [1, 1, 0, 2, 0, 3, 0] ∧
        bs.length ≤ 7) ∧
      ∃ bs, Encodes (LibTy.encode P t) v bs ∧ bs = [1, 0, 2, 0, 3, 0] ∧ bs.length = 6 := by
  intro P t v
  obtain ⟨bs, hbs, hle, -⟩ :=
    LibTy.encode_length_le (P := P) (t := .option t) rfl (by decide) (some v)
  obtain ⟨cs, hcs, -, hconst⟩ := LibTy.encode_length_le (P := P) (t := t) rfl (by decide) v
  exact ⟨⟨bs, hbs, hbs.unique rfl, hle⟩, cs, hcs, hcs.unique rfl, hconst rfl⟩

end ScaleCodec
