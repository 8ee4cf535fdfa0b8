import ScaleCodec.Bulk
import ScaleCodec.Locality
import ScaleCodec.ReferenceDepth

/-!
# Byte orders and depth limits

Targets of either byte order accept the same bytes (`Ty.decodes_byteOrder`), but not within the
same limit. A vector whose items are read all at once does not count as a reference, and on a
big-endian target integers of more than one byte are decoded one by one. The depth of a decoder is
a function of the byte order and of the value that it returns (`Ty.measured`), so the results
differ exactly at the limits that lie between the two depths (`decode_depth_byteOrder_iff`).
-/

namespace ScaleCodec

/-- The same choices, for a target of the given byte order. -/
def Platform.withByteOrder {ι : Type} {ν : ι → Type} (P : Platform ν) (le : Bool) : Platform ν :=
  { P with target := { P.target with littleEndian := le } }

namespace Ty

variable {ι : Type} {ν : ι → Type} {α : Type} {P : Platform ν} {env : ∀ i, Decode (ν i)}

/-! ## Depths of types and values -/

/-- The types built from vectors, deques, heaps, boxes, options, tuples and primitive types. -/
def Nestable {α : Type} : Ty ν α → Prop
  | prim _ | unit => True
  | option t | tuple1 t | vec t | vecDeque t | binaryHeap _ t | box t => t.Nestable
  | pair t u => t.Nestable ∧ u.Nestable
  | _ => False

/-- The vectors and boxes that are in each other. -/
def nesting {α : Type} : Ty ν α → ℕ
  | vec t | vecDeque t | binaryHeap _ t | box t => t.nesting + 1
  | option t | tuple1 t => t.nesting
  | pair t u => max t.nesting u.nesting
  | _ => 0

/-- `decode_vec_with_len` reads items of this type all at once. -/
def bulk (le : Bool) {α : Type} : Ty ν α → Bool
  | prim p => le || p.size == 1
  | _ => false

/-- The references that are in each other in a value, on a target of the given byte order : the
boxes, and the vectors whose items are decoded one by one. -/
def refDepth (le : Bool) {α : Type} : Ty ν α → α → ℕ
  | option t, v => v.elim 0 (t.refDepth le)
  | tuple1 t, v => t.refDepth le v
  | pair t u, v => max (t.refDepth le v.1) (u.refDepth le v.2)
  | vec t, v | vecDeque t, v => if t.bulk le then 0 else maxOf (t.refDepth le) v + 1
  | binaryHeap _ t, v => if t.bulk le then 0 else maxOf (t.refDepth le) v.data + 1
  | box t, v => t.refDepth le v + 1
  | _, _ => 0

/-- On a big-endian target fewer vectors are read all at once. -/
theorem refDepth_mono (t : Ty ν α) : ∀ v : α, t.refDepth true v ≤ t.refDepth false v := by
  have hitems : ∀ {β : Type} {t : Ty ν β} (as : List β),
      (∀ v, t.refDepth true v ≤ t.refDepth false v) →
      (if t.bulk true then 0 else maxOf (t.refDepth true) as + 1) ≤
        if t.bulk false then 0 else maxOf (t.refDepth false) as + 1 := by
    intro β t as h
    have hbulk : t.bulk false = true → t.bulk true = true := by
      cases t with
      | prim p => exact fun _ => rfl
      | _ => exact id
    split_ifs with hle hbe
    · exact le_rfl
    · exact Nat.zero_le _
    · exact absurd (hbulk ‹_›) hle
    · exact Nat.succ_le_succ (maxOf_mono h as)
  induction t with
  | option t ih =>
    intro v
    cases v with
    | none => exact le_rfl
    | some a => exact ih a
  | tuple1 t ih => exact ih
  | pair t u iht ihu => exact fun v => max_le_max (iht v.1) (ihu v.2)
  | vec t ih | vecDeque t ih => exact fun v => hitems v ih
  | binaryHeap ord t ih => exact fun v => hitems v.data ih
  | box t ih => exact fun v => Nat.succ_le_succ (ih v)
  | _ => exact fun _ => le_rfl

/-! ## The depth of a decoder -/

theorem decodeInto_eq_decode {t : Ty ν α} (ht : t.Nestable) :
    (t.decode P env).decodeInto = (t.decode P env).decode := by
  cases t <;> first | rfl | exact ht.elim

/-- The depth of a vector, from those of its items. -/
theorem measured_vecDecode {t : Ty ν α} (ht : t.Nestable)
    (hitem : ∀ s, Measured (t.decode P env).decode s t.nesting
      fun v d => d = t.refDepth P.target.littleEndian v) (size : ℕ) (s : List Byte) :
    Measured (vecDecode P.target size (t.decode P env)).decode s (t.nesting + 1) fun as d =>
      d = if t.bulk P.target.littleEndian then 0
        else maxOf (t.refDepth P.target.littleEndian) as + 1 := by
  have hlen : Flat (compactDecode P.target .u32) := compactDecode_rel (L := flatness) (d := 0) .u32
  refine hlen.measured_bind fun len u _ => ?_
  have hitems : Measured (decodeVecFromItems P.target (t.decode P env) len.toNat) u _ _ :=
    measured_decodeVecFromItems hitem len.toNat u
  cases t with
  | prim p =>
    have hbulk : bulk P.target.littleEndian (prim p : Ty ν _) = true ↔
        P.target.littleEndian ∨ p.size = 1 := by
      show (P.target.littleEndian || p.size == 1) = true ↔ _
      rw [Bool.or_eq_true, beq_iff_eq]
    show Measured (if P.target.littleEndian ∨ p.size = 1 then _ else _) u _ _
    by_cases h : P.target.littleEndian ∨ p.size = 1
    · simp only [hbulk, if_pos h]
      exact measured_readVecFromU8s _ _ u
    · simp only [hbulk, if_neg h]
      exact hitems
  | unit | option t | tuple1 t | pair t t' | vec t | vecDeque t | binaryHeap ord t | box t =>
    exact hitems
  | _ => exact ht.elim

/-- The depth of a run is that of the value, and at most that of the type. -/
theorem measured {t : Ty ν α} (ht : t.Nestable) :
    ∀ s, Measured (t.decode P env).decode s t.nesting
      fun v d => d = t.refDepth P.target.littleEndian v := by
  induction t with
  | prim p =>
    exact fun s => Flat.measured (primDecode_rel (L := flatness) (d := 0) p).decode fun _ _ _ => rfl
  | unit => exact fun s => measured_pure rfl
  | option t ih =>
    intro s
    have hbyte : Flat (DecodeM.readByte.chainErr "Could not decode variant byte for `Option`") :=
      flatness.rel_chainErr (d := 0) flatness.rel_readByte
    refine hbyte.measured_bind fun b u _ => ?_
    split_ifs
    · exact measured_pure rfl
    · exact measured_map (measured_chainErr (ih ht u))
    · exact (flat_throw _).measured fun _ _ h => absurd h not_decodes_err
  | tuple1 t ih => exact ih ht
  | pair t u iht ihu =>
    intro s
    have hfirst := (iht ht.1 s).mono (le_max_left t.nesting u.nesting)
    refine measured_bind hfirst fun a s₁ d _ hd => ?_
    have hsecond := (ihu ht.2 s₁).mono (le_max_right t.nesting u.nesting)
    refine measured_bind hsecond fun b s₂ d' _ hd' => measured_pure ?_
    rw [Nat.max_zero, hd, hd']
    rfl
  | vec t ih => exact measured_vecDecode (t := t) ht (ih ht) _
  | vecDeque t ih => exact measured_vecDecode (t := t) ht (ih ht) _
  | binaryHeap ord t ih =>
    intro s
    have hperm : ∀ as, maxOf (t.refDepth P.target.littleEndian) (P.heapify ord as) = _ :=
      fun as => maxOf_perm (P.heapify_perm ord as)
    refine measured_map ?_
    show Measured _ s _ fun as d => d = if t.bulk P.target.littleEndian then 0
      else maxOf (t.refDepth P.target.littleEndian) (P.heapify ord as) + 1
    simp only [hperm]
    exact measured_vecDecode (t := t) ht (ih ht) _ s
  | box t ih =>
    intro s
    refine measured_nested ((flat_onBeforeAllocMem _).measured_bind fun _ u _ =>
      (flat_allocate _).measured_bind fun _ w _ => ?_)
    have hinto : (t.decode P env).decodeInto = (t.decode P env).decode := decodeInto_eq_decode ht
    have hinner := ih ht w
    rw [← hinto] at hinner
    show Measured _ w _ fun v d => d + 1 = t.refDepth P.target.littleEndian v + 1
    simp only [Nat.add_right_cancel_iff]
    exact hinner
  | _ => exact ht.elim

/-! ## The values accepted -/

theorem compiles_withByteOrder {le : Bool} (t : Ty ν α) :
    t.Compiles (P.withByteOrder le) ↔ t.Compiles P := by
  induction t with
  | option t ih | tuple1 t ih | array n t ih | genericArray n t ih | linkedList t ih | box t ih
  | rc t ih | arc t ih | cow t ih | range t ih | rangeInclusive t ih | btreeSet ord t ih => exact ih
  | result t u iht ihu | pair t u iht ihu | btreeMap ord t u iht ihu => exact and_congr iht ihu
  | vec t ih | vecDeque t ih | binaryHeap ord t ih => exact and_congr_right fun _ => ih
  | _ => exact Iff.rfl

end Ty

section Accepted

variable {α : Type} {P : Platform Empty.elim}

theorem Local.decodesList_imp {p q : DecodeM α} (hp : Local p) {n : ℕ} {s' : List Byte}
    (h : ∀ s a s', s.length ≤ n → Decodes p s a s' → Decodes q s a s') :
    ∀ {as : List α} {s : List Byte}, s.length ≤ n → DecodesList p as s s' → DecodesList q as s s'
  | [], _, _, hd => hd
  | _ :: _, s, hs, ⟨t, ha, has⟩ =>
    ⟨t, h s _ t hs ha, decodesList_imp hp h ((hp.length_le ha).trans hs) has⟩

theorem decodes_vecDecode_byteOrder {t : LibTy α} (hsize : P.size t ≤ maxPreallocation)
    (hc : t.Compiles P) {le le' : Bool} (ih : ∀ {s s' : List Byte} {v : α},
      s.length ≤ P.target.usizeMax → Decodes (t.decode (P.withByteOrder le)).decode s v s' →
      Decodes (t.decode (P.withByteOrder le')).decode s v s') {size : ℕ} {s s' : List Byte}
    {as : List α} (hs : s.length ≤ P.target.usizeMax)
    (h : Decodes (vecDecode (P.withByteOrder le).target size
      (t.decode (P.withByteOrder le))).decode s as s') :
    Decodes (vecDecode (P.withByteOrder le').target size
      (t.decode (P.withByteOrder le'))).decode s as s' := by
  have hlaw : ∀ le, (t.decode (P.withByteOrder le)).Lawful := fun le =>
    Ty.decodeWith_lawful (fun i => nomatch i) t
  have hitem : ∀ le, (t.decode (P.withByteOrder le)).size ≤ maxPreallocation := fun le => by
    rw [Ty.size_decodeWith fun i => nomatch i]
    exact hsize
  have hlocal : Local (t.decode (P.withByteOrder le)).decode :=
    LibTy.local_decode ((Ty.compiles_withByteOrder t).mpr hc)
  obtain ⟨hlen, u, rfl, hd⟩ := decodesList_of_vecDecode (hlaw le) (hitem le) h
  have hs' : (compactBytes as.length ++ u).length ≤ (P.withByteOrder le').target.usizeMax := hs
  refine (decodes_vecDecode_iff (hlaw le') (hitem le') hs').mpr ⟨hlen, u, rfl, ?_⟩
  rw [List.length_append] at hs
  exact hlocal.decodesList_imp (fun _ _ _ => ih) (Nat.le_of_add_left_le hs) hd

/-- What is accepted does not depend on the byte order. -/
theorem Ty.decodes_byteOrder {t : LibTy α} (ht : t.Nestable) (hc : t.Compiles P) (le le' : Bool) :
    ∀ {s s' : List Byte} {v : α}, s.length ≤ P.target.usizeMax →
      Decodes (t.decode (P.withByteOrder le)).decode s v s' →
      Decodes (t.decode (P.withByteOrder le')).decode s v s' := by
  induction t with
  | prim p => exact fun _ h => h
  | unit => exact fun _ h => h
  | option t ih =>
    intro s s' v hs h
    refine decodes_optionDecode.mpr ((decodes_optionDecode.mp h).imp_right ?_)
    rintro ⟨a, u, rfl, rfl, ha⟩
    exact ⟨a, u, rfl, rfl, ih ht hc (Nat.le_of_succ_le hs) ha⟩
  | tuple1 t ih => exact ih ht hc
  | pair t u iht ihu =>
    intro s s' v hs h
    obtain ⟨w, hfst, hsnd⟩ := decodes_pairDecode.mp h
    have hw := (LibTy.local_decode ((compiles_withByteOrder t).mpr hc.1)).length_le hfst
    exact decodes_pairDecode.mpr ⟨w, iht ht.1 hc.1 hs hfst, ihu ht.2 hc.2 (hw.trans hs) hsnd⟩
  | vec t ih => exact decodes_vecDecode_byteOrder hc.1 hc.2 (ih ht hc.2)
  | vecDeque t ih => exact decodes_vecDecode_byteOrder hc.1 hc.2 (ih ht hc.2)
  | binaryHeap ord t ih =>
    intro s s' v hs h
    obtain ⟨as, has, rfl⟩ := decodes_map.mp h
    exact decodes_map.mpr ⟨as, decodes_vecDecode_byteOrder hc.1 hc.2 (ih ht hc.2) hs has, rfl⟩
  | box t ih =>
    intro s s' v hs h
    have hlaw : ∀ le, (LibTy.decode (P.withByteOrder le) t).Lawful := fun le =>
      decodeWith_lawful (fun i => nomatch i) t
    exact (decodes_boxDecode (hlaw le')).mpr (ih ht hc hs ((decodes_boxDecode (hlaw le)).mp h))
  | _ => exact ht.elim

end Accepted

/-! ## Limits -/

section Limits

variable {α : Type} {P : Platform Empty.elim} {t : LibTy α} {l : ℕ} {s : List Byte}

theorem Ty.depthReached_le_nesting (ht : t.Nestable) (s : List Byte) :
    depthReached (t.decode P).decode s ≤ t.nesting := by
  obtain ⟨d, hd, hnests, -⟩ := Ty.measured (P := P) ht s
  rwa [hnests.depthReached_eq]

theorem Ty.depthReached_eq_refDepth (ht : t.Nestable) {v : α} {rest : List Byte}
    (h : Decodes (t.decode P).decode s v rest) :
    depthReached (t.decode P).decode s = t.refDepth P.target.littleEndian v := by
  obtain ⟨d, -, hnests, hv⟩ := Ty.measured (P := P) ht s
  rw [hnests.depthReached_eq, hv v rest h]

section Run

variable (ht : t.Nestable) (hc : t.Compiles P) (hl : l ≤ u32Max)
  (hn : l = u32Max → t.nesting ≤ u32Max)

include ht hc hl hn

/-- A limited run is the plain run, unless the plain run goes deeper than the limit. -/
theorem Ty.runSlice_limited {r : Except Error α} {rest : List Byte}
    (hrun : runSlice (t.decode P).decode s = .ok (r, rest)) :
    (depthReached (t.decode P).decode s ≤ l ∧
      runSlice (decodeWithDepthLimit l (t.decode P).decode) s = .ok (r, rest)) ∨
    (l < depthReached (t.decode P).decode s ∧
      ∃ e rest', runSlice (decodeWithDepthLimit l (t.decode P).decode) s =
        .ok (.error e, rest')) := by
  have hobeys : Obeys (Discipline.anyDepth fun _ => True) 0 (t.decode P).decode :=
    (Ty.decode_obeys hc (t.errorsIn_of_forall fun _ => trivial)).decode
  exact runSlice_limited_of_depthReached_le hl
    (fun h => (Ty.depthReached_le_nesting ht s).trans (hn h)) hobeys hrun

/-- What is accepted is accepted within a limit iff the depth of its value is. -/
theorem Ty.limited_of_decodes {v : α} {rest : List Byte}
    (h : Decodes (t.decode P).decode s v rest) :
    (t.refDepth P.target.littleEndian v ≤ l ∧
      Decodes (decodeWithDepthLimit l (t.decode P).decode) s v rest) ∨
    (l < t.refDepth P.target.littleEndian v ∧
      ∃ e rest', runSlice (decodeWithDepthLimit l (t.decode P).decode) s =
        .ok (.error e, rest')) := by
  rw [← Ty.depthReached_eq_refDepth ht h]
  exact Ty.runSlice_limited ht hc hl hn h

/-- What is not accepted is not accepted within a limit. -/
theorem Ty.limited_of_not_decodes (h : ∀ v rest, ¬Decodes (t.decode P).decode s v rest) :
    ∃ e rest, runSlice (decodeWithDepthLimit l (t.decode P).decode) s = .ok (.error e, rest) := by
  obtain ⟨r, rest, hrun⟩ := Ty.exists_runSlice hc s
  cases r with
  | ok v => exact absurd hrun (h v rest)
  | error e =>
    rcases Ty.runSlice_limited ht hc hl hn hrun with ⟨-, hlim⟩ | ⟨-, hlim⟩
    · exact ⟨e, rest, hlim⟩
    · exact hlim

end Run

/-- The results are the same on targets of either byte order, except for bytes whose value is
within the limit on a little-endian target and goes deeper on a big-endian one. -/
theorem decode_depth_byteOrder_iff (ht : t.Nestable) (hc : t.Compiles P) (hl : l ≤ u32Max)
    (hn : l = u32Max → t.nesting ≤ u32Max) (hs : s.length ≤ P.target.usizeMax) :
    SameResult (decodeWithDepthLimit l (t.decode (P.withByteOrder true)).decode)
        (decodeWithDepthLimit l (t.decode (P.withByteOrder false)).decode) s ↔
      ∀ v rest, Decodes (t.decode P).decode s v rest →
        ¬(t.refDepth true v ≤ l ∧ l < t.refDepth false v) := by
  have hc' : ∀ le, t.Compiles (P.withByteOrder le) := fun le =>
    (Ty.compiles_withByteOrder t).mpr hc
  have hdec : ∀ le v rest, Decodes (t.decode P).decode s v rest ↔
      Decodes (t.decode (P.withByteOrder le)).decode s v rest := fun le v rest =>
    ⟨Ty.decodes_byteOrder ht hc P.target.littleEndian le hs,
      Ty.decodes_byteOrder ht hc le P.target.littleEndian hs⟩
  by_cases h : ∃ v rest, Decodes (t.decode P).decode s v rest
  · obtain ⟨v, rest, hv⟩ := h
    have hcond : (∀ w rest', Decodes (t.decode P).decode s w rest' →
        ¬(t.refDepth true w ≤ l ∧ l < t.refDepth false w)) ↔
          ¬(t.refDepth true v ≤ l ∧ l < t.refDepth false v) := by
      refine ⟨fun hall => hall v rest hv, fun hone w rest' hw => ?_⟩
      obtain ⟨rfl, -⟩ := hv.unique hw
      exact hone
    have hlim := fun le => Ty.limited_of_decodes ht (hc' le) hl hn ((hdec le v rest).mp hv)
    have hmono := t.refDepth_mono v
    rw [hcond]
    -- The same depth on both sides of the limit, or a limit between the two.
    rcases hlim true with ⟨hd, hle⟩ | ⟨hd, e, rest', hle⟩
    · rcases hlim false with ⟨hd', hbe⟩ | ⟨hd', e, rest', hbe⟩
      · exact iff_of_true (.inl ⟨v, rest, hle, hbe⟩) fun h => not_le.mpr h.2 hd'
      · refine iff_of_false ?_ (not_not.mpr ⟨hd, hd'⟩)
        rintro (⟨w, rest'', -, hw⟩ | ⟨⟨_, _, he⟩, -⟩)
        · cases hbe.symm.trans hw
        · cases hle.symm.trans he
    · rcases hlim false with ⟨hd', -⟩ | ⟨hd', e', rest'', hbe⟩
      · exact absurd (hmono.trans hd') (not_le.mpr hd)
      · exact iff_of_true (.inr ⟨⟨e, rest', hle⟩, e', rest'', hbe⟩) fun h => not_le.mpr hd h.1
  · push Not at h
    have hnone : ∀ le v rest, ¬Decodes (t.decode (P.withByteOrder le)).decode s v rest :=
      fun le v rest hv => h v rest ((hdec le v rest).mpr hv)
    refine iff_of_true (.inr ⟨?_, ?_⟩) fun v rest hv => absurd hv (h v rest)
    · exact Ty.limited_of_not_decodes ht (hc' true) hl hn (hnone true)
    · exact Ty.limited_of_not_decodes ht (hc' false) hl hn (hnone false)

/-- A boxed vector of two-byte integers has one level or two : the results differ between them. -/
theorem decode_depth_byteOrder_iff_box :
    let P : Platform Empty.elim := Platform.unpadded _
    let t : LibTy _ := .box (.vec (.prim .u16))
    let limited := fun l le => decodeWithDepthLimit l (t.decode (P.withByteOrder le)).decode
    let same := fun l => SameResult (limited l true) (limited l false) [4, 1, 0]
    same 0 ∧ ¬same 1 ∧ same 2 := by
  intro P t limited same
  have hv : Decodes (t.decode P).decode [4, 1, 0] [1] [] := rfl
  have hiff : ∀ l < u32Max, same l ↔ ¬(t.refDepth true [1] ≤ l ∧ l < t.refDepth false [1]) := by
    intro l hl
    refine (decode_depth_byteOrder_iff (t := t) trivial ⟨by decide, trivial⟩ hl.le
      (fun h => absurd h hl.ne) (by decide)).trans ⟨fun h => h _ _ hv, fun h w rest hw => ?_⟩
    obtain ⟨rfl, -⟩ := hv.unique hw
    exact h
  exact ⟨(hiff 0 (by decide)).mpr (by decide), fun h => (hiff 1 (by decide)).mp h (by decide),
    (hiff 2 (by decide)).mpr (by decide)⟩

/-- A vector of one two-byte integer, without references allowed. -/
theorem decode_depth_byteOrder_differs :
    let P : Platform Empty.elim := Platform.unpadded _
    let t : LibTy _ := .vec (.prim .u16)
    Decodes (decodeWithDepthLimit 0 (t.decode (P.withByteOrder true)).decode) [4, 1, 0] [1] [] ∧
      ∃ rest, runSlice (decodeWithDepthLimit 0 (t.decode (P.withByteOrder false)).decode)
        [4, 1, 0] = .ok (.error (.desc decodeMaxDepthMsg), rest) :=
  ⟨rfl, _, rfl⟩

end Limits

end ScaleCodec
