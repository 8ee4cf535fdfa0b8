import Mathlib.Order.Filter.AtTopBot.Basic
import Mathlib.Order.Filter.Finite
import Mathlib.Order.Interval.Finset.Nat
import ScaleCodec.DepthLimit

/-!
# Decoding with a depth limit terminates

A system of declarations is of finite size if no type contains itself, other than behind a
reference : `TypeDefs.contains` is well-founded. Bytes consumed are no measure for the decoders of
such a system, since a level of nesting may consume none. The measure is lexicographic : a call of
a named type is made for a type that is contained, or one reference deeper, which the limit allows
`l` times. So enough fuel lets every named type obey without running out
(`TypeDefs.eventually_obeys`), and the limited decoder returns on every slice
(`TypeDefs.depth_limit_terminates`).
-/

namespace ScaleCodec

open Prog Filter

/-- Under a depth limit at most `l` references are entered at once. -/
def Discipline.depthLimit (l : ℕ) (haltOk : Halt → Prop) : Discipline where
  depthOk d := d ≤ l
  errorOk _ := True
  haltOk := haltOk
  own _ _ := trivial

section Limited

variable {α : Type} {l : ℕ} {haltOk : Halt → Prop}

/-- A depth tracker replies to every call a decoder may make, and never lets it exceed the limit. -/
theorem depthTracking_keeps (hl : l < u32Max) :
    (depthTracking.over sliceInput).Keeps (Discipline.depthLimit l haltOk).contract fun g x =>
      x.1.maxDepth = l ∧ g.depth ≤ x.1.depth ∧ (g.failed = none → x.1.depth ≤ l) := by
  rintro c g ⟨⟨n, m⟩, s⟩ hpre ⟨hmax, hdepth, hle⟩
  obtain rfl : l = m := hmax.symm
  dsimp only at hdepth hle
  have hbytes : c ≠ .scaleInternalDecodeBytes := by
    rintro rfl
    exact hpre
  obtain ⟨a, s', hc⟩ := exists_sliceInput hbytes s
  cases c with
  | scaleInternalDecodeBytes => exact hpre.elim
  | allocate _ =>
    exact ⟨a, (_, s'), _, over_eq_ok (run_call hc _), rfl, rfl, hdepth, fun _ => hle hpre⟩
  | descendRef =>
    have hle : n ≤ l := hle hpre
    have hover : depthTracking.over sliceInput .descendRef (⟨n, l⟩, s) = _ :=
      depthTracking_descendRef rfl (by simp only; omega)
    by_cases hlim : n + 1 > l
    · rw [if_pos hlim] at hover
      exact ⟨_, _, _, hover, rfl, rfl, Nat.le_succ_of_le hdepth, fun h => nomatch h⟩
    · rw [if_neg hlim] at hover
      have hlim : n + 1 ≤ l := not_lt.mp hlim
      have hdepth : g.depth + 1 ≤ n + 1 := Nat.succ_le_succ hdepth
      exact ⟨_, _, _, hover, ⟨hdepth.trans hlim, rfl⟩, rfl, hdepth, fun _ => hlim⟩
  | ascendRef =>
    have hpos : n ≠ 0 := (lt_of_lt_of_le hpre hdepth).ne'
    exact ⟨_, _, _, depthTracking_ascendRef rfl hpos, rfl, rfl, Nat.sub_le_sub_right hdepth 1,
      fun h => (Nat.sub_le _ _).trans (hle h)⟩
  | remainingLen | read _ | readByte | onBeforeAllocMem _ =>
    refine ⟨a, (_, s'), _, over_eq_ok (run_call hc _), rfl, rfl, ?_, fun _ => hle hpre⟩
    cases a <;> exact hdepth

/-- A decoder that obeys within the limit returns under it. -/
theorem runSlice_limited_of_obeys (hl : l < u32Max) {p : DecodeM α}
    (hp : Obeys (Discipline.depthLimit l fun _ => False) 0 p) (s : List Byte) :
    ∃ r rest, runSlice (decodeWithDepthLimit l p) s = .ok (r, rest) := by
  rw [runSlice_decodeWithDepthLimit]
  rcases run_of_meets (depthTracking_keeps hl) (s := (⟨0, l⟩, s)) hp
    ⟨rfl, le_rfl, fun _ => Nat.zero_le l⟩ with ⟨r, x, _, h, _⟩ | ⟨_, _, _, _, h, _⟩
  · rw [h]
    exact ⟨r, x.2, rfl⟩
  · exact h.2.elim

end Limited

namespace TypeDefs

variable {ι : Type} {ν : ι → Type} {P : Platform ν} {Δ : TypeDefs ν}
  {internal : DecodeM (List Prim.u8.Val)} {D : Discipline} {l : ℕ}

/-- With enough fuel a named type obeys without running out of it. -/
theorem eventually_obeys (hD : ∀ d, D.depthOk d → d ≤ l) (hinternal : ∀ d, Obeys D d internal)
    (hΔ : Δ.Compiles P) (he : Δ.ErrorsIn D.errorOk)
    (hwf : WellFounded fun j i => j ∈ Δ.contains i) (d : ℕ) (i : ι) :
    ∀ᶠ n in atTop, (Δ.decodeNamedWith P internal n i).Obeys D d := by
  -- on the references left to enter, and for each depth on the containment of types
  induction hk : l - d using Nat.strong_induction_on generalizing d i with
  | _ k ihd =>
    induction i using hwf.induction with
    | _ i ihi =>
      have hcontains : ∀ᶠ n in atTop, ∀ j ∈ Δ.contains i,
          (Δ.decodeNamedWith P internal n j).Obeys D d :=
        (eventually_all_finite (Δ.contains i).finite_toSet).mpr fun j hj => ihi j hj
      have hnames : ∀ᶠ n in atTop, ∀ j ∈ Δ.names i, ∀ d' ∈ Finset.Ioc d l,
          (Δ.decodeNamedWith P internal n j).Obeys D d' := by
        refine (eventually_all_finite (Δ.names i).finite_toSet).mpr fun j _ =>
          (eventually_all_finset _).mpr fun d' hd' => ?_
        rw [Finset.mem_Ioc] at hd'
        exact ihd (l - d') (by omega) d' j rfl
      obtain ⟨N, hN⟩ := eventually_atTop.mp (hcontains.and hnames)
      refine eventually_atTop.mpr ⟨N + 1, fun n hn => ?_⟩
      obtain ⟨m, rfl⟩ := Nat.exists_eq_succ_of_ne_zero (Nat.ne_zero_of_lt hn)
      obtain ⟨hc, hn'⟩ := hN m (Nat.le_of_succ_le_succ hn)
      exact decodeNamedWith_succ_obeys hinternal hΔ he hc fun j hj d' hlt hd' =>
        hn' j hj d' (Finset.mem_Ioc.mpr ⟨hlt, hD d' hd'⟩)

/-- With a depth limit every decoder of a system of finite size terminates : enough fuel lets it
return on every slice. -/
theorem depth_limit_terminates (hΔ : Δ.Compiles P) (hwf : WellFounded fun j i => j ∈ Δ.contains i)
    {α : Type} {t : Ty ν α} (ht : t.Compiles P) (hl : l < u32Max) :
    ∃ N, ∀ n ≥ N, ∀ s, ∃ r rest,
      runSlice (decodeWithDepthLimit l (Δ.decode P n t).decode) s = .ok (r, rest) := by
  let D := Discipline.depthLimit l fun _ => False
  have henv : ∀ d i, ∀ᶠ n in atTop, (Δ.decodeNamedWith P
      (vecDecode P.target (P.size (.vec (.prim .u8))) (primDecode .u8)).decode n i).Obeys D d :=
    eventually_obeys (fun _ hd => hd) obeys_decodeBytes hΔ
      (Δ.errorsIn_of_forall fun _ => trivial) hwf
  have hcontains := (eventually_all_finite t.contains.finite_toSet).mpr fun i _ => henv 0 i
  have hnames := (eventually_all_finite t.names.finite_toSet).mpr fun i _ =>
    (eventually_all_finset (Finset.Ioc 0 l)).mpr fun d _ => henv d i
  obtain ⟨N, hN⟩ := eventually_atTop.mp (hcontains.and hnames)
  refine ⟨N, fun n hn s => runSlice_limited_of_obeys hl ?_ s⟩
  obtain ⟨hc, hn'⟩ := hN n hn
  exact (Ty.decodeWith_obeys obeys_decodeBytes size_decodeNamedWith ht
    (t.errorsIn_of_forall fun _ => trivial)
    ⟨hc, fun i hi d hlt hd => hn' i hi d (Finset.mem_Ioc.mpr ⟨hlt, hd⟩)⟩).decode

end TypeDefs

/-! ## A type without an end -/

/-- `struct R(Box<R>)`. -/
def loopDefs : TypeDefs fun _ : Unit => Empty := fun _ =>
  { ident := "R"
    data := .struct (.unnamed (.cons { ident := none, ty := .box (.named ()) } .nil))
    repr := (Equiv.prodPUnit Empty).symm }

theorem loopDefs_compiles : loopDefs.Compiles (Platform.unpadded _) where
  check _ := rfl
  fields _ := ⟨trivial, trivial⟩
  layout _ h := nomatch h

/-- No fuel is enough for the plain decoder, which consumes nothing. -/
theorem runSlice_loopDefs {P : Platform fun _ : Unit => Empty} (n : ℕ) (s : List Byte) :
    runSlice (loopDefs.decode P n (.named ())).decode s = .error .outOfFuel := by
  induction n generalizing s with
  | zero => rfl
  | succ n ih =>
    let I := loopDefs.decode P n (.named ())
    have hinto : I.decodeInto = I.decode := by cases n <;> rfl
    have hbox : runSlice (boxDecode (P.size (.box (.named ()))) I).decode s =
        .error .outOfFuel := by
      show runSlice (DecodeM.nested (DecodeM.onBeforeAllocMem I.size >>= fun _ =>
        DecodeM.allocate I.size >>= fun _ => I.decodeInto)) s = _
      rw [hinto, DecodeM.nested, runSlice_bind]
      refine runSlice_bind_error ?_
      rw [runSlice_bind]
      show runSlice (DecodeM.allocate I.size >>= fun _ => I.decode) s = _
      rw [runSlice_bind]
      exact ih s
    show runSlice (_ <$> decodeFields _ _ _ _) s = _
    rw [map_eq_pure_bind]
    refine runSlice_bind_error (runSlice_bind_error ?_)
    rw [decodeField_eq]
    show runSlice (_ <$> DecodeM.chainErr _ _) s = _
    rw [map_eq_pure_bind]
    exact runSlice_bind_error (runSlice_chainErr_error hbox)

/-- The limit 100 ends the decoding of `R`, which is endless without it. -/
theorem TypeDefs.depth_limit_terminates_loop :
    let P := Platform.unpadded fun _ : Unit => Empty
    (∀ n s, runSlice (loopDefs.decode P n (.named ())).decode s = .error .outOfFuel) ∧
      ∃ N, ∀ n ≥ N, ∀ s, ∃ r rest,
        runSlice (decodeWithDepthLimit 100 (loopDefs.decode P n (.named ())).decode) s =
          .ok (r, rest) :=
  ⟨runSlice_loopDefs, TypeDefs.depth_limit_terminates loopDefs_compiles
    ⟨fun i => ⟨i, fun _ hj => nomatch hj⟩⟩ trivial (by decide)⟩

end ScaleCodec
