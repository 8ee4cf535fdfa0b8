import ScaleCodec.Trackers
import ScaleCodec.TypeDiscipline

/-!
# Memory is announced before it is allocated

The credit of a decoder is the memory it has announced and not yet allocated. A decoder is solvent
if it never allocates beyond its credit (`Solvent`), whatever the replies of its input. This is a
logic of decoders (`solvency`), because memory is announced right before it is allocated.

So at every moment of a run under a `MemTrackingInput` the memory allocated is at most the memory
counted (`allocated_le_usedMem`).
-/

namespace ScaleCodec

variable {α β : Type} {p : DecodeM α}

/-! ## Credit -/

/-- The credit before and after a call. -/
def creditContract : Contract inputInterface ℕ where
  pre
    | .allocate size, credit => size ≤ credit
    | _, _ => True
  post
    | .onBeforeAllocMem size, credit, .ok _, credit' => credit' = credit + size
    | .allocate size, credit, _, credit' => credit' = credit - size
    | _, credit, _, credit' => credit' = credit

/-- Whatever its credit, `p` does not allocate beyond it. -/
def Solvent (p : DecodeM α) : Prop :=
  ∀ credit, p.run.Meets creditContract (fun _ _ => True) (fun _ _ => True) credit

theorem solvent_pure (a : α) : Solvent (pure a) :=
  fun _ => trivial

theorem solvent_bind_of_yields {P : α → Prop} {f : α → DecodeM β} (hp : Solvent p)
    (hP : Yields P p) (hf : ∀ a, P a → Solvent (f a)) : Solvent (p >>= f) := by
  intro credit
  rw [ExceptT.run_bind]
  refine Prog.Meets.bind (fun r credit' hr => ?_) (hP.meets (hp credit))
  cases r with
  | ok a => exact hf a (hr.2 a rfl) credit'
  | error e => trivial

theorem solvent_bind {f : α → DecodeM β} (hp : Solvent p) (hf : ∀ a, Solvent (f a)) :
    Solvent (p >>= f) :=
  solvent_bind_of_yields hp yields_true fun a _ => hf a

theorem solvent_remainingLen : Solvent DecodeM.remainingLen :=
  fun _ => ⟨trivial, fun _ _ _ => trivial⟩

theorem solvent_read (n : ℕ) : Solvent (DecodeM.read n) :=
  fun _ => ⟨trivial, fun _ _ _ => trivial⟩

theorem solvent_readByte : Solvent DecodeM.readByte :=
  fun _ => ⟨trivial, fun _ _ _ => trivial⟩

theorem solvent_descendRef : Solvent DecodeM.descendRef :=
  fun _ => ⟨trivial, fun _ _ _ => trivial⟩

theorem solvent_ascendRef : Solvent DecodeM.ascendRef :=
  fun _ => ⟨trivial, fun _ _ _ => trivial⟩

theorem solvent_onBeforeAllocMem (size : ℕ) : Solvent (DecodeM.onBeforeAllocMem size) :=
  fun _ => ⟨trivial, fun _ _ _ => trivial⟩

theorem solvent_chainErr {desc : String} (hp : Solvent p) : Solvent (p.chainErr desc) := by
  intro credit
  refine Prog.Meets.bind (fun r credit' _ => ?_) (hp credit)
  trivial

theorem solvent_thenAscend (hp : Solvent p) : Solvent p.thenAscend := by
  intro credit
  refine Prog.Meets.bind (fun r credit' _ => ?_) (hp credit)
  exact ⟨trivial, fun _ _ _ => trivial⟩

/-- What is announced covers what is allocated after it. -/
theorem solvent_claim {size alloc : ℕ} (hle : alloc ≤ size) (hp : Solvent p) :
    Solvent (do DecodeM.onBeforeAllocMem size; DecodeM.allocate alloc; p) := by
  refine fun credit => ⟨trivial, fun r credit' hr => ?_⟩
  cases r with
  | error e => trivial
  | ok u =>
    obtain rfl : credit' = credit + size := hr
    exact ⟨hle.trans (Nat.le_add_left size credit), fun _ credit'' _ => hp credit''⟩

theorem solvent_checkRemaining (n : ℕ) : Solvent (checkRemaining n) := by
  refine solvent_bind solvent_remainingLen fun r => ?_
  cases r with
  | none => exact solvent_pure _
  | some m =>
    show Solvent (if m < n then _ else _)
    split_ifs
    · exact fun _ => trivial
    · exact solvent_pure _

/-- The logic of solvency. -/
def solvency : DecoderLogic where
  toDiscipline := .anyDepth fun _ => True
  Rel _ _ _ q := Solvent q
  rel_pure := solvent_pure
  rel_throw _ _ := trivial
  rel_halt _ _ := trivial
  rel_bind_of_yields := solvent_bind_of_yields
  rel_read := solvent_read
  rel_readByte := solvent_readByte
  rel_chainErr := solvent_chainErr
  rel_nested hp := solvent_bind solvent_descendRef fun _ => solvent_bind (hp trivial) fun a =>
    solvent_bind solvent_ascendRef fun _ => solvent_pure a
  rel_nestedAlloc hp := solvent_bind solvent_descendRef fun _ =>
    solvent_bind (solvent_onBeforeAllocMem _) fun _ => solvent_thenAscend (hp trivial)
  rel_claim := solvent_claim
  rel_checkRemaining _ hp := solvent_bind (solvent_checkRemaining _) fun _ => hp

/-! ## Memory trackers -/

/-- The memory asked of the allocator. -/
def allocated : List InputCall → ℕ
  | [] => 0
  | .allocate size :: calls => size + allocated calls
  | _ :: calls => allocated calls

theorem allocated_append (calls calls' : List InputCall) :
    allocated (calls ++ calls') = allocated calls + allocated calls' := by
  induction calls with
  | nil => exact (Nat.zero_add _).symm
  | cons c calls ih =>
    cases c with
    | allocate size =>
      show size + allocated (calls ++ calls') = size + allocated calls + allocated calls'
      rw [ih, Nat.add_assoc]
    | _ => exact ih

/-- The memory a tracker has counted covers what has been allocated and the credit. -/
def Covered {tgt : Target} (credit : ℕ) (past : List InputCall)
    (x : MemTrackingInput tgt × List Byte) : Prop :=
  allocated past + credit ≤ x.1.usedMem

theorem covered_step {tgt : Target} {c : InputCall} {credit : ℕ} {past : List InputCall}
    {x y : MemTrackingInput tgt × List Byte} {r : c.Reply} (hpre : creditContract.pre c credit)
    (hx : Covered credit past x) (hc : (memTracking tgt).over sliceInput c x = .ok (r, y)) :
    ∃ credit', creditContract.post c credit r credit' ∧ Covered credit' (past ++ [c]) y := by
  unfold Covered at *
  rw [allocated_append]
  rcases c.alloc_or_ne with ⟨size, rfl⟩ | hsize
  · have hslice : sliceInput (.onBeforeAllocMem size) x.2 = .ok (.ok (), x.2) := rfl
    have halloc := memTracking_over_alloc (t := x.1) hslice
    have hle := x.1.usedMem_le_use size
    have hnil : allocated [.onBeforeAllocMem size] = 0 := rfl
    rw [hc] at halloc
    dsimp only at halloc
    split_ifs at halloc with hlim
    · cases halloc
      exact ⟨credit, rfl, by dsimp only; omega⟩
    · cases halloc
      refine ⟨credit + size, rfl, ?_⟩
      rw [MemTrackingInput.usedMem_use (not_le.mp hlim)]
      omega
  · obtain ⟨hy, -⟩ := memTracking_over_eq_ok hsize hc
    rw [hy]
    cases c with
    | onBeforeAllocMem size => exact absurd rfl (hsize size)
    | allocate size =>
      have hle : size ≤ credit := hpre
      refine ⟨credit - size, rfl, ?_⟩
      show allocated past + (size + 0) + (credit - size) ≤ x.1.usedMem
      omega
    | _ => exact ⟨credit, rfl, hx⟩

/-- At every moment the memory allocated is at most the memory counted. -/
theorem allocated_le_usedMem {tgt : Target} (hp : Solvent p) (limit : tgt.Usize) (s : List Byte) :
    ∀ m ∈ p.run.moments ((memTracking tgt).over sliceInput) (.new limit, s) [],
      allocated m.1 ≤ m.2.1.usedMem := by
  intro m hm
  obtain ⟨credit, hcredit⟩ := Prog.Meets.of_mem_moments (R := Covered)
    (fun _ _ _ _ _ _ hpre hx hc => covered_step hpre hx hc) (hp 0) (Nat.le_refl 0) m hm
  exact (Nat.le_add_right _ credit).trans hcredit

/-- The decoders of all types are solvent. -/
theorem TypeDefs.solvent {ι : Type} {ν : ι → Type} {P : Platform ν} {Δ : TypeDefs ν}
    (hΔ : Δ.Compiles P) {t : Ty ν α} (ht : t.Compiles P) (n : ℕ) :
    Solvent (Δ.decode P n t).decode :=
  (TypeDefs.decodeWith_rel (L := solvency) (d := 0) decodeBytes_rel hΔ
    (Δ.errorsIn_of_forall fun _ => trivial) trivial ht
    (t.errorsIn_of_forall fun _ => trivial)).decode

end ScaleCodec
