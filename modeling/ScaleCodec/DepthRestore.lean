import ScaleCodec.ByteOrder

/-!
# Depth after a failure

A decoder that fails is expected to give back the levels it entered. `DepthTrackingInput` counts a
level before it refuses it, and the decoders leave with `?` between the two calls, so any decoder
that can enter a reference can fail with a level still counted. A decoder that never does leaves the
counter alone (`restores_iff`).

Which types can enter a reference is a matter of their structure (`Ty.Enters`) : the boxes, the
linked collections and the vectors whose items are decoded one by one, unless they stand in an array
of length zero or behind a component that never decodes (`Ty.Decodable`). Both are computed along
the text of the decoders, from what these can return and call for some replies of the input
(`DecodeM.canReturn_bind`, `DecodeM.enters_bind`).
-/

namespace ScaleCodec

variable {α β γ : Type} {p : DecodeM α} {tgt : Target}

namespace DecodeM

/-- Some replies let the decoder return `Ok(a)`. -/
def CanReturn (p : DecodeM α) (a : α) : Prop :=
  p.run.CanReturn (.ok a)

/-- Some replies let the decoder return a value. -/
def Succeeds (p : DecodeM α) : Prop :=
  ∃ a, p.CanReturn a

/-- Some replies lead the decoder to a reference. -/
def Enters (p : DecodeM α) : Prop :=
  p.run.CanCall InputCall.descendRef

/-! ## What a decoder can return -/

theorem canReturn_pure {a b : α} : (pure a : DecodeM α).CanReturn b ↔ a = b :=
  ⟨Except.ok.inj, congrArg Except.ok⟩

theorem canReturn_bind {f : α → DecodeM β} {b : β} :
    (p >>= f).CanReturn b ↔ ∃ a, p.CanReturn a ∧ (f a).CanReturn b := by
  unfold CanReturn
  rw [ExceptT.run_bind, Prog.canReturn_bind]
  constructor
  · rintro ⟨_ | a, ha, hb⟩
    · cases hb
    · exact ⟨a, ha, hb⟩
  · exact fun ⟨a, ha, hb⟩ => ⟨.ok a, ha, hb⟩

theorem succeeds_map {f : α → β} : (f <$> p).Succeeds ↔ p.Succeeds := by
  simp only [Succeeds, map_eq_pure_bind, canReturn_bind, canReturn_pure]
  constructor
  · exact fun ⟨_, a, ha, _⟩ => ⟨a, ha⟩
  · exact fun ⟨a, ha⟩ => ⟨f a, a, ha, rfl⟩

theorem canReturn_chainErr {a : α} {desc : String} :
    (p.chainErr desc).CanReturn a ↔ p.CanReturn a := by
  unfold CanReturn chainErr
  rw [ExceptT.run_mk, map_eq_pure_bind, Prog.canReturn_bind]
  constructor
  · rintro ⟨_ | b, hb, h⟩
    · cases h
    · obtain rfl := Except.ok.inj h
      exact hb
  · exact fun h => ⟨.ok a, h, rfl⟩

theorem canReturn_nested {a : α} : p.nested.CanReturn a ↔ p.CanReturn a := by
  have hdescend : (descendRef : DecodeM Unit).CanReturn () := ⟨.ok (), rfl⟩
  have hascend : (ascendRef : DecodeM Unit).CanReturn () := ⟨(), rfl⟩
  unfold nested
  simp only [canReturn_bind, canReturn_pure]
  constructor
  · rintro ⟨_, _, _, ha, _, _, rfl⟩
    exact ha
  · exact fun ha => ⟨(), hdescend, a, ha, (), hascend, rfl⟩

theorem canReturn_of_decodes {s s' : List Byte} {a : α} (h : Decodes p s a s') : p.CanReturn a :=
  Prog.canReturn_of_run h

theorem succeeds_replicateM {n : ℕ} : (p.replicateM n).Succeeds ↔ n = 0 ∨ p.Succeeds := by
  induction n with
  | zero => exact iff_of_true ⟨[], rfl⟩ (Or.inl rfl)
  | succ n ih =>
    simp only [Succeeds, replicateM, canReturn_bind, canReturn_pure]
    constructor
    · rintro ⟨-, a, ha, -⟩
      exact Or.inr ⟨a, ha⟩
    · rintro (h | ⟨a, ha⟩)
      · cases h
      · obtain ⟨as, has⟩ := ih.mpr (Or.inr ⟨a, ha⟩)
        exact ⟨a :: as, a, ha, as, has, rfl⟩

/-- An array is read as the list of its elements is. -/
theorem map_toList_vectorM (p : DecodeM α) (n : ℕ) :
    List.Vector.toList <$> p.vectorM n = p.replicateM n := by
  induction n with
  | zero => rfl
  | succ n ih =>
    simp only [vectorM, replicateM, ← ih, map_bind, map_pure, bind_map_left,
      List.Vector.toList_cons]

theorem succeeds_vectorM {n : ℕ} : (p.vectorM n).Succeeds ↔ n = 0 ∨ p.Succeeds := by
  rw [← succeeds_replicateM, ← map_toList_vectorM, succeeds_map]

/-! ## Where a decoder can enter a reference -/

theorem enters_bind {f : α → DecodeM β} :
    (p >>= f).Enters ↔ p.Enters ∨ ∃ a, p.CanReturn a ∧ (f a).Enters := by
  unfold Enters CanReturn
  rw [ExceptT.run_bind, Prog.canCall_bind]
  refine or_congr_right ⟨?_, fun ⟨a, ha, hb⟩ => ⟨.ok a, ha, hb⟩⟩
  rintro ⟨_ | a, ha, hb⟩
  · exact hb.elim
  · exact ⟨a, ha, hb⟩

theorem not_enters_pure (a : α) : ¬(pure a : DecodeM α).Enters :=
  id

theorem not_enters_throw (e : Error) : ¬(throw e : DecodeM α).Enters :=
  id

theorem not_enters_bind {f : α → DecodeM β} (hp : ¬p.Enters) (hf : ∀ a, ¬(f a).Enters) :
    ¬(p >>= f).Enters := by
  rw [enters_bind]
  rintro (h | ⟨a, -, h⟩)
  · exact hp h
  · exact hf a h

theorem enters_map {f : α → β} : (f <$> p).Enters ↔ p.Enters := by
  rw [map_eq_pure_bind, enters_bind]
  exact or_iff_left fun ⟨_, _, h⟩ => h

theorem enters_chainErr {desc : String} : (p.chainErr desc).Enters ↔ p.Enters := by
  unfold Enters chainErr
  rw [ExceptT.run_mk, map_eq_pure_bind, Prog.canCall_bind]
  exact or_iff_left fun ⟨_, _, h⟩ => h

theorem enters_nested : p.nested.Enters :=
  Or.inl rfl

theorem enters_nestedAlloc {size : ℕ} : (p.nestedAlloc size).Enters :=
  Or.inl rfl

theorem not_enters_call {c : InputCall} {k : c.Reply → Prog inputInterface Halt (Except Error α)}
    (hc : c ≠ .descendRef) (hk : ∀ r, ∃ a, k r = .ret a) :
    ¬Enters (ExceptT.mk (Prog.call c k) : DecodeM α) := by
  rintro (h | ⟨r, h⟩)
  · exact hc h
  · obtain ⟨a, ha⟩ := hk r
    rw [ha] at h
    exact h

theorem enters_replicateM {n : ℕ} : (p.replicateM n).Enters ↔ n ≠ 0 ∧ p.Enters := by
  induction n with
  | zero => exact iff_of_false (not_enters_pure _) fun h => h.1 rfl
  | succ n ih =>
    rw [replicateM, enters_bind]
    constructor
    · rintro (h | ⟨a, -, h⟩)
      · exact ⟨n.succ_ne_zero, h⟩
      · rcases enters_bind.mp h with h | ⟨as, -, h⟩
        · exact ⟨n.succ_ne_zero, (ih.mp h).2⟩
        · exact h.elim
    · exact fun h => Or.inl h.2

theorem enters_vectorM {n : ℕ} : (p.vectorM n).Enters ↔ n ≠ 0 ∧ p.Enters := by
  rw [← enters_replicateM, ← map_toList_vectorM, enters_map]

end DecodeM

open DecodeM

/-- The logic of decoders that cannot enter a reference. -/
def avoidance : ReadLogic where
  toDiscipline := .anyDepth fun _ => True
  Rel _ _ _ q := ¬q.Enters
  rel_pure := not_enters_pure
  rel_throw _ := not_enters_throw _
  rel_halt _ := id
  rel_bind_of_yields hp hP hf := by
    rw [enters_bind]
    rintro (h | ⟨a, ha, h⟩)
    · exact hp h
    · exact hf a (hP.of_canReturn ha) h
  rel_read n := not_enters_call (c := .read n) (by simp) fun _ => ⟨_, rfl⟩
  rel_readByte := not_enters_call (c := .readByte) (by simp) fun _ => ⟨_, rfl⟩
  rel_chainErr hp := enters_chainErr.not.mpr hp

/-! ## The decoders -/

section Decoders

variable {I : Decode α} {J : Decode β} {size : ℕ}

theorem canReturn_readByte (b : Byte) : DecodeM.readByte.CanReturn b :=
  ⟨.ok b, rfl⟩

theorem canReturn_checkRemaining (n : ℕ) : (checkRemaining n).CanReturn () :=
  canReturn_bind.mpr ⟨none, ⟨.ok none, rfl⟩, rfl⟩

theorem not_enters_checkRemaining (n : ℕ) : ¬(checkRemaining n).Enters := by
  refine not_enters_bind ?_ fun r => ?_
  · exact not_enters_call (c := .remainingLen) (by simp) fun _ => ⟨_, rfl⟩
  cases r with
  | none => exact not_enters_pure ()
  | some len =>
    show ¬Enters (if len < n then _ else _)
    split_ifs
    · exact not_enters_throw _
    · exact not_enters_pure ()

/-- Every length can be announced. -/
theorem canReturn_compactDecode {w : Width} (x : w.Val) : (compactDecode tgt w).CanReturn x :=
  canReturn_of_decodes (decodes_compactDecode.mpr (List.append_nil _).symm)

theorem not_enters_compactDecode (w : Width) : ¬(compactDecode tgt w).Enters :=
  compactDecode_rel (L := avoidance) (d := 0) w

theorem succeeds_resultDecode :
    (resultDecode size I J).decode.Succeeds ↔ I.decode.Succeeds ∨ J.decode.Succeeds := by
  show (_ >>= _ : DecodeM (Except β α)).Succeeds ↔ _
  simp only [Succeeds, canReturn_bind, canReturn_chainErr]
  constructor
  · rintro ⟨v, byte, -, h⟩
    split_ifs at h
    · obtain ⟨a, ha⟩ := succeeds_map.mp ⟨v, h⟩
      exact Or.inl ⟨a, canReturn_chainErr.mp ha⟩
    · obtain ⟨b, hb⟩ := succeeds_map.mp ⟨v, h⟩
      exact Or.inr ⟨b, canReturn_chainErr.mp hb⟩
    · cases h
  · rintro (⟨a, ha⟩ | ⟨b, hb⟩)
    · obtain ⟨v, hv⟩ := (succeeds_map (f := Except.ok)).mpr ⟨a, canReturn_chainErr.mpr ha⟩
      exact ⟨v, 0, canReturn_readByte 0, hv⟩
    · obtain ⟨v, hv⟩ := (succeeds_map (f := Except.error)).mpr ⟨b, canReturn_chainErr.mpr hb⟩
      exact ⟨v, 1, canReturn_readByte 1, hv⟩

theorem enters_resultDecode :
    (resultDecode size I J).decode.Enters ↔ I.decode.Enters ∨ J.decode.Enters := by
  constructor
  · intro h
    by_contra hnot
    push Not at hnot
    exact (resultDecode_rel (L := avoidance) (d := 0) (I := I) (J := J) hnot.1 hnot.2).decode h
  · rintro (h | h)
    · exact enters_bind.mpr (Or.inr ⟨0, canReturn_chainErr.mpr (canReturn_readByte 0),
        enters_map.mpr (enters_chainErr.mpr h)⟩)
    · exact enters_bind.mpr (Or.inr ⟨1, canReturn_chainErr.mpr (canReturn_readByte 1),
        enters_map.mpr (enters_chainErr.mpr h)⟩)

theorem enters_optionDecode : (optionDecode size I).decode.Enters ↔ I.decode.Enters := by
  constructor
  · intro h
    by_contra hnot
    exact (optionDecode_rel (L := avoidance) (d := 0) (I := I) hnot).decode h
  · exact fun h => enters_bind.mpr (Or.inr ⟨1, canReturn_chainErr.mpr (canReturn_readByte 1),
      enters_map.mpr (enters_chainErr.mpr h)⟩)

theorem succeeds_pairDecode :
    (pairDecode size I J).decode.Succeeds ↔ I.decode.Succeeds ∧ J.decode.Succeeds := by
  show (_ >>= _ : DecodeM (α × β)).Succeeds ↔ _
  simp only [Succeeds, canReturn_bind, canReturn_pure]
  constructor
  · exact fun ⟨_, a, ha, b, hb, _⟩ => ⟨⟨a, ha⟩, ⟨b, hb⟩⟩
  · exact fun ⟨⟨a, ha⟩, ⟨b, hb⟩⟩ => ⟨(a, b), a, ha, b, hb, rfl⟩

/-- The second component is decoded if the first one can be. -/
theorem enters_pairDecode : (pairDecode size I J).decode.Enters ↔
    I.decode.Enters ∨ I.decode.Succeeds ∧ J.decode.Enters := by
  refine enters_bind.trans (or_congr_right ?_)
  constructor
  · rintro ⟨a, ha, h⟩
    exact ⟨⟨a, ha⟩, (enters_bind.mp h).elim id fun ⟨_, _, h⟩ => h.elim⟩
  · exact fun ⟨⟨a, ha⟩, h⟩ => ⟨a, ha, enters_bind.mpr (Or.inl h)⟩

/-- A range is decoded as a pair of its bounds. -/
theorem succeeds_bounds {f : α × α → γ} {desc : String} :
    (do let v ← (pairDecode size I I).decode.chainErr desc; pure (f v)).Succeeds ↔
      I.decode.Succeeds := by
  rw [← map_eq_pure_bind, succeeds_map]
  simp only [Succeeds, canReturn_chainErr]
  exact succeeds_pairDecode.trans (and_self_iff)

theorem enters_bounds {f : α × α → γ} {desc : String} :
    (do let v ← (pairDecode size I I).decode.chainErr desc; pure (f v)).Enters ↔
      I.decode.Enters := by
  rw [← map_eq_pure_bind, enters_map, enters_chainErr, enters_pairDecode]
  exact ⟨fun h => h.elim id And.right, Or.inl⟩

theorem succeeds_arrayDecodeInto {n : ℕ} (hI : ∀ q e, I.typeInfo = .known q e →
      I.decodeInto.Succeeds) :
    (arrayDecodeInto tgt n I).Succeeds ↔ n = 0 ∨ I.decodeInto.Succeeds := by
  unfold arrayDecodeInto
  cases hinfo : I.typeInfo with
  | unknown => exact succeeds_vectorM
  | known q e =>
    show Succeeds (if q.oneByte ∨ tgt.littleEndian then _ else _) ↔ _
    split_ifs
    · refine iff_of_true (succeeds_map.mpr ⟨⟨List.replicate (q.size * n) 0, by simp⟩, ?_⟩)
        (Or.inr (hI q e hinfo))
      exact ⟨.ok _, rfl⟩
    · exact succeeds_vectorM

theorem enters_arrayDecodeInto {n : ℕ} (hI : ∀ q e, I.typeInfo = .known q e →
      ¬I.decodeInto.Enters) :
    (arrayDecodeInto tgt n I).Enters ↔ n ≠ 0 ∧ I.decodeInto.Enters := by
  unfold arrayDecodeInto
  cases hinfo : I.typeInfo with
  | unknown => exact enters_vectorM
  | known q e =>
    show Enters (if q.oneByte ∨ tgt.littleEndian then _ else _) ↔ _
    split_ifs
    · refine iff_of_false (enters_map.not.mpr ?_) fun h => hI q e hinfo h.2
      exact avoidance.rel_read (d := 0) _
    · exact enters_vectorM

theorem succeeds_genericArrayDecode {n : ℕ} :
    (genericArrayDecode n size I).decode.Succeeds ↔ n = 0 ∨ I.decode.Succeeds := by
  rw [← succeeds_replicateM]
  show (_ >>= _ : DecodeM (List.Vector α n)).Succeeds ↔ _
  simp only [Succeeds, canReturn_bind]
  constructor
  · exact fun ⟨_, r, hr, _⟩ => ⟨r, hr⟩
  · rintro ⟨r, hr⟩
    have hlen : r.length = n := (yields_replicateM n).of_canReturn hr
    exact ⟨⟨r, hlen⟩, r, hr, by rw [dif_pos hlen]; rfl⟩

theorem enters_genericArrayDecode {n : ℕ} :
    (genericArrayDecode n size I).decode.Enters ↔ n ≠ 0 ∧ I.decode.Enters := by
  rw [← enters_replicateM]
  refine enters_bind.trans (or_iff_left ?_)
  rintro ⟨r, -, h⟩
  split_ifs at h <;> exact h

/-- The items are decoded one by one. -/
def Decode.ItemWise (tgt : Target) (I : Decode α) : Prop :=
  ∀ q e, I.typeInfo = .known q e → ¬(tgt.littleEndian ∨ I.size = 1)

theorem not_enters_chunkLoop {memSize chunkLen : ℕ} {decodeChunk : ℕ → DecodeM (List α)}
    (hchunk : ∀ n, ¬(decodeChunk n).Enters) :
    ∀ fuel n, ¬(chunkLoop tgt memSize chunkLen decodeChunk fuel n).Enters
  | 0, 0 | _ + 1, 0 => not_enters_pure _
  | 0, _ + 1 => id
  | fuel + 1, n + 1 => by
    rw [chunkLoop]
    refine not_enters_bind ?_ fun _ => not_enters_bind ?_ fun _ =>
      not_enters_bind (hchunk _) fun _ =>
      not_enters_bind (not_enters_chunkLoop hchunk fuel _) fun _ => not_enters_pure _
    · exact not_enters_call (c := .onBeforeAllocMem _) (by simp) fun _ => ⟨_, rfl⟩
    · exact not_enters_call (c := .allocate _) (by simp) fun _ => ⟨_, rfl⟩

theorem not_enters_readVecFromU8s {q : Prim} (e : q.Val ≃ α) (n : ℕ) :
    ¬(readVecFromU8s tgt e n).Enters := by
  unfold readVecFromU8s
  split_ifs
  · exact not_enters_throw _
  · exact not_enters_bind (not_enters_checkRemaining _) fun _ =>
      not_enters_chunkLoop (fun n => enters_map.not.mpr (avoidance.rel_read (d := 0) _)) n n

theorem enters_decodeVecWithLen {n : ℕ} :
    (decodeVecWithLen tgt I n).Enters ↔ I.ItemWise tgt := by
  unfold decodeVecWithLen Decode.ItemWise
  cases hinfo : I.typeInfo with
  | unknown => exact iff_of_true enters_nested fun q e h => by cases h
  | known q e =>
    show Enters (if tgt.littleEndian ∨ I.size = 1 then _ else _) ↔ _
    split_ifs with h
    · exact iff_of_false (not_enters_readVecFromU8s e n) fun hI => hI q e rfl h
    · exact iff_of_true enters_nested fun _ _ _ => h

/-- A vector without items can always be decoded. -/
theorem canReturn_decodeVecWithLen_zero : (decodeVecWithLen tgt I 0).CanReturn [] := by
  have hitems : (decodeVecFromItems tgt I 0).CanReturn [] := canReturn_nested.mpr rfl
  unfold decodeVecWithLen
  cases hinfo : I.typeInfo with
  | unknown => exact hitems
  | known q e =>
    show CanReturn (if tgt.littleEndian ∨ I.size = 1 then _ else _) []
    split_ifs
    · unfold readVecFromU8s
      rw [if_neg (by rw [Nat.zero_mul]; exact Nat.not_lt_zero _)]
      exact canReturn_bind.mpr ⟨(), canReturn_checkRemaining _, rfl⟩
    · exact hitems

theorem canReturn_vecDecode_nil : (vecDecode tgt size I).decode.CanReturn [] :=
  canReturn_bind.mpr ⟨0, canReturn_compactDecode _, canReturn_decodeVecWithLen_zero⟩

theorem enters_vecDecode : (vecDecode tgt size I).decode.Enters ↔ I.ItemWise tgt := by
  refine enters_bind.trans ((or_iff_right (not_enters_compactDecode _)).trans ?_)
  constructor
  · exact fun ⟨_, _, h⟩ => enters_decodeVecWithLen.mp h
  · exact fun h => ⟨0, canReturn_compactDecode _, enters_decodeVecWithLen.mpr h⟩

theorem succeeds_nodesDecode {memSize : ℕ → ℕ} {build : List α → γ} :
    (nodesDecode tgt memSize p build).Succeeds :=
  ⟨build [], canReturn_of_decodes
    (decodes_nodesDecode.mpr ⟨[], [], Nat.zero_le _, (List.append_nil _).symm, rfl, rfl⟩)⟩

theorem enters_nodesDecode {memSize : ℕ → ℕ} {build : List α → γ} :
    (nodesDecode tgt memSize p build).Enters :=
  enters_bind.mpr (Or.inr ⟨0, canReturn_compactDecode _, enters_nestedAlloc⟩)

theorem succeeds_boxDecode : (boxDecode size I).decode.Succeeds ↔ I.decodeInto.Succeeds := by
  show (DecodeM.nested _).Succeeds ↔ _
  simp only [Succeeds, canReturn_nested, canReturn_bind]
  constructor
  · exact fun ⟨a, _, _, _, _, ha⟩ => ⟨a, ha⟩
  · exact fun ⟨a, ha⟩ => ⟨a, (), ⟨.ok (), rfl⟩, (), ⟨(), rfl⟩, ha⟩

theorem enters_bitVecDecode {st : BitStore} {o : BitOrder} :
    (bitVecDecode tgt size st o).decode.Enters ↔ (primDecode st.prim).ItemWise tgt := by
  refine enters_bind.trans ((or_iff_right (not_enters_compactDecode _)).trans ?_)
  constructor
  · rintro ⟨len, -, h⟩
    dsimp only at h
    split_ifs at h
    · exact h.elim
    · rcases enters_bind.mp h with h | ⟨vec, -, h⟩
      · exact enters_decodeVecWithLen.mp h
      · split_ifs at h <;> exact h.elim
  · intro h
    refine ⟨0, canReturn_compactDecode _, ?_⟩
    exact enters_bind.mpr (Or.inl (enters_decodeVecWithLen.mpr h))

end Decoders

theorem canReturn_bitVecDecode_nil {st : BitStore} {o : BitOrder} :
    (bitVecDecode tgt size st o).decode.CanReturn [] := by
  have helts : elts st 0 = 0 := by cases st <;> rfl
  refine canReturn_bind.mpr ⟨0, canReturn_compactDecode _, ?_⟩
  show CanReturn (do
    let vec ← decodeVecWithLen tgt (primDecode st.prim) (elts st 0)
    _) []
  rw [helts]
  refine canReturn_bind.mpr ⟨[], canReturn_decodeVecWithLen_zero, ?_⟩
  simp [canReturn_pure]

/-! ## Types -/

/-- The values `decode_from` makes of the integers that can be decoded. -/
def CompactTy.Decodable {α : Type} : CompactTy α → α → Prop
  | unit, _ | uint _, _ => True
  | as inner _ decodeFrom, a => ∃ x, inner.Decodable x ∧ decodeFrom x = .ok a

theorem CompactTy.canReturn_decode : ∀ {α : Type} {c : CompactTy α} {a : α},
    (c.decode tgt).CanReturn a ↔ c.Decodable a
  | _, .unit, _ => iff_of_true (canReturn_pure.mpr rfl) trivial
  | _, .uint _, x => iff_of_true (canReturn_compactDecode x) trivial
  | _, .as inner _ decodeFrom, a => by
    refine canReturn_bind.trans (exists_congr fun x => and_congr canReturn_decode ?_)
    cases decodeFrom x with
    | ok b => exact canReturn_pure.trans ⟨congrArg Except.ok, Except.ok.inj⟩
    | error e => exact iff_of_false (fun h => by cases h) fun h => by cases h

namespace Ty

variable {ι : Type} {ν : ι → Type}

/-- Some bytes decode as a value of the type. -/
def Decodable {α : Type} : Ty ν α → Prop
  | result t e => t.Decodable ∨ e.Decodable
  | tuple1 t | box t | rc t | arc t | cow t | range t | rangeInclusive t => t.Decodable
  | pair t u => t.Decodable ∧ u.Decodable
  | array n t | genericArray n t => n = 0 ∨ t.Decodable
  | compact c => ∃ a, c.Decodable a
  | named _ => False
  | _ => True

/-- Decoding the type enters a reference on some input : it is a box, a linked collection or a
vector whose items are decoded one by one, or it contains one that decoding reaches. -/
def Enters (P : Platform ν) {α : Type} : Ty ν α → Prop
  | option t | tuple1 t | cow t | range t | rangeInclusive t => t.Enters P
  | result t e => t.Enters P ∨ e.Enters P
  | pair t u => t.Enters P ∨ t.Decodable ∧ u.Enters P
  | array n t | genericArray n t => n ≠ 0 ∧ t.Enters P
  | vec t | vecDeque t | binaryHeap _ t => t.bulk P.target.littleEndian = false
  | bitVec st _ | bitBox st _ =>
    (prim st.prim : Ty ν st.prim.Val).bulk P.target.littleEndian = false
  | linkedList _ | btreeMap _ _ _ | btreeSet _ _ | box _ | rc _ | arc _ => True
  | _ => False

theorem itemWise_primDecode (p : Prim) : (primDecode p).ItemWise tgt ↔
    (prim p : Ty ν p.Val).bulk tgt.littleEndian = false := by
  have hprim : (primDecode p).ItemWise tgt ↔ ¬(tgt.littleEndian ∨ p.size = 1) :=
    ⟨fun h => h p (Equiv.refl _) rfl, fun h _ _ _ => h⟩
  refine hprim.trans ?_
  show ¬(tgt.littleEndian = true ∨ p.size = 1) ↔ (tgt.littleEndian || p.size == 1) = false
  simp

section Library

variable {ν : Empty → Type} {P : Platform ν} {internal : DecodeM (List Prim.u8.Val)}
  {env : ∀ i, Decode (ν i)}

theorem itemWise_decode (t : Ty ν α) : (t.decodeWith P internal env).ItemWise P.target ↔
    t.bulk P.target.littleEndian = false := by
  cases t with
  | prim p => exact itemWise_primDecode p
  | named i => exact i.elim
  | _ => exact iff_of_true (fun q e h => by cases h) rfl

/-- Without named types there is no `decode_into` of its own but that of arrays. -/
theorem decodeInto_eq_of_empty (t : Ty ν α) :
    (t.decodeWith P internal env).decodeInto = (t.decodeWith P internal env).decode := by
  cases t with
  | named i => exact i.elim
  | _ => rfl

theorem succeeds_decode (t : Ty ν α) :
    (t.decode P env).decode.Succeeds ↔ t.Decodable := by
  have hvec : ∀ {β : Type} {size : ℕ} {I : Decode β},
      (vecDecode P.target size I).decode.Succeeds := ⟨[], canReturn_vecDecode_nil⟩
  induction t with
  | prim p =>
    exact iff_of_true ⟨0, canReturn_of_decodes (decodes_primDecode.mpr (List.append_nil _).symm)⟩
      trivial
  | bool => exact iff_of_true ⟨false, canReturn_of_decodes (s := [0]) rfl⟩ trivial
  | nonZero p _ =>
    have hne : (1 : p.Val) ≠ 0 := by cases p <;> decide
    exact iff_of_true ⟨⟨1, hne⟩, canReturn_of_decodes
      (decodes_nonZeroDecode.mpr (List.append_nil _).symm)⟩ trivial
  | unit => exact iff_of_true ⟨(), rfl⟩ trivial
  | phantomData => exact iff_of_true ⟨(), rfl⟩ trivial
  | option t ih =>
    exact iff_of_true ⟨none, canReturn_bind.mpr ⟨0, canReturn_chainErr.mpr (canReturn_readByte 0),
      rfl⟩⟩ trivial
  | optionBool => exact iff_of_true ⟨⟨none⟩, canReturn_of_decodes (s := [0]) rfl⟩ trivial
  | result t e iht ihe => exact succeeds_resultDecode.trans (or_congr iht ihe)
  | tuple1 t ih => exact ih
  | pair t u iht ihu => exact succeeds_pairDecode.trans (and_congr iht ihu)
  | array n t ih =>
    rw [← decodeInto_eq_of_empty] at ih
    refine (succeeds_arrayDecodeInto fun q e hinfo => ih.mpr ?_).trans (or_congr_right ih)
    cases t with
    | prim p => trivial
    | named i => exact i.elim
    | _ => cases hinfo
  | genericArray n t ih => exact succeeds_genericArrayDecode.trans (or_congr_right ih)
  | vec t ih => exact iff_of_true hvec trivial
  | vecDeque t ih => exact iff_of_true hvec trivial
  | linkedList t ih =>
    refine iff_of_true ?_ trivial
    show (nodesDecode P.target (P.target.saturatingMul · (P.listNodeSize t)) _ id).Succeeds
    exact succeeds_nodesDecode
  | btreeMap ord k v ihk ihv => exact iff_of_true succeeds_nodesDecode trivial
  | btreeSet ord k ih => exact iff_of_true succeeds_nodesDecode trivial
  | binaryHeap ord t ih => exact iff_of_true (succeeds_map.mpr hvec) trivial
  | string =>
    exact iff_of_true ⟨"", canReturn_bind.mpr ⟨[], canReturn_vecDecode_nil, rfl⟩⟩ trivial
  | box t ih | rc t ih | arc t ih =>
    rw [← decodeInto_eq_of_empty] at ih
    exact succeeds_boxDecode.trans ih
  | cow t ih => exact ih
  | duration =>
    exact iff_of_true ⟨⟨0, 0, by decide⟩, canReturn_of_decodes
      (decodes_durationDecode.mpr (List.append_nil _).symm)⟩ trivial
  | range t ih | rangeInclusive t ih => exact succeeds_bounds.trans ih
  | compact c => exact exists_congr fun a => CompactTy.canReturn_decode
  | bytes => exact iff_of_true hvec trivial
  | bitVec st o | bitBox st o =>
    exact iff_of_true ⟨[], canReturn_bitVecDecode_nil⟩ trivial
  | named i => exact i.elim

theorem enters_decode (t : Ty ν α) : (t.decode P env).decode.Enters ↔ t.Enters P := by
  induction t with
  | prim p => exact iff_of_false (primDecode_rel (L := avoidance) (d := 0) p).decode id
  | bool => exact iff_of_false (boolDecode_rel (L := avoidance) (d := 0)).decode id
  | nonZero p _ => exact iff_of_false (nonZeroDecode_rel (L := avoidance) (d := 0) p).decode id
  | unit => exact iff_of_false (not_enters_pure ()) id
  | phantomData => exact iff_of_false (not_enters_pure ()) id
  | option t ih => exact enters_optionDecode.trans ih
  | optionBool =>
    exact iff_of_false (optionBoolDecode_rel (L := avoidance) (d := 0)).decode id
  | result t e iht ihe => exact enters_resultDecode.trans (or_congr iht ihe)
  | tuple1 t ih => exact ih
  | pair t u iht ihu =>
    exact enters_pairDecode.trans (or_congr iht (and_congr (succeeds_decode t) ihu))
  | array n t ih =>
    rw [← decodeInto_eq_of_empty] at ih
    refine (enters_arrayDecodeInto fun q e hinfo => ih.not.mpr ?_).trans (and_congr_right' ih)
    cases t with
    | prim p => exact id
    | named i => exact i.elim
    | _ => cases hinfo
  | genericArray n t ih => exact enters_genericArrayDecode.trans (and_congr_right' ih)
  | vec t ih => exact enters_vecDecode.trans (itemWise_decode t)
  | vecDeque t ih => exact enters_vecDecode.trans (itemWise_decode t)
  | linkedList t ih =>
    refine iff_of_true ?_ trivial
    show (nodesDecode P.target (P.target.saturatingMul · (P.listNodeSize t)) _ id).Enters
    exact enters_nodesDecode
  | btreeMap ord k v ihk ihv => exact iff_of_true enters_nodesDecode trivial
  | btreeSet ord k ih => exact iff_of_true enters_nodesDecode trivial
  | binaryHeap ord t ih => exact enters_map.trans (enters_vecDecode.trans (itemWise_decode t))
  | string =>
    refine iff_of_false (not_enters_bind ?_ fun bytes => ?_) id
    · exact enters_vecDecode.not.mpr fun h => h .u8 (Equiv.refl _) rfl (Or.inr rfl)
    · split <;> exact id
  | box t ih | rc t ih | arc t ih => exact iff_of_true enters_nested trivial
  | cow t ih => exact ih
  | duration => exact iff_of_false (durationDecode_rel (L := avoidance) (d := 0)).decode id
  | range t ih | rangeInclusive t ih => exact enters_bounds.trans ih
  | compact c =>
    exact iff_of_false (CompactTy.decode_rel (L := avoidance) (d := 0)
      (c.errorsIn_of_forall fun _ => trivial)) id
  | bytes =>
    exact iff_of_false
      (enters_vecDecode.not.mpr fun h => h .u8 (Equiv.refl _) rfl (Or.inr rfl)) id
  | bitVec st o | bitBox st o =>
    exact enters_bitVecDecode.trans (itemWise_primDecode st.prim)
  | named i => exact i.elim

end Library

end Ty

/-! ## Failures -/

section Failures

variable {haltOk : Halt → Prop} {g : Track} {d : ℕ}
  {q : Prog inputInterface Halt (Except Error α)}

/-- With no reference entered, the tracker only passes on the other calls. -/
theorem depthTracking_eq_forward {c : InputCall}
    (hpre : (Discipline.anyDepth haltOk).contract.pre c g) (hg : g.depth = 0)
    (hc : c ≠ .descendRef) (x : DepthTrackingInput) :
    depthTracking c x = Wrapper.forward (I := inputInterface) c x := by
  cases c with
  | descendRef => exact absurd rfl hc
  | ascendRef =>
    have hpos : 0 < g.depth := hpre
    omega
  | scaleInternalDecodeBytes => exact hpre.elim
  | _ => rfl

/-- Whatever the reply, no reference is entered by the other calls. -/
theorem exists_post_of_ne_descendRef {c : InputCall}
    (hpre : (Discipline.anyDepth haltOk).contract.pre c g) (hg : g.depth = 0)
    (hc : c ≠ .descendRef) (r : c.Reply) :
    ∃ g', (Discipline.anyDepth haltOk).contract.post c g r g' ∧ g'.depth = 0 := by
  cases c with
  | descendRef => exact absurd rfl hc
  | ascendRef =>
    have hpos : 0 < g.depth := hpre
    omega
  | scaleInternalDecodeBytes => exact hpre.elim
  | allocate size => exact ⟨g, rfl, hg⟩
  | remainingLen | read _ | readByte | onBeforeAllocMem _ =>
    refine ⟨_, rfl, ?_⟩
    cases r <;> exact hg

/-- A decoder that cannot enter a reference leaves the counter alone. -/
theorem tracker_eq_of_not_canCall {σ : Type} {h : Handler inputInterface Halt σ}
    {x : DepthTrackingInput} {s : σ} {r : Except Error α} {y : DepthTrackingInput × σ}
    (hq : q.Meets (Discipline.anyDepth haltOk).contract (Discipline.anyDepth haltOk).halts
      ((Discipline.anyDepth haltOk).returns d) g) (hg : g.depth = 0)
    (hnot : ¬q.CanCall InputCall.descendRef)
    (hrun : q.run (depthTracking.over h) (x, s) = .ok (r, y)) : y.1 = x := by
  induction q generalizing g s with
  | ret b =>
    cases hrun
    rfl
  | halt e => cases hrun
  | call c k ih =>
    have hne : c ≠ .descendRef := fun hc => hnot (Or.inl hc)
    obtain ⟨reply, ⟨x', s'⟩, hc, hrest⟩ := Prog.run_call_eq_ok.mp hrun
    obtain ⟨rfl, -⟩ : x' = x ∧ _ :=
      Prog.of_over_forward (depthTracking_eq_forward hq.1 hg hne x) hc
    obtain ⟨g', hpost, hg'⟩ := exists_post_of_ne_descendRef hq.1 hg hne reply
    exact ih reply (hq.2 reply g' hpost) hg' (fun h => hnot (Or.inr ⟨reply, h⟩)) hrest

/-- An input that replies from a list, and to `descend_ref` at its end. -/
def scripted : Handler inputInterface Halt (List (Σ c : InputCall, c.Reply))
  | c, ⟨c', r⟩ :: s => if h : c' = c then .ok (h ▸ r, s) else .error (.panic "another call")
  | .descendRef, [] => .ok (.ok (), [])
  | _, [] => .error (.panic "end of the list")

theorem scripted_cons (c : InputCall) (r : c.Reply) (s : List (Σ c : InputCall, c.Reply)) :
    scripted c (⟨c, r⟩ :: s) = .ok (r, s) := by
  simp [scripted]

/-- A decoder that can enter a reference fails at a limit of zero, with the level counted. -/
theorem exists_depth_one
    (hq : q.Meets (Discipline.anyDepth haltOk).contract (Discipline.anyDepth haltOk).halts
      ((Discipline.anyDepth haltOk).returns d) g) (hg : g.depth = 0)
    (hcan : q.CanCall InputCall.descendRef) :
    ∃ s e y, q.run (depthTracking.over scripted) (⟨0, 0⟩, s) = .ok (.error e, y) ∧
      y.1.depth = 1 := by
  induction q generalizing g with
  | ret b => exact hcan.elim
  | halt e => exact hcan.elim
  | call c k ih =>
    by_cases hc : c = .descendRef
    · subst hc
      have hover := depthTracking_descendRef (t := ⟨0, 0⟩) (h := scripted) (s := []) rfl (by decide)
      rw [if_pos (by decide)] at hover
      -- the decoder owes the error of the call that failed, and has no reference to leave
      have hend := hq.2 (.error (.desc decodeMaxDepthMsg)) _ rfl
      cases hk : k (.error (.desc decodeMaxDepthMsg)) with
      | ret r =>
        rw [hk] at hend
        obtain ⟨e, rfl, -⟩ := Discipline.returns.exists_error hend rfl
        refine ⟨[], e, (⟨1, 0⟩, []), ?_, rfl⟩
        rw [Prog.run_call hover, hk]
        rfl
      | halt e =>
        rw [hk] at hend
        cases hend.1
      | call c k' =>
        rw [hk] at hend
        cases c with
        | ascendRef =>
          have hpos : 0 < g.depth := hend.1
          omega
        | scaleInternalDecodeBytes => exact hend.1.elim
        | _ => cases hend.1
    · obtain ⟨r, hr⟩ := hcan.resolve_left hc
      obtain ⟨g', hpost, hg'⟩ := exists_post_of_ne_descendRef hq.1 hg hc r
      obtain ⟨s, e, y, hrun, hy⟩ := ih r (hq.2 r g' hpost) hg' hr
      have hover : depthTracking.over scripted c (⟨0, 0⟩, ⟨c, r⟩ :: s) = .ok (r, (⟨0, 0⟩, s)) := by
        refine Prog.over_eq_ok ?_
        rw [depthTracking_eq_forward hq.1 hg hc]
        exact Prog.run_call (scripted_cons c r s) _
      refine ⟨⟨c, r⟩ :: s, e, y, ?_, hy⟩
      rw [Prog.run_call hover, hrun]

/-- A decoder that fails gives back the levels it entered, on every input, iff it can enter
none. -/
theorem restores_iff (hp : Obeys (Discipline.anyDepth haltOk) 0 p) :
    (∀ (σ : Type) (h : Handler inputInterface Halt σ) (x : DepthTrackingInput) (s : σ)
      (e : Error) (y : DepthTrackingInput × σ),
        p.run.run (depthTracking.over h) (x, s) = .ok (.error e, y) → y.1.depth = x.depth) ↔
      ¬p.Enters := by
  constructor
  · intro hrestores henters
    obtain ⟨s, e, y, hrun, hy⟩ := exists_depth_one hp rfl henters
    have hzero : y.1.depth = 0 := hrestores _ scripted ⟨0, 0⟩ s e y hrun
    omega
  · intro hnot σ h x s e y hrun
    rw [tracker_eq_of_not_canCall hp rfl hnot hrun]

end Failures

/-- A failed decode gives back the levels it entered, on every input under every depth limit, iff
decoding the type enters no reference. -/
theorem LibTy.failure_restores_iff {P : Platform Empty.elim} {t : LibTy α} (hc : t.Compiles P) :
    (∀ (σ : Type) (h : Handler inputInterface Halt σ) (x : DepthTrackingInput) (s : σ)
      (e : Error) (y : DepthTrackingInput × σ),
        (t.decode P).decode.run.run (depthTracking.over h) (x, s) = .ok (.error e, y) →
          y.1.depth = x.depth) ↔
      ¬t.Enters P := by
  have hobeys : Obeys (Discipline.anyDepth fun _ => True) 0 (LibTy.decode P t).decode :=
    (Ty.decode_obeys hc (t.errorsIn_of_forall fun _ => trivial)).decode
  exact (restores_iff hobeys).trans (Ty.enters_decode t).not

/-- The bytes of a vector of four-byte integers are copied on a target that is little endian. -/
theorem LibTy.failure_restores_iff_vec :
    let P := Platform.unpadded Empty.elim
    let t : LibTy _ := .pair (.vec (.prim .u32)) (.array 0 (.box .unit))
    ∀ (σ : Type) (h : Handler inputInterface Halt σ) (x : DepthTrackingInput) (s : σ)
      (e : Error) (y : DepthTrackingInput × σ),
        (t.decode P).decode.run.run (depthTracking.over h) (x, s) = .ok (.error e, y) →
          y.1.depth = x.depth := by
  intro P t
  have hnot : ¬t.Enters P := by
    rintro (h | ⟨-, h, -⟩)
    · cases h
    · exact h rfl
  have hc : t.Compiles P := ⟨⟨by decide, trivial⟩, trivial⟩
  exact (LibTy.failure_restores_iff hc).mpr hnot

/-- Under a limit of one, a box of two bytes fails on one byte, and the box of one byte that a
caller then tries on the same input is refused. -/
theorem LibTy.failure_keeps_level :
    let P := Platform.unpadded Empty.elim
    let wide : LibTy _ := .box (.prim .u16)
    let narrow : LibTy _ := .box (.prim .u8)
    (wide.decode P).decode.run.run (depthTracking.over sliceInput) (⟨0, 1⟩, [7]) =
        .ok (.error (.desc "Not enough data to fill buffer"), (⟨1, 1⟩, [7])) ∧
      (narrow.decode P).decode.run.run (depthTracking.over sliceInput) (⟨1, 1⟩, [7]) =
        .ok (.error (.desc decodeMaxDepthMsg), (⟨2, 1⟩, [7])) ∧
      (narrow.decode P).decode.run.run (depthTracking.over sliceInput) (⟨0, 1⟩, [7]) =
        .ok (.ok 7, (⟨0, 1⟩, [])) :=
  ⟨rfl, rfl, rfl⟩

end ScaleCodec
