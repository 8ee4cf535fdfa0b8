import ScaleCodec.TypeDiscipline

/-!
# The ways to encode

`encode`, `using_encoded`, `encode_to` on any `Output` and `encoded_size` agree on every value of
the library's types and of declared ones (`TypeDefs.encode_ways_agree`). The methods of an `impl`
agree where those of the parts do, for the library's `impl`s (`Ty.encode_lawful`) and for the
generated ones (`DeriveInput.encodeImpl_lawful`). An `Output` sees `encode_to` as the calls it
makes, and if it appends what it is given it ends up with the bytes of these calls.
-/

universe u

namespace ScaleCodec

/-! ## Outputs -/

/-- `trait Output` : the methods of an `impl`, on a state `ω`. -/
structure Output (ω : Type) where
  write : List Byte → ω → ω
  pushByte : Byte → ω → ω := fun b => write [b]

section Outputs

variable {ω α : Type} {O : Output ω} {contents : ω → List Byte}

/-- A call. -/
def Output.call (O : Output ω) (o : ω) : Write → ω
  | .write bytes => O.write bytes o
  | .pushByte b => O.pushByte b o

/-- `v.encode_to(&mut o)`. -/
def Encode.encodeInto (E : Encode α) (O : Output ω) (v : α) (o : ω) : Except Halt ω :=
  (fun ws => ws.foldl O.call o) <$> E.encodeTo v

/-- The output holds `contents`, to which it appends. -/
structure Output.Appends (O : Output ω) (contents : ω → List Byte) : Prop where
  write : ∀ bytes o, contents (O.write bytes o) = contents o ++ bytes
  pushByte : ∀ b o, contents (O.pushByte b o) = contents o ++ [b]

/-- `impl Output for Vec<u8>`. -/
def vecOutput : Output (List Byte) where
  write bytes o := o ++ bytes

theorem vecOutput_appends : vecOutput.Appends id :=
  ⟨fun _ _ => rfl, fun _ _ => rfl⟩

theorem Output.Appends.call (hO : O.Appends contents) (o : ω) (w : Write) :
    contents (O.call o w) = contents o ++ w.bytes := by
  cases w with
  | write bytes => exact hO.write bytes o
  | pushByte b => exact hO.pushByte b o

theorem Output.Appends.foldl_call (hO : O.Appends contents) (ws : List Write) (o : ω) :
    contents (ws.foldl O.call o) = contents o ++ written ws := by
  induction ws generalizing o with
  | nil => exact (List.append_nil _).symm
  | cons w ws ih =>
    rw [List.foldl_cons, ih, hO.call, List.append_assoc]
    rfl

/-- `write` and `push_byte` of `SizeTracker`, with overflow checked. -/
def sizeTrackerWrite (tgt : Target) (written : ℕ) (w : Write) : Except Halt ℕ :=
  let n :=
    match w with
    | .write bytes => bytes.length
    | .pushByte _ => 1
  if written + n > tgt.usizeMax then .error (.panic "attempt to add with overflow")
  else .ok (written + n)

/-- `v.encoded_size()`. -/
def Encode.encodedSize (tgt : Target) (E : Encode α) (v : α) : Except Halt ℕ := do
  let ws ← E.encodeTo v
  ws.foldlM (sizeTrackerWrite tgt) 0

theorem foldlM_sizeTrackerWrite {tgt : Target} (ws : List Write) (n : ℕ)
    (h : n + (written ws).length ≤ tgt.usizeMax) :
    ws.foldlM (sizeTrackerWrite tgt) n = .ok (n + (written ws).length) := by
  induction ws generalizing n with
  | nil => rfl
  | cons w ws ih =>
    have hcons : (written (w :: ws)).length = w.bytes.length + (written ws).length :=
      List.length_append
    have hw : sizeTrackerWrite tgt n w = .ok (n + w.bytes.length) := by
      cases w with
      | write bytes =>
        refine if_neg (not_lt.mpr ?_)
        show n + (Write.write bytes).bytes.length ≤ _
        omega
      | pushByte b =>
        refine if_neg (not_lt.mpr ?_)
        show n + (Write.pushByte b).bytes.length ≤ _
        omega
    rw [List.foldlM_cons, hw]
    refine (ih (n + w.bytes.length) (by omega)).trans ?_
    rw [hcons, Nat.add_assoc]

/-- All ways to encode a value with a lawful `impl` agree. -/
theorem Encode.Lawful.encodeInto {E : Encode α} (hE : E.Lawful) (hO : O.Appends contents) (v : α)
    (o : ω) : contents <$> E.encodeInto O v o = (contents o ++ ·) <$> E.encode v := by
  rw [← hE.encodeTo, Encode.encodeInto]
  cases E.encodeTo v with
  | error h => rfl
  | ok ws => exact congrArg Except.ok (hO.foldl_call ws o)

theorem Encode.Lawful.encodedSize {tgt : Target} {E : Encode α} (hE : E.Lawful) {v : α}
    {bs : List Byte} (h : Encodes E v bs) (hlen : bs.length ≤ tgt.usizeMax) :
    E.encodedSize tgt v = .ok bs.length := by
  rw [Encodes, ← hE.encodeTo] at h
  unfold Encode.encodedSize
  cases hws : E.encodeTo v with
  | error e =>
    rw [hws] at h
    cases h
  | ok ws =>
    rw [hws] at h
    obtain rfl : written ws = bs := Except.ok.inj h
    refine (foldlM_sizeTrackerWrite ws 0 ?_).trans ?_
    · rwa [Nat.zero_add]
    · rw [Nat.zero_add]

end Outputs

/-! ## Generated `impl`s -/

section Derived

variable {F : Type → Type u} {α T : Type} {enc : ∀ {σ : Type}, F σ → Encode σ}

theorem lawful_implEncode (data : Data F α) : (implEncode enc data).toEncode.Lawful := by
  cases data with
  | struct fields => exact EncodeImpl.lawful_encodeTo _
  | enum vs =>
    show (if vs.count = 0 then {} else _ : EncodeImpl α).toEncode.Lawful
    split_ifs
    · exact ⟨fun _ => rfl, fun _ => rfl, fun _ _ h => by cases h⟩
    · exact EncodeImpl.lawful_encodeTo _

/-- The methods of a generated `impl` agree if those of the fields' types do. -/
theorem Data.encodeImpl_lawful (henc : ∀ {σ : Type} (t : F σ), (enc t).Lawful) (data : Data F α) :
    (data.encodeImpl enc).toEncode.Lawful := by
  unfold Data.encodeImpl
  cases hx : data.singleField with
  | some x =>
    cases data with
    | struct fields =>
      exact encodeSingleField_lawful (FieldList.forall_iff.mpr fun y _ => henc y.2.refTy)
        (Fields.mem_filterSkip_of_singleField hx)
    | enum vs => cases hx
  | none => exact lawful_implEncode data

theorem DeriveInput.encodeImpl_lawful (henc : ∀ {σ : Type} (t : F σ), (enc t).Lawful)
    (di : DeriveInput F T) : (di.encodeImpl enc).toEncode.Lawful :=
  EncodeImpl.lawful_comap (Data.encodeImpl_lawful henc di.data) di.repr

end Derived

namespace TypeDefs

variable {ι : Type} {ν : ι → Type} {P : Platform ν} {Δ : TypeDefs ν}

/-- The derived encoders, run with fuel for the calls from one named type to another. -/
def encodeNamed (P : Platform ν) (Δ : TypeDefs ν) : ℕ → ∀ i, Encode (ν i)
  | 0, _ => EncodeImpl.toEncode { encodeTo := some fun _ => .error .outOfFuel }
  | n + 1, i => ((Δ i).encodeImpl (Ty.encode P (Δ.encodeNamed P n))).toEncode

/-- The encoder of a type over the named types, with fuel. -/
def encode (P : Platform ν) (Δ : TypeDefs ν) (n : ℕ) {α : Type} (t : Ty ν α) : Encode α :=
  t.encode P (Δ.encodeNamed P n)

theorem encodeNamed_lawful : ∀ (n : ℕ) (i : ι), (Δ.encodeNamed P n i).Lawful
  | 0, _ => EncodeImpl.lawful_encodeTo _
  | n + 1, i => DeriveInput.encodeImpl_lawful (Ty.encode_lawful (encodeNamed_lawful n)) (Δ i)

theorem encode_lawful (n : ℕ) {α : Type} (t : Ty ν α) : (Δ.encode P n t).Lawful :=
  Ty.encode_lawful (encodeNamed_lawful n) t

/-- `encode`, `using_encoded`, `encode_to` and `encoded_size` agree, and a struct with one field
that is not skipped is encoded as if it were encoded field by field. -/
theorem encode_ways_agree (P : Platform ν) (Δ : TypeDefs ν) (n : ℕ) :
    (∀ {α : Type} (t : Ty ν α) (v : α),
      (Δ.encode P n t).usingEncoded v = (Δ.encode P n t).encode v ∧
      (∀ {ω : Type} (O : Output ω) (contents : ω → List Byte), O.Appends contents → ∀ o,
        contents <$> (Δ.encode P n t).encodeInto O v o =
          (contents o ++ ·) <$> (Δ.encode P n t).encode v) ∧
      ∀ bs, Encodes (Δ.encode P n t) v bs → bs.length ≤ P.target.usizeMax →
        (Δ.encode P n t).encodedSize P.target v = .ok bs.length) ∧
    ∀ {α : Type} (fields : Fields (Ty ν) α) (x : SelfField (Ty ν) α),
      fields.list.check = .ok () → fields.list.filterSkip = [x] → ∀ v,
        (encodeSingleField (Δ.encode P n) x).toEncode.encode v =
          (implEncode (Δ.encode P n) (.struct fields)).toEncode.encode v := by
  refine ⟨fun t v => ⟨?_, fun O contents hO o => ?_, fun bs henc hlen => ?_⟩,
    fun fields x hc hx v => ?_⟩
  · exact (encode_lawful n t).usingEncoded v
  · exact (encode_lawful n t).encodeInto hO v o
  · exact (encode_lawful n t).encodedSize henc hlen
  · have hsingle : (encodeSingleField (Δ.encode P n) x).toEncode.Lawful :=
      encodeSingleField_lawful (FieldList.forall_iff.mpr fun y _ => encode_lawful n y.2.refTy)
        (hx ▸ List.mem_singleton_self x)
    have hto : encodeFields (Δ.encode P n) fields.list v = _ :=
      encodeFields_of_filterSkip_eq_singleton hc hx v
    rw [← hsingle.encodeTo, ← (lawful_implEncode _).encodeTo, ← hto]
    rfl

end TypeDefs

/-- The values of `Chain` : the bytes of its links, of which there is at least one. -/
abbrev ChainVal : Unit → Type := fun _ => Prim.u8.Val × List Prim.u8.Val

/-- The field of `Chain` that is encoded. -/
def chainLink : Field (Ty ChainVal) (Option (ChainVal ())) :=
  { ident := none, ty := .option (.box (.named ())) }

/-- The fields of `struct Chain(#[codec(skip)] u8, Option<Box<Chain>>)`. -/
def chainFields : Fields (Ty ChainVal) (Prim.u8.Val × Option (ChainVal ()) × Unit) :=
  .unnamed (.cons { ident := none, ty := .prim .u8, skip := some 0 } (.cons chainLink .nil))

/-- `struct Chain(#[codec(skip)] u8, Option<Box<Chain>>)`. -/
def chainDefs : TypeDefs ChainVal := fun _ =>
  { ident := "Chain"
    data := .struct chainFields
    repr :=
      { toFun := fun
          | (b, []) => (b, none, ())
          | (b, c :: cs) => (b, some (c, cs), ())
        invFun := fun
          | (b, none, _) => (b, [])
          | (b, some (c, cs), _) => (b, c :: cs)
        left_inv := fun
          | (_, []) => rfl
          | (_, _ :: _) => rfl
        right_inv := fun
          | (_, none, _) => rfl
          | (_, some _, _) => rfl } }

/-- The ways to encode a chain of two links, and its fields with and without the single field
optimisation. -/
theorem TypeDefs.encode_ways_agree_chain :
    let P := Platform.unpadded ChainVal
    let E := chainDefs.encode P 2 (.named ())
    let x : SelfField (Ty ChainVal) (Prim.u8.Val × Option (ChainVal ()) × Unit) :=
      ⟨chainLink, fun v => v.2.1⟩
    E.usingEncoded (5, [6]) = .ok [1, 0] ∧
      E.encodeInto vecOutput (5, [6]) [9] = .ok [9, 1, 0] ∧
      E.encodedSize P.target (5, [6]) = .ok 2 ∧
      (encodeSingleField (chainDefs.encode P 1) x).toEncode.encode (5, some (6, []), ()) =
        .ok [1, 0] ∧
      (implEncode (chainDefs.encode P 1) (.struct chainFields)).toEncode.encode
        (5, some (6, []), ()) = .ok [1, 0] := by
  intro P E x
  have henc : Encodes E (5, [6]) [1, 0] := rfl
  obtain ⟨husing, hinto, hsize⟩ := (encode_ways_agree P chainDefs 2).1 (.named ()) (5, [6])
  have hvec := hinto vecOutput id vecOutput_appends [9]
  have hx : (encodeSingleField (chainDefs.encode P 1) x).toEncode.encode (5, some (6, []), ()) =
      .ok [1, 0] := rfl
  have hsingle := (encode_ways_agree P chainDefs 1).2 chainFields x rfl rfl (5, some (6, []), ())
  rw [id_map] at hvec
  exact ⟨husing.trans henc, hvec.trans (congrArg (([9] ++ ·) <$> ·) henc),
    hsize [1, 0] henc (by decide), hx, hsingle.symm.trans hx⟩

end ScaleCodec
