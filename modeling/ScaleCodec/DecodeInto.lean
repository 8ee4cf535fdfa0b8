import ScaleCodec.TypeDiscipline

/-!
# `decode_into`

A type is decoded into place by `decode` and a move, unless it is an array, whose `decode` calls
`decode_into`, or a `#[repr(transparent)]` struct, for which `derive(Decode)` generates both. There
`decode_into` writes the fields one after the other to the same place, calling the fields'
`decode_into` and without a description of the error. It makes the calls `decode` makes, and
succeeds with the same value (`TypeDefs.decodeInto_agrees`), so that a box, which always decodes its
content into place, does as if it had been decoded and moved (`boxDecode_alike`).
-/

universe u

namespace ScaleCodec

variable {α β : Type}

/-! ## Decoders that differ in their errors -/

/-- The same value, or an error each. -/
def EqUpToError : Except Error α → Except Error α → Prop
  | .ok a, .ok b => a = b
  | .error _, .error _ => True
  | _, _ => False

theorem EqUpToError.refl : ∀ r : Except Error α, EqUpToError r r
  | .ok _ => rfl
  | .error _ => trivial

/-- The decoders make the same calls and return the same values, but may describe their errors
differently. -/
def DecodeM.Alike (p q : DecodeM α) : Prop :=
  p.run.Alike EqUpToError q.run

namespace DecodeM.Alike

variable {p q : DecodeM α}

theorem refl (p : DecodeM α) : p.Alike p :=
  Prog.Alike.refl EqUpToError.refl p.run

theorem bind {f g : α → DecodeM β} (hp : p.Alike q) (hf : ∀ a, (f a).Alike (g a)) :
    (p >>= f).Alike (q >>= g) := by
  refine Prog.Alike.bind hp fun r r' h => ?_
  cases r with
  | ok a =>
    cases r' with
    | ok b =>
      obtain rfl : a = b := h
      exact hf a
    | error e => exact h.elim
  | error e =>
    cases r' with
    | ok b => exact h.elim
    | error e' => exact .ret trivial

theorem map (f : α → β) (hp : p.Alike q) : (f <$> p).Alike (f <$> q) := by
  rw [map_eq_pure_bind, map_eq_pure_bind]
  exact hp.bind fun a => refl (pure (f a))

/-- A description added to the error. -/
theorem chainErr (msg : String) (hp : p.Alike q) : p.Alike (q.chainErr msg) := by
  show p.run.Alike EqUpToError (Except.mapError (·.chain msg) <$> q.run)
  rw [← Prog.bind_ret p.run, map_eq_pure_bind]
  refine Prog.Alike.bind hp fun r r' h => .ret ?_
  cases r <;> cases r' <;> exact h

end DecodeM.Alike

/-- A box is filled by `decode_into`, to the same effect. -/
theorem boxDecode_alike {I : Decode α} (hI : I.decodeInto.Alike I.decode) (size : ℕ) :
    (boxDecode size I).decode.Alike (DecodeM.nested do
      DecodeM.onBeforeAllocMem I.size
      DecodeM.allocate I.size
      I.decode) := by
  have hcontent := (DecodeM.Alike.refl (DecodeM.onBeforeAllocMem I.size)).bind fun _ =>
    (DecodeM.Alike.refl (DecodeM.allocate I.size)).bind fun _ => hI
  exact (DecodeM.Alike.refl _).bind fun _ => hcontent.bind fun a => .refl _

/-! ## Transparent structs -/

section Declarations

variable {F : Type → Type u} {T : Type} {dec : ∀ {σ : Type}, F σ → Decode σ}

/-- Fields without attributes, written in place or decoded. -/
theorem decodeIntoFields_alike (h : ∀ {σ : Type} (t : F σ), (dec t).decodeInto.Alike (dec t).decode)
    {fieldName : ℕ → Option String → String} : ∀ {α : Type} {fs : FieldList F α} (i : ℕ),
      fs.anyAttribute = false → (decodeIntoFields dec fs).Alike (decodeFields dec fieldName fs i)
  | _, .nil, _, _ => .refl _
  | _, .cons f fs, i, hany => by
    obtain ⟨hf, hany⟩ := FieldList.encoding_of_anyAttribute hany
    have hfield : (dec f.ty).decodeInto.Alike (decodeField dec (fieldName i f.ident) f) := by
      rw [decodeField_eq, hf]
      have hchain := ((h f.ty).chainErr ("Could not decode `" ++ fieldName i f.ident ++ "`")).map id
      rwa [id_map] at hchain
    exact hfield.bind fun _ => (decodeIntoFields_alike h (i + 1) hany).bind fun _ => .refl _

/-- What the macro generates for a struct whose layout the compiler accepts. -/
theorem DeriveInput.decodeImpl_alike {di : DeriveInput F T} {size : ℕ}
    (hlayout : di.LayoutOk (fun t => (dec t).size) size)
    (h : ∀ {σ : Type} (t : F σ), (dec t).decodeInto.Alike (dec t).decode) :
    (di.decodeImpl dec size).decodeInto.Alike (di.decodeImpl dec size).decode := by
  show ((di.decodeInto dec size).getD _).Alike (di.repr.symm <$> di.data.decode dec di.ident)
  unfold DeriveInput.decodeInto
  split_ifs with htransparent
  · cases hfs : di.data.plainFields with
    | none => exact .refl _
    | some fs =>
      obtain ⟨hsum, hcount⟩ := hlayout htransparent fs hfs
      obtain ⟨fields, hdata, rfl, hany⟩ := Data.eq_struct_of_plainFields hfs
      obtain ⟨fieldName, hname⟩ := exists_createInstance_eq di.ident fields
      show (if _ then _ else if _ then _ else _ : DecodeM T).Alike _
      rw [if_neg (not_not.mpr hsum), if_neg (not_lt.mpr hcount), hdata]
      refine DecodeM.Alike.map _ ?_
      show (decodeIntoFields dec fields.list).Alike (createInstance dec di.ident fields)
      rw [hname dec]
      exact decodeIntoFields_alike h 0 hany
  · exact .refl _

end Declarations

/-! ## Types -/

section Types

variable {ι : Type} {ν : ι → Type} {P : Platform ν} {internal : DecodeM (List Prim.u8.Val)}

theorem Ty.decodeInto_alike {env : ∀ i, Decode (ν i)}
    (henv : ∀ i, (env i).decodeInto.Alike (env i).decode) (t : Ty ν α) :
    (t.decodeWith P internal env).decodeInto.Alike (t.decodeWith P internal env).decode := by
  cases t with
  | named i => exact henv i
  | _ => exact .refl _

variable {Δ : TypeDefs ν}

theorem TypeDefs.decodeNamedWith_alike (hΔ : Δ.Compiles P) : ∀ (n : ℕ) (i : ι),
    (Δ.decodeNamedWith P internal n i).decodeInto.Alike (Δ.decodeNamedWith P internal n i).decode
  | 0, _ => .refl _
  | n + 1, i => by
    refine DeriveInput.decodeImpl_alike ?_ fun t =>
      Ty.decodeInto_alike (TypeDefs.decodeNamedWith_alike hΔ n) t
    simp only [Ty.size_decodeWith size_decodeNamedWith]
    exact hΔ.layout i

/-- On every input `decode_into` makes the calls `decode` makes, and either both return the same
value, or both an error, and leave the input in the same state. The third case is that both halt,
because the input does or for want of fuel. -/
theorem TypeDefs.decodeInto_agrees (hΔ : Δ.Compiles P) (n : ℕ) (t : Ty ν α) {σ : Type}
    (h : Handler inputInterface Halt σ) (s : σ) :
    let p := (Δ.decodeWith P internal n t).decodeInto.run
    let q := (Δ.decodeWith P internal n t).decode.run
    p.trace h s = q.trace h s ∧
      ((∃ v s', p.run h s = .ok (.ok v, s') ∧ q.run h s = .ok (.ok v, s')) ∨
        (∃ e e' s', p.run h s = .ok (.error e, s') ∧ q.run h s = .ok (.error e', s')) ∨
        ∃ e, p.run h s = .error e ∧ q.run h s = .error e) := by
  intro p q
  have halike : p.Alike EqUpToError q := Ty.decodeInto_alike (decodeNamedWith_alike hΔ n) t
  obtain ⟨htrace, ⟨r, r', s', hp, hq, hr⟩ | hhalt⟩ := halike.run h s
  · refine ⟨htrace, ?_⟩
    cases r with
    | ok v =>
      cases r' with
      | ok v' =>
        obtain rfl : v = v' := hr
        exact Or.inl ⟨v, s', hp, hq⟩
      | error e => exact hr.elim
    | error e =>
      cases r' with
      | ok v' => exact hr.elim
      | error e' => exact Or.inr (Or.inl ⟨e, e', s', hp, hq⟩)
  · exact ⟨htrace, Or.inr (Or.inr hhalt)⟩

end Types

/-- The values of `Only` and of `Wrap`. -/
def wrapTypes : Bool → Type
  | false => Unit ⊕ Empty
  | true => (Unit ⊕ Empty) × Unit × Unit

/-- `enum Only { Only }`, which takes no memory but is encoded as a byte, and
`#[repr(transparent)] struct Wrap(Only, ())`. -/
def wrapDefs : TypeDefs wrapTypes
  | false =>
    { ident := "Only"
      data := .enum (.cons { ident := "Only", fields := .unit } .nil)
      repr := Equiv.refl _ }
  | true =>
    { ident := "Wrap"
      transparent := true
      data := .struct (.unnamed
        (.cons { ident := none, ty := .named false } (.cons { ident := none, ty := .unit } .nil)))
      repr := Equiv.refl _ }

theorem wrapDefs_compiles : wrapDefs.Compiles (Platform.unpadded _) where
  check i := by cases i <;> rfl
  fields i := by
    cases i with
    | false => exact ⟨fun _ => trivial, trivial⟩
    | true => exact ⟨trivial, trivial, trivial⟩
  layout i htransparent fs hfs := by
    cases i with
    | false => cases htransparent
    | true =>
      obtain rfl := Option.some.inj hfs
      decide

/-- `Wrap`, whose first field is read from one byte. -/
theorem TypeDefs.decodeInto_agrees_wrap :
    let I := wrapDefs.decode (Platform.unpadded _) 2 (.named true)
    I.decodeInto.run.trace sliceInput [0, 7] = I.decode.run.trace sliceInput [0, 7] ∧
      Decodes I.decodeInto [0, 7] (.inl (), (), ()) [7] ∧
      Decodes I.decode [0, 7] (.inl (), (), ()) [7] :=
  ⟨(TypeDefs.decodeInto_agrees wrapDefs_compiles 2 (.named true) sliceInput [0, 7]).1, rfl, rfl⟩

end ScaleCodec
