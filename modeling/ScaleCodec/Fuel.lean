import ScaleCodec.EncodeWays

/-!
# Fuel

The codecs of declared types call each other, which the model lets them do with fuel
(`TypeDefs.encode`, `TypeDefs.decode`). Fuel is a device of the model alone : a decoder with less
of it runs as one with more does, against every input, until it runs out
(`TypeDefs.decodeWith_approximates`), and what is encoded with some fuel is encoded as the same
bytes with more (`TypeDefs.encodes_mono`). The platform has no part in it either
(`TypeDefs.EncodesAs.platform`).

So `TypeDefs.EncodesAs` and `TypeDefs.DecodesAs` speak of the codecs themselves : with enough fuel
the call returns, and what it returns does not depend on how much that was.
-/

universe u

namespace ScaleCodec

variable {α β : Type}

/-! ## Decoders -/

/-- Against any input `p` runs out of fuel, or runs as `q` does. -/
def DecodeM.Approximates (p q : DecodeM α) : Prop :=
  p.run.Approximates .outOfFuel q.run

namespace DecodeM.Approximates

variable {p q : DecodeM α}

theorem refl (p : DecodeM α) : p.Approximates p :=
  Prog.Approximates.refl p.run

theorem bind_of_yields {P : α → Prop} {f g : α → DecodeM β} (hp : p.Approximates q)
    (hP : Yields P q) (hf : ∀ a, P a → (f a).Approximates (g a)) :
    (p >>= f).Approximates (q >>= g) := by
  unfold DecodeM.Approximates
  rw [ExceptT.run_bind, ExceptT.run_bind]
  refine Prog.Approximates.bind hp fun r hr => ?_
  cases r with
  | ok a => exact hf a (hP.of_canReturn hr)
  | error e => exact .refl _

theorem bind {f g : α → DecodeM β} (hp : p.Approximates q) (hf : ∀ a, (f a).Approximates (g a)) :
    (p >>= f).Approximates (q >>= g) :=
  hp.bind_of_yields yields_true fun a _ => hf a

theorem after {r : DecodeM β} (hp : p.Approximates q) :
    (r >>= fun _ => p).Approximates (r >>= fun _ => q) :=
  (refl r).bind fun _ => hp

theorem decodes (hp : p.Approximates q) {s s' : List Byte} {a : α} (h : Decodes p s a s') :
    Decodes q s a s' :=
  Prog.Approximates.run_eq_ok hp h

end DecodeM.Approximates

/-- The logic of running out of fuel. -/
def approximation : DecoderLogic where
  toDiscipline := .anyDepth fun _ => True
  Rel _ _ p q := p.Approximates q
  rel_pure _ := .refl _
  rel_throw _ := .refl _
  rel_halt _ := .refl _
  rel_bind_of_yields := DecodeM.Approximates.bind_of_yields
  rel_read _ := .refl _
  rel_readByte := .refl _
  rel_chainErr hp := Prog.Approximates.bind hp fun _ _ => .refl _
  rel_nested hp := ((hp trivial).bind fun _ => .refl _).after
  rel_nestedAlloc hp :=
    DecodeM.Approximates.after <| DecodeM.Approximates.after <|
      Prog.Approximates.bind (hp trivial) fun _ _ => .refl _
  rel_claim _ hp := hp.after.after
  rel_checkRemaining _ hp := hp.after

namespace TypeDefs

variable {ι : Type} {ν : ι → Type} {P : Platform ν} {Δ : TypeDefs ν}
  {internal : DecodeM (List Prim.u8.Val)} {m n : ℕ}

theorem sameShape_decodeNamedWith_succ (n : ℕ) (i : ι) :
    (Δ.decodeNamedWith P internal n i).SameShape (Δ.decodeNamedWith P internal (n + 1) i) := by
  cases n with
  | zero => exact ⟨rfl, rfl, rfl⟩
  | succ n => exact DeriveInput.decodeImpl_sameShape

theorem decodeNamedWith_succ_approximates (hinternal : ∀ d, approximation.Rel d internal internal)
    (hΔ : Δ.Compiles P) (n d : ℕ) (i : ι) :
    (Δ.decodeNamedWith P internal n i).Rel approximation d
      (Δ.decodeNamedWith P internal (n + 1) i) := by
  have he : Δ.ErrorsIn approximation.errorOk := Δ.errorsIn_of_forall fun _ => trivial
  induction n generalizing d i with
  | zero =>
    have h : ∀ {β : Type} (p : DecodeM β), DecodeM.outOfFuel.Approximates p :=
      fun p => Prog.Approximates.halt p.run
    exact ⟨h _, h _, h _⟩
  | succ n ih =>
    have hsize : ∀ {n : ℕ} {σ : Type} (t : Ty ν σ),
        (t.decodeWith P internal (Δ.decodeNamedWith P internal n)).size = P.size t :=
      Ty.size_decodeWith size_decodeNamedWith
    refine DeriveInput.decodeImpl_rel ?_ ?_ (Data.forall_iff.mpr fun x hx => ?_)
    · simp only [hsize]
      exact hΔ.layout i
    · exact fun t => (hsize t).trans (hsize t).symm
    · exact Ty.decodeWith_rel hinternal size_decodeNamedWith (sameShape_decodeNamedWith_succ n)
        (Data.forall_iff.mp (hΔ.fields i) x hx) (Data.forall_iff.mp (he i) x hx)
        ⟨fun j _ => ih d j, fun j _ d' _ _ => ih d' j⟩

/-- With more fuel a decoder runs on where it gave up with less. -/
theorem decodeWith_approximates (hinternal : ∀ d, approximation.Rel d internal internal)
    (hΔ : Δ.Compiles P) {t : Ty ν α} (ht : t.Compiles P) (h : m ≤ n) :
    (Δ.decodeWith P internal m t).decode.Approximates (Δ.decodeWith P internal n t).decode := by
  induction n, h using Nat.le_induction with
  | base => exact .refl _
  | succ n _ ih =>
    have hstep : (Δ.decodeWith P internal n t).Rel approximation 0
        (Δ.decodeWith P internal (n + 1) t) :=
      Ty.decodeWith_rel hinternal size_decodeNamedWith (sameShape_decodeNamedWith_succ n) ht
        (t.errorsIn_of_forall fun _ => trivial)
        ⟨fun i _ => decodeNamedWith_succ_approximates hinternal hΔ n 0 i,
          fun i _ d _ _ => decodeNamedWith_succ_approximates hinternal hΔ n d i⟩
    exact Prog.Approximates.trans ih hstep.decode

/-- `t::decode` returns `v` on the slice `s` and leaves `s'`. -/
def DecodesAs (P : Platform ν) (Δ : TypeDefs ν) (t : Ty ν α) (s : List Byte) (v : α)
    (s' : List Byte) : Prop :=
  ∃ n, Decodes (Δ.decode P n t).decode s v s'

/-- `t::decode` returns `Err` on the slice `s`. -/
def FailsOn (P : Platform ν) (Δ : TypeDefs ν) (t : Ty ν α) (s : List Byte) : Prop :=
  ∃ n e s', runSlice (Δ.decode P n t).decode s = .ok (.error e, s')

theorem decodes_mono (hΔ : Δ.Compiles P) {t : Ty ν α} (ht : t.Compiles P) (h : m ≤ n)
    {s s' : List Byte} {v : α} (hdec : Decodes (Δ.decode P m t).decode s v s') :
    Decodes (Δ.decode P n t).decode s v s' :=
  (decodeWith_approximates decodeBytes_rel hΔ ht h).decodes hdec

theorem DecodesAs.unique (hΔ : Δ.Compiles P) {t : Ty ν α} (ht : t.Compiles P) {s s₁ s₂ : List Byte}
    {v₁ v₂ : α} (h₁ : Δ.DecodesAs P t s v₁ s₁) (h₂ : Δ.DecodesAs P t s v₂ s₂) :
    v₁ = v₂ ∧ s₁ = s₂ := by
  obtain ⟨m, h₁⟩ := h₁
  obtain ⟨n, h₂⟩ := h₂
  exact (decodes_mono hΔ ht (le_max_left m n) h₁).unique (decodes_mono hΔ ht (le_max_right m n) h₂)

theorem FailsOn.not_decodes (hΔ : Δ.Compiles P) {t : Ty ν α} (ht : t.Compiles P) {s s' : List Byte}
    {v : α} (h : Δ.FailsOn P t s) : ¬Δ.DecodesAs P t s v s' := by
  rintro ⟨m, hm⟩
  obtain ⟨n, e, s'', hn⟩ := h
  have hfail : runSlice (Δ.decode P (max m n) t).decode s = .ok (.error e, s'') :=
    Prog.Approximates.run_eq_ok
      (decodeWith_approximates decodeBytes_rel hΔ ht (le_max_right m n)) hn
  cases hfail.symm.trans (decodes_mono hΔ ht (le_max_left m n) hm)

end TypeDefs

/-! ## Encoders -/

section Encoders

variable {E E' : Encode α} {F F' : Encode β}

/-- What `E` encodes `E'` encodes as the same bytes. -/
def Encode.Extends (E' E : Encode α) : Prop :=
  ∀ ⦃v bs⦄, Encodes E v bs → Encodes E' v bs

theorem Encode.Extends.items (h : E'.Extends E) {as : List α} {bs : List Byte}
    (has : EncodesList E as bs) : EncodesList E' as bs := by
  induction as generalizing bs with
  | nil => exact has
  | cons a as ih =>
    obtain ⟨b, c, hb, hc, rfl⟩ := has
    exact ⟨b, c, h hb, ih hc, rfl⟩

theorem Encode.Extends.pair (hE : E.Lawful) (hF : F.Lawful) (hE' : E'.Lawful) (hF' : F'.Lawful)
    (h : E'.Extends E) (h' : F'.Extends F) : (pairEncode E' F').Extends (pairEncode E F) := by
  intro v bs hv
  obtain ⟨b, c, hb, hc, rfl⟩ := (encodes_pairEncode hE hF).mp hv
  exact (encodes_pairEncode hE' hF').mpr ⟨b, c, h hb, h' hc, rfl⟩

theorem Encode.Extends.vec {tgt tgt' : Target} (hE : E.Lawful) (hE' : E'.Lawful)
    (h : E'.Extends E) : (vecEncode tgt' E').Extends (vecEncode tgt E) := by
  intro v bs hv
  obtain ⟨hlen, b, hb, rfl⟩ := (encodes_vecEncode hE).mp hv
  exact (encodes_vecEncode hE').mpr ⟨hlen, b, h.items hb, rfl⟩

theorem Encode.Extends.collection {γ : Type} {iter : γ → List α} (hE : E.Lawful) (hE' : E'.Lawful)
    (h : E'.Extends E) : (collectionEncode E' iter).Extends (collectionEncode E iter) := by
  intro v bs hv
  obtain ⟨hlen, b, hb, rfl⟩ := (encodes_collectionEncode hE).mp hv
  exact (encodes_collectionEncode hE').mpr ⟨hlen, b, h.items hb, rfl⟩

end Encoders

section Types

variable {ι : Type} {ν : ι → Type} {P P' : Platform ν}

/-- The platform has no part in what a type is encoded as. -/
theorem Ty.encode_extends {env env' : ∀ i, Encode (ν i)} (henv : ∀ i, (env i).Lawful)
    (henv' : ∀ i, (env' i).Lawful) (h : ∀ i, (env' i).Extends (env i)) (t : Ty ν α) :
    (t.encode P' env').Extends (t.encode P env) := by
  have law : ∀ {β : Type} (u : Ty ν β), (u.encode P env).Lawful := encode_lawful henv
  have law' : ∀ {β : Type} (u : Ty ν β), (u.encode P' env').Lawful := encode_lawful henv'
  have bytes : (vecEncode P'.target (primEncode .u8)).Extends
      (vecEncode P.target (primEncode .u8)) :=
    .vec (primEncode_lawful _) (primEncode_lawful _) fun _ _ h => h
  induction t with
  | option t ih =>
    rintro (_ | a) bs hv
    · exact encodes_optionEncode_none.mpr (encodes_optionEncode_none.mp hv)
    · obtain ⟨b, hb, rfl⟩ := (encodes_optionEncode_some (law t)).mp hv
      exact (encodes_optionEncode_some (law' t)).mpr ⟨b, ih hb, rfl⟩
  | result t e iht ihe =>
    rintro (a | a) bs hv
    · obtain ⟨b, hb, rfl⟩ := (encodes_resultEncode_error (law e)).mp hv
      exact (encodes_resultEncode_error (law' e)).mpr ⟨b, ihe hb, rfl⟩
    · obtain ⟨b, hb, rfl⟩ := (encodes_resultEncode_ok (law t)).mp hv
      exact (encodes_resultEncode_ok (law' t)).mpr ⟨b, iht hb, rfl⟩
  | pair t u iht ihu => exact .pair (law t) (law u) (law' t) (law' u) iht ihu
  | array n t ih =>
    exact fun v bs hv => (encodes_arrayEncode (law' t)).mpr
      (ih.items ((encodes_arrayEncode (law t)).mp hv))
  | genericArray n t ih =>
    exact fun v bs hv => (encodes_genericArrayEncode (law' t)).mpr
      (ih.items ((encodes_genericArrayEncode (law t)).mp hv))
  | vec t ih => exact .vec (law t) (law' t) ih
  | vecDeque t ih =>
    exact fun v bs hv => (encodes_vecDequeEncode (law' t)).mpr
      (ih.vec (law t) (law' t) ((encodes_vecDequeEncode (law t)).mp hv))
  | linkedList t ih => exact .collection (law t) (law' t) ih
  | btreeMap _ k u ihk ihu =>
    exact .collection pairEncode_lawful pairEncode_lawful
      (ihk.pair (law k) (law u) (law' k) (law' u) ihu)
  | btreeSet _ k ih => exact .collection (law k) (law' k) ih
  | binaryHeap _ t ih => exact .collection (law t) (law' t) ih
  | tuple1 t ih | box t ih | rc t ih | arc t ih | cow t ih => exact ih
  | range t ih | rangeInclusive t ih =>
    exact fun v bs hv => ih.pair (law t) (law t) (law' t) (law' t) ih hv
  | string =>
    exact fun v bs hv => encodes_stringEncode.mpr (bytes (encodes_stringEncode.mp hv))
  | bytes => exact bytes
  | named i => exact h i
  | _ => exact fun v bs hv => hv

end Types

section Declarations

variable {F : Type → Type u} {T : Type} {enc enc' : ∀ {σ : Type}, F σ → Encode σ}

theorem encodeFields_extends (henc : ∀ {σ : Type} (t : F σ), (enc t).Lawful)
    (henc' : ∀ {σ : Type} (t : F σ), (enc' t).Lawful)
    (h : ∀ {σ : Type} (t : F σ), (enc' t).Extends (enc t)) {fs : FieldList F α} {v : α}
    {bs : List Byte} (hv : Writes (encodeFields enc fs v) bs) :
    Writes (encodeFields enc' fs v) bs := by
  induction fs generalizing bs with
  | nil => exact hv
  | cons f fs ih =>
    obtain ⟨b, c, hb, hc, rfl⟩ := writes_writeThen.mp hv
    refine writes_writeThen.mpr ⟨b, c, ?_, ih hc, rfl⟩
    rw [encodeField_eq] at hb ⊢
    cases hf : f.encoding with
    | inl as =>
      rw [hf] at hb
      exact (henc' _).writes.mpr (h _ ((henc _).writes.mp hb))
    | inr d =>
      rw [hf] at hb
      exact hb

theorem encodeVariants_extends (henc : ∀ {σ : Type} (t : F σ), (enc t).Lawful)
    (henc' : ∀ {σ : Type} (t : F σ), (enc' t).Lawful)
    (h : ∀ {σ : Type} (t : F σ), (enc' t).Extends (enc t)) {vs : VariantList F α} {i : ℕ} {v : α}
    {bs : List Byte} (hv : Writes (encodeVariants enc vs i v) bs) :
    Writes (encodeVariants enc' vs i v) bs := by
  induction vs generalizing i with
  | nil => exact v.elim
  | cons w ws ih =>
    cases v with
    | inr b => exact ih hv
    | inl a =>
      rw [encodeVariants] at hv ⊢
      split_ifs at hv ⊢ with hskip
      · exact hv
      · obtain ⟨b, c, hb, hc, rfl⟩ := writes_writeThen.mp hv
        exact writes_writeThen.mpr ⟨b, c, hb, encodeFields_extends henc henc' h hc, rfl⟩

theorem Data.encodeImpl_extends (henc : ∀ {σ : Type} (t : F σ), (enc t).Lawful)
    (henc' : ∀ {σ : Type} (t : F σ), (enc' t).Lawful)
    (h : ∀ {σ : Type} (t : F σ), (enc' t).Extends (enc t)) (data : Data F α) :
    (data.encodeImpl enc').toEncode.Extends (data.encodeImpl enc).toEncode := by
  unfold Data.encodeImpl
  cases data.singleField with
  | some x =>
    show (encodeSingleField enc' x).toEncode.Extends (encodeSingleField enc x).toEncode
    unfold encodeSingleField
    cases x.field.compact with
    | some as => exact fun v bs hv => h as.refTy hv
    | none =>
      cases x.field.encodedAs with
      | some as => exact fun v bs hv => h as.refTy hv
      | none => exact fun v bs hv => h x.field.ty hv
  | none =>
    cases data with
    | struct fields => exact fun v bs hv => encodeFields_extends henc henc' h hv
    | enum vs =>
      show (if vs.count = 0 then {} else _ : EncodeImpl α).toEncode.Extends
        (if vs.count = 0 then {} else _ : EncodeImpl α).toEncode
      split_ifs
      · exact fun v bs hv => hv
      · exact fun v bs hv => encodeVariants_extends henc henc' h hv

end Declarations

namespace TypeDefs

variable {ι : Type} {ν : ι → Type} {P P' : Platform ν} {Δ : TypeDefs ν} {m n : ℕ}

/-- One call of a named type, given the calls it makes. -/
theorem encodeNamed_extends_succ (h : ∀ i, (Δ.encodeNamed P' m i).Extends (Δ.encodeNamed P n i))
    (i : ι) : (Δ.encodeNamed P' (m + 1) i).Extends (Δ.encodeNamed P (n + 1) i) := by
  intro v bs hv
  have hfields : ∀ {σ : Type} (t : Ty ν σ), (Δ.encode P' m t).Extends (Δ.encode P n t) :=
    Ty.encode_extends (encodeNamed_lawful n) (encodeNamed_lawful m) h
  have hdata := Data.encodeImpl_extends (encode_lawful n) (encode_lawful m) hfields (Δ i).data
  exact EncodeImpl.encodes_comap.mpr (hdata (EncodeImpl.encodes_comap.mp hv))

theorem encodeNamed_succ_extends (n : ℕ) (i : ι) :
    (Δ.encodeNamed P (n + 1) i).Extends (Δ.encodeNamed P n i) := by
  induction n generalizing i with
  | zero =>
    intro v bs hv
    cases hv
  | succ n ih => exact encodeNamed_extends_succ ih i

theorem encodes_mono (h : m ≤ n) {t : Ty ν α} {v : α} {bs : List Byte}
    (hv : Encodes (Δ.encode P m t) v bs) :
    Encodes (Δ.encode P n t) v bs := by
  induction n, h using Nat.le_induction with
  | base => exact hv
  | succ n _ ih =>
    exact Ty.encode_extends (encodeNamed_lawful n) (encodeNamed_lawful (n + 1))
      (encodeNamed_succ_extends n) t ih

/-- `v.encode()` returns `bs`. -/
def EncodesAs (P : Platform ν) (Δ : TypeDefs ν) (t : Ty ν α) (v : α) (bs : List Byte) : Prop :=
  ∃ n, Encodes (Δ.encode P n t) v bs

theorem EncodesAs.unique {t : Ty ν α} {v : α} {b c : List Byte} (hb : Δ.EncodesAs P t v b)
    (hc : Δ.EncodesAs P t v c) : b = c := by
  obtain ⟨m, hb⟩ := hb
  obtain ⟨n, hc⟩ := hc
  exact (encodes_mono (le_max_left m n) hb).unique (encodes_mono (le_max_right m n) hc)

end TypeDefs

end ScaleCodec
