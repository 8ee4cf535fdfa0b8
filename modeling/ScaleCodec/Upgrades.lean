import ScaleCodec.Declared

/-!
# Declarations that grow

Two programs may exchange values of an enum of which one of them knows more variants. The variants
the other does not know are those it skips, so that both have the same values : a declaration grows
when variants are no longer skipped (`DeriveInput.Grows`). The others have to keep their index
bytes, which without `#[codec(index)]` or a discriminant are their positions among the variants that
are not skipped, and the bytes of the new ones have to be new.

The newer program then decodes what the older one does, to the same value, however deep the enum
lies in other types. The older one decodes what the newer one does to the same value or refuses it,
and never takes it for another value (`TypeDefs.upgrade`).
-/

universe u

namespace ScaleCodec

variable {ι : Type} {ν : ι → Type} {α β : Type}

/-! ## Accepting as much -/

/-- On the slice `s`, `p` returns an error. -/
def Fails (p : DecodeM α) (s : List Byte) : Prop :=
  FailsFrom (fun _ => True) p s

/-- What `p` accepts `q` accepts, with the same value. What `q` accepts `p` accepts too, with the
same value, or refuses. -/
structure Accepts (p q : DecodeM α) : Prop where
  accepted : ∀ s a s', Decodes p s a s' → Decodes q s a s'
  acceptedOrRefused : ∀ s a s', Decodes q s a s' → Decodes p s a s' ∨ Fails p s

namespace Accepts

variable {p q : DecodeM α}

protected theorem refl (p : DecodeM α) : Accepts p p :=
  ⟨fun _ _ _ h => h, fun _ _ _ h => Or.inl h⟩

theorem of_fails (h : ∀ s, Fails p s) : Accepts p q :=
  ⟨fun s _ _ hdec => absurd hdec (h s).not_decodes, fun s _ _ _ => Or.inr (h s)⟩

/-- Of decoders that accept what `p` and `q` do, and refuse what `p` does. -/
theorem congr {p' q' : DecodeM α} (h : Accepts p q)
    (hp : ∀ {s a s'}, Decodes p' s a s' ↔ Decodes p s a s')
    (hq : ∀ {s a s'}, Decodes q' s a s' ↔ Decodes q s a s')
    (hfails : ∀ {s}, Fails p s → Fails p' s) : Accepts p' q' :=
  ⟨fun s a s' hdec => hq.mpr (h.accepted s a s' (hp.mp hdec)), fun s a s' hdec =>
    (h.acceptedOrRefused s a s' (hq.mp hdec)).imp hp.mpr hfails⟩

theorem bind_of_yields {f g : α → DecodeM β} {Q : α → Prop} (hp : Accepts p q) (hQ : Yields Q q)
    (hf : ∀ a, Q a → Accepts (f a) (g a)) : Accepts (p >>= f) (q >>= g) := by
  refine ⟨fun s b s' h => ?_, fun s b s' h => ?_⟩
  · obtain ⟨a, t, ha, hb⟩ := decodes_bind.mp h
    have ha' := hp.accepted s a t ha
    exact decodes_bind.mpr ⟨a, t, ha', (hf a (hQ.of_run ha')).accepted t b s' hb⟩
  · obtain ⟨a, t, ha', hb⟩ := decodes_bind.mp h
    rcases hp.acceptedOrRefused s a t ha' with ha | hrefused
    · rcases (hf a (hQ.of_run ha')).acceptedOrRefused t b s' hb with hb | hrefused
      · exact Or.inl (decodes_bind.mpr ⟨a, t, ha, hb⟩)
      · exact Or.inr (.of_decodes ha hrefused)
    · exact Or.inr (.bind hrefused)

theorem after {r : DecodeM β} (hp : Accepts p q) :
    Accepts (r >>= fun _ => p) (r >>= fun _ => q) :=
  (Accepts.refl r).bind_of_yields yields_true fun _ _ => hp

end Accepts

/-- The logic of accepting as much. -/
def accepting : DecoderLogic where
  toDiscipline := .anyDepth fun _ => True
  Rel _ _ p q := Accepts p q
  rel_pure _ := .refl _
  rel_throw _ := .refl _
  rel_halt _ := .refl _
  rel_bind_of_yields := Accepts.bind_of_yields
  rel_read _ := .refl _
  rel_readByte := .refl _
  rel_chainErr hp := hp.congr decodes_chainErr decodes_chainErr FailsFrom.chainErr
  rel_nested hp := (hp trivial).congr decodes_nested decodes_nested FailsFrom.nested
  rel_nestedAlloc hp :=
    (hp trivial).congr decodes_nestedAlloc decodes_nestedAlloc FailsFrom.nestedAlloc
  rel_claim _ hp := hp.after.after
  rel_checkRemaining _ hp := hp.after

/-! ## Variants -/

section Variants

variable {F : Type → Type u} {T : Type} {dec dec' : ∀ {σ : Type}, F σ → Decode σ}

/-- The second list has the variants of the first, the first of which is the `i`-th that is not
skipped, and more : it no longer skips some. -/
inductive VariantList.Grows : ∀ {α : Type}, VariantList F α → ℕ → VariantList F α → ℕ → Prop where
  | nil {i i' : ℕ} : Grows .nil i .nil i'
  | kept {α β : Type} {v v' : Variant F α} {vs vs' : VariantList F β} {i i' : ℕ}
    (hskip : v.skip = false) (hskip' : v'.skip = false) (hident : v'.ident = v.ident)
    (hfields : v'.fields = v.fields) (hbyte : v'.indexByte i' = v.indexByte i)
    (h : Grows vs (i + 1) vs' (i' + 1)) : Grows (.cons v vs) i (.cons v' vs') i'
  | added {α β : Type} {v v' : Variant F α} {vs vs' : VariantList F β} {i i' : ℕ}
    (hskip : v.skip = true) (hskip' : v'.skip = false) (h : Grows vs i vs' (i' + 1)) :
    Grows (.cons v vs) i (.cons v' vs') i'
  | skipped {α β : Type} {v v' : Variant F α} {vs vs' : VariantList F β} {i i' : ℕ}
    (hskip : v.skip = true) (hskip' : v'.skip = true) (h : Grows vs i vs' i') :
    Grows (.cons v vs) i (.cons v' vs') i'

theorem VariantList.Grows.indexBytes_subset {α : Type} {vs vs' : VariantList F α} {i i' : ℕ}
    (h : vs.Grows i vs' i') : vs.indexBytes i ⊆ vs'.indexBytes i' := by
  induction h with
  | nil => exact List.Subset.refl _
  | kept hskip hskip' _ _ hbyte _ ih =>
    simp only [VariantList.indexBytes, hskip, hskip', hbyte]
    exact List.cons_subset_cons _ ih
  | added hskip hskip' _ ih =>
    simp only [VariantList.indexBytes, hskip, hskip']
    exact List.subset_cons_of_subset _ ih
  | skipped hskip hskip' _ ih =>
    simp only [VariantList.indexBytes, hskip, hskip']
    exact ih

/-- A byte that is the index byte of no variant is refused. -/
theorem decodeVariants_fails {typeName : String} {α : Type} {vs : VariantList F α} {i : ℕ}
    {x : Byte} (hx : x ∉ vs.indexBytes i) (s : List Byte) :
    Fails (decodeVariants dec typeName vs i x) s := by
  induction vs generalizing i with
  | nil => exact failsFrom_err trivial
  | cons v vs ih =>
    rw [VariantList.indexBytes] at hx
    rw [decodeVariants]
    cases hskip : v.skip with
    | true =>
      rw [hskip, if_pos rfl] at hx
      exact FailsFrom.map (ih hx)
    | false =>
      rw [hskip, if_neg Bool.false_ne_true] at hx
      have hne : x ≠ v.indexByte i := List.ne_of_not_mem_cons hx
      rw [if_neg Bool.false_ne_true, if_neg hne]
      exact FailsFrom.map (ih (List.not_mem_of_not_mem_cons hx))

theorem decodeVariants_grows {typeName : String} {d : ℕ} {α : Type} {vs vs' : VariantList F α}
    {i i' : ℕ} (h : vs.Grows i vs' i') (hnd : (vs'.indexBytes i').Nodup)
    (hfields : vs.Forall (EncodeAs.Rel dec dec' accepting d)) (x : Byte) :
    accepting.Rel d (decodeVariants dec typeName vs i x)
      (decodeVariants dec' typeName vs' i' x) := by
  let L : ReadLogic := accepting
  induction h with
  | nil => exact Accepts.of_fails fun _ => failsFrom_err trivial
  | kept hskip hskip' hident hfieldsEq hbyte _ ih =>
    simp only [VariantList.indexBytes, hskip'] at hnd
    rw [decodeVariants, decodeVariants, hskip, hskip', if_neg Bool.false_ne_true,
      if_neg Bool.false_ne_true, hident, hfieldsEq, hbyte]
    have hrest := ih (List.nodup_cons.mp hnd).2 hfields.2
    exact L.rel_ite (d := d) (fun _ => L.rel_map (d := d) (createInstance_rel (hfields.1 hskip)))
      fun _ => L.rel_map (d := d) hrest
  | @added _ _ _ v' _ _ _ i' hskip hskip' h ih =>
    simp only [VariantList.indexBytes, hskip'] at hnd
    obtain ⟨hnew, hnd⟩ := List.nodup_cons.mp hnd
    rw [decodeVariants, decodeVariants, hskip, hskip', if_pos rfl, if_neg Bool.false_ne_true]
    by_cases hx : x = v'.indexByte i'
    · -- the older decoder refuses the byte of the new variant
      have hold : x ∉ _ := fun hmem => hnew (hx ▸ h.indexBytes_subset hmem)
      exact Accepts.of_fails fun s => FailsFrom.map (decodeVariants_fails hold s)
    · rw [if_neg hx]
      exact L.rel_map (d := d) (ih hnd hfields.2)
  | skipped hskip hskip' _ ih =>
    simp only [VariantList.indexBytes, hskip'] at hnd
    rw [decodeVariants, decodeVariants, hskip, hskip', if_pos rfl, if_pos rfl]
    exact L.rel_map (d := d) (ih hnd hfields.2)

/-- The declaration stays as it is, or is an enum that grows. -/
def DeriveInput.Grows (di di' : DeriveInput F T) : Prop :=
  di' = di ∨ ∃ vs vs', di.data = .enum vs ∧ di' = { di with data := .enum vs' } ∧ vs.Grows 0 vs' 0

theorem DeriveInput.decodeImpl_grows {di : DeriveInput F T} {vs vs' : VariantList F di.Rep}
    {size d : ℕ} (hdata : di.data = .enum vs) (h : vs.Grows 0 vs' 0)
    (hnd : (vs'.indexBytes 0).Nodup)
    (hfields : di.data.Forall (EncodeAs.Rel dec dec' accepting d)) :
    (di.decodeImpl dec size).Rel accepting d
      ({ di with data := .enum vs' }.decodeImpl dec' size) := by
  let L : ReadLogic := accepting
  have henum : di.data.plainFields = none := by
    rw [hdata]
    rfl
  have hdecode : L.Rel d (di.data.decode dec di.ident)
      ((Data.enum vs').decode dec' di.ident) := by
    rw [hdata] at hfields ⊢
    exact L.rel_bind (L.rel_chainErr L.rel_readByte) (decodeVariants_grows h hnd hfields)
  exact DeriveInput.decodeImpl_rel_of_enum henum rfl (L.rel_map hdecode)

end Variants

/-! ## Systems of declarations -/

namespace TypeDefs

variable {P : Platform ν} {Δ Δ' : TypeDefs ν} {internal : DecodeM (List Prim.u8.Val)} {t : Ty ν α}
  {n : ℕ}

/-- Some of the declarations grow, and no two variants share an index byte then. -/
structure Grows (Δ Δ' : TypeDefs ν) : Prop where
  grows : ∀ i, (Δ i).Grows (Δ' i)
  indices : ∀ i, (Δ' i).data.DistinctIndices

theorem sameShape_named (n : ℕ) (i : ι) :
    (Δ.decodeNamedWith P internal n i).SameShape (Δ'.decodeNamedWith P internal n i) := by
  cases n with
  | zero => exact ⟨rfl, rfl, rfl⟩
  | succ n => exact ⟨rfl, rfl, rfl⟩

theorem decodeNamedWith_accepts (hinternal : ∀ d, accepting.Rel d internal internal)
    (hΔ : Δ.Compiles P) (hgrows : Δ.Grows Δ') (n d : ℕ) (i : ι) :
    (Δ.decodeNamedWith P internal n i).Rel accepting d (Δ'.decodeNamedWith P internal n i) := by
  induction n generalizing d i with
  | zero => exact Decode.rel_ofDecode (accepting.rel_halt trivial)
  | succ n ih =>
    have hsize : ∀ {Δ : TypeDefs ν} {σ : Type} (t : Ty ν σ),
        (t.decodeWith P internal (Δ.decodeNamedWith P internal n)).size = P.size t :=
      Ty.size_decodeWith size_decodeNamedWith
    have hfields : ∀ x ∈ (Δ i).data.encodings,
        (x.2.asTy.decodeWith P internal (Δ.decodeNamedWith P internal n)).Rel accepting d
          (x.2.asTy.decodeWith P internal (Δ'.decodeNamedWith P internal n)) := fun x hx =>
      Ty.decodeWith_rel hinternal size_decodeNamedWith (sameShape_named n)
        (Data.forall_iff.mp (hΔ.fields i) x hx) (x.2.asTy.errorsIn_of_forall fun _ => trivial)
        ⟨fun j _ => ih d j, fun j _ d' _ _ => ih d' j⟩
    rcases hgrows.grows i with hsame | ⟨vs, vs', hdata, hgrown, hvs⟩
    · rw [decodeNamedWith, decodeNamedWith, hsame]
      refine DeriveInput.decodeImpl_rel ?_ ?_ (Data.forall_iff.mpr hfields)
      · simp only [hsize]
        exact hΔ.layout i
      · exact fun t => (hsize t).trans (hsize t).symm
    · rw [decodeNamedWith, decodeNamedWith, hgrown]
      have hindices := hgrows.indices i
      rw [hgrown] at hindices
      exact DeriveInput.decodeImpl_grows hdata hvs hindices (Data.forall_iff.mpr hfields)

theorem decode_accepts (hΔ : Δ.Compiles P) (hgrows : Δ.Grows Δ') (hc : t.Compiles P) (n : ℕ) :
    Accepts (Δ.decode P n t).decode (Δ'.decode P n t).decode :=
  (Ty.decodeWith_rel (L := accepting) (d := 0) decodeBytes_rel size_decodeNamedWith
    (sameShape_named n) hc (t.errorsIn_of_forall fun _ => trivial)
    ⟨fun i _ => decodeNamedWith_accepts decodeBytes_rel hΔ hgrows n 0 i,
      fun i _ d _ _ => decodeNamedWith_accepts decodeBytes_rel hΔ hgrows n d i⟩).decode

/-- The newer program decodes what the older one does, to the same value. What the newer one
decodes the older one decodes to the same value too, or refuses. -/
theorem upgrade (hΔ : Δ.Compiles P) (hgrows : Δ.Grows Δ') (hc : t.Compiles P) (s : List Byte)
    (v : α) (rest : List Byte) :
    (Δ.DecodesAs P t s v rest → Δ'.DecodesAs P t s v rest) ∧
    (Δ'.DecodesAs P t s v rest → Δ.DecodesAs P t s v rest ∨ Δ.FailsOn P t s) := by
  refine ⟨?_, ?_⟩
  · rintro ⟨n, h⟩
    exact ⟨n, (decode_accepts hΔ hgrows hc n).accepted s v rest h⟩
  · rintro ⟨n, h⟩
    rcases (decode_accepts hΔ hgrows hc n).acceptedOrRefused s v rest h with h | ⟨e, s', h, -⟩
    · exact Or.inl ⟨n, h⟩
    · exact Or.inr ⟨n, e, s', h⟩

end TypeDefs

/-- `enum Signal { Set(u8), Clear }`, where `Clear` may be skipped. -/
def signalDefs (skipClear : Bool) : TypeDefs fun _ : Unit => Prim.u8.Val × Unit ⊕ Unit ⊕ Empty :=
  fun _ =>
    { ident := "Signal"
      data := .enum
        (.cons
          { ident := "Set"
            fields := .unnamed (.cons { ident := none, ty := .prim .u8 } .nil) }
          (.cons { ident := "Clear", fields := .unit, skip := skipClear } .nil))
      repr := Equiv.refl _ }

theorem signalDefs_compiles (b : Bool) : (signalDefs b).Compiles (Platform.unpadded _) where
  check _ := by cases b <;> rfl
  fields _ := ⟨fun _ => ⟨trivial, trivial⟩, fun _ => trivial, trivial⟩
  layout _ h := nomatch h

theorem signalDefs_grows : (signalDefs true).Grows (signalDefs false) where
  grows _ := Or.inr ⟨_, _, rfl, rfl, .kept rfl rfl rfl rfl rfl (.added rfl rfl .nil)⟩
  indices _ := show ([0, 1] : List Byte).Nodup by decide

/-- A vector with a `Set`, which both programs decode, and one with a `Clear`, which the program
that skips it refuses. -/
theorem TypeDefs.upgrade_signal :
    let P := Platform.unpadded fun _ : Unit => Prim.u8.Val × Unit ⊕ Unit ⊕ Empty
    let t : Ty (fun _ : Unit => Prim.u8.Val × Unit ⊕ Unit ⊕ Empty) _ := .vec (.named ())
    (signalDefs true).DecodesAs P t [4, 0, 7] [.inl (7, ())] [] ∧
      (signalDefs false).DecodesAs P t [4, 0, 7] [.inl (7, ())] [] ∧
      (signalDefs false).DecodesAs P t [4, 1] [.inr (.inl ())] [] ∧
      (signalDefs true).FailsOn P t [4, 1] := by
  intro P t
  have ht : t.Compiles P := ⟨by decide, trivial⟩
  have hupgrade := TypeDefs.upgrade (signalDefs_compiles true) signalDefs_grows ht
  have hset : (signalDefs true).DecodesAs P t [4, 0, 7] [.inl (7, ())] [] := ⟨1, rfl⟩
  have hclear : (signalDefs false).DecodesAs P t [4, 1] [.inr (.inl ())] [] := ⟨1, rfl⟩
  have hnot : ¬(signalDefs true).DecodesAs P t [4, 1] [.inr (.inl ())] [] := by
    rintro ⟨n, h⟩
    cases n with
    | zero => cases h
    | succ n => cases h
  exact ⟨hset, (hupgrade _ _ _).1 hset, hclear, ((hupgrade _ _ _).2 hclear).resolve_left hnot⟩

end ScaleCodec
