import ScaleCodec.Canonical
import ScaleCodec.Derive

/-!
# Derived codecs round-trip

Encoder and decoder of a declaration are generated apart. They agree on the order of the fields,
on which fields and variants are left out and on the index bytes, so a derived type round-trips up
to the defaults of its skipped fields (`Data.roundTrips`) and decodes canonically
(`Data.canonical`), if its fields do. Round trips of an enum ask that no two variants share an
index byte, canonicity does not.
-/

universe u

namespace ScaleCodec

variable {F : Type → Type u} {α β T : Type}

/-! ## What is asked of the fields -/

/-- The encoding of `a` as `RefType` decodes to a value that converts back to `a`. -/
def EncodeAs.RoundTrips (enc : ∀ {σ : Type}, F σ → Encode σ) (dec : ∀ {σ : Type}, F σ → Decode σ)
    (as : EncodeAs F α) (a : α) : Prop :=
  ∃ bs, Encodes (enc as.refTy) (as.fromRef a) bs ∧
    ∀ rest, ∃ y, Decodes (dec as.asTy).decode (bs ++ rest) y rest ∧ as.into y = a

/-- Every decoded value is encoded, once converted there and back, as the bytes it is decoded
from. -/
def EncodeAs.Canonical (enc : ∀ {σ : Type}, F σ → Encode σ) (dec : ∀ {σ : Type}, F σ → Decode σ)
    (as : EncodeAs F α) : Prop :=
  ∀ s y s', Decodes (dec as.asTy).decode s y s' →
    ∃ bs, Encodes (enc as.refTy) (as.fromRef (as.into y)) bs ∧ s = bs ++ s'

/-! ## Fields -/

section Fields

variable {enc : ∀ {σ : Type}, F σ → Encode σ} {dec : ∀ {σ : Type}, F σ → Decode σ}

/-- An encoded field round-trips and a skipped field is set to its default. -/
theorem roundTrips_field {f : Field F α} {a : α}
    (hlaw : f.encoding.elim (EncodeAs.Lawful enc) fun _ => True)
    (h : f.encoding.elim (EncodeAs.RoundTrips enc dec · a) fun _ => True) :
    ∃ bs, Writes (encodeField enc f a) bs ∧ ∀ name rest,
      Decodes (decodeField dec name f) (bs ++ rest) (f.encoding.elim (fun _ => a) id) rest := by
  simp only [encodeField_eq, decodeField_eq]
  cases hf : f.encoding with
  | inl as =>
    rw [hf] at hlaw h
    obtain ⟨bs, henc, hdec⟩ := h
    refine ⟨bs, hlaw.writes.mpr henc, fun name rest => ?_⟩
    obtain ⟨y, hy, ha⟩ := hdec rest
    exact decodes_map.mpr ⟨y, decodes_chainErr.mpr hy, ha.symm⟩
  | inr d => exact ⟨[], writes_ok.mpr rfl, fun name rest => decodes_pure.mpr ⟨rfl, rfl⟩⟩

theorem canonical_field {f : Field F α}
    (hlaw : f.encoding.elim (EncodeAs.Lawful enc) fun _ => True)
    (h : f.encoding.elim (EncodeAs.Canonical enc dec) fun _ => True) {name : String} {a : α}
    {s s' : List Byte} (hdec : Decodes (decodeField dec name f) s a s') :
    ∃ bs, Writes (encodeField enc f a) bs ∧ s = bs ++ s' := by
  rw [encodeField_eq]
  rw [decodeField_eq] at hdec
  cases hf : f.encoding with
  | inl as =>
    rw [hf] at hlaw h hdec
    obtain ⟨y, hy, rfl⟩ := decodes_map.mp hdec
    obtain ⟨bs, henc, rfl⟩ := h _ _ _ (decodes_chainErr.mp hy)
    exact ⟨bs, hlaw.writes.mpr henc, rfl⟩
  | inr d =>
    rw [hf] at hdec
    obtain ⟨-, rfl⟩ := decodes_pure.mp hdec
    exact ⟨[], writes_ok.mpr rfl, rfl⟩

theorem decodes_decodeFields_cons {fieldName : ℕ → Option String → String} {f : Field F α}
    {fs : FieldList F β} {i : ℕ} {a : α} {as : β} {s s' : List Byte} :
    Decodes (decodeFields dec fieldName (.cons f fs) i) s (a, as) s' ↔
      ∃ t, Decodes (decodeField dec (fieldName i f.ident) f) s a t ∧
        Decodes (decodeFields dec fieldName fs (i + 1)) t as s' := by
  simp only [decodeFields, decodes_bind, decodes_pure, Prod.mk.injEq]
  constructor
  · rintro ⟨_, t, ha, _, _, has, ⟨rfl, rfl⟩, rfl⟩
    exact ⟨t, ha, has⟩
  · rintro ⟨t, ha, has⟩
    exact ⟨a, t, ha, as, s', has, ⟨rfl, rfl⟩, rfl⟩

/-- The fields round-trip together, in order. -/
theorem roundTrips_fields : ∀ {α : Type} {fs : FieldList F α} {v : α},
    fs.Forall (EncodeAs.Lawful enc) → fs.ForallAt (EncodeAs.RoundTrips enc dec) v →
    ∃ bs, Writes (encodeFields enc fs v) bs ∧ ∀ fieldName i rest,
      Decodes (decodeFields dec fieldName fs i) (bs ++ rest) (fs.defaulted v) rest
  | _, .nil, _, _, _ => ⟨[], writes_ok.mpr rfl, fun _ _ _ => decodes_pure.mpr ⟨rfl, rfl⟩⟩
  | _, .cons f fs, (a, as), hlaw, h => by
    obtain ⟨b, hb, hdecb⟩ := roundTrips_field hlaw.1 h.1
    obtain ⟨c, hc, hdecc⟩ := roundTrips_fields hlaw.2 h.2
    refine ⟨b ++ c, writes_writeThen.mpr ⟨b, c, hb, hc, rfl⟩, fun fieldName i rest => ?_⟩
    rw [List.append_assoc]
    exact decodes_decodeFields_cons.mpr ⟨_, hdecb _ _, hdecc _ _ _⟩

/-- The fields decode canonically together. -/
theorem canonical_fields {fieldName : ℕ → Option String → String} :
    ∀ {α : Type} {fs : FieldList F α} {i : ℕ} {v : α} {s s' : List Byte},
      fs.Forall (EncodeAs.Lawful enc) → fs.Forall (EncodeAs.Canonical enc dec) →
      Decodes (decodeFields dec fieldName fs i) s v s' →
      ∃ bs, Writes (encodeFields enc fs v) bs ∧ s = bs ++ s'
  | _, .nil, _, _, _, _, _, _, hdec => by
    obtain ⟨-, rfl⟩ := decodes_pure.mp hdec
    exact ⟨[], writes_ok.mpr rfl, rfl⟩
  | _, .cons f fs, _, (a, as), _, _, hlaw, h, hdec => by
    obtain ⟨t, ha, has⟩ := decodes_decodeFields_cons.mp hdec
    obtain ⟨b, hb, rfl⟩ := canonical_field hlaw.1 h.1 ha
    obtain ⟨c, hc, rfl⟩ := canonical_fields hlaw.2 h.2 has
    exact ⟨b ++ c, writes_writeThen.mpr ⟨b, c, hb, hc, rfl⟩, (List.append_assoc _ _ _).symm⟩

end Fields

/-! ## Variants -/

section Variants

variable {enc : ∀ {σ : Type}, F σ → Encode σ} {dec : ∀ {σ : Type}, F σ → Decode σ}
  {typeName : String}

/-- A variant that is not skipped starts with its index byte, and the arm for this byte decodes
it. -/
theorem roundTrips_variants : ∀ {α : Type} {vs : VariantList F α} {i : ℕ} {v : α},
    (vs.indexBytes i).Nodup → vs.Forall (EncodeAs.Lawful enc) →
    vs.ForallAt (EncodeAs.RoundTrips enc dec) v → ¬vs.Skipped v →
    ∃ b ∈ vs.indexBytes i, ∃ bs, Writes (encodeVariants enc vs i v) (b :: bs) ∧
      ∀ rest, Decodes (decodeVariants dec typeName vs i b) (bs ++ rest) (vs.defaulted v) rest
  | _, .cons v vs, i, .inl a, _, hlaw, h, hskip => by
    have hv : v.skip = false := Bool.not_eq_true _ ▸ hskip
    obtain ⟨bs, hbs, hdec⟩ := roundTrips_fields (hlaw.1 hv) h
    obtain ⟨fieldName, hname⟩ :=
      exists_createInstance_eq (typeName ++ "::" ++ v.ident) v.fields
    refine ⟨v.indexByte i, ?_, bs, ?_, fun rest => ?_⟩
    · simp [VariantList.indexBytes, hv]
    · rw [encodeVariants, hv, if_neg Bool.false_ne_true, writes_writeThen]
      exact ⟨[v.indexByte i], bs, writes_ok.mpr (by simp), hbs, rfl⟩
    · rw [decodeVariants, hv, if_neg Bool.false_ne_true, if_pos rfl, hname]
      exact decodes_map.mpr ⟨_, hdec _ _ _, rfl⟩
  | _, .cons v vs, i, .inr b, hnd, hlaw, h, hskip => by
    rw [VariantList.indexBytes] at hnd
    cases hv : v.skip with
    | true =>
      rw [hv, if_pos rfl] at hnd
      obtain ⟨x, hx, bs, hbs, hdec⟩ := roundTrips_variants hnd hlaw.2 h hskip
      refine ⟨x, ?_, bs, ?_, fun rest => ?_⟩
      · rwa [VariantList.indexBytes, hv, if_pos rfl]
      · rwa [encodeVariants, hv, if_pos rfl]
      · rw [decodeVariants, hv, if_pos rfl]
        exact decodes_map.mpr ⟨_, hdec rest, rfl⟩
    | false =>
      rw [hv, if_neg Bool.false_ne_true, List.nodup_cons] at hnd
      obtain ⟨x, hx, bs, hbs, hdec⟩ := roundTrips_variants hnd.2 hlaw.2 h hskip
      have hne : x ≠ v.indexByte i := fun h => hnd.1 (h ▸ hx)
      refine ⟨x, ?_, bs, ?_, fun rest => ?_⟩
      · rw [VariantList.indexBytes, hv, if_neg Bool.false_ne_true]
        exact List.mem_cons_of_mem _ hx
      · rwa [encodeVariants, hv, if_neg Bool.false_ne_true]
      · rw [decodeVariants, hv, if_neg Bool.false_ne_true, if_neg hne]
        exact decodes_map.mpr ⟨_, hdec rest, rfl⟩

/-- What is decoded after a variant byte is encoded with this byte. -/
theorem canonical_variants : ∀ {α : Type} {vs : VariantList F α} {i : ℕ} {x : Byte} {v : α}
    {s s' : List Byte},
    vs.Forall (EncodeAs.Lawful enc) → vs.Forall (EncodeAs.Canonical enc dec) →
    Decodes (decodeVariants dec typeName vs i x) s v s' →
    ∃ bs, Writes (encodeVariants enc vs i v) (x :: bs) ∧ s = bs ++ s'
  | _, .nil, _, _, _, _, _, _, _, hdec => (not_decodes_err hdec).elim
  | _, .cons v vs, i, x, a, _, _, hlaw, h, hdec => by
    rw [decodeVariants] at hdec
    cases hv : v.skip with
    | true =>
      rw [hv, if_pos rfl] at hdec
      obtain ⟨b, hb, rfl⟩ := decodes_map.mp hdec
      rw [encodeVariants, hv, if_pos rfl]
      exact canonical_variants hlaw.2 h.2 hb
    | false =>
      rw [hv, if_neg Bool.false_ne_true] at hdec
      split_ifs at hdec with hx
      · obtain ⟨fieldName, hname⟩ :=
          exists_createInstance_eq (typeName ++ "::" ++ v.ident) v.fields
        rw [hname] at hdec
        obtain ⟨b, hb, rfl⟩ := decodes_map.mp hdec
        obtain ⟨bs, hbs, rfl⟩ := canonical_fields (hlaw.1 hv) (h.1 hv) hb
        refine ⟨bs, ?_, rfl⟩
        rw [encodeVariants, hv, if_neg Bool.false_ne_true, writes_writeThen, hx]
        exact ⟨[v.indexByte i], bs, writes_ok.mpr (by simp), hbs, rfl⟩
      · obtain ⟨b, hb, rfl⟩ := decodes_map.mp hdec
        rw [encodeVariants, hv, if_neg Bool.false_ne_true]
        exact canonical_variants hlaw.2 h.2 hb

/-- A byte that is no index byte is refused. -/
theorem decodeVariants_unknown : ∀ {α : Type} {vs : VariantList F α} {i : ℕ} {x : Byte},
    x ∉ vs.indexBytes i → ∀ s, runSlice (decodeVariants dec typeName vs i x) s =
      .ok (.error (.desc ("Could not decode `" ++ typeName ++ "`, variant doesn't exist")), s)
  | _, .nil, _, _, _, _ => rfl
  | _, .cons v vs, i, x, hx, s => by
    rw [VariantList.indexBytes] at hx
    rw [decodeVariants]
    cases hv : v.skip with
    | true =>
      rw [hv, if_pos rfl] at hx
      rw [if_pos rfl, map_eq_pure_bind, runSlice_bind, decodeVariants_unknown hx]
      rfl
    | false =>
      rw [hv, if_neg Bool.false_ne_true, List.mem_cons, not_or] at hx
      rw [if_neg Bool.false_ne_true, if_neg hx.1, map_eq_pure_bind, runSlice_bind,
        decodeVariants_unknown hx.2]
      rfl

theorem length_indexBytes : ∀ {α : Type} (vs : VariantList F α) (i : ℕ),
    (vs.indexBytes i).length = vs.count
  | _, .nil, _ => rfl
  | _, .cons v vs, i => by
    rw [VariantList.indexBytes, VariantList.count]
    split_ifs
    · exact length_indexBytes vs i
    · rw [List.length_cons, length_indexBytes vs (i + 1)]

theorem count_ne_zero_of_mem {vs : VariantList F α} {i : ℕ} {b : Byte} (h : b ∈ vs.indexBytes i) :
    vs.count ≠ 0 := by
  rw [← length_indexBytes vs i]
  exact (List.length_pos_of_mem h).ne'

end Variants

/-! ## Declarations -/

section Declarations

variable {enc : ∀ {σ : Type}, F σ → Encode σ} {dec : ∀ {σ : Type}, F σ → Decode σ}
  {typeName : String} {data : Data F α}

/-- The input starts with a byte that is the index byte of no variant. -/
def Data.UnknownByte : Data F α → Byte → Prop
  | struct _ => fun _ => False
  | enum vs => (· ∉ vs.indexBytes 0)

theorem Data.roundTrips (hc : data.decodeCheck = .ok ()) (hd : data.DistinctIndices)
    (hlaw : data.Forall (EncodeAs.Lawful enc)) {v : α} (hskip : ¬data.Skipped v)
    (h : data.ForallAt (EncodeAs.RoundTrips enc dec) v) :
    ∃ bs, Encodes (data.encodeImpl enc).toEncode v bs ∧
      ∀ rest, Decodes (data.decode dec typeName) (bs ++ rest) (data.defaulted v) rest := by
  cases data with
  | struct fields =>
    obtain ⟨bs, hbs, hdec⟩ := roundTrips_fields hlaw h
    obtain ⟨fieldName, hname⟩ := exists_createInstance_eq typeName fields
    refine ⟨bs, ((Data.encodes_struct hc hlaw).2 v bs).mpr hbs, fun rest => ?_⟩
    rw [Data.decode, hname]
    exact hdec fieldName 0 rest
  | enum vs =>
    obtain ⟨b, hb, bs, hbs, hdec⟩ := roundTrips_variants hd hlaw h hskip
    refine ⟨b :: bs, ((Data.encodes_enum (count_ne_zero_of_mem hb)).2 v _).mpr hbs, fun rest => ?_⟩
    exact decodes_bind.mpr
      ⟨b, bs ++ rest, decodes_chainErr.mpr (decodes_readByte.mpr rfl), hdec rest⟩

theorem Data.runSlice_unknownByte {b : Byte} (hb : data.UnknownByte b) (s : List Byte) :
    runSlice (data.decode dec typeName) (b :: s) =
      .ok (.error (.desc ("Could not decode `" ++ typeName ++ "`, variant doesn't exist")), s) := by
  cases data with
  | struct fields => exact hb.elim
  | enum vs =>
    have hread : Decodes (DecodeM.readByte.chainErr
        ("Could not decode `" ++ typeName ++ "`, failed to read variant byte")) (b :: s) b s :=
      decodes_chainErr.mpr (decodes_readByte.mpr rfl)
    rw [Data.decode, runSlice_bind, hread]
    exact decodeVariants_unknown hb s

theorem Data.canonical (hc : data.decodeCheck = .ok ())
    (hlaw : data.Forall (EncodeAs.Lawful enc)) (h : data.Forall (EncodeAs.Canonical enc dec))
    {s s' : List Byte} {v : α} (hdec : Decodes (data.decode dec typeName) s v s') :
    ∃ bs, Encodes (data.encodeImpl enc).toEncode v bs ∧ s = bs ++ s' := by
  cases data with
  | struct fields =>
    obtain ⟨fieldName, hname⟩ := exists_createInstance_eq typeName fields
    rw [Data.decode, hname] at hdec
    obtain ⟨bs, hbs, rfl⟩ := canonical_fields hlaw h hdec
    exact ⟨bs, ((Data.encodes_struct hc hlaw).2 v bs).mpr hbs, rfl⟩
  | enum vs =>
    by_cases hx : ∃ b t, s = b :: t ∧ (Data.enum vs).UnknownByte b
    · obtain ⟨b, t, rfl, hb⟩ := hx
      rw [Decodes, Data.runSlice_unknownByte hb] at hdec
      cases hdec
    · obtain ⟨b, t, hb, hv⟩ := decodes_bind.mp hdec
      obtain rfl := decodes_readByte.mp (decodes_chainErr.mp hb)
      have hcount : vs.count ≠ 0 := count_ne_zero_of_mem (not_not.mp fun h => hx ⟨b, t, rfl, h⟩)
      obtain ⟨bs, hbs, rfl⟩ := canonical_variants hlaw h hv
      exact ⟨b :: bs, ((Data.encodes_enum hcount).2 v _).mpr hbs, rfl⟩

end Declarations

/-- `enum Message { #[codec(index = 5)] Ping(u8, #[codec(skip)] u16), #[codec(skip)] Hidden,
Seek { #[codec(compact)] to: u32 } }`. -/
def messageDecl : DeriveInput LibTy
    (Prim.u8.Val × Prim.u16.Val × Unit ⊕ Unit ⊕ Width.u32.Val × Unit ⊕ Empty) where
  ident := "Message"
  data := .enum
    (.cons
      { ident := "Ping"
        fields := .unnamed
          (.cons { ident := none, ty := .prim .u8 }
            (.cons { ident := none, ty := .prim .u16, skip := some 0 } .nil))
        index := some 5 }
      (.cons { ident := "Hidden", fields := .unit, skip := true }
        (.cons
          { ident := "Seek"
            fields := .named
              (.cons
                { ident := some "to"
                  ty := .prim .u32
                  compact := some
                    { refTy := .compact (.uint .u32)
                      asTy := .compact (.uint .u32)
                      fromRef := id
                      into := id } } .nil) } .nil)))
  repr := Equiv.refl _

/-- A declaration that compiles and whose variants have distinct index bytes round-trips, up to
the defaults of its skipped fields, refuses other variant bytes and decodes canonically. -/
theorem DeriveInput.derived_round_trip (enc : ∀ {σ : Type}, F σ → Encode σ)
    (dec : ∀ {σ : Type}, F σ → Decode σ) (di : DeriveInput F T) (size : ℕ) (hc : di.Compiles)
    (hd : di.data.DistinctIndices) (hlaw : di.data.Forall (EncodeAs.Lawful enc)) :
    (∀ v, ¬di.data.Skipped (di.repr v) →
      di.data.ForallAt (EncodeAs.RoundTrips enc dec) (di.repr v) →
      ∃ bs, Encodes (di.encodeImpl enc).toEncode v bs ∧
        ∀ rest, Decodes (di.decodeImpl dec size).decode (bs ++ rest)
          (di.repr.symm (di.data.defaulted (di.repr v))) rest) ∧
    (∀ b s, di.data.UnknownByte b → runSlice (di.decodeImpl dec size).decode (b :: s) =
      .ok (.error (.desc ("Could not decode `" ++ di.ident ++ "`, variant doesn't exist")), s)) ∧
    (di.data.Forall (EncodeAs.Canonical enc dec) →
      ∀ s v s', Decodes (di.decodeImpl dec size).decode s v s' →
        ∃ bs, Encodes (di.encodeImpl enc).toEncode v bs ∧ s = bs ++ s') := by
  refine ⟨fun v hskip h => ?_, fun b s hb => ?_, fun h s v s' hdec => ?_⟩
  · obtain ⟨bs, henc, hdec⟩ := Data.roundTrips hc.2 hd hlaw hskip h
    exact ⟨bs, EncodeImpl.encodes_comap.mpr henc, fun rest => decodes_map.mpr ⟨_, hdec rest, rfl⟩⟩
  · show runSlice (di.repr.symm <$> di.data.decode dec di.ident) (b :: s) = _
    rw [map_eq_pure_bind, runSlice_bind, Data.runSlice_unknownByte hb]
    rfl
  · obtain ⟨r, hr, rfl⟩ := decodes_map.mp hdec
    obtain ⟨bs, henc, rfl⟩ := Data.canonical hc.2 hlaw h hr
    refine ⟨bs, EncodeImpl.encodes_comap.mpr ?_, rfl⟩
    rwa [Equiv.apply_symm_apply]

/-- `Ping(7, 9)`, which comes back as `Ping(7, 0)`. -/
theorem DeriveInput.derived_round_trip_message :
    let enc : ∀ {σ : Type}, LibTy σ → Encode σ := LibTy.encode (Platform.unpadded _)
    let dec : ∀ {σ : Type}, LibTy σ → Decode σ := LibTy.decode (Platform.unpadded _)
    let codec := (messageDecl.decodeImpl dec 8).decode
    (∃ bs, Encodes (messageDecl.encodeImpl enc).toEncode (.inl (7, 9, ())) bs ∧
      ∀ rest, Decodes codec (bs ++ rest) (.inl (7, 0, ())) rest) ∧
    runSlice codec [0] =
      .ok (.error (.desc "Could not decode `Message`, variant doesn't exist"), []) ∧
    ∀ s v s', Decodes codec s v s' →
      ∃ bs, Encodes (messageDecl.encodeImpl enc).toEncode v bs ∧ s = bs ++ s' := by
  intro enc dec codec
  have hlaw : ∀ {σ : Type} (t : LibTy σ), (enc t).Lawful := fun t =>
    Ty.encode_lawful (fun i => nomatch i) t
  have hd : ([5, 1] : List Byte).Nodup := by decide
  obtain ⟨hrt, hunknown, hcanon⟩ := DeriveInput.derived_round_trip enc dec messageDecl 8
    ⟨rfl, rfl⟩ hd
    ⟨fun _ => ⟨hlaw _, trivial, trivial⟩, fun _ => trivial, fun _ => ⟨hlaw _, trivial⟩, trivial⟩
  have hb : (0 : Byte) ∉ ([5, 1] : List Byte) := by decide
  refine ⟨hrt (.inl (7, 9, ())) Bool.false_ne_true ⟨⟨[7], rfl, fun rest => ?_⟩, trivial, trivial⟩,
    hunknown 0 [] hb, hcanon ⟨fun _ => ⟨fun s y s' h => ?_, trivial, trivial⟩,
      fun _ => trivial, fun _ => ⟨fun s y s' h => ?_, trivial⟩, trivial⟩⟩
  · exact ⟨7, decodes_primDecode.mpr rfl, rfl⟩
  · exact ⟨_, primEncode_encode .u8 y, decodes_primDecode.mp h⟩
  · exact ⟨_, compactEncode_encode .u32 y, decodes_compactDecode.mp h⟩

end ScaleCodec
