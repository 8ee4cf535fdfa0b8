import ScaleCodec.RoundTrip

/-!
# Canonical decoding

`Canonical E I` : what `I` decodes is the encoding of the value it returns. The maps, sets and
heaps normalise the order of their items and are not canonical, nor are the bit sequences; along
every other type it holds if it does of the named types (`Ty.canonical`). With the round trip, a
value is what `decode_all` returns on its encoding and on no other bytes (`LibTy.decode_canonical`).
-/

namespace ScaleCodec

/-- Decoded bytes are the encoding of the decoded value. -/
def Canonical {α : Type} (E : Encode α) (I : Decode α) : Prop :=
  ∀ s v s', Decodes I.decode s v s' → ∃ bs, Encodes E v bs ∧ s = bs ++ s'

section Impls

variable {α β : Type} {E : Encode α} {F : Encode β} {I : Decode α} {J : Decode β} {tgt : Target}
  {size : ℕ}

theorem canonical_option (hE : E.Lawful) (h : Canonical E I) :
    Canonical (optionEncode E) (optionDecode size I) := by
  intro s v s' hv
  rcases decodes_optionDecode.mp hv with ⟨rfl, rfl⟩ | ⟨a, t, rfl, rfl, ha⟩
  · exact ⟨[0], encodes_optionEncode_none.mpr rfl, rfl⟩
  · obtain ⟨bs, henc, rfl⟩ := h _ _ _ ha
    exact ⟨1 :: bs, (encodes_optionEncode_some hE).mpr ⟨bs, henc, rfl⟩, rfl⟩

theorem canonical_result (hE : E.Lawful) (hF : F.Lawful) (hI : Canonical E I)
    (hJ : Canonical F J) : Canonical (resultEncode E F) (resultDecode size I J) := by
  intro s v s' hv
  rcases decodes_resultDecode.mp hv with ⟨a, t, rfl, rfl, ha⟩ | ⟨b, t, rfl, rfl, hb⟩
  · obtain ⟨bs, henc, rfl⟩ := hI _ _ _ ha
    exact ⟨0 :: bs, (encodes_resultEncode_ok hE).mpr ⟨bs, henc, rfl⟩, rfl⟩
  · obtain ⟨bs, henc, rfl⟩ := hJ _ _ _ hb
    exact ⟨1 :: bs, (encodes_resultEncode_error hF).mpr ⟨bs, henc, rfl⟩, rfl⟩

theorem canonical_pair (hE : E.Lawful) (hF : F.Lawful) (hI : Canonical E I)
    (hJ : Canonical F J) : Canonical (pairEncode E F) (pairDecode size I J) := by
  intro s v s' hv
  obtain ⟨t, ha, hb⟩ := decodes_pairDecode.mp hv
  obtain ⟨b, hencb, rfl⟩ := hI _ _ _ ha
  obtain ⟨c, hencc, rfl⟩ := hJ _ _ _ hb
  exact ⟨b ++ c, (encodes_pairEncode hE hF).mpr ⟨b, c, hencb, hencc, rfl⟩,
    (List.append_assoc b c s').symm⟩

theorem canonical_items (h : Canonical E I) : ∀ {as : List α} {s s' : List Byte},
    DecodesList I.decode as s s' → ∃ bs, EncodesList E as bs ∧ s = bs ++ s'
  | [], _, _, rfl => ⟨[], rfl, rfl⟩
  | _ :: _, _, s', ⟨_, ha, has⟩ => by
    obtain ⟨b, henc, rfl⟩ := h _ _ _ ha
    obtain ⟨c, hencs, rfl⟩ := canonical_items h has
    exact ⟨b ++ c, ⟨b, c, henc, hencs, rfl⟩, (List.append_assoc b c s').symm⟩

theorem canonical_array (hE : E.Lawful) (hI : I.Lawful) (h : Canonical E I) {n : ℕ} :
    Canonical (arrayEncode tgt n E) (arrayDecode tgt n size I) := by
  intro s v s' hv
  obtain ⟨bs, henc, rfl⟩ := canonical_items h ((decodes_arrayDecodeInto hI).mp hv)
  exact ⟨bs, (encodes_arrayEncode hE).mpr henc, rfl⟩

theorem canonical_genericArray (hE : E.Lawful) (h : Canonical E I) {n : ℕ} :
    Canonical (genericArrayEncode n E) (genericArrayDecode n size I) := by
  intro s v s' hv
  obtain ⟨bs, henc, rfl⟩ := canonical_items h (decodes_genericArrayDecode.mp hv)
  exact ⟨bs, (encodes_genericArrayEncode hE).mpr henc, rfl⟩

theorem canonical_vec (hE : E.Lawful) (hI : I.Lawful) (hsize : I.size ≤ maxPreallocation)
    (h : Canonical E I) : Canonical (vecEncode tgt E) (vecDecode tgt size I) := by
  intro s v s' hv
  obtain ⟨hlen, t, rfl, hitems⟩ := decodesList_of_vecDecode hI hsize hv
  obtain ⟨bs, henc, rfl⟩ := canonical_items h hitems
  exact ⟨_, (encodes_vecEncode hE).mpr ⟨hlen, bs, henc, rfl⟩, (List.append_assoc _ _ _).symm⟩

theorem canonical_linkedList (hE : E.Lawful) (h : Canonical E I) {nodeSize : ℕ} :
    Canonical (linkedListEncode E) (linkedListDecode tgt size nodeSize I) := by
  intro s v s' hv
  have hnodes : Decodes (nodesDecode tgt (tgt.saturatingMul · nodeSize) I.decode id) s v s' := hv
  obtain ⟨as, t, hlen, rfl, hitems, rfl⟩ := decodes_nodesDecode.mp hnodes
  obtain ⟨bs, henc, rfl⟩ := canonical_items h hitems
  exact ⟨_, (encodes_collectionEncode hE).mpr ⟨hlen, bs, henc, rfl⟩,
    (List.append_assoc _ _ _).symm⟩

theorem canonical_bytes :
    Canonical (vecEncode tgt (primEncode .u8)) (vecDecode tgt size (primDecode .u8)) :=
  canonical_vec (primEncode_lawful _) (primDecode_lawful _) (by decide) fun _ v _ hv =>
    ⟨_, primEncode_encode _ v, decodes_primDecode.mp hv⟩

theorem canonical_string {vecSize : ℕ} :
    Canonical (stringEncode tgt) (stringDecode tgt size vecSize) := by
  intro s v s' hv
  obtain ⟨bs, henc, rfl⟩ := canonical_bytes _ _ _ (decodes_stringDecode.mp hv)
  exact ⟨bs, encodes_stringEncode.mpr henc, rfl⟩

end Impls

/-! ## Compact types -/

/-- What `decode_from` accepts `encode_as` gives back. -/
def CompactTy.Unambiguous {α : Type} : CompactTy α → Prop
  | unit | uint _ => True
  | as inner encodeAs decodeFrom =>
    inner.Unambiguous ∧ ∀ x a, decodeFrom x = .ok a → encodeAs a = x

theorem CompactTy.canonical {tgt : Target} {size : ℕ} : ∀ {α : Type} {c : CompactTy α},
    c.Unambiguous → Canonical c.encode (Decode.ofDecode size (c.decode tgt))
  | _, .unit, _ => fun s v s' hv =>
    ⟨[], encodes_unitEncode.mpr rfl, (decodes_unitDecode.mp hv).symm⟩
  | _, .uint w, _ => fun s v s' hv =>
    ⟨_, compactEncode_encode w v, decodes_compactDecode.mp hv⟩
  | _, .as inner encodeAs decodeFrom, hc => by
    intro s v s' hv
    obtain ⟨x, t, hx, hfrom'⟩ := decodes_bind.mp hv
    have hinner : Canonical inner.encode (Decode.ofDecode size (inner.decode tgt)) :=
      CompactTy.canonical hc.1
    obtain ⟨bs, henc, rfl⟩ := hinner _ _ _ hx
    cases hfrom : decodeFrom x with
    | error e =>
      rw [hfrom] at hfrom'
      exact absurd hfrom' not_decodes_throw
    | ok a =>
      rw [hfrom] at hfrom'
      obtain ⟨rfl, rfl⟩ := decodes_pure.mp hfrom'
      refine ⟨bs, ?_, rfl⟩
      rw [← hc.2 x v hfrom] at henc
      exact henc

/-! ## Along a type -/

namespace Ty

variable {ι : Type} {ν : ι → Type} {α : Type}

/-- The types without a `BTreeMap`, `BTreeSet` or `BinaryHeap`. -/
def OrderFree {α : Type} : Ty ν α → Prop
  | option t | tuple1 t | box t | rc t | arc t | cow t | array _ t | genericArray _ t | vec t
  | vecDeque t | linkedList t | range t | rangeInclusive t => t.OrderFree
  | result t e => t.OrderFree ∧ e.OrderFree
  | pair t u => t.OrderFree ∧ u.OrderFree
  | btreeMap _ _ _ | btreeSet _ _ | binaryHeap _ _ => False
  | _ => True

theorem OrderFree.heapFree {t : Ty ν α} (h : t.OrderFree) : t.HeapFree := by
  induction t with
  | result t u iht ihu | pair t u iht ihu => exact ⟨iht h.1, ihu h.2⟩
  | btreeMap | btreeSet | binaryHeap => exact h.elim
  | option t ih | tuple1 t ih | box t ih | rc t ih | arc t ih | cow t ih | array n t ih
  | genericArray n t ih | vec t ih | vecDeque t ih | linkedList t ih | range t ih
  | rangeInclusive t ih => exact ih h
  | _ => trivial

/-- The types of which every accepted encoding is the encoding of the decoded value, if those of
the named types are. -/
def Unambiguous {α : Type} : Ty ν α → Prop
  | option t | tuple1 t | box t | rc t | arc t | cow t | array _ t | genericArray _ t | vec t
  | vecDeque t | linkedList t | range t | rangeInclusive t => t.Unambiguous
  | result t e => t.Unambiguous ∧ e.Unambiguous
  | pair t u => t.Unambiguous ∧ u.Unambiguous
  | compact c => c.Unambiguous
  | btreeMap _ _ _ | btreeSet _ _ | binaryHeap _ _ | bitVec _ _ | bitBox _ _ => False
  | _ => True

/-- The types of the format without maps, sets and heaps are unambiguous. -/
theorem InFormat.unambiguous {t : Ty ν α} (hf : t.InFormat) (ho : t.OrderFree) :
    t.Unambiguous := by
  induction t with
  | result t u iht ihu | pair t u iht ihu => exact ⟨iht hf.1 ho.1, ihu hf.2 ho.2⟩
  | option t ih | tuple1 t ih | box t ih | rc t ih | arc t ih | cow t ih | array n t ih
  | genericArray n t ih | vec t ih | vecDeque t ih | linkedList t ih | range t ih =>
    exact ih hf ho
  | compact c =>
    cases c with
    | as => exact hf.elim
    | _ => trivial
  | btreeMap | btreeSet | binaryHeap => exact ho.elim
  | rangeInclusive | bitVec | bitBox => exact hf.elim
  | _ => trivial

section

variable {P : Platform ν} {envE : ∀ i, Encode (ν i)} {envD : ∀ i, Decode (ν i)}

/-- Every unambiguous type decodes canonically, if the named types do. -/
theorem canonical (hE : ∀ i, (envE i).Lawful) (hD : ∀ i, (envD i).Lawful)
    (hsize : ∀ i, (envD i).size = P.size (named i)) (henv : ∀ i, Canonical (envE i) (envD i))
    {t : Ty ν α} (ht : t.Unambiguous) (hc : t.Compiles P) :
    Canonical (t.encode P envE) (t.decode P envD) := by
  have lawE : ∀ {β : Type} (u : Ty ν β), (u.encode P envE).Lawful := encode_lawful hE
  have lawD : ∀ {β : Type} (u : Ty ν β), (u.decode P envD).Lawful := decodeWith_lawful hD
  have sizeD : ∀ {β : Type} (u : Ty ν β), (u.decode P envD).size = P.size u :=
    size_decodeWith hsize
  induction t with
  | prim p => exact fun s v s' hv => ⟨_, primEncode_encode p v, decodes_primDecode.mp hv⟩
  | bool => exact fun s v s' hv => ⟨_, boolEncode_encode v, decodes_boolDecode.mp hv⟩
  | nonZero p h =>
    exact fun s v s' hv => ⟨_, encodes_nonZeroEncode.mpr rfl, decodes_nonZeroDecode.mp hv⟩
  | unit =>
    exact fun s v s' hv => ⟨[], encodes_unitEncode.mpr rfl, (decodes_unitDecode.mp hv).symm⟩
  | phantomData =>
    exact fun s v s' hv => ⟨[], encodes_phantomDataEncode.mpr rfl, (decodes_unitDecode.mp hv).symm⟩
  | option t ih => exact canonical_option (lawE t) (ih ht hc)
  | optionBool =>
    exact fun s v s' hv => ⟨_, encodes_optionBoolEncode.mpr rfl, decodes_optionBoolDecode.mp hv⟩
  | result t e iht ihe =>
    exact canonical_result (lawE t) (lawE e) (iht ht.1 hc.1) (ihe ht.2 hc.2)
  | tuple1 t ih | cow t ih => exact ih ht hc
  | pair t u iht ihu => exact canonical_pair (lawE t) (lawE u) (iht ht.1 hc.1) (ihu ht.2 hc.2)
  | array n t ih => exact canonical_array (lawE t) (lawD t) (ih ht hc)
  | genericArray n t ih => exact canonical_genericArray (lawE t) (ih ht hc)
  | vec t ih => exact canonical_vec (lawE t) (lawD t) ((sizeD t).trans_le hc.1) (ih ht hc.2)
  | vecDeque t ih =>
    intro s v s' hv
    have hvec : Canonical _ (vecDecode P.target (P.size (vec t)) (t.decode P envD)) :=
      canonical_vec (lawE t) (lawD t) ((sizeD t).trans_le hc.1) (ih ht hc.2)
    obtain ⟨bs, henc, rfl⟩ := hvec _ _ _ hv
    exact ⟨bs, (encodes_vecDequeEncode (lawE t)).mpr henc, rfl⟩
  | linkedList t ih => exact canonical_linkedList (lawE t) (ih ht hc)
  | string => exact canonical_string
  | box t ih | rc t ih | arc t ih =>
    exact fun s v s' hv => ih ht hc _ _ _ ((decodes_boxDecode (lawD t)).mp hv)
  | duration =>
    exact fun s v s' hv => ⟨_, encodes_durationEncode.mpr rfl, decodes_durationDecode.mp hv⟩
  | range t ih =>
    exact fun s v s' hv => canonical_pair (lawE t) (lawE t) (ih ht hc) (ih ht hc) _ _ _
      (decodes_rangeDecode.mp hv)
  | rangeInclusive t ih =>
    exact fun s v s' hv => canonical_pair (lawE t) (lawE t) (ih ht hc) (ih ht hc) _ _ _
      (decodes_rangeInclusiveDecode.mp hv).2
  | compact c => exact CompactTy.canonical ht
  | bytes =>
    have hvec : Canonical (vecEncode P.target (primEncode .u8))
        (vecDecode P.target (P.size (vec (prim .u8))) (primDecode .u8)) := canonical_bytes
    exact hvec
  | named i => exact henv i
  | btreeMap | btreeSet | binaryHeap | bitVec | bitBox => exact ht.elim

/-- On a 64-bit target a value that can be encoded is one that `Holds`. -/
theorem holds_of_encodes (hE : ∀ i, (envE i).Lawful) (hw : P.target.pointerWidth = .w64)
    {t : Ty ν α} (ho : t.OrderFree) {v : α} {bs : List Byte}
    (h : Encodes (t.encode P envE) v bs) : t.Holds P v := by
  have lawE : ∀ {β : Type} (u : Ty ν β), (u.encode P envE).Lawful := encode_lawful hE
  have hfits : ∀ {β : Type} (u : Ty ν β) {n : ℕ}, n ≤ u32Max → u.Fits P n :=
    fun u n hn => ⟨hn, fun h => absurd (h.symm.trans hw) (by decide)⟩
  induction t generalizing bs with
  | option t ih =>
    rintro a rfl
    obtain ⟨c, hc, -⟩ := (encodes_optionEncode_some (lawE t)).mp h
    exact ih ho hc
  | result t e iht ihe =>
    cases v with
    | ok a =>
      obtain ⟨c, hc, -⟩ := (encodes_resultEncode_ok (lawE t)).mp h
      exact iht ho.1 hc
    | error b =>
      obtain ⟨c, hc, -⟩ := (encodes_resultEncode_error (lawE e)).mp h
      exact ihe ho.2 hc
  | pair t u iht ihu =>
    obtain ⟨b, c, hb, hc, -⟩ := (encodes_pairEncode (lawE t) (lawE u)).mp h
    exact ⟨iht ho.1 hb, ihu ho.2 hc⟩
  | array n t ih =>
    intro a ha
    obtain ⟨b, hb⟩ := exists_encodes_of_mem ((encodes_arrayEncode (lawE t)).mp h) a ha
    exact ih ho hb
  | genericArray n t ih =>
    intro a ha
    obtain ⟨b, hb⟩ := exists_encodes_of_mem ((encodes_genericArrayEncode (lawE t)).mp h) a ha
    exact ih ho hb
  | vec t ih =>
    obtain ⟨hlen, b, hitems, -⟩ := (encodes_vecEncode (lawE t)).mp h
    refine ⟨hfits t hlen, fun a ha => ?_⟩
    obtain ⟨b, hb⟩ := exists_encodes_of_mem hitems a ha
    exact ih ho hb
  | vecDeque t ih =>
    obtain ⟨hlen, b, hitems, -⟩ :=
      (encodes_vecEncode (lawE t)).mp ((encodes_vecDequeEncode (lawE t)).mp h)
    refine ⟨hfits t hlen, fun a ha => ?_⟩
    obtain ⟨b, hb⟩ := exists_encodes_of_mem hitems a ha
    exact ih ho hb
  | linkedList t ih =>
    obtain ⟨hlen, b, hitems, -⟩ := (encodes_collectionEncode (lawE t)).mp h
    refine ⟨hlen, fun a ha => ?_⟩
    obtain ⟨b, hb⟩ := exists_encodes_of_mem hitems a ha
    exact ih ho hb
  | string => exact ((encodes_vecEncode (primEncode_lawful .u8)).mp (encodes_stringEncode.mp h)).1
  | bytes =>
    have hvec : Encodes (vecEncode P.target (primEncode .u8)) v bs := h
    exact ((encodes_vecEncode (primEncode_lawful .u8)).mp hvec).1
  | range t ih =>
    obtain ⟨b, c, hb, hc, -⟩ :=
      (encodes_pairEncode (lawE t) (lawE t)).mp (encodes_rangeEncode.mp h)
    exact ⟨ih ho hb, ih ho hc⟩
  | tuple1 t ih => exact ih ho h
  | box t ih => exact ih ho h
  | rc t ih => exact ih ho h
  | arc t ih => exact ih ho h
  | cow t ih => exact ih ho h
  | btreeMap => exact ho.elim
  | btreeSet => exact ho.elim
  | binaryHeap => exact ho.elim
  | _ => trivial

end

end Ty

/-! ## `decode_all` -/

/-- `DECODE_ALL_ERR_MSG`. -/
def decodeAllErrMsg : String :=
  "Input buffer has still data left after decoding!"

/-- `DecodeAll::decode_all`. -/
def decodeAll {α : Type} (I : Decode α) (bs : List Byte) : Except Halt (Except Error α) := do
  match ← runSlice I.decode bs with
  | (.ok a, rest) => pure (if rest.isEmpty then .ok a else .error (.desc decodeAllErrMsg))
  | (.error e, _) => pure (.error e)

theorem decodeAll_eq_ok {α : Type} {I : Decode α} {bs : List Byte} {v : α} :
    decodeAll I bs = .ok (.ok v) ↔ Decodes I.decode bs v [] := by
  unfold decodeAll Decodes
  cases runSlice I.decode bs with
  | error h => simp [Bind.bind, Except.bind]
  | ok x =>
    obtain ⟨_ | a, _ | ⟨b, rest⟩⟩ := x <;> simp [Bind.bind, Except.bind, pure, Except.pure]

/-- Decoding is canonical : `decode_all` returns `v` on the encoding of `v` and on no other bytes.
On a 32-bit target `v` is a value that fits in memory. -/
theorem LibTy.decode_canonical {P : Platform Empty.elim} {α : Type} {t : LibTy α}
    (hf : t.InFormat) (ho : t.OrderFree) (hc : t.Compiles P) :
    (∀ bs v rest, Decodes (t.decode P).decode bs v rest →
      ∃ enc, Encodes (t.encode P) v enc ∧ bs = enc ++ rest) ∧
    (∀ bs v, (P.target.pointerWidth = .w32 → t.Holds P v) →
      (decodeAll (t.decode P) bs = .ok (.ok v) ↔ Encodes (t.encode P) v bs)) ∧
    ∀ bs bs' v, decodeAll (t.decode P) bs = .ok (.ok v) →
      decodeAll (t.decode P) bs' = .ok (.ok v) → bs = bs' := by
  have hcan : Canonical (t.encode P) (t.decode P) :=
    Ty.canonical (fun i => nomatch i) (fun i => nomatch i) (fun i => nomatch i)
      (fun i => nomatch i) (hf.unambiguous ho) hc
  have hall : ∀ {bs v}, decodeAll (t.decode P) bs = .ok (.ok v) → Encodes (t.encode P) v bs := by
    intro bs v h
    obtain ⟨enc, henc, rfl⟩ := hcan _ _ _ (decodeAll_eq_ok.mp h)
    rwa [List.append_nil]
  refine ⟨hcan, fun bs v hv => ⟨hall, fun henc => decodeAll_eq_ok.mpr ?_⟩, fun bs bs' v h h' =>
    (hall h).unique (hall h')⟩
  have hholds : t.Holds P v := by
    cases hw : P.target.pointerWidth with
    | w32 => exact hv hw
    | w64 => exact Ty.holds_of_encodes (fun i => nomatch i) hw ho henc
  have hround : RoundTrips (t.encode P) (t.decode P) t.Same v :=
    Ty.roundTrips (fun i => nomatch i) (fun i => nomatch i) (fun i => nomatch i) hf hc hholds
  obtain ⟨bs', henc', hdec⟩ := hround
  obtain ⟨v', hv', hS⟩ := hdec []
  obtain rfl := (Ty.same_iff_eq ho.heapFree v v').mp hS
  rw [List.append_nil, ← henc.unique henc'] at hv'
  exact hv'

/-- An optional string. -/
theorem LibTy.decode_canonical_option_string :
    let P := Platform.unpadded Empty.elim
    let t : LibTy (Option String) := .option .string
    (∀ bs v rest, Decodes (t.decode P).decode bs v rest →
      ∃ enc, Encodes (t.encode P) v enc ∧ bs = enc ++ rest) ∧
    (∀ bs v, (P.target.pointerWidth = .w32 → t.Holds P v) →
      (decodeAll (t.decode P) bs = .ok (.ok v) ↔ Encodes (t.encode P) v bs)) ∧
    ∀ bs bs' v, decodeAll (t.decode P) bs = .ok (.ok v) →
      decodeAll (t.decode P) bs' = .ok (.ok v) → bs = bs' :=
  LibTy.decode_canonical trivial trivial trivial

end ScaleCodec
