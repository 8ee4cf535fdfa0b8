import Mathlib.Algebra.Order.BigOperators.Group.List
import ScaleCodec.DeriveRoundTrip
import ScaleCodec.EncodeWays
import ScaleCodec.MemoryClaims
import ScaleCodec.Solvency

/-!
# The memory counted is the memory of the value

`Ty.heap` is the memory of a value behind its boxes, vectors, strings and lists. Decoding the
encoding of a value announces exactly this much, one `impl` at a time (`accounts_option`,
`costs_vec`, ...), along the description of a type (`Ty.accounts`), through a generated `impl`
(`DeriveInput.accounts`) and, with fuel, for a system of declarations (`TypeDefs.accounts`). A
skipped field is not decoded, so its memory is not announced.
-/

universe u

namespace ScaleCodec

/-! ## What decoding an encoding announces -/

section Accounts

variable {α β γ δ : Type}

/-- Decoding the encoding of `v` announces `n` bytes, whatever follows it. -/
def Costs (E : Encode α) (p : DecodeM β) (v : α) (n : ℕ) : Prop :=
  ∀ bs, Encodes E v bs → ∀ rest, ∃ v', Claims p (bs ++ rest) v' rest n

/-- Both ways to decode announce `n` bytes, if that is a `usize`. -/
def Accounts (tgt : Target) (E : Encode α) (I : Decode β) (v : α) (n : ℕ) : Prop :=
  n ≤ tgt.usizeMax → Costs E I.decode v n ∧ Costs E I.decodeInto v n

variable {tgt : Target} {E : Encode α} {F : Encode γ} {I : Decode β} {J : Decode δ} {v : α}
  {size n k : ℕ} {p : DecodeM β} {h : α → ℕ}

theorem accounts_ofDecode (hp : n ≤ tgt.usizeMax → Costs E p v n) :
    Accounts tgt E (Decode.ofDecode size p) v n :=
  fun hn => ⟨hp hn, hp hn⟩

theorem Costs.map {f : β → δ} (hp : Costs E p v n) : Costs E (f <$> p) v n := by
  intro bs henc rest
  obtain ⟨v', hv'⟩ := hp bs henc rest
  exact ⟨f v', claims_map hv'⟩

/-- A codec that accepts exactly its encodings, and reads without announcing memory. -/
theorem accounts_of_exact {I : Decode α} {bs : List Byte} (henc : Encodes E v bs)
    (hdec : ∀ rest, Decodes I.decode (bs ++ rest) v rest) (hlaw : I.Lawful)
    (hI : I.Rel silence 0 I) : Accounts tgt E I v 0 := by
  refine fun _ => ⟨fun bs' h' rest => ⟨v, ?_⟩, fun bs' h' rest => ⟨v, ?_⟩⟩
  · rw [h'.unique henc]
    exact Silent.claims hI.decode (hdec rest)
  · rw [h'.unique henc]
    exact Silent.claims hI.decodeInto ((hlaw.decodeInto _ _ _).mpr (hdec rest))

theorem accounts_option (hE : E.Lawful) {v : Option α} (hv : ∀ a ∈ v, Accounts tgt E I a (h a)) :
    Accounts tgt (optionEncode E) (optionDecode size I) v (v.elim 0 h) := by
  refine accounts_ofDecode fun hn bs henc rest => ?_
  cases v with
  | none =>
    obtain rfl := encodes_optionEncode_none.mp henc
    exact ⟨none, claims_bind (claims_chainErr (claims_readByte 0 rest)) claims_pure rfl⟩
  | some a =>
    obtain ⟨c, hc, rfl⟩ := (encodes_optionEncode_some hE).mp henc
    obtain ⟨a', ha'⟩ := (hv a rfl hn).1 c hc rest
    exact ⟨some a', claims_bind (claims_chainErr (claims_readByte 1 (c ++ rest)))
      (claims_map (claims_chainErr ha')) (Nat.zero_add _)⟩

theorem accounts_result_ok (hE : E.Lawful) {a : α} (ha : Accounts tgt E I a n) :
    Accounts tgt (resultEncode E F) (resultDecode size I J) (.ok a) n := by
  refine accounts_ofDecode fun hn bs henc rest => ?_
  obtain ⟨c, hc, rfl⟩ := (encodes_resultEncode_ok hE).mp henc
  obtain ⟨a', ha'⟩ := (ha hn).1 c hc rest
  exact ⟨.ok a', claims_bind (claims_chainErr (claims_readByte 0 (c ++ rest)))
    (claims_map (claims_chainErr ha')) (Nat.zero_add _)⟩

theorem accounts_result_error (hF : F.Lawful) {b : γ} (hb : Accounts tgt F J b n) :
    Accounts tgt (resultEncode E F) (resultDecode size I J) (.error b) n := by
  refine accounts_ofDecode fun hn bs henc rest => ?_
  obtain ⟨c, hc, rfl⟩ := (encodes_resultEncode_error hF).mp henc
  obtain ⟨b', hb'⟩ := (hb hn).1 c hc rest
  exact ⟨.error b', claims_bind (claims_chainErr (claims_readByte 1 (c ++ rest)))
    (claims_map (claims_chainErr hb')) (Nat.zero_add _)⟩

theorem accounts_pair (hE : E.Lawful) (hF : F.Lawful) {v : α × γ} (ha : Accounts tgt E I v.1 n)
    (hb : Accounts tgt F J v.2 k) :
    Accounts tgt (pairEncode E F) (pairDecode size I J) v (n + k) := by
  refine accounts_ofDecode fun hn bs henc rest => ?_
  obtain ⟨b, c, hb', hc', rfl⟩ := (encodes_pairEncode hE hF).mp henc
  obtain ⟨x, hx⟩ := (ha (by omega)).1 b hb' (c ++ rest)
  obtain ⟨y, hy⟩ := (hb (by omega)).1 c hc' rest
  rw [List.append_assoc]
  exact ⟨(x, y), claims_bind hx (claims_bind hy claims_pure rfl) rfl⟩

/-- The items one after the other. -/
theorem costs_items {as : List α} (has : ∀ a ∈ as, Costs E p a (h a)) {bs : List Byte}
    (henc : EncodesList E as bs) (rest : List Byte) :
    ∃ as', as'.length = as.length ∧ ClaimsList p as' (bs ++ rest) rest (as.map h).sum := by
  induction as generalizing bs with
  | nil =>
    obtain rfl : bs = [] := henc
    exact ⟨[], rfl, rfl, rfl⟩
  | cons a as ih =>
    obtain ⟨b, c, hb, hc, rfl⟩ := henc
    obtain ⟨ha, has⟩ := List.forall_mem_cons.mp has
    obtain ⟨a', ha'⟩ := ha b hb (c ++ rest)
    obtain ⟨as', hlen, has'⟩ := ih has hc
    rw [List.append_assoc]
    exact ⟨a' :: as', congrArg Nat.succ hlen, c ++ rest, _, _, ha', has', rfl⟩

theorem le_sum_map {as : List α} {a : α} (ha : a ∈ as) : h a ≤ (as.map h).sum :=
  List.le_sum_of_mem (List.mem_map_of_mem ha)

theorem accounts_array (hE : E.Lawful) (hI : I.Bulk) {m : ℕ} {v : List.Vector α m}
    (hv : ∀ a ∈ v.toList, Accounts tgt E I a (h a)) :
    Accounts tgt (arrayEncode tgt m E) (arrayDecode tgt m size I) v (v.toList.map h).sum := by
  have hcosts : (v.toList.map h).sum ≤ tgt.usizeMax →
      Costs (arrayEncode tgt m E) (arrayDecodeInto tgt m I) v (v.toList.map h).sum := by
    intro hn bs henc rest
    obtain ⟨as', hlen, has'⟩ := costs_items (fun a ha => (hv a ha ((le_sum_map ha).trans hn)).2)
      ((encodes_arrayEncode hE).mp henc) rest
    rw [v.toList_length] at hlen
    exact ⟨⟨as', hlen⟩, claims_arrayDecodeInto hI (v := ⟨as', hlen⟩) has'⟩
  exact fun hn => ⟨hcosts hn, hcosts hn⟩

theorem accounts_genericArray (hE : E.Lawful) {m : ℕ} {v : List.Vector α m}
    (hv : ∀ a ∈ v.toList, Accounts tgt E I a (h a)) :
    Accounts tgt (genericArrayEncode m E) (genericArrayDecode m size I) v (v.toList.map h).sum := by
  refine accounts_ofDecode fun hn bs henc rest => ?_
  obtain ⟨as', hlen, has'⟩ := costs_items (fun a ha => (hv a ha ((le_sum_map ha).trans hn)).1)
    ((encodes_genericArrayEncode hE).mp henc) rest
  rw [v.toList_length] at hlen
  subst hlen
  have hpure : Claims (if hlen : as'.length = as'.length then pure ⟨as', hlen⟩
      else DecodeM.err "array length does not match definition" : DecodeM (List.Vector β _)) rest
      ⟨as', rfl⟩ rest 0 := by
    rw [dif_pos rfl]
    exact claims_pure
  exact ⟨⟨as', rfl⟩, claims_bind (claims_replicateM has') hpure rfl⟩

/-- A vector announces its memory, and its items theirs. -/
theorem costs_vec (hE : E.Lawful) (hI : I.Bulk) (hsize : I.size ≤ maxPreallocation) {as : List α}
    (has : ∀ a ∈ as, Accounts tgt E I a (h a))
    (hn : as.length * I.size + (as.map h).sum ≤ tgt.usizeMax) :
    Costs (vecEncode tgt E) (vecDecode tgt size I).decode as
      (as.length * I.size + (as.map h).sum) := by
  intro bs henc rest
  obtain ⟨hlen, b, hb, rfl⟩ := (encodes_vecEncode hE).mp henc
  obtain ⟨as', hlen', has'⟩ := costs_items
    (fun a ha => (has a ha ((le_sum_map ha).trans (by omega))).1) hb rest
  rw [List.append_assoc, ← hlen']
  exact ⟨as', claims_vecDecode hI hsize (by omega) (by rw [hlen']; omega) has'⟩

theorem costs_nodes (hE : E.Lawful) {iter : δ → List α} {build : List β → γ} {memSize : ℕ → ℕ}
    {x : δ} (hx : ∀ a ∈ iter x, Accounts tgt E I a (h a))
    (hn : ((iter x).map h).sum ≤ tgt.usizeMax) :
    Costs (collectionEncode E iter) (nodesDecode tgt memSize I.decode build) x
      (memSize (iter x).length + ((iter x).map h).sum) := by
  intro bs henc rest
  obtain ⟨hlen, b, hb, rfl⟩ := (encodes_collectionEncode hE).mp henc
  obtain ⟨as', hlen', has'⟩ := costs_items
    (fun a ha => (hx a ha ((le_sum_map ha).trans hn)).1) hb rest
  rw [List.append_assoc, ← hlen']
  exact ⟨build as', claims_nodesDecode (by omega) has'⟩

/-- A box announces the size of its content, and the content what it holds. -/
theorem costs_box (hn : I.size + n ≤ tgt.usizeMax) (hI : Accounts tgt E I v n) :
    Costs E (boxDecode size I).decode v (I.size + n) := by
  intro bs henc rest
  obtain ⟨v', hv'⟩ := (hI (by omega)).2 bs henc rest
  exact ⟨v', claims_nested (claims_bind claims_onBeforeAllocMem
    (claims_bind claims_allocate hv' (Nat.zero_add n)) rfl)⟩

end Accounts

/-! ## Along a type -/

namespace Ty

variable {ι : Type} {ν : ι → Type} {α : Type}

/-- The memory of a value behind its heap nodes, given that of the named values in it. -/
def heap (P : Platform ν) (env : ∀ i, ν i → ℕ) {α : Type} : Ty ν α → α → ℕ
  | option t => fun v => v.elim 0 (t.heap P env)
  | result t e => fun v =>
    match v with
    | .ok a => t.heap P env a
    | .error b => e.heap P env b
  | tuple1 t | cow t => t.heap P env
  | pair t u => fun v => t.heap P env v.1 + u.heap P env v.2
  | array _ t | genericArray _ t => fun v => (v.toList.map (t.heap P env)).sum
  | vec t | vecDeque t => fun v => v.length * P.size t + (v.map (t.heap P env)).sum
  | binaryHeap _ t => fun v => v.data.length * P.size t + (v.data.map (t.heap P env)).sum
  | linkedList t => fun v => v.length * P.listNodeSize t + (v.map (t.heap P env)).sum
  | string => fun v => (utf8Bytes v).length
  | bytes => fun v => v.length
  | box t | rc t | arc t => fun v => P.size t + t.heap P env v
  | range t => fun v => t.heap P env v.start + t.heap P env v.end
  | rangeInclusive t => fun v => t.heap P env v.start + t.heap P env v.end
  | named i => env i
  | _ => fun _ => 0

/-- The types whose memory is announced exactly : no B-trees, and no bit sequences. -/
def Tracked {α : Type} : Ty ν α → Prop
  | option t | tuple1 t | cow t | array _ t | genericArray _ t | vec t | vecDeque t | binaryHeap _ t
  | linkedList t | box t | rc t | arc t | range t | rangeInclusive t => t.Tracked
  | result t u | pair t u => t.Tracked ∧ u.Tracked
  | btreeMap _ _ _ | btreeSet _ _ | bitVec _ _ | bitBox _ _ => False
  | compact c => c.Faithful
  | _ => True

/-- Every named value in a value is as `p` says. -/
def AllNamed (p : ∀ i, ν i → Prop) {α : Type} : Ty ν α → α → Prop
  | option t => fun v => ∀ a ∈ v, t.AllNamed p a
  | result t e => fun v =>
    match v with
    | .ok a => t.AllNamed p a
    | .error b => e.AllNamed p b
  | tuple1 t | cow t | box t | rc t | arc t => t.AllNamed p
  | pair t u => fun v => t.AllNamed p v.1 ∧ u.AllNamed p v.2
  | array _ t | genericArray _ t => fun v => ∀ a ∈ v.toList, t.AllNamed p a
  | vec t | vecDeque t | linkedList t => fun v => ∀ a ∈ v, t.AllNamed p a
  | binaryHeap _ t => fun v => ∀ a ∈ v.data, t.AllNamed p a
  | btreeMap _ k u => fun v => ∀ e ∈ v.entries, k.AllNamed p e.1 ∧ u.AllNamed p e.2
  | btreeSet _ k => fun v => ∀ a ∈ v.iter, k.AllNamed p a
  | range t => fun v => t.AllNamed p v.start ∧ t.AllNamed p v.end
  | rangeInclusive t => fun v => t.AllNamed p v.start ∧ t.AllNamed p v.end
  | named i => p i
  | _ => fun _ => True

theorem AllNamed.imp {p q : ∀ i, ν i → Prop} (hpq : ∀ i a, p i a → q i a) {t : Ty ν α} {v : α}
    (h : t.AllNamed p v) : t.AllNamed q v := by
  induction t with
  | option t ih => exact fun a ha => ih (h a ha)
  | result t e iht ihe =>
    cases v with
    | ok a => exact iht h
    | error b => exact ihe h
  | tuple1 t ih | cow t ih | box t ih | rc t ih | arc t ih => exact ih h
  | pair t u iht ihu => exact ⟨iht h.1, ihu h.2⟩
  | array n t ih | genericArray n t ih | vec t ih | vecDeque t ih | linkedList t ih
  | binaryHeap _ t ih | btreeSet _ t ih => exact fun a ha => ih (h a ha)
  | btreeMap _ k u ihk ihu => exact fun e he => ⟨ihk (h e he).1, ihu (h e he).2⟩
  | range t ih | rangeInclusive t ih => exact ⟨ih h.1, ih h.2⟩
  | named i => exact hpq i v h
  | _ => trivial

section Accounts

variable {P : Platform ν} {envE : ∀ i, Encode (ν i)} {envD : ∀ i, Decode (ν i)}

theorem bulk_decode (henv : ∀ i, (envD i).typeInfo = .unknown) (t : Ty ν α) :
    (t.decode P envD).Bulk := by
  intro q e hinfo
  cases t with
  | prim p => exact primDecode_bulk p q e hinfo
  | named i => cases (henv i).symm.trans hinfo
  | _ => cases hinfo

/-- Decoding the encoding of a value announces the memory of the value. -/
theorem accounts (hE : ∀ i, (envE i).Lawful) (hsize : ∀ i, (envD i).size = P.size (named i))
    (hinfo : ∀ i, (envD i).typeInfo = .unknown) {env : ∀ i, ν i → ℕ} {t : Ty ν α}
    (hc : t.Compiles P) (ht : t.Tracked) {v : α}
    (hv : t.AllNamed (fun i a => Accounts P.target (envE i) (envD i) a (env i a)) v) :
    Accounts P.target (t.encode P envE) (t.decode P envD) v (t.heap P env v) := by
  have lawE : ∀ {β : Type} (u : Ty ν β), (u.encode P envE).Lawful := encode_lawful hE
  have sizeD : ∀ {β : Type} (u : Ty ν β), (u.decode P envD).size = P.size u :=
    size_decodeWith hsize
  have bulk : ∀ {β : Type} (u : Ty ν β), (u.decode P envD).Bulk := bulk_decode hinfo
  have vecs : ∀ {β : Type} {u : Ty ν β} (size : ℕ) {as : List β}, P.size u ≤ maxPreallocation →
      (∀ a ∈ as, Accounts P.target (u.encode P envE) (u.decode P envD) a (u.heap P env a)) →
      as.length * P.size u + (as.map (u.heap P env)).sum ≤ P.target.usizeMax →
      Costs (vecEncode P.target (u.encode P envE))
        (vecDecode P.target size (u.decode P envD)).decode as
        (as.length * P.size u + (as.map (u.heap P env)).sum) := by
    intro β u size as hs has hn
    rw [← sizeD u] at hn hs ⊢
    exact costs_vec (lawE u) (bulk u) hs has hn
  have boxes : ∀ {β : Type} {u : Ty ν β} (size : ℕ) {a : β},
      Accounts P.target (u.encode P envE) (u.decode P envD) a (u.heap P env a) →
      P.size u + u.heap P env a ≤ P.target.usizeMax →
      Costs (u.encode P envE) (boxDecode size (u.decode P envD)).decode a
        (P.size u + u.heap P env a) := by
    intro β u size a ha hn
    rw [← sizeD u] at hn ⊢
    exact costs_box hn ha
  have pairs : ∀ {β : Type} {u : Ty ν β} {a b : β} {n k : ℕ},
      Accounts P.target (u.encode P envE) (u.decode P envD) a n →
      Accounts P.target (u.encode P envE) (u.decode P envD) b k →
      Accounts P.target (pairEncode (u.encode P envE) (u.encode P envE))
        (pairDecode (P.size (pair u u)) (u.decode P envD) (u.decode P envD)) (a, b) (n + k) :=
    fun {_ u _ _ _ _} ha hb => accounts_pair (lawE u) (lawE u) ha hb
  induction t with
  | prim p =>
    exact accounts_of_exact (primEncode_encode p v) (fun _ => decodes_primDecode.mpr rfl)
      (primDecode_lawful p) (primDecode_rel p)
  | bool =>
    exact accounts_of_exact (boolEncode_encode v) (fun _ => decodes_boolDecode.mpr rfl)
      boolDecode_lawful boolDecode_rel
  | nonZero p h =>
    exact accounts_of_exact (encodes_nonZeroEncode.mpr rfl) (fun _ => decodes_nonZeroDecode.mpr rfl)
      Decode.lawful_ofDecode (nonZeroDecode_rel p)
  | unit =>
    exact accounts_of_exact (encodes_unitEncode.mpr rfl) (fun _ => decodes_unitDecode.mpr rfl)
      Decode.lawful_ofDecode (Decode.rel_ofDecode (silence.rel_pure ()))
  | phantomData =>
    exact accounts_of_exact (encodes_phantomDataEncode.mpr rfl)
      (fun _ => decodes_unitDecode.mpr rfl) Decode.lawful_ofDecode
      (Decode.rel_ofDecode (silence.rel_pure ()))
  | option t ih => exact accounts_option (lawE t) fun a ha => ih hc ht (hv a ha)
  | optionBool =>
    exact accounts_of_exact (encodes_optionBoolEncode.mpr rfl)
      (fun _ => decodes_optionBoolDecode.mpr rfl) Decode.lawful_ofDecode optionBoolDecode_rel
  | result t e iht ihe =>
    cases v with
    | ok a => exact accounts_result_ok (lawE t) (iht hc.1 ht.1 hv)
    | error b => exact accounts_result_error (lawE e) (ihe hc.2 ht.2 hv)
  | tuple1 t ih => exact accounts_ofDecode fun hn => (ih hc ht hv hn).1
  | pair t u iht ihu =>
    exact accounts_pair (lawE t) (lawE u) (iht hc.1 ht.1 hv.1) (ihu hc.2 ht.2 hv.2)
  | array n t ih => exact accounts_array (lawE t) (bulk t) fun a ha => ih hc ht (hv a ha)
  | genericArray n t ih => exact accounts_genericArray (lawE t) fun a ha => ih hc ht (hv a ha)
  | vec t ih =>
    exact accounts_ofDecode fun hn =>
      vecs (P.size (vec t)) hc.1 (fun a ha => ih hc.2 ht (hv a ha)) hn
  | vecDeque t ih =>
    refine accounts_ofDecode fun hn bs henc => ?_
    exact vecs _ hc.1 (fun a ha => ih hc.2 ht (hv a ha)) hn bs
      ((encodes_vecDequeEncode (lawE t)).mp henc)
  | linkedList t ih =>
    refine accounts_ofDecode fun hn => ?_
    have hn' : v.length * P.listNodeSize t + (v.map (t.heap P env)).sum ≤ P.target.usizeMax := hn
    have hsum : (v.map (t.heap P env)).sum ≤ P.target.usizeMax := by omega
    have h : Costs (collectionEncode (t.encode P envE) id)
        (nodesDecode P.target (P.target.saturatingMul · (P.listNodeSize t))
          (t.decode P envD).decode id) v _ :=
      costs_nodes (lawE t) (fun a ha => ih hc ht (hv a ha)) hsum
    have hmem : P.target.saturatingMul v.length (P.listNodeSize t) = v.length * P.listNodeSize t :=
      Target.saturatingMul_eq (by omega)
    rwa [show (id v).length = v.length from rfl, hmem] at h
  | btreeMap ord k u => exact ht.elim
  | btreeSet ord k => exact ht.elim
  | binaryHeap ord t ih =>
    refine accounts_ofDecode fun hn => Costs.map fun bs henc => ?_
    exact vecs _ hc.1 (fun a ha => ih hc.2 ht (hv a ha)) hn bs
      ((encodes_vecEncode (lawE t)).mpr ((encodes_collectionEncode (lawE t)).mp henc))
  | string =>
    refine accounts_ofDecode fun hn bs henc rest => ?_
    refine ⟨v, claims_bind (claims_u8s hn (encodes_stringEncode.mp henc) rest) ?_ (Nat.add_zero _)⟩
    rw [fromUtf8_eq_some.mpr rfl]
    exact claims_pure
  | box t ih => exact accounts_ofDecode (boxes (P.size (box t)) (ih hc ht hv))
  | rc t ih => exact accounts_ofDecode (boxes (P.size (box t)) (ih hc ht hv))
  | arc t ih => exact accounts_ofDecode (boxes (P.size (box t)) (ih hc ht hv))
  | cow t ih => exact accounts_ofDecode fun hn => (ih hc ht hv hn).1
  | duration =>
    exact accounts_of_exact (encodes_durationEncode.mpr rfl)
      (fun _ => decodes_durationDecode.mpr rfl) Decode.lawful_ofDecode durationDecode_rel
  | range t ih =>
    refine accounts_ofDecode fun hn bs henc rest => ?_
    obtain ⟨w, hw⟩ := (pairs (ih hc ht hv.1) (ih hc ht hv.2) hn).1 bs henc rest
    exact ⟨⟨w.1, w.2⟩, claims_bind (claims_chainErr hw) claims_pure rfl⟩
  | rangeInclusive t ih =>
    refine accounts_ofDecode fun hn bs henc rest => ?_
    obtain ⟨w, hw⟩ := (pairs (ih hc ht hv.1) (ih hc ht hv.2) hn).1 bs henc rest
    exact ⟨⟨w.1, w.2, false⟩, claims_bind (claims_chainErr hw) claims_pure rfl⟩
  | compact c =>
    obtain ⟨bs, henc, hdec⟩ := CompactTy.decodes_encode P.target ht v
    refine accounts_of_exact henc hdec Decode.lawful_ofDecode
      (Decode.rel_ofDecode (CompactTy.decode_rel ?_))
    exact c.errorsIn_of_forall fun _ => trivial
  | bytes => exact accounts_ofDecode fun hn bs henc rest => ⟨v, claims_u8s hn henc rest⟩
  | bitVec st o => exact ht.elim
  | bitBox st o => exact ht.elim
  | named i => exact hv

end Accounts

end Ty

/-! ## Declarations -/

section Declarations

variable {F : Type → Type u} {α T : Type}

/-- The memory of the encoded fields of a value, as what they are encoded as. -/
def FieldList.heap (heap : ∀ {σ : Type}, F σ → σ → ℕ) {α : Type} : FieldList F α → α → ℕ
  | nil, _ => 0
  | cons f fs, (a, as) =>
    f.encoding.elim (fun e => heap e.refTy (e.fromRef a)) (fun _ => 0) + fs.heap heap as

/-- The memory of the encoded fields of a variant. -/
def VariantList.heap (heap : ∀ {σ : Type}, F σ → σ → ℕ) {α : Type} : VariantList F α → α → ℕ
  | cons v _, .inl a => v.fields.list.heap heap a
  | cons _ vs, .inr b => vs.heap heap b

/-- The memory of the encoded fields of a struct or a variant. -/
def Data.heap (heap : ∀ {σ : Type}, F σ → σ → ℕ) : Data F α → α → ℕ
  | struct fields => fields.list.heap heap
  | enum vs => vs.heap heap

/-- The memory of the encoded fields of a declared value. -/
def DeriveInput.heap (heap : ∀ {σ : Type}, F σ → σ → ℕ) (di : DeriveInput F T) (v : T) : ℕ :=
  di.data.heap heap (di.repr v)

variable {tgt : Target} {enc : ∀ {σ : Type}, F σ → Encode σ} {dec : ∀ {σ : Type}, F σ → Decode σ}
  {heap : ∀ {σ : Type}, F σ → σ → ℕ} {typeName : String}

/-- Decoding what a field is encoded as announces the memory of that. -/
def EncodeAs.Accounts (tgt : Target) (enc : ∀ {σ : Type}, F σ → Encode σ)
    (dec : ∀ {σ : Type}, F σ → Decode σ) (heap : ∀ {σ : Type}, F σ → σ → ℕ) (as : EncodeAs F α)
    (a : α) : Prop :=
  ScaleCodec.Accounts tgt (enc as.refTy) (dec as.asTy) (as.fromRef a)
    (heap as.refTy (as.fromRef a))

/-- A skipped field announces nothing. -/
theorem claims_decodeField {f : Field F α} {a : α} {n : ℕ}
    (hn : f.encoding.elim (fun e => heap e.refTy (e.fromRef a)) (fun _ => 0) = n)
    (hle : n ≤ tgt.usizeMax) (hlaw : f.encoding.elim (EncodeAs.Lawful enc) fun _ => True)
    (h : f.encoding.elim (EncodeAs.Accounts tgt enc dec heap · a) fun _ => True) {bs : List Byte}
    (henc : Writes (encodeField enc f a) bs) (name : String) (rest : List Byte) :
    ∃ a', Claims (decodeField dec name f) (bs ++ rest) a' rest n := by
  rw [encodeField_eq] at henc
  rw [decodeField_eq]
  cases hf : f.encoding with
  | inl as =>
    rw [hf] at hn hlaw h henc
    obtain rfl := hn
    obtain ⟨y, hy⟩ := (h hle).1 bs (hlaw.writes.mp henc) rest
    exact ⟨as.into y, claims_map (claims_chainErr hy)⟩
  | inr d =>
    rw [hf] at hn henc
    obtain rfl := hn
    obtain rfl : bs = [] := writes_ok.mp henc
    exact ⟨d, claims_pure⟩

theorem claims_decodeFields : ∀ {α : Type} {fs : FieldList F α} {v : α} {bs : List Byte},
    fs.heap heap v ≤ tgt.usizeMax → fs.Forall (EncodeAs.Lawful enc) →
    fs.ForallAt (EncodeAs.Accounts tgt enc dec heap) v → Writes (encodeFields enc fs v) bs →
    ∀ fieldName i rest, ∃ v', Claims (decodeFields dec fieldName fs i) (bs ++ rest) v' rest
      (fs.heap heap v)
  | _, .nil, _, bs, _, _, _, henc, _, _, _ => by
    obtain rfl : bs = [] := writes_ok.mp henc
    exact ⟨(), claims_pure⟩
  | _, .cons f fs, (a, as), _, hle, hlaw, h, henc, fieldName, i, rest => by
    obtain ⟨b, c, hb, hc, rfl⟩ := writes_writeThen.mp henc
    rw [FieldList.heap] at hle ⊢
    obtain ⟨a', ha'⟩ := claims_decodeField rfl (le_of_add_le_left hle) hlaw.1 h.1 hb
      (fieldName i f.ident) (c ++ rest)
    obtain ⟨as', has'⟩ :=
      claims_decodeFields (le_of_add_le_right hle) hlaw.2 h.2 hc fieldName (i + 1) rest
    rw [List.append_assoc]
    exact ⟨(a', as'), claims_bind ha' (claims_bind has' claims_pure rfl) rfl⟩

theorem claims_decodeIntoFields : ∀ {α : Type} {fs : FieldList F α} {v : α} {bs : List Byte},
    fs.anyAttribute = false → fs.heap heap v ≤ tgt.usizeMax → fs.Forall (EncodeAs.Lawful enc) →
    fs.ForallAt (EncodeAs.Accounts tgt enc dec heap) v → Writes (encodeFields enc fs v) bs →
    ∀ rest, ∃ v', Claims (decodeIntoFields dec fs) (bs ++ rest) v' rest (fs.heap heap v)
  | _, .nil, _, bs, _, _, _, _, henc, _ => by
    obtain rfl : bs = [] := writes_ok.mp henc
    exact ⟨(), claims_pure⟩
  | _, .cons f fs, (a, as), _, hany, hle, hlaw, h, henc, rest => by
    obtain ⟨hf, hany⟩ := FieldList.encoding_of_anyAttribute hany
    obtain ⟨b, c, hb, hc, rfl⟩ := writes_writeThen.mp henc
    have hfield := h.1
    have hlawf := hlaw.1
    rw [FieldList.heap, hf] at hle ⊢
    rw [encodeField_eq, hf] at hb
    rw [hf] at hfield hlawf
    have hle' : heap f.ty a + fs.heap heap as ≤ tgt.usizeMax := hle
    obtain ⟨a', ha'⟩ := (hfield (show heap f.ty a ≤ _ by omega)).2 b (hlawf.writes.mp hb)
      (c ++ rest)
    obtain ⟨as', has'⟩ := claims_decodeIntoFields hany (by omega) hlaw.2 h.2 hc rest
    rw [List.append_assoc]
    exact ⟨(a', as'), claims_bind ha' (claims_bind has' claims_pure rfl) rfl⟩

/-- The arm for the index byte of a variant announces the memory of its fields. -/
theorem claims_decodeVariants : ∀ {α : Type} {vs : VariantList F α} {i : ℕ} {v : α}
    {bs : List Byte}, (vs.indexBytes i).Nodup → ¬vs.Skipped v → vs.heap heap v ≤ tgt.usizeMax →
    vs.Forall (EncodeAs.Lawful enc) → vs.ForallAt (EncodeAs.Accounts tgt enc dec heap) v →
    Writes (encodeVariants enc vs i v) bs → ∃ b ∈ vs.indexBytes i, ∃ cs, bs = b :: cs ∧
      ∀ rest, ∃ v',
        Claims (decodeVariants dec typeName vs i b) (cs ++ rest) v' rest (vs.heap heap v)
  | _, .cons v vs, i, .inl a, bs, _, hskip, hle, hlaw, h, henc => by
    have hv : v.skip = false := Bool.not_eq_true _ ▸ hskip
    rw [encodeVariants, hv, if_neg Bool.false_ne_true, writes_pushByte_then] at henc
    obtain ⟨cs, hcs, rfl⟩ := henc
    obtain ⟨fieldName, hname⟩ :=
      exists_createInstance_eq (typeName ++ "::" ++ v.ident) v.fields
    refine ⟨v.indexByte i, ?_, cs, rfl, fun rest => ?_⟩
    · simp [VariantList.indexBytes, hv]
    · obtain ⟨a', ha'⟩ := claims_decodeFields hle (hlaw.1 hv) h hcs fieldName 0 rest
      rw [decodeVariants, hv, if_neg Bool.false_ne_true, if_pos rfl, hname]
      exact ⟨.inl a', claims_map ha'⟩
  | _, .cons v vs, i, .inr b, bs, hnd, hskip, hle, hlaw, h, henc => by
    rw [VariantList.indexBytes] at hnd
    rw [encodeVariants] at henc
    cases hv : v.skip with
    | true =>
      rw [hv, if_pos rfl] at hnd henc
      obtain ⟨x, hx, cs, rfl, hdec⟩ := claims_decodeVariants hnd hskip hle hlaw.2 h henc
      refine ⟨x, ?_, cs, rfl, fun rest => ?_⟩
      · rwa [VariantList.indexBytes, hv, if_pos rfl]
      · obtain ⟨b', hb'⟩ := hdec rest
        rw [decodeVariants, hv, if_pos rfl]
        exact ⟨.inr b', claims_map hb'⟩
    | false =>
      rw [hv, if_neg Bool.false_ne_true] at hnd henc
      obtain ⟨hi, hnd⟩ := List.nodup_cons.mp hnd
      obtain ⟨x, hx, cs, rfl, hdec⟩ := claims_decodeVariants hnd hskip hle hlaw.2 h henc
      have hne : x ≠ v.indexByte i := fun h => hi (h ▸ hx)
      refine ⟨x, ?_, cs, rfl, fun rest => ?_⟩
      · rw [VariantList.indexBytes, hv, if_neg Bool.false_ne_true]
        exact List.mem_cons_of_mem _ hx
      · obtain ⟨b', hb'⟩ := hdec rest
        rw [decodeVariants, hv, if_neg Bool.false_ne_true, if_neg hne]
        exact ⟨.inr b', claims_map hb'⟩

/-- A value that is no skipped variant has a variant with an index byte. -/
theorem VariantList.count_ne_zero_of_not_skipped : ∀ {α : Type} {vs : VariantList F α} {v : α},
    ¬vs.Skipped v → vs.count ≠ 0
  | _, .cons v vs, .inl a, hskip => by
    have hv : ¬v.skip = true := hskip
    rw [count, if_neg hv]
    exact Nat.succ_ne_zero _
  | _, .cons v vs, .inr b, hskip => by
    have ih : vs.count ≠ 0 := @count_ne_zero_of_not_skipped _ vs b hskip
    rw [count]
    split_ifs
    · exact ih
    · exact Nat.succ_ne_zero _

theorem Data.costs {data : Data F α} (hc : data.decodeCheck = .ok ()) (hd : data.DistinctIndices)
    (hlaw : data.Forall (EncodeAs.Lawful enc)) {v : α} (hskip : ¬data.Skipped v)
    (h : data.ForallAt (EncodeAs.Accounts tgt enc dec heap) v)
    (hle : data.heap heap v ≤ tgt.usizeMax) :
    Costs (data.encodeImpl enc).toEncode (data.decode dec typeName) v (data.heap heap v) := by
  intro bs henc rest
  cases data with
  | struct fields =>
    obtain ⟨fieldName, hname⟩ := exists_createInstance_eq typeName fields
    rw [Data.decode, hname]
    exact claims_decodeFields hle hlaw h (((Data.encodes_struct hc hlaw).2 v bs).mp henc)
      fieldName 0 rest
  | enum vs =>
    have hcount := VariantList.count_ne_zero_of_not_skipped hskip
    obtain ⟨b, -, cs, rfl, hdec⟩ := claims_decodeVariants hd hskip hle hlaw h
      (((Data.encodes_enum hcount).2 v bs).mp henc)
    obtain ⟨v', hv'⟩ := hdec rest
    exact ⟨v', claims_bind (claims_chainErr (claims_readByte b (cs ++ rest))) hv' (Nat.zero_add _)⟩

/-- Decoding a derived type announces the memory of its encoded fields. -/
theorem DeriveInput.accounts {di : DeriveInput F T} {size : ℕ} (hc : di.decodeCheck = .ok ())
    (hlayout : di.LayoutOk (fun t => (dec t).size) size) (hd : di.data.DistinctIndices)
    (hlaw : di.data.Forall (EncodeAs.Lawful enc)) {v : T} (hskip : ¬di.data.Skipped (di.repr v))
    (h : di.data.ForallAt (EncodeAs.Accounts tgt enc dec heap) (di.repr v)) :
    Accounts tgt (di.encodeImpl enc).toEncode (di.decodeImpl dec size) v (di.heap heap v) := by
  intro hle
  have hcosts : Costs (di.encodeImpl enc).toEncode (di.repr.symm <$> di.data.decode dec di.ident) v
      (di.heap heap v) := fun bs henc => Costs.map (Data.costs hc hd hlaw hskip h hle) bs
        (EncodeImpl.encodes_comap.mp henc)
  refine ⟨hcosts, ?_⟩
  show Costs _ ((di.decodeInto dec size).getD _) v _
  unfold DeriveInput.decodeInto
  split_ifs with htransparent
  · cases hfs : di.data.plainFields with
    | none => exact hcosts
    | some fs =>
      obtain ⟨hsum, hcount⟩ := hlayout htransparent fs hfs
      obtain ⟨fields, hdata, rfl, hany⟩ := Data.eq_struct_of_plainFields hfs
      show Costs _ (if _ then _ else if _ then _ else _) v _
      rw [if_neg (not_not.mpr hsum), if_neg (not_lt.mpr hcount)]
      intro bs henc rest
      have henc' := EncodeImpl.encodes_comap.mp henc
      unfold DeriveInput.heap at hle ⊢
      unfold DeriveInput.decodeCheck at hc
      rw [hdata] at hc hlaw h hle henc' ⊢
      obtain ⟨v', hv'⟩ := claims_decodeIntoFields hany hle hlaw h
        (((Data.encodes_struct hc hlaw).2 _ bs).mp henc') rest
      exact ⟨di.repr.symm v', claims_map hv'⟩
  · exact hcosts

/-- What holds of the encoded fields of a declaration and of those of a value. -/
theorem FieldList.forallAt_of {p : ∀ {σ : Type}, EncodeAs F σ → Prop}
    {q r : ∀ {σ : Type}, EncodeAs F σ → σ → Prop}
    (hr : ∀ {σ : Type} (as : EncodeAs F σ) a, p as → q as a → r as a) :
    ∀ {α : Type} {fs : FieldList F α} {v : α}, fs.Forall p → fs.ForallAt q v → fs.ForallAt r v
  | _, .nil, _, _, _ => trivial
  | _, .cons f fs, (a, as), hp, hq => by
    refine ⟨?_, forallAt_of hr hp.2 hq.2⟩
    have hpf := hp.1
    have hqf := hq.1
    cases hf : f.encoding with
    | inl e =>
      rw [hf] at hpf hqf
      exact hr e a hpf hqf
    | inr d => trivial

theorem VariantList.forallAt_of {p : ∀ {σ : Type}, EncodeAs F σ → Prop}
    {q r : ∀ {σ : Type}, EncodeAs F σ → σ → Prop}
    (hr : ∀ {σ : Type} (as : EncodeAs F σ) a, p as → q as a → r as a) :
    ∀ {α : Type} {vs : VariantList F α} {v : α}, vs.Forall p → ¬vs.Skipped v → vs.ForallAt q v →
      vs.ForallAt r v
  | _, .cons _ _, .inl _, hp, hskip, hq =>
    FieldList.forallAt_of hr (hp.1 (Bool.not_eq_true _ ▸ hskip)) hq
  | _, .cons _ vs, .inr b, hp, hskip, hq =>
    show vs.ForallAt r b from forallAt_of hr hp.2 hskip hq

theorem Data.forallAt_of {p : ∀ {σ : Type}, EncodeAs F σ → Prop}
    {q r : ∀ {σ : Type}, EncodeAs F σ → σ → Prop}
    (hr : ∀ {σ : Type} (as : EncodeAs F σ) a, p as → q as a → r as a) {data : Data F α} {v : α}
    (hp : data.Forall p) (hskip : ¬data.Skipped v) (hq : data.ForallAt q v) :
    data.ForallAt r v := by
  cases data with
  | struct fields => exact FieldList.forallAt_of hr hp hq
  | enum vs => exact VariantList.forallAt_of hr hp hskip hq

/-- The type a field is encoded as is the type it is decoded as. -/
inductive EncodeAs.SameTy {α : Type} : EncodeAs F α → Prop
  | mk {σ : Type} (t : F σ) (fromRef : α → σ) (into : σ → α) : SameTy ⟨t, t, fromRef, into⟩

end Declarations

/-! ## Systems of declarations -/

namespace TypeDefs

variable {ι : Type} {ν : ι → Type}

/-- The memory of the encoded fields of a named value, with fuel as `encodeNamed`. -/
def heapNamed (P : Platform ν) (Δ : TypeDefs ν) : ℕ → ∀ i, ν i → ℕ
  | 0, _ => fun _ => 0
  | n + 1, i => (Δ i).heap (Ty.heap P (Δ.heapNamed P n))

/-- The memory of a value over the named types, skipped fields left out. -/
def heap (P : Platform ν) (Δ : TypeDefs ν) (n : ℕ) {α : Type} (t : Ty ν α) : α → ℕ :=
  t.heap P (Δ.heapNamed P n)

/-- A named value is no skipped variant, nor is any in its encoded fields. -/
def NoneSkippedNamed (Δ : TypeDefs ν) : ℕ → ∀ i, ν i → Prop
  | 0, _ => fun _ => True
  | n + 1, i => fun v => ¬(Δ i).data.Skipped ((Δ i).repr v) ∧
    (Δ i).data.ForallAt (fun as a => as.refTy.AllNamed (Δ.NoneSkippedNamed n) (as.fromRef a))
      ((Δ i).repr v)

/-- No value of a declared type in `v` is a skipped variant. -/
def NoneSkipped (Δ : TypeDefs ν) (n : ℕ) {α : Type} (t : Ty ν α) (v : α) : Prop :=
  t.AllNamed (Δ.NoneSkippedNamed n) v

/-- Declarations over tracked types whose variants have distinct index bytes, and whose fields are
decoded as the type they are encoded as. -/
structure Tracked (Δ : TypeDefs ν) : Prop where
  indices : ∀ i, (Δ i).data.DistinctIndices
  fields : ∀ i, (Δ i).data.Forall fun as => as.SameTy ∧ as.asTy.Tracked

variable {P : Platform ν} {Δ : TypeDefs ν} {α : Type} {t : Ty ν α}

theorem typeInfo_decodeNamedWith {internal : DecodeM (List Prim.u8.Val)} (n : ℕ) (i : ι) :
    (Δ.decodeNamedWith P internal n i).typeInfo = .unknown := by
  cases n <;> rfl

/-- A field is accounted for if the named values in it are. -/
theorem accounts_field {n : ℕ} (hn : ∀ i v, Δ.NoneSkippedNamed n i v →
      Accounts P.target (Δ.encodeNamed P n i) (Δ.decode P n (.named i)) v (Δ.heapNamed P n i v))
    {σ : Type} (as : EncodeAs (Ty ν) σ) (a : σ)
    (has : (as.SameTy ∧ as.asTy.Tracked) ∧ as.asTy.Compiles P)
    (ha : as.refTy.AllNamed (Δ.NoneSkippedNamed n) (as.fromRef a)) :
    as.Accounts P.target (Δ.encode P n) (Δ.decode P n) (Δ.heap P n) a := by
  obtain ⟨⟨hsame, htracked⟩, hcompiles⟩ := has
  obtain ⟨u, fromRef, into⟩ := hsame
  exact Ty.accounts (encodeNamed_lawful n) size_decodeNamedWith (typeInfo_decodeNamedWith n)
    hcompiles htracked (ha.imp hn)

theorem accountsNamed (hΔ : Δ.Compiles P) (ht : Δ.Tracked) : ∀ (n : ℕ) (i : ι) (v : ν i),
    Δ.NoneSkippedNamed n i v →
      Accounts P.target (Δ.encodeNamed P n i) (Δ.decode P n (.named i)) v (Δ.heapNamed P n i v)
  | 0, _, _, _ => fun _ => ⟨fun _ henc => (by cases henc), fun _ henc => (by cases henc)⟩
  | n + 1, i, v, hv => by
    have hfields : (Δ i).data.Forall fun as =>
        (as.SameTy ∧ as.asTy.Tracked) ∧ as.asTy.Compiles P :=
      Data.forall_iff.mpr fun x hx => ⟨Data.forall_iff.mp (ht.fields i) x hx,
        Data.forall_iff.mp (hΔ.fields i) x hx⟩
    refine DeriveInput.accounts (hΔ.check i) ?_ (ht.indices i) ?_ hv.1
      (Data.forallAt_of (accounts_field (accountsNamed hΔ ht n)) hfields hv.1 hv.2)
    · have hsize : ∀ {σ : Type} (t : Ty ν σ), (Δ.decode P n t).size = P.size t :=
        Ty.size_decodeWith size_decodeNamedWith
      show (Δ i).LayoutOk (fun t => (Δ.decode P n t).size) _
      simp only [hsize]
      exact hΔ.layout i
    · exact Data.forall_iff.mpr fun x _ => encode_lawful n x.2.refTy

/-- Decoding the encoding of a value announces the memory of the value. -/
theorem accounts (hΔ : Δ.Compiles P) (hΔt : Δ.Tracked) (ht : t.Compiles P) (htt : t.Tracked) {n : ℕ}
    {v : α} (hv : Δ.NoneSkipped n t v) :
    Accounts P.target (Δ.encode P n t) (Δ.decode P n t) v (Δ.heap P n t v) :=
  Ty.accounts (encodeNamed_lawful n) size_decodeNamedWith (typeInfo_decodeNamedWith n) ht htt
    (hv.imp (accountsNamed hΔ hΔt n))

/-- Decoding the encoding of a value without B-trees counts the memory of the value, and the memory
counted is at any time at least the memory allocated. -/
theorem mem_accounting (hΔ : Δ.Compiles P) (n : ℕ) :
    (Δ.Tracked → ∀ {α : Type} (t : Ty ν α), t.Compiles P → t.Tracked → ∀ v bs,
      Encodes (Δ.encode P n t) v bs → Δ.NoneSkipped n t v → ∀ m : P.target.Usize,
      Δ.heap P n t v < m → ∀ rest, ∃ v', (InputStack.mem .slice).Returns (.new m, bs ++ rest)
        (Δ.decode P n t).decode v' rest (Δ.heap P n t v)) ∧
    ∀ {α : Type} (t : Ty ν α), t.Compiles P → ∀ (limit : P.target.Usize) (s : List Byte),
      ∀ moment ∈ (Δ.decode P n t).decode.run.moments ((memTracking P.target).over sliceInput)
        (.new limit, s) [], allocated moment.1 ≤ moment.2.1.usedMem := by
  refine ⟨fun hΔt α t ht htt v bs henc hv m hm rest => ?_, fun t ht limit s => ?_⟩
  · have hobeys : Obeys (Discipline.anyDepth fun _ => True) 0 (Δ.decode P n t).decode :=
      (TypeDefs.decodeWith_obeys obeys_decodeBytes hΔ (Δ.errorsIn_of_forall fun _ => trivial)
        trivial ht (t.errorsIn_of_forall fun _ => trivial)).decode
    have hle : Δ.heap P n t v ≤ P.target.usizeMax := hm.le.trans m.property
    obtain ⟨v', hdec, hsum⟩ := (accounts hΔ hΔt ht htt hv hle).1 bs henc rest
    have hmin : min (announced (Δ.decode P n t).decode (bs ++ rest)).sum P.target.usizeMax =
        Δ.heap P n t v := by
      rw [hsum, min_eq_left hle]
    exact ⟨v', (returns_mem_iff hobeys hdec).mpr
      ⟨⟨rfl, rfl⟩, Or.inr (hmin.trans_lt hm), hmin⟩⟩
  · exact allocated_le_usedMem (TypeDefs.solvent hΔ ht n) limit s

/-- A `Vec<u16>` of two elements beside a box in a recursive struct : four bytes are counted. -/
theorem mem_accounting_nest :
    let P := Platform.unpadded fun _ : Unit => ℕ
    let t : Ty (fun _ : Unit => ℕ) _ := .pair (.vec (.prim .u16)) (.named ())
    let p := (nestDefs.decode P 2 t).decode
    let m : P.target.Usize := ⟨5, by decide⟩
    nestDefs.heap P 2 t ([1, 2], 1) = 4 ∧
      (∃ v', (InputStack.mem .slice).Returns (.new m, [8, 1, 0, 2, 0, 1, 0, 9]) p v' [9] 4) ∧
      ∀ moment ∈ p.run.moments ((memTracking P.target).over sliceInput) (.new m, [8, 1]) [],
        allocated moment.1 ≤ moment.2.1.usedMem := by
  intro P t p m
  have htracked : nestDefs.Tracked :=
    ⟨fun _ => trivial, fun _ => ⟨⟨.mk _ _ _, trivial⟩, trivial⟩⟩
  have ht : t.Compiles P := ⟨⟨by decide, trivial⟩, trivial⟩
  have hinner : nestDefs.NoneSkippedNamed 1 () (0 : ℕ) :=
    ⟨not_false, (fun a (ha : a ∈ none) => nomatch ha), trivial⟩
  have houter : nestDefs.NoneSkippedNamed 2 () (1 : ℕ) := by
    refine ⟨not_false, fun a ha => ?_, trivial⟩
    obtain rfl := Option.some.inj ha
    exact hinner
  obtain ⟨hexact, hcovered⟩ := mem_accounting nestDefs_compiles 2
  exact ⟨rfl, hexact htracked t ht ⟨trivial, trivial⟩ ([1, 2], 1) [8, 1, 0, 2, 0, 1, 0] rfl
    ⟨fun _ _ => trivial, houter⟩ m (by decide) [9], hcovered t ht m [8, 1]⟩

end TypeDefs

/-- `struct Hidden { #[codec(skip)] content: Box<u8> }`. -/
def hiddenDefs : TypeDefs fun _ : Unit => Prim.u8.Val × Unit := fun _ =>
  { ident := "Hidden"
    data := .struct (.named
      (.cons { ident := some "content", ty := .box (.prim .u8), skip := some 0 } .nil))
    repr := Equiv.refl _ }

/-- The box in a skipped field holds a byte, but it is not decoded and none is counted. -/
theorem TypeDefs.hidden_box_not_counted :
    let P := Platform.unpadded fun _ : Unit => Prim.u8.Val × Unit
    let v : Prim.u8.Val × Unit := (7, ())
    let m : P.target.Usize := ⟨5, by decide⟩
    hiddenDefs.Compiles P ∧ Ty.heap P (fun _ _ => 0) (.box (.prim .u8)) v.1 = 1 ∧
      Encodes (hiddenDefs.encode P 1 (.named ())) v [] ∧
      (InputStack.mem .slice).Returns (.new m, [])
        (hiddenDefs.decode P 1 (.named ())).decode (0, ()) [] 0 :=
  ⟨⟨fun _ => rfl, fun _ => ⟨trivial, trivial⟩, fun _ h => nomatch h⟩, rfl, rfl, _, rfl, rfl, rfl⟩

end ScaleCodec
