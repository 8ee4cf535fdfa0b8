import ScaleCodec.MemLimit

/-!
# The memory a decoder announces

`Claims p s a s' n` : on the slice `s` the decoder `p` returns `a`, leaves `s'` unread and announces
`n` bytes of memory in all. It is read off the program text as `Decodes` is, with the announcements
of the parts added up. A decoder that only reads announces nothing (`silence`).

The chunks in which a vector is reserved add up to its memory (`claims_decodeVecChunked`), so
`decode_vec_with_len` announces the memory of the vector and what its items announce
(`claims_decodeVecWithLen`).
-/

namespace ScaleCodec

variable {α β γ : Type} {p : DecodeM α} {s s' t : List Byte} {a : α} {b : β} {m n : ℕ}

/-! ## Announcements -/

theorem allocSizes_append (calls calls' : List InputCall) :
    allocSizes (calls ++ calls') = allocSizes calls ++ allocSizes calls' :=
  List.filterMap_append

theorem announced_bind {f : α → DecodeM β} (hp : Decodes p s a t) :
    announced (p >>= f) s = announced p s ++ announced (f a) t := by
  rw [announced, trace_bind_of_decodes hp, allocSizes_append]
  rfl

theorem announced_bind_error {f : α → DecodeM β} {e : Error}
    (hp : runSlice p s = .ok (.error e, t)) : announced (p >>= f) s = announced p s := by
  rw [announced, trace_bind_of_error hp]
  rfl

theorem announced_bind_halt {f : α → DecodeM β} {h : Halt} (hp : runSlice p s = .error h) :
    announced (p >>= f) s = announced p s := by
  rw [announced, trace_bind_of_halt hp]
  rfl

theorem announced_chainErr {desc : String} : announced (p.chainErr desc) s = announced p s := by
  rw [announced, trace_chainErr]
  rfl

/-- A decoder that announces no memory. -/
def Silent (p : DecodeM α) : Prop :=
  ∀ s, announced p s = []

theorem silent_bind {f : α → DecodeM β} {P : α → Prop} (hp : Silent p) (hP : Yields P p)
    (hf : ∀ a, P a → Silent (f a)) : Silent (p >>= f) := by
  intro s
  cases hs : runSlice p s with
  | error h => rw [announced_bind_halt hs, hp s]
  | ok x =>
    obtain ⟨_ | a, t⟩ := x
    · rw [announced_bind_error hs, hp s]
    · rw [announced_bind hs, hp s, hf a (hP.of_run hs) t, List.append_nil]

/-- The logic of silence. -/
def silence : ReadLogic where
  toDiscipline := .anyDepth fun _ => True
  Rel _ _ _ q := Silent q
  rel_pure _ _ := rfl
  rel_throw _ _ := rfl
  rel_halt _ _ := rfl
  rel_bind_of_yields := silent_bind
  rel_read _ _ := rfl
  rel_readByte _ := rfl
  rel_chainErr hp s := announced_chainErr.trans (hp s)

theorem silent_map_read {f : List.Vector Byte n → β} : Silent (f <$> DecodeM.read n) := by
  rw [map_eq_pure_bind]
  exact silent_bind (fun _ => rfl) yields_true fun _ _ _ => rfl

theorem silent_checkRemaining (n : ℕ) : Silent (checkRemaining n) := by
  refine silent_bind (fun _ => rfl) yields_true fun r _ => ?_
  cases r with
  | none => exact fun _ => rfl
  | some len =>
    show Silent (if len < n then _ else _)
    split_ifs
    · exact fun _ => rfl
    · exact fun _ => rfl

/-! ## Claims -/

/-- On `s` the decoder returns `a`, leaves `s'` unread and announces `n` bytes. -/
def Claims (p : DecodeM α) (s : List Byte) (a : α) (s' : List Byte) (n : ℕ) : Prop :=
  Decodes p s a s' ∧ (announced p s).sum = n

theorem Silent.claims (hp : Silent p) (h : Decodes p s a s') : Claims p s a s' 0 :=
  ⟨h, by rw [hp s, List.sum_nil]⟩

theorem Silent.eq_zero (hp : Silent p) (h : Claims p s a s' n) : n = 0 := by
  rw [← h.2, hp s, List.sum_nil]

theorem claims_pure : Claims (pure a) s a s 0 :=
  ⟨decodes_pure.mpr ⟨rfl, rfl⟩, rfl⟩

theorem claims_bind {f : α → DecodeM β} {k : ℕ} (hp : Claims p s a t m)
    (hf : Claims (f a) t b s' k) (hn : m + k = n) : Claims (p >>= f) s b s' n :=
  ⟨decodes_bind.mpr ⟨a, t, hp.1, hf.1⟩, by
    rw [announced_bind hp.1, List.sum_append, hp.2, hf.2, hn]⟩

theorem claims_map {f : α → β} (hp : Claims p s a s' n) : Claims (f <$> p) s (f a) s' n := by
  rw [map_eq_pure_bind]
  exact claims_bind hp claims_pure rfl

theorem claims_chainErr {desc : String} (hp : Claims p s a s' n) :
    Claims (p.chainErr desc) s a s' n :=
  ⟨decodes_chainErr.mpr hp.1, by rw [announced_chainErr, hp.2]⟩

theorem claims_readByte (c : Byte) (s : List Byte) : Claims DecodeM.readByte (c :: s) c s 0 :=
  ⟨decodes_readByte.mpr rfl, rfl⟩

theorem claims_onBeforeAllocMem {size : ℕ} : Claims (DecodeM.onBeforeAllocMem size) s () s size :=
  ⟨decodes_onBeforeAllocMem.mpr rfl, Nat.add_zero size⟩

theorem claims_allocate {size : ℕ} : Claims (DecodeM.allocate size) s () s 0 :=
  ⟨decodes_allocate.mpr rfl, rfl⟩

theorem claims_nested (hp : Claims p s a s' n) : Claims p.nested s a s' n := by
  have hdescend : Claims DecodeM.descendRef s () s 0 := ⟨decodes_descendRef.mpr rfl, rfl⟩
  have hascend : Claims DecodeM.ascendRef s' () s' 0 := ⟨decodes_ascendRef.mpr rfl, rfl⟩
  exact claims_bind hdescend (claims_bind hp (claims_bind hascend claims_pure rfl) rfl)
    (Nat.zero_add n)

theorem claims_thenAscend (hp : Claims p s a s' n) : Claims p.thenAscend s a s' n := by
  refine ⟨decodes_thenAscend.mpr hp.1, ?_⟩
  rw [announced, DecodeM.thenAscend, ExceptT.run_mk, Prog.trace_bind hp.1, allocSizes_append]
  exact (List.append_nil (announced p s) ▸ hp.2)

theorem claims_nestedAlloc {size : ℕ} (hp : Claims p s a s' n) :
    Claims (p.nestedAlloc size) s a s' (size + n) := by
  have hdescend : Claims DecodeM.descendRef s () s 0 := ⟨decodes_descendRef.mpr rfl, rfl⟩
  exact claims_bind hdescend (claims_bind claims_onBeforeAllocMem (claims_thenAscend hp) rfl)
    (Nat.zero_add _)

/-! ## Items in a row -/

/-- `p` decodes the values `as` one after the other and announces `n` bytes. -/
def ClaimsList (p : DecodeM α) : List α → List Byte → List Byte → ℕ → Prop
  | [], s, s', n => s' = s ∧ n = 0
  | a :: as, s, s', n => ∃ t k l, Claims p s a t k ∧ ClaimsList p as t s' l ∧ n = k + l

theorem ClaimsList.decodesList : ∀ {as : List α} {s : List Byte} {n : ℕ},
    ClaimsList p as s s' n → DecodesList p as s s'
  | [], _, _, h => h.1
  | _ :: _, _, _, ⟨t, _, _, ha, has, _⟩ => ⟨t, ha.1, has.decodesList⟩

theorem Silent.claimsList (hp : Silent p) : ∀ {as : List α} {s : List Byte},
    DecodesList p as s s' → ClaimsList p as s s' 0
  | [], _, h => ⟨h, rfl⟩
  | _ :: _, _, ⟨t, ha, has⟩ => ⟨t, 0, 0, hp.claims ha, hp.claimsList has, rfl⟩

theorem Silent.eq_zero_of_claimsList (hp : Silent p) : ∀ {as : List α} {s : List Byte} {n : ℕ},
    ClaimsList p as s s' n → n = 0
  | [], _, _, h => h.2
  | _ :: _, _, _, ⟨_, _, _, ha, has, hn⟩ => by
    rw [hn, hp.eq_zero ha, eq_zero_of_claimsList hp has]

theorem claimsList_append {as bs : List α} : ∀ {s : List Byte} {n : ℕ},
    ClaimsList p (as ++ bs) s s' n →
      ∃ t k l, ClaimsList p as s t k ∧ ClaimsList p bs t s' l ∧ n = k + l := by
  induction as with
  | nil => exact fun {s n} h => ⟨s, 0, n, ⟨rfl, rfl⟩, h, (Nat.zero_add n).symm⟩
  | cons a as ih =>
    rintro s n ⟨t, k, l, ha, h, rfl⟩
    obtain ⟨u, k', l', has, hbs, rfl⟩ := ih h
    exact ⟨u, k + k', l', ⟨t, k, k', ha, has, rfl⟩, hbs, (Nat.add_assoc k k' l').symm⟩

theorem claims_replicateM : ∀ {as : List α} {s : List Byte} {n : ℕ}, ClaimsList p as s s' n →
    Claims (p.replicateM as.length) s as s' n
  | [], s, _, ⟨hs, hn⟩ => by
    rw [hs, hn]
    exact claims_pure
  | _ :: _, _, _, ⟨_, _, _, ha, has, hn⟩ =>
    claims_bind ha (claims_bind (claims_replicateM has) claims_pure rfl) hn.symm

theorem claims_vectorM : ∀ {n : ℕ} {v : List.Vector α n} {s : List Byte} {k : ℕ},
    ClaimsList p v.toList s s' k → Claims (p.vectorM n) s v s' k
  | 0, v, _, _, h => by
    obtain rfl := v.eq_nil
    obtain ⟨hs, hk⟩ := h
    rw [hs, hk]
    exact claims_pure
  | n + 1, v, _, _, h => by
    rw [← v.cons_head_tail, List.Vector.toList_cons] at h
    obtain ⟨_, k, l, ha, has, rfl⟩ := h
    rw [← v.cons_head_tail]
    exact claims_bind ha (claims_bind (claims_vectorM has) claims_pure rfl) rfl

/-! ## Vectors -/

section Vectors

variable {tgt : Target} {I : Decode α}

/-- The chunks are announced one by one and add up to the vector. -/
theorem claims_chunkLoop {size chunkLen : ℕ} {decodeChunk : ℕ → DecodeM (List α)}
    (hpos : 0 < chunkLen) (hmem : chunkLen * size ≤ tgt.usizeMax)
    (hchunk : ∀ {as : List α} {s s' : List Byte} {k : ℕ}, ClaimsList p as s s' k →
      Claims (decodeChunk as.length) s as s' k) :
    ∀ {fuel : ℕ} {as : List α} {s s' : List Byte} {k : ℕ}, as.length ≤ fuel →
      ClaimsList p as s s' k →
      Claims (chunkLoop tgt size chunkLen decodeChunk fuel as.length) s as s' (as.length * size + k)
  | 0, [], _, _, _, _, ⟨hs, hk⟩ | _ + 1, [], _, _, _, _, ⟨hs, hk⟩ => by
    rw [hs, hk, List.length_nil, Nat.zero_mul]
    exact claims_pure
  | 0, a :: as, _, _, _, hle, _ => absurd hle (Nat.not_succ_le_zero _)
  | fuel + 1, a :: as, s, s', k, hle, h => by
    have hlen : (a :: as).length = as.length + 1 := rfl
    have htake : ((a :: as).take (min chunkLen (as.length + 1))).length =
        min chunkLen (as.length + 1) := by
      rw [List.length_take, hlen, min_eq_left (min_le_right _ _)]
    have hdrop : ((a :: as).drop (min chunkLen (as.length + 1))).length =
        as.length + 1 - min chunkLen (as.length + 1) := by
      rw [List.length_drop, hlen]
    have hone : 1 ≤ min chunkLen (as.length + 1) := le_min hpos (Nat.succ_pos _)
    have hchunkMem : min chunkLen (as.length + 1) * size ≤ tgt.usizeMax :=
      (Nat.mul_le_mul_right size (min_le_left _ _)).trans hmem
    have hsum : min chunkLen (as.length + 1) + (as.length + 1 - min chunkLen (as.length + 1)) =
        as.length + 1 := Nat.add_sub_cancel' (min_le_right _ _)
    rw [← List.take_append_drop (min chunkLen (as.length + 1)) (a :: as)] at h
    obtain ⟨t, k₁, k₂, h₁, h₂, rfl⟩ := claimsList_append h
    have hitems := hchunk h₁
    have hle' : ((a :: as).drop (min chunkLen (as.length + 1))).length ≤ fuel := by omega
    have hrest := claims_chunkLoop hpos hmem hchunk hle' h₂
    rw [htake] at hitems
    rw [hdrop] at hrest
    have hpure : Claims (pure ((a :: as).take (min chunkLen (as.length + 1)) ++
        (a :: as).drop (min chunkLen (as.length + 1)))) s' (a :: as) s' 0 := by
      rw [List.take_append_drop]
      exact claims_pure
    rw [hlen, chunkLoop]
    refine claims_bind claims_onBeforeAllocMem (claims_bind claims_allocate
      (claims_bind hitems (claims_bind hrest hpure rfl) rfl) (Nat.zero_add _)) ?_
    rw [Target.saturatingMul_eq hchunkMem, ← hsum, Nat.add_mul, hsum]
    omega

theorem claims_decodeVecChunked {size : ℕ} {decodeChunk : ℕ → DecodeM (List α)}
    (hsize : size ≤ maxPreallocation) (hchunk : ∀ {as : List α} {s s' : List Byte} {k : ℕ},
      ClaimsList p as s s' k → Claims (decodeChunk as.length) s as s' k)
    {as : List α} {k : ℕ} (h : ClaimsList p as s s' k) :
    Claims (decodeVecChunked tgt size decodeChunk as.length) s as s' (as.length * size + k) :=
  claims_chunkLoop (chunkLen_pos tgt hsize) (chunkLen_mul_le tgt size) hchunk le_rfl h

/-- The items are of a primitive type, and a bulk read decodes them. -/
def Decode.Bulk (I : Decode α) : Prop :=
  ∀ q e, I.typeInfo = .known q e → I.Lawful ∧ Silent I.decode ∧ Silent I.decodeInto

theorem claims_readVecFromU8s (hI : I.Bulk) {q : Prim} {e : q.Val ≃ α}
    (hinfo : I.typeInfo = .known q e) {as : List α} {k : ℕ}
    (hmem : as.length * q.size ≤ tgt.usizeMax) (h : ClaimsList I.decode as s s' k) :
    Claims (readVecFromU8s tgt e as.length) s as s' (as.length * q.size + k) := by
  obtain ⟨hlaw, hsilent, -⟩ := hI q e hinfo
  have hlen : as.length * q.size ≤ s.length :=
    mul_size_le_of_decodesList hlaw hinfo h.decodesList
  have hcheck : Claims (checkRemaining (as.length * q.size)) s () s 0 :=
    (silent_checkRemaining _).claims (decodes_checkRemaining.mpr ⟨hlen, rfl⟩)
  rw [readVecFromU8s, if_neg (not_lt.mpr hmem)]
  refine claims_bind hcheck (claims_decodeVecChunked (q.size_le.trans (by decide))
    (fun has => ?_) h) (Nat.zero_add _)
  rw [hsilent.eq_zero_of_claimsList has]
  exact silent_map_read.claims ((decodes_bulk hlaw hinfo).mpr ⟨rfl, has.decodesList⟩)

/-- A vector announces its memory and what its items announce. -/
theorem claims_decodeVecWithLen (hI : I.Bulk) (hsize : I.size ≤ maxPreallocation) {as : List α}
    {k : ℕ} (hmem : as.length * I.size ≤ tgt.usizeMax) (h : ClaimsList I.decode as s s' k) :
    Claims (decodeVecWithLen tgt I as.length) s as s' (as.length * I.size + k) := by
  have hitems : Claims (decodeVecFromItems tgt I as.length) s as s' (as.length * I.size + k) :=
    claims_nested (claims_decodeVecChunked hsize claims_replicateM h)
  unfold decodeVecWithLen
  cases hinfo : I.typeInfo with
  | unknown => exact hitems
  | known q e =>
    show Claims (if tgt.littleEndian ∨ I.size = 1 then _ else _) s as s' _
    split_ifs
    · rw [((hI q e hinfo).1.typeInfo q e hinfo).1] at hmem ⊢
      exact claims_readVecFromU8s hI hinfo hmem h
    · exact hitems

/-- A length prefix announces nothing. -/
theorem claims_len_bind {f : ℕ → DecodeM β} {len : ℕ} (hlen : len ≤ u32Max)
    (h : Claims (f len) s b s' n) :
    Claims (do let len ← compactDecode tgt .u32; f len.toNat) (compactBytes len ++ s) b s' n := by
  have hx := toNat_ofNat_u32 hlen
  have hsilent : Silent (compactDecode tgt .u32) := compactDecode_rel (L := silence) (d := 0) .u32
  have hcompact : Claims (compactDecode tgt .u32) (compactBytes len ++ s) (BitVec.ofNat _ len) s
      0 := hsilent.claims (decodes_compactDecode.mpr (by rw [hx]))
  refine claims_bind hcompact ?_ (Nat.zero_add n)
  rwa [hx]

theorem claims_vecDecode (hI : I.Bulk) (hsize : I.size ≤ maxPreallocation) {size k : ℕ}
    {as : List α} (hlen : as.length ≤ u32Max) (hmem : as.length * I.size ≤ tgt.usizeMax)
    (h : ClaimsList I.decode as s s' k) :
    Claims (vecDecode tgt size I).decode (compactBytes as.length ++ s) as s'
      (as.length * I.size + k) :=
  claims_len_bind hlen (claims_decodeVecWithLen hI hsize hmem h)

theorem primDecode_bulk (q : Prim) : (primDecode q).Bulk := by
  have hrel : (primDecode q).Rel silence 0 (primDecode q) := primDecode_rel q
  exact fun _ _ _ => ⟨primDecode_lawful q, hrel.decode, hrel.decodeInto⟩

/-- The encoding of a `Vec<u8>` is decoded to the same bytes, and their number is announced. -/
theorem claims_u8s {size : ℕ} {as : List Prim.u8.Val} (hmem : as.length ≤ tgt.usizeMax)
    {bs : List Byte} (henc : Encodes (vecEncode tgt (primEncode .u8)) as bs) (rest : List Byte) :
    Claims (vecDecode tgt size (primDecode .u8)).decode (bs ++ rest) as rest as.length := by
  have hsilent : Silent (primDecode .u8).decode := (primDecode_bulk .u8 .u8 (Equiv.refl _) rfl).2.1
  have hone : as.length * (primDecode .u8).size = as.length := Nat.mul_one _
  obtain ⟨hlen, b, hb, rfl⟩ := (encodes_vecEncode (primEncode_lawful .u8)).mp henc
  obtain rfl := encodesList_prim.mp hb
  have hitems : DecodesList (primDecode .u8).decode as (as.flatMap toLeBytes ++ rest) rest :=
    decodesList_prim.mpr rfl
  have h : Claims (vecDecode tgt size (primDecode .u8)).decode _ _ _ _ :=
    claims_vecDecode (primDecode_bulk .u8) (by decide) hlen (hone.trans_le hmem)
      (hsilent.claimsList hitems)
  rwa [hone, ← List.append_assoc] at h

theorem claims_arrayDecodeInto (hI : I.Bulk) {v : List.Vector α m} {k : ℕ}
    (h : ClaimsList I.decodeInto v.toList s s' k) :
    Claims (arrayDecodeInto tgt m I) s v s' k := by
  unfold arrayDecodeInto
  cases hinfo : I.typeInfo with
  | unknown => exact claims_vectorM h
  | known q e =>
    obtain ⟨hlaw, -, hsilent⟩ := hI q e hinfo
    show Claims (if q.oneByte ∨ tgt.littleEndian then _ else _) s v s' k
    split_ifs with hbulk
    · have hdec : Decodes (arrayDecodeInto tgt m I) s v s' := (decodes_arrayDecodeInto hlaw).mpr
        ((decodesList_congr hlaw.decodeInto).mp h.decodesList)
      simp only [arrayDecodeInto, hinfo, if_pos hbulk] at hdec
      rw [hsilent.eq_zero_of_claimsList h]
      exact silent_map_read.claims hdec
    · exact claims_vectorM h

/-- A linked collection announces its nodes and what its items announce. -/
theorem claims_nodesDecode {memSize : ℕ → ℕ} {build : List α → γ} {as : List α} {k : ℕ}
    (hlen : as.length ≤ u32Max) (h : ClaimsList p as s s' k) :
    Claims (nodesDecode tgt memSize p build) (compactBytes as.length ++ s) (build as) s'
      (memSize as.length + k) :=
  claims_len_bind (f := fun n => (build <$> p.replicateM n).nestedAlloc (memSize n)) hlen
    (claims_nestedAlloc (claims_map (claims_replicateM h)))

end Vectors

end ScaleCodec
