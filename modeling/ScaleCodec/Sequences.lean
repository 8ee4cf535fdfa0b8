import ScaleCodec.CompactExact

/-!
# Slices, vectors and arrays

`encode_slice_no_len` and `decode_vec_with_len` take a bulk path for the types with a
`TypeInfo` : on a little-endian target, or for one byte, the elements are written and read as
the memory they are. Everything else goes item by item. Both paths write the encodings of the
items one after the other (`writes_encodeSliceNoLen`), and both read them
(`decodes_decodeVecWithLen`), in chunks of `MAX_PREALLOCATION` bytes (`decodes_chunkLoop`).
-/

namespace ScaleCodec

variable {α : Type}

/-- `MAX_PREALLOCATION`. -/
def maxPreallocation : ℕ :=
  16 * 1024

/-! ## Encoding -/

/-- `AsByteSlice::as_byte_slice` on a little-endian target : the memory of a slice of values
that transmute to a primitive type. -/
def asByteSlice {p : Prim} (e : p.Val ≃ α) (slice : List α) : List Byte :=
  slice.flatMap fun a => toLeBytes (e.symm a)

theorem asByteSlice_cons {p : Prim} (e : p.Val ≃ α) (a : α) (as : List α) :
    asByteSlice e (a :: as) = toLeBytes (e.symm a) ++ asByteSlice e as :=
  List.flatMap_cons

/-- `for item in slice.iter() { item.encode_to(dest); }` -/
def encodeItems (E : Encode α) : List α → Except Halt (List Write)
  | [] => .ok []
  | a :: as => writeThen (E.encodeTo a) (encodeItems E as)

/-- `encode_slice_no_len`. -/
def encodeSliceNoLen (tgt : Target) (E : Encode α) (slice : List α) : Except Halt (List Write) :=
  match E.typeInfo with
  | .known p e =>
    if p.oneByte ∨ tgt.littleEndian then .ok [.write (asByteSlice e slice)]
    else encodeItems E slice
  | .unknown => encodeItems E slice

/-- `compact_encode_len_to`. -/
def compactEncodeLenTo (len : ℕ) : Except Error (Except Halt (List Write)) :=
  if len > u32Max then
    .error (.desc "Attempted to serialize a collection with too many elements.")
  else .ok ((compactEncode .u32).encodeTo (BitVec.ofNat _ len))

/-- `compact_encode_len_to(dest, len).expect("Compact encodes length")`. -/
def expectLen (len : ℕ) : Except Halt (List Write) :=
  match compactEncodeLenTo len with
  | .error _ => .error (.panic "Compact encodes length")
  | .ok ws => ws

/-- `impl Encode for [T]`. -/
def sliceEncode (tgt : Target) (E : Encode α) : Encode (List α) :=
  EncodeImpl.toEncode
    { encodeTo := some fun slice =>
        writeThen (expectLen slice.length) (encodeSliceNoLen tgt E slice) }

/-- `impl WrapperTypeEncode for Vec<T>`. -/
def vecEncode (tgt : Target) (E : Encode α) : Encode (List α) :=
  (sliceEncode tgt E).forward id

/-- `impl Encode for [T; N]`. -/
def arrayEncode (tgt : Target) (n : ℕ) (E : Encode α) : Encode (List.Vector α n) :=
  EncodeImpl.toEncode { encodeTo := some fun v => encodeSliceNoLen tgt E v.toList }

/-- `bs` is the encodings of the items, one after the other. -/
def EncodesList (E : Encode α) : List α → List Byte → Prop
  | [], bs => bs = []
  | a :: as, bs => ∃ b c, Encodes E a b ∧ EncodesList E as c ∧ bs = b ++ c

section Encoding

variable {tgt : Target} {E : Encode α} {bs : List Byte}

theorem encodesList_append {as as' : List α} :
    ∀ {bs : List Byte}, EncodesList E (as ++ as') bs ↔
      ∃ b c, EncodesList E as b ∧ EncodesList E as' c ∧ bs = b ++ c := by
  induction as with
  | nil => simp [EncodesList]
  | cons a as ih =>
    intro bs
    simp only [List.cons_append, EncodesList, ih]
    constructor
    · rintro ⟨b, _, ha, ⟨c, d, hc, hd, rfl⟩, rfl⟩
      exact ⟨b ++ c, d, ⟨b, c, ha, hc, rfl⟩, hd, (List.append_assoc b c d).symm⟩
    · rintro ⟨_, d, ⟨b, c, ha, hc, rfl⟩, hd, rfl⟩
      exact ⟨b, c ++ d, ha, ⟨c, d, hc, hd, rfl⟩, List.append_assoc b c d⟩

theorem EncodesList.unique : ∀ {as : List α} {bs bs' : List Byte}, EncodesList E as bs →
    EncodesList E as bs' → bs = bs'
  | [], _, _, h, h' => h.trans h'.symm
  | _ :: _, _, _, ⟨_, _, ha, has, rfl⟩, ⟨_, _, ha', has', rfl⟩ => by
    rw [ha.unique ha', has.unique has']

theorem exists_encodesList_of_sublist {as as' : List α} (h : as.Sublist as') :
    ∀ {bs' : List Byte}, EncodesList E as' bs' →
      ∃ bs, EncodesList E as bs ∧ bs.length ≤ bs'.length := by
  induction h with
  | slnil => exact fun h => ⟨_, h, le_rfl⟩
  | cons a _ ih =>
    rintro _ ⟨b, c, -, hc, rfl⟩
    obtain ⟨bs, hbs, hle⟩ := ih hc
    exact ⟨bs, hbs, by rw [List.length_append]; omega⟩
  | cons_cons a _ ih =>
    rintro _ ⟨b, c, hb, hc, rfl⟩
    obtain ⟨bs, hbs, hle⟩ := ih hc
    exact ⟨b ++ bs, ⟨b, bs, hb, hbs, rfl⟩, by rw [List.length_append, List.length_append]; omega⟩

theorem exists_encodesList_of_perm {as as' : List α} (h : as.Perm as') :
    ∀ {bs : List Byte}, EncodesList E as bs →
      ∃ bs', EncodesList E as' bs' ∧ bs'.length = bs.length := by
  induction h with
  | nil => exact fun h => ⟨_, h, rfl⟩
  | cons a _ ih =>
    rintro _ ⟨b, c, hb, hc, rfl⟩
    obtain ⟨bs, hbs, hlen⟩ := ih hc
    exact ⟨b ++ bs, ⟨b, bs, hb, hbs, rfl⟩, by rw [List.length_append, List.length_append, hlen]⟩
  | swap a a' as =>
    rintro _ ⟨b, _, hb, ⟨b', c, hb', hc, rfl⟩, rfl⟩
    exact ⟨_, ⟨b', _, hb', ⟨b, c, hb, hc, rfl⟩, rfl⟩, by simp only [List.length_append]; omega⟩
  | trans _ _ ih₁ ih₂ =>
    intro bs h
    obtain ⟨bs₁, h₁, hlen₁⟩ := ih₁ h
    obtain ⟨bs₂, h₂, hlen₂⟩ := ih₂ h₁
    exact ⟨bs₂, h₂, hlen₂.trans hlen₁⟩

theorem exists_encodes_of_mem : ∀ {as : List α} {bs : List Byte},
    EncodesList E as bs → ∀ a ∈ as, ∃ b, Encodes E a b
  | [], _, _, _, ha => absurd ha List.not_mem_nil
  | _ :: _, _, ⟨b, _, hb, hc, _⟩, a, ha => by
    rcases List.mem_cons.mp ha with rfl | ha
    · exact ⟨b, hb⟩
    · exact exists_encodes_of_mem hc a ha

theorem writes_encodeItems (hE : E.Lawful) :
    ∀ {as : List α} {bs : List Byte}, Writes (encodeItems E as) bs ↔ EncodesList E as bs
  | [], bs => by simp [encodeItems, EncodesList]
  | a :: as, bs => by
    simp only [encodeItems, EncodesList, writes_writeThen, hE.writes, writes_encodeItems hE]

/-- The memory of primitive values is their encodings. -/
theorem encodesList_known (hE : E.Lawful) {p : Prim} {e : p.Val ≃ α}
    (hinfo : E.typeInfo = .known p e) :
    ∀ {as : List α} {bs : List Byte}, EncodesList E as bs ↔ bs = asByteSlice e as
  | [], bs => Iff.rfl
  | a :: as, bs => by
    have ha := hE.typeInfo p e hinfo a
    simp only [EncodesList, encodesList_known hE hinfo]
    constructor
    · rintro ⟨b, c, hb, rfl, rfl⟩
      rw [hb.unique ha]
      rfl
    · rintro rfl
      exact ⟨_, _, ha, rfl, rfl⟩

/-- Both paths of `encode_slice_no_len` write the encodings of the items. -/
theorem writes_encodeSliceNoLen (hE : E.Lawful) {as : List α} :
    Writes (encodeSliceNoLen tgt E as) bs ↔ EncodesList E as bs := by
  unfold encodeSliceNoLen
  cases hinfo : E.typeInfo with
  | unknown => exact writes_encodeItems hE
  | known p e =>
    show Writes (if p.oneByte ∨ tgt.littleEndian then _ else _) bs ↔ _
    split_ifs
    · rw [writes_ok, written_write, encodesList_known hE hinfo]
    · exact writes_encodeItems hE

/-- The length prefix of a collection, which panics past `u32::MAX` elements. -/
theorem writes_expectLen {n : ℕ} :
    Writes (expectLen n) bs ↔ n ≤ u32Max ∧ bs = compactBytes n := by
  unfold expectLen compactEncodeLenTo
  split_ifs with h
  · refine iff_of_false (fun h' => by cases h') (by omega)
  · have hn : n % 2 ^ (8 * Width.u32.prim.size) = n := Nat.mod_eq_of_lt (by
      show n < 2 ^ 32
      unfold u32Max at h
      omega)
    show Writes ((compactEncode .u32).encodeTo (BitVec.ofNat _ n)) bs ↔ _
    rw [(compactEncode_lawful .u32).writes, Encodes, compactEncode_encode, BitVec.toNat_ofNat, hn]
    constructor
    · intro h'
      exact ⟨by omega, (Except.ok.inj h').symm⟩
    · rintro ⟨_, rfl⟩
      rfl

theorem sliceEncode_lawful : (sliceEncode tgt E).Lawful :=
  EncodeImpl.lawful_encodeTo _

theorem vecEncode_lawful : (vecEncode tgt E).Lawful :=
  sliceEncode_lawful.forward id

/-- A vector is encoded as its length and its items. -/
theorem encodes_vecEncode (hE : E.Lawful) {as : List α} :
    Encodes (vecEncode tgt E) as bs ↔ as.length ≤ u32Max ∧
      ∃ b, EncodesList E as b ∧ bs = compactBytes as.length ++ b := by
  refine Iff.trans (b := Writes (writeThen _ _) bs) Iff.rfl (writes_writeThen.trans ?_)
  simp only [writes_expectLen, writes_encodeSliceNoLen hE]
  constructor
  · rintro ⟨_, c, ⟨hlen, rfl⟩, hc, rfl⟩
    exact ⟨hlen, c, hc, rfl⟩
  · rintro ⟨hlen, c, hc, rfl⟩
    exact ⟨_, c, ⟨hlen, rfl⟩, hc, rfl⟩

/-- An array is encoded as its items. -/
theorem encodes_arrayEncode {n : ℕ} (hE : E.Lawful) {v : List.Vector α n} :
    Encodes (arrayEncode tgt n E) v bs ↔ EncodesList E v.toList bs :=
  EncodeImpl.encodes_encodeTo.trans (writes_encodeSliceNoLen hE)

theorem encodesList_prim {p : Prim} {xs : List p.Val} :
    EncodesList (primEncode p) xs bs ↔ bs = xs.flatMap toLeBytes :=
  encodesList_known (primEncode_lawful p) rfl

end Encoding

/-! ## Decoding -/

/-- The loop of `decode_vec_chunked`. Fuel is an upper bound of its turns. -/
def chunkLoop (tgt : Target) (size chunkLen : ℕ) (decodeChunk : ℕ → DecodeM (List α)) :
    ℕ → ℕ → DecodeM (List α)
  | _, 0 => pure []
  | 0, _ + 1 => DecodeM.outOfFuel
  | fuel + 1, n + 1 => do
    let chunk := min chunkLen (n + 1)
    DecodeM.onBeforeAllocMem (tgt.saturatingMul chunk size)
    -- `decoded_vec.reserve_exact(chunk_len)`
    DecodeM.allocate (chunk * size)
    let items ← decodeChunk chunk
    let rest ← chunkLoop tgt size chunkLen decodeChunk fuel (n + 1 - chunk)
    pure (items ++ rest)

/-- `decode_vec_chunked`, for items of `size` bytes of memory. The vector finds the memory it
reserves, so `reserve_exact` does not panic. -/
def decodeVecChunked (tgt : Target) (size : ℕ) (decodeChunk : ℕ → DecodeM (List α)) (len : ℕ) :
    DecodeM (List α) :=
  let chunkLen := if size = 0 then tgt.usizeMax else maxPreallocation / size
  chunkLoop tgt size chunkLen decodeChunk len len

/-- The `n` values in the memory `bs` of a little-endian target. -/
def valuesOf (p : Prim) : ℕ → List Byte → List p.Val
  | 0, _ => []
  | n + 1, bs => BitVec.ofNat _ (leNat (bs.take p.size)) :: valuesOf p n (bs.drop p.size)

theorem length_valuesOf (p : Prim) : ∀ (n : ℕ) (bs : List Byte), (valuesOf p n bs).length = n
  | 0, _ => rfl
  | n + 1, bs => by rw [valuesOf, List.length_cons, length_valuesOf]

/-- `read_vec_from_u8s`, with the transmute of its result. -/
def readVecFromU8s (tgt : Target) {p : Prim} (e : p.Val ≃ α) (len : ℕ) : DecodeM (List α) := do
  if len * p.size > tgt.usizeMax then DecodeM.err "Item is too big and cannot be allocated"
  else
    checkRemaining (len * p.size)
    decodeVecChunked tgt p.size
      (fun n => (fun buf => (valuesOf p n buf.toList).map e) <$> DecodeM.read (n * p.size)) len

/-- `decode_vec_from_items`. -/
def decodeVecFromItems (tgt : Target) (I : Decode α) (len : ℕ) : DecodeM (List α) :=
  (decodeVecChunked tgt I.size I.decode.replicateM len).nested

/-- `decode_vec_with_len`. -/
def decodeVecWithLen (tgt : Target) (I : Decode α) (len : ℕ) : DecodeM (List α) :=
  match I.typeInfo with
  | .known _ e =>
    if tgt.littleEndian ∨ I.size = 1 then readVecFromU8s tgt e len
    else decodeVecFromItems tgt I len
  | .unknown => decodeVecFromItems tgt I len

/-- `impl Decode for Vec<T>`. -/
def vecDecode (tgt : Target) (size : ℕ) (I : Decode α) : Decode (List α) :=
  Decode.ofDecode size (do
    let len ← compactDecode tgt .u32
    decodeVecWithLen tgt I len.toNat)

/-- The array in the memory `bs` of a little-endian target. -/
def arrayOf {p : Prim} (e : p.Val ≃ α) (n : ℕ) (bs : List Byte) : List.Vector α n :=
  ⟨(valuesOf p n bs).map e, by rw [List.length_map, length_valuesOf]⟩

/-- `<[T; N]>::decode_into`. The bulk path reads the memory of the array. -/
def arrayDecodeInto (tgt : Target) (n : ℕ) (I : Decode α) : DecodeM (List.Vector α n) :=
  match I.typeInfo with
  | .known p e =>
    if p.oneByte ∨ tgt.littleEndian then
      (fun buf => arrayOf e n buf.toList) <$> DecodeM.read (p.size * n)
    else I.decodeInto.vectorM n
  | .unknown => I.decodeInto.vectorM n

/-- `impl Decode for [T; N]`. -/
def arrayDecode (tgt : Target) (n size : ℕ) (I : Decode α) : Decode (List.Vector α n) where
  typeInfo := .unknown
  size := size
  decode := arrayDecodeInto tgt n I
  decodeInto := arrayDecodeInto tgt n I
  skip :=
    if I.encodedFixedSize.isSome then (fun _ => ()) <$> I.skip.replicateM n
    else (fun _ => ()) <$> arrayDecodeInto tgt n I
  encodedFixedSize := I.encodedFixedSize.map (· * n)

section Decoding

variable {tgt : Target} {I : Decode α} {s s' : List Byte}

/-- The chunks hold the items one after the other. -/
theorem decodes_chunkLoop {size chunkLen : ℕ} {decodeChunk : ℕ → DecodeM (List α)}
    {p : DecodeM α} (hpos : 0 < chunkLen) (hchunk : ∀ {n : ℕ} {s as s'},
      Decodes (decodeChunk n) s as s' ↔ as.length = n ∧ DecodesList p as s s') :
    ∀ {fuel n : ℕ} {as : List α} {s s' : List Byte}, n ≤ fuel →
      (Decodes (chunkLoop tgt size chunkLen decodeChunk fuel n) s as s' ↔
        as.length = n ∧ DecodesList p as s s')
  | _, 0, as, s, s', _ => by
    rw [chunkLoop, decodes_pure]
    constructor
    · rintro ⟨rfl, rfl⟩
      exact ⟨rfl, rfl⟩
    · rintro ⟨hlen, h⟩
      obtain rfl := List.length_eq_zero_iff.mp hlen
      exact ⟨rfl, h⟩
  | 0, n + 1, _, _, _, h => absurd h (Nat.not_succ_le_zero n)
  | fuel + 1, n + 1, as, s, s', h => by
    have hle : min chunkLen (n + 1) ≤ n + 1 := min_le_right _ _
    have hone : 1 ≤ min chunkLen (n + 1) := le_min hpos (Nat.succ_pos n)
    have ih : ∀ {as : List α} {s s' : List Byte}, Decodes (chunkLoop tgt size chunkLen decodeChunk
        fuel (n + 1 - min chunkLen (n + 1))) s as s' ↔
          as.length = n + 1 - min chunkLen (n + 1) ∧ DecodesList p as s s' :=
      decodes_chunkLoop hpos hchunk (by omega)
    rw [chunkLoop]
    simp only [decodes_bind, decodes_onBeforeAllocMem, decodes_allocate, hchunk, ih, decodes_pure]
    constructor
    · rintro ⟨_, _, rfl, _, _, rfl, items, t, ⟨hitems, hd⟩, rest, u, ⟨hrest, hd'⟩, rfl, rfl⟩
      refine ⟨?_, decodesList_append.mpr ⟨t, hd, hd'⟩⟩
      rw [List.length_append, hitems, hrest]
      omega
    · rintro ⟨hlen, hd⟩
      rw [← List.take_append_drop (min chunkLen (n + 1)) as] at hd
      obtain ⟨t, htake, hdrop⟩ := decodesList_append.mp hd
      refine ⟨(), s, rfl, (), s, rfl, _, t, ⟨?_, htake⟩, _, s', ⟨?_, hdrop⟩, ?_, rfl⟩
      · rw [List.length_take, hlen, min_eq_left hle]
      · rw [List.length_drop, hlen]
      · exact (List.take_append_drop _ _).symm

/-- An item that compiles leaves room for one in a chunk. -/
theorem chunkLen_pos (tgt : Target) {size : ℕ} (hsize : size ≤ maxPreallocation) :
    0 < if size = 0 then tgt.usizeMax else maxPreallocation / size := by
  split_ifs with h
  · have := tgt.u32Max_le_usizeMax
    unfold u32Max at this
    omega
  · exact Nat.div_pos hsize (Nat.pos_of_ne_zero h)

theorem decodes_decodeVecChunked {size n : ℕ} {decodeChunk : ℕ → DecodeM (List α)}
    {p : DecodeM α} (hsize : size ≤ maxPreallocation) (hchunk : ∀ {n : ℕ} {s as s'},
      Decodes (decodeChunk n) s as s' ↔ as.length = n ∧ DecodesList p as s s') {as : List α} :
    Decodes (decodeVecChunked tgt size decodeChunk n) s as s' ↔
      as.length = n ∧ DecodesList p as s s' := by
  exact decodes_chunkLoop (chunkLen_pos tgt hsize) hchunk le_rfl

theorem flatMap_valuesOf {p : Prim} : ∀ {n : ℕ} {bs : List Byte}, bs.length = n * p.size →
    (valuesOf p n bs).flatMap toLeBytes = bs
  | 0, bs, h => by
    obtain rfl : bs = [] := List.length_eq_zero_iff.mp (by rw [h, Nat.zero_mul])
    rfl
  | n + 1, bs, h => by
    rw [Nat.succ_mul] at h
    have htake : (bs.take p.size).length = p.size := List.length_take_of_le (by omega)
    have hhead : toLeBytes (BitVec.ofNat (8 * p.size) (leNat (bs.take p.size))) =
        bs.take p.size :=
      ((@toLeBytes_eq_iff _ ⟨bs.take p.size, htake⟩ _).mpr rfl).symm
    rw [valuesOf, List.flatMap_cons, hhead, flatMap_valuesOf (by rw [List.length_drop, h]; omega),
      List.take_append_drop]

theorem valuesOf_flatMap {p : Prim} (rest : List Byte) : ∀ xs : List p.Val,
    valuesOf p xs.length (xs.flatMap toLeBytes ++ rest) = xs
  | [] => rfl
  | x :: xs => by
    have hhead : BitVec.ofNat (8 * p.size) (leNat (toLeBytes x)) = x :=
      (@toLeBytes_eq_iff _ ⟨toLeBytes x, length_toLeBytes x⟩ _).mp rfl
    rw [List.length_cons, List.flatMap_cons, List.append_assoc, valuesOf,
      List.take_left' (length_toLeBytes x), hhead, List.drop_left' (length_toLeBytes x),
      valuesOf_flatMap rest xs]

theorem asByteSlice_eq {p : Prim} (e : p.Val ≃ α) (as : List α) :
    asByteSlice e as = (as.map e.symm).flatMap toLeBytes := by
  rw [asByteSlice, List.flatMap_map]

theorem length_asByteSlice {p : Prim} (e : p.Val ≃ α) :
    ∀ as : List α, (asByteSlice e as).length = as.length * p.size
  | [] => by rw [List.length_nil, Nat.zero_mul]; rfl
  | a :: as => by
    rw [asByteSlice_cons, List.length_append, length_toLeBytes, length_asByteSlice e as,
      List.length_cons, Nat.succ_mul, Nat.add_comm]

theorem length_flatMap_toLeBytes {p : Prim} (xs : List p.Val) :
    (xs.flatMap toLeBytes).length = xs.length * p.size :=
  length_asByteSlice (Equiv.refl _) xs

/-- Elements are known by their bytes. -/
theorem eq_of_flatMap_toLeBytes {p : Prim} {xs ys : List p.Val} (hlen : xs.length = ys.length)
    (h : xs.flatMap toLeBytes = ys.flatMap toLeBytes) : xs = ys := by
  have hxs := valuesOf_flatMap [] xs
  rw [h, hlen, valuesOf_flatMap [] ys] at hxs
  exact hxs.symm

/-- The values in the memory `bs` are `as` iff `bs` is the memory of `as`. -/
theorem map_valuesOf_eq_iff {p : Prim} {e : p.Val ≃ α} {n : ℕ} {bs : List Byte} {as : List α}
    (hbs : bs.length = n * p.size) :
    (valuesOf p n bs).map e = as ↔ as.length = n ∧ bs = asByteSlice e as := by
  constructor
  · rintro rfl
    refine ⟨by rw [List.length_map, length_valuesOf], ?_⟩
    rw [asByteSlice_eq, List.map_map, Equiv.symm_comp_self, List.map_id, flatMap_valuesOf hbs]
  · rintro ⟨rfl, rfl⟩
    have h := valuesOf_flatMap [] (as.map e.symm)
    rw [List.length_map, List.append_nil] at h
    rw [asByteSlice_eq, h, List.map_map, Equiv.self_comp_symm, List.map_id]

theorem decodesList_known (hI : I.Lawful) {p : Prim} {e : p.Val ≃ α}
    (hinfo : I.typeInfo = .known p e) :
    ∀ {as : List α} {s : List Byte}, DecodesList I.decode as s s' ↔ s = asByteSlice e as ++ s'
  | [], s => eq_comm
  | a :: as, s => by
    simp only [DecodesList, (hI.typeInfo p e hinfo).2, decodesList_known hI hinfo]
    rw [asByteSlice_cons, List.append_assoc]
    constructor
    · rintro ⟨t, rfl, rfl⟩
      rfl
    · rintro rfl
      exact ⟨_, rfl, rfl⟩

theorem decodesList_prim {p : Prim} {xs : List p.Val} :
    DecodesList (primDecode p).decode xs s s' ↔ s = xs.flatMap toLeBytes ++ s' :=
  decodesList_known (primDecode_lawful p) rfl

/-- A bulk read of `n` items. -/
theorem decodes_bulk (hI : I.Lawful) {p : Prim} {e : p.Val ≃ α}
    (hinfo : I.typeInfo = .known p e) {n : ℕ} {as : List α} {s s' : List Byte} :
    Decodes ((fun buf => (valuesOf p n buf.toList).map e) <$> DecodeM.read (n * p.size)) s as s' ↔
      as.length = n ∧ DecodesList I.decode as s s' := by
  rw [decodes_map, decodesList_known hI hinfo]
  simp only [decodes_read]
  constructor
  · rintro ⟨buf, rfl, h⟩
    obtain ⟨hlen, hbuf⟩ := (map_valuesOf_eq_iff buf.toList_length).mp h.symm
    exact ⟨hlen, by rw [hbuf]⟩
  · rintro ⟨hlen, rfl⟩
    have hbuf : (asByteSlice e as).length = n * p.size := by rw [length_asByteSlice, hlen]
    exact ⟨⟨_, hbuf⟩, rfl, ((map_valuesOf_eq_iff hbuf).mpr ⟨hlen, rfl⟩).symm⟩

theorem decodes_readVecFromU8s (hI : I.Lawful) {p : Prim} {e : p.Val ≃ α}
    (hinfo : I.typeInfo = .known p e) {n : ℕ} {as : List α} :
    Decodes (readVecFromU8s tgt e n) s as s' ↔
      n * p.size ≤ tgt.usizeMax ∧ as.length = n ∧ DecodesList I.decode as s s' := by
  have hsize : p.size ≤ maxPreallocation := p.size_le.trans (by decide)
  unfold readVecFromU8s
  split_ifs with hbig
  · exact iff_of_false not_decodes_err fun h => absurd h.1 (by omega)
  · simp only [decodes_bind, decodes_checkRemaining,
      decodes_decodeVecChunked hsize (decodes_bulk hI hinfo)]
    constructor
    · rintro ⟨_, _, ⟨_, rfl⟩, h⟩
      exact ⟨not_lt.mp hbig, h⟩
    · rintro ⟨_, hlen, hd⟩
      refine ⟨(), s, ⟨?_, rfl⟩, hlen, hd⟩
      rw [(decodesList_known hI hinfo).mp hd, List.length_append, length_asByteSlice, hlen]
      omega

theorem decodes_decodeVecFromItems (hsize : I.size ≤ maxPreallocation) {n : ℕ} {as : List α} :
    Decodes (decodeVecFromItems tgt I n) s as s' ↔
      as.length = n ∧ DecodesList I.decode as s s' := by
  rw [decodeVecFromItems, decodes_nested]
  exact decodes_decodeVecChunked hsize decodes_replicateM

/-- What `decode_vec_with_len` returns is the items it read. -/
theorem decodesList_of_decodeVecWithLen (hI : I.Lawful) (hsize : I.size ≤ maxPreallocation)
    {n : ℕ} {as : List α} (h : Decodes (decodeVecWithLen tgt I n) s as s') :
    as.length = n ∧ DecodesList I.decode as s s' := by
  unfold decodeVecWithLen at h
  cases hinfo : I.typeInfo with
  | unknown =>
    rw [hinfo] at h
    exact (decodes_decodeVecFromItems hsize).mp h
  | known p e =>
    simp only [hinfo] at h
    split_ifs at h
    · exact ((decodes_readVecFromU8s hI hinfo).mp h).2
    · exact (decodes_decodeVecFromItems hsize).mp h

/-- `decode_vec_with_len` reads the items, if their memory can be addressed. -/
theorem decodes_decodeVecWithLen (hI : I.Lawful) (hsize : I.size ≤ maxPreallocation)
    {as : List α} (hmem : as.length * I.size ≤ tgt.usizeMax) (h : DecodesList I.decode as s s') :
    Decodes (decodeVecWithLen tgt I as.length) s as s' := by
  unfold decodeVecWithLen
  cases hinfo : I.typeInfo with
  | unknown => exact (decodes_decodeVecFromItems hsize).mpr ⟨rfl, h⟩
  | known p e =>
    rw [(hI.typeInfo p e hinfo).1] at hmem
    show Decodes (if tgt.littleEndian ∨ I.size = 1 then _ else _) s as s'
    split_ifs
    · exact (decodes_readVecFromU8s hI hinfo).mpr ⟨hmem, rfl, h⟩
    · exact (decodes_decodeVecFromItems hsize).mpr ⟨rfl, h⟩

/-- A length prefix, and then `f` of the length. -/
theorem decodes_len_bind {β : Type} {f : ℕ → DecodeM β} {b : β} :
    Decodes (do let len ← compactDecode tgt .u32; f len.toNat) s b s' ↔
      ∃ n t, n ≤ u32Max ∧ s = compactBytes n ++ t ∧ Decodes (f n) t b s' := by
  rw [decodes_bind]
  simp only [decodes_compactDecode]
  constructor
  · rintro ⟨x, t, rfl, h⟩
    have hx := x.isLt
    exact ⟨x.toNat, t, Nat.le_sub_one_of_lt hx, rfl, h⟩
  · rintro ⟨n, t, hn, rfl, h⟩
    have hx : (BitVec.ofNat (8 * Width.u32.prim.size) n).toNat = n := by
      rw [BitVec.toNat_ofNat, Nat.mod_eq_of_lt]
      show n < 2 ^ 32
      unfold u32Max at hn
      omega
    exact ⟨BitVec.ofNat _ n, t, by rw [hx], by rwa [hx]⟩

theorem decodesList_of_vecDecode (hI : I.Lawful) (hsize : I.size ≤ maxPreallocation) {size : ℕ}
    {as : List α} (h : Decodes (vecDecode tgt size I).decode s as s') :
    as.length ≤ u32Max ∧ ∃ t, s = compactBytes as.length ++ t ∧ DecodesList I.decode as t s' := by
  obtain ⟨n, t, hn, rfl, hvec⟩ := decodes_len_bind.mp h
  obtain ⟨rfl, hd⟩ := decodesList_of_decodeVecWithLen hI hsize hvec
  exact ⟨hn, t, rfl, hd⟩

theorem decodes_vecDecode (hI : I.Lawful) (hsize : I.size ≤ maxPreallocation) {size : ℕ}
    {as : List α} (hlen : as.length ≤ u32Max) (hmem : as.length * I.size ≤ tgt.usizeMax)
    (h : DecodesList I.decode as s s') :
    Decodes (vecDecode tgt size I).decode (compactBytes as.length ++ s) as s' :=
  decodes_len_bind.mpr ⟨_, s, hlen, rfl, decodes_decodeVecWithLen hI hsize hmem h⟩

/-- On a slice that can be addressed the items of a primitive type can be. -/
theorem mul_size_le_of_decodesList (hI : I.Lawful) {p : Prim} {e : p.Val ≃ α}
    (hinfo : I.typeInfo = .known p e) {as : List α} (h : DecodesList I.decode as s s') :
    as.length * p.size ≤ s.length := by
  rw [(decodesList_known hI hinfo).mp h, List.length_append, length_asByteSlice]
  exact Nat.le_add_right _ _

/-- On such a slice a vector is read as its length and its items. -/
theorem decodes_vecDecode_iff (hI : I.Lawful) (hsize : I.size ≤ maxPreallocation) {size : ℕ}
    {as : List α} (hs : s.length ≤ tgt.usizeMax) :
    Decodes (vecDecode tgt size I).decode s as s' ↔ as.length ≤ u32Max ∧
      ∃ t, s = compactBytes as.length ++ t ∧ DecodesList I.decode as t s' := by
  refine ⟨decodesList_of_vecDecode hI hsize, ?_⟩
  rintro ⟨hlen, t, rfl, h⟩
  cases hinfo : I.typeInfo with
  | unknown =>
    refine decodes_len_bind.mpr ⟨_, t, hlen, rfl, ?_⟩
    unfold decodeVecWithLen
    rw [hinfo]
    exact (decodes_decodeVecFromItems hsize).mpr ⟨rfl, h⟩
  | known p e =>
    refine decodes_vecDecode hI hsize hlen ?_ h
    rw [List.length_append] at hs
    rw [(hI.typeInfo p e hinfo).1]
    have hbytes := mul_size_le_of_decodesList hI hinfo h
    omega

theorem decodesList_congr {p q : DecodeM α}
    (h : ∀ s a s', Decodes p s a s' ↔ Decodes q s a s') :
    ∀ {as : List α} {s : List Byte}, DecodesList p as s s' ↔ DecodesList q as s s'
  | [], _ => Iff.rfl
  | a :: as, s => by simp only [DecodesList, h, decodesList_congr h]

/-- An array is read as its items. -/
theorem decodes_arrayDecodeInto (hI : I.Lawful) {n : ℕ} {v : List.Vector α n} :
    Decodes (arrayDecodeInto tgt n I) s v s' ↔ DecodesList I.decode v.toList s s' := by
  have hitems : Decodes (I.decodeInto.vectorM n) s v s' ↔ DecodesList I.decode v.toList s s' := by
    rw [decodes_vectorM, decodesList_congr hI.decodeInto]
  unfold arrayDecodeInto
  cases hinfo : I.typeInfo with
  | unknown => exact hitems
  | known p e =>
    show Decodes (if p.oneByte ∨ tgt.littleEndian then _ else _) s v s' ↔ _
    split_ifs
    · rw [decodes_map, decodesList_known hI hinfo]
      simp only [decodes_read]
      constructor
      · rintro ⟨buf, rfl, rfl⟩
        have hbuf : buf.toList.length = n * p.size := by rw [buf.toList_length, Nat.mul_comm]
        exact congrArg (· ++ s') ((map_valuesOf_eq_iff (e := e) hbuf).mp rfl).2
      · rintro rfl
        have hbuf : (asByteSlice e v.toList).length = p.size * n := by
          rw [length_asByteSlice, v.toList_length, Nat.mul_comm]
        refine ⟨⟨_, hbuf⟩, rfl, List.Vector.eq _ _ ?_⟩
        exact ((map_valuesOf_eq_iff (by rw [hbuf, Nat.mul_comm])).mpr ⟨v.toList_length, rfl⟩).symm
    · exact hitems

theorem decodes_skip_replicateM (hI : I.Lawful) :
    ∀ {n : ℕ} {s : List Byte}, (∃ us, Decodes (I.skip.replicateM n) s us s') ↔
      ∃ v : List.Vector α n, DecodesList I.decode v.toList s s'
  | 0, s => by
    simp only [DecodeM.replicateM, decodes_pure]
    constructor
    · rintro ⟨us, rfl, rfl⟩
      exact ⟨.nil, rfl⟩
    · rintro ⟨v, h⟩
      obtain rfl := v.eq_nil
      exact ⟨[], rfl, h⟩
  | n + 1, s => by
    simp only [DecodeM.replicateM, decodes_bind, hI.skip, decodes_pure]
    constructor
    · rintro ⟨_, _, t, ⟨a, ha⟩, us, u, hus, rfl, rfl⟩
      obtain ⟨v, hv⟩ := (decodes_skip_replicateM hI).mp ⟨us, hus⟩
      exact ⟨a ::ᵥ v, by rw [List.Vector.toList_cons]; exact ⟨t, ha, hv⟩⟩
    · rintro ⟨v, h⟩
      rw [← v.cons_head_tail, List.Vector.toList_cons] at h
      obtain ⟨t, ha, h⟩ := h
      obtain ⟨us, hus⟩ := (decodes_skip_replicateM hI).mpr ⟨v.tail, h⟩
      exact ⟨() :: us, (), t, ⟨_, ha⟩, us, s', hus, rfl, rfl⟩

theorem arrayDecode_lawful {n size : ℕ} (hI : I.Lawful) : (arrayDecode tgt n size I).Lawful := by
  refine ⟨fun _ _ _ => Iff.rfl, fun s u s' => ?_, fun _ _ h => by cases h⟩
  show Decodes (if I.encodedFixedSize.isSome then _ else _) s u s' ↔
    ∃ a, Decodes (arrayDecodeInto tgt n I) s a s'
  split_ifs
  · rw [decodes_skip, decodes_skip_replicateM hI]
    simp only [decodes_arrayDecodeInto hI]
  · exact decodes_skip

/-! ### Targets -/

theorem runSlice_chunkLoop_target {tgt' : Target} {size chunkLen : ℕ}
    {decodeChunk : ℕ → DecodeM (List α)} : ∀ (fuel n : ℕ) (s : List Byte),
      runSlice (chunkLoop tgt size chunkLen decodeChunk fuel n) s =
        runSlice (chunkLoop tgt' size chunkLen decodeChunk fuel n) s
  | 0, 0, _ => rfl
  | _ + 1, 0, _ => rfl
  | 0, _ + 1, _ => rfl
  | fuel + 1, _ + 1, _ =>
    runSlice_bind_congr rfl fun _ _ _ => runSlice_bind_congr rfl fun _ _ _ =>
      runSlice_bind_congr rfl fun _ _ _ =>
        runSlice_bind_congr (runSlice_chunkLoop_target fuel _ _) fun _ _ _ => rfl

/-- Integers are read from a slice in the same way on targets of one byte order, if the number of
their bytes is a `usize` of both. -/
theorem runSlice_decodeVecWithLen_target {tgt' : Target} {p : Prim} {n : ℕ}
    (he : tgt.littleEndian = tgt'.littleEndian) (h : n * p.size ≤ tgt.usizeMax)
    (h' : n * p.size ≤ tgt'.usizeMax) (s : List Byte) :
    runSlice (decodeVecWithLen tgt (primDecode p) n) s =
      runSlice (decodeVecWithLen tgt' (primDecode p) n) s := by
  have hchunked : ∀ (decodeChunk : ℕ → DecodeM (List p.Val)) (s : List Byte),
      runSlice (decodeVecChunked tgt p.size decodeChunk n) s =
        runSlice (decodeVecChunked tgt' p.size decodeChunk n) s := by
    intro decodeChunk s
    unfold decodeVecChunked
    rw [if_neg p.size_ne_zero, if_neg p.size_ne_zero]
    exact runSlice_chunkLoop_target n n s
  show runSlice (if tgt.littleEndian ∨ p.size = 1 then _ else _) s =
    runSlice (if tgt'.littleEndian ∨ p.size = 1 then _ else _) s
  rw [he]
  split_ifs
  · unfold readVecFromU8s
    rw [if_neg (not_lt.mpr h), if_neg (not_lt.mpr h')]
    exact runSlice_bind_congr rfl fun _ _ _ => hchunked _ _
  · exact runSlice_bind_congr rfl fun _ _ _ =>
      runSlice_bind_congr (hchunked _ _) fun _ _ _ => rfl

end Decoding

/-! ### The calls the decoders make -/

section Rel

variable {tgt : Target} {I J : Decode α} {L : DecoderLogic} {d : ℕ}

theorem Target.saturatingMul_eq {a b : ℕ} (h : a * b ≤ tgt.usizeMax) :
    tgt.saturatingMul a b = a * b :=
  min_eq_left h

theorem chunkLoop_rel {size chunkLen : ℕ} {decodeChunk decodeChunk' : ℕ → DecodeM (List α)}
    (hpos : 0 < chunkLen) (hmem : chunkLen * size ≤ tgt.usizeMax)
    (hchunk : ∀ n, L.Rel d (decodeChunk n) (decodeChunk' n)) :
    ∀ {fuel n : ℕ}, n ≤ fuel → L.Rel d (chunkLoop tgt size chunkLen decodeChunk fuel n)
      (chunkLoop tgt size chunkLen decodeChunk' fuel n)
  | 0, 0, _ => L.rel_pure _
  | _ + 1, 0, _ => L.rel_pure _
  | 0, n + 1, h => absurd h (Nat.not_succ_le_zero n)
  | fuel + 1, n + 1, h => by
    have hone : 1 ≤ min chunkLen (n + 1) := le_min hpos (Nat.succ_pos n)
    have hle : min chunkLen (n + 1) * size ≤ tgt.usizeMax :=
      (Nat.mul_le_mul_right size (min_le_left _ _)).trans hmem
    refine L.rel_claim (Target.saturatingMul_eq hle).ge (L.rel_bind (hchunk _) fun _ => ?_)
    exact L.rel_bind (chunkLoop_rel hpos hmem hchunk (by omega)) fun _ => L.rel_pure _

/-- A chunk can be addressed. -/
theorem maxPreallocation_le_usizeMax (tgt : Target) : maxPreallocation ≤ tgt.usizeMax := by
  have hmax : maxPreallocation ≤ u32Max := by decide
  exact hmax.trans tgt.u32Max_le_usizeMax

/-- A chunk takes no more memory than may be allocated at once. -/
theorem chunkLen_mul_le_maxPreallocation (tgt : Target) (size : ℕ) :
    (if size = 0 then tgt.usizeMax else maxPreallocation / size) * size ≤ maxPreallocation := by
  split_ifs with h
  · rw [h, Nat.mul_zero]
    exact Nat.zero_le _
  · exact Nat.div_mul_le_self _ _

theorem chunkLen_mul_le (tgt : Target) (size : ℕ) :
    (if size = 0 then tgt.usizeMax else maxPreallocation / size) * size ≤ tgt.usizeMax :=
  (chunkLen_mul_le_maxPreallocation tgt size).trans (maxPreallocation_le_usizeMax tgt)

theorem decodeVecChunked_rel {size n : ℕ} {decodeChunk decodeChunk' : ℕ → DecodeM (List α)}
    (hsize : size ≤ maxPreallocation) (hchunk : ∀ n, L.Rel d (decodeChunk n) (decodeChunk' n)) :
    L.Rel d (decodeVecChunked tgt size decodeChunk n) (decodeVecChunked tgt size decodeChunk' n) :=
  chunkLoop_rel (chunkLen_pos tgt hsize) (chunkLen_mul_le tgt size) hchunk le_rfl

/-- A loop over chunks reads what its chunks do. -/
theorem length_of_decodes_chunkLoop {size chunkLen k : ℕ} {decodeChunk : ℕ → DecodeM (List α)}
    (hchunk : ∀ {n s as s'}, Decodes (decodeChunk n) s as s' → s.length = n * k + s'.length) :
    ∀ {fuel n : ℕ} {as : List α} {s s' : List Byte},
      Decodes (chunkLoop tgt size chunkLen decodeChunk fuel n) s as s' →
        s.length = n * k + s'.length
  | 0, 0, _, s, s', h | _ + 1, 0, _, s, s', h => by
    rw [chunkLoop, decodes_pure] at h
    rw [h.2, Nat.zero_mul, Nat.zero_add]
  | 0, n + 1, _, _, _, h => absurd h not_decodes_outOfFuel
  | fuel + 1, n + 1, _, s, s', h => by
    simp only [chunkLoop, decodes_bind, decodes_onBeforeAllocMem, decodes_allocate] at h
    obtain ⟨_, _, rfl, _, _, rfl, items, t, hitems, rest, u, hrest, hpure⟩ := h
    have hsum : min chunkLen (n + 1) + (n + 1 - min chunkLen (n + 1)) = n + 1 :=
      Nat.add_sub_cancel' (min_le_right _ _)
    rw [(decodes_pure.mp hpure).2, hchunk hitems, length_of_decodes_chunkLoop hchunk hrest,
      ← Nat.add_assoc, ← Nat.add_mul, hsum]

theorem readVecFromU8s_rel {p : Prim} {e : p.Val ≃ α} {n : ℕ} :
    L.Rel d (readVecFromU8s tgt e n) (readVecFromU8s tgt e n) := by
  have hvec : ∀ {L : DecoderLogic}, L.Rel d (decodeVecChunked tgt p.size (fun n =>
      (fun buf => (valuesOf p n buf.toList).map e) <$> DecodeM.read (n * p.size)) n) _ := fun {L} =>
    decodeVecChunked_rel (p.size_le.trans (by decide)) fun _ => L.rel_map (L.rel_read _)
  refine L.rel_ite (fun _ => L.rel_err (by decide)) fun _ => L.rel_checkRemaining ?_ hvec
  refine failsBelow_of_obeys (hvec (L := Discipline.total.logic)) fun s as s' h => ?_
  rw [length_of_decodes_chunkLoop (fun hbuf => ?_) h]
  · exact Nat.le_add_right _ _
  · obtain ⟨buf, hbuf, _⟩ := decodes_map.mp hbuf
    rw [decodes_read.mp hbuf, List.length_append, buf.toList_length]

/-- The items are decoded one deeper. -/
theorem decodeVecFromItems_rel {n : ℕ} (hsize : I.size ≤ maxPreallocation) (hIJ : I.SameShape J)
    (hI : L.depthOk (d + 1) → L.Rel (d + 1) I.decode J.decode) :
    L.Rel d (decodeVecFromItems tgt I n) (decodeVecFromItems tgt J n) := by
  refine L.rel_nested fun hd => ?_
  rw [← hIJ.size]
  exact decodeVecChunked_rel hsize (L.rel_replicateM (hI hd))

theorem decodeVecWithLen_rel {n : ℕ} (hsize : I.size ≤ maxPreallocation) (hIJ : I.SameShape J)
    (hI : L.depthOk (d + 1) → L.Rel (d + 1) I.decode J.decode) :
    L.Rel d (decodeVecWithLen tgt I n) (decodeVecWithLen tgt J n) := by
  have hitems : L.Rel d (decodeVecFromItems tgt I n) (decodeVecFromItems tgt J n) :=
    decodeVecFromItems_rel hsize hIJ hI
  unfold decodeVecWithLen
  rw [← hIJ.typeInfo, ← hIJ.size]
  cases I.typeInfo with
  | unknown => exact hitems
  | known p e => exact L.rel_ite (fun _ => readVecFromU8s_rel) fun _ => hitems

theorem vecDecode_rel {size : ℕ} (hsize : I.size ≤ maxPreallocation) (hIJ : I.SameShape J)
    (hI : L.depthOk (d + 1) → L.Rel (d + 1) I.decode J.decode) :
    (vecDecode tgt size I).Rel L d (vecDecode tgt size J) :=
  Decode.rel_ofDecode <| L.rel_bind (compactDecode_rel .u32) fun _ =>
    decodeVecWithLen_rel hsize hIJ hI

theorem arrayDecode_sameShape {n size : ℕ} (hIJ : I.SameShape J) :
    (arrayDecode tgt n size I).SameShape (arrayDecode tgt n size J) :=
  ⟨rfl, rfl, congrArg (Option.map (· * n)) hIJ.encodedFixedSize⟩

theorem arrayDecode_rel {n size : ℕ} (hIJ : I.SameShape J) (hI : I.Rel L d J) :
    (arrayDecode tgt n size I).Rel L d (arrayDecode tgt n size J) := by
  have hinto : L.Rel d (arrayDecodeInto tgt n I) (arrayDecodeInto tgt n J) := by
    unfold arrayDecodeInto
    rw [← hIJ.typeInfo]
    cases I.typeInfo with
    | unknown => exact L.rel_vectorM hI.decodeInto n
    | known p e =>
      exact L.rel_ite (fun _ => L.rel_map (L.rel_read _)) fun _ => L.rel_vectorM hI.decodeInto n
  refine ⟨hinto, hinto, ?_⟩
  unfold arrayDecode
  rw [← hIJ.encodedFixedSize]
  exact L.rel_ite (fun _ => L.rel_map (L.rel_replicateM hI.skip n)) fun _ => L.rel_map hinto

end Rel

end ScaleCodec
