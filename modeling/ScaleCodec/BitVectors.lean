import ScaleCodec.RoundTrip

/-!
# What bit vectors are decoded as

The bytes of a bit sequence are its length and the elements that hold it, zeros after the last bit,
wherever the sequence is in its storage (`bitSlice_encode_decode`). The decoder reads as many
elements and takes the bits after the last one away without a look at them
(`decodes_bitVecDecode_iff`). So it accepts bytes that no sequence is encoded as, and is canonical
on exactly those whose padding is zero (`bitVec_canonical_iff`).

The encoder and the decoder bound the number of bits, `try_from_vec` the number of bits in whole
elements. With 32-bit `usize` the two bounds are the same number, so that a sequence whose last
element goes past it is encoded but not decoded (`bitVec_decode_target_iff`).
-/

namespace ScaleCodec

variable {tgt : Target} {size size' boxSize : ℕ} {st : BitStore} {o : BitOrder}
  {s s' bs rest : List Byte}

/-! ## Elements -/

theorem bitsOf_injective {w : ℕ} : Function.Injective (bitsOf o (w := w)) := by
  intro x y h
  cases o with
  | lsb0 =>
    refine BitVec.eq_of_getLsbD_eq fun i hi => ?_
    exact List.map_inj_left.mp h i (List.mem_range.mpr hi)
  | msb0 =>
    refine BitVec.eq_of_getMsbD_eq fun i hi => ?_
    exact List.map_inj_left.mp h i (List.mem_range.mpr hi)

/-- Elements are known by the bits they hold. -/
theorem eq_of_flatMap_bitsOf {w : ℕ} : ∀ {xs ys : List (BitVec w)}, xs.length = ys.length →
    xs.flatMap (bitsOf o) = ys.flatMap (bitsOf o) → xs = ys
  | [], [], _, _ => rfl
  | x :: xs, y :: ys, hlen, h => by
    obtain ⟨hx, hxs⟩ := List.append_inj h ((length_bitsOf o x).trans (length_bitsOf o y).symm)
    rw [bitsOf_injective hx, eq_of_flatMap_bitsOf (Nat.succ.inj hlen) hxs]

theorem length_elements (elems : List st.prim.Val) :
    (elems.flatMap (bitsOf o)).length = elems.length * st.bits :=
  length_flatMap_bitsOf elems

theorem length_take_elements {n : ℕ} {elems : List st.prim.Val}
    (hlen : elems.length = elts st n) : ((elems.flatMap (bitsOf o)).take n).length = n := by
  refine List.length_take_of_le ?_
  rw [length_elements, hlen]
  exact le_elts_mul st n

theorem flatMap_storageOf (st : BitStore) (o : BitOrder) (bits : List Bool) :
    (storageOf st o bits).flatMap (bitsOf o) =
      bits ++ List.replicate ((storageOf st o bits).length * st.bits - bits.length) false := by
  obtain ⟨k, hk⟩ := flatMap_bitChunks o st.bits_pos _ bits (Nat.le_refl _)
  have hbits : (storageOf st o bits).flatMap (bitsOf o) = bits ++ List.replicate k false := hk
  have hlen := length_elements (o := o) (storageOf st o bits)
  rw [hbits, List.length_append, List.length_replicate] at hlen
  rw [hbits, ← hlen, Nat.add_sub_cancel_left]

/-- The elements of a sequence are those with zeros after its bits. -/
theorem eq_storageOf_iff {n : ℕ} {elems : List st.prim.Val} (hlen : elems.length = elts st n) :
    elems = storageOf st o ((elems.flatMap (bitsOf o)).take n) ↔
      true ∉ (elems.flatMap (bitsOf o)).drop n := by
  have hn := length_take_elements (o := o) hlen
  have hstorage := flatMap_storageOf st o ((elems.flatMap (bitsOf o)).take n)
  have hcount := length_storageOf st o ((elems.flatMap (bitsOf o)).take n)
  rw [hn, ← hlen] at hcount
  rw [hcount, hn] at hstorage
  constructor
  · intro h hmem
    rw [← h] at hstorage
    rw [hstorage, List.drop_left' hn] at hmem
    exact Bool.noConfusion (List.eq_of_mem_replicate hmem)
  · intro h
    have hzero : (elems.flatMap (bitsOf o)).drop n =
        List.replicate (elems.length * st.bits - n) false :=
      List.eq_replicate_iff.mpr ⟨by rw [List.length_drop, length_elements], fun b hb => by
        cases b with
        | false => rfl
        | true => exact absurd hb h⟩
    refine eq_of_flatMap_bitsOf (o := o) hcount.symm ?_
    exact (List.take_append_drop n _).symm.trans (hzero ▸ hstorage.symm)

/-! ## Encoding and decoding -/

/-- The encoding of a bit sequence depends on its bits alone. It is the length and the elements
that hold the bits, padded with zeros, and is decoded as the sequence it is made of. -/
theorem bitSlice_encode_decode (hw : tgt.pointerWidth = .w64) (bits : List Bool)
    (hn : bits.length ≤ arch32bitBitsliceMaxBits) :
    ∃ (bs : List Byte) (elems : List st.prim.Val),
      (∀ head, ∃ v : BitSlice st o, v.head = head ∧ v.bits = bits) ∧
      (∀ v : BitSlice st o, v.bits = bits → Encodes (BitSlice.encode st o) v bs) ∧
      Encodes (bitSliceEncode st o) bits bs ∧
      bs.length = compactLen .u32 (BitVec.ofNat _ bits.length) +
        (bits.length + st.bits - 1) / st.bits * st.prim.size ∧
      bs = compactBytes bits.length ++ elems.flatMap toLeBytes ∧
      elems.flatMap (bitsOf o) =
        bits ++ List.replicate (elems.length * st.bits - bits.length) false ∧
      ∀ rest, Decodes (bitVecDecode tgt size st o).decode (bs ++ rest) bits rest ∧
        Decodes (bitBoxDecode tgt boxSize size st o).decode (bs ++ rest) bits rest := by
  have henc : Encodes (bitSliceEncode st o) bits
      (compactBytes bits.length ++ (storageOf st o bits).flatMap toLeBytes) :=
    encodes_bitSliceEncode.mpr ⟨hn, _, encodesList_prim.mpr rfl, rfl⟩
  have hfits : st.Fits tgt bits.length := fun h => by
    rw [hw] at h
    cases h
  have hdec : ∀ rest, Decodes (bitVecDecode tgt size st o).decode
      (compactBytes bits.length ++ (storageOf st o bits).flatMap toLeBytes ++ rest) bits rest := by
    intro rest
    rw [List.append_assoc]
    exact decodes_bitVecDecode hn (hfits.mul_le hn) (decodesList_prim.mpr rfl)
  refine ⟨_, storageOf st o bits, fun head => BitSlice.exists_bits_eq st o head bits,
    fun v hv => ?_, henc, ?_, rfl, flatMap_storageOf st o bits, fun rest => ⟨hdec rest, hdec rest⟩⟩
  · rw [BitSlice.encodes_iff, hv]
    exact henc
  · rw [List.length_append, length_flatMap_toLeBytes, length_storageOf, compactLen_eq,
      toNat_ofNat_u32 (le_u32Max_of_bits hn)]
    rfl

/-- The same three bits at the start and in the middle of a byte. -/
theorem bitSlice_encode_decode_offsets :
    ∃ bs, Encodes (BitSlice.encode .u8 .msb0) ⟨[0xa0#8], 0, 3, by decide⟩ bs ∧
      Encodes (BitSlice.encode .u8 .msb0) ⟨[0x74#8], 3, 3, by decide⟩ bs ∧
      ∀ rest, Decodes (bitVecDecode ⟨.w64, true⟩ 24 .u8 .msb0).decode (bs ++ rest)
        [true, false, true] rest := by
  obtain ⟨bs, _, -, hslice, -, -, -, -, hdec⟩ :=
    @bitSlice_encode_decode ⟨.w64, true⟩ 24 16 .u8 .msb0 rfl [true, false, true] (by decide)
  exact ⟨bs, hslice _ (by decide), hslice _ (by decide), fun rest => (hdec rest).1⟩

/-! ## Padding -/

/-- The bits after the last bit of the sequence that the bytes start with, in its elements. -/
def paddingBits (tgt : Target) (st : BitStore) (o : BitOrder) (bs : List Byte) : List Bool :=
  match runSlice (compactDecode tgt .u32) bs with
  | .ok (.ok len, rest) =>
    ((valuesOf st.prim (elts st len.toNat) rest).flatMap (bitsOf o)).drop len.toNat
  | _ => []

theorem paddingBits_eq {n : ℕ} {elems : List st.prim.Val} (hn : n ≤ u32Max)
    (hlen : elems.length = elts st n) :
    paddingBits tgt st o (compactBytes n ++ (elems.flatMap toLeBytes ++ rest)) =
      (elems.flatMap (bitsOf o)).drop n := by
  have hcompact : Decodes (compactDecode tgt .u32)
      (compactBytes n ++ (elems.flatMap toLeBytes ++ rest)) (BitVec.ofNat _ n)
      (elems.flatMap toLeBytes ++ rest) :=
    decodes_compactDecode.mpr (by rw [toNat_ofNat_u32 hn])
  unfold paddingBits
  rw [show runSlice _ _ = _ from hcompact]
  dsimp only
  rw [toNat_ofNat_u32 hn, ← hlen, valuesOf_flatMap]

/-- Accepted bytes are the encoding of what they are decoded as if and only if the bits after the
last one are zero. -/
theorem bitVec_canonical_iff {v : List Bool}
    (h : Decodes (bitVecDecode tgt size st o).decode bs v rest) :
    (∃ enc, Encodes (bitSliceEncode st o) v enc ∧ bs = enc ++ rest) ↔
      true ∉ paddingBits tgt st o bs := by
  obtain ⟨n, elems, hn, hlen, -, rfl, rfl⟩ := decodes_bitVecDecode_iff.mp h
  have htake := length_take_elements (o := o) hlen
  rw [paddingBits_eq (le_u32Max_of_bits hn) hlen, ← eq_storageOf_iff hlen]
  constructor
  · rintro ⟨enc, henc, hbs⟩
    obtain ⟨-, b, hb, rfl⟩ := encodes_bitSliceEncode.mp henc
    obtain rfl := encodesList_prim.mp hb
    rw [htake, List.append_assoc, List.append_cancel_left_eq, List.append_cancel_right_eq] at hbs
    exact eq_of_flatMap_toLeBytes (by rw [length_storageOf, htake, hlen]) hbs
  · intro helems
    refine ⟨_, encodes_bitSliceEncode.mpr ⟨by rwa [htake], _, encodesList_prim.mpr rfl, rfl⟩, ?_⟩
    rw [← helems, htake, List.append_assoc]

/-- The eight bits of a byte are read as one, the other seven being one too. -/
theorem bitVec_padding_not_canonical :
    Decodes (bitVecDecode ⟨.w64, true⟩ 24 .u8 .msb0).decode [4, 255] [true] [] ∧
      Encodes (bitSliceEncode .u8 .msb0) [true] [4, 128] :=
  ⟨decodes_bitVecDecode_iff.mpr ⟨1, [0xff#8], by decide, rfl, by decide, rfl, rfl⟩, rfl⟩

theorem bitVec_canonical_iff_one_bit :
    ∃ enc, Encodes (bitSliceEncode .u8 .msb0) [true] enc ∧ [4, 128] = enc ++ [] :=
  (@bitVec_canonical_iff ⟨.w64, true⟩ 24 .u8 .msb0 [4, 128] [] [true]
    (decodes_bitVecDecode_iff.mpr ⟨1, [0x80#8], by decide, rfl, by decide, rfl, rfl⟩)).mpr
      (by decide)

/-! ## Targets -/

/-- The bytes start with a length that the decoder accepts and the elements of so many bits, which
are more than `bitvec` can address with 32-bit `usize`. -/
def PastAddressable (st : BitStore) (s : List Byte) : Prop :=
  ∃ n t, s = compactBytes n ++ t ∧ n ≤ arch32bitBitsliceMaxBits ∧
    arch32bitBitsliceMaxBits + 1 - st.bits < n ∧ elts st n * st.prim.size ≤ t.length

/-- The bits of whole elements go past the bound for the lengths less than one element from it. -/
theorem lt_elts_mul_iff {n : ℕ} (hn : n ≤ arch32bitBitsliceMaxBits) :
    arch32bitBitsliceMaxBits < elts st n * st.bits ↔
      arch32bitBitsliceMaxBits + 1 - st.bits < n := by
  unfold elts arch32bitBitsliceMaxBits at *
  cases st <;> simp only [BitStore.bits, BitStore.prim, Prim.size] <;> omega

theorem elts_mul_size_le {n : ℕ} (hn : n ≤ arch32bitBitsliceMaxBits) (tgt : Target) :
    elts st n * st.prim.size ≤ tgt.usizeMax := by
  have hle : elts st n * st.prim.size ≤ 0x1000_0000 := by
    unfold elts arch32bitBitsliceMaxBits at *
    cases st <;> simp only [BitStore.bits, BitStore.prim, Prim.size] <;> omega
  obtain ⟨w, le⟩ := tgt
  cases w <;> cases le <;> exact hle.trans (by decide)

theorem usizeMax_shiftRight_w32 (le : Bool) :
    Target.usizeMax ⟨.w32, le⟩ >>> 3 = arch32bitBitsliceMaxBits := by
  cases le <;> decide

theorem elts_mul_bits_le {n : ℕ} (hn : n ≤ arch32bitBitsliceMaxBits) (le : Bool) :
    elts st n * st.bits ≤ Target.usizeMax ⟨.w64, le⟩ >>> 3 :=
  BitStore.Fits.mul_le (fun h => by cases h) hn

theorem exists_elements {n : ℕ} {t : List Byte} (ht : elts st n * st.prim.size ≤ t.length) :
    ∃ (elems : List st.prim.Val) (t' : List Byte), elems.length = elts st n ∧
      t = elems.flatMap toLeBytes ++ t' := by
  refine ⟨valuesOf st.prim (elts st n) (t.take (elts st n * st.prim.size)),
    t.drop (elts st n * st.prim.size), length_valuesOf _ _ _, ?_⟩
  rw [flatMap_valuesOf (List.length_take_of_le ht), List.take_append_drop]

theorem decodes_of_pastAddressable (h : PastAddressable st s) (le : Bool) :
    ∃ v s', Decodes (bitVecDecode ⟨.w64, le⟩ size st o).decode s v s' := by
  obtain ⟨n, t, rfl, hn, -, ht⟩ := h
  obtain ⟨elems, t', hlen, rfl⟩ := exists_elements ht
  exact ⟨_, t', decodes_bitVecDecode_iff.mpr
    ⟨n, elems, hn, hlen, elts_mul_bits_le hn le, rfl, rfl⟩⟩

/-- The text of the branch that `try_from_vec` fails in. -/
def unexpectedError : String :=
  "UNEXPECTED ERROR: `bits` is less or equal to\n" ++
    "\t\t\t\t\t`ARCH32BIT_BITSLICE_MAX_BITS`; So BitVec must be able to handle the number of\n" ++
    "\t\t\t\t\tsegment needed for `bits` to be represented; qed"

/-- The branch that is said not to be reached. -/
theorem unexpected_of_pastAddressable (h : PastAddressable st s) (le : Bool) :
    ∃ s', runSlice (bitVecDecode ⟨.w32, le⟩ size st o).decode s =
      .ok (.error (.desc unexpectedError), s') := by
  obtain ⟨n, t, rfl, hn, hlt, ht⟩ := h
  obtain ⟨elems, t', hlen, rfl⟩ := exists_elements ht
  have hnat := toNat_ofNat_u32 (le_u32Max_of_bits hn)
  have hcompact : runSlice (compactDecode ⟨.w32, le⟩ .u32)
      (compactBytes n ++ (elems.flatMap toLeBytes ++ t')) =
        .ok (.ok (BitVec.ofNat _ n), elems.flatMap toLeBytes ++ t') :=
    decodes_compactDecode.mpr (by rw [hnat])
  have hitems : DecodesList (primDecode st.prim).decode elems
      (elems.flatMap toLeBytes ++ t') t' := decodesList_prim.mpr rfl
  have hvec : runSlice (decodeVecWithLen ⟨.w32, le⟩ (primDecode st.prim) elems.length)
      (elems.flatMap toLeBytes ++ t') = .ok (.ok elems, t') :=
    decodes_decodeVecWithLen (primDecode_lawful _) ((Prim.size_le _).trans (by decide))
      (hlen ▸ elts_mul_size_le hn _) hitems
  have hbits : Target.usizeMax ⟨.w32, le⟩ >>> 3 < elems.length * st.bits := by
    rw [hlen, usizeMax_shiftRight_w32]
    exact (lt_elts_mul_iff hn).mpr hlt
  refine ⟨t', (runSlice_bind _ _ _).trans ?_⟩
  rw [hcompact]
  show runSlice (if _ then _ else _) _ = _
  rw [hnat, if_neg (not_lt.mpr hn), ← hlen, runSlice_bind, hvec]
  show runSlice (if _ then _ else _) _ = _
  rw [if_pos hbits]
  rfl

/-- A bit vector is decoded in the same way with 32-bit and with 64-bit `usize`, unless its last
element goes past the bits that can be addressed with the former. -/
theorem bitVec_decode_target_iff (le : Bool) :
    runSlice (bitVecDecode ⟨.w32, le⟩ size st o).decode s =
      runSlice (bitVecDecode ⟨.w64, le⟩ size' st o).decode s ↔ ¬PastAddressable st s := by
  constructor
  · intro heq hpast
    obtain ⟨v, s', h64⟩ := decodes_of_pastAddressable (o := o) hpast le
    obtain ⟨s'', h32⟩ := unexpected_of_pastAddressable (o := o) hpast le
    cases h32.symm.trans (heq.trans h64)
  · intro hpast
    have hsize : (primDecode st.prim).size ≤ maxPreallocation :=
      (Prim.size_le _).trans (by decide)
    refine runSlice_bind_congr (by rw [compactDecode_target]) fun len t hlen => ?_
    dsimp only
    split_ifs with hbits
    · rfl
    rw [not_lt] at hbits
    refine runSlice_bind_congr (runSlice_decodeVecWithLen_target (by rfl)
      (elts_mul_size_le hbits _) (elts_mul_size_le hbits _) t) fun vec t' hvec => ?_
    obtain ⟨hcount, hitems⟩ := decodesList_of_decodeVecWithLen (primDecode_lawful _) hsize hvec
    have ht : elts st len.toNat * st.prim.size ≤ t.length := by
      rw [decodesList_prim.mp hitems, List.length_append, length_flatMap_toLeBytes, hcount]
      exact Nat.le_add_right _ _
    have hle : elts st len.toNat * st.bits ≤ arch32bitBitsliceMaxBits := by
      refine not_lt.mp fun hlt => hpast ?_
      exact ⟨_, t, decodes_compactDecode.mp hlen, hbits, (lt_elts_mul_iff hbits).mp hlt, ht⟩
    rw [hcount, usizeMax_shiftRight_w32, if_neg (not_lt.mpr hle),
      if_neg (not_lt.mpr (elts_mul_bits_le hbits le))]

/-- All bits of the largest number that is accepted, in 64 MiB of elements. -/
theorem bitVec_decode_target_differs :
    ∃ s : List Byte, s.length = 2 ^ 26 + 4 ∧
      (∃ v s', Decodes (bitVecDecode ⟨.w64, true⟩ 24 .u8 .msb0).decode s v s') ∧
      ∃ s', runSlice (bitVecDecode ⟨.w32, true⟩ 12 .u8 .msb0).decode s =
        .ok (.error (.desc unexpectedError), s') := by
  have hpast : PastAddressable .u8
      (compactBytes arch32bitBitsliceMaxBits ++ List.replicate (2 ^ 26) 0) :=
    ⟨_, _, rfl, le_rfl, by decide, by rw [List.length_replicate]; decide⟩
  refine ⟨_, ?_, decodes_of_pastAddressable hpast true, unexpected_of_pastAddressable hpast true⟩
  rw [List.length_append, List.length_replicate, Nat.add_comm]
  rfl

end ScaleCodec
