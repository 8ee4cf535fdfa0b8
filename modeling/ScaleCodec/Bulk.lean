import ScaleCodec.EncodeLike

/-!
# The bulk paths

Vectors and arrays of the primitive types have a path of their own, which moves the memory of all
items at once. On a little-endian target it reads what the decoders of the items read one after the
other, and fails where one of them does (`bulk_decode_eq_items`). It writes what the encoders of
the items write, on targets of either byte order and whether the items are there or behind pointers
(`bulk_encode_eq_items`).
-/

namespace ScaleCodec

variable {α : Type} {tgt : Target} {p : Prim} {s : List Byte}

/-! ## Decoding -/

/-- Both decoders return the same value and leave the same bytes unread, or both return `Err`. -/
def SameResult (p q : DecodeM α) (s : List Byte) : Prop :=
  (∃ a rest, Decodes p s a rest ∧ Decodes q s a rest) ∨
    (∃ e rest, runSlice p s = .ok (.error e, rest)) ∧ ∃ e rest, runSlice q s = .ok (.error e, rest)

/-- Decoders that return on every slice have the same results if they accept the same bytes. -/
theorem sameResult_of_obeys {p q : DecodeM α} (hp : Obeys .total 0 p) (hq : Obeys .total 0 q)
    (h : ∀ a rest, Decodes p s a rest ↔ Decodes q s a rest) : SameResult p q s := by
  obtain ⟨r, t, hr⟩ := (runSlice_of_obeys (fun _ => trivial) hp s).resolve_right
    fun ⟨_, _, hh⟩ => hh
  obtain ⟨r', t', hr'⟩ := (runSlice_of_obeys (fun _ => trivial) hq s).resolve_right
    fun ⟨_, _, hh⟩ => hh
  cases r with
  | ok a => exact .inl ⟨a, t, hr, (h a t).mp hr⟩
  | error e =>
    cases r' with
    | ok a => cases hr.symm.trans ((h a t').mpr hr')
    | error e' => exact .inr ⟨⟨e, t, hr⟩, e', t', hr'⟩

/-- The bulk paths read what the item paths read. -/
theorem bulk_decode_eq_items (hle : tgt.littleEndian = true) (hs : s.length ≤ tgt.usizeMax)
    (n : ℕ) :
    decodeVecWithLen tgt (primDecode p) n = readVecFromU8s tgt (Equiv.refl p.Val) n ∧
      SameResult (readVecFromU8s tgt (Equiv.refl p.Val) n)
        (decodeVecFromItems tgt (primDecode p) n) s ∧
      SameResult (readVecFromU8s tgt (Equiv.refl p.Val) n) ((primDecode p).decode.replicateM n) s ∧
      SameResult (arrayDecodeInto tgt n (primDecode p)) ((primDecode p).decode.vectorM n) s := by
  have hsize : (primDecode p).size ≤ maxPreallocation := p.size_le.trans (by decide)
  have hprim : ∀ d, (primDecode p).Rel Discipline.total.logic d (primDecode p) :=
    fun _ => primDecode_rel p
  have hbulk : Obeys .total 0 (readVecFromU8s tgt (Equiv.refl p.Val) n) :=
    readVecFromU8s_rel (L := Discipline.total.logic)
  have hitems : Obeys .total 0 (decodeVecFromItems tgt (primDecode p) n) :=
    decodeVecFromItems_rel (L := Discipline.total.logic) hsize (.refl _) fun _ => (hprim 1).decode
  have hone : Obeys .total 0 ((primDecode p).decode.replicateM n) :=
    Discipline.total.logic.rel_replicateM (hprim 0).decode n
  have harray : (arrayDecode tgt n 0 (primDecode p)).Rel Discipline.total.logic 0 _ :=
    arrayDecode_rel (.refl _) (hprim 0)
  have hvector : Obeys .total 0 ((primDecode p).decode.vectorM n) :=
    Discipline.total.logic.rel_vectorM (hprim 0).decode n
  have hread : ∀ as rest, Decodes (readVecFromU8s tgt (Equiv.refl p.Val) n) s as rest ↔
      as.length = n ∧ DecodesList (primDecode p).decode as s rest := by
    intro as rest
    rw [decodes_readVecFromU8s (primDecode_lawful p) rfl]
    refine and_iff_right_of_imp fun h => ?_
    rw [← h.1]
    exact (mul_size_le_of_decodesList (primDecode_lawful p) rfl h.2).trans hs
  refine ⟨?_, sameResult_of_obeys hbulk hitems fun as rest => ?_,
    sameResult_of_obeys hbulk hone fun as rest => ?_,
    sameResult_of_obeys harray.decode hvector fun v rest => ?_⟩
  · show (if tgt.littleEndian ∨ _ then _ else _) = _
    rw [if_pos (.inl hle)]
  · rw [hread, decodes_decodeVecFromItems hsize]
  · rw [hread, decodes_replicateM]
  · rw [decodes_arrayDecodeInto (primDecode_lawful p), decodes_vectorM]

/-- Two integers of which the second is cut off. -/
theorem bulk_decode_eq_items_cut :
    SameResult (readVecFromU8s ⟨.w64, true⟩ (Equiv.refl Prim.u16.Val) 2)
      (decodeVecFromItems ⟨.w64, true⟩ (primDecode .u16) 2) [1, 0, 2] :=
  (@bulk_decode_eq_items ⟨.w64, true⟩ .u16 [1, 0, 2] rfl (by decide) 2).2.1

/-! ## Encoding -/

variable {ι : Type} {ν : ι → Type} {P : Platform ν} {env : ∀ i, Encode (ν i)}

/-- The type behind pointers, the outermost first. -/
def RefTy.behind (ks : List Pointer) (t : RefTy ν α) : RefTy ν α :=
  ks.foldr RefTy.ptr t

/-- Pointers are not seen in the encoding. -/
theorem RefTy.encodes_behind {t : RefTy ν α} {a : α} {bs : List Byte} :
    ∀ ks : List Pointer,
      Encodes ((t.behind ks).encode P env) a bs ↔ Encodes (t.encode P env) a bs
  | [] => Iff.rfl
  | _ :: ks => encodes_forward.trans (encodes_behind ks)

theorem RefTy.behind_lawful {t : RefTy ν α} (ht : (t.encode P env).Lawful) :
    ∀ ks : List Pointer, ((t.behind ks).encode P env).Lawful
  | [] => ht
  | _ :: ks => (behind_lawful ht ks).forward id

theorem encodes_vec_iff {E : Encode α} (hE : E.Lawful) {as : List α} {b bs : List Byte}
    (hb : EncodesList E as b) : Encodes (vecEncode tgt E) as bs ↔
      as.length ≤ u32Max ∧ bs = compactBytes as.length ++ b := by
  rw [encodes_vecEncode hE]
  refine and_congr_right fun _ => ⟨?_, fun h => ⟨b, hb, h⟩⟩
  rintro ⟨c, hc, h⟩
  rw [h, hc.unique hb]

/-- `encode_slice_no_len` writes the encodings of the items one after the other. They are what an
array is encoded as, and slices, vectors and ring buffers, wherever they wrap, as the length and
them. The items may be behind pointers, and none is encoded if the length does not fit. -/
theorem bulk_encode_eq_items (p : Prim) (xs : List p.Val) :
    ∃ b, EncodesList (primEncode p) xs b ∧ ∀ ks : List Pointer,
      let E := ((RefTy.prim p).behind ks).encode P env
      Writes (encodeSliceNoLen P.target E xs) b ∧
      (∀ n (v : List.Vector p.Val n), v.toList = xs → Encodes (arrayEncode P.target n E) v b) ∧
      ∀ bs, (Encodes (sliceEncode P.target E) xs bs ↔
          xs.length ≤ u32Max ∧ bs = compactBytes xs.length ++ b) ∧
        (Encodes (vecEncode P.target E) xs bs ↔
          xs.length ≤ u32Max ∧ bs = compactBytes xs.length ++ b) ∧
        ∀ split, Encodes (vecDequeEncode P.target split E) xs bs ↔
          xs.length ≤ u32Max ∧ bs = compactBytes xs.length ++ b := by
  have hprim : EncodesList (primEncode p) xs (xs.flatMap toLeBytes) := encodesList_prim.mpr rfl
  refine ⟨_, hprim, fun ks => ?_⟩
  have hitem : ((RefTy.prim p).encode P env).Lawful := primEncode_lawful p
  have hE : (((RefTy.prim p).behind ks).encode P env).Lawful := RefTy.behind_lawful hitem ks
  have hb : EncodesList (((RefTy.prim p).behind ks).encode P env) xs (xs.flatMap toLeBytes) :=
    (RefTy.encodesList_congr fun _ _ => RefTy.encodes_behind ks).mpr hprim
  refine ⟨(writes_encodeSliceNoLen hE).mpr hb, fun n v hv => ?_, fun bs => ?_⟩
  · subst hv
    exact (encodes_arrayEncode hE).mpr hb
  · exact ⟨encodes_vec_iff hE hb, encodes_vec_iff hE hb, fun split =>
      (encodes_vecDequeEncode hE).trans (encodes_vec_iff hE hb)⟩

/-- An array has no length before its items. -/
theorem array_vec_encode_differ :
    Encodes (arrayEncode ⟨.w64, true⟩ 1 (primEncode .u8)) ⟨[1], rfl⟩ [1] ∧
      Encodes (vecEncode ⟨.w64, true⟩ (primEncode .u8)) [1] [4, 1] :=
  ⟨rfl, rfl⟩

end ScaleCodec
