import ScaleCodec.MaxLen

/-!
# Skipping and fixed sizes

`skip` consumes what `decode` does, because it does so for every part (`Decode.Lawful`). An array
skips item by item if `encoded_fixed_size` is known, and that size is the product of the lengths
of nested arrays and the size of the innermost items. It is the length of every encoding, and of
what every decoding consumes (`FixedSize`).
-/

namespace ScaleCodec

variable {α : Type} {E : Encode α} {I : Decode α}

/-- The `encoded_fixed_size` of a type, if it has one, is the length of every encoding, and of
what `decode` consumes. -/
def FixedSize (E : Encode α) (I : Decode α) : Prop :=
  ∀ n, I.encodedFixedSize = some n →
    E.Sized n True ∧ ∀ s a s', Decodes I.decode s a s' → s.length = n + s'.length

theorem fixedSize_prim (p : Prim) : FixedSize (primEncode p) (primDecode p) := by
  intro n hn
  have hsize : p.size = n := by
    have hn : (if p.oneByte then none else some p.size) = some n := hn
    split_ifs at hn
    exact Option.some.inj hn
  subst hsize
  refine ⟨sized_of_length (primEncode_encode p) fun _ => length_toLeBytes _, fun s a s' h => ?_⟩
  rw [decodes_primDecode.mp h, List.length_append, length_toLeBytes]

theorem fixedSize_bool : FixedSize boolEncode boolDecode := by
  intro n hn
  obtain rfl := Option.some.inj hn
  refine ⟨sized_of_length boolEncode_encode fun _ => rfl, fun s a s' h => ?_⟩
  rw [decodes_boolDecode.mp h, List.length_cons, Nat.add_comm]

/-- Items that consume `n` bytes each. -/
theorem length_of_decodesList {p : DecodeM α} {n : ℕ}
    (h : ∀ s a s', Decodes p s a s' → s.length = n + s'.length) :
    ∀ {as : List α} {s s' : List Byte}, DecodesList p as s s' →
      s.length = n * as.length + s'.length
  | [], s, s', has => by
    rw [show s' = s from has, List.length_nil, Nat.mul_zero, Nat.zero_add]
  | a :: as, s, s', ⟨t, ha, has⟩ => by
    rw [h s a t ha, length_of_decodesList h has, List.length_cons, Nat.mul_succ]
    omega

theorem fixedSize_array {tgt : Target} {m size : ℕ} (hE : E.Lawful) (hI : I.Lawful)
    (h : FixedSize E I) : FixedSize (arrayEncode tgt m E) (arrayDecode tgt m size I) := by
  intro k hk
  obtain ⟨n, hn, rfl⟩ := Option.map_eq_some_iff.mp hk
  obtain ⟨hsized, hlen⟩ := h n hn
  refine ⟨sized_arrayEncode hE hsized, fun s v s' hv => ?_⟩
  have hitems := length_of_decodesList hlen ((decodes_arrayDecodeInto hI).mp hv)
  rwa [v.toList_length] at hitems

/-- Only the primitive types, `bool` and arrays of them have a fixed size. -/
theorem Ty.fixedSize {ι : Type} {ν : ι → Type} {P : Platform ν} {envE : ∀ i, Encode (ν i)}
    {envD : ∀ i, Decode (ν i)} (hE : ∀ i, (envE i).Lawful) (hD : ∀ i, (envD i).Lawful)
    (henv : ∀ i, FixedSize (envE i) (envD i)) (t : Ty ν α) :
    FixedSize (t.encode P envE) (t.decode P envD) := by
  induction t with
  | prim p => exact fixedSize_prim p
  | bool => exact fixedSize_bool
  | array n t ih => exact fixedSize_array (encode_lawful hE t) (decodeWith_lawful hD t) ih
  | named i => exact henv i
  | _ => exact fun n hn => by cases hn

/-- `skip` accepts what `decode` accepts and leaves the same bytes. A fixed size is the length of
every encoding, and of what each of the two consumes. -/
theorem LibTy.skip_exact (P : Platform Empty.elim) (t : LibTy α) (s : List Byte) :
    (∀ s', Decodes (t.decode P).skip s () s' ↔ ∃ v, Decodes (t.decode P).decode s v s') ∧
    ∀ n, (t.decode P).encodedFixedSize = some n →
      (∀ v, ∃ bs, Encodes (t.encode P) v bs ∧ bs.length = n) ∧
      (∀ v s', Decodes (t.decode P).decode s v s' → s.length = n + s'.length) ∧
      ∀ s', Decodes (t.decode P).skip s () s' → s.length = n + s'.length := by
  have hlawful : (LibTy.decode P t).Lawful := Ty.decodeWith_lawful (fun i => i.elim) t
  refine ⟨hlawful.skip s (), fun n hn => ?_⟩
  obtain ⟨hsized, hlen⟩ :=
    Ty.fixedSize (P := P) (fun i => i.elim) (fun i => i.elim) (fun i => i.elim) t n hn
  refine ⟨fun v => ?_, hlen s, fun s' h => ?_⟩
  · obtain ⟨bs, henc, -, hconst⟩ := hsized v
    exact ⟨bs, henc, hconst trivial⟩
  · obtain ⟨v, hv⟩ := (hlawful.skip s () s').mp h
    exact hlen s v s' hv

end ScaleCodec
