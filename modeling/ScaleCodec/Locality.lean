import ScaleCodec.RoundTrip
import ScaleCodec.TypeDiscipline

/-!
# Decoding depends on the bytes it consumes

A decoder that returns `Ok` did so because of the bytes it consumed : followed by any other bytes
they decode to the same value (`Local`). This is a logic of decoders (`locality`). The one place
where a decoder looks past what it consumes is the check of the remaining length of a bulk vector,
and it passes on the consumed bytes alone, because these are as many as it asks for.

Cut short, the consumed bytes do not decode (`LibTy.decode_local`).
-/

namespace ScaleCodec

variable {α β : Type} {p q : DecodeM α}

/-- What `p` accepts it accepts because of the bytes it consumes. -/
def Local (p : DecodeM α) : Prop :=
  ∀ s a s', Decodes p s a s' → ∃ c, s = c ++ s' ∧ ∀ ext, Decodes p (c ++ ext) a ext

theorem Local.congr (hp : Local p) (h : ∀ {s a s'}, Decodes q s a s' ↔ Decodes p s a s') :
    Local q := by
  intro s a s' hq
  obtain ⟨c, hs, hext⟩ := hp s a s' (h.mp hq)
  exact ⟨c, hs, fun ext => h.mpr (hext ext)⟩

theorem local_pure (a : α) : Local (pure a) := by
  intro s b s' h
  obtain ⟨rfl, rfl⟩ := decodes_pure.mp h
  exact ⟨[], rfl, fun ext => decodes_pure.mpr ⟨rfl, rfl⟩⟩

theorem local_bind_of_yields {P : α → Prop} {f : α → DecodeM β} (hp : Local p) (hP : Yields P p)
    (hf : ∀ a, P a → Local (f a)) : Local (p >>= f) := by
  intro s b s' h
  obtain ⟨a, t, ha, hb⟩ := decodes_bind.mp h
  obtain ⟨c, rfl, hc⟩ := hp s a t ha
  obtain ⟨c', rfl, hc'⟩ := hf a (hP.of_run ha) t b s' hb
  refine ⟨c ++ c', (List.append_assoc c c' s').symm, fun ext => ?_⟩
  rw [List.append_assoc]
  exact decodes_bind.mpr ⟨a, c' ++ ext, hc _, hc' ext⟩

theorem local_read (n : ℕ) : Local (DecodeM.read n) := by
  intro s v s' h
  exact ⟨v.toList, decodes_read.mp h, fun ext => decodes_read.mpr rfl⟩

theorem local_readByte : Local DecodeM.readByte := by
  intro s b s' h
  exact ⟨[b], decodes_readByte.mp h, fun ext => decodes_readByte.mpr rfl⟩

theorem decodes_claim {size alloc : ℕ} {s s' : List Byte} {a : α} :
    Decodes (do DecodeM.onBeforeAllocMem size; DecodeM.allocate alloc; p) s a s' ↔
      Decodes p s a s' := by
  simp only [decodes_bind, decodes_onBeforeAllocMem, decodes_allocate]
  constructor
  · rintro ⟨_, _, rfl, _, _, rfl, h⟩
    exact h
  · exact fun h => ⟨(), s, rfl, (), s, rfl, h⟩

/-- The check passes on the consumed bytes alone : `p` does not accept fewer than `n`. -/
theorem local_checkRemaining {n : ℕ} (hn : FailsBelow n p) (hp : Local p) :
    Local (do checkRemaining n; p) := by
  have hiff : ∀ {s a s'}, Decodes (do checkRemaining n; p) s a s' ↔
      n ≤ s.length ∧ Decodes p s a s' := by
    intro s a s'
    simp only [decodes_bind, decodes_checkRemaining]
    constructor
    · rintro ⟨_, _, ⟨hle, rfl⟩, h⟩
      exact ⟨hle, h⟩
    · exact fun h => ⟨(), s, ⟨h.1, rfl⟩, h.2⟩
  intro s a s' h
  obtain ⟨c, hs, hext⟩ := hp s a s' (hiff.mp h).2
  refine ⟨c, hs, fun ext => hiff.mpr ⟨?_, hext ext⟩⟩
  by_contra hlt
  obtain ⟨e, t, he⟩ := hn (c ++ ext) (not_le.mp hlt)
  rw [hext ext] at he
  cases he

/-- The logic of locality. -/
def locality : DecoderLogic where
  toDiscipline := .anyDepth fun _ => True
  Rel _ _ _ q := Local q
  rel_pure := local_pure
  rel_throw _ _ _ _ h := absurd h not_decodes_throw
  rel_halt _ _ _ _ h := by cases h
  rel_bind_of_yields := local_bind_of_yields
  rel_read := local_read
  rel_readByte := local_readByte
  rel_chainErr hp := hp.congr decodes_chainErr
  rel_nested hp := (hp trivial).congr decodes_nested
  rel_nestedAlloc hp := (hp trivial).congr decodes_nestedAlloc
  rel_claim _ hp := hp.congr decodes_claim
  rel_checkRemaining := local_checkRemaining

/-- What is consumed does not decode when it is cut short. -/
theorem Local.eq_of_isPrefix (hp : Local p) {c d : List Byte} {a b : α} {s : List Byte}
    (hc : Decodes p c a []) (hd : Decodes p d b s) (hdc : d <+: c) : d = c := by
  obtain ⟨t, rfl⟩ := hdc
  obtain ⟨d', rfl, hext⟩ := hp d b s hd
  rw [List.append_assoc] at hc
  have hnil : s ++ t = [] := ((hext (s ++ t)).unique hc).2
  rw [(List.append_eq_nil_iff.mp hnil).2, List.append_nil]

theorem Local.length_le (hp : Local p) {s s' : List Byte} {a : α} (h : Decodes p s a s') :
    s'.length ≤ s.length := by
  obtain ⟨c, rfl, -⟩ := hp s a s' h
  rw [List.length_append]
  exact Nat.le_add_left _ _

theorem LibTy.local_decode {P : Platform Empty.elim} {α : Type} {t : LibTy α} (hc : t.Compiles P) :
    Local (t.decode P).decode :=
  (Ty.decode_rel (L := locality) (d := 0) hc (t.errorsIn_of_forall fun _ => trivial)).decode

/-- Decoding depends on the consumed bytes alone, and needs all of them. -/
theorem LibTy.decode_local {P : Platform Empty.elim} {α : Type} {t : LibTy α} (hc : t.Compiles P)
    {bs rest : List Byte} {v : α} (h : Decodes (t.decode P).decode bs v rest) :
    ∃ p, bs = p ++ rest ∧ (∀ ext, Decodes (t.decode P).decode (p ++ ext) v ext) ∧
      ∀ q, q <+: p → q ≠ p →
        ∃ e rest', runSlice (t.decode P).decode q = .ok (.error e, rest') := by
  have hlocal : Local (t.decode P).decode := LibTy.local_decode hc
  obtain ⟨p, hbs, hext⟩ := hlocal bs v rest h
  refine ⟨p, hbs, hext, fun q hq hne => ?_⟩
  have hp : Decodes (t.decode P).decode p v [] := by
    have := hext []
    rwa [List.append_nil] at this
  obtain ⟨r, rest', hrun⟩ := Ty.exists_runSlice hc q
  cases r with
  | error e => exact ⟨e, rest', hrun⟩
  | ok w => exact absurd (hlocal.eq_of_isPrefix hp hrun hq) hne

/-- A vector of two bytes, in front of other bytes and without its last one. -/
theorem LibTy.decode_local_vec :
    let p := (LibTy.decode (Platform.unpadded _) (.vec (.prim .u8))).decode
    Decodes p [8, 1, 2, 3] [1, 2] [3] ∧ Decodes p [8, 1, 2, 9, 9] [1, 2] [9, 9] ∧
      ∃ e rest, runSlice p [8, 1] = .ok (.error e, rest) := by
  intro p
  have h : Decodes p [8, 1, 2, 3] [1, 2] [3] := rfl
  obtain ⟨c, hc, hext, hshort⟩ := LibTy.decode_local (t := .vec (.prim .u8)) ⟨by decide, trivial⟩ h
  obtain rfl : [8, 1, 2] = c := List.append_cancel_right hc
  exact ⟨h, hext [9, 9], hshort [8, 1] ⟨[2], rfl⟩ (by decide)⟩

end ScaleCodec
