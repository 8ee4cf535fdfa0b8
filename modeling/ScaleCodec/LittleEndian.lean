import Mathlib.Data.Nat.Log
import Mathlib.Data.Nat.Bitwise
import Mathlib.Tactic.Ring

/-!
# Little-endian numbers

`leBytes n v` is the `n` low bytes of `v`, least significant first, and `leNat` reads a
byte string back. They are inverse to each other on numbers below `256 ^ n`
(`leNat_leBytes`) and on byte strings of length `n` (`leBytes_leNat`).

`bytesNeeded v` is the least number of bytes that hold `v`. A shift-and-or loop over the
bytes of a string computes `leNat` (`or_shiftLeft_leNat`).
-/

namespace ScaleCodec

/-- A byte. -/
abbrev Byte := BitVec 8

/-! ## Bytes of a number -/

/-- The `n` low bytes of `v`, least significant first. -/
def leBytes : ℕ → ℕ → List Byte
  | 0, _ => []
  | n + 1, v => BitVec.ofNat 8 v :: leBytes n (v / 256)

/-- The number with the bytes `bs`, least significant first. -/
def leNat : List Byte → ℕ
  | [] => 0
  | b :: bs => b.toNat + 256 * leNat bs

@[simp] theorem length_leBytes : ∀ n v, (leBytes n v).length = n
  | 0, _ => rfl
  | n + 1, v => by rw [leBytes, List.length_cons, length_leBytes]

theorem leNat_lt : ∀ bs : List Byte, leNat bs < 256 ^ bs.length
  | [] => by simp [leNat]
  | b :: bs => by
    have hb := b.isLt
    have ih := leNat_lt bs
    rw [leNat, List.length_cons, pow_succ]
    omega

theorem leNat_leBytes : ∀ {n v}, v < 256 ^ n → leNat (leBytes n v) = v
  | 0, v, h => by
    obtain rfl : v = 0 := by simpa using h
    rfl
  | n + 1, v, h => by
    rw [pow_succ] at h
    rw [leBytes, leNat, leNat_leBytes (by omega), BitVec.toNat_ofNat]
    omega

theorem leBytes_leNat : ∀ bs : List Byte, leBytes bs.length (leNat bs) = bs
  | [] => rfl
  | b :: bs => by
    have hb := b.isLt
    have hdiv : (b.toNat + 256 * leNat bs) / 256 = leNat bs := by omega
    rw [List.length_cons, leNat, leBytes, hdiv, leBytes_leNat bs]
    congr 1
    apply BitVec.eq_of_toNat_eq
    rw [BitVec.toNat_ofNat]
    omega

/-- A string of `n` bytes is the bytes of `v` iff it reads back as `v`. -/
theorem eq_leBytes_iff {bs : List Byte} {n v : ℕ} (hlen : bs.length = n) (hv : v < 256 ^ n) :
    bs = leBytes n v ↔ leNat bs = v := by
  constructor
  · rintro rfl
    exact leNat_leBytes hv
  · rintro rfl
    rw [← hlen, leBytes_leNat]

theorem leNat_append : ∀ as bs : List Byte, leNat (as ++ bs) = leNat as + 256 ^ as.length * leNat bs
  | [], bs => by simp [leNat]
  | a :: as, bs => by
    rw [List.cons_append, leNat, leNat, leNat_append as bs, List.length_cons, pow_succ]
    ring

/-! ## The number of bytes needed -/

/-- The least number of bytes that hold `v`. -/
def bytesNeeded (v : ℕ) : ℕ :=
  if v = 0 then 0 else Nat.log 256 v + 1

theorem lt_pow_iff_bytesNeeded_le {v n : ℕ} : v < 256 ^ n ↔ bytesNeeded v ≤ n := by
  unfold bytesNeeded
  split_ifs with h
  · simp [h]
  · rw [← Nat.log_lt_iff_lt_pow (by norm_num) h]
    omega

theorem pow_le_iff_lt_bytesNeeded {v n : ℕ} : 256 ^ n ≤ v ↔ n < bytesNeeded v := by
  rw [← not_lt, lt_pow_iff_bytesNeeded_le, not_le]

theorem lt_pow_bytesNeeded (v : ℕ) : v < 256 ^ bytesNeeded v :=
  lt_pow_iff_bytesNeeded_le.mpr le_rfl

/-- `bytesNeeded` is the only `n` with `256 ^ (n - 1) ≤ v < 256 ^ n`. -/
theorem bytesNeeded_eq {v n : ℕ} (hlo : 256 ^ n ≤ v) (hhi : v < 256 ^ (n + 1)) :
    bytesNeeded v = n + 1 := by
  have h1 := pow_le_iff_lt_bytesNeeded.mp hlo
  have h2 := lt_pow_iff_bytesNeeded_le.mp hhi
  omega

/-! ## Reading by shift and or -/

/-- Or-ing in one more byte above the bytes read so far. -/
theorem or_shiftLeft_leNat (bs : List Byte) (b : Byte) :
    leNat bs ||| b.toNat <<< (8 * bs.length) = leNat (bs ++ [b]) := by
  have hlt : leNat bs < 2 ^ (8 * bs.length) := by
    rw [pow_mul]
    exact leNat_lt bs
  rw [Nat.or_comm, ← Nat.shiftLeft_add_eq_or_of_lt hlt, Nat.shiftLeft_eq, leNat_append, pow_mul]
  simp only [leNat]
  ring

end ScaleCodec
