/-
  Words as the bytes they consist of.

  `word bs` is the number with the bytes `bs`, the lowest one first. Bitwise operations on words
  work byte by byte (`word_xor`); a subtraction borrows from the next byte. `zeroBytes_eq_zero_iff`
  is the one fact about borrows: subtracting one from every byte of a word sets a high bit that
  the byte did not have exactly when some byte is zero.
-/
import Mathlib.Data.List.Basic
import Mathlib.Data.Nat.Bitwise
import Mathlib.Algebra.GroupWithZero.Nat

namespace Librecompat.Lib

/-- The number with the bytes `bs`, the lowest one first. -/
def word : List UInt8 → Nat
  | [] => 0
  | b :: bs => b.toNat + 256 * word bs

/-- `n` times the byte `b`. -/
def repeated (n : Nat) (b : UInt8) : Nat := word (List.replicate n b)

variable {b c : UInt8} {bs : List UInt8} {n : Nat}

theorem word_lt (bs : List UInt8) : word bs < 256 ^ bs.length := by
  induction bs with
  | nil => exact Nat.one_pos
  | cons b bs ih =>
    have hb := b.toNat_lt
    simp only [word, List.length_cons, Nat.pow_succ]
    omega

theorem repeated_succ (n : Nat) (b : UInt8) :
    repeated (n + 1) b = b.toNat + 256 * repeated n b := rfl

theorem repeated_lt (n : Nat) (b : UInt8) : repeated n b < 256 ^ n := by
  have h := word_lt (List.replicate n b)
  rwa [List.length_replicate] at h

theorem repeated_eq_mul (n : Nat) (b : UInt8) : repeated n b = b.toNat * repeated n 1 := by
  induction n with
  | zero => rfl
  | succ n ih =>
    have hone : (1 : UInt8).toNat = 1 := rfl
    rw [repeated_succ, repeated_succ, ih, Nat.mul_add, Nat.mul_left_comm, hone, Nat.mul_one]

/-! ## Byte by byte -/

theorem low_byte {a : Nat} (ha : a < 256) (x : Nat) : (a + 256 * x) % 256 = a := by omega

theorem high_bytes {a : Nat} (ha : a < 256) (x : Nat) : (a + 256 * x) / 256 = x := by omega

theorem and_bytes {a c : Nat} (ha : a < 256) (hc : c < 256) (x y : Nat) :
    (a + 256 * x) &&& (c + 256 * y) = (a &&& c) + 256 * (x &&& y) := by
  have hmod := Nat.and_mod_two_pow (a := a + 256 * x) (b := c + 256 * y) (n := 8)
  have hdiv := Nat.and_div_two_pow (a := a + 256 * x) (b := c + 256 * y) (n := 8)
  rw [show 2 ^ 8 = 256 from rfl] at hmod hdiv
  rw [low_byte ha, low_byte hc] at hmod
  rw [high_bytes ha, high_bytes hc] at hdiv
  rw [← hmod, ← hdiv, Nat.mod_add_div]

theorem xor_bytes {a c : Nat} (ha : a < 256) (hc : c < 256) (x y : Nat) :
    (a + 256 * x) ^^^ (c + 256 * y) = (a ^^^ c) + 256 * (x ^^^ y) := by
  have hmod := Nat.xor_mod_two_pow (a := a + 256 * x) (b := c + 256 * y) (n := 8)
  have hdiv := Nat.xor_div_two_pow (a := a + 256 * x) (b := c + 256 * y) (n := 8)
  rw [show 2 ^ 8 = 256 from rfl] at hmod hdiv
  rw [low_byte ha, low_byte hc] at hmod
  rw [high_bytes ha, high_bytes hc] at hdiv
  rw [← hmod, ← hdiv, Nat.mod_add_div]

theorem word_xor (bs : List UInt8) (c : UInt8) :
    word bs ^^^ repeated bs.length c = word (bs.map (· ^^^ c)) := by
  induction bs with
  | nil => simp [word, repeated]
  | cons b bs ih =>
    rw [List.length_cons, repeated_succ, List.map_cons, word, word,
      xor_bytes b.toNat_lt c.toNat_lt, ih, UInt8.toNat_xor]

/-! ## Zero bytes -/

/-- The high bits that appear in the `n` bytes of `x` when one is subtracted from every byte. -/
def zeroBytes (n x : Nat) : Nat :=
  (256 ^ n - repeated n 1 + x) % 256 ^ n &&& (256 ^ n - 1 - x) &&& repeated n 128

/-- The byte above a byte that is not zero is not borrowed from. -/
theorem zeroBytes_succ (n : Nat) (b : UInt8) {y : Nat} (hy : y < 256 ^ n) :
    zeroBytes (n + 1) (b.toNat + 256 * y) = 0 ↔ b ≠ 0 ∧ zeroBytes n y = 0 := by
  have hb := b.toNat_lt
  have hone := repeated_lt n 1
  have h1 : (1 : UInt8).toNat = 1 := rfl
  have h128 : (128 : UInt8).toNat = 128 := rfl
  have hnot : 256 ^ (n + 1) - 1 - (b.toNat + 256 * y) =
      (255 - b.toNat) + 256 * (256 ^ n - 1 - y) := by
    rw [Nat.pow_succ]
    omega
  unfold zeroBytes
  rw [hnot, repeated_succ, repeated_succ, h1, h128, Nat.pow_succ, Nat.mul_comm (256 ^ n),
    Nat.mod_mul]
  by_cases hzero : b = 0
  · subst hzero
    have hlow : (256 * 256 ^ n - (1 + 256 * repeated n 1) + ((0 : UInt8).toNat + 256 * y)) % 256 =
        255 := by
      have h0 : (0 : UInt8).toNat = 0 := rfl
      omega
    rw [hlow, and_bytes (by decide) (by decide), and_bytes (by decide) (by decide)]
    simp
  · have hpos : b.toNat ≠ 0 := fun h => hzero (UInt8.toNat_inj.mp h)
    have hsub : 256 * 256 ^ n - (1 + 256 * repeated n 1) + (b.toNat + 256 * y) =
        (b.toNat - 1) + 256 * (256 ^ n - repeated n 1 + y) := by omega
    -- the high bit of `b - 1` is one of `b`
    have hbyte : ∀ k < 256, k ≠ 0 → (k - 1) &&& (255 - k) &&& 128 = 0 := by
      decide +kernel
    rw [hsub, low_byte (by omega), high_bytes (by omega), and_bytes (by omega) (by omega),
      and_bytes (Nat.and_lt_two_pow (n := 8) _ (by omega)) (by decide), hbyte _ hb hpos]
    simp [hzero]

/-- No such bit appears exactly when no byte is zero. -/
theorem zeroBytes_eq_zero_iff (bs : List UInt8) :
    zeroBytes bs.length (word bs) = 0 ↔ 0 ∉ bs := by
  induction bs with
  | nil => simp [zeroBytes, repeated, word]
  | cons b bs ih =>
    rw [List.length_cons, word, zeroBytes_succ _ b (word_lt bs), ih, List.mem_cons, not_or]
    exact and_congr_left' ne_comm

end Librecompat.Lib
