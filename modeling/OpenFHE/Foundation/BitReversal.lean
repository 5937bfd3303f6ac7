import Mathlib.Tactic.Ring
import Mathlib.Data.Nat.Bits

/-!
# Bit reversal

`bitReverse k i` mirrors the `k` low bits of `i`.  The concatenation law
`bitReverse_add` generates everything else: reversal of a block of high bits
and a block of low bits reverses the blocks and swaps them.
-/

namespace OpenFHE
namespace Foundation

/-- The number whose `k`-bit expansion is that of `i` read backwards. -/
def bitReverse : Nat -> Nat -> Nat
  | 0, _ => 0
  | k + 1, i => (i % 2) * 2 ^ k + bitReverse k (i / 2)

@[simp] theorem bitReverse_zero_width (i : Nat) : bitReverse 0 i = 0 := rfl

theorem bitReverse_succ (k i : Nat) :
    bitReverse (k + 1) i = (i % 2) * 2 ^ k + bitReverse k (i / 2) := rfl

@[simp] theorem bitReverse_zero (k : Nat) : bitReverse k 0 = 0 := by
  induction k with
  | zero => rfl
  | succ k ih => simp [bitReverse_succ, ih]

theorem bitReverse_lt (k i : Nat) : bitReverse k i < 2 ^ k := by
  induction k generalizing i with
  | zero => simp
  | succ k ih =>
      have hrest := ih (i / 2)
      rw [bitReverse_succ, pow_succ]
      rcases Nat.mod_two_eq_zero_or_one i with h | h <;> rw [h] <;> omega

theorem bitReverse_mod (k i : Nat) : bitReverse k (i % 2 ^ k) = bitReverse k i := by
  induction k generalizing i with
  | zero => rfl
  | succ k ih =>
      have hlow : i % 2 ^ (k + 1) % 2 = i % 2 :=
        Nat.mod_mod_of_dvd i (dvd_pow_self 2 (Nat.succ_ne_zero k))
      have hrest : i % 2 ^ (k + 1) / 2 = i / 2 % 2 ^ k := by
        rw [pow_succ', Nat.mod_mul_right_div_self]
      rw [bitReverse_succ, bitReverse_succ, hlow, hrest, ih]

theorem bitReverse_add (a b : Nat) {i : Nat} (hi : i < 2 ^ a) (j : Nat) :
    bitReverse (a + b) (i + 2 ^ a * j) =
      bitReverse a i * 2 ^ b + bitReverse b j := by
  induction a generalizing i with
  | zero =>
      have hi0 : i = 0 := by simpa using hi
      simp [hi0]
  | succ a ih =>
      have hlow : i / 2 < 2 ^ a := by
        rw [pow_succ] at hi
        omega
      have hmod : (i + 2 ^ (a + 1) * j) % 2 = i % 2 := by
        rw [pow_succ, mul_comm (2 ^ a) 2, mul_assoc]
        omega
      have hdiv : (i + 2 ^ (a + 1) * j) / 2 = i / 2 + 2 ^ a * j := by
        rw [pow_succ, mul_comm (2 ^ a) 2, mul_assoc]
        omega
      rw [show a + 1 + b = (a + b) + 1 by omega, bitReverse_succ, hmod, hdiv,
        ih hlow, bitReverse_succ]
      ring

theorem bitReverse_widen (a b : Nat) {i : Nat} (hi : i < 2 ^ a) :
    bitReverse (a + b) i = bitReverse a i * 2 ^ b := by
  simpa using bitReverse_add a b hi 0

theorem bitReverse_high (k : Nat) {i : Nat} (hi : i < 2 ^ k) (b : Nat) :
    bitReverse (k + 1) (i + 2 ^ k * b) = 2 * bitReverse k i + b % 2 := by
  rw [bitReverse_add k 1 hi b, bitReverse_succ]
  simp
  ring

theorem bitReverse_bitReverse (k : Nat) {i : Nat} (hi : i < 2 ^ k) :
    bitReverse k (bitReverse k i) = i := by
  induction k generalizing i with
  | zero =>
      have hi0 : i = 0 := by simpa using hi
      simp [hi0]
  | succ k ih =>
      have hlow : i / 2 < 2 ^ k := by
        rw [pow_succ] at hi
        omega
      have hswap : bitReverse (k + 1) i =
          bitReverse k (i / 2) + 2 ^ k * (i % 2) := by
        rw [bitReverse_succ]
        ring
      rw [hswap, bitReverse_high k (bitReverse_lt k _), ih hlow]
      omega

theorem bitReverse_testBit (k x : Nat) {i : Nat} (hi : i < k) :
    (bitReverse k x).testBit i = x.testBit (k - 1 - i) := by
  induction k generalizing x with
  | zero => exact absurd hi (Nat.not_lt_zero i)
  | succ k ih =>
      rw [bitReverse_succ, Nat.mul_comm, Nat.testBit_two_pow_mul_add _ (bitReverse_lt k _)]
      split
      next hlow =>
          rw [ih (x / 2) hlow, ← Nat.testBit_succ]
          congr 1
          omega
      next hhigh =>
          cases (by omega : i = k)
          rw [Nat.sub_self, Nat.add_sub_cancel, Nat.sub_self, Nat.testBit_zero, Nat.testBit_zero,
            Nat.mod_mod]

theorem bitReverse_injOn (k : Nat) {i j : Nat} (hi : i < 2 ^ k)
    (hj : j < 2 ^ k) (h : bitReverse k i = bitReverse k j) : i = j := by
  rw [← bitReverse_bitReverse k hi, h, bitReverse_bitReverse k hj]

theorem bitReverse_double (k i : Nat) {b : Nat} (hb : b < 2) :
    bitReverse (k + 1) (2 * i + b) = b * 2 ^ k + bitReverse k i := by
  rw [bitReverse_succ]
  rw [show (2 * i + b) % 2 = b by omega, show (2 * i + b) / 2 = i by omega]

/--
The index `2 ^ s + i` of a butterfly table, reversed on `s + r + 1` bits: the
marker bit `2 ^ s` separates the reversed `i` from `r` zero bits.
-/
theorem bitReverse_marker (s r : Nat) {i : Nat} (hi : i < 2 ^ s) :
    bitReverse (s + (r + 1)) (i + 2 ^ s) =
      2 ^ r * (2 * bitReverse s i + 1) := by
  have h := bitReverse_add s (r + 1) hi 1
  rw [mul_one] at h
  rw [h, bitReverse_succ]
  simp
  ring

end Foundation
end OpenFHE
