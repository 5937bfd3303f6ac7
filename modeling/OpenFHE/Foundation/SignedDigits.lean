import Mathlib.Algebra.BigOperators.Ring.Finset
import Mathlib.Algebra.Order.BigOperators.Group.Finset
import Mathlib.Algebra.Ring.GeomSum
import Mathlib.Data.Int.ModEq
import Mathlib.Tactic.Linarith
import Mathlib.Tactic.Ring

/-!
# Signed digits of an even base

Balanced digits of the base `2 * H` lie between `-H` and `H - 1`.  Splitting off `n`
digits leaves a carry, which is zero exactly on an interval of as many integers as
there are digit strings.
-/

namespace OpenFHE
namespace Foundation

variable {H : Nat}

def signedDigit (H : Nat) (x : Int) : Int := x.bmod (2 * H)

/-- What remains after `n` digits. -/
def signedCarry (H : Nat) (x : Int) : Nat -> Int
  | 0 => x
  | n + 1 => (signedCarry H x n - signedDigit H (signedCarry H x n)) / (2 * H)

def signedValue (H : Nat) (x : Int) (n : Nat) : Int :=
  ∑ i ∈ Finset.range n, signedDigit H (signedCarry H x i) * (2 * H) ^ i

def repunit (H n : Nat) : Int := ∑ i ∈ Finset.range n, (2 * H : Int) ^ i

theorem repunit_mul (H n : Nat) : (2 * H - 1 : Int) * repunit H n = (2 * H) ^ n - 1 := by
  rw [mul_comm]
  exact geom_sum_mul (2 * H : Int) n

theorem repunit_succ (H n : Nat) : repunit H (n + 1) = 2 * H * repunit H n + 1 := by
  unfold repunit
  rw [Finset.sum_range_succ', Finset.mul_sum, pow_zero]
  congr 1
  exact Finset.sum_congr rfl fun i _ => by rw [pow_succ']

theorem repunit_nonneg (H n : Nat) : 0 <= repunit H n :=
  Finset.sum_nonneg fun _ _ => by positivity

theorem signedCarry_succ (H : Nat) (x : Int) (n : Nat) :
    signedDigit H (signedCarry H x n) + 2 * H * signedCarry H x (n + 1) = signedCarry H x n := by
  have hdvd : (2 * H : Int) ∣ signedCarry H x n - signedDigit H (signedCarry H x n) := by
    have hmod : signedDigit H (signedCarry H x n) ≡ signedCarry H x n [ZMOD (2 * H : Nat)] :=
      Int.bmod_emod
    exact_mod_cast hmod.dvd
  rw [signedCarry, Int.mul_ediv_cancel' hdvd]
  ring

theorem signedValue_add_carry (H : Nat) (x : Int) (n : Nat) :
    signedValue H x n + signedCarry H x n * (2 * H) ^ n = x := by
  induction n with
  | zero =>
      simp [signedValue, signedCarry]
  | succ n ih =>
      have hstep := signedCarry_succ H x n
      rw [signedValue, Finset.sum_range_succ, pow_succ]
      rw [signedValue] at ih
      calc
        _ = (∑ i ∈ Finset.range n, signedDigit H (signedCarry H x i) * (2 * H) ^ i) +
            (signedDigit H (signedCarry H x n) + 2 * H * signedCarry H x (n + 1)) *
              (2 * H) ^ n := by ring
        _ = x := by rw [hstep, ih]

section Digits

variable (hH : 0 < H)

include hH

theorem signedDigit_bounds (x : Int) : -(H : Int) <= signedDigit H x ∧ signedDigit H x < H := by
  have hlo := Int.le_bmod (x := x) (m := 2 * H) (by omega)
  have hhi := Int.bmod_lt (x := x) (m := 2 * H) (by omega)
  unfold signedDigit
  constructor <;> omega

theorem signedValue_bounds (x : Int) (n : Nat) :
    -(H * repunit H n) <= signedValue H x n ∧ signedValue H x n <= (H - 1) * repunit H n := by
  unfold signedValue repunit
  rw [Finset.mul_sum, Finset.mul_sum, ← Finset.sum_neg_distrib]
  constructor
  · refine Finset.sum_le_sum fun i _ => ?_
    rw [← neg_mul]
    exact mul_le_mul_of_nonneg_right (signedDigit_bounds hH _).1 (by positivity)
  · refine Finset.sum_le_sum fun i _ => ?_
    have hlt := (signedDigit_bounds hH (signedCarry H x i)).2
    exact mul_le_mul_of_nonneg_right (by omega) (by positivity)

/-- There is no carry exactly if the number has `n` digits. -/
theorem signedCarry_eq_zero_iff (x : Int) (n : Nat) :
    signedCarry H x n = 0 <-> -(H * repunit H n) <= x ∧ x <= (H - 1) * repunit H n := by
  have hsum := signedValue_add_carry H x n
  have hbounds := signedValue_bounds hH x n
  constructor
  · intro hzero
    rw [hzero, zero_mul, add_zero] at hsum
    rwa [hsum] at hbounds
  · rintro ⟨hlo, hhi⟩
    have hwidth := repunit_mul H n
    have hpow : (0 : Int) < (2 * H) ^ n := by positivity
    have hlt : signedCarry H x n * (2 * H) ^ n < 1 * (2 * H) ^ n := by linarith
    have hgt : (-1) * (2 * H : Int) ^ n < signedCarry H x n * (2 * H) ^ n := by linarith
    have h1 := lt_of_mul_lt_mul_right hlt hpow.le
    have h2 := lt_of_mul_lt_mul_right hgt hpow.le
    omega

theorem signedCarry_eq_one {x : Int} {n : Nat} (hlo : (H - 1) * repunit H n < x)
    (hhi : 2 * x < (2 * H) ^ n) : signedCarry H x n = 1 := by
  have hsum := signedValue_add_carry H x n
  have hbounds := signedValue_bounds hH x n
  have hwidth := repunit_mul H n
  have hpow : (0 : Int) < (2 * H) ^ n := by positivity
  have hrep := repunit_nonneg H n
  have hH1 : (1 : Int) <= H := by omega
  have hlower : 0 * (2 * H : Int) ^ n < signedCarry H x n * (2 * H) ^ n := by linarith
  have hupper : signedCarry H x n * (2 * H) ^ n < 2 * (2 * H) ^ n := by nlinarith
  have h1 := lt_of_mul_lt_mul_right hlower hpow.le
  have h2 := lt_of_mul_lt_mul_right hupper hpow.le
  omega

theorem lower_end_le {n : Nat} (hn : 0 < n) : (2 * H : Int) ^ n <= 2 * (H * repunit H n) := by
  have hH1 : (1 : Int) <= H := by omega
  have hwidth := repunit_mul H n
  have hone : 1 <= repunit H n := by
    cases n with
    | zero =>
        exact absurd hn (lt_irrefl 0)
    | succ n =>
        have hrep := repunit_nonneg H n
        rw [repunit_succ]
        nlinarith
  linarith

end Digits

end Foundation
end OpenFHE
