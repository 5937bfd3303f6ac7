import Mathlib.Algebra.BigOperators.Group.Finset.Basic
import Mathlib.Algebra.BigOperators.Intervals
import Mathlib.Algebra.Group.Pi.Basic

/-!
# Sums over an orbit by doubling

A function on a commutative monoid is shifted along the powers of an element.
Adding the shift by `h ^ n` to the sum over `n` powers of `h` gives the sum over
`2 * n` powers.
-/

namespace OpenFHE
namespace Foundation

open Finset

variable {M A : Type _} [CommMonoid M] [AddCommMonoid A]

/-- The function with its argument multiplied by `g`. -/
def substitute (g : M) (v : M -> A) : M -> A := fun e => v (e * g)

def orbitSum (v : M -> A) (h : M) (n : Nat) : M -> A :=
  fun e => ∑ j ∈ range n, v (e * h ^ j)

theorem orbitSum_one (v : M -> A) (h : M) : orbitSum v h 1 = v := by
  funext e
  simp [orbitSum]

theorem orbitSum_add (v : M -> A) (h : M) (n n' : Nat) :
    orbitSum v h n + substitute (h ^ n) (orbitSum v h n') = orbitSum v h (n + n') := by
  funext e
  simp only [orbitSum, substitute, Pi.add_apply]
  rw [sum_range_add]
  congr 1
  apply sum_congr rfl
  intro j hj
  rw [pow_add, mul_assoc]

theorem orbitSum_double (v : M -> A) (h : M) (n : Nat) :
    orbitSum v h n + substitute (h ^ n) (orbitSum v h n) = orbitSum v h (2 * n) := by
  rw [orbitSum_add, two_mul]

theorem sum_range_of_periodic {f : Nat -> A} {n : Nat} (hf : forall x, f (x + n) = f x)
    (i : Nat) : ∑ j ∈ range n, f (i + j) = ∑ j ∈ range n, f j := by
  induction i with
  | zero =>
      simp only [Nat.zero_add]
  | succ i ih =>
      rw [← ih]
      cases n with
      | zero =>
          rfl
      | succ n =>
          rw [sum_range_succ, sum_range_succ']
          congr 1
          · apply sum_congr rfl
            intro j hj
            congr 1
            omega
          · have hshift : i + 1 + n = i + (n + 1) := by omega
            rw [hshift]
            exact hf i

theorem orbitSum_mul_of_pow_eq_one (v : M -> A) {h : M} {n : Nat} (hn : h ^ n = 1)
    (e : M) (i : Nat) : orbitSum v h n (e * h ^ i) = orbitSum v h n e := by
  unfold orbitSum
  simp only [mul_assoc, ← pow_add]
  apply sum_range_of_periodic (f := fun x => v (e * h ^ x))
  intro x
  rw [pow_add, hn, mul_one]

end Foundation
end OpenFHE
