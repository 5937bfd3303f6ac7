import Mathlib.LinearAlgebra.Lagrange
import Mathlib.Tactic.Ring

/-!
# Interpolation at zero

A polynomial with few coefficients has the value at zero that its values at enough
points give with the Lagrange weights.
-/

namespace OpenFHE
namespace Foundation

open Polynomial Finset

section Interpolation

variable {F : Type _} [Field F]

/-- The weight of the point `v j` for the value at zero. -/
def zeroWeight (s : Finset Nat) (v : Nat -> F) (j : Nat) : F :=
  ∏ i ∈ s.erase j, v i * (v i - v j)⁻¹

theorem eval_basis_zero (s : Finset Nat) (v : Nat -> F) (j : Nat) :
    (Lagrange.basis s v j).eval 0 = zeroWeight s v j := by
  unfold Lagrange.basis zeroWeight
  rw [eval_prod]
  apply prod_congr rfl
  intro i _
  rw [Lagrange.basisDivisor, eval_mul, eval_C, eval_sub, eval_X, eval_C, ← neg_sub (v i),
    inv_neg]
  ring

/-- The polynomial with the first `n` values of `c` as coefficients. -/
noncomputable def sharingPoly (n : Nat) (c : Nat -> F) : F[X] :=
  ∑ t : Fin n, C (c t) * X ^ (t : Nat)

theorem eval_sharingPoly (n : Nat) (c : Nat -> F) (x : F) :
    (sharingPoly n c).eval x = ∑ t ∈ range n, x ^ t * c t := by
  unfold sharingPoly
  rw [eval_finsetSum, ← Fin.sum_univ_eq_sum_range (fun t => x ^ t * c t)]
  apply sum_congr rfl
  intro t _
  rw [eval_mul, eval_C, eval_pow, eval_X, mul_comm]

theorem sum_zeroWeight {s : Finset Nat} {v : Nat -> F} (hinj : Set.InjOn v s) {n : Nat}
    (hn : 0 < n) (hcard : n <= s.card) (c : Nat -> F) :
    ∑ j ∈ s, zeroWeight s v j * ∑ t ∈ range n, v j ^ t * c t = c 0 := by
  have hdegree : (sharingPoly n c).degree < s.card :=
    lt_of_lt_of_le (degree_sum_fin_lt _) (by exact_mod_cast hcard)
  have hinterpolate := congrArg (eval 0) (Lagrange.eq_interpolate hinj hdegree)
  have hzero : (sharingPoly n c).eval 0 = c 0 := by
    rw [eval_sharingPoly, sum_eq_single 0]
    · rw [pow_zero, one_mul]
    · intro t _ ht
      rw [zero_pow ht, zero_mul]
    · intro hmem
      exact absurd (mem_range.mpr hn) hmem
  rw [hzero, Lagrange.interpolate_apply, eval_finsetSum] at hinterpolate
  rw [hinterpolate]
  apply sum_congr rfl
  intro j _
  rw [eval_mul, eval_C, eval_basis_zero, eval_sharingPoly, mul_comm]

end Interpolation

end Foundation
end OpenFHE
