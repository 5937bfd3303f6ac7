import Mathlib.Algebra.Polynomial.Div
import Mathlib.Algebra.Polynomial.Eval.Degree
import Mathlib.Algebra.Polynomial.Expand
import Mathlib.Algebra.Polynomial.Monic
import Mathlib.Tactic.ComputeDegree

/-!
# Negacyclic polynomials

Polynomials modulo `X ^ n + 1` as functions of their coefficients.  Evaluation
at a point `x` with `x ^ n = -1` does not see the reduction.
-/

namespace OpenFHE
namespace Foundation

open Polynomial Finset

variable {R : Type _} [CommRing R]

/-- The polynomial with the first `n` values of `a` as coefficients. -/
noncomputable def coeffPoly (n : Nat) (a : Nat -> R) : R[X] :=
  ∑ j ∈ range n, C (a j) * X ^ j

theorem eval_coeffPoly (n : Nat) (a : Nat -> R) (x : R) :
    (coeffPoly n a).eval x = ∑ j ∈ range n, a j * x ^ j := by
  simp [coeffPoly, eval_finsetSum]

theorem coeff_coeffPoly (n : Nat) (a : Nat -> R) {i : Nat} (hi : i < n) :
    (coeffPoly n a).coeff i = a i := by
  simp [coeffPoly, hi]

theorem coeffPoly_congr {n : Nat} {a b : Nat -> R} (h : forall i, i < n -> a i = b i) :
    coeffPoly n a = coeffPoly n b := by
  refine sum_congr rfl fun i hi => ?_
  rw [h i (mem_range.mp hi)]

theorem coeff_coeffPoly_of_le (n : Nat) (a : Nat -> R) {i : Nat} (hi : n <= i) :
    (coeffPoly n a).coeff i = 0 := by
  simp [coeffPoly, Nat.not_lt.mpr hi]

theorem coeffPoly_coeff {n : Nat} {p : R[X]} (hp : p.degree < n) :
    coeffPoly n p.coeff = p := by
  ext i
  rcases Nat.lt_or_ge i n with hi | hi
  · exact coeff_coeffPoly n _ hi
  · rw [coeff_coeffPoly_of_le n _ hi]
    exact (coeff_eq_zero_of_degree_lt (lt_of_lt_of_le hp (by exact_mod_cast hi))).symm

theorem degree_X_pow_add_one [Nontrivial R] {n : Nat} (hn : 0 < n) :
    (X ^ n + 1 : R[X]).degree = n := by
  simpa using degree_X_pow_add_C hn (1 : R)

theorem monic_X_pow_add_one {n : Nat} (hn : 0 < n) : (X ^ n + 1 : R[X]).Monic := by
  simpa using monic_X_pow_add_C (1 : R) hn.ne'

/-- The product of two coefficient functions modulo `X ^ n + 1`. -/
noncomputable def negacyclicMul (n : Nat) (a b : Nat -> R) : Nat -> R :=
  ((coeffPoly n a * coeffPoly n b) %ₘ (X ^ n + 1)).coeff

theorem coeffPoly_negacyclicMul [Nontrivial R] {n : Nat} (hn : 0 < n) (a b : Nat -> R) :
    coeffPoly n (negacyclicMul n a b) =
      (coeffPoly n a * coeffPoly n b) %ₘ (X ^ n + 1) := by
  refine coeffPoly_coeff ?_
  rw [← degree_X_pow_add_one (R := R) hn]
  exact degree_modByMonic_lt _ (monic_X_pow_add_one hn)

theorem eval_mod_X_pow_add_one (n : Nat) (p : R[X]) {x : R} (hx : x ^ n = -1) :
    (p %ₘ (X ^ n + 1)).eval x = p.eval x := by
  have hsplit := congrArg (eval x) (modByMonic_add_div p (X ^ n + 1))
  rw [eval_add, eval_mul] at hsplit
  simpa [hx] using hsplit

theorem eval_negacyclicMul [Nontrivial R] {n : Nat} (hn : 0 < n) (a b : Nat -> R)
    {x : R} (hx : x ^ n = -1) :
    ∑ j ∈ range n, negacyclicMul n a b j * x ^ j =
      (∑ j ∈ range n, a j * x ^ j) * ∑ j ∈ range n, b j * x ^ j := by
  rw [← eval_coeffPoly, coeffPoly_negacyclicMul hn, eval_mod_X_pow_add_one n _ hx,
    eval_mul, eval_coeffPoly, eval_coeffPoly]

/-- The automorphism that substitutes `X ^ k` for `X`, on coefficients. -/
noncomputable def negacyclicAutomorphism (n k : Nat) (a : Nat -> R) : Nat -> R :=
  (expand R k (coeffPoly n a) %ₘ (X ^ n + 1)).coeff

theorem eval_negacyclicAutomorphism [Nontrivial R] {n : Nat} (hn : 0 < n) (k : Nat)
    (a : Nat -> R) {x : R} (hx : x ^ n = -1) :
    ∑ j ∈ range n, negacyclicAutomorphism n k a j * x ^ j =
      ∑ j ∈ range n, a j * (x ^ k) ^ j := by
  have hdegree : (expand R k (coeffPoly n a) %ₘ (X ^ n + 1)).degree < n := by
    rw [← degree_X_pow_add_one (R := R) hn]
    exact degree_modByMonic_lt _ (monic_X_pow_add_one hn)
  rw [← eval_coeffPoly, negacyclicAutomorphism, coeffPoly_coeff hdegree,
    eval_mod_X_pow_add_one n _ hx, expand_eval, eval_coeffPoly]

/-! ## Monomials -/

/-- The coefficients of `X ^ p`: the sign changes whenever the exponent passes `n`. -/
def monomialResidue (n p : Nat) : Nat -> R := fun j =>
  if j = p % n then (-1) ^ (p / n) else 0

theorem eval_monomialResidue {n : Nat} (hn : 0 < n) (p : Nat) {x : R} (hx : x ^ n = -1) :
    ∑ j ∈ range n, monomialResidue n p j * x ^ j = x ^ p := by
  have hmem : p % n ∈ range n := mem_range.mpr (Nat.mod_lt p hn)
  calc
    ∑ j ∈ range n, monomialResidue n p j * x ^ j = (-1) ^ (p / n) * x ^ (p % n) := by
      rw [sum_eq_single_of_mem _ hmem]
      · rw [monomialResidue, if_pos rfl]
      · intro j _ hj
        rw [monomialResidue, if_neg hj, zero_mul]
    _ = x ^ (n * (p / n) + p % n) := by
      rw [pow_add, pow_mul, hx]
    _ = x ^ p := by
      rw [Nat.div_add_mod]

/-- The product with `X ^ p` modulo `X ^ n + 1`, on coefficients. -/
noncomputable def timesMonomial (n p : Nat) (a : Nat -> R) : Nat -> R :=
  ((coeffPoly n a * X ^ p) %ₘ (X ^ n + 1)).coeff

theorem eval_timesMonomial [Nontrivial R] {n : Nat} (hn : 0 < n) (p : Nat) (a : Nat -> R)
    {x : R} (hx : x ^ n = -1) :
    ∑ j ∈ range n, timesMonomial n p a j * x ^ j = (∑ j ∈ range n, a j * x ^ j) * x ^ p := by
  have hdegree : ((coeffPoly n a * X ^ p) %ₘ (X ^ n + 1)).degree < n := by
    rw [← degree_X_pow_add_one (R := R) hn]
    exact degree_modByMonic_lt _ (monic_X_pow_add_one hn)
  rw [← eval_coeffPoly, timesMonomial, coeffPoly_coeff hdegree, eval_mod_X_pow_add_one n _ hx,
    eval_mul, eval_pow, eval_X, eval_coeffPoly]

end Foundation
end OpenFHE
