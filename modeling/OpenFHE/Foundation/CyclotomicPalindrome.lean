import Mathlib.Algebra.Polynomial.Reverse
import Mathlib.RingTheory.Polynomial.Cyclotomic.Basic

/-!
# Cyclotomic polynomials read backwards

From the second on, the coefficients of a cyclotomic polynomial are the same from both ends.
-/

namespace OpenFHE
namespace Foundation

open Polynomial Finset

/-- A polynomial whose coefficients are the same from both ends. -/
def Palindromic (P : Int[X]) : Prop := P.reverse = P

theorem palindromic_prod {ι : Type _} {s : Finset ι} {f : ι -> Int[X]}
    (h : forall i, i ∈ s -> Palindromic (f i)) : Palindromic (∏ i ∈ s, f i) := by
  apply prod_induction f Palindromic
  · intro P Q hP hQ
    unfold Palindromic
    rw [reverse_mul_of_domain, hP, hQ]
  · exact reverse_C 1
  · exact h

theorem Palindromic.coeff_eq {P : Int[X]} (h : Palindromic P) {k : Nat} (hk : k <= P.natDegree) :
    P.coeff (P.natDegree - k) = P.coeff k := by
  conv_rhs => rw [← h, coeff_reverse, revAt_le hk]

theorem reverse_X_pow_sub_one (n : Nat) :
    (X ^ n - 1 : Int[X]).reverse = -(X ^ n - 1) := by
  have hdegree : (X ^ n - 1 : Int[X]).natDegree = n := natDegree_X_pow_sub_C
  unfold reverse
  rw [hdegree, reflect_sub, reflect_monomial, revAt_le le_rfl, Nat.sub_self, pow_zero, ← C_1,
    reflect_C, C_1, one_mul]
  ring

theorem prod_cyclotomic_split {n : Nat} (hn : 1 < n) :
    cyclotomic n Int * ((X - 1) * ∏ d ∈ n.properDivisors.erase 1, cyclotomic d Int) =
      X ^ n - 1 := by
  rw [← prod_cyclotomic_eq_X_pow_sub_one (by omega : 0 < n), ← Nat.cons_self_properDivisors
    (by omega : n ≠ 0), prod_cons, ← mul_prod_erase n.properDivisors _
    (Nat.one_mem_properDivisors_iff_one_lt.mpr hn), cyclotomic_one]

theorem cyclotomic_palindromic {n : Nat} (hn : 1 < n) : Palindromic (cyclotomic n Int) := by
  induction n using Nat.strong_induction_on with
  | h n ih =>
      have hrest : Palindromic (∏ d ∈ n.properDivisors.erase 1, cyclotomic d Int) := by
        apply palindromic_prod
        intro d hd
        rcases mem_erase.mp hd with ⟨hne, hmem⟩
        have hpos := Nat.pos_of_mem_properDivisors hmem
        exact ih d (Nat.mem_properDivisors.mp hmem).2 (by omega)
      have hsplit := prod_cyclotomic_split hn
      have hfirst : (X - 1 : Int[X]).reverse = -(X - 1) := by
        have hone := reverse_X_pow_sub_one 1
        rwa [pow_one] at hone
      -- the sign of the first factor is that of the product
      have hreverse := congrArg reverse hsplit
      rw [reverse_mul_of_domain, reverse_mul_of_domain, hfirst, hrest,
        reverse_X_pow_sub_one, ← hsplit, neg_mul, mul_neg] at hreverse
      have hne : (X - 1) * ∏ d ∈ n.properDivisors.erase 1, cyclotomic d Int ≠ 0 := by
        apply mul_ne_zero
        · exact X_sub_C_ne_zero 1
        · exact prod_ne_zero_iff.mpr fun d _ => cyclotomic_ne_zero d Int
      exact mul_right_cancel₀ hne (neg_injective hreverse)

end Foundation
end OpenFHE
