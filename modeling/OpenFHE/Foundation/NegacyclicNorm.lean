import OpenFHE.Foundation.SampleExtraction
import Mathlib.Algebra.Order.BigOperators.Group.Finset
import Mathlib.Algebra.Order.Ring.Abs

/-!
# Size of negacyclic products

The product modulo `X ^ n + 1` is linear, commutes with ring homomorphisms, and its coefficients
are bounded by the largest coefficient of one factor times the sum of those of the other.
-/

namespace OpenFHE
namespace Foundation

open Polynomial Finset

section Linear

variable {R : Type _} [CommRing R]

theorem coeffPoly_mul_left (n : Nat) (c : R) (a : Nat -> R) :
    coeffPoly n (fun i => c * a i) = C c * coeffPoly n a := by
  unfold coeffPoly
  rw [mul_sum]
  apply sum_congr rfl
  intro i _
  rw [C_mul, mul_assoc]

theorem negacyclicMul_add_left (n : Nat) (a a' b : Nat -> R) (r : Nat) :
    negacyclicMul n (fun i => a i + a' i) b r =
      negacyclicMul n a b r + negacyclicMul n a' b r := by
  unfold negacyclicMul
  rw [coeffPoly_add, add_mul, add_modByMonic, coeff_add]

theorem negacyclicMul_mul_left (n : Nat) (c : R) (a b : Nat -> R) (r : Nat) :
    negacyclicMul n (fun i => c * a i) b r = c * negacyclicMul n a b r := by
  unfold negacyclicMul
  rw [coeffPoly_mul_left, mul_assoc, <- smul_eq_C_mul, smul_modByMonic, coeff_smul, smul_eq_mul]

theorem map_coeffPoly {S : Type _} [CommRing S] (f : R →+* S) (n : Nat) (a : Nat -> R) :
    (coeffPoly n a).map f = coeffPoly n fun i => f (a i) := by
  unfold coeffPoly
  rw [Polynomial.map_sum]
  apply sum_congr rfl
  intro i _
  rw [Polynomial.map_mul, map_C, Polynomial.map_pow, map_X]

theorem map_negacyclicMul {S : Type _} [CommRing S] (f : R →+* S) {n : Nat} (hn : 0 < n)
    (a b : Nat -> R) (r : Nat) :
    f (negacyclicMul n a b r) = negacyclicMul n (fun i => f (a i)) (fun i => f (b i)) r := by
  rcases subsingleton_or_nontrivial S with _ | _
  · exact Subsingleton.elim _ _
  · have hnontrivial : Nontrivial R := f.domain_nontrivial
    unfold negacyclicMul
    rw [<- coeff_map, map_modByMonic _ (monic_X_pow_add_one hn), Polynomial.map_mul,
      map_coeffPoly, map_coeffPoly, Polynomial.map_add, Polynomial.map_pow, map_X,
      Polynomial.map_one]

end Linear

section Bound

variable {n : Nat} (a b : Nat -> Int)

theorem coeff_mul_coeffPoly (p : Int[X]) (m : Nat) :
    (p * coeffPoly n b).coeff m =
      ∑ j ∈ range n, b j * (if j <= m then p.coeff (m - j) else 0) := by
  unfold coeffPoly
  rw [mul_sum, finsetSum_coeff]
  apply sum_congr rfl
  intro j _
  rw [mul_left_comm, coeff_C_mul, coeff_mul_X_pow']

theorem abs_negacyclicMul_le {M : Int} (ha : forall i, i < n -> |a i| <= M) {r : Nat}
    (hr : r < n) : |negacyclicMul n a b r| <= M * ∑ j ∈ range n, |b j| := by
  have hn : 0 < n := by omega
  have hM : 0 <= M := le_trans (abs_nonneg _) (ha r hr)
  have hfold : negacyclicMul n a b r = fold n (coeffPoly n a * coeffPoly n b).coeff r := by
    unfold negacyclicMul
    rw [mod_X_pow_add_one hn (degree_mul_coeffPoly_lt n a b), coeff_coeffPoly n _ hr]
  have hcoeff : forall i, |(coeffPoly n a).coeff i| <= M := by
    intro i
    rcases Nat.lt_or_ge i n with hi | hi
    · rw [coeff_coeffPoly n a hi]
      exact ha i hi
    · rw [coeff_coeffPoly_of_le n a hi, abs_zero]
      exact hM
  rw [hfold, fold, coeff_mul_coeffPoly, coeff_mul_coeffPoly, <- sum_sub_distrib, mul_sum]
  apply (abs_sum_le_sum_abs _ _).trans
  apply sum_le_sum
  intro j hj
  have hj := mem_range.mp hj
  rw [<- mul_sub, abs_mul, mul_comm]
  apply mul_le_mul_of_nonneg_right _ (abs_nonneg _)
  rcases Nat.lt_or_ge r j with hlt | hge
  · rw [if_neg (by omega), if_pos (by omega), zero_sub, abs_neg]
    exact hcoeff _
  · rw [if_pos hge, if_pos (by omega), coeff_coeffPoly_of_le n a (i := r + n - j) (by omega),
      sub_zero]
    exact hcoeff _

end Bound

end Foundation
end OpenFHE
