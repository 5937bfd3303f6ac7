import OpenFHE.Foundation.Negacyclic
import Mathlib.Tactic.LinearCombination

/-!
# Constant coefficients of negacyclic polynomials

A polynomial of degree below `2 * n` is reduced modulo `X ^ n + 1` by one fold of its
upper half.  The constant coefficient of a product is then an inner product, and
the constant coefficient of a rotated polynomial is one of its coefficients.
-/

namespace OpenFHE
namespace Foundation

open Polynomial Finset

variable {R : Type _} [CommRing R]

def fold (n : Nat) (c : Nat -> R) (i : Nat) : R := c i - c (i + n)

theorem coeffPoly_add (n : Nat) (a b : Nat -> R) :
    coeffPoly n (fun i => a i + b i) = coeffPoly n a + coeffPoly n b := by
  simp only [coeffPoly, C_add, add_mul, sum_add_distrib]

theorem coeffPoly_neg (n : Nat) (a : Nat -> R) :
    coeffPoly n (fun i => -a i) = -coeffPoly n a := by
  simp only [coeffPoly, C_neg, neg_mul, sum_neg_distrib]

theorem coeffPoly_halves {n : Nat} {p : R[X]} (hp : p.degree < (2 * n : Nat)) :
    coeffPoly n p.coeff + coeffPoly n (fun i => p.coeff (i + n)) * X ^ n = p := by
  ext i
  rw [coeff_add, coeff_mul_X_pow']
  by_cases hlow : i < n
  · rw [coeff_coeffPoly n _ hlow, if_neg (by omega), add_zero]
  · rw [coeff_coeffPoly_of_le n _ (by omega), if_pos (by omega), zero_add]
    by_cases hhigh : i < 2 * n
    · rw [coeff_coeffPoly n _ (by omega), Nat.sub_add_cancel (by omega)]
    · rw [coeff_coeffPoly_of_le n _ (by omega)]
      apply (coeff_eq_zero_of_degree_lt (lt_of_lt_of_le hp _)).symm
      exact_mod_cast (by omega : 2 * n <= i)

theorem degree_coeffPoly_lt (n : Nat) (a : Nat -> R) : (coeffPoly n a).degree < n := by
  apply (degree_lt_iff_coeff_zero _ _).mpr
  intro i hi
  exact coeff_coeffPoly_of_le n a hi

theorem mod_X_pow_add_one [Nontrivial R] {n : Nat} (hn : 0 < n) {p : R[X]}
    (hp : p.degree < (2 * n : Nat)) : p %ₘ (X ^ n + 1) = coeffPoly n (fold n p.coeff) := by
  have hsplit : coeffPoly n (fold n p.coeff) +
      (X ^ n + 1) * coeffPoly n (fun i => p.coeff (i + n)) = p := by
    have hadd := coeffPoly_add n (fold n p.coeff) (fun i => p.coeff (i + n))
    simp only [fold, sub_add_cancel] at hadd
    have hhalves := coeffPoly_halves hp
    rw [hadd] at hhalves
    linear_combination hhalves
  apply (div_modByMonic_unique _ _ (monic_X_pow_add_one hn) ⟨hsplit, _⟩).2
  rw [degree_X_pow_add_one hn]
  exact degree_coeffPoly_lt n _

theorem fold_eq_of_dvd [Nontrivial R] {n : Nat} {p p' : R[X]}
    (hp : p.degree < (2 * n : Nat)) (hp' : p'.degree < (2 * n : Nat))
    (hdvd : X ^ n + 1 ∣ p - p') {i : Nat} (hi : i < n) :
    fold n p.coeff i = fold n p'.coeff i := by
  have hn : 0 < n := by omega
  have hmod : p %ₘ (X ^ n + 1) = p' %ₘ (X ^ n + 1) := by
    rw [<- sub_eq_zero, <- sub_modByMonic]
    exact (modByMonic_eq_zero_iff_dvd (monic_X_pow_add_one hn)).mpr hdvd
  rw [mod_X_pow_add_one hn hp, mod_X_pow_add_one hn hp'] at hmod
  rw [<- coeff_coeffPoly n (fold n p.coeff) hi, hmod, coeff_coeffPoly n _ hi]

/-! ## Products -/

theorem degree_mul_coeffPoly_lt (n : Nat) (a z : Nat -> R) :
    (coeffPoly n a * coeffPoly n z).degree < (2 * n : Nat) := by
  apply (degree_lt_iff_coeff_zero _ _).mpr
  intro i hi
  rw [coeff_mul]
  apply sum_eq_zero
  rintro ⟨u, v⟩ huv
  have hsum := mem_antidiagonal.mp huv
  rcases Nat.lt_or_ge u n with hu | hu
  · rw [coeff_coeffPoly_of_le n z (by dsimp only at hsum; omega), mul_zero]
  · rw [coeff_coeffPoly_of_le n a hu, zero_mul]

def transposed (n : Nat) (a : Nat -> R) (i : Nat) : R :=
  if i = 0 then a 0 else -a (n - i)

theorem coeff_mul_coeffPoly_zero {n : Nat} (hn : 0 < n) (a z : Nat -> R) :
    (coeffPoly n a * coeffPoly n z).coeff 0 = a 0 * z 0 := by
  rw [mul_coeff_zero, coeff_coeffPoly n a hn, coeff_coeffPoly n z hn]

theorem coeff_mul_coeffPoly_dim {n : Nat} (a z : Nat -> R) :
    (coeffPoly n a * coeffPoly n z).coeff n = ∑ i ∈ Ico 1 n, a (n - i) * z i := by
  rw [mul_comm, coeff_mul, Nat.sum_antidiagonal_eq_sum_range_succ_mk]
  rw [sum_range_succ, coeff_coeffPoly_of_le n z le_rfl, zero_mul, add_zero]
  rw [range_eq_Ico]
  rcases Nat.eq_zero_or_pos n with hzero | hn
  · rw [hzero]
    rfl
  · rw [sum_eq_sum_Ico_succ_bot hn, Nat.sub_zero, coeff_coeffPoly_of_le n a le_rfl, mul_zero,
      zero_add]
    apply sum_congr rfl
    intro i hi
    rcases mem_Ico.mp hi with ⟨hlow, hhigh⟩
    rw [coeff_coeffPoly n z hhigh, coeff_coeffPoly n a (by omega), mul_comm]

theorem fold_mul_zero {n : Nat} (hn : 0 < n) (a z : Nat -> R) :
    fold n (coeffPoly n a * coeffPoly n z).coeff 0 =
      ∑ i ∈ range n, transposed n a i * z i := by
  rw [fold, coeff_mul_coeffPoly_zero hn, Nat.zero_add, coeff_mul_coeffPoly_dim, range_eq_Ico,
    sum_eq_sum_Ico_succ_bot hn, sub_eq_add_neg, <- sum_neg_distrib]
  apply congrArg₂ _ rfl
  apply sum_congr rfl
  intro i hi
  rcases mem_Ico.mp hi with ⟨hlow, _⟩
  rw [transposed, if_neg (by omega), neg_mul]

/-! ## Rotations -/

/-- The constant coefficient of `X ^ (-e)` times `m`, for `e` below twice the dimension. -/
def rotated (n : Nat) (m : Nat -> R) (e : Nat) : R :=
  if e < n then m e else -m (e - n)

theorem fold_X_pow_mul {n e : Nat} (he : e < n) {p : R[X]}
    (hp : forall i, n <= i -> i < 2 * n -> p.coeff i = 0) :
    fold n (X ^ e * p).coeff e = p.coeff 0 := by
  rw [fold, coeff_X_pow_mul', coeff_X_pow_mul', if_pos le_rfl, if_pos (by omega), Nat.sub_self,
    Nat.add_sub_cancel_left, hp n le_rfl (by omega), sub_zero]

theorem degree_X_pow_mul_coeffPoly_lt {n e : Nat} (he : e < n) (a : Nat -> R) :
    (X ^ e * coeffPoly n a : R[X]).degree < (2 * n : Nat) := by
  apply (degree_lt_iff_coeff_zero _ _).mpr
  intro i hi
  rw [coeff_X_pow_mul']
  split
  · exact coeff_coeffPoly_of_le n a (by omega)
  · rfl

theorem constant_of_short_rotation [Nontrivial R] {n e : Nat} (he : e < n) {a m : Nat -> R}
    (hdvd : X ^ n + 1 ∣ X ^ e * coeffPoly n a - coeffPoly n m) : a 0 = m e := by
  have hm : (coeffPoly n m).degree < (2 * n : Nat) :=
    lt_of_lt_of_le (degree_coeffPoly_lt n m) (by exact_mod_cast (by omega : n <= 2 * n))
  have hfold := fold_eq_of_dvd (degree_X_pow_mul_coeffPoly_lt he a) hm hdvd he
  rw [fold_X_pow_mul he (fun i hi _ => coeff_coeffPoly_of_le n a hi),
    coeff_coeffPoly n a (by omega)] at hfold
  rw [hfold, fold, coeff_coeffPoly n m he, coeff_coeffPoly_of_le n m (by omega), sub_zero]

theorem constant_of_rotation [Nontrivial R] {n e : Nat} (he : e < 2 * n) {p : R[X]}
    (hp : p.degree < (2 * n : Nat)) {m : Nat -> R}
    (hdvd : X ^ n + 1 ∣ X ^ e * p - coeffPoly n m) : fold n p.coeff 0 = rotated n m e := by
  have hn : 0 < n := by omega
  have hmod : X ^ n + 1 ∣ p - coeffPoly n (fold n p.coeff) := by
    rw [<- mod_X_pow_add_one hn hp]
    exact ⟨p /ₘ (X ^ n + 1), by linear_combination -modByMonic_add_div p (X ^ n + 1)⟩
  have hreduced : X ^ n + 1 ∣ X ^ e * coeffPoly n (fold n p.coeff) - coeffPoly n m := by
    have hsplit : X ^ e * coeffPoly n (fold n p.coeff) - coeffPoly n m =
        (X ^ e * p - coeffPoly n m) - X ^ e * (p - coeffPoly n (fold n p.coeff)) := by
      ring
    rw [hsplit]
    exact dvd_sub hdvd (hmod.mul_left (X ^ e))
  unfold rotated
  split
  · rename_i hshort
    exact constant_of_short_rotation hshort hreduced
  · rename_i hlong
    obtain ⟨d, rfl⟩ := Nat.exists_eq_add_of_le' (Nat.not_lt.mp hlong)
    rw [Nat.add_sub_cancel]
    have hneg : X ^ n + 1 ∣
        X ^ d * coeffPoly n (fold n p.coeff) - coeffPoly n (fun i => -m i) := by
      have hsplit : X ^ d * coeffPoly n (fold n p.coeff) - coeffPoly n (fun i => -m i) =
          (X ^ n + 1) * (X ^ d * coeffPoly n (fold n p.coeff)) -
            (X ^ (d + n) * coeffPoly n (fold n p.coeff) - coeffPoly n m) := by
        rw [coeffPoly_neg]
        ring
      rw [hsplit]
      exact dvd_sub (dvd_mul_right _ _) hreduced
    exact constant_of_short_rotation (by omega) hneg

theorem constant_of_inverse_rotation [Nontrivial R] {n e : Nat} (he : e < 2 * n) (m : Nat -> R) :
    ((X ^ (2 * n - e) * coeffPoly n m) %ₘ (X ^ n + 1)).coeff 0 = rotated n m e := by
  have hn : 0 < n := by omega
  generalize hp : (X ^ (2 * n - e) * coeffPoly n m) %ₘ (X ^ n + 1) = p
  have hdegree : p.degree < n := by
    rw [<- hp, <- degree_X_pow_add_one (R := R) hn]
    exact degree_modByMonic_lt _ (monic_X_pow_add_one hn)
  have hdvd : X ^ n + 1 ∣ X ^ e * p - coeffPoly n m := by
    have hturn : (X : R[X]) ^ n * X ^ n = X ^ e * X ^ (2 * n - e) := by
      rw [<- pow_add, <- pow_add, Nat.add_sub_cancel' he.le, two_mul]
    have hsplit := modByMonic_add_div (X ^ (2 * n - e) * coeffPoly n m) (X ^ n + 1)
    rw [hp] at hsplit
    refine ⟨(X ^ n - 1) * coeffPoly n m -
      X ^ e * ((X ^ (2 * n - e) * coeffPoly n m) /ₘ (X ^ n + 1)), ?_⟩
    linear_combination X ^ e * hsplit - coeffPoly n m * hturn
  have hlt : p.degree < (2 * n : Nat) :=
    lt_of_lt_of_le hdegree (by exact_mod_cast Nat.le_mul_of_pos_left n (by decide : 0 < 2))
  have hzero : p.coeff (0 + n) = 0 := by
    rw [Nat.zero_add]
    exact coeff_eq_zero_of_degree_lt hdegree
  rw [<- constant_of_rotation he hlt hdvd, fold, hzero, sub_zero]

end Foundation
end OpenFHE
