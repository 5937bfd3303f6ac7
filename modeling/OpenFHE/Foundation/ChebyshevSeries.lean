import OpenFHE.Foundation.PolynomialSeries
import Mathlib.RingTheory.Polynomial.Chebyshev

/-!
# Chebyshev series

Series in the Chebyshev polynomials of the first kind whose coefficient of `T_0` is
stored doubled: in place of `T_0` the sequence starts with one half.
-/

namespace OpenFHE
namespace Foundation

open Polynomial
open Polynomial.Chebyshev

theorem two_atLeastTwo : Nat.AtLeastTwo 2 := inferInstance

attribute [local instance] two_atLeastTwo

variable {F : Type _} [Field F]

noncomputable def chebyshevBasis (F : Type _) [Field F] [NeZero (2 : F)] :
    Polynomial.Sequence F where
  elems' n := if n = 0 then Polynomial.C 2⁻¹ else T F n
  degree_eq' n := by
    by_cases hn : n = 0
    · rw [if_pos hn, hn]
      exact degree_C (inv_ne_zero two_ne_zero)
    · rw [if_neg hn, degree_T]
      rfl

variable [NeZero (2 : F)]

theorem chebyshevBasis_zero : chebyshevBasis F 0 = Polynomial.C 2⁻¹ := rfl

theorem chebyshevBasis_of_pos {n : Nat} (hn : 0 < n) : chebyshevBasis F n = T F n :=
  if_neg hn.ne'

/-- The part of a product that the sum of the indices does not give. -/
noncomputable def lowProduct (F : Type _) [Field F] (j a : Nat) : F[X] :=
  if a = 0 then 0 else T F ((j : Int) - a)

theorem chebyshevBasis_mul {j : Nat} (hj : 0 < j) (a : Nat) :
    Polynomial.C 2 * chebyshevBasis F j * chebyshevBasis F a =
      chebyshevBasis F (j + a) + lowProduct F j a := by
  have htwo : (Polynomial.C 2 : F[X]) = 2 := rfl
  rw [lowProduct, chebyshevBasis_of_pos hj, chebyshevBasis_of_pos (Nat.add_pos_left hj a)]
  by_cases ha : a = 0
  · have hhalf : (Polynomial.C 2 : F[X]) * Polynomial.C 2⁻¹ = 1 := by
      rw [<- Polynomial.C_mul, mul_inv_cancel₀ two_ne_zero, Polynomial.C_1]
    rw [if_pos ha, ha, chebyshevBasis_zero, Nat.add_zero, add_zero]
    linear_combination (T F (j : Int)) * hhalf
  · rw [if_neg ha, chebyshevBasis_of_pos (Nat.pos_of_ne_zero ha), htwo, T_mul_T, Nat.cast_add]

theorem lowProduct_of_lt {j a : Nat} (ha : a ≠ 0) (hlt : a < j) :
    lowProduct F j a = chebyshevBasis F (j - a) := by
  rw [lowProduct, if_neg ha, chebyshevBasis_of_pos (by omega), Nat.cast_sub hlt.le]

theorem lowProduct_add {j : Nat} (hj : 0 < j) (i : Nat) :
    lowProduct F j (j + i) =
      chebyshevBasis F i + if i = 0 then chebyshevBasis F 0 else 0 := by
  rw [lowProduct, if_neg (by omega)]
  by_cases hi : i = 0
  · have hsum : (Polynomial.C 2⁻¹ + Polynomial.C 2⁻¹ : F[X]) = 1 := by
      rw [<- Polynomial.C_add, <- two_mul, mul_inv_cancel₀ two_ne_zero, Polynomial.C_1]
    rw [if_pos hi, hi, chebyshevBasis_zero, hsum, Nat.add_zero, sub_self, T_zero]
  · rw [if_neg hi, add_zero, chebyshevBasis_of_pos (Nat.pos_of_ne_zero hi), Nat.cast_add,
      sub_add_cancel_left, T_neg]

theorem sum_lowProduct {j : Nat} (hj : 0 < j) (G : Nat -> F) :
    ∑ a ∈ Finset.range j, Polynomial.C (G a) * lowProduct F j a +
        Polynomial.C (G j) * chebyshevBasis F 0 =
      ∑ i ∈ Finset.range j, Polynomial.C (G (j - i)) * chebyshevBasis F i := by
  have hterm : forall a, a ∈ Finset.range j ->
      Polynomial.C (G a) * lowProduct F j a =
        if a = 0 then 0 else Polynomial.C (G a) * chebyshevBasis F (j - a) := by
    intro a ha
    by_cases hzero : a = 0
    · rw [if_pos hzero, lowProduct, if_pos hzero, mul_zero]
    · rw [if_neg hzero, lowProduct_of_lt hzero (Finset.mem_range.mp ha)]
  have hlast : Polynomial.C (G j) * chebyshevBasis F 0 =
      if j = 0 then 0 else Polynomial.C (G j) * chebyshevBasis F (j - j) := by
    rw [if_neg hj.ne', Nat.sub_self]
  rw [Finset.sum_congr rfl hterm, hlast,
    <- Finset.sum_range_succ (fun a => if a = 0 then 0 else
      Polynomial.C (G a) * chebyshevBasis F (j - a)), <- Finset.sum_range_reflect,
    Finset.sum_range_succ]
  have hfirst : j + 1 - 1 - j = 0 := by omega
  rw [hfirst, if_pos rfl, add_zero]
  apply Finset.sum_congr rfl
  intro i hi
  have hlt : i < j := Finset.mem_range.mp hi
  rw [if_neg (by omega), show j + 1 - 1 - i = j - i by omega, Nat.sub_sub_self hlt.le]

theorem chebyshev_product {g d : List F} {j k : Nat} (hj : 0 < j) (hg : g.length = k + 1)
    (hd : d.length = j + (k + 1))
    (hget : forall i, i < j + (k + 1) ->
      d.getD i 0 = g.getD ((i : Int) - j).natAbs 0 + g.getD (i + j) 0) :
    series (chebyshevBasis F) d =
      Polynomial.C 2 * chebyshevBasis F j * series (chebyshevBasis F) g := by
  have hhigh : ∑ i ∈ Finset.range (j + (k + 1)),
        Polynomial.C (g.getD ((i : Int) - j).natAbs 0) * chebyshevBasis F i =
      ∑ i ∈ Finset.range j, Polynomial.C (g.getD (j - i) 0) * chebyshevBasis F i +
        ∑ a ∈ Finset.range (k + 1), Polynomial.C (g.getD a 0) * chebyshevBasis F (j + a) := by
    rw [Finset.sum_range_add]
    congr 1
    · apply Finset.sum_congr rfl
      intro i hi
      have hlt : i < j := Finset.mem_range.mp hi
      rw [show ((i : Int) - j).natAbs = j - i by omega]
    · apply Finset.sum_congr rfl
      intro a _
      rw [show (((j + a : Nat) : Int) - j).natAbs = a by omega]
  have hlow : ∑ a ∈ Finset.range (k + 1), Polynomial.C (g.getD a 0) * lowProduct F j a =
      ∑ a ∈ Finset.range j, Polynomial.C (g.getD a 0) * lowProduct F j a +
        ∑ i ∈ Finset.range (j + (k + 1)),
          Polynomial.C (g.getD (j + i) 0) * lowProduct F j (j + i) := by
    rw [<- Finset.sum_range_add]
    apply Finset.sum_subset (Finset.range_mono (by omega))
    intro a _ ha
    rw [List.getD_eq_default g 0 (by rw [hg]; simpa using ha), Polynomial.C_0, zero_mul]
  have hupper : ∑ i ∈ Finset.range (j + (k + 1)),
        Polynomial.C (g.getD (j + i) 0) * lowProduct F j (j + i) =
      ∑ i ∈ Finset.range (j + (k + 1)), Polynomial.C (g.getD (i + j) 0) * chebyshevBasis F i +
        Polynomial.C (g.getD j 0) * chebyshevBasis F 0 := by
    have hterm : forall i, i ∈ Finset.range (j + (k + 1)) ->
        Polynomial.C (g.getD (j + i) 0) * lowProduct F j (j + i) =
          Polynomial.C (g.getD (i + j) 0) * chebyshevBasis F i +
            Polynomial.C (g.getD (i + j) 0) * (if i = 0 then chebyshevBasis F 0 else 0) := by
      intro i _
      rw [lowProduct_add hj, mul_add, Nat.add_comm j i]
    rw [Finset.sum_congr rfl hterm, Finset.sum_add_distrib]
    congr 1
    rw [Finset.sum_eq_single 0]
    · rw [if_pos rfl, Nat.zero_add]
    · intro i _ hi
      rw [if_neg hi, mul_zero]
    · intro h
      exact absurd (Finset.mem_range.mpr (by omega)) h
  have hmiddle := sum_lowProduct hj (fun a => g.getD a 0)
  unfold series
  rw [hd, Finset.mul_sum, hg, Finset.sum_congr rfl fun i hi => by
    rw [hget i (Finset.mem_range.mp hi), Polynomial.C_add, add_mul], Finset.sum_add_distrib,
    hhigh]
  have hright : ∑ a ∈ Finset.range (k + 1), Polynomial.C 2 * chebyshevBasis F j *
        (Polynomial.C (g.getD a 0) * chebyshevBasis F a) =
      ∑ a ∈ Finset.range (k + 1), Polynomial.C (g.getD a 0) * chebyshevBasis F (j + a) +
        ∑ a ∈ Finset.range (k + 1), Polynomial.C (g.getD a 0) * lowProduct F j a := by
    rw [<- Finset.sum_add_distrib]
    apply Finset.sum_congr rfl
    intro a _
    have hproduct : Polynomial.C 2 * chebyshevBasis F j * chebyshevBasis F a =
      chebyshevBasis F (j + a) + lowProduct F j a := chebyshevBasis_mul hj a
    linear_combination Polynomial.C (g.getD a 0) * hproduct
  rw [hright, hlow, hupper]
  linear_combination -hmiddle

end Foundation
end OpenFHE
