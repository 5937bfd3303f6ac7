import OpenFHE.Foundation.ChebyshevSeries
import Mathlib.Algebra.Field.ZMod
import Mathlib.Algebra.CharP.Two
import Mathlib.Data.Rat.Cast.CharZero

/-!
# Integral Chebyshev series

Where a product of two series with integer coefficients has integer coefficients, one of the
two has only even ones.  The polynomials `2 * T_n(x / 2)` are monic with integer coefficients,
so the product can be read modulo two.
-/

namespace OpenFHE
namespace Foundation

open Polynomial

section Degrees

variable {R : Type _} [CommRing R] [IsDomain R]

theorem degree_chebyshevC (n : Nat) :
    (Chebyshev.C R (n + 1 : Nat)).degree = ((n + 1 : Nat) : WithBot Nat) ∧
      (Chebyshev.C R n).degree <= n := by
  induction n with
  | zero =>
      constructor
      · simp
      · rw [Nat.cast_zero, Chebyshev.C_zero]
        exact degree_C_le (a := (2 : R))
  | succ n ih =>
      rcases ih with ⟨hsucc, hle⟩
      refine ⟨?_, hsucc.le⟩
      have hrec : Chebyshev.C R (n + 1 + 1 : Nat) =
          X * Chebyshev.C R (n + 1 : Nat) - Chebyshev.C R n := by
        have hadd := Chebyshev.C_add_two R (n : Int)
        push_cast
        rw [<- hadd, add_assoc]
        norm_num
      have hmul : (X * Chebyshev.C R (n + 1 : Nat)).degree =
          ((n + 1 + 1 : Nat) : WithBot Nat) := by
        rw [degree_mul, degree_X, hsucc, add_comm]
        rfl
      rw [hrec, degree_sub_eq_left_of_degree_lt, hmul]
      rw [hmul]
      apply hle.trans_lt
      exact_mod_cast Nat.lt_add_of_pos_right (show 0 < 2 by decide)

end Degrees

/-- One and the polynomials `2 * T_n(x / 2)`. -/
noncomputable def doubledBasis (F : Type _) [Field F] : Polynomial.Sequence F where
  elems' n := if n = 0 then 1 else Chebyshev.C F n
  degree_eq' n := by
    cases n with
    | zero => exact degree_one
    | succ n =>
        rw [if_neg (Nat.succ_ne_zero n)]
        exact (degree_chebyshevC n).1

/-- The series with coefficients `c` in these polynomials. -/
noncomputable def doubledSeries (c : List Int) : Int[X] :=
  ∑ i ∈ Finset.range c.length,
    C (c.getD i 0) * if i = 0 then 1 else Chebyshev.C Int i

theorem getD_map_cast {F : Type _} [Field F] (c : List Int) (i : Nat) :
    (c.map (Int.castRingHom F)).getD i 0 = (c.getD i 0 : F) := by
  have hmap := List.getD_map (f := Int.castRingHom F) (l := c) (n := i) (d := 0)
  rwa [map_zero] at hmap

theorem map_doubledSeries {F : Type _} [Field F] (c : List Int) :
    (doubledSeries c).map (Int.castRingHom F) =
      series (doubledBasis F) (c.map (Int.castRingHom F)) := by
  unfold doubledSeries series
  rw [Polynomial.map_sum, List.length_map]
  apply Finset.sum_congr rfl
  intro i _
  rw [Polynomial.map_mul, Polynomial.map_C, getD_map_cast]
  congr 1
  show map _ (if i = 0 then 1 else _) = if i = 0 then 1 else Chebyshev.C F i
  by_cases hi : i = 0
  · rw [if_pos hi, if_pos hi, Polynomial.map_one]
  · rw [if_neg hi, if_neg hi, Chebyshev.map_C]

theorem series_comp {F : Type _} [Field F] [NeZero (2 : F)] (c : List F) :
    (series (doubledBasis F) c).comp (2 * X) = 2 * series (chebyshevBasis F) c := by
  unfold series
  rw [<- coe_compRingHom_apply, map_sum, Finset.mul_sum]
  apply Finset.sum_congr rfl
  intro i _
  rw [coe_compRingHom_apply, mul_comp, C_comp, mul_left_comm]
  congr 1
  show (if i = 0 then 1 else Chebyshev.C F i).comp _ = 2 * chebyshevBasis F i
  by_cases hi : i = 0
  · have hhalf : (2 : F[X]) * C 2⁻¹ = 1 := by
      rw [show (2 : F[X]) = C 2 from rfl, <- C_mul, mul_inv_cancel₀ two_ne_zero, C_1]
    rw [if_pos hi, hi, one_comp, chebyshevBasis_zero, hhalf]
  · rw [if_neg hi, Chebyshev.C_comp_two_mul_X, chebyshevBasis_of_pos (Nat.pos_of_ne_zero hi)]

theorem comp_two_mul_X_injective {F : Type _} [Field F] [NeZero (2 : F)] {p q : F[X]}
    (h : p.comp (2 * X) = q.comp (2 * X)) : p = q := by
  have hback : forall r : F[X], (r.comp (2 * X)).comp (C 2⁻¹ * X) = r := by
    intro r
    have htwo : (2 * X : F[X]).comp (C 2⁻¹ * X) = X := by
      rw [mul_comp, X_comp, show (2 : F[X]) = C 2 from rfl, C_comp, <- mul_assoc, <- C_mul,
        mul_inv_cancel₀ two_ne_zero, C_1, one_mul]
    rw [comp_assoc, htwo, comp_X]
  rw [<- hback p, h, hback q]

theorem chebyshev_parity {q g m : List Int}
    (h : series (chebyshevBasis ℚ) (q.map (Int.castRingHom ℚ)) *
        series (chebyshevBasis ℚ) (g.map (Int.castRingHom ℚ)) =
      series (chebyshevBasis ℚ) (m.map (Int.castRingHom ℚ))) :
    (forall i, (2 : Int) ∣ q.getD i 0) ∨ forall i, (2 : Int) ∣ g.getD i 0 := by
  have hinteger : doubledSeries q * doubledSeries g = 2 * doubledSeries m := by
    apply map_injective (Int.castRingHom ℚ) (Int.castRingHom ℚ).injective_int
    rw [Polynomial.map_mul, Polynomial.map_mul, map_doubledSeries, map_doubledSeries,
      map_doubledSeries, Polynomial.map_ofNat]
    apply comp_two_mul_X_injective
    rw [mul_comp, mul_comp, series_comp, series_comp, series_comp, ofNat_comp]
    linear_combination 4 * h
  have htwo : (2 : (ZMod 2)[X]) = 0 := CharTwo.two_eq_zero
  have hmod : series (doubledBasis (ZMod 2)) (q.map (Int.castRingHom (ZMod 2))) *
      series (doubledBasis (ZMod 2)) (g.map (Int.castRingHom (ZMod 2))) = 0 := by
    rw [<- map_doubledSeries, <- map_doubledSeries, <- Polynomial.map_mul, hinteger,
      Polynomial.map_mul, Polynomial.map_ofNat, htwo, zero_mul]
  have heven : forall c : List Int,
      series (doubledBasis (ZMod 2)) (c.map (Int.castRingHom (ZMod 2))) = 0 ->
      forall i, (2 : Int) ∣ c.getD i 0 := by
    intro c hc i
    have hdegree : (series (doubledBasis (ZMod 2))
        (c.map (Int.castRingHom (ZMod 2)))).degree < (0 : Nat) := by
      rw [hc, degree_zero]
      exact WithBot.bot_lt_coe _
    have hzero := getD_eq_zero_of_degree_lt (doubledBasis (ZMod 2)) hdegree i (Nat.zero_le i)
    rw [getD_map_cast] at hzero
    exact (ZMod.intCast_zmod_eq_zero_iff_dvd _ 2).mp hzero
  rcases mul_eq_zero.mp hmod with hq | hg
  · exact Or.inl (heven q hq)
  · exact Or.inr (heven g hg)

end Foundation
end OpenFHE
