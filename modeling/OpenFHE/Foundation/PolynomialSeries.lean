import Mathlib.Algebra.Polynomial.Sequence
import Mathlib.Algebra.Polynomial.FieldDivision
import Mathlib.Data.List.GetD
import Mathlib.Tactic.Ring
import Mathlib.Tactic.LinearCombination

/-!
# Series in a sequence of polynomials

A list of coefficients with respect to polynomials `B 0`, `B 1`, ... of degrees 0, 1, ...
stands for a polynomial.  The list ends in a nonzero coefficient exactly when its
length gives the degree.

`RecursionSplits` follows the recursion of Paterson and Stockmeyer on such a polynomial: each
level divides by the middle polynomial of the sequence, subtracts a polynomial of the
sequence from the remainder, and divides that by the quotient.
-/

namespace OpenFHE
namespace Foundation

open Polynomial

variable {F : Type _} [Field F]

noncomputable def series (B : Polynomial.Sequence F) (c : List F) : F[X] :=
  ∑ i ∈ Finset.range c.length, C (c.getD i 0) * B i

section Series

variable (B : Polynomial.Sequence F)

theorem series_eq_sum {c : List F} {n : Nat} (h : c.length <= n) :
    series B c = ∑ i ∈ Finset.range n, C (c.getD i 0) * B i := by
  unfold series
  apply Finset.sum_subset (Finset.range_mono h)
  intro i _ hi
  rw [List.getD_eq_default c 0 (not_lt.mp (fun hlt => hi (Finset.mem_range.mpr hlt))), C_0,
    zero_mul]

theorem series_eq_sum_of_zero {c : List F} {n : Nat} (h : forall i, n <= i -> c.getD i 0 = 0) :
    series B c = ∑ i ∈ Finset.range n, C (c.getD i 0) * B i := by
  rw [series_eq_sum B (Nat.le_max_left c.length n)]
  symm
  apply Finset.sum_subset (Finset.range_mono (Nat.le_max_right _ _))
  intro i _ hi
  rw [h i (by simpa using hi), C_0, zero_mul]

theorem series_congr {c d : List F} (h : forall i, c.getD i 0 = d.getD i 0) :
    series B c = series B d := by
  rw [series_eq_sum B (Nat.le_max_left c.length d.length),
    series_eq_sum B (Nat.le_max_right c.length d.length)]
  exact Finset.sum_congr rfl fun i _ => by rw [h i]

theorem series_linear {c d e : List F} (a b : F)
    (h : forall i, e.getD i 0 = a * c.getD i 0 + b * d.getD i 0) :
    series B e = C a * series B c + C b * series B d := by
  have hc : c.length <= c.length + d.length + e.length := by omega
  have hd : d.length <= c.length + d.length + e.length := by omega
  have he : e.length <= c.length + d.length + e.length := by omega
  rw [series_eq_sum B hc, series_eq_sum B hd, series_eq_sum B he, Finset.mul_sum,
    Finset.mul_sum, <- Finset.sum_add_distrib]
  apply Finset.sum_congr rfl
  intro i _
  rw [h i, C_add, C_mul, C_mul]
  ring

theorem series_single {c : List F} {n : Nat} (h : forall i, i ≠ n -> c.getD i 0 = 0) :
    series B c = C (c.getD n 0) * B n := by
  rw [series_eq_sum B (Nat.le_add_right c.length (n + 1)), Finset.sum_eq_single n]
  · intro i _ hi
    rw [h i hi, C_0, zero_mul]
  · intro hn
    exact absurd (Finset.mem_range.mpr (by omega)) hn

theorem getD_replicate_append (n i : Nat) (v : F) :
    (List.replicate n (0 : F) ++ [v]).getD i 0 = if i = n then v else 0 := by
  rcases Nat.lt_trichotomy i n with hlt | heq | hgt
  · rw [List.getD_append _ _ _ _ (by simpa using hlt), if_neg (by omega)]
    simp
  · rw [heq, if_pos rfl, List.getD_append_right _ _ _ _ (by simp)]
    simp
  · rw [List.getD_eq_default _ _ (by simp; omega), if_neg (by omega)]

theorem series_replicate_append (n : Nat) (v : F) :
    series B (List.replicate n 0 ++ [v]) = C v * B n := by
  rw [series_single B (n := n) (fun i hi => by rw [getD_replicate_append, if_neg hi]),
    getD_replicate_append, if_pos rfl]

theorem series_add_single {c d : List F} {n : Nat} {v : F}
    (h : forall i, d.getD i 0 = c.getD i 0 + if i = n then v else 0) :
    series B d = series B c + C v * B n := by
  have hsum := series_linear B 1 1 (c := c) (d := List.replicate n 0 ++ [v]) (e := d)
    (by
      intro i
      rw [h i, getD_replicate_append]
      ring)
  rw [hsum, series_replicate_append, C_1, one_mul, one_mul]

theorem degree_sum_range_lt (c : Nat -> F) (n : Nat) :
    (∑ i ∈ Finset.range n, C (c i) * B i).degree < n := by
  refine (degree_sum_le _ _).trans_lt ((Finset.sup_lt_iff (WithBot.bot_lt_coe n)).mpr ?_)
  intro i hi
  calc
    (C (c i) * B i).degree <= (B i).degree := by
      rw [C_mul']
      exact degree_smul_le _ _
    _ = (i : WithBot Nat) := B.degree_eq i
    _ < n := by exact_mod_cast Finset.mem_range.mp hi

theorem degree_series_lt (c : List F) : (series B c).degree < c.length :=
  degree_sum_range_lt B _ _

theorem degree_series_lt_of_zero {c : List F} {n : Nat} (h : forall i, n <= i -> c.getD i 0 = 0) :
    (series B c).degree < n := by
  rw [series_eq_sum_of_zero B h]
  exact degree_sum_range_lt B _ n

theorem coeff_series {c : List F} {n : Nat} (h : forall i, n < i -> c.getD i 0 = 0) :
    (series B c).coeff n = c.getD n 0 * (B n).leadingCoeff := by
  have hsum : series B c = (∑ i ∈ Finset.range n, C (c.getD i 0) * B i) +
      C (c.getD n 0) * B n := by
    rw [<- Finset.sum_range_succ]
    exact series_eq_sum_of_zero B h
  rw [hsum, coeff_add, coeff_eq_zero_of_degree_lt (degree_sum_range_lt B _ _), zero_add,
    coeff_C_mul, leadingCoeff, B.natDegree_eq]

theorem getD_eq_zero_of_degree_lt {c : List F} {n : Nat} (h : (series B c).degree < n)
    (i : Nat) (hi : n <= i) : c.getD i 0 = 0 := by
  have hdown : forall j i, n <= i -> c.length <= i + j -> c.getD i 0 = 0 := by
    intro j
    induction j with
    | zero =>
        intro i _ hlen
        exact List.getD_eq_default c 0 hlen
    | succ j ih =>
        intro i hi hlen
        have htop := coeff_series B (n := i) (fun i' hi' => ih i' (by omega) (by omega))
        have hdegree : (series B c).degree < i := h.trans_le (by exact_mod_cast hi)
        rw [coeff_eq_zero_of_degree_lt hdegree] at htop
        rcases mul_eq_zero.mp htop.symm with hzero | hlead
        · exact hzero
        · exact absurd (leadingCoeff_eq_zero.mp hlead) (B.ne_zero i)
  exact hdown c.length i hi (by omega)

theorem degree_series {c : List F} {n : Nat} (hlen : c.length = n + 1)
    (htop : c.getD n 0 ≠ 0) : (series B c).degree = n := by
  apply le_antisymm
  · rw [degree_le_iff_coeff_zero]
    intro m hm
    apply coeff_eq_zero_of_degree_lt
    apply (degree_series_lt B c).trans_le
    rw [hlen]
    exact_mod_cast Nat.succ_le_of_lt (by exact_mod_cast hm)
  · by_contra hlt
    exact htop (getD_eq_zero_of_degree_lt B (not_le.mp hlt) n le_rfl)

theorem aeval_series {R : Type _} [CommRing R] [Algebra F R] (x : R) (c : List F) :
    aeval x (series B c) = ∑ i ∈ Finset.range c.length, c.getD i 0 • aeval x (B i) := by
  unfold series
  rw [map_sum]
  apply Finset.sum_congr rfl
  intro i _
  rw [map_mul, aeval_C, Algebra.smul_def]

end Series

/-!
## Division
-/

theorem div_mod_of_eq {f g q r : F[X]} (h : f = q * g + r) (hr : r.degree < g.degree) :
    f / g = q ∧ f % g = r := by
  have hg : g ≠ 0 := by
    rintro rfl
    exact absurd hr (by simp)
  have hmod : f % g = r := by
    rw [h, add_mod, (mod_eq_self_iff hg).mpr hr]
    simp
  refine ⟨?_, hmod⟩
  have hdiv := EuclideanDomain.div_add_mod f g
  rw [hmod] at hdiv
  apply mul_left_cancel₀ hg
  linear_combination hdiv + h

/--
No level of the recursion loses the leading term of the polynomial that it divides by the
quotient.
-/
def RecursionSplits (B : Polynomial.Sequence F) (k : Nat) : Nat -> F[X] -> Prop
  | 0, _ => True
  | 1, _ => True
  | j + 2, f =>
      let K := k * 2 ^ (j + 1) - k
      let r := f % B (K + k) - B K
      (K : WithBot Nat) <= r.degree ∧ RecursionSplits B k (j + 1) (f / B (K + k)) ∧
        RecursionSplits B k (j + 1) (r % (f / B (K + k)) + B K)

end Foundation
end OpenFHE
