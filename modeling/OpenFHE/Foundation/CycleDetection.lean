import Mathlib.Data.Finset.Card
import Mathlib.Logic.Function.Iterate
import Mathlib.Order.Interval.Finset.Nat

/-!
# Cycles of iterated functions

Floyd's argument: an iteration inside a finite set meets itself at twice the pace.
-/

namespace OpenFHE
namespace Foundation

theorem iterate_add_mul_period {α : Type _} {f : α -> α} {x : α} {start period : Nat}
    (h : f^[start] x = f^[start + period] x) {i : Nat} (hi : start <= i) (count : Nat) :
    f^[i + count * period] x = f^[i] x := by
  have hstep (i : Nat) (hi : start <= i) : f^[i + period] x = f^[i] x := by
    have hsplit : i + period = (i - start) + (start + period) := by omega
    have hself : i = (i - start) + start := by omega
    rw [hsplit, Function.iterate_add_apply, ← h, ← Function.iterate_add_apply, ← hself]
  induction count with
  | zero => rw [Nat.zero_mul, Nat.add_zero]
  | succ count ih =>
      rw [Nat.succ_mul, ← Nat.add_assoc, hstep _ (by omega)]
      exact ih

theorem exists_iterate_eq_double {α : Type _} [DecidableEq α] {f : α -> α} (values : Finset α)
    (hf : forall x, x ∈ values -> f x ∈ values) {x : α} (hx : x ∈ values) :
    exists i, 0 < i ∧ i <= values.card ∧ f^[i] x = f^[2 * i] x := by
  have hmem (i : Nat) : f^[i] x ∈ values := by
    induction i with
    | zero => exact hx
    | succ i ih =>
        rw [Function.iterate_succ_apply']
        exact hf _ ih
  have hpigeon : exists i, i ∈ Finset.range (values.card + 1) ∧
      exists j, j ∈ Finset.range (values.card + 1) ∧ i ≠ j ∧ f^[i] x = f^[j] x :=
    Finset.exists_ne_map_eq_of_card_lt_of_maps_to (by rw [Finset.card_range]; omega)
      fun i _ => Finset.mem_coe.mpr (hmem i)
  have hrepeat : exists start period, 0 < period ∧ start + period <= values.card ∧
      f^[start] x = f^[start + period] x := by
    rcases hpigeon with ⟨i, hi, j, hj, hne, heq⟩
    rw [Finset.mem_range] at hi hj
    rcases Nat.lt_or_gt_of_ne hne with hlt | hgt
    · refine ⟨i, j - i, by omega, by omega, ?_⟩
      rw [Nat.add_sub_cancel' hlt.le]
      exact heq
    · refine ⟨j, i - j, by omega, by omega, ?_⟩
      rw [Nat.add_sub_cancel' (Nat.le_of_lt hgt)]
      exact heq.symm
  rcases hrepeat with ⟨start, period, hpos, hle, heq⟩
  -- the first positive multiple of the period that is not below the start
  have hmultiple : exists count, 0 < count ∧ start <= count * period ∧
      count * period <= start + period := by
    rcases Nat.eq_zero_or_pos start with hzero | hstart
    · exact ⟨1, Nat.one_pos, by omega, by omega⟩
    · have hdiv := Nat.div_add_mod' (start + period - 1) period
      have hmod := Nat.mod_lt (start + period - 1) hpos
      refine ⟨(start + period - 1) / period, ?_, by omega, by omega⟩
      exact Nat.div_pos (by omega) hpos
  rcases hmultiple with ⟨count, hcount, hlow, hhigh⟩
  refine ⟨count * period, Nat.mul_pos hcount hpos, by omega, ?_⟩
  rw [Nat.two_mul]
  exact (iterate_add_mul_period heq hlow count).symm

end Foundation
end OpenFHE
