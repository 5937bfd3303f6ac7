import Mathlib.Algebra.BigOperators.Group.Finset.Basic
import Mathlib.Algebra.BigOperators.Intervals
import Mathlib.Data.List.Range

/-!
# Cutting a range into blocks

The numbers below `n` in blocks of `b`: block `j` begins at `b * j` and the last one
may be shorter.  Going through the blocks in turn meets every number once.
-/

namespace OpenFHE
namespace Foundation

open Finset

def blockLength (b n j : Nat) : Nat := min b (n - b * j)

theorem min_mul_succ (b n h : Nat) :
    min (b * (h + 1)) n = min (b * h) n + blockLength b n h := by
  unfold blockLength
  rw [Nat.mul_succ]
  omega

theorem blockLength_pos_iff {b n j : Nat} (hb : 0 < b) : 0 < blockLength b n j <-> b * j < n := by
  unfold blockLength
  omega

theorem block_start {b n h i : Nat} (hi : i < blockLength b n h) : min (b * h) n = b * h := by
  unfold blockLength at hi
  omega

theorem sum_blocks {A : Type _} [AddCommMonoid A] (f : Nat -> A) (b n h : Nat) :
    ∑ j ∈ range h, ∑ i ∈ range (blockLength b n j), f (b * j + i) =
      ∑ d ∈ range (min (b * h) n), f d := by
  induction h with
  | zero =>
      simp
  | succ h ih =>
      rw [sum_range_succ, ih, min_mul_succ, sum_range_add]
      congr 1
      apply sum_congr rfl
      intro i hi
      rw [block_start (mem_range.mp hi)]

theorem sum_range_pairs {M : Type _} [AddCommMonoid M] (f : Nat -> M) (n : Nat) :
    ∑ s ∈ range (2 * n), f s = ∑ s ∈ range n, (f (2 * s) + f (2 * s + 1)) := by
  induction n with
  | zero => rfl
  | succ n ih =>
      rw [Nat.mul_succ, sum_range_succ, sum_range_succ, ih, sum_range_succ, add_assoc]

theorem flatMap_blocks (b n h : Nat) :
    ((List.range h).flatMap fun j => List.range' (b * j) (blockLength b n j)) =
      List.range (min (b * h) n) := by
  induction h with
  | zero =>
      simp
  | succ h ih =>
      rw [List.range_succ, List.flatMap_append, ih, min_mul_succ, List.flatMap_singleton,
        List.range_eq_range', List.range_eq_range', ← List.range'_append_1, Nat.zero_add]
      congr 1
      cases hlen : blockLength b n h with
      | zero =>
          rfl
      | succ k =>
          rw [block_start (b := b) (n := n) (h := h) (i := 0) (by omega)]

end Foundation
end OpenFHE
