import Mathlib.Data.List.MinMax
import Mathlib.Data.Nat.Log
import Mathlib.Algebra.Group.Nat.Defs

/-!
# Degrees of the method of Paterson and Stockmeyer

`ComputeDegreesPS` splits a degree `n` into `k` and `m` with `n < k * (2 ^ m - 1)`: from a
table for the common degrees, else as the pair of least cost among the candidates of a
heuristic.  Its logarithms are taken of integers, so that they are exact.
-/

namespace OpenFHE
namespace Scheme
namespace Ckksrns

/-- The last degree of each range of `ComputeDegreesPS` with its `m`. -/
def rangemap : List (Nat × Nat) :=
  [(2, 1), (11, 2), (13, 3), (17, 2), (55, 3), (59, 4), (76, 3), (239, 4), (247, 5), (284, 4),
    (991, 5), (1007, 6), (1083, 5), (2015, 6), (2031, 7), (2204, 6)]

/-- The pairs of `klist` and `mlist`, in the order in which the heuristic finds them. -/
def degreesCandidates (n : Nat) : List (Nat × Nat) :=
  (List.range' 1 n).flatMap fun k =>
    (List.range' 1 (Nat.clog 2 (n / k) + 1 + 1)).filterMap fun m =>
      if n < k * (2 ^ m - 1) ∧
          ((Nat.log2 k : Int) - (Nat.log2 (n / 2) / 2 : Nat)).natAbs <= 1 then
        some (k, m)
      else none

/-- The entry of `multlist` for a pair. -/
def multiplications (d : Nat × Nat) : Nat :=
  d.1 + 2 * d.2 + 2 ^ (d.2 - 1) - 4

def computeDegreesPS (n : Nat) : Option (Nat × Nat) :=
  if n = 0 then none
  else if n <= 2204 then
    (rangemap.find? fun r => decide (n <= r.1)).map fun r => (n / (2 ^ r.2 - 1) + 1, r.2)
  else (degreesCandidates n).argmin multiplications

theorem mem_degreesCandidates {n : Nat} {d : Nat × Nat} (h : d ∈ degreesCandidates n) :
    d.1 <= n ∧ 0 < d.2 ∧ 0 < d.1 ∧
      ((Nat.log2 d.1 : Int) - (Nat.log2 (n / 2) / 2 : Nat)).natAbs <= 1 ∧
      n < d.1 * (2 ^ d.2 - 1) := by
  rcases List.mem_flatMap.mp h with ⟨k, hk, hd⟩
  rcases List.mem_filterMap.mp hd with ⟨m, hmem, hm⟩
  rw [List.mem_range'_1] at hk hmem
  by_cases hcond : n < k * (2 ^ m - 1) ∧
      ((Nat.log2 k : Int) - (Nat.log2 (n / 2) / 2 : Nat)).natAbs <= 1
  · rw [if_pos hcond] at hm
    cases hm
    exact ⟨by omega, by omega, by omega, hcond.2, hcond.1⟩
  · rw [if_neg hcond] at hm
    cases hm

theorem degreesCandidates_nonempty {n : Nat} (hn : 2 <= n) : degreesCandidates n ≠ [] := by
  generalize hs : Nat.log2 (n / 2) / 2 = s
  have hk : 2 ^ s <= n := by
    calc
      2 ^ s <= 2 ^ Nat.log2 (n / 2) := Nat.pow_le_pow_right (by decide) (by omega)
      _ <= n / 2 := Nat.log2_self_le (by omega)
      _ <= n := Nat.div_le_self n 2
  have hquot : 1 <= n / 2 ^ s := Nat.div_pos hk (Nat.two_pow_pos s)
  have hclog : n / 2 ^ s <= 2 ^ Nat.clog 2 (n / 2 ^ s) := Nat.le_pow_clog (by decide) _
  have hlarge : n < 2 ^ s * (2 ^ (Nat.clog 2 (n / 2 ^ s) + 1 + 1) - 1) := by
    have hlt : n < 2 ^ s * (n / 2 ^ s + 1) := by
      rw [Nat.mul_comm]
      exact Nat.lt_mul_of_div_lt (Nat.lt_succ_self _) (Nat.two_pow_pos s)
    have hle : n / 2 ^ s + 1 <= 2 ^ (Nat.clog 2 (n / 2 ^ s) + 1 + 1) - 1 := by
      rw [Nat.pow_succ, Nat.pow_succ]
      omega
    exact Nat.lt_of_lt_of_le hlt (Nat.mul_le_mul_left _ hle)
  apply List.ne_nil_of_mem (a := (2 ^ s, Nat.clog 2 (n / 2 ^ s) + 1 + 1))
  apply List.mem_flatMap.mpr
  refine ⟨2 ^ s, ?_, List.mem_filterMap.mpr ⟨_, ?_, if_pos ⟨hlarge, ?_⟩⟩⟩
  · rw [List.mem_range'_1]
    have := Nat.two_pow_pos s
    omega
  · rw [List.mem_range'_1]
    omega
  · rw [hs, Nat.log2_two_pow]
    omega

theorem computeDegreesPS_table {n : Nat} (hpos : 0 < n) (hle : n <= 2204) :
    exists r, r ∈ rangemap ∧ n <= r.1 ∧
      computeDegreesPS n = some (n / (2 ^ r.2 - 1) + 1, r.2) := by
  unfold computeDegreesPS
  rw [if_neg hpos.ne', if_pos hle]
  cases hr : rangemap.find? fun r => decide (n <= r.1) with
  | none =>
      have hlast := List.find?_eq_none.mp hr (2204, 6) (by decide)
      exact absurd hle (by simpa using hlast)
  | some r =>
      have hcond : n <= r.1 := by simpa using List.find?_some hr
      exact ⟨r, List.mem_of_find?_eq_some hr, hcond, rfl⟩

theorem lt_table_product {n m : Nat} (hm : 1 <= m) : n < (n / (2 ^ m - 1) + 1) * (2 ^ m - 1) := by
  have hpos : 0 < 2 ^ m - 1 := by
    have := Nat.one_lt_two_pow (n := m) (by omega)
    omega
  rw [Nat.mul_comm]
  exact Nat.lt_mul_div_succ n hpos

theorem computeDegreesPS_search {n : Nat} (hlt : 2204 < n) :
    exists d, computeDegreesPS n = some d ∧ d ∈ (degreesCandidates n).argmin multiplications := by
  unfold computeDegreesPS
  rw [if_neg (by omega), if_neg (by omega)]
  cases hd : (degreesCandidates n).argmin multiplications with
  | none => exact absurd (List.argmin_eq_none.mp hd) (degreesCandidates_nonempty (by omega))
  | some d => exact ⟨d, rfl, rfl⟩

theorem computeDegreesPS_spec {n : Nat} (hn : 3 <= n) :
    exists k m, computeDegreesPS n = some (k, m) ∧ 0 < k ∧ 2 <= m ∧ n < k * (2 ^ m - 1) := by
  by_cases hle : n <= 2204
  · rcases computeDegreesPS_table (by omega) hle with ⟨r, hmem, hcond, hrun⟩
    have hm : 2 <= r.2 := by
      have hall : forall r, r ∈ rangemap -> 2 < r.1 -> 2 <= r.2 := by decide
      exact hall r hmem (by omega)
    exact ⟨_, _, hrun, Nat.succ_pos _, hm, lt_table_product (by omega)⟩
  · rcases computeDegreesPS_search (show 2204 < n by omega) with ⟨d, hrun, hd⟩
    rcases mem_degreesCandidates (List.argmin_mem hd) with ⟨hk, _, hpos, _, hlt⟩
    refine ⟨d.1, d.2, hrun, hpos, ?_, hlt⟩
    by_contra hm
    have hone : 2 ^ d.2 - 1 <= 1 := by
      have := Nat.pow_le_pow_right (n := 2) (by decide) (show d.2 <= 1 by omega)
      omega
    have := Nat.mul_le_mul_left d.1 hone
    omega

/-! ## The search in 32 bits -/

def Visited (n k m : Nat) : Prop :=
  k ∈ List.range' 1 n ∧ m ∈ List.range' 1 (Nat.clog 2 (n / k) + 1 + 1)

theorem two_pow_clog_le {x : Nat} (hx : 1 <= x) : 2 ^ Nat.clog 2 x <= 2 * x := by
  cases hclog : Nat.clog 2 x with
  | zero => omega
  | succ c =>
      have hone : 1 < x := by
        by_contra hle
        rw [Nat.clog_of_right_le_one (by omega)] at hclog
        cases hclog
      have hlt := Nat.pow_pred_clog_lt_self (b := 2) (by decide) hone
      rw [hclog, Nat.pred_succ] at hlt
      rw [Nat.pow_succ]
      omega

/-- The products that the search compares and the costs that it stores do not wrap. -/
theorem Visited.exact {n k m : Nat} (h : Visited n k m) (hn : n < 2 ^ 24) :
    k * (2 ^ m - 1) < 2 ^ 32 ∧ 4 <= k + 2 * m + 2 ^ (m - 1) ∧
      k + 2 * m + 2 ^ (m - 1) < 2 ^ 32 := by
  rcases h with ⟨hk, hm⟩
  rw [List.mem_range'_1] at hk hm
  have hpow : 2 ^ m <= 8 * (n / k) := by
    have hclog := two_pow_clog_le (Nat.div_pos (show k <= n by omega) (by omega))
    calc
      2 ^ m <= 2 ^ (Nat.clog 2 (n / k) + 1 + 1) := Nat.pow_le_pow_right (by decide) (by omega)
      _ = 2 ^ Nat.clog 2 (n / k) * 2 * 2 := by rw [Nat.pow_succ, Nat.pow_succ]
      _ <= 8 * (n / k) := by omega
  have hmul : k * 2 ^ m <= 8 * n := by
    calc
      k * 2 ^ m <= k * (8 * (n / k)) := Nat.mul_le_mul_left k hpow
      _ = 8 * (k * (n / k)) := by rw [Nat.mul_left_comm]
      _ <= 8 * n := Nat.mul_le_mul_left 8 (Nat.mul_div_le n k)
  have hproduct : k * (2 ^ m - 1) <= k * 2 ^ m := Nat.mul_le_mul_left k (Nat.sub_le _ _)
  have hself : 2 ^ m <= k * 2 ^ m := Nat.le_mul_of_pos_left _ (by omega)
  have hhalf : 2 ^ (m - 1) <= 2 ^ m := Nat.pow_le_pow_right (by decide) (Nat.sub_le m 1)
  have hexp : m < 2 ^ m := Nat.lt_two_pow_self
  have hone := Nat.two_pow_pos (m - 1)
  constructor
  · omega
  · constructor <;> omega

/--
Every degree is split with room for a leading term, by the table and by the search; the
search computes without wraps and returns a candidate of least cost.
-/
theorem computeDegreesPS_minimal {n : Nat} (hpos : 1 <= n) (hn : n < 2 ^ 24) :
    exists k m, computeDegreesPS n = some (k, m) ∧ 1 <= k ∧ 1 <= m ∧ n < k * (2 ^ m - 1) ∧
      (2204 < n -> (k, m) ∈ degreesCandidates n ∧
        forall d, d ∈ degreesCandidates n -> multiplications (k, m) <= multiplications d) ∧
      forall k m, Visited n k m -> k * (2 ^ m - 1) < 2 ^ 32 ∧
        4 <= k + 2 * m + 2 ^ (m - 1) ∧ k + 2 * m + 2 ^ (m - 1) < 2 ^ 32 := by
  by_cases hle : n <= 2204
  · rcases computeDegreesPS_table hpos hle with ⟨r, hmem, _, hrun⟩
    have hm : 1 <= r.2 := by
      have hall : forall r, r ∈ rangemap -> 1 <= r.2 := by decide
      exact hall r hmem
    refine ⟨_, _, hrun, Nat.succ_pos _, hm, lt_table_product hm, ?_, ?_⟩
    · intro hlt
      omega
    · intro k m hvisited
      exact hvisited.exact hn
  · rcases computeDegreesPS_search (show 2204 < n by omega) with ⟨d, hrun, hd⟩
    have hmem := List.argmin_mem hd
    rcases mem_degreesCandidates hmem with ⟨_, hm, hk, _, hlt⟩
    refine ⟨d.1, d.2, hrun, hk, hm, hlt, ?_, ?_⟩
    · intro _
      constructor
      · exact hmem
      · intro d' hd'
        exact List.le_of_mem_argmin hd' hd
    · intro k m hvisited
      exact hvisited.exact hn

/-- A degree beyond the table. -/
theorem computeDegreesPS_minimal_2205 :
    exists k m, computeDegreesPS 2205 = some (k, m) ∧ 1 <= k ∧ 1 <= m ∧
      2205 < k * (2 ^ m - 1) ∧
      (2204 < 2205 -> (k, m) ∈ degreesCandidates 2205 ∧
        forall d, d ∈ degreesCandidates 2205 -> multiplications (k, m) <= multiplications d) ∧
      forall k m, Visited 2205 k m -> k * (2 ^ m - 1) < 2 ^ 32 ∧
        4 <= k + 2 * m + 2 ^ (m - 1) ∧ k + 2 * m + 2 ^ (m - 1) < 2 ^ 32 :=
  computeDegreesPS_minimal (by decide) (by decide)

end Ckksrns
end Scheme
end OpenFHE
