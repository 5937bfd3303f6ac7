import OpenFHE.Foundation.CooleyTukey
import OpenFHE.Foundation.Negacyclic

/-!
# Automorphisms of transformed polynomials

Position `r` of a transform of length `2 ^ k` holds the value at the odd power
`oddPoint k r` of the root.  Substituting `X ^ i` multiplies the exponent by `i`,
so an odd `i` permutes the positions.
-/

namespace OpenFHE
namespace Foundation

open Finset

/-- The exponent of the root at position `r`. -/
def oddPoint (k r : Nat) : Nat := 2 * bitReverse k r + 1

/-- The position whose exponent is `i` times that of position `r`. -/
def autoPosition (k i r : Nat) : Nat :=
  bitReverse k (oddPoint k r * i % 2 ^ (k + 1) / 2)

theorem oddPoint_lt (k r : Nat) : oddPoint k r < 2 ^ (k + 1) := by
  have hlt := bitReverse_lt k r
  rw [oddPoint, pow_succ]
  omega

theorem autoPosition_lt (k i r : Nat) : autoPosition k i r < 2 ^ k := bitReverse_lt k _

theorem oddPoint_autoPosition (k : Nat) {i : Nat} (hi : i % 2 = 1) (r : Nat) :
    oddPoint k (autoPosition k i r) = oddPoint k r * i % 2 ^ (k + 1) := by
  have hlt := Nat.mod_lt (oddPoint k r * i) (Nat.two_pow_pos (k + 1))
  have hodd : oddPoint k r * i % 2 ^ (k + 1) % 2 = 1 := by
    rw [Nat.mod_mod_of_dvd _ (dvd_pow_self 2 (Nat.succ_ne_zero k)), Nat.mul_mod, hi,
      oddPoint]
    omega
  rw [pow_succ] at hlt hodd ⊢
  rw [oddPoint, autoPosition, pow_succ, bitReverse_bitReverse k (by omega)]
  omega

theorem oddPoint_injOn {k r r' : Nat} (hr : r < 2 ^ k) (hr' : r' < 2 ^ k)
    (h : oddPoint k r = oddPoint k r') : r = r' := by
  apply bitReverse_injOn k hr hr'
  unfold oddPoint at h
  omega

theorem autoPosition_inverse {k i j : Nat} (hi : i % 2 = 1) (hj : j % 2 = 1)
    (hij : i * j % 2 ^ (k + 1) = 1) {r : Nat} (hr : r < 2 ^ k) :
    autoPosition k j (autoPosition k i r) = r := by
  apply oddPoint_injOn (autoPosition_lt k j _) hr
  rw [oddPoint_autoPosition k hj, oddPoint_autoPosition k hi, Nat.mod_mul_mod, mul_assoc,
    Nat.mul_mod, hij, mul_one, Nat.mod_mod, Nat.mod_eq_of_lt (oddPoint_lt k r)]

theorem mul_mod_injOn {k i j j' : Nat} (hi : i % 2 = 1) (hj : j < 2 ^ k) (hj' : j' < 2 ^ k)
    (h : j * i % 2 ^ k = j' * i % 2 ^ k) : j = j' := by
  have hcoprime : Nat.Coprime (2 ^ k) i :=
    (Nat.Coprime.pow_right k (Nat.coprime_two_right.mpr (Nat.odd_iff.mpr hi))).symm
  exact Nat.ModEq.eq_of_lt_of_lt (Nat.ModEq.cancel_right_of_coprime hcoprime h) hj hj'

theorem exists_mul_mod_eq {k i r : Nat} (hi : i % 2 = 1) (hr : r < 2 ^ k) :
    exists j, j < 2 ^ k ∧ j * i % 2 ^ k = r := by
  have hsurj : Set.SurjOn (fun j => j * i % 2 ^ k) (range (2 ^ k)) (range (2 ^ k)) := by
    apply surjOn_of_injOn_of_card_le _ ?_ ?_ le_rfl
    · intro j _
      exact mem_coe.mpr (mem_range.mpr (Nat.mod_lt _ (Nat.two_pow_pos k)))
    · intro j hj j' hj' heq
      exact mul_mod_injOn hi (mem_range.mp hj) (mem_range.mp hj') heq
  rcases hsurj (mem_coe.mpr (mem_range.mpr hr)) with ⟨j, hj, heq⟩
  exact ⟨j, mem_range.mp hj, heq⟩

section Transform

variable {R : Type _} [CommRing R] {k : Nat}

theorem point_pow_eq {x : R} (hx : x ^ 2 ^ k = -1) (e : Nat) :
    x ^ e = (if e / 2 ^ k % 2 = 1 then -1 else 1) * x ^ (e % 2 ^ k) := by
  have hsplit := Nat.div_add_mod e (2 ^ k)
  have hsign : (-1 : R) ^ (e / 2 ^ k) = if e / 2 ^ k % 2 = 1 then -1 else 1 := by
    split
    next hodd => exact (Nat.odd_iff.mpr hodd).neg_one_pow
    next heven => exact (Nat.even_iff.mpr (by omega)).neg_one_pow
  calc
    x ^ e = (x ^ 2 ^ k) ^ (e / 2 ^ k) * x ^ (e % 2 ^ k) := by
      rw [← pow_mul, ← pow_add, hsplit]
    _ = _ := by rw [hx, hsign]

variable {psi : R} (hpsi : psi ^ 2 ^ k = -1)

include hpsi

theorem root_pow_mod (e : Nat) : psi ^ (e % 2 ^ (k + 1)) = psi ^ e := by
  have hone : psi ^ 2 ^ (k + 1) = 1 := by
    rw [pow_succ, pow_mul, hpsi, neg_one_sq]
  have hsplit := Nat.mod_add_div e (2 ^ (k + 1))
  calc
    psi ^ (e % 2 ^ (k + 1)) =
        psi ^ (e % 2 ^ (k + 1)) * (psi ^ 2 ^ (k + 1)) ^ (e / 2 ^ (k + 1)) := by
      rw [hone, one_pow, mul_one]
    _ = psi ^ e := by rw [← pow_mul, ← pow_add, hsplit]

theorem stageArray_autoPosition [Nontrivial R] {i : Nat} (hi : i % 2 = 1) (a : Nat -> R)
    (r : Nat) :
    stageArray a psi 1 k (autoPosition k i r) =
      stageArray (negacyclicAutomorphism (2 ^ k) i a) psi 1 k r := by
  have hpoint : (psi ^ oddPoint k r) ^ 2 ^ k = -1 := by
    rw [← pow_mul, mul_comm, pow_mul, hpsi, oddPoint, pow_succ, pow_mul, neg_one_sq, one_pow,
      one_mul]
  have hsum := eval_negacyclicAutomorphism (Nat.two_pow_pos k) i a hpoint
  rw [stageArray_last, stageArray_last]
  change ∑ c ∈ range (2 ^ k), a c * psi ^ (oddPoint k (autoPosition k i r) * c) =
    ∑ c ∈ range (2 ^ k), negacyclicAutomorphism (2 ^ k) i a c * psi ^ (oddPoint k r * c)
  simp only [pow_mul, oddPoint_autoPosition k hi, root_pow_mod hpsi]
  exact hsum.symm

theorem stageArray_signed {i : Nat} (hi : i % 2 = 1) {a b : Nat -> R}
    (hmove : forall j, j < 2 ^ k ->
      b (j * i % 2 ^ k) = if j * i / 2 ^ k % 2 = 1 then -a j else a j) (r : Nat) :
    stageArray a psi 1 k (autoPosition k i r) = stageArray b psi 1 k r := by
  have hpoint : (psi ^ oddPoint k r) ^ 2 ^ k = -1 := by
    rw [← pow_mul, mul_comm, pow_mul, hpsi, oddPoint, pow_succ, pow_mul, neg_one_sq, one_pow,
      one_mul]
  rw [stageArray_last, stageArray_last]
  change ∑ c ∈ range (2 ^ k), a c * psi ^ (oddPoint k (autoPosition k i r) * c) =
    ∑ c ∈ range (2 ^ k), b c * psi ^ (oddPoint k r * c)
  simp only [pow_mul, oddPoint_autoPosition k hi, root_pow_mod hpsi]
  apply sum_nbij fun j => j * i % 2 ^ k
  · intro j _
    exact mem_range.mpr (Nat.mod_lt _ (Nat.two_pow_pos k))
  · intro j hj j' hj' heq
    exact mul_mod_injOn hi (mem_range.mp hj) (mem_range.mp hj') heq
  · intro r hr
    rcases exists_mul_mod_eq hi (mem_range.mp hr) with ⟨j, hj, heq⟩
    exact ⟨j, mem_range.mpr hj, heq⟩
  · intro j hj
    rw [hmove j (mem_range.mp hj), ← pow_mul, Nat.mul_comm i j, point_pow_eq hpoint (j * i)]
    split
    next => ring
    next => ring

end Transform

end Foundation
end OpenFHE
