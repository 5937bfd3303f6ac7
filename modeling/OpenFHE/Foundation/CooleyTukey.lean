import OpenFHE.Foundation.BitReversal
import Mathlib.Algebra.BigOperators.Intervals
import Mathlib.Algebra.BigOperators.Ring.Finset
import Mathlib.Algebra.Ring.Basic
import Mathlib.Tactic.LinearCombination

/-!
# Cooley-Tukey stages

After `s` stages of a decimation transform, block `b` holds the partial
evaluations `stageValue a psi t s b`: the coefficients `a` taken at stride `t`
from an offset and evaluated at one power of `psi`.  One butterfly combines two
entries of a block into entries of its two half-blocks.
-/

namespace OpenFHE
namespace Foundation

open Finset

variable {R : Type _} [CommRing R]

/-- The point at which block `b` of stage `s` with block size `t` evaluates. -/
def stageRoot (psi : R) (t s b : Nat) : R :=
  psi ^ (t * (2 * bitReverse s b + 1))

def stageValue (a : Nat -> R) (psi : R) (t s b j : Nat) : R :=
  ∑ c ∈ range (2 ^ s), a (c * t + j) * stageRoot psi t s b ^ c

theorem stageValue_first (a : Nat -> R) (psi : R) (t j : Nat) :
    stageValue a psi t 0 0 j = a j := by
  simp [stageValue]

theorem stageValue_last (a : Nat -> R) (psi : R) (s b : Nat) :
    stageValue a psi 1 s b 0 =
      ∑ c ∈ range (2 ^ s), a c * psi ^ ((2 * bitReverse s b + 1) * c) := by
  simp [stageValue, stageRoot, pow_mul]

theorem sum_range_two_mul {M : Type _} [AddCommMonoid M] (f : Nat -> M) (m : Nat) :
    ∑ c ∈ range (2 * m), f c = ∑ c ∈ range m, (f (2 * c) + f (2 * c + 1)) := by
  induction m with
  | zero =>
      rfl
  | succ m ih =>
      rw [Nat.mul_succ, sum_range_succ, sum_range_succ, sum_range_succ, ih, add_assoc]

theorem stageRoot_even (psi : R) (u s b : Nat) :
    stageRoot psi u (s + 1) (2 * b) = stageRoot psi u s b := by
  have hrev : bitReverse (s + 1) (2 * b) = bitReverse s b := by
    simpa using bitReverse_double s b (b := 0) (by decide)
  rw [stageRoot, stageRoot, hrev]

theorem stageRoot_odd {psi : R} {u s : Nat} (hpsi : psi ^ (u * 2 ^ (s + 1)) = -1)
    (b : Nat) :
    stageRoot psi u (s + 1) (2 * b + 1) = -stageRoot psi u s b := by
  have hrev := bitReverse_double s b (b := 1) (by decide)
  rw [stageRoot, stageRoot, hrev,
    show u * (2 * (1 * 2 ^ s + bitReverse s b) + 1) =
      u * 2 ^ (s + 1) + u * (2 * bitReverse s b + 1) by ring,
    pow_add, hpsi, neg_one_mul]

theorem stageRoot_two_mul (psi : R) (u s b : Nat) :
    stageRoot psi (2 * u) s b = stageRoot psi u s b ^ 2 := by
  rw [stageRoot, stageRoot, ← pow_mul]
  congr 1
  ring

theorem sum_stage_parity (a : Nat -> R) (root : R) (u s j : Nat) :
    ∑ c ∈ range (2 ^ (s + 1)), a (c * u + j) * root ^ c =
      ∑ c ∈ range (2 ^ s), a (c * (2 * u) + j) * (root ^ 2) ^ c +
        root * ∑ c ∈ range (2 ^ s), a (c * (2 * u) + (j + u)) * (root ^ 2) ^ c := by
  rw [pow_succ', sum_range_two_mul, sum_add_distrib, mul_sum]
  congr 1
  · refine sum_congr rfl fun c _ => ?_
    rw [show 2 * c * u + j = c * (2 * u) + j by ring, pow_mul]
  · refine sum_congr rfl fun c _ => ?_
    rw [show (2 * c + 1) * u + j = c * (2 * u) + (j + u) by ring, pow_succ, pow_mul]
    ring

theorem stageValue_even (a : Nat -> R) (psi : R) (u s b j : Nat) :
    stageValue a psi u (s + 1) (2 * b) j =
      stageValue a psi (2 * u) s b j +
        stageRoot psi u s b * stageValue a psi (2 * u) s b (j + u) := by
  rw [stageValue, stageRoot_even, sum_stage_parity, ← stageRoot_two_mul]
  rfl

theorem stageValue_odd (a : Nat -> R) {psi : R} {u s : Nat}
    (hpsi : psi ^ (u * 2 ^ (s + 1)) = -1) (b j : Nat) :
    stageValue a psi u (s + 1) (2 * b + 1) j =
      stageValue a psi (2 * u) s b j -
        stageRoot psi u s b * stageValue a psi (2 * u) s b (j + u) := by
  rw [stageValue, stageRoot_odd hpsi, sum_stage_parity, neg_sq,
    ← stageRoot_two_mul, neg_mul, ← sub_eq_add_neg]
  rfl

/-!
## The whole array of a stage

Entry `i` belongs to block `i / t` at offset `i % t`.  Blocks of size `2 * u`
split into half-blocks of size `u`.
-/

def stageArray (a : Nat -> R) (psi : R) (t s i : Nat) : R :=
  stageValue a psi t s (i / t) (i % t)

theorem stageArray_block (a : Nat -> R) (psi : R) {t d : Nat} (hd : d < t)
    (s b : Nat) :
    stageArray a psi t s (b * t + d) = stageValue a psi t s b d := by
  have ht : 0 < t := by omega
  rw [stageArray, mul_comm b t, Nat.mul_add_div ht, Nat.mul_add_mod,
    Nat.div_eq_of_lt hd, Nat.mod_eq_of_lt hd, add_zero]

theorem stageArray_first (a : Nat -> R) (psi : R) {t i : Nat} (hi : i < t) :
    stageArray a psi t 0 i = a i := by
  rw [stageArray, Nat.div_eq_of_lt hi, Nat.mod_eq_of_lt hi, stageValue_first]

theorem stageArray_last (a : Nat -> R) (psi : R) (s i : Nat) :
    stageArray a psi 1 s i =
      ∑ c ∈ range (2 ^ s), a c * psi ^ ((2 * bitReverse s i + 1) * c) := by
  rw [stageArray, Nat.div_one, Nat.mod_one, stageValue_last]

theorem stageArray_congr {a b : Nat -> R} {s : Nat} (h : forall c, c < 2 ^ s -> a c = b c)
    (psi : R) (i : Nat) : stageArray a psi 1 s i = stageArray b psi 1 s i := by
  rw [stageArray_last, stageArray_last]
  refine sum_congr rfl fun c hc => ?_
  rw [h c (mem_range.mp hc)]

theorem stageArray_sum {ι : Type _} (indices : Finset ι) (f : ι -> Nat -> R) (c : ι -> R)
    (psi : R) (s i : Nat) :
    stageArray (fun j => ∑ d ∈ indices, f d j * c d) psi 1 s i =
      ∑ d ∈ indices, stageArray (f d) psi 1 s i * c d := by
  simp only [stageArray_last, sum_mul]
  rw [sum_comm]
  refine sum_congr rfl fun d _ => sum_congr rfl fun j _ => ?_
  ring

section Butterfly

variable (a : Nat -> R) {psi : R} {u s : Nat} (b : Nat) {d : Nat} (hd : d < u)

include hd

theorem stageArray_lo :
    stageArray a psi u (s + 1) (b * (2 * u) + d) =
      stageArray a psi (2 * u) s (b * (2 * u) + d) +
        stageRoot psi u s b * stageArray a psi (2 * u) s (b * (2 * u) + d + u) := by
  rw [stageArray_block a psi (by omega : d < 2 * u), add_assoc,
    stageArray_block a psi (by omega : d + u < 2 * u), ← stageValue_even,
    show b * (2 * u) + d = 2 * b * u + d by ring, stageArray_block a psi hd]

theorem stageArray_hi (hpsi : psi ^ (u * 2 ^ (s + 1)) = -1) :
    stageArray a psi u (s + 1) (b * (2 * u) + d + u) =
      stageArray a psi (2 * u) s (b * (2 * u) + d) -
        stageRoot psi u s b * stageArray a psi (2 * u) s (b * (2 * u) + d + u) := by
  rw [stageArray_block a psi (by omega : d < 2 * u), add_assoc (b * (2 * u)),
    stageArray_block a psi (by omega : d + u < 2 * u), ← stageValue_odd a hpsi,
    show b * (2 * u) + (d + u) = (2 * b + 1) * u + d by ring, stageArray_block a psi hd]

theorem stageArray_inverse_lo (hpsi : psi ^ (u * 2 ^ (s + 1)) = -1) :
    stageArray a psi u (s + 1) (b * (2 * u) + d) +
        stageArray a psi u (s + 1) (b * (2 * u) + d + u) =
      2 * stageArray a psi (2 * u) s (b * (2 * u) + d) := by
  rw [stageArray_lo a b hd, stageArray_hi a b hd hpsi]
  ring

theorem stageArray_inverse_hi (hpsi : psi ^ (u * 2 ^ (s + 1)) = -1) {inv : R}
    (hinv : stageRoot psi u s b * inv = 1) :
    (stageArray a psi u (s + 1) (b * (2 * u) + d) -
        stageArray a psi u (s + 1) (b * (2 * u) + d + u)) * inv =
      2 * stageArray a psi (2 * u) s (b * (2 * u) + d + u) := by
  rw [stageArray_lo a b hd, stageArray_hi a b hd hpsi]
  linear_combination 2 * stageArray a psi (2 * u) s (b * (2 * u) + d + u) * hinv

end Butterfly

/-!
## The transform is a bijection

With two and the root invertible, every stage determines the stage before it.
-/

section Bijection

variable {k : Nat} {psi : R} (hroot : psi ^ 2 ^ k = -1) (htwo : IsUnit (2 : R))

include hroot

theorem isUnit_root : IsUnit psi := by
  have hpow : IsUnit (psi ^ 2 ^ k) := by
    rw [hroot]
    exact isUnit_one.neg
  exact (isUnit_pow_iff (Nat.two_pow_pos k).ne').mp hpow

include htwo

theorem stageArray_parent {a b : Nat -> R} {j : Nat} (hj : j < k)
    (h : forall i, i < 2 ^ k ->
      stageArray a psi (2 ^ j) (k - j) i = stageArray b psi (2 ^ j) (k - j) i) :
    forall i, i < 2 ^ k ->
      stageArray a psi (2 ^ (j + 1)) (k - (j + 1)) i =
        stageArray b psi (2 ^ (j + 1)) (k - (j + 1)) i := by
  obtain ⟨s, rfl⟩ : exists s, k = s + j + 1 := ⟨k - j - 1, by omega⟩
  have hs : s + j + 1 - j = s + 1 := by omega
  have hs' : s + j + 1 - (j + 1) = s := by omega
  rw [hs] at h
  rw [hs', show 2 ^ (j + 1) = 2 * 2 ^ j from pow_succ' 2 j]
  have hsize : 2 ^ (s + j + 1) = 2 * 2 ^ j * 2 ^ s := by ring
  have hneg : psi ^ (2 ^ j * 2 ^ (s + 1)) = -1 := by
    rw [← hroot]
    congr 1
    ring
  have hu : 0 < 2 ^ j := Nat.two_pow_pos j
  generalize hu' : 2 ^ j = u at *
  intro i hi
  have hdivmod := Nat.div_add_mod' i (2 * u)
  have hmod := Nat.mod_lt i (show 0 < 2 * u by omega)
  have hblock : i / (2 * u) * (2 * u) + 2 * u <= 2 ^ (s + j + 1) := by
    have hlt : i / (2 * u) < 2 ^ s := by
      rw [Nat.div_lt_iff_lt_mul (by omega), mul_comm, ← hsize]
      exact hi
    calc
      i / (2 * u) * (2 * u) + 2 * u = (i / (2 * u) + 1) * (2 * u) := by ring
      _ <= 2 ^ s * (2 * u) := Nat.mul_le_mul_right _ hlt
      _ = 2 ^ (s + j + 1) := by rw [hsize, mul_comm]
  generalize i / (2 * u) = block at *
  rcases Nat.lt_or_ge (i % (2 * u)) u with hlow | hhigh
  · generalize i % (2 * u) = d at *
    rw [← hdivmod]
    refine htwo.mul_left_cancel ?_
    rw [← stageArray_inverse_lo a block hlow hneg, ← stageArray_inverse_lo b block hlow hneg,
      h _ (by omega), h _ (by omega)]
  · obtain ⟨d, hd, hsplit⟩ : exists d, d < u ∧ i = block * (2 * u) + d + u :=
      ⟨i % (2 * u) - u, by omega, by omega⟩
    rcases (isUnit_root hroot).pow (u * (2 * bitReverse s block + 1)) with ⟨root, hpow⟩
    have hinv : stageRoot psi u s block * ↑root⁻¹ = 1 := by
      rw [stageRoot, ← hpow]
      exact root.mul_inv
    rw [hsplit]
    refine htwo.mul_left_cancel ?_
    rw [← stageArray_inverse_hi a block hd hneg hinv,
      ← stageArray_inverse_hi b block hd hneg hinv, h _ (by omega), h _ (by omega)]

theorem stageArray_injective {a b : Nat -> R}
    (h : forall i, i < 2 ^ k -> stageArray a psi 1 k i = stageArray b psi 1 k i) :
    forall i, i < 2 ^ k -> a i = b i := by
  have hstage : forall j, j <= k -> forall i, i < 2 ^ k ->
      stageArray a psi (2 ^ j) (k - j) i = stageArray b psi (2 ^ j) (k - j) i := by
    intro j
    induction j with
    | zero => exact fun _ => h
    | succ j ih =>
        intro hj
        exact stageArray_parent hroot htwo hj (ih (by omega))
  intro i hi
  have hfirst := hstage k le_rfl i hi
  rw [Nat.sub_self] at hfirst
  rwa [stageArray_first a psi hi, stageArray_first b psi hi] at hfirst

end Bijection

/-!
## Vectors
-/

section Vectors

variable {n : Nat}

/-- The sequence of a vector, continued with zeros. -/
def extendVector (w : Fin n -> R) (j : Nat) : R := if h : j < n then w ⟨j, h⟩ else 0

theorem extendVector_val (w : Fin n -> R) (i : Fin n) : extendVector w i = w i := by
  rw [extendVector, dif_pos i.isLt]

theorem extendVector_add (w w' : Fin n -> R) (j : Nat) :
    extendVector (w + w') j = extendVector w j + extendVector w' j := by
  unfold extendVector
  split
  · rfl
  · rw [add_zero]

/-- The whole transform of the vectors of one length. -/
def stageTransform (k : Nat) (psi : R) : (Fin (2 ^ k) -> R) →+ (Fin (2 ^ k) -> R) where
  toFun w i := stageArray (extendVector w) psi 1 k i
  map_zero' := by
    funext i
    rw [stageArray_last]
    apply sum_eq_zero
    intro c _
    rw [extendVector]
    simp
  map_add' w w' := by
    funext i
    simp only [Pi.add_apply, stageArray_last, extendVector_add, add_mul, sum_add_distrib]

variable {k : Nat} {psi : R} (hroot : psi ^ 2 ^ k = -1) (htwo : IsUnit (2 : R))

include hroot htwo

theorem stageTransform_bijective [Finite R] : Function.Bijective (stageTransform k psi) := by
  have hinjective : Function.Injective (stageTransform k psi) := by
    intro w w' hsame
    funext i
    have heq := stageArray_injective hroot htwo
      (fun j hj => congrFun hsame ⟨j, hj⟩) i i.isLt
    rwa [extendVector_val, extendVector_val] at heq
  exact Finite.injective_iff_bijective.mp hinjective

theorem stageArray_surjective [Finite R] (v : Nat -> R) :
    exists a, forall i, i < 2 ^ k -> stageArray a psi 1 k i = v i := by
  rcases (stageTransform_bijective hroot htwo).surjective (fun i => v i) with ⟨w, hw⟩
  exact ⟨extendVector w, fun i hi => congrFun hw ⟨i, hi⟩⟩

omit hroot htwo in
noncomputable def stageEquiv [Finite R] (hroot : psi ^ 2 ^ k = -1) (htwo : IsUnit (2 : R)) :
    (Fin (2 ^ k) -> R) ≃+ (Fin (2 ^ k) -> R) :=
  AddEquiv.ofBijective (stageTransform k psi) (stageTransform_bijective hroot htwo)

end Vectors

end Foundation
end OpenFHE
