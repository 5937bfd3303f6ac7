import OpenFHE.Core.AutomorphismMap
import OpenFHE.Core.NumberTheory.PrimeFactorize
import OpenFHE.Foundation.Generators
import Mathlib.Tactic.IntervalCases

/-!
# Cyclic rotation indices

`FindAutomorphismIndexCyclic` raises a generator of the units to the exponent of a rotation.
Its loop starts one exponent too late, so that only the exponent one comes out right.
-/

namespace OpenFHE
namespace Core

open Foundation NativeInteger Random

/-- The product `(k * g) % m` of the loop, in `uint32_t`. -/
def cyclicStep (m g k : Nat) : Nat := usint (k * g : Nat) % m

/-- The exponent that the loop counts up to, from the totient as an `int32_t`. -/
def cyclicExponent (n i : Int) : Nat :=
  let iSigned := Int.tmod i n
  usint (if iSigned <= 0 then int32 (iSigned + n) else iSigned)

def findAutomorphismIndexCyclic (i : Int) (m g : Nat) : Random Nat :=
  if i = 0 then pure 1
  else do
    let n <- getTotient m
    return (cyclicStep m g)^[cyclicExponent (int32 n) i - 2] g

/-! ## The exponent -/

theorem cyclicExponent_spec {n : Nat} (hpos : 0 < n) (hn : n < 2 ^ 31) (i : Int) :
    1 <= cyclicExponent (int32 n) i ∧ cyclicExponent (int32 n) i <= n ∧
      (cyclicExponent (int32 n) i : Int) % n = i % n := by
  have hint : int32 (n : Int) = n := int32_natCast hn
  have hlow := Int.lt_tmod_of_pos i (show (0 : Int) < n by omega)
  have hhigh := Int.tmod_lt_of_pos i (show (0 : Int) < n by omega)
  have hmod : Int.tmod i n % n = i % n := by
    have hquot := Int.mul_tdiv_add_tmod i n
    conv_rhs => rw [← hquot]
    rw [Int.add_comm, Int.add_mul_emod_self_left]
  unfold cyclicExponent
  rw [hint]
  dsimp only
  split
  next hnonpos =>
      have hsum : int32 (Int.tmod i n + n) = Int.tmod i n + n :=
        int32_of_bounds (by omega) (by omega)
      have hcast : (usint (Int.tmod i n + n) : Int) = Int.tmod i n + n :=
        usint_of_bounds (by omega) (by omega)
      rw [hsum, hcast, Int.add_emod_right, hmod]
      exact ⟨by omega, by omega, rfl⟩
  next hpositive =>
      have hcast : (usint (Int.tmod i n) : Int) = Int.tmod i n :=
        usint_of_bounds (by omega) (by omega)
      rw [hcast, hmod]
      exact ⟨by omega, by omega, rfl⟩

theorem cyclicExponent_one {n : Nat} (hpos : 0 < n) (hn : n < 2 ^ 32 - 1)
    (heven : n % 2 = 0 ∨ n = 1) {i : Int} (hi : -2 ^ 31 <= i ∧ i < 2 ^ 31)
    (hone : i % n = 1 % n) : cyclicExponent (int32 n) i = 1 := by
  rcases Nat.lt_or_ge n (2 ^ 31) with hsmall | hlarge
  · rcases cyclicExponent_spec hpos hsmall i with ⟨hlow, hhigh, hmod⟩
    rw [hone] at hmod
    rcases Nat.eq_or_lt_of_le hpos with hunit | htwo
    · omega
    · have hexact : (1 : Int) % n = 1 := Int.emod_eq_of_lt (by decide) (by omega)
      rcases Nat.eq_or_lt_of_le hhigh with heq | hlt
      · rw [heq, Int.emod_self] at hmod
        omega
      · rw [hexact, Int.emod_eq_of_lt (by omega) (by omega)] at hmod
        omega
  · -- the totient stands for `n - 2 ^ 32`, and only one and `1 - 2 ^ 31` are congruent to one
    have hint : int32 (n : Int) = n - 2 ^ 32 := int32_wraps (by omega) (by omega)
    have hexact : (1 : Int) % n = 1 := Int.emod_eq_of_lt (by decide) (by omega)
    rw [hexact] at hone
    unfold cyclicExponent
    rw [hint]
    dsimp only
    rcases le_or_gt 0 i with hnonneg | hneg
    · rw [Int.emod_eq_of_lt hnonneg (by omega)] at hone
      have hrem : Int.tmod i (n - 2 ^ 32) = 1 := by
        rw [← Int.tmod_neg, hone]
        exact Int.tmod_eq_of_lt (by decide) (by omega)
      rw [hrem, if_neg (by decide)]
      rfl
    · rw [← Int.add_emod_right, Int.emod_eq_of_lt (by omega) (by omega)] at hone
      have hn : n = 2 ^ 31 := by omega
      have hi : i = 1 - 2 ^ 31 := by omega
      rw [hn, hi]
      decide

/-! ## Powers of the generator -/

theorem cyclicStep_iterate {m g : Nat} (hsmall : m <= 2 ^ 16) (hg : g < m) (count : Nat) :
    (cyclicStep m g)^[count] g = g ^ (count + 1) % m := by
  induction count with
  | zero =>
      rw [Nat.zero_add, pow_one, Nat.mod_eq_of_lt hg]
      rfl
  | succ count ih =>
      rw [Function.iterate_succ_apply', ih]
      have hlt := Nat.mod_lt (g ^ (count + 1)) (show 0 < m by omega)
      have hproduct : g ^ (count + 1) % m * g < 2 ^ 32 := by
        calc
          g ^ (count + 1) % m * g < 2 ^ 16 * 2 ^ 16 :=
            Nat.mul_lt_mul'' (by omega) (by omega)
          _ = 2 ^ 32 := by decide
      unfold cyclicStep
      rw [usint_natCast, Nat.mod_eq_of_lt hproduct, Nat.mod_mul_mod, ← pow_succ]

def cyclicIndex (i : Int) (m g : Nat) : Nat := g ^ (i % Nat.totient m).toNat % m

/-- A rotation by zero modulo more than one, or by one modulo the order of the group. -/
def CyclicCondition (i : Int) (m : Nat) : Prop :=
  if i = 0 then 1 < m else i % Nat.totient m = 1 % Nat.totient m

theorem pow_mod_totient {m g : Nat} (hg : Nat.Coprime g m) (e : Nat) :
    g ^ (e % Nat.totient m) % m = g ^ e % m := by
  have hcast : (g : ZMod m) ^ (e % Nat.totient m) = (g : ZMod m) ^ e := by
    conv_rhs => rw [← Nat.div_add_mod e (Nat.totient m)]
    rw [pow_add, pow_mul, natCast_pow_totient hg, one_pow, one_mul]
  rw [← Nat.cast_pow, ← Nat.cast_pow] at hcast
  exact (ZMod.natCast_eq_natCast_iff' _ _ m).mp hcast

theorem pow_ne_pow_succ {m g : Nat} (hm : 0 < m) (hg : Generates m g)
    (hgroup : 1 < Nat.totient m) (e : Nat) : g ^ e % m ≠ g ^ (e + 1) % m := by
  intro heq
  have hunit : IsUnit ((g : ZMod m) ^ e) :=
    ((ZMod.isUnit_iff_coprime g m).mpr hg.left).pow e
  have hcast := (ZMod.natCast_eq_natCast_iff' _ _ m).mpr heq
  rw [Nat.cast_pow, Nat.cast_pow, pow_succ] at hcast
  have hone : (g : ZMod m) = 1 := by
    apply hunit.mul_left_cancel
    rw [← hcast, mul_one]
  have horder := (generates_iff_orderOf hm hg.left).mp hg
  rw [hone, orderOf_one] at horder
  omega

theorem totient_even_or_one {m : Nat} (hm : 0 < m) :
    Nat.totient m % 2 = 0 ∨ Nat.totient m = 1 := by
  rcases Nat.lt_or_ge 2 m with hlarge | hsmall
  · exact Or.inl (Nat.even_iff.mp (Nat.totient_even hlarge))
  · interval_cases m
    · exact Or.inr Nat.totient_one
    · exact Or.inr Nat.totient_two

section Index

variable {i : Int} {m g : Nat} (hm : 0 < m) (hg : g < m) (hgen : Generates m g)

include hm hg hgen

theorem cyclicIndex_of_condition (hi : -2 ^ 31 <= i ∧ i < 2 ^ 31) (hm32 : m < 2 ^ 32)
    (h : i % Nat.totient m = 1 % Nat.totient m) :
    (cyclicStep m g)^[cyclicExponent (int32 (Nat.totient m)) i - 2] g = cyclicIndex i m g := by
  have hpos : 0 < Nat.totient m := Nat.totient_pos.mpr hm
  have hlt : Nat.totient m < 2 ^ 32 - 1 := by
    rcases Nat.eq_or_lt_of_le hm with hone | htwo
    · rw [← hone, Nat.totient_one]
      decide
    · have := Nat.totient_lt m htwo
      omega
  have hvalue : cyclicIndex i m g = g := by
    unfold cyclicIndex
    have hnat : (i % Nat.totient m).toNat = 1 % Nat.totient m := by
      rw [h]
      exact_mod_cast Int.toNat_natCast _
    rw [hnat, pow_mod_totient hgen.left, pow_one, Nat.mod_eq_of_lt hg]
  rw [cyclicExponent_one hpos hlt (totient_even_or_one hm) hi h, hvalue]
  rfl

/-- Where no product wraps, another exponent gives the power before the right one. -/
theorem cyclicIndex_ne (hsmall : m <= 2 ^ 16)
    (h : i % Nat.totient m ≠ 1 % Nat.totient m) :
    (cyclicStep m g)^[cyclicExponent (int32 (Nat.totient m)) i - 2] g ≠ cyclicIndex i m g := by
  have hpos : 0 < Nat.totient m := Nat.totient_pos.mpr hm
  have hle := Nat.totient_le m
  rcases cyclicExponent_spec hpos (by omega) i with ⟨hlow, hhigh, hmod⟩
  have hgroup : 1 < Nat.totient m := by
    by_contra hone
    rw [show Nat.totient m = 1 by omega, Nat.cast_one, Int.emod_one, Int.emod_one] at h
    exact h rfl
  have htwo : 2 <= cyclicExponent (int32 (Nat.totient m)) i := by
    by_contra hlt
    rw [show cyclicExponent (int32 (Nat.totient m)) i = 1 by omega] at hmod
    exact h hmod.symm
  generalize cyclicExponent (int32 (Nat.totient m)) i = e at hlow hhigh hmod htwo ⊢
  have hvalue : cyclicIndex i m g = g ^ e % m := by
    unfold cyclicIndex
    rw [← hmod, ← Int.natCast_mod, Int.toNat_natCast, pow_mod_totient hgen.left]
  have hnext := pow_ne_pow_succ hm hgen hgroup (e - 1)
  rw [cyclicStep_iterate hsmall hg, hvalue, show e - 2 + 1 = e - 1 by omega]
  rwa [Nat.sub_add_cancel hlow] at hnext

end Index

/--
Only the rotations by zero and by one modulo the order of the group get their index; where
no product can wrap, every other one gets a wrong index.
-/
theorem findAutomorphismIndexCyclic_iff {i : Int} {m g k : Nat} (hm : 0 < m)
    (hm32 : m < 2 ^ 32) (hi : -2 ^ 31 <= i ∧ i < 2 ^ 31) (hg : g < m) (hgen : Generates m g)
    {s s' : Prng} (h : findAutomorphismIndexCyclic i m g s = some (k, s'))
    (hprimes : s'.AcceptsPrimes) :
    (CyclicCondition i m -> k = cyclicIndex i m g) ∧
      (m <= 2 ^ 16 -> (k = cyclicIndex i m g <-> CyclicCondition i m)) := by
  unfold findAutomorphismIndexCyclic at h
  unfold CyclicCondition
  by_cases hzero : i = 0
  · rw [if_pos hzero] at h
    rw [if_pos hzero, hzero]
    rcases pure_eq_some.mp h with ⟨rfl, _⟩
    have hvalue : cyclicIndex 0 m g = 1 % m := by
      unfold cyclicIndex
      rw [Int.zero_emod, Int.toNat_zero, pow_zero]
    rw [hvalue]
    have hiff : 1 = 1 % m <-> 1 < m := by
      constructor
      · intro hone
        have := Nat.mod_lt 1 hm
        omega
      · intro hlt
        exact (Nat.mod_eq_of_lt hlt).symm
    exact ⟨hiff.mpr, fun _ => hiff⟩
  · rw [if_neg hzero] at h
    rw [if_neg hzero]
    rcases bind_eq_some.mp h with ⟨n, s₁, htotient, hpure⟩
    rcases pure_eq_some.mp hpure with ⟨rfl, rfl⟩
    have hword : m < 2 ^ maxBits := by
      simp only [maxBits]
      omega
    rw [getTotient_spec hm.ne' hword htotient hprimes]
    constructor
    · exact cyclicIndex_of_condition hm hg hgen hi hm32
    · intro hsmall
      constructor
      · intro heq
        by_contra hother
        exact cyclicIndex_ne hm hg hgen hsmall hother heq
      · exact cyclicIndex_of_condition hm hg hgen hi hm32

theorem generates_five_two : Generates 5 2 := by
  refine ⟨by decide, ?_⟩
  intro a ha
  have hne : a % 5 ≠ 0 := by
    intro hzero
    exact absurd (Nat.Coprime.eq_one_of_dvd ha.symm (Nat.dvd_of_mod_eq_zero hzero)) (by decide)
  have hcases : a % 5 = 1 ∨ a % 5 = 2 ∨ a % 5 = 3 ∨ a % 5 = 4 := by omega
  rcases hcases with h | h | h | h
  · exact ⟨0, h.symm⟩
  · exact ⟨1, h.symm⟩
  · exact ⟨3, h.symm⟩
  · exact ⟨2, h.symm⟩

theorem findAutomorphismIndexCyclic_iff_five :
    (CyclicCondition 5 5 -> 2 = cyclicIndex 5 5 2) ∧
      (5 <= 2 ^ 16 -> (2 = cyclicIndex 5 5 2 <-> CyclicCondition 5 5)) := by
  have hrun : findAutomorphismIndexCyclic 5 5 2 ⟨[], []⟩ = some (2, ⟨[], [5]⟩) := by decide
  refine findAutomorphismIndexCyclic_iff (by decide) (by decide) (by decide) (by decide)
    generates_five_two hrun ?_
  intro r hr
  rw [List.mem_singleton.mp hr]
  exact Nat.prime_five

/-- Modulo five the rotations by one and by two get the same index. -/
theorem findAutomorphismIndexCyclic_two :
    findAutomorphismIndexCyclic 1 5 2 ⟨[], []⟩ = some (2, ⟨[], [5]⟩) ∧
      findAutomorphismIndexCyclic 2 5 2 ⟨[], []⟩ = some (2, ⟨[], [5]⟩) ∧
      cyclicIndex 2 5 2 = 4 ∧ 2 * 2 % 5 ≠ 2 := by
  decide

end Core
end OpenFHE
