import OpenFHE.Core.AutomorphismMap
import OpenFHE.Core.NativeVector
import Mathlib.RingTheory.ZMod.UnitsCyclic

/-!
# Rotation indices as powers of five

The indices of `FindAutomorphismIndex2nComplex` are the powers of five modulo the
cyclotomic order.  Those of `FindAutomorphismIndex2n` are the powers of five and their
negatives, which are all odd residues.
-/

namespace OpenFHE
namespace Core

open Foundation NativeInteger

/-! ## Five modulo a power of two -/

def five (k : Nat) : (ZMod (2 ^ k))ˣ :=
  ZMod.unitOfCoprime 5 (Nat.Coprime.pow_right k (by decide))

theorem coe_five (k : Nat) : ((five k : (ZMod (2 ^ k))ˣ) : ZMod (2 ^ k)) = 5 := by
  unfold five
  rw [ZMod.coe_unitOfCoprime]
  rfl

theorem orderOf_five_unit {k : Nat} (hk : 2 <= k) : orderOf (five k) = 2 ^ (k - 2) := by
  have hfive := ZMod.orderOf_five (k - 2)
  rw [Nat.sub_add_cancel hk] at hfive
  rw [← orderOf_units, coe_five, hfive]

theorem five_pow_ne_neg {k : Nat} (hk : 2 <= k) (i j : Nat) : five k ^ i ≠ -(five k ^ j) := by
  intro heq
  have hdvd : 4 ∣ 2 ^ k := pow_dvd_pow 2 hk
  have hcast := congrArg (fun u : (ZMod (2 ^ k))ˣ => ZMod.castHom hdvd (ZMod 4) u) heq
  simp only [Units.val_pow_eq_pow_val, Units.val_neg, coe_five, map_neg, map_pow,
    map_ofNat] at hcast
  have hone : (5 : ZMod 4) = 1 := by decide
  rw [hone, one_pow, one_pow] at hcast
  exact absurd hcast (by decide)

theorem five_signed_injOn {k : Nat} (hk : 2 <= k) {i j : Nat} (hi : i < 2 ^ (k - 1))
    (hj : j < 2 ^ (k - 1))
    (heq : (if i < 2 ^ (k - 2) then five k ^ i else -(five k ^ (i - 2 ^ (k - 2)))) =
      if j < 2 ^ (k - 2) then five k ^ j else -(five k ^ (j - 2 ^ (k - 2)))) : i = j := by
  have hhalf : 2 ^ (k - 1) = 2 * 2 ^ (k - 2) := by
    rw [← pow_succ']
    congr 1
    omega
  have hpow {x y : Nat} (hx : x < 2 ^ (k - 2)) (hy : y < 2 ^ (k - 2))
      (h : five k ^ x = five k ^ y) : x = y := by
    rw [← orderOf_five_unit hk] at hx hy
    exact pow_injOn_Iio_orderOf hx hy h
  split at heq
  next hilow =>
      split at heq
      next hjlow => exact hpow hilow hjlow heq
      next hjhigh => exact absurd heq (five_pow_ne_neg hk _ _)
  next hihigh =>
      split at heq
      next hjlow => exact absurd heq.symm (five_pow_ne_neg hk _ _)
      next hjhigh =>
          have := hpow (by omega) (by omega) (neg_injective heq)
          omega

def towards {G : Type _} [Inv G] (i : Int) (u : G) : G := if i < 0 then u⁻¹ else u

theorem towards_pow_natAbs {G : Type _} [Group G] (i : Int) (u : G) :
    towards i u ^ i.natAbs = u ^ i := by
  unfold towards
  split
  next hneg =>
      have hi : i = -(i.natAbs : Int) := by omega
      rw [inv_pow, ← zpow_natCast, ← zpow_neg, ← hi]
  next hpos =>
      have hi : i = (i.natAbs : Int) := by omega
      rw [← zpow_natCast, ← hi]

/-! ## Loops over a generator -/

/-- The powers of five for small indices, then their negatives. -/
def signedPower (k : Nat) (i : Int) : (ZMod (2 ^ k))ˣ :=
  if i.natAbs < 2 ^ (k - 2) then five k ^ i
  else (-(five k ^ (i.natAbs - 2 ^ (k - 2)))) ^ i.sign

theorem signedPower_natCast (k i : Nat) :
    signedPower k i = if i < 2 ^ (k - 2) then five k ^ i else -(five k ^ (i - 2 ^ (k - 2))) := by
  have hpos := Nat.two_pow_pos (k - 2)
  unfold signedPower
  rw [Int.natAbs_natCast, zpow_natCast]
  split
  next => rfl
  next hhigh => rw [Int.sign_eq_one_of_pos (by omega), zpow_one]

def RepresentsUnit (k : Nat) (u : (ZMod (2 ^ k))ˣ) (x : Nat) : Prop :=
  Represents (2 ^ k) (u : ZMod (2 ^ k)) x

theorem one_represents {k : Nat} (hk : 0 < k) : RepresentsUnit k 1 1 :=
  ⟨Nat.one_lt_two_pow hk.ne', Nat.cast_one⟩

theorem five_represents {k : Nat} (hk : 3 <= k) : RepresentsUnit k (five k) 5 := by
  constructor
  · calc
      5 < 2 ^ 3 := by decide
      _ <= 2 ^ k := Nat.pow_le_pow_right (by decide) hk
  · rw [coe_five]
    rfl

theorem negOne_represents (k : Nat) : RepresentsUnit k (-1) (2 ^ k - 1) := by
  have hpos := Nat.two_pow_pos k
  constructor
  · omega
  · rw [Nat.cast_sub hpos, ZMod.natCast_self, Nat.cast_one, zero_sub, Units.val_neg,
      Units.val_one]

theorem RepresentsUnit.mul {k x y : Nat} {u v : (ZMod (2 ^ k))ˣ} (hx : RepresentsUnit k u x)
    (hy : RepresentsUnit k v y) : RepresentsUnit k (u * v) (x * y % 2 ^ k) := by
  constructor
  · exact Nat.mod_lt _ (Nat.two_pow_pos k)
  · rw [ZMod.natCast_mod, Nat.cast_mul, hx.2, hy.2, Units.val_mul]

theorem unit_iterate {k : Nat} {f : Nat -> Nat} {u : (ZMod (2 ^ k))ˣ}
    (hf : forall x v, RepresentsUnit k v x -> RepresentsUnit k (v * u) (f x)) (count : Nat)
    {x : Nat} {v : (ZMod (2 ^ k))ˣ} (hx : RepresentsUnit k v x) :
    RepresentsUnit k (v * u ^ count) (f^[count] x) := by
  induction count generalizing x v with
  | zero =>
      rw [pow_zero, mul_one]
      exact hx
  | succ count ih =>
      rw [Function.iterate_succ_apply, pow_succ', ← mul_assoc]
      exact ih (hf x v hx)

section Rotation

variable {k : Nat} (hk : 3 <= k) (hk32 : k < 32)

section Step

include hk32

theorem generatorStep_represents {u : (ZMod (2 ^ k))ˣ} {g0 : Nat}
    (hg0 : RepresentsUnit k u g0) (x : Nat) (v : (ZMod (2 ^ k))ˣ)
    (hx : RepresentsUnit k v x) : RepresentsUnit k (v * u) (generatorStep (2 ^ k) g0 x) := by
  rw [generatorStep, usint_natCast, Nat.mod_mod_of_dvd _ (pow_dvd_pow 2 hk32.le)]
  exact hx.mul hg0

theorem generatorMask_represents {u : (ZMod (2 ^ k))ˣ} {g0 : Nat}
    (hg0 : RepresentsUnit k u g0) (x : Nat) (v : (ZMod (2 ^ k))ˣ)
    (hx : RepresentsUnit k v x) : RepresentsUnit k (v * u) (generatorMask (2 ^ k) g0 x) := by
  have hword : 2 ^ k ∣ 2 ^ maxBits := pow_dvd_pow 2 (show k <= maxBits by
    simp only [maxBits]
    omega)
  rw [generatorMask, Nat.and_two_pow_sub_one_eq_mod, word, Nat.mod_mod_of_dvd _ hword]
  exact hx.mul hg0

end Step

include hk hk32

theorem modInverse_represents {x : Nat} {u : (ZMod (2 ^ k))ˣ} (hx : RepresentsUnit k u x) :
    exists w, modInverse x (2 ^ k) = some w ∧ RepresentsUnit k u⁻¹ w := by
  have hcoprime : Nat.gcd x (2 ^ k) = 1 := by
    rw [← Nat.coprime_iff_gcd_eq_one, ← ZMod.isUnit_iff_coprime, hx.2]
    exact u.isUnit
  rcases modInverse_spec (Nat.one_lt_two_pow (by omega))
    (Nat.pow_lt_pow_right (by decide) (by omega)) hcoprime with ⟨w, hw, hlt, hinv⟩
  refine ⟨w, hw, hlt, ?_⟩
  have hmul : (u : ZMod (2 ^ k)) * w = 1 := by
    rw [← hx.2, ← Nat.cast_mul, ← ZMod.natCast_mod, hinv, Nat.cast_one]
  exact (Units.inv_eq_of_mul_eq_one_right hmul).symm

theorem factor_represents (i : Int) {x : Nat} {u : (ZMod (2 ^ k))ˣ}
    (hx : RepresentsUnit k u x) :
    exists w, (if i < 0 then modInverse x (2 ^ k) else some x) = some w ∧
      RepresentsUnit k (towards i u) w := by
  unfold towards
  split
  next hneg => exact modInverse_represents hk hk32 hx
  next hpos => exact ⟨x, rfl, hx⟩

theorem findAutomorphismIndex2nComplex_eq {i : Int}
    (hi : i ≠ int32 ((2 ^ k : Nat) : Int) - 1) :
    exists g, findAutomorphismIndex2nComplex i (2 ^ k) = some g ∧
      RepresentsUnit k (five k ^ i) g := by
  unfold findAutomorphismIndex2nComplex
  by_cases hzero : i = 0
  · rw [if_pos hzero, hzero, zpow_zero]
    exact ⟨1, rfl, one_represents (by omega)⟩
  · rcases factor_represents hk hk32 i (five_represents hk) with ⟨g0, hg0, hfactor⟩
    rw [if_neg hzero, if_neg hi, if_neg (not_not.mpr ⟨k, rfl⟩), hg0]
    have hloop := unit_iterate (generatorMask_represents hk32 hfactor) (i.natAbs - 1) hfactor
    rw [← pow_succ', Nat.sub_add_cancel (by omega), towards_pow_natAbs] at hloop
    refine ⟨_, rfl, ?_⟩
    have hsmall : 2 ^ k <= 2 ^ 32 := Nat.pow_le_pow_right (by decide) hk32.le
    rwa [usint_natCast, Nat.mod_eq_of_lt (lt_of_lt_of_le hloop.1 hsmall)]

theorem findAutomorphismIndex2n_eq (i : Int) :
    exists g, findAutomorphismIndex2n i (2 ^ k) = some g ∧
      RepresentsUnit k (signedPower k i) g := by
  have hquarter : Nat.totient (2 ^ k) / 2 = 2 ^ (k - 2) := by
    rw [Nat.totient_prime_pow Nat.prime_two (by omega), Nat.mul_one,
      show k - 1 = k - 2 + 1 by omega, pow_succ]
    exact Nat.mul_div_cancel _ (by decide)
  have hpos := Nat.two_pow_pos (k - 2)
  unfold findAutomorphismIndex2n signedPower
  by_cases hzero : i = 0
  · rw [if_pos hzero, hzero, Int.natAbs_zero, if_pos hpos, zpow_zero]
    exact ⟨1, rfl, one_represents (by omega)⟩
  · rcases factor_represents hk hk32 i (five_represents hk) with ⟨f1, hf1, hfive⟩
    rcases factor_represents hk hk32 i (negOne_represents k) with
      ⟨f2, hf2, hneg⟩
    rw [if_neg hzero, if_neg (Nat.two_pow_pos k).ne']
    dsimp only
    rw [hf1, hf2, hquarter]
    simp only [Option.bind_eq_bind, Option.bind_some]
    have hstep := generatorStep_represents hk32 hfive
    split
    next hlow =>
        have hloop := unit_iterate hstep (i.natAbs - 1) hfive
        rw [← pow_succ', Nat.sub_add_cancel (by omega), towards_pow_natAbs] at hloop
        exact ⟨_, rfl, hloop⟩
    next hhigh =>
        have hloop := unit_iterate hstep (i.natAbs - 2 ^ (k - 2)) hneg
        refine ⟨_, rfl, ?_⟩
        rcases lt_or_gt_of_ne hzero with hbelow | habove
        · rw [towards, towards, if_pos hbelow, if_pos hbelow, inv_pow] at hloop
          rwa [Int.sign_eq_neg_one_of_neg hbelow, zpow_neg_one, neg_eq_neg_one_mul, mul_inv]
        · rw [towards, towards, if_neg (by omega), if_neg (by omega)] at hloop
          rwa [Int.sign_eq_one_of_pos habove, zpow_one, neg_eq_neg_one_mul]

theorem findAutomorphismIndex2n_existsUnique {r : Nat} (hr : r < 2 ^ k) (hodd : r % 2 = 1) :
    ∃! i : Nat, i < 2 ^ (k - 1) ∧ findAutomorphismIndex2n i (2 ^ k) = some r := by
  have hinj : Set.InjOn (fun i : Nat => signedPower k i) (Finset.range (2 ^ (k - 1))) := by
    intro i hi j hj heq
    dsimp only at heq
    rw [signedPower_natCast, signedPower_natCast] at heq
    exact five_signed_injOn (by omega) (Finset.mem_range.mp (Finset.mem_coe.mp hi))
      (Finset.mem_range.mp (Finset.mem_coe.mp hj)) heq
  have hcard : (Finset.univ : Finset (ZMod (2 ^ k))ˣ).card <= (Finset.range (2 ^ (k - 1))).card := by
    rw [Finset.card_univ, ZMod.card_units_eq_totient, Finset.card_range,
      Nat.totient_prime_pow Nat.prime_two (by omega), Nat.mul_one]
  have hunit : Nat.Coprime r (2 ^ k) :=
    Nat.Coprime.pow_right k (Nat.coprime_two_right.mpr (Nat.odd_iff.mpr hodd))
  rcases Finset.surjOn_of_injOn_of_card_le _ (fun i _ => Finset.mem_coe.mpr (Finset.mem_univ _))
    hinj hcard (Finset.mem_coe.mpr (Finset.mem_univ (ZMod.unitOfCoprime r hunit))) with
    ⟨i, hi, heq⟩
  have hrep : RepresentsUnit k (signedPower k i) r := by
    constructor
    · exact hr
    · dsimp only at heq
      rw [heq, ZMod.coe_unitOfCoprime]
  refine ⟨i, ⟨Finset.mem_range.mp (Finset.mem_coe.mp hi), ?_⟩, ?_⟩
  · rcases findAutomorphismIndex2n_eq hk hk32 i with ⟨g, hg, hvalue⟩
    rw [hg, Represents.eq hvalue hrep]
  · intro j hj
    rcases findAutomorphismIndex2n_eq hk hk32 j with ⟨g, hg, hvalue⟩
    rw [hg] at hj
    rcases hj with ⟨hjlt, hgr⟩
    cases hgr
    apply hinj (Finset.mem_coe.mpr (Finset.mem_range.mpr hjlt)) hi
    exact Units.ext (hvalue.2.symm.trans hrep.2)

end Rotation

/-! ## The index maps -/

/-- The indices of the 64-bit loop: a homomorphism on the rotations other than `m - 1`. -/
structure ComplexIndices (k : Nat) : Prop where
  power (i : Int) (hi : -2 ^ 31 <= i ∧ i < 2 ^ 31) (hne : i ≠ 2 ^ k - 1) :
    exists g, findAutomorphismIndex2nComplex i (2 ^ k) = some g ∧
      RepresentsUnit k (five k ^ i) g
  add (i j : Int) (hi : -2 ^ 31 <= i ∧ i < 2 ^ 31) (hj : -2 ^ 31 <= j ∧ j < 2 ^ 31)
    (hij : -2 ^ 31 <= i + j ∧ i + j < 2 ^ 31) (hne : i ≠ 2 ^ k - 1 ∧ j ≠ 2 ^ k - 1)
    (hsum : i + j ≠ 2 ^ k - 1) :
    exists gi gj gij, findAutomorphismIndex2nComplex i (2 ^ k) = some gi ∧
      findAutomorphismIndex2nComplex j (2 ^ k) = some gj ∧
      findAutomorphismIndex2nComplex (i + j) (2 ^ k) = some gij ∧ gi * gj % 2 ^ k = gij
  inverse (i : Int) (hi : -2 ^ 31 < i ∧ i < 2 ^ 31)
    (hne : i ≠ 2 ^ k - 1 ∧ -i ≠ 2 ^ k - 1) :
    exists g h, findAutomorphismIndex2nComplex i (2 ^ k) = some g ∧
      findAutomorphismIndex2nComplex (-i) (2 ^ k) = some h ∧ g * h % 2 ^ k = 1

/-- The indices of the 32-bit loop: signed powers of five, each odd residue once. -/
structure SignedIndices (k : Nat) : Prop where
  low (i : Int) (hi : i.natAbs < 2 ^ k / 4) :
    exists g, findAutomorphismIndex2n i (2 ^ k) = some g ∧ RepresentsUnit k (five k ^ i) g
  high (i : Int) (hlow : 2 ^ k / 4 <= i.natAbs) (hhigh : i.natAbs < 2 ^ k / 2) :
    exists g, findAutomorphismIndex2n i (2 ^ k) = some g ∧
      RepresentsUnit k (towards i (-1 * five k ^ (i.natAbs - 2 ^ k / 4))) g
  odd (i : Nat) (hi : i < 2 ^ k / 2) :
    exists g, findAutomorphismIndex2n i (2 ^ k) = some g ∧ g < 2 ^ k ∧ g % 2 = 1
  bijective (r : Nat) (hr : r < 2 ^ k) (hodd : r % 2 = 1) :
    ∃! i : Nat, i < 2 ^ k / 2 ∧ findAutomorphismIndex2n i (2 ^ k) = some r

section Maps

variable {k : Nat} (hk : 3 <= k) (hk32 : k < 32)

include hk32 in
theorem ne_conjugation {i : Int} (hi : -2 ^ 31 <= i) (hne : i ≠ 2 ^ k - 1) :
    i ≠ int32 ((2 ^ k : Nat) : Int) - 1 := by
  rcases Nat.lt_or_ge k 31 with hsmall | hlarge
  · have hpow : 2 ^ k <= 2 ^ 30 := Nat.pow_le_pow_right (by decide) (by omega)
    rw [int32_natCast (show 2 ^ k < 2 ^ 31 by omega), Nat.cast_pow]
    exact hne
  · -- the order `2 ^ 31` is the least `int32_t`
    have heq : k = 31 := by omega
    subst heq
    have hword : int32 ((2 ^ 31 : Nat) : Int) = -2 ^ 31 := by decide
    omega

include hk hk32

theorem complexIndices : ComplexIndices k := by
  have hpower (i : Int) (hi : -2 ^ 31 <= i ∧ i < 2 ^ 31) (hne : i ≠ 2 ^ k - 1) :=
    findAutomorphismIndex2nComplex_eq hk hk32 (ne_conjugation hk32 hi.left hne)
  constructor
  case power => exact hpower
  case add =>
    intro i j hi hj hij hne hsum
    rcases hpower i hi hne.left with ⟨gi, hgi, hri⟩
    rcases hpower j hj hne.right with ⟨gj, hgj, hrj⟩
    rcases hpower (i + j) hij hsum with ⟨gij, hgij, hrij⟩
    refine ⟨gi, gj, gij, hgi, hgj, hgij, ?_⟩
    rw [zpow_add] at hrij
    exact Represents.eq (hri.mul hrj) hrij
  case inverse =>
    intro i hi hne
    rcases hpower i ⟨hi.left.le, hi.right⟩ hne.left with ⟨g, hg, hrg⟩
    rcases hpower (-i) (by omega) hne.right with ⟨h, hh, hrh⟩
    refine ⟨g, h, hg, hh, ?_⟩
    have hone := one_represents (k := k) (by omega)
    rw [zpow_neg] at hrh
    have hproduct := hrg.mul hrh
    rw [mul_inv_cancel] at hproduct
    exact Represents.eq hproduct hone

theorem signedIndices : SignedIndices k := by
  have hquarter : 2 ^ k / 4 = 2 ^ (k - 2) :=
    Nat.pow_div (show 2 <= k by omega) Nat.two_pos
  have hhalf : 2 ^ k / 2 = 2 ^ (k - 1) := Nat.pow_div (show 1 <= k by omega) Nat.two_pos
  have hpos := Nat.two_pow_pos (k - 2)
  constructor
  case low =>
    intro i hi
    have hvalue := findAutomorphismIndex2n_eq hk hk32 i
    rwa [signedPower, if_pos (by omega)] at hvalue
  case high =>
    intro i hlow hhigh
    have hvalue := findAutomorphismIndex2n_eq hk hk32 i
    rw [signedPower, if_neg (by omega)] at hvalue
    rw [hquarter, ← neg_eq_neg_one_mul]
    unfold towards
    split
    next hneg => rwa [Int.sign_eq_neg_one_of_neg hneg, zpow_neg_one] at hvalue
    next hnonneg => rwa [Int.sign_eq_one_of_pos (by omega), zpow_one] at hvalue
  case odd =>
    intro i hi
    rcases findAutomorphismIndex2n_odd (by omega) hk32 i with ⟨g, hg, hodd⟩
    rcases findAutomorphismIndex2n_eq hk hk32 i with ⟨g', hg', hvalue⟩
    rw [hg] at hg'
    cases hg'
    exact ⟨g, hg, hvalue.1, hodd⟩
  case bijective =>
    rw [hhalf]
    intro r hr hodd
    exact findAutomorphismIndex2n_existsUnique hk hk32 hr hodd

/-- Both index maps at every power of two from eight on. -/
theorem rotationIndices : ComplexIndices k ∧ SignedIndices k :=
  ⟨complexIndices hk hk32, signedIndices hk hk32⟩

end Maps

theorem rotationIndices_sixteen : ComplexIndices 4 ∧ SignedIndices 4 :=
  rotationIndices (by decide) (by decide)

end Core
end OpenFHE
