import OpenFHE.Encoding.SlotPermutation

/-!
# Rotations of the slots

`FindAutomorphismIndex2n` multiplies exponents by a power of five, and from half the
dimension on also by minus one.  On the slots this is a rotation of both rows, with
the rows exchanged in the second case.
-/

namespace OpenFHE
namespace Encoding

open OpenFHE.Core Foundation NativeInteger

/-- The slot whose value a rotation of the rows by `k` brings to slot `i`. -/
def rotatedSlot (d : Nat) (k : Int) (i : Nat) : Nat :=
  (if i < 2 ^ d then 0 else 2 ^ d) + (((i : Int) + k) % (2 ^ d : Nat)).toNat

def otherRow (d i : Nat) : Nat := if i < 2 ^ d then i + 2 ^ d else i - 2 ^ d

/-- The exponent that the rotation by `k` multiplies with. -/
def rotationUnit (d : Nat) (k : Int) : (ZMod (2 ^ (d + 2)))ˣ :=
  (if k.natAbs < 2 ^ d then 1 else -1) * fiveUnit d ^ k

section Rotations

variable {d : Nat}

theorem fiveUnit_zpow_emod (e : Int) :
    fiveUnit d ^ (e % (2 ^ d : Nat)).toNat = fiveUnit d ^ e := by
  have hpos : ((2 ^ d : Nat) : Int) ≠ 0 := by
    have := Nat.two_pow_pos d
    omega
  have hone : fiveUnit d ^ ((2 ^ d : Nat) : Int) = 1 := by
    rw [zpow_natCast, fiveUnit_pow_half]
  rw [← zpow_natCast, Int.toNat_of_nonneg (Int.emod_nonneg e hpos)]
  conv_rhs => rw [← Int.emod_add_mul_ediv e (2 ^ d : Nat)]
  rw [zpow_add, zpow_mul, hone, one_zpow, mul_one]

theorem emod_toNat_lt (e : Int) : (e % (2 ^ d : Nat)).toNat < 2 ^ d := by
  have hpos := Nat.two_pow_pos d
  have hlt := Int.emod_lt_of_pos e (show (0 : Int) < (2 ^ d : Nat) by omega)
  omega

theorem rotatedSlot_lt (k : Int) (i : Nat) : rotatedSlot d k i < 2 ^ (d + 1) := by
  have hlt := emod_toNat_lt (d := d) ((i : Int) + k)
  rw [rotatedSlot, pow_succ]
  split <;> omega

theorem otherRow_lt {i : Nat} (hi : i < 2 ^ (d + 1)) : otherRow d i < 2 ^ (d + 1) := by
  rw [pow_succ] at hi ⊢
  unfold otherRow
  split <;> omega

theorem slotUnit_rotatedSlot (k : Int) (i : Nat) :
    slotUnit d (rotatedSlot d k i) = slotUnit d i * fiveUnit d ^ k := by
  have hlt := emod_toNat_lt (d := d) ((i : Int) + k)
  have hpower : fiveUnit d ^ (((i : Int) + k) % (2 ^ d : Nat)).toNat =
      fiveUnit d ^ (i % 2 ^ d) * fiveUnit d ^ k := by
    have hlow := fiveUnit_zpow_emod (d := d) (i : Int)
    rw [← Int.natCast_mod, Int.toNat_natCast] at hlow
    rw [fiveUnit_zpow_emod, zpow_add, hlow]
  unfold rotatedSlot
  split
  next hrow => rw [Nat.zero_add, slotUnit_low hlt, hpower, slotUnit, if_pos hrow, one_mul]
  next hrow =>
      rw [Nat.add_comm (2 ^ d) _, slotUnit_high hlt, hpower, slotUnit, if_neg hrow, neg_one_mul, neg_mul]

theorem slotUnit_otherRow {i : Nat} (hi : i < 2 ^ (d + 1)) :
    slotUnit d (otherRow d i) = -slotUnit d i := by
  rw [pow_succ] at hi
  unfold otherRow
  split
  next hrow => rw [slotUnit_high hrow, slotUnit_low hrow]
  next hrow =>
      have hlow : i - 2 ^ d < 2 ^ d := by omega
      have hsplit : i - 2 ^ d + 2 ^ d = i := Nat.sub_add_cancel (by omega)
      rw [← hsplit, slotUnit_high hlow, neg_neg, Nat.add_sub_cancel, slotUnit_low hlow]

theorem autoPosition_slotPosition (u : (ZMod (2 ^ (d + 2)))ˣ) {i j : Nat}
    (h : slotUnit d j = slotUnit d i * u) :
    autoPosition (d + 1) (u : ZMod (2 ^ (d + 2))).val (slotPosition d i) = slotPosition d j := by
  apply oddPoint_injOn (autoPosition_lt (d + 1) _ _) (slotPosition_lt j)
  rw [oddPoint_autoPosition (d + 1) (val_odd u), oddPoint_slotPosition, oddPoint_slotPosition, h,
    Units.val_mul, ZMod.val_mul]

section Index

variable (hd : d + 2 < 32)

include hd

theorem iterate_generatorStep {g0 : Nat} {u : (ZMod (2 ^ (d + 2)))ˣ}
    (hg0 : (g0 : ZMod (2 ^ (d + 2))) = u) (c : Nat) (w : (ZMod (2 ^ (d + 2)))ˣ) :
    (generatorStep (2 ^ (d + 2)) g0)^[c] (w : ZMod (2 ^ (d + 2))).val =
      ((w * u ^ c : (ZMod (2 ^ (d + 2)))ˣ) : ZMod (2 ^ (d + 2))).val := by
  induction c with
  | zero => rw [Function.iterate_zero_apply, pow_zero, mul_one]
  | succ c ih =>
      rw [Function.iterate_succ_apply', ih, generatorStep, usint_natCast,
        Nat.mod_mod_of_dvd _ (pow_dvd_pow 2 hd.le), ← ZMod.val_natCast, Nat.cast_mul,
        ZMod.natCast_rightInverse, hg0, ← Units.val_mul, pow_succ u c, mul_assoc]

theorem exists_factors (k : Int) :
    exists f1 f2, (if k < 0 then modInverse 5 (2 ^ (d + 2)) else some 5) = some f1 ∧
      (if k < 0 then modInverse (2 ^ (d + 2) - 1) (2 ^ (d + 2)) else some (2 ^ (d + 2) - 1)) =
        some f2 ∧
      (k ≠ 0 -> (f1 : ZMod (2 ^ (d + 2))) = (fiveUnit d ^ k.sign : (ZMod (2 ^ (d + 2)))ˣ)) ∧
      (0 < d -> f1 < 2 ^ (d + 2)) ∧ f2 < 2 ^ (d + 2) ∧
      (f2 : ZMod (2 ^ (d + 2))) = -1 := by
  have hone : 1 < 2 ^ (d + 2) := Nat.one_lt_two_pow (by omega)
  have hsmall : 2 ^ (d + 2) < 2 ^ 62 := Nat.pow_lt_pow_right (by decide) (by omega)
  have hfive : Nat.gcd 5 (2 ^ (d + 2)) = 1 := Nat.Coprime.pow_right (d + 2) (by decide)
  have hcofactor : Nat.gcd (2 ^ (d + 2) - 1) (2 ^ (d + 2)) = 1 :=
    (Nat.coprime_self_sub_left hone.le).mpr (Nat.coprime_one_left _)
  have hinverse {x y : Nat} (h : x * y % 2 ^ (d + 2) = 1) :
      (x : ZMod (2 ^ (d + 2))) * y = 1 := by
    rw [← Nat.cast_mul, ← ZMod.natCast_mod, h, Nat.cast_one]
  by_cases hneg : k < 0
  · rcases modInverse_spec hone (by omega) hfive with ⟨f1, hf1, hlt1, hmul1⟩
    rcases modInverse_spec hone (by omega) hcofactor with ⟨f2, hf2, hlt2, hmul2⟩
    refine ⟨f1, f2, ?_, ?_, ?_, fun _ => hlt1, hlt2, ?_⟩
    · rw [if_pos hneg, hf1]
    · rw [if_pos hneg, hf2]
    · intro _
      rw [Int.sign_eq_neg_one_of_neg hneg, zpow_neg_one]
      have hmul := hinverse hmul1
      rw [Nat.cast_ofNat, ← coe_fiveUnit] at hmul
      exact (Units.inv_eq_of_mul_eq_one_right hmul).symm
    · have hmul := hinverse hmul2
      rw [Scheme.EvalSum.natCast_two_pow_sub_one, neg_one_mul] at hmul
      exact neg_eq_iff_eq_neg.mp hmul
  · refine ⟨5, 2 ^ (d + 2) - 1, if_neg hneg, if_neg hneg, ?_, ?_, by omega,
      Scheme.EvalSum.natCast_two_pow_sub_one⟩
    · intro hzero
      rw [Int.sign_eq_one_of_pos (by omega), zpow_one, coe_fiveUnit, Nat.cast_ofNat]
    · intro hpos
      calc
        5 < 2 ^ 3 := by decide
        _ <= 2 ^ (d + 2) := Nat.pow_le_pow_right (by decide) (by omega)

theorem findAutomorphismIndex2n_spec (k : Int) :
    findAutomorphismIndex2n k (2 ^ (d + 2)) =
      some (rotationUnit d k : ZMod (2 ^ (d + 2))).val := by
  have hone : 1 < 2 ^ (d + 2) := Nat.one_lt_two_pow (by omega)
  have : Fact (1 < 2 ^ (d + 2)) := ⟨hone⟩
  have hpos := Nat.two_pow_pos d
  have htotient : Nat.totient (2 ^ (d + 2)) / 2 = 2 ^ d := by
    rw [Nat.totient_prime_pow_succ Nat.prime_two, pow_succ]
    omega
  unfold findAutomorphismIndex2n
  by_cases hzero : k = 0
  · rw [if_pos hzero, rotationUnit, hzero, if_pos (by rwa [Int.natAbs_zero]), zpow_zero, one_mul,
      Units.val_one, ZMod.val_one]
  · rcases exists_factors hd k with ⟨f1, f2, hf1, hf2, hcast1, hlt1, hlt2, hcast2⟩
    have hunit := hcast1 hzero
    have hpower : (fiveUnit d ^ k.sign) ^ k.natAbs = fiveUnit d ^ k := by
      rw [← zpow_natCast, ← zpow_mul, Int.sign_mul_natAbs]
    have hhalf : (fiveUnit d ^ k.sign) ^ 2 ^ d = 1 := by
      rw [← zpow_natCast, ← zpow_mul, mul_comm, zpow_mul, zpow_natCast, fiveUnit_pow_half,
        one_zpow]
    rw [if_neg hzero, if_neg (by omega)]
    dsimp only
    rw [hf1, hf2]
    simp only [Option.bind_eq_bind, Option.bind_some, htotient]
    have habs : k.natAbs ≠ 0 := Int.natAbs_ne_zero.mpr hzero
    split
    next hlow =>
        have hd0 : 0 < d := by
          by_contra hnot
          have : d = 0 := by omega
          subst this
          omega
        have hval : f1 = ((fiveUnit d ^ k.sign : (ZMod (2 ^ (d + 2)))ˣ) :
            ZMod (2 ^ (d + 2))).val := by
          rw [← hunit, ZMod.val_natCast, Nat.mod_eq_of_lt (hlt1 hd0)]
        have hrun := iterate_generatorStep hd hunit (k.natAbs - 1) (fiveUnit d ^ k.sign)
        rw [← hval, ← pow_succ', Nat.sub_add_cancel (by omega), hpower] at hrun
        rw [rotationUnit, if_pos hlow, one_mul]
        exact congrArg some hrun
    next hhigh =>
        have hval : f2 = ((-1 : (ZMod (2 ^ (d + 2)))ˣ) : ZMod (2 ^ (d + 2))).val := by
          rw [Units.val_neg, Units.val_one, ← hcast2, ZMod.val_natCast, Nat.mod_eq_of_lt hlt2]
        have hrun := iterate_generatorStep hd hunit (k.natAbs - 2 ^ d) (-1)
        have hsplit : (fiveUnit d ^ k.sign) ^ (k.natAbs - 2 ^ d) = fiveUnit d ^ k := by
          rw [← hpower]
          conv_rhs => rw [← Nat.sub_add_cancel (show 2 ^ d <= k.natAbs by omega)]
          rw [pow_add (fiveUnit d ^ k.sign), hhalf, mul_one]
        rw [← hval, hsplit] at hrun
        rw [rotationUnit, if_neg hhigh]
        exact congrArg some hrun

end Index

end Rotations

end Encoding
end OpenFHE
