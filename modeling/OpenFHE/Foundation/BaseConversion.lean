import OpenFHE.Foundation.ChineseRemainder
import Mathlib.Data.ZMod.Basic
import Mathlib.Data.List.GetD
import Mathlib.Tactic.LinearCombination
import Mathlib.Tactic.Linarith

/-!
# Base conversion of residues

A number below the product of coprime moduli has one digit below each modulus.  The
digits times their cofactors add up to the number and a multiple of the product, and the
multiple is smaller than the number of moduli.
-/

namespace OpenFHE
namespace Foundation

open Finset

def cofactor (moduli : List Nat) (i : Nat) : Nat := moduli.prod / moduli.getD i 1

/-- The digits of `x`: its residues divided by the cofactors. -/
structure BaseDigits (moduli : List Nat) (x : Nat) (y : Nat -> Nat) : Prop where
  lt : forall i q, moduli[i]? = some q -> y i < q
  residue : forall i q, moduli[i]? = some q -> y i * cofactor moduli i % q = x % q

/-- The digit at one modulus, the residue times the inverse of the cofactor. -/
def baseDigit (moduli : List Nat) (x i : Nat) : Nat :=
  ((x : ZMod (moduli.getD i 1)) * (cofactor moduli i : ZMod (moduli.getD i 1))⁻¹).val

def digitSum (moduli : List Nat) (y : Nat -> Nat) : Nat :=
  ∑ i ∈ range moduli.length, y i * cofactor moduli i

def digitNumber (moduli : List Nat) (y : Nat -> Nat) : Nat := digitSum moduli y % moduli.prod

/-- The multiple of the product in the sum of the digits. -/
def digitOverflow (moduli : List Nat) (y : Nat -> Nat) : Nat :=
  digitSum moduli y / moduli.prod

theorem cofactor_eq {moduli : List Nat} {i q : Nat} (hq : moduli[i]? = some q) :
    cofactor moduli i = moduli.prod / q := by
  rw [cofactor, List.getD_eq_getElem?_getD, hq, Option.getD_some]

theorem cofactor_mul {moduli : List Nat} {i q : Nat} (hq : moduli[i]? = some q) :
    cofactor moduli i * q = moduli.prod := by
  rw [cofactor_eq hq]
  exact Nat.div_mul_cancel (List.dvd_prod (List.mem_of_getElem? hq))

section Coprime

variable {moduli : List Nat} (hcoprime : moduli.Pairwise Nat.Coprime)
  (hone : forall q, q ∈ moduli -> 1 < q) {x : Nat} {y : Nat -> Nat}

include hone in
theorem prod_pos_of_one_lt : 0 < moduli.prod := by
  apply Nat.pos_of_ne_zero
  intro hzero
  have hlt := hone 0 (List.prod_eq_zero_iff.mp hzero)
  omega

include hcoprime hone

theorem dvd_cofactor {i k p q : Nat} (hp : moduli[k]? = some p) (hq : moduli[i]? = some q)
    (hne : i ≠ k) : p ∣ cofactor moduli i := by
  rw [cofactor_eq hq]
  apply dvd_prod_div hcoprime hone (List.mem_of_getElem? hp) (List.mem_of_getElem? hq)
  intro hsame
  rw [hsame, ← hq] at hp
  have hi := (List.getElem?_eq_some_iff.mp hq).1
  exact hne ((List.getElem?_inj hi (nodup_of_coprime hcoprime hone)).mp hp.symm)

theorem digitSum_mod {k p : Nat} (hp : moduli[k]? = some p) :
    digitSum moduli y % p = y k * cofactor moduli k % p := by
  have hk : k < moduli.length := (List.getElem?_eq_some_iff.mp hp).1
  have hother : forall i, i ∈ range moduli.length -> i ≠ k ->
      y i * cofactor moduli i % p = 0 := by
    intro i hi hne
    have hq := List.getElem?_eq_getElem (mem_range.mp hi)
    exact Nat.mod_eq_zero_of_dvd ((dvd_cofactor hcoprime hone hp hq hne).mul_left (y i))
  rw [digitSum, sum_nat_mod, sum_eq_single k hother, Nat.mod_mod]
  intro hnot
  exact absurd (mem_range.mpr hk) hnot

theorem digitSum_mod_modulus (hy : BaseDigits moduli x y) {k p : Nat}
    (hp : moduli[k]? = some p) : digitSum moduli y % p = x % p := by
  rw [digitSum_mod hcoprime hone hp, hy.residue k p hp]

omit hcoprime in
theorem digitNumber_lt : digitNumber moduli y < moduli.prod :=
  Nat.mod_lt _ (prod_pos_of_one_lt hone)

theorem baseDigits_of_digits (hlt : forall i q, moduli[i]? = some q -> y i < q) :
    BaseDigits moduli (digitNumber moduli y) y := by
  refine ⟨hlt, ?_⟩
  intro i q hq
  rw [digitNumber, Nat.mod_mod_of_dvd _ (List.dvd_prod (List.mem_of_getElem? hq)),
    digitSum_mod hcoprime hone hq]

theorem digitSum_modEq (hy : BaseDigits moduli x y) :
    digitSum moduli y ≡ x [MOD moduli.prod] := by
  apply (Nat.modEq_list_prod_iff hcoprime).mpr
  intro i
  exact digitSum_mod_modulus hcoprime hone hy (List.getElem?_eq_getElem i.isLt)

omit hcoprime in
theorem digitSum_lt (hy : BaseDigits moduli x y) (hpos : 0 < moduli.length) :
    digitSum moduli y < moduli.length * moduli.prod := by
  have hprod := prod_pos_of_one_lt hone
  have hterm : forall i, i ∈ range moduli.length -> y i * cofactor moduli i < moduli.prod := by
    intro i hi
    have hq := List.getElem?_eq_getElem (mem_range.mp hi)
    have hmul := cofactor_mul hq
    rw [← hmul, Nat.mul_comm]
    apply Nat.mul_lt_mul_of_pos_left (hy.lt i _ hq)
    apply Nat.pos_of_ne_zero
    intro hzero
    rw [hzero] at hmul
    omega
  have hsum := sum_lt_sum_of_nonempty (nonempty_range_iff.mpr hpos.ne') hterm
  simpa [digitSum] using hsum

omit hcoprime in
theorem digitOverflow_lt (hy : BaseDigits moduli x y) (hpos : 0 < moduli.length) :
    digitOverflow moduli y < moduli.length :=
  Nat.div_lt_of_lt_mul (by
    rw [Nat.mul_comm]
    exact digitSum_lt hone hy hpos)

theorem digitSum_eq (hy : BaseDigits moduli x y) (hx : x < moduli.prod)
    (hpos : 0 < moduli.length) :
    digitSum moduli y = x + digitOverflow moduli y * moduli.prod ∧
      digitOverflow moduli y < moduli.length := by
  have hmod : digitSum moduli y % moduli.prod = x := by
    have heq := digitSum_modEq hcoprime hone hy
    rw [Nat.ModEq, Nat.mod_eq_of_lt hx] at heq
    exact heq
  have hsplit := Nat.mod_add_div' (digitSum moduli y) moduli.prod
  rw [hmod] at hsplit
  exact ⟨hsplit.symm, digitOverflow_lt hone hy hpos⟩

theorem eq_of_mul_cofactor {i q a b : Nat} (hq : moduli[i]? = some q) (ha : a < q) (hb : b < q)
    (h : a * cofactor moduli i % q = b * cofactor moduli i % q) : a = b := by
  have hunit : Nat.gcd q (cofactor moduli i) = 1 := by
    rw [Nat.gcd_comm, cofactor_eq hq]
    exact coprime_prod_div hcoprime hone (List.mem_of_getElem? hq)
  exact Nat.ModEq.eq_of_lt_of_lt (Nat.ModEq.cancel_right_of_coprime hunit h) ha hb

theorem BaseDigits.unique {y' : Nat -> Nat} (hy : BaseDigits moduli x y)
    (hy' : BaseDigits moduli x y') {i q : Nat} (hq : moduli[i]? = some q) : y i = y' i :=
  eq_of_mul_cofactor hcoprime hone hq (hy.lt i q hq) (hy'.lt i q hq)
    ((hy.residue i q hq).trans (hy'.residue i q hq).symm)

theorem baseDigit_spec : BaseDigits moduli x (baseDigit moduli x) := by
  have hvalue {i q : Nat} (hq : moduli[i]? = some q) : baseDigit moduli x i =
      ((x : ZMod q) * (cofactor moduli i : ZMod q)⁻¹).val := by
    rw [baseDigit, List.getD_eq_getElem?_getD, hq, Option.getD_some]
  constructor
  · intro i q hq
    have hlt := hone q (List.mem_of_getElem? hq)
    have hne : NeZero q := ⟨by omega⟩
    rw [hvalue hq]
    exact ZMod.val_lt _
  · intro i q hq
    have hlt := hone q (List.mem_of_getElem? hq)
    have hne : NeZero q := ⟨by omega⟩
    have hunit : (cofactor moduli i).Coprime q := by
      rw [cofactor_eq hq]
      exact coprime_prod_div hcoprime hone (List.mem_of_getElem? hq)
    apply (ZMod.natCast_eq_natCast_iff' _ _ q).mp
    rw [hvalue hq, Nat.cast_mul, ZMod.natCast_zmod_val, mul_assoc, mul_comm _⁻¹,
      ZMod.coe_mul_inv_eq_one _ hunit, mul_one]

omit hcoprime hone in
theorem BaseDigits.mod (hy : BaseDigits moduli x y) : BaseDigits moduli (x % moduli.prod) y := by
  refine ⟨hy.lt, ?_⟩
  intro i q hq
  rw [Nat.mod_mod_of_dvd _ (List.dvd_prod (List.mem_of_getElem? hq)), hy.residue i q hq]

/-- The sum of the digits and the number differ by the quotient less the overflow. -/
theorem digitSum_eq_sub {z : Int} (hz : (x : Int) = z % moduli.prod)
    (hy : BaseDigits moduli x y) : (digitSum moduli y : Int) =
      z - moduli.prod * (z / moduli.prod - digitOverflow moduli y) := by
  have hprod := prod_pos_of_one_lt hone
  have hx : x < moduli.prod := by
    have hlt := Int.emod_lt_of_pos z (by omega : (0 : Int) < moduli.prod)
    omega
  have hmod : digitSum moduli y % moduli.prod = x := by
    have heq := digitSum_modEq hcoprime hone hy
    rw [Nat.ModEq, Nat.mod_eq_of_lt hx] at heq
    exact heq
  have hsplit := Nat.div_add_mod (digitSum moduli y) moduli.prod
  have hquotient := Int.mul_ediv_add_emod z moduli.prod
  rw [hmod] at hsplit
  rw [← hz] at hquotient
  rw [← hsplit, digitOverflow, Nat.cast_add, Nat.cast_mul]
  linarith

end Coprime

theorem prod_mul_sum_inverses {R : Type _} [CommRing R] {moduli : List Nat} {w : Nat -> R}
    (hw : forall (i q : Nat), moduli[i]? = some q -> (q : R) * w i = 1) (y : Nat -> Nat) :
    (moduli.prod : R) * ∑ i ∈ range moduli.length, y i * w i = (digitSum moduli y : R) := by
  rw [digitSum, Nat.cast_sum, mul_sum]
  apply sum_congr rfl
  intro i hi
  have hindex := mem_range.mp hi
  have hq := List.getElem?_eq_getElem hindex
  rw [Nat.cast_mul, ← cofactor_mul hq, Nat.cast_mul]
  linear_combination (y i : R) * cofactor moduli i * hw i _ hq

/-- The sum is the number divided by the product, up to the quotient and the overflow. -/
theorem prod_mul_sum_eq {R : Type _} [CommRing R] {moduli : List Nat} {w : Nat -> R}
    (hw : forall (i q : Nat), moduli[i]? = some q -> (q : R) * w i = 1)
    (hcoprime : moduli.Pairwise Nat.Coprime) (hone : forall q, q ∈ moduli -> 1 < q) {x : Nat}
    {z : Int} (hz : (x : Int) = z % moduli.prod) {y : Nat -> Nat} (hy : BaseDigits moduli x y) :
    (moduli.prod : R) * ∑ i ∈ range moduli.length, y i * w i =
      z - moduli.prod * ((z / moduli.prod - digitOverflow moduli y : Int) : R) := by
  have hsub := congrArg (Int.cast (R := R)) (digitSum_eq_sub hcoprime hone hz hy)
  rw [Int.cast_sub, Int.cast_mul, Int.cast_natCast, Int.cast_natCast] at hsub
  rw [prod_mul_sum_inverses hw, hsub]

end Foundation
end OpenFHE
