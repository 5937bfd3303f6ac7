import OpenFHE.Foundation.BaseConversion
import Mathlib.Algebra.Order.Floor.Ring
import Mathlib.Data.Rat.Floor

/-!
# Scaled residues

A number is multiplied by `c` and divided by the product of coprime moduli.  Up to a multiple of
`c` the quotient is a sum over the residues of the number, and every summand is split into an
integer and a fraction.  The fractions may be added up with roundings.
-/

namespace OpenFHE
namespace Foundation

open Finset

/-! ## Sums over residues -/

section Residues

def cofactorInverse (moduli : List Nat) (i : Nat) : Nat :=
  ((cofactor moduli i : ZMod (moduli.getD i 1))⁻¹).val

/-- The integer part of the scaled inverse divided by the modulus. -/
def scaledQuotient (moduli : List Nat) (c i : Nat) : Nat :=
  c * cofactorInverse moduli i / moduli.getD i 1

def scaledRemainder (moduli : List Nat) (c i : Nat) : Nat :=
  c * cofactorInverse moduli i % moduli.getD i 1

theorem cast_div_split (a q : Nat) :
    (a : Rat) / q = ((a / q : Nat) : Rat) + ((a % q : Nat) : Rat) / q := by
  rcases Nat.eq_zero_or_pos q with rfl | hpos
  · simp
  · have hne : (q : Rat) ≠ 0 := by exact_mod_cast hpos.ne'
    have hsplit : (a : Rat) = q * ((a / q : Nat) : Rat) + ((a % q : Nat) : Rat) := by
      exact_mod_cast (Nat.div_add_mod a q).symm
    rw [hsplit, add_div, mul_div_cancel_left₀ _ hne]

theorem scaled_split (moduli : List Nat) (c i : Nat) :
    ((c * cofactorInverse moduli i : Nat) : Rat) / moduli.getD i 1 =
      scaledQuotient moduli c i + (scaledRemainder moduli c i : Rat) / moduli.getD i 1 :=
  cast_div_split _ _

variable {moduli : List Nat} (hcoprime : moduli.Pairwise Nat.Coprime)
  (hone : forall q, q ∈ moduli -> 1 < q)

include hcoprime hone

theorem isUnit_cofactor {i q : Nat} (hq : moduli[i]? = some q) :
    IsUnit (cofactor moduli i : ZMod q) := by
  rw [cofactor_eq hq]
  exact (ZMod.isUnit_iff_coprime _ _).mpr
    (coprime_prod_div hcoprime hone (List.mem_of_getElem? hq))

theorem cofactor_mul_inverse {i q : Nat} (hq : moduli[i]? = some q) :
    (cofactor moduli i : ZMod q) * cofactorInverse moduli i = 1 := by
  have hgetD : moduli.getD i 1 = q := by
    rw [List.getD_eq_getElem?_getD, hq, Option.getD_some]
  have hlt := hone q (List.mem_of_getElem? hq)
  have hne : NeZero q := ⟨by omega⟩
  rw [cofactorInverse, hgetD, ZMod.natCast_val, ZMod.cast_id]
  exact ZMod.mul_inv_of_unit _ (isUnit_cofactor hcoprime hone hq)

theorem eq_cofactorInverse {i q w : Nat} (hq : moduli[i]? = some q) (hlt : w < q)
    (hw : cofactor moduli i * w % q = 1) : w = cofactorInverse moduli i := by
  have hgetD : moduli.getD i 1 = q := by
    rw [List.getD_eq_getElem?_getD, hq, Option.getD_some]
  have hone' := hone q (List.mem_of_getElem? hq)
  have hne : NeZero q := ⟨by omega⟩
  have hmul : (cofactor moduli i : ZMod q) * w = 1 := by
    have hcast := (ZMod.natCast_eq_natCast_iff' (cofactor moduli i * w) 1 q).mpr (by
      rw [hw, Nat.mod_eq_of_lt hone'])
    rwa [Nat.cast_mul, Nat.cast_one] at hcast
  have hsame : (w : ZMod q) = cofactorInverse moduli i := by
    apply (isUnit_cofactor hcoprime hone hq).mul_left_cancel
    rw [hmul, cofactor_mul_inverse hcoprime hone hq]
  have hbound : cofactorInverse moduli i < q := by
    rw [cofactorInverse, hgetD]
    exact ZMod.val_lt _
  have hmod := (ZMod.natCast_eq_natCast_iff' _ _ _).mp hsame
  rwa [Nat.mod_eq_of_lt hlt, Nat.mod_eq_of_lt hbound] at hmod

variable {X : Int} {x : Nat -> Nat}
  (hx : forall (i q : Nat), moduli[i]? = some q -> (x i : Int) ≡ X [ZMOD q])

include hx

theorem exists_digitSum : exists v : Int,
    (digitSum moduli (fun i => x i * cofactorInverse moduli i) : Int) =
      X + v * moduli.prod := by
  have hpos : (0 : Int) < moduli.prod := by exact_mod_cast prod_pos_of_one_lt hone
  have hcast : (((X % moduli.prod).toNat : Nat) : Int) = X % moduli.prod :=
    Int.toNat_of_nonneg (Int.emod_nonneg _ hpos.ne')
  have hmod : digitSum moduli (fun i => x i * cofactorInverse moduli i) ≡
      (X % moduli.prod).toNat [MOD moduli.prod] := by
    apply (Nat.modEq_list_prod_iff hcoprime).mpr
    intro i
    have hq := List.getElem?_eq_getElem i.isLt
    have hdigit : digitSum moduli (fun i => x i * cofactorInverse moduli i) ≡ x i
        [MOD moduli.get i] := by
      apply (ZMod.natCast_eq_natCast_iff _ _ _).mp
      have hsum := (ZMod.natCast_eq_natCast_iff' _ _ _).mpr (digitSum_mod
        (y := fun i => x i * cofactorInverse moduli i) hcoprime hone hq)
      have hinverse := cofactor_mul_inverse hcoprime hone hq
      rw [mul_comm] at hinverse
      rw [List.get_eq_getElem, hsum, Nat.cast_mul, Nat.cast_mul, mul_assoc, hinverse, mul_one]
    apply hdigit.trans
    apply Int.natCast_modEq_iff.mp
    rw [hcast]
    have hdvd : ((moduli.get i : Nat) : Int) ∣ (moduli.prod : Nat) := by
      exact_mod_cast List.dvd_prod (List.getElem_mem i.isLt)
    exact (hx i _ hq).trans ((Int.mod_modEq X moduli.prod).of_dvd hdvd).symm
  have hint : (digitSum moduli (fun i => x i * cofactorInverse moduli i) : Int) ≡ X
      [ZMOD moduli.prod] := by
    have hle := Int.natCast_modEq_iff.mpr hmod
    rw [hcast] at hle
    exact hle.trans (Int.mod_modEq _ _)
  rcases hint.symm.dvd with ⟨v, hv⟩
  exact ⟨v, by linarith⟩

theorem exists_scaled (c : Nat) :
    exists v : Int, (c * X : Rat) / moduli.prod + c * v = ∑ i ∈ range moduli.length,
      (x i : Rat) * (((c * cofactorInverse moduli i : Nat) : Rat) / moduli.getD i 1) := by
  rcases exists_digitSum hcoprime hone hx with ⟨v, hv⟩
  refine ⟨v, ?_⟩
  have hpos : (0 : Rat) < moduli.prod := by exact_mod_cast prod_pos_of_one_lt hone
  have hsum : (c * X : Rat) + c * v * moduli.prod =
      c * (digitSum moduli (fun i => x i * cofactorInverse moduli i) : Rat) := by
    have hrat : ((digitSum moduli (fun i => x i * cofactorInverse moduli i) : Int) : Rat) =
        ((X + v * moduli.prod : Int) : Rat) := by
      rw [hv]
    rw [Int.cast_natCast, Int.cast_add, Int.cast_mul, Int.cast_natCast] at hrat
    rw [hrat]
    ring
  have hterm : forall i, i ∈ range moduli.length ->
      (x i : Rat) * (((c * cofactorInverse moduli i : Nat) : Rat) / moduli.getD i 1) * moduli.prod =
        c * ((x i * cofactorInverse moduli i * cofactor moduli i : Nat) : Rat) := by
    intro i hi
    have hlt := mem_range.mp hi
    have hq := List.getElem?_eq_getElem hlt
    have hmul := cofactor_mul hq
    have hmodulus := hone _ (List.mem_of_getElem? hq)
    have hne : (moduli[i] : Rat) ≠ 0 := by exact_mod_cast (by omega : moduli[i] ≠ 0)
    rw [List.getD_eq_getElem _ _ hlt, <- hmul]
    push_cast
    field_simp
  have hscaled : ((c * X : Rat) / moduli.prod + c * v) * moduli.prod =
      (∑ i ∈ range moduli.length, (x i : Rat) *
        (((c * cofactorInverse moduli i : Nat) : Rat) / moduli.getD i 1)) * moduli.prod := by
    rw [add_mul, div_mul_cancel₀ _ hpos.ne', hsum, sum_mul, sum_congr rfl hterm, <- mul_sum,
      digitSum, Nat.cast_sum]
  exact mul_right_cancel₀ hpos.ne' hscaled

end Residues

/-! ## Rounded sums -/

section Rounding

/-- A rounding of rationals that keeps the order and the integers with few leading bits. -/
structure Rounding (fl : Rat -> Rat) : Prop where
  mono : forall x y, x <= y -> fl x <= fl y
  integer : forall m e : Nat, m <= 2 ^ 53 -> e <= 512 -> fl (m * 2 ^ e) = m * 2 ^ e

theorem Rounding.id : Rounding fun x => x := by
  constructor
  · intro x y hle
    exact hle
  · intro m e _ _
    rfl

variable {fl : Rat -> Rat} (h : Rounding fl)

include h

theorem Rounding.between {x : Rat} {m e : Nat} (hm : m <= 2 ^ 53) (he : e <= 512) (hx : 0 <= x)
    (hle : x <= m * 2 ^ e) : 0 <= fl x ∧ fl x <= m * 2 ^ e := by
  have hzero : fl 0 = 0 := by
    have hint := h.integer 0 0 (Nat.zero_le _) (Nat.zero_le _)
    rwa [Nat.cast_zero, zero_mul] at hint
  constructor
  · rw [<- hzero]
    exact h.mono _ _ hx
  · rw [<- h.integer m e hm he]
    exact h.mono _ _ hle

theorem Rounding.quotient {a q : Nat} (hlt : a < q) : 0 <= fl (fl a / fl q) ∧
    fl (fl a / fl q) <= 1 := by
  have hone : fl 1 = 1 := by
    have hint := h.integer 1 0 (by decide) (Nat.zero_le _)
    rwa [Nat.cast_one, pow_zero, mul_one] at hint
  have hq : 1 <= fl q := by
    have hle : (1 : Rat) <= q := by exact_mod_cast (by omega : 1 <= q)
    rw [<- hone]
    exact h.mono _ _ hle
  have ha : 0 <= fl a ∧ fl a <= fl q := by
    constructor
    · have hzero := h.integer 0 0 (Nat.zero_le _) (Nat.zero_le _)
      rw [Nat.cast_zero, zero_mul] at hzero
      rw [<- hzero]
      exact h.mono _ _ (Nat.cast_nonneg a)
    · exact h.mono _ _ (by exact_mod_cast hlt.le)
  have hquot := h.between (show 1 <= 2 ^ 53 by decide) (Nat.zero_le 512)
    (div_nonneg ha.1 (by linarith)) (show fl a / fl q <= (1 : Nat) * 2 ^ 0 by
      rw [Nat.cast_one, pow_zero, mul_one]
      exact div_le_one_of_le₀ ha.2 (by linarith))
  rwa [Nat.cast_one, pow_zero, mul_one] at hquot

theorem Rounding.step {n e : Nat} {nu f y : Rat} (hn : n + 1 <= 2 ^ 53) (he : e <= 512)
    (hnu : 0 <= nu ∧ nu <= n * 2 ^ e) (hf : 0 <= f ∧ f <= 1) (hy : 0 <= y ∧ y <= 1 * 2 ^ e) :
    0 <= fl (nu + fl (f * fl y)) ∧ fl (nu + fl (f * fl y)) <= (n + 1 : Nat) * 2 ^ e := by
  have hword := h.between (m := 1) (by decide) he hy.1 (by rw [Nat.cast_one]; exact hy.2)
  rw [Nat.cast_one] at hword
  have hproduct := h.between (m := 1) (by decide) he (mul_nonneg hf.1 hword.1) (by
    rw [Nat.cast_one]
    calc
      f * fl y <= 1 * fl y := mul_le_mul_of_nonneg_right hf.2 hword.1
      _ <= 1 * 2 ^ e := by rw [one_mul]; exact hword.2)
  rw [Nat.cast_one] at hproduct
  apply h.between hn he (add_nonneg hnu.1 hproduct.1)
  rw [Nat.cast_add, Nat.cast_one, add_mul]
  exact add_le_add hnu.2 hproduct.2

omit h in
def roundedSum (fl : Rat -> Rat) (start : Rat) (f : Nat -> Rat) (x : Nat -> Nat) : Nat -> Rat
  | 0 => start
  | n + 1 => fl (roundedSum fl start f x n + fl (f n * fl (x n)))

omit h in
theorem roundedSum_exact (start : Rat) (f : Nat -> Rat) (x : Nat -> Nat) (n : Nat) :
    roundedSum (fun y => y) start f x n = start + ∑ i ∈ range n, (x i : Rat) * f i := by
  induction n with
  | zero => rw [roundedSum, range_zero, sum_empty, add_zero]
  | succ n ih =>
      rw [roundedSum, ih, sum_range_succ]
      ring

theorem roundedSum_between (start : Rat) (f : Nat -> Rat) (x : Nat -> Nat) {n e : Nat}
    (hn : n + 1 <= 2 ^ 53) (he : e <= 512) (hstart : 0 <= start ∧ start <= 1)
    (hf : forall i, i < n -> 0 <= f i ∧ f i <= 1) (hx : forall i, i < n -> x i <= 2 ^ e) :
    0 <= roundedSum fl start f x n ∧ roundedSum fl start f x n <= (n + 1 : Nat) * 2 ^ e := by
  induction n with
  | zero =>
      constructor
      · exact hstart.1
      · rw [Nat.zero_add, Nat.cast_one, one_mul]
        exact hstart.2.trans (one_le_pow₀ (by norm_num))
  | succ n ih =>
      have hpre := ih (by omega) (fun i hi => hf i (by omega)) (fun i hi => hx i (by omega))
      have hword : (x n : Rat) <= 1 * 2 ^ e := by
        rw [one_mul]
        exact_mod_cast hx n (Nat.lt_succ_self n)
      exact h.step hn he hpre (hf n (Nat.lt_succ_self n)) ⟨Nat.cast_nonneg _, hword⟩

end Rounding

end Foundation
end OpenFHE
