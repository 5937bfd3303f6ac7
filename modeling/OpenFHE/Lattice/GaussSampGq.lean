import OpenFHE.Core.NativeInteger.Digits
import Mathlib.Algebra.BigOperators.Ring.Finset
import Mathlib.Data.Int.ModEq
import Mathlib.Data.Nat.Log
import Mathlib.Data.ZMod.Basic
import Mathlib.Tactic.LinearCombination

/-!
# Sampling for the gadget

`GaussSampGq` and `GaussSampGqArbBase` fill one column of the matrix `z` for each
coefficient of the syndrome.  They differ in the distribution of the integers `zj`;
the rows are the same function of `zj` and of the digits of modulus and coefficient.
-/

namespace OpenFHE
namespace Lattice

open OpenFHE.Core Finset

/-!
## Digits
-/

/-- `std::round(std::log2(base))`: the power with half exponent is never an integer. -/
def baseDigits (base : Nat) : Nat :=
  if 2 ^ (2 * Nat.log2 base + 1) < base ^ 2 then Nat.log2 base + 1 else Nat.log2 base

/-- The loop of `GetDigits`, with the shift that it uses for every base. -/
def digitLoop (shift : Nat) : Nat -> Nat -> List Nat
  | 0, _ => []
  | k + 1, uu =>
      let uTemp := uu >>> shift
      (uu - (uTemp <<< shift)) :: digitLoop shift k uTemp

def getDigits (u base k : Nat) : List Nat := digitLoop (baseDigits base) k u

theorem digitLoop_getD (shift : Nat) {k t : Nat} (ht : t < k) (u : Nat) :
    (digitLoop shift k u).getD t 0 = u / 2 ^ (t * shift) % 2 ^ shift := by
  induction k generalizing t u with
  | zero => omega
  | succ k ih =>
      cases t with
      | zero =>
          rw [digitLoop, List.getD_cons_zero, Nat.zero_mul, pow_zero, Nat.div_one,
            Nat.shiftRight_eq_div_pow, Nat.shiftLeft_eq]
          have hsplit := Nat.div_add_mod' u (2 ^ shift)
          omega
      | succ t =>
          rw [digitLoop, List.getD_cons_succ, ih (by omega), Nat.shiftRight_eq_div_pow,
            Nat.div_div_eq_div_mul, <- pow_add, Nat.succ_mul, Nat.add_comm shift]

theorem lt_two_mul_two_pow_baseDigits {base : Nat} (hbase : 0 < base) :
    base < 2 * 2 ^ baseDigits base := by
  have hlog := Nat.lt_log2_self (n := base)
  rw [pow_succ] at hlog
  unfold baseDigits
  split
  · rw [pow_succ]
    omega
  · omega

theorem baseDigits_two_pow (w : Nat) : baseDigits (2 ^ w) = w := by
  rw [baseDigits, Nat.log2_two_pow, if_neg]
  rw [<- pow_mul, Nat.mul_comm w, not_lt]
  exact Nat.pow_le_pow_right (by decide) (by omega)

theorem isPowerOfTwo_iff {base : Nat} :
    (exists w, base = 2 ^ w) <-> base = 2 ^ baseDigits base := by
  constructor
  · rintro ⟨w, rfl⟩
    rw [baseDigits_two_pow]
  · intro h
    exact ⟨_, h⟩

theorem getDigits_getD {k t : Nat} (ht : t < k) (u base : Nat) :
    (getDigits u base k).getD t 0 =
      u / 2 ^ (t * baseDigits base) % 2 ^ baseDigits base :=
  digitLoop_getD _ ht u

/-- What the digits are worth as digits in the base. -/
def digitValue (base : Nat) (k : Nat) (digits : List Nat) : Int :=
  ∑ t ∈ range k, (base : Int) ^ t * digits.getD t 0

theorem digitValue_two_pow (w k u : Nat) :
    digitValue (2 ^ w) k (getDigits u (2 ^ w) k) = (u % (2 ^ w) ^ k : Nat) := by
  have hsum := NativeInteger.sum_digits u w k
  rw [Nat.mul_comm k, pow_mul] at hsum
  rw [<- hsum, digitValue, Nat.cast_sum]
  apply Finset.sum_congr rfl
  intro t ht
  rw [getDigits_getD (Finset.mem_range.mp ht), baseDigits_two_pow, Nat.mul_comm t, pow_mul,
    Nat.cast_mul, mul_comm]
  push_cast
  rfl

/-- A number below `2 ^ baseDigits base` is its own only digit. -/
theorem getDigits_getD_of_lt {u base k t : Nat} (hu : u < 2 ^ baseDigits base) (ht : t < k) :
    (getDigits u base k).getD t 0 = if t = 0 then u else 0 := by
  rw [getDigits_getD ht]
  split
  · subst t
    rw [Nat.zero_mul, pow_zero, Nat.div_one, Nat.mod_eq_of_lt hu]
  · rename_i hne
    have hpow : 2 ^ baseDigits base <= 2 ^ (t * baseDigits base) := by
      apply Nat.pow_le_pow_right (by decide)
      exact Nat.le_mul_of_pos_left _ (by omega)
    rw [Nat.div_eq_of_lt (by omega), Nat.zero_mod]

theorem digitValue_of_lt {u base k : Nat} (hu : u < 2 ^ baseDigits base) (hk : 0 < k) :
    digitValue base k (getDigits u base k) = u := by
  rw [digitValue, Finset.sum_eq_single 0]
  · rw [getDigits_getD_of_lt hu hk, if_pos rfl, pow_zero, one_mul]
  · intro t ht hne
    rw [getDigits_getD_of_lt hu (Finset.mem_range.mp ht), if_neg hne, Nat.cast_zero, mul_zero]
  · intro h
    exact absurd (Finset.mem_range.mpr hk) h

theorem getDigits_two_pow_baseDigits {base k t : Nat} (ht : t < k)
    (hw : 0 < baseDigits base) :
    (getDigits (2 ^ baseDigits base) base k).getD t 0 = if t = 1 then 1 else 0 := by
  rw [getDigits_getD ht]
  generalize baseDigits base = w at hw
  have hone : 1 < 2 ^ w := Nat.one_lt_two_pow hw.ne'
  rcases Nat.lt_trichotomy t 1 with hlt | rfl | hlt
  · obtain rfl : t = 0 := by omega
    rw [Nat.zero_mul, pow_zero, Nat.div_one, Nat.mod_self, if_neg (by decide)]
  · rw [Nat.one_mul, Nat.div_self (by omega), Nat.mod_eq_of_lt hone, if_pos rfl]
  · have hpow : 2 ^ w < 2 ^ (t * w) := by
      apply Nat.pow_lt_pow_right (by decide)
      exact lt_mul_of_one_lt_left hw hlt
    rw [Nat.div_eq_of_lt hpow, Nat.zero_mod, if_neg (by omega)]

theorem digitValue_two_pow_baseDigits {base k : Nat} (hk : 2 <= k)
    (hw : 0 < baseDigits base) :
    digitValue base k (getDigits (2 ^ baseDigits base) base k) = base := by
  rw [digitValue, Finset.sum_eq_single 1]
  · rw [getDigits_two_pow_baseDigits (by omega) hw, if_pos rfl]
    simp
  · intro t ht hne
    rw [getDigits_two_pow_baseDigits (Finset.mem_range.mp ht) hw, if_neg hne, Nat.cast_zero,
      mul_zero]
  · intro h
    exact absurd (Finset.mem_range.mpr (by omega)) h

/-!
## Rows
-/

/--
The entry in row `t` of a column: `zj` are the integers of `SampleC`, `v_digits` the
digits of the coefficient.  The first and the last row have their own formulas.
-/
def gaussSampRow (k base : Nat) (m_digits v_digits : List Nat) (zj : Nat -> Int) (t : Nat) :
    Int :=
  if t = 0 then base * zj 0 + m_digits.getD 0 0 * zj (k - 1) + v_digits.getD 0 0
  else if t < k - 1 then
    base * zj t - zj (t - 1) + m_digits.getD t 0 * zj (k - 1) + v_digits.getD t 0
  else m_digits.getD (k - 1) 0 * zj (k - 1) - zj (k - 2) + v_digits.getD (k - 1) 0

/-- The column of `GaussSampGq` and of `GaussSampGqArbBase` for a coefficient `v`. -/
def gaussSampGq (k modulus base v : Nat) (zj : Nat -> Int) : Nat -> Int :=
  gaussSampRow k base (getDigits modulus base k) (getDigits v base k) zj

section Rows

variable {k base : Nat} {m_digits v_digits : List Nat} {zj : Nat -> Int}

theorem sum_gaussSampRow_succ {t : Nat} (ht : t < k - 1) :
    ∑ s ∈ range (t + 1), (base : Int) ^ s * gaussSampRow k base m_digits v_digits zj s =
      base ^ (t + 1) * zj t + digitValue base (t + 1) m_digits * zj (k - 1) +
        digitValue base (t + 1) v_digits := by
  induction t with
  | zero =>
      simp only [digitValue, Nat.zero_add, Finset.sum_range_one, gaussSampRow, if_pos]
      ring
  | succ t ih =>
      rw [Finset.sum_range_succ, ih (by omega), gaussSampRow, if_neg (by omega), if_pos ht]
      simp only [digitValue, Finset.sum_range_succ _ (t + 1), Nat.add_sub_cancel]
      ring

/-- All rows together: the integers `zj` leave only the digits of modulus and syndrome. -/
theorem sum_gaussSampRow (hk : 2 <= k) :
    ∑ t ∈ range k, (base : Int) ^ t * gaussSampRow k base m_digits v_digits zj t =
      digitValue base k m_digits * zj (k - 1) + digitValue base k v_digits := by
  obtain ⟨l, rfl⟩ : exists l, k = l + 2 := ⟨k - 2, by omega⟩
  rw [Finset.sum_range_succ, sum_gaussSampRow_succ (by omega), gaussSampRow,
    if_neg (by omega), if_neg (by omega)]
  simp only [digitValue, Finset.sum_range_succ _ (l + 1), Nat.add_sub_cancel,
    show l + 2 - 1 = l + 1 by omega]
  ring

theorem gaussSampRow_last (hk : 2 <= k) (c : Int) {t : Nat} (ht : t < k) :
    gaussSampRow k base m_digits v_digits (fun i => if i = k - 1 then c else 0) t =
      m_digits.getD t 0 * c + v_digits.getD t 0 := by
  rcases Nat.eq_zero_or_pos t with rfl | hpos
  · rw [gaussSampRow, if_pos rfl, if_neg (by omega), if_pos rfl]
    ring
  · rw [gaussSampRow, if_neg (by omega)]
    split
    · rw [if_neg (by omega), if_neg (by omega), if_pos rfl]
      ring
    · obtain rfl : t = k - 1 := by omega
      rw [if_pos rfl, if_neg (by omega)]
      ring

theorem gaussSampRow_first (hk : 2 <= k) (c : Int) {t : Nat} (ht : t < k) :
    gaussSampRow k base m_digits v_digits (fun i => if i = 0 then c else 0) t =
      (if t = 0 then base * c else if t = 1 then -c else 0) + v_digits.getD t 0 := by
  rcases Nat.eq_zero_or_pos t with rfl | hpos
  · rw [gaussSampRow, if_pos rfl, if_pos rfl, if_neg (by omega), if_pos rfl]
    ring
  · have hlast : ¬ k - 1 = 0 := by omega
    rw [gaussSampRow, if_neg hpos.ne', if_neg hlast, if_neg hpos.ne']
    split
    · rw [if_neg hpos.ne']
      simp only [show t - 1 = 0 <-> t = 1 by omega]
      split <;> ring
    · obtain rfl : t = k - 1 := by omega
      simp only [show k - 2 = 0 <-> k - 1 = 1 by omega]
      split <;> ring

end Rows

/-!
## Columns
-/

def ColumnExact (k modulus base v : Nat) (zj : Nat -> Int) : Prop :=
  ∑ t ∈ range k, (base : Int) ^ t * gaussSampGq k modulus base v zj t ≡ v [ZMOD modulus]

section Columns

variable {k modulus base : Nat} (hk : 2 <= k)

include hk

theorem columnExact_iff (v : Nat) (zj : Nat -> Int) :
    ColumnExact k modulus base v zj <->
      digitValue base k (getDigits modulus base k) * zj (k - 1) +
        digitValue base k (getDigits v base k) ≡ v [ZMOD modulus] := by
  rw [ColumnExact, gaussSampGq, sum_gaussSampRow hk]

theorem columnExact_of_digits (hpow : modulus <= base ^ k)
    (h : (exists w, base = 2 ^ w) ∨ modulus < 2 ^ baseDigits base) {v : Nat}
    (hv : v < modulus) (zj : Nat -> Int) : ColumnExact k modulus base v zj := by
  rw [columnExact_iff hk]
  have hdigits : digitValue base k (getDigits modulus base k) ≡ 0 [ZMOD modulus] ∧
      digitValue base k (getDigits v base k) = v := by
    rcases h with ⟨w, rfl⟩ | hlt
    · constructor
      · rw [digitValue_two_pow]
        rcases Nat.lt_or_eq_of_le hpow with hlt | heq
        · rw [Nat.mod_eq_of_lt hlt]
          exact Int.modEq_zero_iff_dvd.mpr dvd_rfl
        · rw [<- heq, Nat.mod_self]
          rfl
      · rw [digitValue_two_pow, Nat.mod_eq_of_lt (by omega)]
    · constructor
      · rw [digitValue_of_lt hlt (by omega)]
        exact Int.modEq_zero_iff_dvd.mpr dvd_rfl
      · exact digitValue_of_lt (by omega) (by omega)
  rw [hdigits.2]
  simpa using (hdigits.1.mul_right (zj (k - 1))).add_right (v : Int)

omit hk in
theorem not_modEq_two_pow_baseDigits (hbase : 0 < base)
    (hne : base ≠ 2 ^ baseDigits base) (hle : 2 ^ baseDigits base <= modulus) :
    ¬ (base : Int) ≡ (2 ^ baseDigits base : Nat) [ZMOD modulus] := by
  intro h
  have hlt := lt_two_mul_two_pow_baseDigits hbase
  have habs := Int.eq_zero_of_abs_lt_dvd h.dvd (by rw [abs_lt]; omega)
  omega

theorem exists_not_columnExact (hbase : 2 <= base)
    (hne : ¬ exists w, base = 2 ^ w) (hle : 2 ^ baseDigits base <= modulus) :
    exists v zj, v < modulus ∧
      (forall t, t < k -> gaussSampGq k modulus base v zj t = 0 ∨
        gaussSampGq k modulus base v zj t = 1) ∧
      ¬ ColumnExact k modulus base v zj := by
  rw [isPowerOfTwo_iff] at hne
  have hw : 0 < baseDigits base := by
    have hlog : 0 < Nat.log2 base := (Nat.le_log2 (by omega)).mpr hbase
    unfold baseDigits
    split <;> omega
  have hdiff := not_modEq_two_pow_baseDigits (by omega) hne hle
  have hzero : 0 < 2 ^ baseDigits base := Nat.two_pow_pos _
  rcases Nat.lt_or_eq_of_le hle with hlt | heq
  · refine ⟨2 ^ baseDigits base, fun i => if i = k - 1 then 0 else 0, hlt, ?_, ?_⟩
    · intro t ht
      rw [gaussSampGq, gaussSampRow_last hk 0 ht, getDigits_two_pow_baseDigits ht hw]
      split <;> simp
    · rw [columnExact_iff hk, digitValue_two_pow_baseDigits hk hw, if_pos rfl, mul_zero,
        zero_add]
      exact hdiff
  · refine ⟨0, fun i => if i = k - 1 then 1 else 0, by omega, ?_, ?_⟩
    · intro t ht
      rw [gaussSampGq, gaussSampRow_last hk 1 ht, <- heq, getDigits_two_pow_baseDigits ht hw,
        getDigits_getD_of_lt hzero ht]
      split <;> simp
    · rw [columnExact_iff hk, <- heq, digitValue_two_pow_baseDigits hk hw, if_pos rfl,
        digitValue_of_lt hzero (by omega), mul_one, Nat.cast_zero, add_zero]
      intro h
      rw [<- heq] at hdiff
      apply hdiff
      exact h.trans (Int.modEq_zero_iff_dvd.mpr dvd_rfl).symm

theorem exists_saturating_column (hbase : 2 <= base) (hmodulus : 2 <= modulus)
    (h : (exists w, base = 2 ^ w) ∨ modulus < 2 ^ baseDigits base) :
    exists v zj, v < modulus ∧ gaussSampGq k modulus base v zj 0 = -(modulus + 1) ∧
      forall t, 0 < t -> t < k -> 0 <= gaussSampGq k modulus base v zj t ∧
        gaussSampGq k modulus base v zj t <= modulus := by
  rcases Nat.lt_or_ge modulus (2 ^ baseDigits base) with hlt | hge
  · refine ⟨modulus - 1, fun i => if i = k - 1 then -2 else 0, by omega, ?_, ?_⟩
    · rw [gaussSampGq, gaussSampRow_last hk _ (by omega), getDigits_getD_of_lt hlt (by omega),
        getDigits_getD_of_lt (by omega) (by omega), if_pos rfl, if_pos rfl]
      omega
    · intro t hpos ht
      rw [gaussSampGq, gaussSampRow_last hk _ ht, getDigits_getD_of_lt hlt ht,
        getDigits_getD_of_lt (by omega) ht, if_neg hpos.ne', if_neg hpos.ne']
      omega
  · have hpower : base = 2 ^ baseDigits base := by
      rcases h with h | h
      · exact isPowerOfTwo_iff.mp h
      · omega
    have hlow := Int.emod_nonneg (-(modulus + 1 : Int)) (show (base : Int) ≠ 0 by omega)
    have hhigh := Int.emod_lt_of_pos (-(modulus + 1 : Int)) (show 0 < (base : Int) by omega)
    have hsplit := Int.mul_ediv_add_emod (-(modulus + 1 : Int)) base
    generalize -(modulus + 1 : Int) % base = v at hlow hhigh hsplit
    generalize -(modulus + 1 : Int) / base = c at hsplit
    lift v to Nat using hlow
    have hdigit : v < 2 ^ baseDigits base := by omega
    refine ⟨v, fun i => if i = 0 then c else 0, by omega, ?_, ?_⟩
    · rw [gaussSampGq, gaussSampRow_first hk _ (by omega), getDigits_getD_of_lt hdigit (by omega),
        if_pos rfl, if_pos rfl]
      omega
    · intro t hpos ht
      rw [gaussSampGq, gaussSampRow_first hk _ ht, getDigits_getD_of_lt hdigit ht,
        if_neg hpos.ne', if_neg hpos.ne']
      have hc : c <= 0 := by nlinarith
      have hlarge : -(modulus : Int) <= c := by nlinarith
      split <;> constructor <;> omega

end Columns

end Lattice
end OpenFHE
