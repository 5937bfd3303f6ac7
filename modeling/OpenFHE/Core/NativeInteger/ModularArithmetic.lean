import OpenFHE.Core.NativeInteger.Word
import OpenFHE.Foundation.QuotientEstimate
import Mathlib.Tactic.Linarith
import Mathlib.Data.Nat.Prime.Basic

/-!
# Modular arithmetic on words

Every word-level operation returns the residue it is named after, as long as
the modulus leaves the headroom that its intermediate values need.
-/

namespace OpenFHE
namespace Core
namespace NativeInteger

open Foundation

/-!
## Words without wrap-around
-/

theorem word_eq {x : Nat} (hx : x < 2 ^ maxBits) : word x = x :=
  Nat.mod_eq_of_lt hx

theorem doubleWord_eq {x : Nat} (hx : x < 2 ^ (2 * maxBits)) :
    doubleWord x = x :=
  Nat.mod_eq_of_lt hx

theorem word_lt (x : Nat) : word x < 2 ^ maxBits :=
  Nat.mod_lt _ (by decide)

theorem subFast_eq {a b : Nat} (hba : b <= a) (ha : a < 2 ^ maxBits) :
    subFast a b = a - b := by
  unfold subFast
  rw [word_eq (show b < 2 ^ maxBits by omega),
    show a + (2 ^ maxBits - b) = (a - b) + 2 ^ maxBits by omega]
  unfold word
  rw [Nat.add_mod_right, Nat.mod_eq_of_lt (by omega)]

theorem modAddFast_eq {a b m : Nat} (hm : m < 2 ^ 63) (ha : a < m) (hb : b < m) :
    modAddFast a b m = (a + b) % m := by
  have hword : word (a + b) = a + b := word_eq (by simp only [maxBits]; omega)
  unfold modAddFast
  simp only [hword]
  split
  next hge =>
      rw [subFast_eq hge (by simp only [maxBits]; omega), Nat.mod_eq_sub_mod hge,
        Nat.mod_eq_of_lt (by omega)]
  next hlt =>
      rw [Nat.mod_eq_of_lt (by omega)]

theorem modSubFast_eq {a b m : Nat} (hm : m < 2 ^ 63) (ha : a < m) (hb : b < m) :
    modSubFast a b m = (a + (m - b)) % m := by
  unfold modSubFast
  split
  next hlt =>
      rw [word_eq (by simp only [maxBits]; omega),
        subFast_eq (by omega) (by simp only [maxBits]; omega),
        Nat.mod_eq_of_lt (by omega)]
      omega
  next hge =>
      rw [subFast_eq (by omega) (by simp only [maxBits]; omega),
        show a + (m - b) = (a - b) + m by omega, Nat.add_mod_right,
        Nat.mod_eq_of_lt (by omega)]

/-!
## Multiplication by a remainder
-/

theorem modMulFastEq_eq {a b m : Nat} (hm0 : 0 < m) (hm : m < 2 ^ maxBits)
    (ha : a < 2 ^ maxBits) (hb : b < 2 ^ maxBits) : modMulFastEq a b m = a * b % m := by
  have hprod : a * b < 2 ^ (2 * maxBits) := by
    rw [two_mul, pow_add]
    exact Nat.mul_lt_mul'' ha hb
  have hmod : a * b % m < 2 ^ maxBits := lt_trans (Nat.mod_lt _ hm0) hm
  unfold modMulFastEq
  rw [doubleWord_eq hprod]
  dsimp only
  split
  next hge =>
      exact word_eq hmod
  next hlt =>
      rw [word_eq (by omega), Nat.mod_eq_of_lt (by omega)]

theorem modMul_eq {a b m : Nat} (hm0 : 0 < m) (hm : m < 2 ^ maxBits) :
    modMul a b m = a * b % m := by
  have hreduce (x : Nat) : (if x >= m then x % m else x) = x % m := by
    split
    · rfl
    · exact (Nat.mod_eq_of_lt (by omega)).symm
  have hlt (x : Nat) : x % m < 2 ^ maxBits := lt_trans (Nat.mod_lt x hm0) hm
  unfold modMul
  rw [hreduce, hreduce, modMulFastEq_eq hm0 hm (hlt a) (hlt b), ← Nat.mul_mod]

/-!
## Multiplication by a precomputed constant
-/

theorem signedWord_eq {x : Int} (hlo : -2 ^ 63 <= x) (hhi : x < 2 ^ 63) :
    signedWord x = x :=
  Int.bmod_eq_of_le (by simp only [maxBits]; omega) (by simp only [maxBits]; omega)

theorem signedWord_sub (x y : Nat) :
    signedWord (subFast (word x) (word y)) = signedWord ((x : Int) - y) := by
  unfold signedWord
  have hmod : ((subFast (word x) (word y) : Nat) : Int) % (2 ^ maxBits : Nat) =
      ((x : Int) - y) % (2 ^ maxBits : Nat) := by
    simp only [subFast, word, maxBits]
    omega
  rw [← Int.emod_bmod, hmod, Int.emod_bmod]

theorem ofSigned_eq {x : Int} (hlo : 0 <= x) (hhi : x < 2 ^ maxBits) :
    ofSigned x = x.toNat := by
  unfold ofSigned
  rw [Int.emod_eq_of_lt hlo hhi]

theorem multDHi_eq {a b : Nat} (ha : a < 2 ^ maxBits) (hb : b < 2 ^ maxBits) :
    multDHi a b = a * b / 2 ^ maxBits := by
  have hprod : a * b < 2 ^ maxBits * 2 ^ maxBits := Nat.mul_lt_mul'' ha hb
  unfold multDHi multD
  rw [doubleWord_eq (by rw [two_mul, pow_add]; exact hprod),
    Nat.shiftRight_eq_div_pow]
  exact word_eq (Nat.div_lt_of_lt_mul hprod)

/-- The Shoup constant of `b`, which fits in a word when `b` is reduced. -/
def precon (b m : Nat) : Nat := b * 2 ^ maxBits / m

theorem prepModMulConst_eq {b m : Nat} (hm : m < 2 ^ maxBits) (hb : b < m) :
    prepModMulConst b m = some (precon b m) := by
  have hshift : b * 2 ^ maxBits < 2 ^ (2 * maxBits) := by
    rw [two_mul, pow_add]
    exact Nat.mul_lt_mul_of_pos_right (by omega) (by decide)
  have hquot : b * 2 ^ maxBits / m < 2 ^ maxBits :=
    Nat.div_lt_of_lt_mul (Nat.mul_lt_mul_of_pos_right hb (by decide))
  unfold prepModMulConst precon
  rw [if_neg (by omega), Nat.shiftLeft_eq, doubleWord_eq hshift, word_eq hquot]

theorem shoup_quotient {a b m : Nat} (hb : b < m)
    (ha : a < 2 ^ maxBits) : exists est, multDHi a (precon b m) = est ∧ word (est + 1) = est + 1 ∧
      est * m <= a * b ∧ a * b < est * m + 2 * m := by
  have hbInv : b * 2 ^ maxBits / m < 2 ^ maxBits :=
    Nat.div_lt_of_lt_mul (Nat.mul_lt_mul_of_pos_right hb (by decide))
  have hest := shoup_estimate (b := b) (by omega : 0 < m) ha
  refine ⟨_, multDHi_eq ha hbInv, ?_, hest⟩
  unfold precon
  revert hest
  generalize a * (b * 2 ^ maxBits / m) / 2 ^ maxBits = est
  intro hest
  refine word_eq ?_
  by_contra hge
  have hmul : a * m <= est * m := Nat.mul_le_mul_right m (by omega)
  have hle : a * b <= a * (m - 1) := Nat.mul_le_mul_left a (by omega)
  have hsplit : a * m = a * (m - 1) + a := by
    rw [← Nat.mul_succ]
    congr 1
    omega
  have ha0 : a = 0 := by omega
  have hpos : est <= est * m := Nat.le_mul_of_pos_right est (by omega)
  simp only [ha0, maxBits] at hge hest
  omega

/-- The wrapped difference, read as a signed word, is the remainder less the modulus. -/
theorem shoup_difference {a b m est : Nat} (hm : m < 2 ^ 63) (hlow : est * m <= a * b)
    (hhigh : a * b < est * m + 2 * m) :
    signedWord (subFast (word (a * b)) (word ((est + 1) * m))) =
      ((a * b - est * m : Nat) : Int) - m := by
  have hy : ((a * b : Nat) : Int) - ((est + 1) * m : Nat) =
      ((a * b - est * m : Nat) : Int) - m := by
    rw [Nat.cast_sub hlow]
    push_cast
    ring
  rw [signedWord_sub, hy]
  exact signedWord_eq (by omega) (by omega)

theorem modMulFastConst_precon {a b m : Nat} (hm : m < 2 ^ 63) (hb : b < m)
    (ha : a < 2 ^ maxBits) : modMulFastConst a b m (precon b m) = a * b % m := by
  have hm64 : m < 2 ^ maxBits := hm.trans (by decide)
  rcases shoup_quotient hb ha with ⟨est, hhi, hword, hlow, hhigh⟩
  have hdiff : a * b - est * m < 2 * m := by omega
  have hmod : a * b % m = (a * b - est * m) % m := by
    rw [mul_comm est m, Nat.sub_mul_mod (by rwa [mul_comm])]
  unfold modMulFastConst
  simp only [hhi, hword, shoup_difference hm hlow hhigh]
  rw [hmod]
  generalize a * b - est * m = d at hdiff
  split
  next hge =>
      rw [ofSigned_eq hge (by simp only [maxBits]; omega),
        Nat.mod_eq_sub_mod (by omega), Nat.mod_eq_of_lt (by omega)]
      omega
  next hlt =>
      have hsigned : ofSigned ((d : Int) - m) = 2 ^ maxBits + d - m := by
        unfold ofSigned
        simp only [maxBits]
        omega
      rw [hsigned, show 2 ^ maxBits + d - m + m = d + 2 ^ maxBits by omega]
      unfold word
      rw [Nat.add_mod_right, Nat.mod_eq_of_lt (by omega), Nat.mod_eq_of_lt (by omega)]

theorem modMulFastConst_eq {a b m : Nat} (hm : m < 2 ^ 62) (hb : b < m)
    (ha : a < 2 ^ maxBits) : modMulFastConst a b m (precon b m) = a * b % m :=
  modMulFastConst_precon (hm.trans (by decide)) hb ha

/-!
## Barrett multiplication
-/

theorem getMSB_bounds {m : Nat} (hm : 0 < m) :
    2 ^ (getMSB m - 1) <= m ∧ m < 2 ^ getMSB m := by
  unfold getMSB
  rw [if_neg (by omega)]
  exact ⟨Nat.log2_self_le (by omega), Nat.lt_log2_self⟩

theorem getMSB_le {m k : Nat} (hm : m < 2 ^ k) : getMSB m <= k := by
  unfold getMSB
  split
  next h0 =>
      exact Nat.zero_le k
  next h0 =>
      exact (Nat.log2_lt h0).mpr hm

theorem two_le_getMSB {m : Nat} (hm : 1 < m) : 2 <= getMSB m := by
  have hhi := (getMSB_bounds (by omega : 0 < m)).2
  by_contra hlt
  have hpow : 2 ^ getMSB m <= 2 ^ 1 := Nat.pow_le_pow_right (by decide) (by omega)
  omega

theorem getMSB_two_pow (k : Nat) : getMSB (2 ^ k) = k + 1 := by
  unfold getMSB
  rw [if_neg (by positivity), Nat.log2_two_pow]

theorem multD_eq {a b : Nat} (hab : a * b < 2 ^ (2 * maxBits)) :
    multD a b = { hi := a * b / 2 ^ maxBits, lo := a * b % 2 ^ maxBits } := by
  have hhi : a * b / 2 ^ maxBits < 2 ^ maxBits :=
    Nat.div_lt_of_lt_mul (by rwa [← pow_add, ← two_mul])
  unfold multD
  rw [doubleWord_eq hab, Nat.shiftRight_eq_div_pow, word_eq hhi]
  rfl

theorem getD_multD {a b : Nat} (hab : a * b < 2 ^ (2 * maxBits)) :
    getD (multD a b) = a * b := by
  have hsum := Nat.div_add_mod' (a * b) (2 ^ maxBits)
  have hlo : a * b % 2 ^ maxBits < 2 ^ maxBits := Nat.mod_lt _ (by decide)
  rw [multD_eq hab]
  unfold getD
  dsimp only
  rw [doubleWord_eq (by rw [Nat.shiftLeft_eq]; omega),
    ← Nat.shiftLeft_add_eq_or_of_lt hlo, Nat.shiftLeft_eq]
  exact hsum

theorem rShiftD_multD {a b shift : Nat} (hshift : shift <= maxBits)
    (hab : a * b < 2 ^ (2 * maxBits)) (hfit : a * b / 2 ^ shift < 2 ^ maxBits) :
    rShiftD (multD a b) shift = a * b / 2 ^ shift := by
  have hpow : 2 ^ maxBits = 2 ^ (maxBits - shift) * 2 ^ shift := by
    rw [← pow_add]
    congr 1
    omega
  have hlo : a * b % 2 ^ maxBits / 2 ^ shift < 2 ^ (maxBits - shift) := by
    refine Nat.div_lt_of_lt_mul ?_
    rw [mul_comm (2 ^ shift), ← hpow]
    exact Nat.mod_lt _ (by decide)
  rw [multD_eq hab]
  unfold rShiftD
  dsimp only
  rw [Nat.shiftRight_eq_div_pow, Nat.or_comm,
    ← Nat.shiftLeft_add_eq_or_of_lt hlo, Nat.shiftLeft_eq]
  have hdiv : a * b / 2 ^ maxBits * 2 ^ (maxBits - shift) +
      a * b % 2 ^ maxBits / 2 ^ shift = a * b / 2 ^ shift := by
    rw [← Nat.mul_add_div (by positivity : 0 < 2 ^ shift)]
    congr 1
    calc
      2 ^ shift * (a * b / 2 ^ maxBits * 2 ^ (maxBits - shift)) + a * b % 2 ^ maxBits =
          a * b / 2 ^ maxBits * (2 ^ (maxBits - shift) * 2 ^ shift) +
            a * b % 2 ^ maxBits := by ring
      _ = a * b := by rw [← hpow, Nat.div_add_mod']
  rw [hdiv, word_eq hfit]

section Barrett

variable {m : Nat} (hm : m ≠ 2 ^ 59) (h1 : 1 < m) (h60 : m < 2 ^ 60)

include hm h1 h60

/-- Only the modulus `2 ^ 59` has a quotient that does not fit in a word. -/
theorem barrett_mu_lt : 2 ^ (2 * getMSB m + 3) / m < 2 ^ maxBits := by
  have hk : getMSB m <= 60 := getMSB_le h60
  rcases getMSB_bounds (by omega : 0 < m) with ⟨hlo, hhi⟩
  have hk2 : 2 <= getMSB m := two_le_getMSB (by omega)
  have hsplit : 2 ^ (2 * getMSB m + 3) = 2 ^ (getMSB m - 1) * 2 ^ (getMSB m + 4) := by
    rw [← pow_add]
    congr 1
    omega
  refine Nat.div_lt_of_lt_mul ?_
  rw [hsplit]
  rcases Nat.lt_or_ge (getMSB m) 60 with hsmall | hlarge
  · have hpow : 2 ^ (getMSB m + 4) < 2 ^ maxBits :=
      Nat.pow_lt_pow_right (by decide) (by simp only [maxBits]; omega)
    exact Nat.mul_lt_mul_of_le_of_lt hlo hpow (by omega)
  · have heq : getMSB m = 60 := by omega
    rw [heq] at hlo ⊢
    exact Nat.mul_lt_mul_of_pos_right (by omega) (by decide)

theorem computeMu_eq : computeMu m = some (2 ^ (2 * getMSB m + 3) / m) := by
  have hk : getMSB m <= 60 := getMSB_le h60
  have hpow : 2 ^ (2 * getMSB m + 3) < 2 ^ (2 * maxBits) :=
    Nat.pow_lt_pow_right (by decide) (by simp only [maxBits]; omega)
  unfold computeMu
  rw [if_neg (by omega), Nat.one_shiftLeft, doubleWord_eq hpow,
    word_eq (barrett_mu_lt hm h1 h60)]

theorem modMulFastMu_eq {a b mu : Nat} (ha : a < m) (hb : b < m)
    (hmu : computeMu m = some mu) : modMulFastMu a b m mu = a * b % m := by
  rw [computeMu_eq hm h1 h60] at hmu
  cases hmu
  have hmuLt := barrett_mu_lt hm h1 h60
  have hk : getMSB m <= 60 := getMSB_le h60
  rcases getMSB_bounds (by omega : 0 < m) with ⟨hlo, hhi⟩
  have hk2 : 2 <= getMSB m := two_le_getMSB (by omega)
  have hx : a * b < 2 ^ getMSB m * 2 ^ getMSB m :=
    Nat.mul_lt_mul'' (by omega) (by omega)
  have hwide : a * b < 2 ^ (2 * maxBits) := by
    refine lt_of_lt_of_le hx ?_
    rw [← pow_add]
    exact Nat.pow_le_pow_right (by decide) (by simp only [maxBits]; omega)
  have hhigh : a * b / 2 ^ (getMSB m - 2) < 2 ^ maxBits := by
    refine Nat.div_lt_of_lt_mul (lt_of_lt_of_le hx ?_)
    rw [← pow_add, ← pow_add]
    exact Nat.pow_le_pow_right (by decide) (by simp only [maxBits]; omega)
  have hest := barrett_estimate (i := getMSB m - 2) (j := getMSB m + 5) (m := m)
    (x := a * b) (by rwa [show getMSB m - 2 + 1 = getMSB m - 1 by omega])
    (by omega) (by
      refine le_of_lt (lt_of_lt_of_le hx ?_)
      rw [← pow_add]
      exact Nat.pow_le_pow_right (by decide) (by omega))
  rw [show getMSB m - 2 + (getMSB m + 5) = 2 * getMSB m + 3 by omega] at hest
  have hprod : a * b / 2 ^ (getMSB m - 2) * (2 ^ (2 * getMSB m + 3) / m) <
      2 ^ (2 * maxBits) := by
    calc
      _ < 2 ^ maxBits * 2 ^ maxBits := Nat.mul_lt_mul'' hhigh hmuLt
      _ = 2 ^ (2 * maxBits) := by rw [two_mul, pow_add]
  unfold modMulFastMu
  dsimp only
  rw [getD_multD hwide, rShiftD_multD (by simp only [maxBits]; omega) hwide hhigh,
    getD_multD hprod, Nat.shiftRight_eq_div_pow,
    show getMSB m - 2 + 7 = getMSB m + 5 by omega]
  revert hest
  generalize a * b / 2 ^ (getMSB m - 2) * (2 ^ (2 * getMSB m + 3) / m) /
    2 ^ (getMSB m + 5) = est
  intro hest
  have hrest : word (doubleWord (a * b + (2 ^ (2 * maxBits) -
      doubleWord (m * est)))) = a * b - m * est := by
    rw [mul_comm est m] at hest
    rw [doubleWord_eq (x := m * est) (by omega),
      show a * b + (2 ^ (2 * maxBits) - m * est) =
        (a * b - m * est) + 2 ^ (2 * maxBits) by omega]
    unfold doubleWord
    rw [Nat.add_mod_right, Nat.mod_eq_of_lt (by omega)]
    exact word_eq (by simp only [maxBits]; omega)
  have hmod : a * b % m = (a * b - m * est) % m := by
    rw [Nat.sub_mul_mod (by rw [mul_comm]; exact hest.1)]
  rw [hrest, hmod]
  have hdiff : a * b - m * est < 2 * m := by
    rw [mul_comm m est]
    omega
  generalize a * b - m * est = d at hdiff
  split
  next hge =>
      rw [subFast_eq hge (by simp only [maxBits]; omega), Nat.mod_eq_sub_mod hge,
        Nat.mod_eq_of_lt (by omega)]
  next hlt =>
      rw [Nat.mod_eq_of_lt (by omega)]

theorem modMulMu_eq {a b mu : Nat} (ha : a < m) (hb : b < m)
    (hmu : computeMu m = some mu) : modMulMu a b m mu = a * b % m := by
  unfold modMulMu
  simp only [if_neg (show ¬ a >= m by omega), if_neg (show ¬ b >= m by omega)]
  exact modMulFastMu_eq hm h1 h60 ha hb hmu

end Barrett

end NativeInteger
end Core
end OpenFHE
