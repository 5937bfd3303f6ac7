import OpenFHE.Core.NativeInteger.ModularArithmetic
import Mathlib.Data.ZMod.Basic

/-!
# Range of the Barrett operations

The reciprocal of `ComputeMu` has three bits more than the square of the modulus,
and every reduction ends with one conditional subtraction.  Products of reduced
words stay below half of its scale.  A word that `Mod` reduces may come close to
the scale, and then two subtractions can be missing.
-/

namespace OpenFHE
namespace Core
namespace NativeInteger

open Foundation

/-- `ModMulEq` with the reciprocal: `ModMul` in place. -/
def modMulEqMu (a b modulus mu : Nat) : Nat := modMulMu a b modulus mu

/-- `ModMulFastEq` with the reciprocal: `ModMulFast` in place. -/
def modMulFastEqMu (a b modulus mu : Nat) : Nat := modMulFastMu a b modulus mu

def modWithMu (a modulus mu : Nat) : Nat := modMu a modulus mu (getMSB modulus - 2)

/-- `ModEq` with the reciprocal: `Mod` in place. -/
def modEqWithMu (a modulus mu : Nat) : Nat := modMu a modulus mu (getMSB modulus - 2)

/-- No intermediate value is truncated and every operation returns the residue. -/
structure BarrettExact (m mu a b x : Nat) : Prop where
  reciprocal : mu = 2 ^ (2 * getMSB m + 3) / m
  product : getD (multD a b) = a * b
  high : rShiftD (multD a b) (getMSB m - 2) = a * b / 2 ^ (getMSB m - 2)
  estimate : getD (multD (a * b / 2 ^ (getMSB m - 2)) mu) =
    a * b / 2 ^ (getMSB m - 2) * mu
  estimateWord : getD (multD (x / 2 ^ (getMSB m - 2)) mu) = x / 2 ^ (getMSB m - 2) * mu
  modMul : modMulMu a b m mu = a * b % m
  modMulEq : modMulEqMu a b m mu = a * b % m
  modMulFast : modMulFastMu a b m mu = a * b % m
  modMulFastEq : modMulFastEqMu a b m mu = a * b % m
  mod : modWithMu x m mu = x % m
  modEq : modEqWithMu x m mu = x % m

/-- What `Mod` loses by its roundings, scaled by the bits of the second shift. -/
def modLoss (m x : Nat) : Nat :=
  barrettLoss (2 ^ (getMSB m - 2)) (2 ^ (getMSB m + 5)) m x

/-- The losses that one conditional subtraction can make up for. -/
def modBound (m : Nat) : Nat := 2 * m * 2 ^ (getMSB m + 5)

section Barrett

variable {m : Nat} (h1 : 1 < m) (h60 : m < 2 ^ 60)

include h1

theorem scale_split : 2 ^ (2 * getMSB m + 3) = 2 ^ (getMSB m - 2) * 2 ^ (getMSB m + 5) := by
  have hk2 := two_le_getMSB h1
  rw [← pow_add]
  congr 1
  omega

include h60

theorem multD_estimate (hm : m ≠ 2 ^ 59) {y : Nat} (hy : y < 2 ^ maxBits) :
    getD (multD y (2 ^ (2 * getMSB m + 3) / m)) = y * (2 ^ (2 * getMSB m + 3) / m) := by
  have hmu := barrett_mu_lt hm h1 h60
  refine getD_multD ?_
  calc
    _ < 2 ^ maxBits * 2 ^ maxBits := Nat.mul_lt_mul'' hy hmu
    _ = 2 ^ (2 * maxBits) := by rw [two_mul, pow_add]

theorem product_lt {a b : Nat} (ha : a < m) (hb : b < m) :
    a * b < 2 ^ (2 * getMSB m) ∧ a * b < 2 ^ (2 * maxBits) ∧
      a * b / 2 ^ (getMSB m - 2) < 2 ^ maxBits := by
  have hk := getMSB_le h60
  have hhi := (getMSB_bounds (by omega : 0 < m)).2
  have hx : a * b < 2 ^ (2 * getMSB m) := by
    rw [two_mul, pow_add]
    exact Nat.mul_lt_mul'' (by omega) (by omega)
  refine ⟨hx, lt_of_lt_of_le hx ?_, Nat.div_lt_of_lt_mul (lt_of_lt_of_le hx ?_)⟩
  · exact Nat.pow_le_pow_right (by decide) (by simp only [maxBits]; omega)
  · rw [← pow_add]
    exact Nat.pow_le_pow_right (by decide) (by simp only [maxBits]; omega)

theorem modMu_eq_sub (hm : m ≠ 2 ^ 59) {x : Nat} (hx : x < 2 ^ maxBits) :
    exists est, est * m <= x ∧ (x < est * m + 2 * m <-> modLoss m x < modBound m) ∧
      modMu x m (2 ^ (2 * getMSB m + 3) / m) (getMSB m - 2) =
        if x - est * m >= m then x - est * m - m else x - est * m := by
  have hk2 := two_le_getMSB h1
  have hshift : rShiftD { hi := 0, lo := x } (getMSB m - 2) =
      x / 2 ^ (getMSB m - 2) := by
    unfold rShiftD
    rw [Nat.zero_shiftLeft, Nat.or_zero, Nat.shiftRight_eq_div_pow]
    exact word_eq (lt_of_le_of_lt (Nat.div_le_self _ _) hx)
  have hquot := multD_estimate h1 h60 hm
    (lt_of_le_of_lt (Nat.div_le_self x (2 ^ (getMSB m - 2))) hx)
  have hle := barrett_estimate_le (I := 2 ^ (getMSB m - 2)) (J := 2 ^ (getMSB m + 5))
    (m := m) (x := x) (by positivity)
  have hiff := barrett_estimate_iff (I := 2 ^ (getMSB m - 2)) (J := 2 ^ (getMSB m + 5))
    (m := m) (x := x) (by positivity)
  unfold modMu modLoss modBound
  rw [← hiff]
  dsimp only
  rw [hshift, hquot, Nat.shiftRight_eq_div_pow,
    show getMSB m - 2 + 7 = getMSB m + 5 by omega]
  rw [← scale_split h1] at hle ⊢
  revert hle
  generalize x / 2 ^ (getMSB m - 2) * (2 ^ (2 * getMSB m + 3) / m) / 2 ^ (getMSB m + 5) = est
  intro hle
  have hwide : est * m < 2 ^ (2 * maxBits) :=
    lt_of_le_of_lt hle (lt_of_lt_of_le hx (Nat.pow_le_pow_right (by decide) (by decide)))
  have hsub : subFast x (word (doubleWord (est * m))) = x - est * m := by
    rw [doubleWord_eq hwide, word_eq (by omega)]
    exact subFast_eq hle hx
  refine ⟨est, hle, Iff.rfl, ?_⟩
  rw [hsub]
  have hd : x - est * m < 2 ^ maxBits := by omega
  split
  next hge => exact subFast_eq hge hd
  next => rfl

theorem modMu_iff (hm : m ≠ 2 ^ 59) {x : Nat} (hx : x < 2 ^ maxBits) :
    modMu x m (2 ^ (2 * getMSB m + 3) / m) (getMSB m - 2) = x % m <->
      modLoss m x < modBound m := by
  rcases modMu_eq_sub h1 h60 hm hx with ⟨est, hle, hiff, heq⟩
  have hmod : x % m = (x - est * m) % m := by
    rw [mul_comm] at hle
    rw [mul_comm, Nat.sub_mul_mod hle]
  rw [heq, hmod, ← hiff]
  have hbound : x < est * m + 2 * m <-> x - est * m < 2 * m := by omega
  rw [hbound]
  generalize x - est * m = d
  split
  next hge =>
      constructor
      · intro heq
        have hlt := Nat.mod_lt d (show m > 0 by omega)
        omega
      · intro hlt
        rw [Nat.mod_eq_sub_mod hge, Nat.mod_eq_of_lt (by omega)]
  next hlt =>
      rw [Nat.mod_eq_of_lt (by omega)]
      exact ⟨fun _ => by omega, fun _ => rfl⟩

theorem modMu_mod (hm : m ≠ 2 ^ 59) {x : Nat} (hx : x < 2 ^ maxBits) :
    modMu x m (2 ^ (2 * getMSB m + 3) / m) (getMSB m - 2) % m = x % m ∧
      modMu x m (2 ^ (2 * getMSB m + 3) / m) (getMSB m - 2) <= x := by
  rcases modMu_eq_sub h1 h60 hm hx with ⟨est, hle, _, heq⟩
  have hmod : x % m = (x - est * m) % m := by
    rw [mul_comm] at hle
    rw [mul_comm, Nat.sub_mul_mod hle]
  rw [heq, hmod]
  split
  next hge => exact ⟨(Nat.mod_eq_sub_mod hge).symm, by omega⟩
  next => exact ⟨rfl, by omega⟩

theorem modLoss_lt {x : Nat} (hx : x <= 2 ^ (2 * getMSB m + 2)) :
    modLoss m x < modBound m := by
  have hk2 := two_le_getMSB h1
  have hlo := (getMSB_bounds (by omega : 0 < m)).1
  refine barrettLoss_lt (by positivity) (by positivity) ?_ ?_
  · rw [← pow_succ']
    rwa [show getMSB m - 2 + 1 = getMSB m - 1 by omega]
  · rw [← scale_split h1, pow_succ _ (2 * getMSB m + 2)]
    omega

theorem barrettExact_iff {a b x mu : Nat} (ha : a < m) (hb : b < m)
    (hx : x < 2 ^ maxBits) (hmu : computeMu m = some mu) :
    BarrettExact m mu a b x <-> m ≠ 2 ^ 59 ∧ modLoss m x < modBound m := by
  constructor
  · intro h
    have hm : m ≠ 2 ^ 59 := by
      intro heq
      have hreciprocal := h.reciprocal
      rw [heq] at hmu hreciprocal
      rw [← Option.some.inj hmu] at hreciprocal
      exact absurd hreciprocal (by decide +kernel)
    refine ⟨hm, (modMu_iff h1 h60 hm hx).mp ?_⟩
    have hmod := h.mod
    rwa [h.reciprocal] at hmod
  · rintro ⟨hm, hloss⟩
    rcases product_lt h1 h60 ha hb with ⟨_, hwide, hhigh⟩
    have hmul := modMulMu_eq hm h1 h60 ha hb hmu
    have hfast := modMulFastMu_eq hm h1 h60 ha hb hmu
    have hk := getMSB_le h60
    rw [computeMu_eq hm h1 h60] at hmu
    rw [← Option.some.inj hmu] at hmul hfast ⊢
    have hmod := (modMu_iff h1 h60 hm hx).mpr hloss
    exact {
      reciprocal := rfl
      product := getD_multD hwide
      high := rShiftD_multD (by simp only [maxBits]; omega) hwide hhigh
      estimate := multD_estimate h1 h60 hm hhigh
      estimateWord := multD_estimate h1 h60 hm (lt_of_le_of_lt (Nat.div_le_self _ _) hx)
      modMul := hmul
      modMulEq := hmul
      modMulFast := hfast
      modMulFastEq := hfast
      mod := hmod
      modEq := hmod }

end Barrett

theorem barrettExact_iff_seventeen :
    BarrettExact 17 481 16 15 (2 ^ 12) <->
      17 ≠ 2 ^ 59 ∧ modLoss 17 (2 ^ 12) < modBound 17 :=
  barrettExact_iff (by decide) (by decide) (by decide) (by decide) (by decide)
    (by decide +kernel)

/--
A dividend below `2 ^ 13` that is not reduced modulo 17, and the modulus whose
reciprocal is truncated to zero.
-/
theorem not_barrettExact :
    (computeMu 17 = some 481 ∧ 8143 <= 2 ^ (2 * getMSB 17 + 3) ∧
      modWithMu 8143 17 481 ≠ 8143 % 17) ∧
    (computeMu (2 ^ 59) = some 0 ∧
      modMulFastMu (2 ^ 30) (2 ^ 33) (2 ^ 59) 0 ≠ 2 ^ 30 * 2 ^ 33 % 2 ^ 59) := by
  decide +kernel

/-!
## The power of two of 60 bits

The reciprocal of `2 ^ 59` does not fit in its word.  The product then stays
unreduced, but it keeps its residue.
-/

theorem word_cast {q : Nat} (hdvd : q ∣ 2 ^ maxBits) (x : Nat) :
    ((word x : Nat) : ZMod q) = x := by
  rw [word, ZMod.natCast_eq_natCast_iff']
  exact Nat.mod_mod_of_dvd x hdvd

theorem computeMu_two_pow : computeMu (2 ^ 59) = some 0 := by
  decide

theorem modMulFastMu_zero (x y q : Nat) :
    modMulFastMu x y q 0 =
      if word (getD (multD x y)) >= q then subFast (word (getD (multD x y))) q
      else word (getD (multD x y)) := by
  have hquot (z : Nat) : getD (multD z 0) = 0 := by
    simp [multD, getD, doubleWord, word]
  have hword (z : Nat) : word (doubleWord (z + 2 ^ (2 * maxBits))) = word z := by
    rw [word, word, doubleWord, Nat.add_mod_right]
    exact Nat.mod_mod_of_dvd z (pow_dvd_pow 2 (by decide))
  unfold modMulFastMu
  simp only [hquot, Nat.zero_shiftRight, mul_zero, show doubleWord 0 = 0 from rfl, Nat.sub_zero,
    hword]

section Product

variable {q : Nat} (hpos : 0 < q) (h60 : q < 2 ^ 60) {mu : Nat} (hmu : computeMu q = some mu)

include h60 hmu hpos

theorem modMulFastMu_lt (hne : q ≠ 2 ^ 59) {x y : Nat} (hx : x < q) (hy : y < q) :
    modMulFastMu x y q mu < q := by
  rcases Nat.lt_or_ge 1 q with h1 | h1
  · rw [modMulFastMu_eq hne h1 h60 hx hy hmu]
    exact Nat.mod_lt _ hpos
  · cases (by omega : q = 1)
    cases (by omega : x = 0)
    cases (by omega : y = 0)
    cases hmu
    decide

theorem modMulFastMu_cast {x y : Nat} (hx : x < q) (hy : y < q) :
    ((modMulFastMu x y q mu : Nat) : ZMod q) = x * y := by
  by_cases hne : q = 2 ^ 59
  · subst hne
    rw [computeMu_two_pow] at hmu
    cases hmu
    have hwide : x * y < 2 ^ (2 * maxBits) := by
      calc
        x * y < 2 ^ 59 * 2 ^ 59 := Nat.mul_lt_mul'' hx hy
        _ <= 2 ^ (2 * maxBits) := by decide
    have hcast := word_cast (q := 2 ^ 59) (pow_dvd_pow 2 (by decide)) (x * y)
    rw [modMulFastMu_zero, getD_multD hwide]
    split
    next hge =>
        rw [subFast_eq hge (word_lt _), Nat.cast_sub hge, hcast, ZMod.natCast_self, sub_zero,
          Nat.cast_mul]
    next hlt =>
        rw [hcast, Nat.cast_mul]
  · rcases Nat.lt_or_ge 1 q with h1 | h1
    · rw [modMulFastMu_eq hne h1 h60 hx hy hmu, ZMod.natCast_mod, Nat.cast_mul]
    · cases (by omega : q = 1)
      exact Subsingleton.elim _ _

theorem modMulFastMu_lt_iff {x y : Nat} (hx : x < q) (hy : y < q) :
    modMulFastMu x y q mu < q <-> (q = 2 ^ 59 -> word (x * y) < 2 ^ 60) := by
  by_cases hne : q = 2 ^ 59
  · subst hne
    rw [computeMu_two_pow] at hmu
    cases hmu
    have hwide : x * y < 2 ^ (2 * maxBits) := by
      calc
        x * y < 2 ^ 59 * 2 ^ 59 := Nat.mul_lt_mul'' hx hy
        _ <= 2 ^ (2 * maxBits) := by decide
    rw [modMulFastMu_zero, getD_multD hwide]
    split
    next hge =>
        rw [subFast_eq hge (word_lt _)]
        omega
    next hlt => omega
  · constructor
    · intro _ heq
      exact absurd heq hne
    · intro _
      exact modMulFastMu_lt hpos h60 hmu hne hx hy

end Product

end NativeInteger
end Core
end OpenFHE
