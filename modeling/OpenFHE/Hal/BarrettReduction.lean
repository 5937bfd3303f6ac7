import OpenFHE.Hal.BaseConversion

/-!
# Reduction of a double word

The quotient by the precomputed reciprocal is the true one or one less.  Only its low word is
needed, since the difference is below twice the modulus and fits in a word.
-/

namespace OpenFHE
namespace Hal

open OpenFHE.Core Foundation NativeInteger

namespace DCRTPoly

/-- `while (result >= modulus) result -= modulus`, with the number of its steps. -/
def correctionSteps (modulus fuel result : Nat) : Option (Nat × Nat) :=
  whileFuel (fun s => decide (s.1 >= modulus)) (fun s => some (subFast s.1 modulus, s.2 + 1))
    fuel (result, 0)

/-- The low word of the quotient, the loop after the subtraction, and the result. -/
structure BarrettUint128 (a modulus mu : Nat) : Prop where
  reciprocal : mu < 2 ^ 128
  quotient : highWord a mu = word (a * mu / 2 ^ 128)
  corrections : exists steps, steps <= 1 ∧
    correctionSteps modulus 2 (subFast (word a) (word (highWord a mu * modulus))) =
      some (a % modulus, steps)
  result : barrettUint128ModUint64 a modulus mu = some (a % modulus)

theorem correctionSteps_eq {modulus d : Nat} (hd : d < 2 * modulus) (hword : d < 2 ^ maxBits) :
    exists steps, steps <= 1 ∧ correctionSteps modulus 2 d = some (d % modulus, steps) := by
  cases Nat.lt_or_ge d modulus with
  | inl hlt =>
      refine ⟨0, Nat.zero_le 1, ?_⟩
      rw [Nat.mod_eq_of_lt hlt]
      exact whileFuel_stop 1 (decide_eq_false (not_le.mpr hlt))
  | inr hge =>
      refine ⟨1, le_rfl, ?_⟩
      have hsub : subFast d modulus = d - modulus := subFast_eq hge hword
      have hlt : d - modulus < modulus := by omega
      rw [Nat.mod_eq_sub_mod hge, Nat.mod_eq_of_lt hlt, ← hsub]
      rw [← hsub] at hlt
      have hstep := whileFuel_step (c := fun s : Nat × Nat => decide (s.1 >= modulus))
        (f := fun s => some (subFast s.1 modulus, s.2 + 1)) (s := (d, 0)) 1 (decide_eq_true hge) rfl
      exact hstep.trans (whileFuel_stop 0 (decide_eq_false (not_le.mpr hlt)))

theorem barrettUint128ModUint64_exact {a modulus : Nat} (ha : a < 2 ^ 128) (htwo : 2 <= modulus)
    (hlt : modulus < 2 ^ 63) : BarrettUint128 a modulus (2 ^ 128 / modulus) := by
  have hpos : 0 < modulus := Nat.zero_lt_of_lt htwo
  rcases barrett_difference ha hpos hlt with ⟨est, hle, hhigh, hdiff⟩
  have hmod : a % modulus = (a - est * modulus) % modulus := by
    rw [Nat.mul_comm, Nat.sub_mul_mod (by rwa [Nat.mul_comm])]
  have hd : a - est * modulus < 2 * modulus := by omega
  constructor
  case reciprocal => exact Nat.div_lt_self (by decide) htwo
  case quotient => exact highWord_eq a _
  case corrections =>
    rw [hdiff, hmod]
    apply correctionSteps_eq hd
    simp only [maxBits]
    omega
  case result =>
    rw [barrettUint128ModUint64_eq_highWord, if_neg hpos.ne', hdiff, hmod]

theorem barrettUint128ModUint64_exact_largest :
    BarrettUint128 (2 ^ 128 - 1) (2 ^ 63 - 1) (2 ^ 128 / (2 ^ 63 - 1)) :=
  barrettUint128ModUint64_exact (by decide) (by decide) (by decide)

end DCRTPoly

end Hal
end OpenFHE
