import Mathlib.Data.Int.GCD
import Mathlib.Tactic.LinearCombination
import Mathlib.Tactic.Ring

/-!
# Modular inverses

`ModInverse` divides down to the remainder one and goes back over the quotients.
The big integers are their values here.
-/

namespace OpenFHE
namespace Core
namespace BigInteger

/-- The north algorithm: the quotients until the remainder is one. -/
def northAlgorithm (first second : Nat) : Option (List Nat) :=
  if _hzero : second = 0 then none
  else
    let q := first / second
    let mod_back := first % second
    if mod_back = 1 then some [q] else (northAlgorithm second mod_back).map fun qs => q :: qs
termination_by second
decreasing_by exact Nat.mod_lt _ (Nat.pos_of_ne_zero _hzero)

/-- The south algorithm: `first` and `mod_back` after the quotients in reverse. -/
def southAlgorithm (quotient : List Nat) : Nat × Nat :=
  quotient.foldr (fun it s => (s.2, it * s.2 + s.1)) (0, 1)

/-- `ModInverse`, which throws without an inverse. -/
def modInverse (a modulus : Nat) : Option Nat :=
  if a = 0 ∨ modulus = 0 then none
  else
    let second := if a >= modulus then a % modulus else a
    if second = 1 then some second
    else
      (northAlgorithm modulus second).map fun quotient =>
        let mod_back := (southAlgorithm quotient).2
        if quotient.length % 2 = 1 then modulus - mod_back else mod_back

theorem northAlgorithm_isSome {first second : Nat} (hsecond : 1 < second)
    (hgcd : Nat.gcd first second = 1) : exists qs, northAlgorithm first second = some qs := by
  induction first, second using northAlgorithm.induct with
  | case1 first =>
      omega
  | case2 first second hzero mod_back hone =>
      refine ⟨[first / second], ?_⟩
      rw [northAlgorithm, dif_neg hzero]
      exact if_pos hone
  | case3 first second hzero mod_back hone ih =>
      have hback : Nat.gcd second mod_back = 1 := by
        rw [Nat.gcd_comm, ← Nat.gcd_rec, Nat.gcd_comm]
        exact hgcd
      have hne : mod_back ≠ 0 := by
        intro hmod
        rw [hmod, Nat.gcd_zero_right] at hback
        omega
      rcases ih (by omega) hback with ⟨qs, hqs⟩
      refine ⟨first / second :: qs, ?_⟩
      rw [northAlgorithm, dif_neg hzero]
      dsimp only
      rw [if_neg hone, hqs]
      rfl

/-- What going back over the quotients finds, with the sign of their number. -/
structure Cofactors (first second : Nat) (qs : List Nat) : Prop where
  equation : (first : Int) * (southAlgorithm qs).1 - second * (southAlgorithm qs).2 =
    if qs.length % 2 = 1 then 1 else -1
  first_lt : (southAlgorithm qs).1 < second
  back_lt : (southAlgorithm qs).2 < first

theorem northAlgorithm_cofactors (first second : Nat) :
    forall qs, northAlgorithm first second = some qs -> Cofactors first second qs := by
  induction first, second using northAlgorithm.induct with
  | case1 first =>
      intro qs hnorth
      rw [northAlgorithm, dif_pos rfl] at hnorth
      cases hnorth
  | case2 first second hzero mod_back hone =>
      intro qs hnorth
      rw [northAlgorithm, dif_neg hzero] at hnorth
      have hqs := (if_pos hone).symm.trans hnorth
      cases hqs
      have hdiv : second * (first / second) + mod_back = first := Nat.div_add_mod first second
      have hlt : mod_back < second := Nat.mod_lt _ (Nat.pos_of_ne_zero hzero)
      have hself := Nat.le_mul_of_pos_left (first / second) (Nat.pos_of_ne_zero hzero)
      constructor
      case equation =>
        change (first : Int) * (1 : Nat) - second * ((first / second * 1 + 0 : Nat) : Int) = 1
        rw [hone] at hdiv
        have hcast : (second : Int) * ((first / second : Nat) : Int) + 1 = first := by
          exact_mod_cast hdiv
        push_cast at hcast ⊢
        linear_combination -hcast
      case first_lt =>
        change 1 < second
        omega
      case back_lt =>
        change first / second * 1 + 0 < first
        omega
  | case3 first second hzero mod_back hone ih =>
      intro qs hnorth
      rw [northAlgorithm, dif_neg hzero] at hnorth
      dsimp only at hnorth
      rw [if_neg hone] at hnorth
      rcases Option.map_eq_some_iff.mp hnorth with ⟨rest, hrest, rfl⟩
      have h := ih rest hrest
      have hdiv : second * (first / second) + mod_back = first := Nat.div_add_mod first second
      have hback := h.back_lt
      have hfirst := h.first_lt
      constructor
      case equation =>
        have heq := h.equation
        have hsign : (if (first / second :: rest).length % 2 = 1 then (1 : Int) else -1) =
            -(if rest.length % 2 = 1 then 1 else -1) := by
          rw [List.length_cons]
          split <;> split <;> omega
        change (first : Int) * (southAlgorithm rest).2 -
          second * ((first / second * (southAlgorithm rest).2 + (southAlgorithm rest).1 : Nat) :
            Int) = _
        have hcast : (second : Int) * ((first / second : Nat) : Int) + mod_back = first := by
          exact_mod_cast hdiv
        rw [hsign, ← heq]
        push_cast at hcast ⊢
        linear_combination -((southAlgorithm rest).2 : Int) * hcast
      case first_lt =>
        exact hback
      case back_lt =>
        change first / second * (southAlgorithm rest).2 + (southAlgorithm rest).1 < first
        have hmul := Nat.mul_le_mul_left (first / second) hback.le
        rw [Nat.mul_comm _ second] at hmul
        omega

theorem modInverse_eq {a modulus : Nat} (ha : a ≠ 0) (hmodulus : modulus ≠ 0) :
    modInverse a modulus =
      if a % modulus = 1 then some (a % modulus)
      else (northAlgorithm modulus (a % modulus)).map fun quotient =>
        if quotient.length % 2 = 1 then modulus - (southAlgorithm quotient).2
        else (southAlgorithm quotient).2 := by
  have hred : (if a >= modulus then a % modulus else a) = a % modulus := by
    split
    next => rfl
    next hlt => rw [Nat.mod_eq_of_lt (by omega)]
  unfold modInverse
  rw [if_neg (not_or.mpr ⟨ha, hmodulus⟩)]
  dsimp only
  rw [hred]

/-- Coprime to the modulus, a number has the inverse that the code finds. -/
theorem modInverse_spec {a modulus : Nat} (hmodulus : 1 < modulus)
    (hgcd : Nat.gcd a modulus = 1) :
    exists x, modInverse a modulus = some x ∧ x < modulus ∧ a * x % modulus = 1 := by
  have hne : a ≠ 0 := by
    intro hzero
    rw [hzero, Nat.gcd_zero_left] at hgcd
    omega
  have hgcd' : Nat.gcd modulus (a % modulus) = 1 := by
    rw [Nat.gcd_comm, ← Nat.gcd_rec, Nat.gcd_comm]
    exact hgcd
  have hlt := Nat.mod_lt a (Nat.pos_of_ne_zero (by omega : modulus ≠ 0))
  rw [modInverse_eq hne (by omega)]
  by_cases hone : a % modulus = 1
  · rw [if_pos hone]
    refine ⟨_, rfl, hlt, ?_⟩
    rw [hone, Nat.mul_one, hone]
  · have htwo : 1 < a % modulus := by
      have hpos : a % modulus ≠ 0 := by
        intro hzero
        rw [hzero, Nat.gcd_zero_right] at hgcd'
        omega
      omega
    rcases northAlgorithm_isSome htwo hgcd' with ⟨qs, hqs⟩
    have h := northAlgorithm_cofactors _ _ qs hqs
    have heq := h.equation
    have hback := h.back_lt
    rw [if_neg hone, hqs]
    refine ⟨_, rfl, ?_⟩
    dsimp only
    generalize (southAlgorithm qs).1 = x at heq
    generalize (southAlgorithm qs).2 = y at heq hback ⊢
    -- the equation holds modulo the modulus, with the sign of the number of quotients
    have hmod {z : Nat} (hz : ((a % modulus : Nat) : Int) * z % modulus = 1) :
        a * z % modulus = 1 := by
      rw [← Nat.mod_mul_mod]
      exact_mod_cast hz
    split
    next hodd =>
        rw [if_pos hodd] at heq
        have hpos : 0 < y := by
          apply Nat.pos_of_ne_zero
          intro hzero
          rw [hzero, Nat.cast_zero, mul_zero, sub_zero] at heq
          have hunit := Int.eq_one_of_dvd_one (by omega) (Dvd.intro _ heq)
          omega
        refine ⟨by omega, hmod ?_⟩
        rw [Nat.cast_sub hback.le, show ((a % modulus : Nat) : Int) * (modulus - y) =
          1 + modulus * ((a % modulus : Nat) - x) by linear_combination heq,
          Int.add_mul_emod_self_left]
        exact Int.emod_eq_of_lt (by omega) (by omega)
    next heven =>
        rw [if_neg heven] at heq
        refine ⟨hback, hmod ?_⟩
        rw [show ((a % modulus : Nat) : Int) * y = 1 + modulus * x by linear_combination -heq,
          Int.add_mul_emod_self_left]
        exact Int.emod_eq_of_lt (by omega) (by omega)

end BigInteger
end Core
end OpenFHE
