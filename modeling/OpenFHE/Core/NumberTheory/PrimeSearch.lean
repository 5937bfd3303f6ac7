import OpenFHE.Core.NativeInteger.ModularArithmetic
import OpenFHE.Foundation.Loop
import Mathlib.Data.Nat.ModEq

/-!
# Primes of an arithmetic progression

`FirstPrime` steps up from a power of two, `PreviousPrime` down from a number, both in words
of the machine.  A run of either tests a candidate at most once, so the draws of the primality
test enter as the candidates that it accepts.
-/

namespace OpenFHE
namespace Core

open Foundation NativeInteger

/-- One step up, which throws when the candidate falls below the start. -/
def growCandidate (q m c : Nat) : Option Nat :=
  if addFast c m < q then none else some (addFast c m)

/-- One step down, which throws when the candidate rises above the start. -/
def shrinkCandidate (q m c : Nat) : Option Nat :=
  if subFast c m > q then none else some (subFast c m)

def firstPrime (test : Nat -> Bool) (nBits m : Nat) : Option Nat :=
  if nBits > 60 ∨ m = 0 then none
  else
    let q := 1 <<< nBits
    let r := q % m
    let qNew := subFast (addFast q 1) r
    let qNew := if r > 0 then addFast qNew m else qNew
    whileFuel (fun c => !test c) (growCandidate q m) (2 ^ maxBits) qNew

def previousPrime (test : Nat -> Bool) (q m : Nat) : Option Nat :=
  whileFuel (fun c => !test c) (shrinkCandidate q m) (2 ^ maxBits) (subFast q m)

/-- A candidate of the progression from which a step down stays in the word. -/
structure Candidate (m c : Nat) : Prop where
  modEq : c ≡ 1 [MOD m]
  one_lt : 1 < c
  room : c + m < 2 ^ maxBits

namespace Candidate

variable {m c : Nat} (h : Candidate m c)

include h

theorem add_le {x : Nat} (hx : x ≡ 1 [MOD m]) (hlt : x < c) : x + m <= c := by
  have hdvd : m ∣ c - x := (Nat.modEq_iff_dvd' hlt.le).mp (hx.trans h.modEq.symm)
  have hle := Nat.le_of_dvd (by omega) hdvd
  omega

theorem lt : m < c := by
  have hle := h.add_le rfl h.one_lt
  omega

end Candidate

/-! ## The search downwards -/

/-- A step down throws or stays in the progression. -/
theorem shrinkCandidate_spec {q m c c' : Nat} (hroom : q + m < 2 ^ maxBits) (hle : c <= q)
    (h : shrinkCandidate q m c = some c') : c' + m = c := by
  have hword : 2 ^ maxBits = 2 ^ 64 := rfl
  unfold shrinkCandidate at h
  split at h
  · cases h
  next hnot =>
      cases Nat.lt_or_ge c m with
      | inl hlt =>
          have hwrap : subFast c m = c + (2 ^ maxBits - m) := by
            unfold subFast
            rw [word_eq (show m < 2 ^ maxBits by omega), word_eq (by omega)]
          omega
      | inr hge =>
          rw [subFast_eq hge (by omega)] at h
          have := Option.some.inj h
          omega

section Down

variable {test : Nat -> Bool} (htest : forall c, c < 2 -> test c = false) {m q p : Nat}

include htest

theorem previousPrime_candidate (hq : Candidate m q) (h : previousPrime test q m = some p) :
    Candidate m p ∧ p < q := by
  have hlt := hq.lt
  have hroom := hq.room
  have hpos : m ≠ 0 := by
    intro hzero
    have hone := hq.one_lt
    have heq := hq.modEq
    rw [hzero, Nat.modEq_zero_iff] at heq
    omega
  have hinit : q - m ≡ 1 [MOD m] ∧ q - m < q := by
    constructor
    · rw [← Nat.add_modulus_modEq_iff, Nat.sub_add_cancel hlt.le]
      exact hq.modEq
    · omega
  unfold previousPrime at h
  rw [subFast_eq hlt.le (by omega)] at h
  rcases whileFuel_invariant (fun c => c ≡ 1 [MOD m] ∧ c < q)
    (by
      rintro c c' ⟨hmod, hc⟩ _ hstep
      have hback := shrinkCandidate_spec hroom hc.le hstep
      rw [← hback, Nat.add_modulus_modEq_iff] at hmod
      exact ⟨hmod, by omega⟩) hinit h with ⟨⟨hmod, hbelow⟩, hstop⟩
  have hone : 1 < p := by
    by_contra hsmall
    simp [htest p (by omega)] at hstop
  exact ⟨⟨hmod, hone, by omega⟩, hbelow⟩

end Down

/-! ## The search upwards -/

theorem addFast_eq {a b : Nat} (h : a + b < 2 ^ maxBits) : addFast a b = a + b := by
  unfold addFast
  rw [word_eq (by omega), Nat.add_comm]

section Up

variable {test : Nat -> Bool} {nBits m accepted : Nat} (haccepted : Candidate m accepted)
  (habove : 2 ^ nBits < accepted) (htest : test accepted = true)

include haccepted

theorem growCandidate_spec {q c c' : Nat} (hc : c ≡ 1 [MOD m]) (hlt : c < accepted)
    (h : growCandidate q m c = some c') : c' = c + m ∧ c + m <= accepted := by
  have hroom := haccepted.room
  have hnext := haccepted.add_le hc hlt
  unfold growCandidate at h
  rw [addFast_eq (by omega)] at h
  split at h
  · cases h
  · exact ⟨(Option.some.inj h).symm, hnext⟩

include habove htest

theorem growCandidate_run {c p : Nat} (hc : c ≡ 1 [MOD m]) (hlow : 2 ^ nBits < c)
    (hhigh : c <= accepted)
    (h : whileFuel (fun c => !test c) (growCandidate (2 ^ nBits) m) (2 ^ maxBits) c = some p) :
    Candidate m p := by
  have hroom := haccepted.room
  have hone := Nat.one_le_two_pow (n := nBits)
  rcases whileFuel_invariant
    (fun c => c ≡ 1 [MOD m] ∧ 2 ^ nBits < c ∧ c <= accepted)
    (by
      rintro c c' ⟨hc, hlow, hhigh⟩ hrejected hgrow
      have hne : c ≠ accepted := by
        rintro rfl
        simp [htest] at hrejected
      rcases growCandidate_spec haccepted hc (by omega) hgrow with ⟨rfl, hle⟩
      exact ⟨Nat.add_modulus_modEq_iff.mpr hc, by omega, hle⟩)
    ⟨hc, hlow, hhigh⟩ h with ⟨⟨hp, hp_low, hp_high⟩, _⟩
  exact ⟨hp, by omega, by omega⟩

/--
The first prime is a candidate with room below it when the test accepts one above the
power of two.
-/
theorem firstPrime_candidate {p : Nat} (h : firstPrime test nBits m = some p) :
    Candidate m p := by
  have hroom := haccepted.room
  have hword : 2 ^ maxBits = 2 ^ 64 := rfl
  unfold firstPrime at h
  split at h
  · cases h
  next hnot =>
      rw [Nat.one_shiftLeft] at h
      dsimp only at h
      have hmod := Nat.mod_lt (2 ^ nBits) (show 0 < m by omega)
      have hle := Nat.mod_le (2 ^ nBits) m
      have hbase : 2 ^ nBits + 1 - 2 ^ nBits % m ≡ 1 [MOD m] := by
        rw [Nat.sub_add_comm hle]
        exact Nat.add_modEq_right_iff.mpr (Nat.dvd_sub_mod _)
      rw [addFast_eq (show 2 ^ nBits + 1 < 2 ^ maxBits by omega),
        subFast_eq (by omega) (by omega)] at h
      split at h
      next hpos =>
          have hnext := haccepted.add_le hbase (by omega)
          rw [addFast_eq (by omega)] at h
          exact growCandidate_run haccepted habove htest
            (Nat.add_modulus_modEq_iff.mpr hbase) (by omega) hnext h
      next hzero =>
          exact growCandidate_run haccepted habove htest hbase (by omega) (by omega) h

end Up

end Core
end OpenFHE
