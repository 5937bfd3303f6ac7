import Mathlib.Logic.Basic

/-!
# Loops over a shared store

The body of a loop changes its own state and a store that others share.  When it
throws, the loop ends and its state is lost, but the store keeps what was written.
-/

namespace OpenFHE
namespace Foundation

section SharedLoop

variable {ε σ π : Type _} (cond : σ -> Bool) (body : σ -> π -> Except ε σ × π)

/-- Run `body` while `cond` holds, for at most `fuel` tests. -/
def runWhile : Nat -> σ -> π -> Option (Except ε σ × π)
  | 0, _, _ => none
  | fuel + 1, s, p =>
      if cond s then
        match body s p with
        | (.error e, p') => some (.error e, p')
        | (.ok s', p') => runWhile fuel s' p'
      else some (.ok s, p)

/-- The states before the tests of a run. -/
inductive Visits : σ -> π -> σ -> π -> Prop where
  | here (s : σ) (p : π) : Visits s p s p
  | next {s s₁ s' : σ} {p p₁ p' : π} :
      cond s = true -> body s p = (.ok s₁, p₁) -> Visits s₁ p₁ s' p' -> Visits s p s' p'

variable {cond body}

theorem runWhile_stop {s : σ} (fuel : Nat) (hs : cond s = false) (p : π) :
    runWhile cond body (fuel + 1) s p = some (.ok s, p) := by
  simp [runWhile, hs]

theorem runWhile_step {s s' : σ} {p p' : π} (fuel : Nat) (hs : cond s = true)
    (hbody : body s p = (.ok s', p')) :
    runWhile cond body (fuel + 1) s p = runWhile cond body fuel s' p' := by
  simp [runWhile, hs, hbody]

theorem runWhile_throw {s : σ} {p p' : π} {e : ε} (fuel : Nat) (hs : cond s = true)
    (hbody : body s p = (.error e, p')) :
    runWhile cond body (fuel + 1) s p = some (.error e, p') := by
  simp [runWhile, hs, hbody]

/-- A run ends in a visited state: its test fails, or its body throws. -/
theorem runWhile_outcome {fuel : Nat} {s : σ} {p p' : π} {r : Except ε σ}
    (h : runWhile cond body fuel s p = some (r, p')) :
    exists s₁ p₁, Visits cond body s p s₁ p₁ ∧
      ((cond s₁ = false ∧ r = .ok s₁ ∧ p' = p₁) ∨
        exists e, cond s₁ = true ∧ body s₁ p₁ = (.error e, p') ∧ r = .error e) := by
  induction fuel generalizing s p with
  | zero =>
      cases h
  | succ fuel ih =>
      cases hs : cond s with
      | false =>
          rw [runWhile_stop fuel hs] at h
          cases h
          exact ⟨s, _, Visits.here s _, Or.inl ⟨hs, rfl, rfl⟩⟩
      | true =>
          rcases hbody : body s p with ⟨result, p₁⟩
          cases result with
          | error e =>
              rw [runWhile_throw fuel hs hbody] at h
              cases h
              exact ⟨s, p, Visits.here s p, Or.inr ⟨e, hs, hbody, rfl⟩⟩
          | ok s₁ =>
              rw [runWhile_step fuel hs hbody] at h
              rcases ih h with ⟨s₂, p₂, hvisits, hend⟩
              exact ⟨s₂, p₂, Visits.next hs hbody hvisits, hend⟩

theorem Visits.run {s s₁ : σ} {p p₁ : π} (hvisits : Visits cond body s p s₁ p₁) {fuel : Nat}
    {result : Except ε σ × π} (h : runWhile cond body fuel s p = some result) :
    exists fuel', runWhile cond body fuel' s₁ p₁ = some result := by
  induction hvisits generalizing fuel with
  | here s p =>
      exact ⟨fuel, h⟩
  | next hs hbody _ ih =>
      cases fuel with
      | zero =>
          cases h
      | succ fuel =>
          rw [runWhile_step fuel hs hbody] at h
          exact ih h

theorem Visits.snoc {s s₁ s' : σ} {p p₁ p' : π} (hvisits : Visits cond body s p s₁ p₁)
    (hs : cond s₁ = true) (hbody : body s₁ p₁ = (.ok s', p')) :
    Visits cond body s p s' p' := by
  induction hvisits with
  | here s p =>
      exact Visits.next hs hbody (Visits.here s' p')
  | next hcond hstep _ ih =>
      exact Visits.next hcond hstep (ih hs hbody)

theorem Visits.invariant {s s' : σ} {p p' : π} (hvisits : Visits cond body s p s' p')
    {P : σ -> π -> Prop} (hinit : P s p)
    (hbody : forall s₁ p₁ s₂ p₂, Visits cond body s p s₁ p₁ -> P s₁ p₁ -> cond s₁ = true ->
      body s₁ p₁ = (.ok s₂, p₂) -> P s₂ p₂) :
    P s' p' := by
  induction hvisits with
  | here s p =>
      exact hinit
  | next hs hstep _ ih =>
      apply ih (hbody _ _ _ _ (Visits.here _ _) hinit hs hstep)
      intro s₁ p₁ s₂ p₂ hvisit
      exact hbody s₁ p₁ s₂ p₂ (Visits.next hs hstep hvisit)

end SharedLoop

end Foundation
end OpenFHE
