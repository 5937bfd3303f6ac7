import OpenFHE.Foundation.Outcome
import Mathlib.Data.Nat.Find

/-!
# Searches along a sequence

A loop steps through a sequence until a member is found.  A step to a bad member throws.
What the loop returns, throws or whether it ends is read off the sequence.
-/

namespace OpenFHE
namespace Foundation

theorem exists_least {P : Nat -> Prop} (h : exists k, P k) :
    exists k, P k ∧ forall j, j < k -> ¬ P j := by
  classical
  exact ⟨Nat.find h, Nat.find_spec h, fun j hj => Nat.find_min h hj⟩

section Search

variable {σ : Type _} (found bad : σ -> Prop)

/-- The search comes to the member `k` of the sequence. -/
def Reaches (w : Nat -> σ) (k : Nat) : Prop :=
  forall j, j < k -> ¬ found (w j) ∧ ¬ bad (w (j + 1))

section Reaching

variable {found bad}

theorem Reaches.zero (w : Nat -> σ) : Reaches found bad w 0 :=
  fun j hj => absurd hj (Nat.not_lt_zero j)

theorem Reaches.succ {w : Nat -> σ} {k : Nat} (h : Reaches found bad w k) (hk : ¬ found (w k))
    (hnext : ¬ bad (w (k + 1))) : Reaches found bad w (k + 1) := by
  intro j hj
  cases Nat.lt_succ_iff_lt_or_eq.mp hj with
  | inl hlt => exact h j hlt
  | inr heq =>
      rw [heq]
      exact ⟨hk, hnext⟩

theorem Reaches.mono {w : Nat -> σ} {k i : Nat} (h : Reaches found bad w k) (hi : i <= k) :
    Reaches found bad w i :=
  fun j hj => h j (Nat.lt_of_lt_of_le hj hi)

end Reaching

variable [DecidablePred found] [DecidablePred bad] (next : σ -> σ) (e : RuntimeFault)

def searchStep (c : σ) : Outcome σ := if bad (next c) then .error e else .ok (next c)

/-- Step until a member is found, for at most `fuel` tests. -/
def search (fuel : Nat) (c : σ) : Outcome σ :=
  whileLoop (fun c => !decide (found c)) (searchStep bad next e) fuel c

variable {found bad next e}

section Step

variable {c : σ} (fuel : Nat)

theorem search_found (h : found c) : search found bad next e (fuel + 1) c = .ok c := by
  apply whileLoop_stop
  rw [decide_eq_true h]
  rfl

theorem search_bad (h : ¬ found c) (hbad : bad (next c)) :
    search found bad next e (fuel + 1) c = .error e := by
  unfold search
  rw [whileLoop, decide_eq_false h, searchStep, if_pos hbad]
  rfl

theorem search_step (h : ¬ found c) (hbad : ¬ bad (next c)) :
    search found bad next e (fuel + 1) c = search found bad next e fuel (next c) := by
  apply whileLoop_step
  · rw [decide_eq_false h]
    rfl
  · exact if_neg hbad

end Step

section Sequence

variable {w : Nat -> σ} (hw : forall k, w (k + 1) = next (w k))

include hw

theorem search_reaches {k : Nat} (h : Reaches found bad w k) (fuel : Nat) :
    search found bad next e (fuel + k) (w 0) = search found bad next e fuel (w k) := by
  induction k generalizing fuel with
  | zero => rfl
  | succ k ih =>
      rcases h k (Nat.lt_succ_self k) with ⟨hk, hnext⟩
      rw [hw] at hnext
      have hbefore := ih (h.mono (Nat.le_succ k)) (fuel + 1)
      rw [Nat.add_right_comm] at hbefore
      rw [← Nat.add_assoc, hbefore, search_step fuel hk hnext, hw]

theorem search_returns {k : Nat} (h : Reaches found bad w k) (hk : found (w k)) (fuel : Nat) :
    search found bad next e (fuel + 1 + k) (w 0) = .ok (w k) := by
  rw [search_reaches hw h, search_found fuel hk]

theorem search_throws {k : Nat} (h : Reaches found bad w k) (hk : ¬ found (w k))
    (hbad : bad (w (k + 1))) (fuel : Nat) :
    search found bad next e (fuel + 1 + k) (w 0) = .error e := by
  rw [hw] at hbad
  rw [search_reaches hw h, search_bad fuel hk hbad]

theorem search_stops (h : exists k, found (w k) ∨ bad (w (k + 1))) :
    exists fuel, (exists p, search found bad next e fuel (w 0) = .ok p) ∨
      search found bad next e fuel (w 0) = .error e := by
  rcases exists_least h with ⟨k, hk, hleast⟩
  have hreach : Reaches found bad w k := fun j hj => not_or.mp (hleast j hj)
  by_cases hfound : found (w k)
  · exact ⟨_, Or.inl ⟨_, search_returns hw hreach hfound 0⟩⟩
  · exact ⟨_, Or.inr (search_throws hw hreach hfound (hk.resolve_left hfound) 0)⟩

theorem search_running (h : forall k, Reaches found bad w k) (fuel : Nat) :
    search found bad next e fuel (w 0) = .error .running := by
  have hrun := search_reaches (e := e) hw (h fuel) 0
  rwa [Nat.zero_add] at hrun

theorem search_ends {fuel : Nat} (h : search found bad next e fuel (w 0) ≠ .error .running) :
    exists k, Reaches found bad w k ∧
      (found (w k) ∧ search found bad next e fuel (w 0) = .ok (w k) ∨
        ¬ found (w k) ∧ bad (w (k + 1)) ∧ search found bad next e fuel (w 0) = .error e) := by
  have hrun (k fuel : Nat) (hk : Reaches found bad w k)
      (hf : search found bad next e fuel (w k) ≠ .error .running) :
      exists i, Reaches found bad w i ∧
        (found (w i) ∧ search found bad next e fuel (w k) = .ok (w i) ∨
          ¬ found (w i) ∧ bad (w (i + 1)) ∧ search found bad next e fuel (w k) = .error e) := by
    induction fuel generalizing k with
    | zero => exact absurd rfl hf
    | succ fuel ih =>
        by_cases hfound : found (w k)
        · exact ⟨k, hk, Or.inl ⟨hfound, search_found fuel hfound⟩⟩
        · by_cases hbad : bad (w (k + 1))
          · refine ⟨k, hk, Or.inr ⟨hfound, hbad, search_bad fuel hfound ?_⟩⟩
            rwa [← hw]
          · have hstep := search_step (e := e) fuel hfound (hw k ▸ hbad)
            rw [hstep, ← hw] at hf ⊢
            exact ih (k + 1) (hk.succ hfound hbad) hf
  exact hrun 0 fuel (Reaches.zero w) h

theorem search_eq_ok {fuel : Nat} {p : σ} (h : search found bad next e fuel (w 0) = .ok p) :
    exists k, p = w k ∧ found (w k) ∧ Reaches found bad w k := by
  have hends : search found bad next e fuel (w 0) ≠ .error .running := by
    rw [h]
    intro herror
    cases herror
  rcases search_ends hw hends with ⟨k, hk, ⟨hfound, hok⟩ | ⟨_, _, herror⟩⟩
  · rw [h] at hok
    exact ⟨k, Except.ok.inj hok, hfound, hk⟩
  · rw [h] at herror
    cases herror

end Sequence

end Search

end Foundation
end OpenFHE
