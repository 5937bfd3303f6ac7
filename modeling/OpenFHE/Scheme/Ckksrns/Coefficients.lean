import OpenFHE.Foundation.Loop
import Mathlib.Algebra.Notation.Defs
import Mathlib.Data.List.GetD

/-!
# Coefficient vectors

Vectors of coefficients, where the comparisons of the source with a
tolerance are exact.  The entry of a vector at a position outside of it counts as
zero in the lemmas; the operations themselves fail there.
-/

namespace OpenFHE
namespace Scheme
namespace Ckksrns

variable {F : Type _} [Zero F]

/-- `std::vector::resize`, which fills up with zeros. -/
def resize (v : List F) (n : Nat) : List F :=
  v.take n ++ List.replicate (n - v.length) 0

def assign (v : List F) (i : Nat) (x : F) : Option (List F) :=
  if i < v.length then some (v.set i x) else none

@[simp] theorem length_resize (v : List F) (n : Nat) : (resize v n).length = n := by
  simp only [resize, List.length_append, List.length_take, List.length_replicate]
  omega

theorem getD_resize (v : List F) (n i : Nat) :
    (resize v n).getD i 0 = if i < n then v.getD i 0 else 0 := by
  by_cases hi : i < n
  · rw [if_pos hi, resize]
    by_cases hv : i < v.length
    · rw [List.getD_append _ _ _ _ (by simp; omega), List.getD_eq_getElem?_getD,
        List.getElem?_take_of_lt hi, <- List.getD_eq_getElem?_getD]
    · rw [List.getD_append_right _ _ _ _ (by simp; omega),
        List.getD_eq_default v 0 (not_lt.mp hv)]
      simp [List.getD_eq_getElem?_getD, List.getElem?_replicate]
      split <;> rfl
  · rw [if_neg hi]
    exact List.getD_eq_default _ _ (by simp; omega)

theorem assign_spec {v : List F} {i : Nat} (x : F) (hi : i < v.length) :
    exists w, assign v i x = some w ∧ w.length = v.length ∧
      forall j, w.getD j 0 = if j = i then x else v.getD j 0 := by
  refine ⟨v.set i x, if_pos hi, List.length_set, ?_⟩
  intro j
  rw [List.getD_eq_getElem?_getD, List.getElem?_set]
  by_cases hj : j = i
  · rw [if_pos hj.symm, if_pos hi, if_pos hj]
    rfl
  · rw [if_neg (fun h => hj h.symm), if_neg hj, List.getD_eq_getElem?_getD]

theorem getElem?_eq_getD {v : List F} {i : Nat} (hi : i < v.length) :
    v[i]? = some (v.getD i 0) := by
  rw [List.getElem?_eq_getElem hi, List.getD_eq_getElem v 0 hi]

theorem getLast?_eq_getD {v : List F} {n : Nat} (hlen : v.length = n + 1) :
    v.getLast? = some (v.getD n 0) := by
  rw [List.getLast?_eq_getElem?, hlen, Nat.add_sub_cancel, getElem?_eq_getD (by omega)]

/-!
## Degree
-/

variable [DecidableEq F]

/-- The loop of `Degree`, from entry `i - 1` down. -/
def degreeLoop (coefficients : List F) : Nat -> Nat
  | 0 => 0
  | i + 1 => if coefficients.getD i 0 ≠ 0 then i else degreeLoop coefficients i

/-- `Degree`, zero for a vector of zeros. -/
def degree (coefficients : List F) : Option Nat :=
  if coefficients.length = 0 then none
  else some (degreeLoop coefficients coefficients.length)

theorem degreeLoop_spec (c : List F) (n : Nat) :
    (forall i, degreeLoop c n < i -> i < n -> c.getD i 0 = 0) ∧
      (degreeLoop c n = 0 ∨ degreeLoop c n < n ∧ c.getD (degreeLoop c n) 0 ≠ 0) := by
  induction n with
  | zero => exact ⟨fun i _ hi => absurd hi (Nat.not_lt_zero i), Or.inl rfl⟩
  | succ n ih =>
      rcases ih with ⟨habove, htop⟩
      rw [degreeLoop]
      by_cases hn : c.getD n 0 ≠ 0
      · rw [if_pos hn]
        exact ⟨fun i hlt hi => absurd hlt (by omega), Or.inr ⟨Nat.lt_succ_self n, hn⟩⟩
      · rw [if_neg hn]
        constructor
        · intro i hlt hi
          rcases Nat.lt_succ_iff_lt_or_eq.mp hi with hbelow | heq
          · exact habove i hlt hbelow
          · rw [heq]
            exact not_not.mp hn
        · cases htop with
          | inl hzero => exact Or.inl hzero
          | inr h => exact Or.inr ⟨by omega, h.2⟩

theorem degree_spec {c : List F} (hne : c ≠ []) :
    exists n, degree c = some n ∧ n < c.length ∧ (forall i, n < i -> c.getD i 0 = 0) ∧
      (n = 0 ∨ c.getD n 0 ≠ 0) := by
  have hlen : c.length ≠ 0 := fun h => hne (List.eq_nil_of_length_eq_zero h)
  rcases degreeLoop_spec c c.length with ⟨habove, htop⟩
  refine ⟨degreeLoop c c.length, if_neg hlen, ?_, ?_, ?_⟩
  · cases htop with
    | inl hzero => omega
    | inr h => exact h.1
  · intro i hi
    by_cases hbelow : i < c.length
    · exact habove i hi hbelow
    · exact List.getD_eq_default c 0 (not_lt.mp hbelow)
  · cases htop with
    | inl hzero => exact Or.inl hzero
    | inr h => exact Or.inr h.2

theorem degree_eq {c : List F} {n : Nat} (htop : c.getD n 0 ≠ 0)
    (habove : forall i, n < i -> c.getD i 0 = 0) : degree c = some n := by
  have hne : c ≠ [] := by
    rintro rfl
    exact htop rfl
  rcases degree_spec hne with ⟨d, hd, -, hzero, hlast⟩
  rw [hd]
  rcases Nat.lt_trichotomy d n with hlt | heq | hgt
  · exact absurd (hzero n hlt) htop
  · rw [heq]
  · cases hlast with
    | inl h => omega
    | inr h => exact absurd (habove d hgt) h

theorem degree_of_length {c : List F} {n : Nat} (hlen : c.length = n + 1)
    (htop : c.getD n 0 ≠ 0) : degree c = some n :=
  degree_eq htop fun _ hi => List.getD_eq_default c 0 (by omega)

theorem degree_lt_of_last {c : List F} {n : Nat} (hlen : c.length = n + 2)
    (hlast : c.getD (n + 1) 0 = 0) : exists d, degree c = some d ∧ d <= n := by
  have hne : c ≠ [] := List.ne_nil_of_length_pos (by omega)
  rcases degree_spec hne with ⟨d, hd, hlt, -, htop⟩
  refine ⟨d, hd, ?_⟩
  by_contra hgt
  have heq : d = n + 1 := by omega
  rw [heq] at htop
  cases htop with
  | inl h => omega
  | inr h => exact h hlast

end Ckksrns
end Scheme
end OpenFHE
