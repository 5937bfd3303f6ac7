import OpenFHE.Foundation.Loop
import Mathlib.Data.List.Nodup
import Mathlib.Data.List.Perm.Subperm

/-!
# Folds that update disjoint pairs of positions

A transform stage walks over a list of operations, each of which replaces the
entries at two positions of an array.  When no position occurs twice, every
entry is read before it is written, and the stage acts on all pairs at once.
-/

namespace OpenFHE
namespace Foundation

section PairFold

variable {α ι : Type _} (lo hi : ι -> Nat)

/-- The positions that a list of operations touches. -/
def pairPositions (ops : List ι) : List Nat :=
  ops.flatMap fun b => [lo b, hi b]

variable {lo hi}

theorem mem_pairPositions {ops : List ι} {i : Nat} :
    i ∈ pairPositions lo hi ops <-> exists b, b ∈ ops ∧ (i = lo b ∨ i = hi b) := by
  simp [pairPositions]

theorem getElem?_set_set_of_ne {xs : List α} {i j k : Nat} {u v : α}
    (hik : i ≠ k) (hjk : j ≠ k) : ((xs.set i u).set j v)[k]? = xs[k]? := by
  rw [List.getElem?_set_ne hjk, List.getElem?_set_ne hik]

/--
One pass over operations with distinct positions: the entries at these
positions go from `P` to `Q`, the others stay.
-/
theorem foldlM_pairs {body : List α -> ι -> Option (List α)}
    (P Q : Nat -> α -> Prop) {ops : List ι} {xs : List α}
    (hnodup : (pairPositions lo hi ops).Nodup)
    (hrange : forall i, i ∈ pairPositions lo hi ops -> i < xs.length)
    (hbody : forall b, b ∈ ops -> forall ys x y,
      ys[lo b]? = some x -> ys[hi b]? = some y -> P (lo b) x -> P (hi b) y ->
      exists u v, body ys b = some ((ys.set (lo b) u).set (hi b) v) ∧
        Q (lo b) u ∧ Q (hi b) v)
    (hP : forall i, i ∈ pairPositions lo hi ops ->
      forall x, xs[i]? = some x -> P i x) :
    exists r, ops.foldlM body xs = some r ∧ r.length = xs.length ∧
      (forall i, i ∈ pairPositions lo hi ops ->
        forall x, r[i]? = some x -> Q i x) ∧
      forall i, i ∉ pairPositions lo hi ops -> r[i]? = xs[i]? := by
  induction ops generalizing xs with
  | nil =>
      exact ⟨xs, rfl, rfl, by simp [pairPositions], by simp⟩
  | cons b ops ih =>
      have hsplit : pairPositions lo hi (b :: ops) =
          lo b :: hi b :: pairPositions lo hi ops := by
        simp [pairPositions]
      rw [hsplit] at hnodup hrange hP ⊢
      rw [List.nodup_cons, List.nodup_cons] at hnodup
      rcases hnodup with ⟨hlo, hhi, hrest⟩
      have hloLt := hrange (lo b) List.mem_cons_self
      have hhiLt := hrange (hi b) (by simp)
      have hx : xs[lo b]? = some xs[lo b] := List.getElem?_eq_getElem hloLt
      have hy : xs[hi b]? = some xs[hi b] := List.getElem?_eq_getElem hhiLt
      rcases hbody b List.mem_cons_self xs _ _ hx hy
        (hP _ List.mem_cons_self _ hx) (hP _ (by simp) _ hy) with
        ⟨u, v, hrun, hu, hv⟩
      have hother : forall i, i ≠ lo b -> i ≠ hi b ->
          ((xs.set (lo b) u).set (hi b) v)[i]? = xs[i]? := by
        intro i h₁ h₂
        exact getElem?_set_set_of_ne (Ne.symm h₁) (Ne.symm h₂)
      have hnot : forall i, i ∈ pairPositions lo hi ops ->
          i ≠ lo b ∧ i ≠ hi b := by
        intro i hi'
        constructor
        · rintro rfl
          exact hlo (List.mem_cons_of_mem _ hi')
        · rintro rfl
          exact hhi hi'
      rcases @ih ((xs.set (lo b) u).set (hi b) v) hrest
        (by
          intro i hi'
          simpa using hrange i (by simp [hi']))
        (fun c hc => hbody c (List.mem_cons_of_mem _ hc))
        (by
          intro i hi' x hix
          rw [hother i (hnot i hi').1 (hnot i hi').2] at hix
          exact hP i (by simp [hi']) x hix) with
        ⟨r, hr, hlen, hQ, hkeep⟩
      have hlohi : lo b ≠ hi b := by
        intro heq
        exact hlo (by simp [heq])
      refine ⟨r, ?_, by simpa using hlen, ?_, ?_⟩
      · rw [List.foldlM_cons, hrun]
        exact hr
      · intro i hmem x hix
        rcases List.mem_cons.mp hmem with rfl | hmem
        · rw [hkeep _ (fun h => hlo (List.mem_cons_of_mem _ h)),
            List.getElem?_set_ne (Ne.symm hlohi),
            List.getElem?_set_self hloLt] at hix
          cases hix
          exact hu
        · rcases List.mem_cons.mp hmem with rfl | hmem
          · rw [hkeep _ hhi, List.getElem?_set_self (by simpa using hhiLt)] at hix
            cases hix
            exact hv
          · exact hQ i hmem x hix
      · intro i hmem
        have hi' : i ≠ lo b ∧ i ≠ hi b ∧ i ∉ pairPositions lo hi ops := by
          simpa using hmem
        rw [hkeep i hi'.2.2, hother i hi'.1 hi'.2.1]

theorem length_pairPositions (ops : List ι) :
    (pairPositions lo hi ops).length = 2 * ops.length := by
  simp [pairPositions, List.length_flatMap]
  omega

theorem pairPositions_perm {ops : List ι} {n : Nat}
    (hcover : forall i, i < n -> i ∈ pairPositions lo hi ops)
    (hlen : 2 * ops.length <= n) :
    (List.range n).Perm (pairPositions lo hi ops) := by
  refine (List.nodup_range.subperm ?_).perm_of_length_le ?_
  · intro i hi'
    exact hcover i (List.mem_range.mp hi')
  · rw [length_pairPositions, List.length_range]
    exact hlen

/-- A pass that touches every position takes the whole array from `P` to `Q`. -/
theorem foldlM_pairs_all (lo hi : ι -> Nat) (body : List α -> ι -> Option (List α))
    (P Q : Nat -> α -> Prop) (ops : List ι) {xs : List α}
    (hcover : forall i, i < xs.length -> i ∈ pairPositions lo hi ops)
    (hlen : 2 * ops.length <= xs.length)
    (hbody : forall b, b ∈ ops -> forall ys x y,
      ys[lo b]? = some x -> ys[hi b]? = some y -> P (lo b) x -> P (hi b) y ->
      exists u v, body ys b = some ((ys.set (lo b) u).set (hi b) v) ∧
        Q (lo b) u ∧ Q (hi b) v)
    (hP : forall i x, xs[i]? = some x -> P i x) :
    exists r, ops.foldlM body xs = some r ∧ r.length = xs.length ∧
      forall i x, r[i]? = some x -> Q i x := by
  have hperm := pairPositions_perm hcover hlen
  rcases foldlM_pairs P Q (hperm.nodup_iff.mp List.nodup_range)
    (fun i hi' => List.mem_range.mp (hperm.mem_iff.mpr hi')) hbody
    (fun i _ => hP i) with ⟨r, hr, hrlen, hQ, _⟩
  refine ⟨r, hr, hrlen, ?_⟩
  intro i x hix
  have hi' : i < r.length := (List.getElem?_eq_some_iff.mp hix).1
  exact hQ i (hcover i (hrlen ▸ hi')) x hix

end PairFold

end Foundation
end OpenFHE
