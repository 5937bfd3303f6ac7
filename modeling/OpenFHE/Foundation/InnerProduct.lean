import OpenFHE.Foundation.Loop
import OpenFHE.Foundation.Negacyclic
import Mathlib.Algebra.BigOperators.Group.Finset.Basic

/-!
# Inner products of lists

Lists of elements that stand for the entries of two families over a commutative ring have
an inner product that stands for the sum of the products.
-/

namespace OpenFHE
namespace Foundation

open Finset

section InnerProduct

variable {α : Type _} (mul add : α -> α -> Option α)

def innerProduct : List α -> List α -> Option α
  | x :: xs, y :: ys => do
      let r <- mul x y
      (xs.zip ys).foldlM (fun r e => do
        let z <- mul e.1 e.2
        add r z) r
  | _, _ => none

variable {mul add} {R : Type _} [CommRing R] {Den : R -> α -> Prop}
  (hmul : forall v w x y, Den v x -> Den w y -> exists z, mul x y = some z ∧ Den (v * w) z)
  (hadd : forall v w x y, Den v x -> Den w y -> exists z, add x y = some z ∧ Den (v + w) z)

include hmul hadd

theorem innerProduct_spec {v w : Nat -> R} {xs ys : List α} (hne : 0 < xs.length)
    (hlength : xs.length = ys.length) (hx : forall (j : Nat) x, xs[j]? = some x -> Den (v j) x)
    (hy : forall (j : Nat) y, ys[j]? = some y -> Den (w j) y) :
    exists z, innerProduct mul add xs ys = some z ∧
      Den (∑ j ∈ range xs.length, v j * w j) z := by
  cases xs with
  | nil => exact absurd hne (Nat.lt_irrefl 0)
  | cons x xs =>
      cases ys with
      | nil => cases hlength
      | cons y ys =>
          have hlength' : xs.length = ys.length := Nat.succ.inj hlength
          rcases hmul _ _ _ _ (hx 0 x rfl) (hy 0 y rfl) with ⟨r, hr, hden⟩
          have hfold : exists z, (xs.zip ys).foldlM (fun r e =>
              (mul e.1 e.2).bind fun z => add r z) r = some z ∧
              Den (∑ j ∈ range ((xs.zip ys).length + 1), v j * w j) z := by
            apply foldlM_spec (fun i r => Den (∑ j ∈ range (i + 1), v j * w j) r)
            · rwa [zero_add, sum_range_one]
            · intro i e he r hr
              rcases List.getElem?_zip_eq_some.mp he with ⟨hfirst, hsecond⟩
              rcases hmul _ _ _ _ (hx (i + 1) e.1 hfirst) (hy (i + 1) e.2 hsecond) with
                ⟨z, hz, hzden⟩
              rcases hadd _ _ _ _ hr hzden with ⟨r', hr', hrden⟩
              refine ⟨r', ?_, ?_⟩
              · rw [hz, Option.bind_some, hr']
              · rwa [sum_range_succ]
          rcases hfold with ⟨z, hz, hzden⟩
          refine ⟨z, ?_, ?_⟩
          · rw [innerProduct, hr]
            exact hz
          · rwa [List.length_zip, ← hlength', Nat.min_self] at hzden

end InnerProduct

section Recomposition

variable {R : Type _} [CommRing R]

theorem sum_mul_gadget {n : Nat} {d g : Nat -> R} {x : R} (s : R)
    (hx : ∑ j ∈ range n, g j * d j = x) : ∑ j ∈ range n, d j * (g j * s) = x * s := by
  rw [← hx, sum_mul]
  apply sum_congr rfl
  intro j _
  ring

open Polynomial

theorem negacyclicMul_congr {n : Nat} {a a' b b' : Nat -> R} (ha : forall i, i < n -> a i = a' i)
    (hb : forall i, i < n -> b i = b' i) : negacyclicMul n a b = negacyclicMul n a' b' := by
  unfold negacyclicMul
  rw [coeffPoly_congr ha, coeffPoly_congr hb]

theorem sum_negacyclicMul (n m : Nat) (d : Nat -> Nat -> R) (g : Nat -> R) (s : Nat -> R)
    (r : Nat) : ∑ j ∈ range m, negacyclicMul n (d j) (fun i => g j * s i) r =
      negacyclicMul n (fun i => ∑ j ∈ range m, g j * d j i) s r := by
  have hcoeff : coeffPoly n (fun i => ∑ j ∈ range m, g j * d j i) =
      ∑ j ∈ range m, C (g j) * coeffPoly n (d j) := by
    unfold coeffPoly
    simp only [map_sum, sum_mul, mul_sum, map_mul]
    rw [sum_comm]
    simp only [mul_assoc]
  have hscaled (j : Nat) : coeffPoly n (fun i => g j * s i) = C (g j) * coeffPoly n s := by
    unfold coeffPoly
    rw [mul_sum]
    apply sum_congr rfl
    intro i _
    rw [map_mul, mul_assoc]
  have hproducts : ∑ j ∈ range m, coeffPoly n (d j) * coeffPoly n (fun i => g j * s i) =
      (∑ j ∈ range m, C (g j) * coeffPoly n (d j)) * coeffPoly n s := by
    rw [sum_mul]
    apply sum_congr rfl
    intro j _
    rw [hscaled j]
    ring
  have hreduced : ∑ j ∈ range m, coeffPoly n (d j) * coeffPoly n (fun i => g j * s i) %ₘ
      (X ^ n + 1) =
        (∑ j ∈ range m, coeffPoly n (d j) * coeffPoly n fun i => g j * s i) %ₘ (X ^ n + 1) := by
    simp only [← modByMonicHom_apply]
    exact (map_sum _ _ _).symm
  unfold negacyclicMul
  rw [← finsetSum_coeff, hreduced, hproducts, hcoeff]

end Recomposition

end Foundation
end OpenFHE
