import OpenFHE.Foundation.Loop
import Mathlib.Algebra.Polynomial.Eval.Degree
import Mathlib.Algebra.Polynomial.Inductions
import Mathlib.Algebra.Polynomial.Div
import Mathlib.Tactic.LinearCombination

/-!
# Polynomials as lists of coefficients

The entries of a list stand for the coefficients of a polynomial.  Products are found by
loops that append an entry at its first summand and add to it afterwards; a counter tells
how many entries there are.
-/

namespace OpenFHE
namespace Foundation

open Polynomial Finset

section Coefficients

variable {α : Type _} {R : Type _} [CommRing R] (Den : R -> α -> Prop)

/-- The entries stand for the coefficients, and there are no others. -/
structure Coefficients (P : R[X]) (cv : List α) : Prop where
  get : forall (k : Nat) x, cv[k]? = some x -> Den (P.coeff k) x
  coeff_eq_zero : forall k, cv.length <= k -> P.coeff k = 0

variable {Den} {P : R[X]} {cv : List α}

theorem Coefficients.entry (h : Coefficients Den P cv) {k : Nat} (hk : k < cv.length) :
    exists x, cv[k]? = some x ∧ Den (P.coeff k) x :=
  ⟨_, List.getElem?_eq_getElem hk, h.get k _ (List.getElem?_eq_getElem hk)⟩

theorem Coefficients.getD (h : Coefficients Den P cv) (z : α) {k : Nat} (hk : k < cv.length) :
    Den (P.coeff k) (cv.getD k z) := by
  apply h.get
  rw [List.getD_eq_getElem?_getD, List.getElem?_eq_getElem hk, Option.getD_some]

theorem Coefficients.eq_sum (h : Coefficients Den P cv) :
    P = ∑ k ∈ range cv.length, monomial k (P.coeff k) := by
  ext j
  rw [finsetSum_coeff]
  simp only [coeff_monomial]
  rw [sum_ite_eq' (range cv.length) j fun k => P.coeff k]
  split
  · rfl
  · rename_i hj
    exact h.coeff_eq_zero j (by rw [mem_range] at hj; omega)

theorem Coefficients.eval_eq (h : Coefficients Den P cv) (s : R) :
    P.eval s = ∑ k ∈ range cv.length, P.coeff k * s ^ k := by
  conv_lhs => rw [h.eq_sum]
  rw [eval_finsetSum]
  apply sum_congr rfl
  intro k _
  rw [eval_monomial]

theorem Coefficients.add_monomial (h : Coefficients Den P cv) {k : Nat} (hk : k < cv.length)
    {v : R} {x : α} (hx : Den (P.coeff k + v) x) :
    Coefficients Den (P + monomial k v) (cv.set k x) := by
  constructor
  · intro j y hy
    rw [coeff_add, coeff_monomial]
    rw [List.getElem?_set] at hy
    split at hy
    next heq =>
        cases heq
        cases hy
        rw [if_pos rfl]
        exact hx
    next hne =>
        rw [if_neg hne, add_zero]
        exact h.get j y hy
  · intro j hj
    rw [List.length_set] at hj
    rw [coeff_add, coeff_monomial, if_neg (by omega), add_zero]
    exact h.coeff_eq_zero j hj

theorem coefficients_nil : Coefficients Den (0 : R[X]) ([] : List α) := by
  constructor
  · intro k x hx
    cases hx
  · intro k _
    exact coeff_zero k

section Cons

variable {x : α}

theorem Coefficients.head (h : Coefficients Den P (x :: cv)) : Den (P.coeff 0) x :=
  h.get 0 x rfl

theorem Coefficients.tail (h : Coefficients Den P (x :: cv)) : Coefficients Den P.divX cv := by
  constructor
  · intro k y hy
    rw [coeff_divX]
    exact h.get (k + 1) y hy
  · intro k hk
    rw [coeff_divX]
    exact h.coeff_eq_zero (k + 1) (Nat.succ_le_succ hk)

theorem Coefficients.cons (h : Coefficients Den P cv) {v : R} (hx : Den v x) :
    Coefficients Den (C v + X * P) (x :: cv) := by
  constructor
  · intro k y hy
    cases k with
    | zero =>
        cases hy
        rw [coeff_add, coeff_C_zero, coeff_X_mul_zero, add_zero]
        exact hx
    | succ k =>
        rw [coeff_add, coeff_C_succ, zero_add, coeff_X_mul]
        exact h.get k y hy
  · intro k hk
    cases k with
    | zero => exact absurd hk (Nat.not_succ_le_zero _)
    | succ k =>
        rw [coeff_add, coeff_C_succ, zero_add, coeff_X_mul]
        exact h.coeff_eq_zero k (Nat.le_of_succ_le_succ hk)


theorem Coefficients.replicate_append {z : α} (hz : Den 0 z) (h : Coefficients Den P cv)
    (n : Nat) : Coefficients Den (X ^ n * P) (List.replicate n z ++ cv) := by
  induction n with
  | zero =>
      rw [pow_zero, one_mul]
      exact h
  | succ n ih =>
      have hcons := ih.cons hz
      rw [C_0, zero_add, ← mul_assoc, ← pow_succ'] at hcons
      exact hcons

theorem Coefficients.append_replicate {z : α} (hz : Den 0 z) (h : Coefficients Den P cv)
    (n : Nat) : Coefficients Den P (cv ++ List.replicate n z) := by
  constructor
  · intro k y hy
    rcases Nat.lt_or_ge k cv.length with hlow | hhigh
    · rw [List.getElem?_append_left hlow] at hy
      exact h.get k y hy
    · rw [List.getElem?_append_right hhigh] at hy
      cases List.eq_of_mem_replicate (List.mem_of_getElem? hy)
      rw [h.coeff_eq_zero k hhigh]
      exact hz
  · intro k hk
    rw [List.length_append] at hk
    exact h.coeff_eq_zero k ((Nat.le_add_right _ _).trans hk)

end Cons

theorem modByMonic_eq {F G S Q : R[X]} {d : Nat} (hone : G.coeff d = 1)
    (hG : forall k, d < k -> G.coeff k = 0) (hS : forall k, d <= k -> S.coeff k = 0)
    (hdivision : F = S + G * Q) : F %ₘ G = S := by
  nontriviality R
  have hne : G.coeff d ≠ 0 := hone.trans_ne one_ne_zero
  have hdegree : G.natDegree = d :=
    natDegree_eq_of_le_of_coeff_ne_zero (natDegree_le_iff_coeff_eq_zero.mpr hG) hne
  have hmonic : G.Monic := by
    rw [Monic, leadingCoeff, hdegree, hone]
  have hlt : S.degree < G.degree := by
    rw [degree_eq_natDegree hmonic.ne_zero, hdegree, degree_lt_iff_coeff_zero]
    exact hS
  exact (div_modByMonic_unique Q S hmonic ⟨hdivision.symm, hlt⟩).2

end Coefficients

/-!
## Accumulation
-/

section Accumulate

variable {α : Type _} (add : α -> α -> Option α)

/-- At the counter the entry is appended, below it the summand is added. -/
def accumulate (s : List α × Nat) (k : Nat) (z : α) : Option (List α × Nat) :=
  if k = s.2 then some (s.1 ++ [z], s.2 + 1)
  else do
    let c <- s.1[k]?
    let c <- add c z
    return (s.1.set k c, s.2)

variable {add} {R : Type _} [CommRing R] {Den : R -> α -> Prop}
  (hadd : forall v w x y, Den v x -> Den w y -> exists z, add x y = some z ∧ Den (v + w) z)

/-- The list of the state, with its counter. -/
structure Accumulates (Den : R -> α -> Prop) (P : R[X]) (m : Nat) (s : List α × Nat) : Prop where
  coefficients : Coefficients Den P s.1
  length_eq : s.1.length = m
  counter_eq : s.2 = m

include hadd

theorem accumulate_spec {P : R[X]} {m : Nat} {s : List α × Nat} (hs : Accumulates Den P m s)
    {k : Nat} (hk : k <= m) {v : R} {z : α} (hz : Den v z) :
    exists s', accumulate add s k z = some s' ∧
      Accumulates Den (P + monomial k v) (max m (k + 1)) s' := by
  have hlength := hs.length_eq
  rcases hk.eq_or_lt with heq | hlt
  · refine ⟨(s.1 ++ [z], s.2 + 1), ?_, ⟨?_, ?_⟩, ?_, ?_⟩
    · rw [accumulate, if_pos (heq.trans hs.counter_eq.symm)]
    · intro j x hx
      rw [coeff_add, coeff_monomial]
      rcases Nat.lt_or_ge j s.1.length with hj | hj
      · rw [List.getElem?_append_left hj] at hx
        rw [if_neg (by omega), add_zero]
        exact hs.coefficients.get j x hx
      · have hj' : j = s.1.length := by
          have hrange := (List.getElem?_eq_some_iff.mp hx).1
          rw [List.length_append, List.length_singleton] at hrange
          omega
        cases hj'
        rw [List.getElem?_concat_length] at hx
        cases hx
        rw [if_pos (by omega), hs.coefficients.coeff_eq_zero _ le_rfl, zero_add]
        exact hz
    · intro j hj
      rw [List.length_append, List.length_singleton] at hj
      rw [coeff_add, coeff_monomial, if_neg (by omega), add_zero]
      exact hs.coefficients.coeff_eq_zero j (by omega)
    · rw [List.length_append, List.length_singleton]
      omega
    · have hcounter := hs.counter_eq
      dsimp only
      omega
  · rcases hs.coefficients.entry (k := k) (by omega) with ⟨c, hc, hden⟩
    rcases hadd _ _ _ _ hden hz with ⟨c', hc', hden'⟩
    refine ⟨(s.1.set k c', s.2), ?_, hs.coefficients.add_monomial (by omega) hden', ?_, ?_⟩
    · rw [accumulate, if_neg (by rw [hs.counter_eq]; omega), hc]
      simp only [Option.bind_eq_bind, Option.bind_some, hc']
      rfl
    · rw [List.length_set]
      omega
    · rw [hs.counter_eq]
      omega

end Accumulate

/-!
## Products
-/

section Product

variable {α : Type _} (mul add : α -> α -> Option α)

def convolveRow (cv1i : α) (i : Nat) (cv2 : List α) (s : List α × Nat) :
    Option (List α × Nat) :=
  (List.range cv2.length).foldlM (fun s j => do
    let y <- cv2[j]?
    let z <- mul cv1i y
    accumulate add s (i + j) z) s

/-- All products, entry by entry of the first list. -/
def convolve (cv1 cv2 : List α) : Option (List α) :=
  ((List.range cv1.length).foldlM (fun s i => do
    let cv1i <- cv1[i]?
    convolveRow mul add cv1i i cv2 s) ([], 0)).map Prod.fst

def squareRow (cvi : α) (i : Nat) (cv : List α) (s : List α × Nat) : Option (List α × Nat) :=
  (List.range (cv.length - i)).foldlM (fun s d => do
    let y <- cv[i + d]?
    let z <- mul cvi y
    let z <- if d = 0 then some z else add z z
    accumulate add s (2 * i + d) z) s

def square (cv : List α) : Option (List α) :=
  ((List.range cv.length).foldlM (fun s i => do
    let cvi <- cv[i]?
    squareRow mul add cvi i cv s) ([], 0)).map Prod.fst

theorem convolve_two (a0 a1 b0 b1 : α) : convolve mul add [a0, a1] [b0, b1] = (do
    let c0 <- mul a0 b0
    let x <- mul a0 b1
    let y <- mul a1 b0
    let c1 <- add x y
    let c2 <- mul a1 b1
    return [c0, c1, c2]) := by
  simp [convolve, convolveRow, accumulate, List.range_succ, Option.bind_assoc, Option.map_bind]

theorem square_two (a0 a1 : α) : square mul add [a0, a1] = (do
    let c0 <- mul a0 a0
    let x <- mul a0 a1
    let c1 <- add x x
    let c2 <- mul a1 a1
    return [c0, c1, c2]) := by
  simp [square, squareRow, accumulate, List.range_succ, Option.bind_assoc, Option.map_bind]

variable {mul add} {R : Type _} [CommRing R] {Den : R -> α -> Prop}
  (hmul : forall v w x y, Den v x -> Den w y -> exists z, mul x y = some z ∧ Den (v * w) z)
  (hadd : forall v w x y, Den v x -> Den w y -> exists z, add x y = some z ∧ Den (v + w) z)
  {A B : R[X]} {cv1 cv2 : List α}

/-- The counter after `i` rows of a product with `n` columns. -/
def rowCounter (n i : Nat) : Nat := if i = 0 then 0 else n + i - 1

theorem rowCounter_succ {n i : Nat} (hn : 0 < n) : max (rowCounter n i) (i + n) =
    rowCounter n (i + 1) := by
  rw [rowCounter, rowCounter, if_neg (Nat.succ_ne_zero i)]
  split <;> omega

theorem le_rowCounter {n : Nat} (hn : 0 < n) (i : Nat) : i <= rowCounter n i := by
  unfold rowCounter
  split <;> omega

noncomputable def lowTerms (A : R[X]) (i : Nat) : R[X] := ∑ k ∈ range i, monomial k (A.coeff k)

theorem lowTerms_succ (A : R[X]) (i : Nat) :
    lowTerms A (i + 1) = lowTerms A i + monomial i (A.coeff i) :=
  sum_range_succ _ _

include hmul hadd

theorem convolveRow_spec (h2 : Coefficients Den B cv2) {P : R[X]} {m i : Nat}
    {s : List α × Nat} (hs : Accumulates Den P m s) (hi : i <= m) {v : R} {x : α} (hx : Den v x) :
    exists s', convolveRow mul add x i cv2 s = some s' ∧
      Accumulates Den (P + monomial i v * B) (max m (i + cv2.length)) s' := by
  have hrow : monomial i v * B = ∑ j ∈ range cv2.length, monomial (i + j) (v * B.coeff j) := by
    conv_lhs => rw [h2.eq_sum]
    rw [mul_sum]
    simp only [monomial_mul_monomial]
  rw [hrow]
  apply foldlM_range_spec (fun j s' => Accumulates Den
    (P + ∑ j ∈ range j, monomial (i + j) (v * B.coeff j)) (max m (i + j)) s')
  · rw [sum_range_zero, add_zero, add_zero, max_eq_left hi]
    exact hs
  · intro j hj s' hs'
    rcases h2.entry hj with ⟨y, hy, hyden⟩
    rcases hmul _ _ _ _ hx hyden with ⟨z, hz, hzden⟩
    rcases accumulate_spec hadd hs' (le_max_right _ _) hzden with ⟨s'', hs'', hspec⟩
    refine ⟨s'', ?_, ?_⟩
    · rw [hy]
      simp only [Option.bind_eq_bind, Option.bind_some, hz]
      exact hs''
    · rw [sum_range_succ, ← add_assoc P]
      rw [max_assoc, max_eq_right (by omega : i + j <= i + j + 1)] at hspec
      exact hspec

theorem convolve_spec (h1 : Coefficients Den A cv1) (h2 : Coefficients Den B cv2)
    (hne1 : 0 < cv1.length) (hne2 : 0 < cv2.length) :
    exists cvr, convolve mul add cv1 cv2 = some cvr ∧
      cvr.length = cv1.length + cv2.length - 1 ∧ Coefficients Den (A * B) cvr := by
  have hrun := foldlM_range_spec (n := cv1.length) (s := (([] : List α), 0))
    (f := fun s i => (cv1[i]?).bind fun x => convolveRow mul add x i cv2 s)
    (fun i s => Accumulates Den (lowTerms A i * B) (rowCounter cv2.length i) s)
    (by
      rw [lowTerms, sum_range_zero, zero_mul]
      exact ⟨coefficients_nil, rfl, rfl⟩)
    (by
      intro i hi s hs
      rcases h1.entry hi with ⟨x, hx, hxden⟩
      rcases convolveRow_spec hmul hadd h2 hs (le_rowCounter hne2 i) hxden with
        ⟨s', hs', hspec⟩
      refine ⟨s', ?_, ?_⟩
      · rw [hx]
        exact hs'
      · rw [rowCounter_succ hne2, ← add_mul, ← lowTerms_succ] at hspec
        exact hspec)
  rcases hrun with ⟨s, hs, hspec⟩
  refine ⟨s.1, ?_, ?_, ?_⟩
  · unfold convolve
    simp only [Option.bind_eq_bind]
    rw [hs]
    rfl
  · rw [hspec.length_eq, rowCounter, if_neg (by omega)]
    omega
  · have hproduct := hspec.coefficients
    rw [lowTerms, ← h1.eq_sum] at hproduct
    exact hproduct

def squareTerm (A : R[X]) (i d : Nat) : R :=
  if d = 0 then A.coeff i * A.coeff i
  else A.coeff i * A.coeff (i + d) + A.coeff i * A.coeff (i + d)

theorem squareRow_spec (h1 : Coefficients Den A cv1) {P : R[X]} {m i : Nat}
    {s : List α × Nat} (hs : Accumulates Den P m s) (hi : 2 * i <= m) {x : α}
    (hx : Den (A.coeff i) x) :
    exists s', squareRow mul add x i cv1 s = some s' ∧
      Accumulates Den
        (P + ∑ d ∈ range (cv1.length - i), monomial (2 * i + d) (squareTerm A i d))
        (max m (2 * i + (cv1.length - i))) s' := by
  apply foldlM_range_spec (fun d s' => Accumulates Den
    (P + ∑ d ∈ range d, monomial (2 * i + d) (squareTerm A i d)) (max m (2 * i + d)) s')
  · rw [sum_range_zero, add_zero, add_zero, max_eq_left hi]
    exact hs
  · intro d hd s' hs'
    rcases h1.entry (show i + d < cv1.length by omega) with ⟨y, hy, hyden⟩
    rcases hmul _ _ _ _ hx hyden with ⟨z, hz, hzden⟩
    have hterm : exists w, (if d = 0 then some z else add z z) = some w ∧
        Den (squareTerm A i d) w := by
      rcases eq_or_ne d 0 with hzero | hne
      · cases hzero
        exact ⟨z, if_pos rfl, by rw [squareTerm, if_pos rfl]; exact hzden⟩
      · rcases hadd _ _ _ _ hzden hzden with ⟨w, hw, hwden⟩
        exact ⟨w, by rw [if_neg hne, hw], by rw [squareTerm, if_neg hne]; exact hwden⟩
    rcases hterm with ⟨w, hw, hwden⟩
    rcases accumulate_spec hadd hs' (le_max_right _ _) hwden with ⟨s'', hs'', hspec⟩
    refine ⟨s'', ?_, ?_⟩
    · simp only [hy, Option.bind_eq_bind, Option.bind_some, hz]
      rcases eq_or_ne d 0 with hzero | hne
      · rw [if_pos hzero] at hw ⊢
        cases hw
        exact hs''
      · rw [if_neg hne] at hw ⊢
        rw [hw]
        exact hs''
    · rw [sum_range_succ, ← add_assoc P]
      rw [max_assoc, max_eq_right (by omega : 2 * i + d <= 2 * i + d + 1)] at hspec
      exact hspec

omit hmul hadd in
theorem sum_squareTerm (h1 : Coefficients Den A cv1) {i : Nat} (hi : i < cv1.length) :
    A * A - (A - lowTerms A i) * (A - lowTerms A i) +
        ∑ d ∈ range (cv1.length - i), monomial (2 * i + d) (squareTerm A i d) =
      A * A - (A - lowTerms A (i + 1)) * (A - lowTerms A (i + 1)) := by
  have hsplit : cv1.length - i = cv1.length - (i + 1) + 1 := by omega
  have htail : A - lowTerms A (i + 1) =
      ∑ d ∈ range (cv1.length - (i + 1)), monomial (i + (d + 1)) (A.coeff (i + (d + 1))) := by
    have hall := sum_range_add_sum_Ico (fun k => monomial k (A.coeff k))
      (show i + 1 <= cv1.length by omega)
    rw [← h1.eq_sum, sum_Ico_eq_sum_range] at hall
    rw [sub_eq_iff_eq_add', lowTerms]
    conv_lhs => rw [← hall]
    simp only [add_assoc, add_comm 1]
  have hrow : ∑ d ∈ range (cv1.length - i), monomial (2 * i + d) (squareTerm A i d) =
      monomial i (A.coeff i) * monomial i (A.coeff i) +
        2 * monomial i (A.coeff i) * (A - lowTerms A (i + 1)) := by
    rw [hsplit, sum_range_succ', htail, mul_sum, add_comm]
    congr 1
    · rw [squareTerm, if_pos rfl, monomial_mul_monomial, add_zero, two_mul]
    · apply sum_congr rfl
      intro d _
      rw [squareTerm, if_neg (Nat.succ_ne_zero d), mul_assoc, monomial_mul_monomial, map_add,
        (by ring : 2 * i + (d + 1) = i + (i + (d + 1)))]
      exact (two_mul _).symm
  rw [hrow, lowTerms_succ]
  ring

theorem square_spec (h1 : Coefficients Den A cv1) (hne1 : 0 < cv1.length) :
    exists cvr, square mul add cv1 = some cvr ∧ cvr.length = cv1.length + cv1.length - 1 ∧
      Coefficients Den (A * A) cvr := by
  have hrun := foldlM_range_spec (n := cv1.length) (s := (([] : List α), 0))
    (f := fun s i => (cv1[i]?).bind fun x => squareRow mul add x i cv1 s)
    (fun i s => Accumulates Den (A * A - (A - lowTerms A i) * (A - lowTerms A i))
      (rowCounter cv1.length i) s)
    (by
      rw [lowTerms, sum_range_zero, sub_zero, sub_self]
      exact ⟨coefficients_nil, rfl, rfl⟩)
    (by
      intro i hi s hs
      rcases h1.entry hi with ⟨x, hx, hxden⟩
      have hcounter : 2 * i <= rowCounter cv1.length i := by
        unfold rowCounter
        split <;> omega
      rcases squareRow_spec hmul hadd h1 hs hcounter hxden with ⟨s', hs', hspec⟩
      refine ⟨s', ?_, ?_⟩
      · rw [hx]
        exact hs'
      · rw [sum_squareTerm h1 hi, (by omega : 2 * i + (cv1.length - i) = i + cv1.length),
          rowCounter_succ hne1] at hspec
        exact hspec)
  rcases hrun with ⟨s, hs, hspec⟩
  refine ⟨s.1, ?_, ?_, ?_⟩
  · unfold square
    simp only [Option.bind_eq_bind]
    rw [hs]
    rfl
  · rw [hspec.length_eq, rowCounter, if_neg (by omega)]
  · have hsquare := hspec.coefficients
    rw [lowTerms, ← h1.eq_sum, sub_self, mul_zero, sub_zero] at hsquare
    exact hsquare

end Product

end Foundation
end OpenFHE
