import OpenFHE.Core.NativeInteger.Word
import OpenFHE.Foundation.Outcome
import OpenFHE.Foundation.CoefficientList

/-!
# Loops over coefficients

Vectors of modular integers and vectors of `int` are multiplied and divided by the same loops,
which differ in what adds a product and in what subtracts one.
-/

namespace OpenFHE
namespace Core

open Foundation NativeInteger Polynomial Finset

section Loops

variable {α : Type}

def productStep (mulAdd : α -> α -> α -> α) (a b : List α) (i : Nat) (result : List α) (j : Nat) :
    Outcome (List α) := do
  let x <- entry a i
  let y <- entry b j
  let k := usint ((i + j : Nat) : Int)
  let z <- entry result k
  store result k (mulAdd z x y)

def productLoop (mulAdd : α -> α -> α -> α) (zero : α) (a b : List α) : Outcome (List α) := do
  let degreeA := usint a.length
  let degreeB := usint b.length
  let degreeResultant := usint ((degreeA : Int) + degreeB - 1)
  (List.range degreeA).foldlM (fun result i =>
    (List.range degreeB).foldlM (productStep mulAdd a b i) result)
    (List.replicate degreeResultant zero)

/-- One step of a run, which moves an entry up and subtracts a multiple of the divisor from it. -/
def cancelStep (subMul : α -> α -> α -> Outcome α) (divisor : List α) (divConst : α)
    (dividendLength divisorPtr : Nat) (runningDividend : List α) (j : Nat) :
    Outcome (List α) := do
  let rdtmp1 <- entry runningDividend (usint ((dividendLength : Int) - 2 - j))
  let rdtmp1 <- (if divisorPtr > j then (do
      let d <- entry divisor (usint ((divisorPtr : Int) - 1 - j))
      subMul rdtmp1 d divConst)
    else .ok rdtmp1 : Outcome α)
  store runningDividend (usint ((dividendLength : Int) - 1 - j)) rdtmp1

/-- One run, which cancels the highest coefficient of the dividend. -/
def cancelRun (subMul : α -> α -> α -> Outcome α) (divisor : List α)
    (dividendLength divisorLength : Nat) (runningDividend : List α) (i : Nat) :
    Outcome (List α) := do
  let divConst <- entry runningDividend (usint ((dividendLength : Int) - 1))
  let divisorPtr := usint ((divisorLength : Int) - 1)
  (List.range (usint ((dividendLength : Int) - i - 1))).foldlM
    (cancelStep subMul divisor divConst dividendLength divisorPtr) runningDividend

end Loops

/-! ## Products -/

section Products

variable {α R : Type} [CommRing R] {Den : R -> α -> Prop}

/-- The terms of one coefficient with the first `n` of the others. -/
noncomputable def termRow (term : α -> α -> R) (zero x : α) (i : Nat) (b : List α) (n : Nat) :
    R[X] :=
  ∑ j ∈ range n, monomial (i + j) (term x (b.getD j zero))

noncomputable def termProduct (term : α -> α -> R) (zero : α) (a b : List α) (n : Nat) : R[X] :=
  ∑ i ∈ range n, termRow term zero (a.getD i zero) i b b.length

variable {term : α -> α -> R} {zero : α} {a b : List α}

section Terms

variable {mulAdd : α -> α -> α -> α}
  (hterm : forall v z x y, x ∈ a -> y ∈ b -> Den v z -> Den (v + term x y) (mulAdd z x y))

include hterm

variable (zero) in
theorem productStep_spec {P : R[X]} {result : List α} {i j : Nat} (hi : i < a.length)
    (hj : j < b.length) (hlt : i + j < result.length) (hword : i + j < 2 ^ 32)
    (h : Coefficients Den P result) :
    exists result', productStep mulAdd a b i result j = .ok result' ∧
      result'.length = result.length ∧
      Coefficients Den (P + monomial (i + j) (term (a.getD i zero) (b.getD j zero))) result' := by
  rcases entry_getD zero hi with ⟨hx, hxmem⟩
  rcases entry_getD zero hj with ⟨hy, hymem⟩
  rcases h.entry hlt with ⟨z, hz, hden⟩
  refine ⟨_, ?_, List.length_set, h.add_monomial hlt (hterm _ _ _ _ hxmem hymem hden)⟩
  unfold productStep
  rw [hx, ok_bind, hy, ok_bind]
  dsimp only
  rw [usint_eq hword, entry_ok hz, ok_bind, store_ok _ hlt]

variable (zero) in
theorem productRow_spec {P : R[X]} {result : List α} {i n : Nat} (hi : i < a.length)
    (hn : n <= b.length) (hlt : i + n <= result.length) (hword : i + n <= 2 ^ 32)
    (h : Coefficients Den P result) :
    exists result', (List.range n).foldlM (productStep mulAdd a b i) result = .ok result' ∧
      result'.length = result.length ∧
      Coefficients Den (P + termRow term zero (a.getD i zero) i b n) result' := by
  apply foldlM_range_ok (fun j (result' : List α) => result'.length = result.length ∧
    Coefficients Den (P + termRow term zero (a.getD i zero) i b j) result')
  · rw [termRow, sum_range_zero, add_zero]
    exact ⟨rfl, h⟩
  · rintro j hj result' ⟨hlength, hcoeffs⟩
    have hjb : j < b.length := hj.trans_le hn
    rcases productStep_spec zero hterm hi hjb (by omega) (by omega) hcoeffs with
      ⟨result'', hrun, hlength', hcoeffs'⟩
    refine ⟨result'', hrun, hlength'.trans hlength, ?_⟩
    rw [termRow, sum_range_succ, ← add_assoc]
    exact hcoeffs'

/-- As long as a `usint` counts the coefficients, the loop returns the polynomial of the terms. -/
theorem productLoop_spec (hzero : Den 0 zero) (hapos : 0 < a.length) (hbpos : 0 < b.length)
    (hlength : a.length + b.length <= 2 ^ 32) :
    exists r, productLoop mulAdd zero a b = .ok r ∧ r.length = a.length + b.length - 1 ∧
      Coefficients Den (termProduct term zero a b a.length) r := by
  have hcount : usint (((usint (a.length : Nat) : Nat) : Int) + (usint (b.length : Nat) : Nat) - 1) =
      a.length + b.length - 1 := by
    rw [usint_eq (by omega), usint_eq (by omega)]
    unfold usint
    omega
  have hzeros : Coefficients Den 0 (List.replicate (a.length + b.length - 1) zero) :=
    coefficients_nil.append_replicate hzero _
  have hloop := foldlM_range_ok (n := a.length)
    (f := fun result i => (List.range b.length).foldlM (productStep mulAdd a b i) result)
    (fun i result => result.length = a.length + b.length - 1 ∧
      Coefficients Den (termProduct term zero a b i) result)
    (s := List.replicate (a.length + b.length - 1) zero)
    (by
      rw [termProduct, sum_range_zero]
      exact ⟨List.length_replicate, hzeros⟩)
    (by
      rintro i hi result ⟨hresult, hcoeffs⟩
      rcases productRow_spec zero hterm hi le_rfl (by omega) (by omega) hcoeffs with
        ⟨result', hrun, hlength', hcoeffs'⟩
      refine ⟨result', hrun, hlength'.trans hresult, ?_⟩
      rw [termProduct, sum_range_succ]
      exact hcoeffs')
  rcases hloop with ⟨r, hrun, hresult, hcoeffs⟩
  refine ⟨r, ?_, hresult, hcoeffs⟩
  unfold productLoop
  dsimp only
  rw [hcount, usint_eq (by omega), usint_eq (by omega), hrun]

theorem productLoop_long (hzero : Den 0 zero) (hapos : 0 < a.length) (halt : a.length < 2 ^ 32)
    (hblt : b.length < 2 ^ 32) (hlong : 2 ^ 32 < a.length + b.length) :
    productLoop mulAdd zero a b = .error .undefined := by
  obtain ⟨K, hK⟩ : exists K, a.length + b.length = 2 ^ 32 + (K + 1) :=
    Nat.exists_eq_add_of_lt hlong
  have hcount : usint (((usint (a.length : Nat) : Nat) : Int) + (usint (b.length : Nat) : Nat) - 1) =
      K := by
    rw [usint_eq halt, usint_eq hblt]
    unfold usint
    omega
  have hzeros : Coefficients Den 0 (List.replicate K zero) :=
    coefficients_nil.append_replicate hzero _
  have hrow (result : List α) (hresult : result.length = K) (hcoeffs : Coefficients Den 0 result) :
      (List.range b.length).foldlM (productStep mulAdd a b 0) result = .error .undefined := by
    apply foldlM_range_fails (K := K) (fun j result' => result'.length = K ∧
      exists P, Coefficients Den P result') (by omega) ⟨hresult, _, hcoeffs⟩
    · rintro j hj result' ⟨hlength, P, hP⟩
      have hjb : j < b.length := by omega
      rcases productStep_spec zero hterm hapos hjb (by omega) (by omega) hP with
        ⟨result'', hrun, hlength', hcoeffs'⟩
      exact ⟨result'', hrun, hlength'.trans hlength, _, hcoeffs'⟩
    · rintro result' ⟨hlength, _⟩
      have hKlt : K < b.length := by omega
      unfold productStep
      rw [(entry_getD zero hapos).1, ok_bind, (entry_getD zero hKlt).1, ok_bind]
      dsimp only
      rw [usint_eq (by omega), entry_undefined (by omega), error_bind]
  have hloop := foldlM_range_fails (n := a.length) (K := 0)
    (f := fun result i => (List.range b.length).foldlM (productStep mulAdd a b i) result)
    (s := List.replicate K zero) (e := .undefined) (fun _ result => result.length = K ∧
      Coefficients Den 0 result) hapos ⟨List.length_replicate, hzeros⟩
    (fun i hi => absurd hi (Nat.not_lt_zero i))
    (fun result h => hrow result h.1 h.2)
  unfold productLoop
  dsimp only
  rw [hcount, usint_eq halt, usint_eq hblt, hloop]

end Terms

theorem termProduct_eq (hmul : forall u v x y, Den u x -> Den v y -> term x y = u * v)
    {P Q : R[X]} (hP : Coefficients Den P a) (hQ : Coefficients Den Q b) :
    termProduct term zero a b a.length = P * Q := by
  conv_rhs => rw [hP.eq_sum, sum_mul]
  apply sum_congr rfl
  intro i hi
  conv_rhs => rw [hQ.eq_sum, mul_sum]
  apply sum_congr rfl
  intro j hj
  rw [monomial_mul_monomial,
    hmul _ _ _ _ (hP.getD zero (mem_range.mp hi)) (hQ.getD zero (mem_range.mp hj))]

theorem termProduct_coeff_zero (hapos : 0 < a.length) (hbpos : 0 < b.length) :
    (termProduct term zero a b a.length).coeff 0 = term (a.getD 0 zero) (b.getD 0 zero) := by
  have hother (i j : Nat) (v : R) (hne : i ≠ 0 ∨ j ≠ 0) : (monomial (i + j) v).coeff 0 = 0 := by
    rw [coeff_monomial, if_neg (by omega)]
  unfold termProduct termRow
  rw [finsetSum_coeff, sum_eq_single_of_mem 0 (mem_range.mpr hapos), finsetSum_coeff,
    sum_eq_single_of_mem 0 (mem_range.mpr hbpos)]
  · exact coeff_monomial_same 0 _
  · intro j _ hj
    exact hother 0 j _ (Or.inr hj)
  · intro i _ hi
    rw [finsetSum_coeff]
    apply sum_eq_zero
    intro j _
    exact hother i j _ (Or.inl hi)

end Products

/-! ## Divisions by a monic divisor -/

section Divisions

variable {α R : Type} [CommRing R] {Den : R -> α -> Prop} {subMul : α -> α -> α -> Outcome α}
  {F G : R[X]}

/-- Multiples of a coefficient may be subtracted. -/
def Subtracts (Den : R -> α -> Prop) (subMul : α -> α -> α -> Outcome α) (v : R) (c : α) : Prop :=
  forall u w x y, Den u x -> Den w y -> exists z, subMul x y c = .ok z ∧ Den (u - w * v) z

/-- Before step `j` of a run the entries above have the coefficients of the next dividend. -/
structure Moved (Den : R -> α -> Prop) (N : R[X]) (i : Nat) (rd₀ : List α) (j : Nat)
    (rd : List α) : Prop where
  length_eq : rd.length = rd₀.length
  below : forall p, p + j < rd₀.length -> rd[p]? = rd₀[p]?
  above : forall k x, rd₀.length <= i + 1 + k + j -> rd[i + 1 + k]? = some x -> Den (N.coeff k) x

/-- The dividend after a run whose highest coefficient is `v`. -/
noncomputable def nextDividend (F G : R[X]) (shift : Nat) (v : R) : R[X] :=
  F - C v * (X ^ shift * G)

theorem nextDividend_coeff (shift : Nat) (v : R) (k : Nat) :
    (nextDividend F G shift v).coeff k =
      F.coeff k - v * (if shift <= k then G.coeff (k - shift) else 0) := by
  unfold nextDividend
  rw [coeff_sub, coeff_C_mul, coeff_X_pow_mul']

section Run

variable {rd₀ g : List α} {v : R} {c : α} {d i : Nat} (hlt : rd₀.length < 2 ^ 32)
  (hg : g.length = d + 1) (hfit : i + d < rd₀.length) (hF : Coefficients Den F (rd₀.drop i))
  (hG : Coefficients Den G g) (hsub : 0 < d -> Subtracts Den subMul v c)

include hlt hg hfit hF hG hsub

theorem cancelStep_spec {j : Nat} (hj : i + j + 1 < rd₀.length) {rd : List α}
    (h : Moved Den (nextDividend F G (rd₀.length - (d + 1) - i) v) i rd₀ j rd) :
    exists rd', cancelStep subMul g c rd₀.length d rd j = .ok rd' ∧
      Moved Den (nextDividend F G (rd₀.length - (d + 1) - i) v) i rd₀ (j + 1) rd' := by
  obtain ⟨k, hk⟩ : exists k, rd₀.length = i + 1 + k + (j + 1) :=
    ⟨rd₀.length - (i + 1) - (j + 1), by omega⟩
  have hsource : usint ((rd₀.length : Int) - 2 - j) = i + k := by
    unfold usint
    omega
  have htarget : usint ((rd₀.length : Int) - 1 - j) = i + 1 + k := by
    unfold usint
    omega
  have hik : i + k < rd₀.length := by omega
  have hread : rd[i + k]? = some rd₀[i + k] := by
    rw [h.below _ (by omega), List.getElem?_eq_getElem hik]
  have hden : Den (F.coeff k) rd₀[i + k] := by
    apply hF.get
    rw [List.getElem?_drop, List.getElem?_eq_getElem hik]
  -- the new entry has the coefficient of the next dividend
  have hnew : exists z, (if d > j then (entry g (usint ((d : Int) - 1 - j)) >>= fun y =>
        subMul rd₀[i + k] y c) else .ok rd₀[i + k]) = .ok z ∧
      Den ((nextDividend F G (rd₀.length - (d + 1) - i) v).coeff k) z := by
    rw [nextDividend_coeff]
    split
    next hdj =>
        have hindex : usint ((d : Int) - 1 - j) = d - 1 - j := by
          unfold usint
          omega
        rcases hG.entry (show d - 1 - j < g.length by omega) with ⟨y, hy, hyden⟩
        rcases hsub (Nat.zero_lt_of_lt hdj) _ _ _ _ hden hyden with ⟨z, hz, hzden⟩
        refine ⟨z, ?_, ?_⟩
        · rw [hindex, entry_ok hy, ok_bind, hz]
        · rw [if_pos (by omega), show k - (rd₀.length - (d + 1) - i) = d - 1 - j by omega,
            mul_comm v]
          exact hzden
    next hdj =>
        refine ⟨_, rfl, ?_⟩
        rw [if_neg (by omega), mul_zero, sub_zero]
        exact hden
  rcases hnew with ⟨z, hz, hzden⟩
  have hlength := h.length_eq
  refine ⟨rd.set (i + 1 + k) z, ?_, ?_⟩
  · unfold cancelStep
    rw [hsource, entry_ok hread, ok_bind, htarget]
    rw [hz, ok_bind, store_ok _ (by omega)]
  · constructor
    case length_eq => rw [List.length_set, hlength]
    case below =>
      intro p hp
      rw [List.getElem?_set_ne (by omega)]
      exact h.below p (by omega)
    case above =>
      intro k' x hk' hx
      by_cases heq : k' = k
      · subst heq
        rw [List.getElem?_set_self (by omega)] at hx
        cases hx
        exact hzden
      · rw [List.getElem?_set_ne (by omega)] at hx
        exact h.above k' x (by omega) hx

end Run

theorem cancelRun_spec {rd g : List α} {d i : Nat} (hlt : rd.length < 2 ^ 32)
    (hg : g.length = d + 1) (hfit : i + d < rd.length) (hF : Coefficients Den F (rd.drop i))
    (hG : Coefficients Den G g) (hone : G.coeff d = 1)
    (hsub : 0 < d -> forall c, Den (F.coeff (rd.length - 1 - i)) c ->
      Subtracts Den subMul (F.coeff (rd.length - 1 - i)) c) :
    exists rd', cancelRun subMul g rd.length (d + 1) rd i = .ok rd' ∧ rd'.length = rd.length ∧
      Coefficients Den
        (nextDividend F G (rd.length - (d + 1) - i) (F.coeff (rd.length - 1 - i)))
        (rd'.drop (i + 1)) := by
  have hlast : rd.length - 1 < rd.length := by omega
  have hleader : Den (F.coeff (rd.length - 1 - i)) rd[rd.length - 1] := by
    apply hF.get
    rw [List.getElem?_drop, show i + (rd.length - 1 - i) = rd.length - 1 by omega,
      List.getElem?_eq_getElem hlast]
  have hindex : usint ((rd.length : Int) - 1) = rd.length - 1 := by
    unfold usint
    omega
  have hptr : usint (((d + 1 : Nat) : Int) - 1) = d := by
    unfold usint
    omega
  have hcount : usint ((rd.length : Int) - i - 1) = rd.length - i - 1 := by
    unfold usint
    omega
  rcases foldlM_range_ok (n := rd.length - i - 1) (s := rd)
    (f := cancelStep subMul g rd[rd.length - 1] rd.length d)
    (Moved Den (nextDividend F G (rd.length - (d + 1) - i) (F.coeff (rd.length - 1 - i))) i rd)
    (by
      constructor
      case length_eq => rfl
      case below =>
        intro p _
        rfl
      case above =>
        intro k x hk hx
        have hrange := (List.getElem?_eq_some_iff.mp hx).1
        omega)
    (fun j hj rd' h => cancelStep_spec hlt hg hfit hF hG (fun hd => hsub hd _ hleader)
      (by omega) h)
    with ⟨rd', hrun, hmoved⟩
  refine ⟨rd', ?_, hmoved.length_eq, ?_⟩
  · unfold cancelRun
    rw [hindex, entry_ok (List.getElem?_eq_getElem hlast), ok_bind, hcount, hptr]
    exact hrun
  · constructor
    · intro k x hx
      rw [List.getElem?_drop] at hx
      exact hmoved.above k x (by omega) hx
    · intro k hk
      rw [List.length_drop, hmoved.length_eq] at hk
      rw [nextDividend_coeff, if_pos (by omega)]
      cases (show rd.length - 1 - i <= k by omega).eq_or_lt with
      | inl heq =>
          subst heq
          rw [show rd.length - 1 - i - (rd.length - (d + 1) - i) = d by omega, hone, mul_one,
            sub_self]
      | inr hlater =>
          rw [hF.coeff_eq_zero k (by rw [List.length_drop]; omega),
            hG.coeff_eq_zero _ (by omega), mul_zero, sub_zero]

end Divisions

end Core
end OpenFHE
