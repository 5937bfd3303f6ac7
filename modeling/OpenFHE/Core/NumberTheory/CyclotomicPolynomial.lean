import OpenFHE.Core.NumberTheory.CoefficientLoops
import OpenFHE.Foundation.CyclotomicPalindrome
import Mathlib.Data.Nat.Totient

/-!
# Cyclotomic polynomials

`GetCyclotomicPolynomialRecursive` divides `x ^ m - 1` by the product of the polynomials of the
proper divisors.  The division emits the quotient from its highest coefficient on, which is the
order of the result because the quotient is palindromic.
-/

namespace OpenFHE
namespace Core

open Foundation NativeInteger Polynomial Finset

namespace CyclotomicDivision

/-! ## The local functions, over exact integers -/

def isPrime (val : Nat) : Bool :=
  if val % 2 = 0 then false
  else (List.range' 3 ((val - 2) / 2) 2).all fun i => val % i != 0

def getDivisibleNumbers (val : Nat) : List Nat :=
  (List.range' 1 (val - 1)).filter fun i => val % i = 0

def polyMult (a b : List Int) : Outcome (List Int) :=
  productLoop (fun z x y => z + x * y) 0 a b

def subMul (x d divConst : Int) : Outcome Int := .ok (x - d * divConst)

/-- A run, after which the leader of the running dividend is the next entry of the quotient. -/
def quotientRun (divisor : List Int) (dividendLength divisorLength : Nat)
    (s : List Int × List Int) (i : Nat) : Outcome (List Int × List Int) := do
  let runningDividend <- cancelRun subMul divisor dividendLength divisorLength s.1 i
  let leader <- entry runningDividend (usint ((dividendLength : Int) - 1))
  let quotient <- store s.2 (usint ((i : Int) + 1)) leader
  return (runningDividend, quotient)

def polyQuotient (dividend divisor : List Int) : Outcome (List Int) := do
  let divisorLength := usint divisor.length
  let dividendLength := usint dividend.length
  let runs := usint ((dividendLength : Int) - divisorLength + 1)
  let s <- (List.range runs).foldlM (quotientRun divisor dividendLength divisorLength)
    (dividend, List.replicate (usint ((runs : Int) + 1)) 0)
  let quotient <- store s.2 0 1
  return quotient.dropLast

end CyclotomicDivision

open CyclotomicDivision

/-- `GetCyclotomicPolynomialRecursive`, for calls that nest at most `depth` deep. -/
def getCyclotomicPolynomialRecursive : Nat -> Nat -> Outcome (List Int)
  | 0, _ => .error .running
  | depth + 1, m =>
      if m = 1 then .ok [-1, 1]
      else if m = 2 then .ok [1, 1]
      else if isPrime m then .ok (List.replicate m 1)
      else do
        let product <- (getDivisibleNumbers m).foldlM (fun product d => do
          let P <- getCyclotomicPolynomialRecursive depth d
          polyMult product P) [1]
        let bigPoly <- store (List.replicate (usint ((m : Int) + 1)) 0) 0 (-1)
        let bigPoly <- store bigPoly m 1
        polyQuotient bigPoly product

namespace CyclotomicDivision

/-! ## Primes and divisors -/

theorem isPrime_iff {m : Nat} (hm : 3 <= m) : isPrime m = true <-> m.Prime := by
  unfold isPrime
  split
  next heven =>
      constructor
      · intro h
        cases h
      · intro hprime
        have htwo := (Nat.prime_dvd_prime_iff_eq Nat.prime_two hprime).mp
          (Nat.dvd_of_mod_eq_zero heven)
        omega
  next hodd =>
      rw [List.all_eq_true]
      constructor
      · intro h
        by_contra hprime
        have hfac := Nat.minFac_dvd m
        have hlt : m.minFac < m := (Nat.not_prime_iff_minFac_lt (by omega)).mp hprime
        have hoddfac : m.minFac % 2 ≠ 0 := by
          intro heven
          exact hodd (Nat.mod_eq_zero_of_dvd ((Nat.dvd_of_mod_eq_zero heven).trans hfac))
        have hne : m.minFac ≠ 1 := Nat.minFac_eq_one_iff.not.mpr (by omega)
        have hpos := Nat.minFac_pos m
        have htest := h m.minFac (by
          rw [List.mem_range']
          exact ⟨(m.minFac - 3) / 2, by omega, by omega⟩)
        rw [bne_iff_ne] at htest
        exact htest (Nat.mod_eq_zero_of_dvd hfac)
      · intro hprime i hi
        rcases List.mem_range'.mp hi with ⟨k, hk, rfl⟩
        rw [bne_iff_ne]
        intro hmod
        cases (Nat.dvd_prime hprime).mp (Nat.dvd_of_mod_eq_zero hmod) with
        | inl hone => omega
        | inr heq => omega

theorem mem_getDivisibleNumbers {m d : Nat} (hm : 1 <= m) :
    d ∈ getDivisibleNumbers m <-> d ∈ m.properDivisors := by
  unfold getDivisibleNumbers
  rw [List.mem_filter, List.mem_range'_1, Nat.mem_properDivisors, decide_eq_true_iff]
  constructor
  · rintro ⟨hrange, hmod⟩
    exact ⟨Nat.dvd_of_mod_eq_zero hmod, by omega⟩
  · rintro ⟨hdvd, hlt⟩
    have hpos := Nat.pos_of_dvd_of_pos hdvd hm
    exact ⟨by omega, Nat.mod_eq_zero_of_dvd hdvd⟩

theorem getDivisibleNumbers_nodup (m : Nat) : (getDivisibleNumbers m).Nodup :=
  (List.nodup_range').filter _

theorem getDivisibleNumbers_toFinset {m : Nat} (hm : 1 <= m) :
    (getDivisibleNumbers m).toFinset = m.properDivisors := by
  ext d
  rw [List.mem_toFinset, mem_getDivisibleNumbers hm]

/-! ## The quotient -/

noncomputable def lowerTerms (Q : Int[X]) (n : Nat) : Int[X] :=
  ∑ k ∈ range n, monomial k (Q.coeff k)

theorem lowerTerms_coeff (Q : Int[X]) (n k : Nat) :
    (lowerTerms Q n).coeff k = if k < n then Q.coeff k else 0 := by
  unfold lowerTerms
  rw [finsetSum_coeff]
  simp only [coeff_monomial]
  rw [sum_ite_eq' (range n) k fun k => Q.coeff k]
  simp only [mem_range]

theorem lowerTerms_eq {Q : Int[X]} {n : Nat} (hQ : forall k, n <= k -> Q.coeff k = 0) :
    lowerTerms Q n = Q := by
  ext k
  rw [lowerTerms_coeff]
  split
  next => rfl
  next hk => exact (hQ k (not_lt.mp hk)).symm

section Quotient

variable {G Q : Int[X]} {d : Nat} (hone : G.coeff d = 1) (hG : forall k, d < k -> G.coeff k = 0)

include hone hG

theorem leader_eq (n : Nat) : (G * lowerTerms Q (n + 1)).coeff (d + n) = Q.coeff n := by
  have hdegree : (lowerTerms Q (n + 1)).natDegree <= n := by
    rw [natDegree_le_iff_coeff_eq_zero]
    intro k hk
    rw [lowerTerms_coeff, if_neg (by omega)]
  rw [coeff_mul_add_eq_of_natDegree_le (natDegree_le_iff_coeff_eq_zero.mpr hG) hdegree, hone,
    one_mul, lowerTerms_coeff, if_pos (Nat.lt_succ_self n)]

theorem nextDividend_lowerTerms (n : Nat) :
    nextDividend (G * lowerTerms Q (n + 1)) G n ((G * lowerTerms Q (n + 1)).coeff (d + n)) =
      G * lowerTerms Q n := by
  rw [leader_eq hone hG]
  unfold nextDividend lowerTerms
  rw [sum_range_succ, ← C_mul_X_pow_eq_monomial]
  ring

omit hone hG in
theorem subtracts_int {v c : Int} (hc : v = c) : Subtracts Eq subMul v c := by
  rintro u w x y rfl rfl
  refine ⟨_, rfl, ?_⟩
  rw [hc]

/-- Before run `i` the dividend has lost the terms that the quotient has shown. -/
structure QuotientInv (G Q : Int[X]) (d N i : Nat) (s : List Int × List Int) : Prop where
  dividend_length : s.1.length = d + N + 1
  dividend : Coefficients Eq (G * lowerTerms Q (N + 1 - i)) (s.1.drop i)
  quotient_length : s.2.length = N + 2
  quotient : forall t, 1 <= t -> t <= N -> t <= i -> s.2[t]? = some (Q.coeff (N - t))

theorem quotientRun_spec {divisor : List Int} {N i : Nat} (hd : 0 < d)
    (hlt : d + N + 1 < 2 ^ 32) (hdivisor : divisor.length = d + 1)
    (hcoeffs : Coefficients Eq G divisor) (hi : i < N + 1) {s : List Int × List Int}
    (h : QuotientInv G Q d N i s) :
    exists s', quotientRun divisor (d + N + 1) (d + 1) s i = .ok s' ∧
      QuotientInv G Q d N (i + 1) s' := by
  obtain ⟨n, rfl⟩ : exists n, N = i + n := ⟨N - i, by omega⟩
  have hlength := h.dividend_length
  have hdividend := h.dividend
  rw [show i + n + 1 - i = n + 1 by omega] at hdividend
  rcases cancelRun_spec (by omega) hdivisor (by omega) hdividend hcoeffs hone
    (fun _ _ hc => subtracts_int hc) with ⟨rd', hrun, hlength', hnext⟩
  rw [show s.1.length - (d + 1) - i = n by omega, show s.1.length - 1 - i = d + n by omega,
    nextDividend_lowerTerms hone hG] at hnext
  rw [hlength] at hrun hlength'
  have hlast : d + (i + n) < rd'.length := by omega
  have hindex : usint (((d + (i + n) + 1 : Nat) : Int) - 1) = d + (i + n) := by
    unfold usint
    omega
  have hplace : usint ((i : Int) + 1) = i + 1 := by
    unfold usint
    omega
  have hquotient := h.quotient_length
  refine ⟨(rd', s.2.set (i + 1) rd'[d + (i + n)]), ?_, ?_⟩
  · unfold quotientRun
    rw [hrun, ok_bind, hindex, entry_ok (List.getElem?_eq_getElem hlast), ok_bind, hplace,
      store_ok _ (by omega), ok_bind]
    rfl
  · constructor
    case dividend_length => exact hlength'
    case dividend =>
      rw [show i + n + 1 - (i + 1) = n by omega]
      exact hnext
    case quotient_length => rw [List.length_set, hquotient]
    case quotient =>
      intro t hpos hle ht
      dsimp only
      cases ht.eq_or_lt with
      | inr hbefore =>
          rw [List.getElem?_set_ne (by omega)]
          exact h.quotient t hpos hle (by omega)
      | inl heq =>
          subst heq
          rw [List.getElem?_set_self (by omega)]
          -- the leader of the dividend that is left
          obtain ⟨l, rfl⟩ : exists l, n = l + 1 := ⟨n - 1, by omega⟩
          have hleader := hnext.get (d + l) rd'[d + (i + (l + 1))] (by
            rw [List.getElem?_drop, show i + 1 + (d + l) = d + (i + (l + 1)) by omega,
              List.getElem?_eq_getElem hlast])
          rw [leader_eq hone hG] at hleader
          rw [← hleader, show i + (l + 1) - (i + 1) = l by omega]

theorem polyQuotient_spec {dividend divisor : List Int} {N : Nat} (hd : 0 < d)
    (hlt : d + N + 1 < 2 ^ 32) (hlength : dividend.length = d + N + 1)
    (hdivisor : divisor.length = d + 1) (hdividend : Coefficients Eq (G * Q) dividend)
    (hcoeffs : Coefficients Eq G divisor) (hQ : forall k, N < k -> Q.coeff k = 0)
    (hlead : Q.coeff N = 1) :
    polyQuotient dividend divisor = .ok ((List.range (N + 1)).map fun t => Q.coeff (N - t)) := by
  have hruns : usint (((d + N + 1 : Nat) : Int) - (d + 1 : Nat) + 1) = N + 1 := by
    unfold usint
    omega
  have hplaces : usint (((N + 1 : Nat) : Int) + 1) = N + 2 := by
    unfold usint
    omega
  have hinit : QuotientInv G Q d N 0 (dividend, List.replicate (N + 2) 0) := by
    constructor
    case dividend_length => exact hlength
    case dividend =>
      rw [Nat.sub_zero, lowerTerms_eq fun k hk => hQ k hk]
      exact hdividend
    case quotient_length => exact List.length_replicate
    case quotient =>
      intro t hpos _ ht
      omega
  rcases foldlM_range_ok (QuotientInv G Q d N) hinit
    (fun i hi s h => quotientRun_spec hone hG hd hlt hdivisor hcoeffs hi h)
    with ⟨s, hrun, hinv⟩
  have hquotient := hinv.quotient_length
  have hresult : (s.2.set 0 1).dropLast = (List.range (N + 1)).map fun t => Q.coeff (N - t) := by
    apply List.ext_getElem?
    intro t
    rw [List.getElem?_dropLast, List.length_set, hquotient, List.getElem?_map]
    split
    next ht =>
        rw [List.getElem?_range (by omega)]
        cases t with
        | zero =>
            rw [List.getElem?_set_self (by omega), Option.map_some, Nat.sub_zero, hlead]
        | succ t =>
            rw [List.getElem?_set_ne (by omega)]
            exact hinv.quotient (t + 1) (by omega) (by omega) (by omega)
    next ht => rw [List.getElem?_eq_none (by rw [List.length_range]; omega), Option.map_none]
  unfold polyQuotient
  dsimp only
  rw [hlength, hdivisor, usint_eq hlt, usint_eq (show d + 1 < 2 ^ 32 by omega), hruns, hplaces, hrun,
    ok_bind, store_ok _ (by omega), ok_bind, hresult]
  rfl

end Quotient

/-! ## The result -/

noncomputable def coefficientList (P : Int[X]) (n : Nat) : List Int := (List.range n).map P.coeff

theorem coefficientList_length (P : Int[X]) (n : Nat) : (coefficientList P n).length = n := by
  unfold coefficientList
  rw [List.length_map, List.length_range]

theorem coefficientList_coefficients {P : Int[X]} {n : Nat}
    (hP : forall k, n <= k -> P.coeff k = 0) : Coefficients Eq P (coefficientList P n) := by
  constructor
  · intro k x hx
    unfold coefficientList at hx
    rw [List.getElem?_map] at hx
    rcases Option.map_eq_some_iff.mp hx with ⟨j, hj, rfl⟩
    rw [List.getElem?_range (by
      have hlt := (List.getElem?_eq_some_iff.mp hj).1
      rwa [List.length_range] at hlt)] at hj
    cases hj
    rfl
  · intro k hk
    rw [coefficientList_length] at hk
    exact hP k hk

noncomputable def cyclotomicList (m : Nat) : List Int :=
  coefficientList (cyclotomic m Int) (Nat.totient m + 1)

theorem cyclotomicList_length (m : Nat) : (cyclotomicList m).length = Nat.totient m + 1 :=
  coefficientList_length _ _

theorem cyclotomicList_coefficients (m : Nat) :
    Coefficients Eq (cyclotomic m Int) (cyclotomicList m) := by
  apply coefficientList_coefficients
  intro k hk
  apply coeff_eq_zero_of_natDegree_lt
  rw [natDegree_cyclotomic]
  exact hk

theorem cyclotomicList_one : cyclotomicList 1 = [-1, 1] := by
  unfold cyclotomicList coefficientList
  rw [cyclotomic_one, Nat.totient_one]
  simp [List.range_succ, coeff_X, coeff_one]

theorem cyclotomicList_two : cyclotomicList 2 = [1, 1] := by
  unfold cyclotomicList coefficientList
  rw [cyclotomic_two, Nat.totient_two]
  simp [List.range_succ, coeff_X, coeff_one]

theorem cyclotomicList_prime {m : Nat} (hm : m.Prime) : cyclotomicList m = List.replicate m 1 := by
  have hfact : Fact m.Prime := ⟨hm⟩
  unfold cyclotomicList coefficientList
  rw [cyclotomic_prime, Nat.totient_prime hm, Nat.sub_add_cancel hm.one_le]
  apply List.ext_getElem
  · rw [List.length_map, List.length_range, List.length_replicate]
  · intro k hk _
    rw [List.length_map, List.length_range] at hk
    rw [List.getElem_map, List.getElem_range, List.getElem_replicate, finsetSum_coeff]
    simp only [coeff_X_pow]
    rw [sum_ite_eq (range m) k fun _ => (1 : Int), if_pos (mem_range.mpr hk)]

theorem cyclotomicList_reversed {m : Nat} (hm : 1 < m) :
    ((List.range (Nat.totient m + 1)).map fun t =>
      (cyclotomic m Int).coeff (Nat.totient m - t)) = cyclotomicList m := by
  apply List.map_congr_left
  intro t ht
  have hle : t <= (cyclotomic m Int).natDegree := by
    rw [natDegree_cyclotomic]
    exact Nat.le_of_lt_succ (List.mem_range.mp ht)
  have hcoeff := (cyclotomic_palindromic hm).coeff_eq hle
  rwa [natDegree_cyclotomic] at hcoeff

theorem polyMult_spec {P Q : Int[X]} {a b : List Int} (hP : Coefficients Eq P a)
    (hQ : Coefficients Eq Q b) (hapos : 0 < a.length) (hbpos : 0 < b.length)
    (hlength : a.length + b.length <= 2 ^ 32) :
    exists r, polyMult a b = .ok r ∧ r.length = a.length + b.length - 1 ∧
      Coefficients Eq (P * Q) r := by
  rcases @productLoop_spec Int Int _ Eq (fun x y => x * y) 0 a b (fun z x y => z + x * y)
    (fun v z x y _ _ hz => by rw [hz]) rfl hapos hbpos hlength with ⟨r, hrun, hr, hcoeffs⟩
  rw [termProduct_eq (fun u v x y hx hy => by rw [hx, hy]) hP hQ] at hcoeffs
  exact ⟨r, hrun, hr, hcoeffs⟩

theorem divisorProduct_spec {f : Nat -> Outcome (List Int)} {l : List Nat}
    (hl : forall d, d ∈ l -> f d = .ok (cyclotomicList d)) {P : Int[X]} {product : List Int}
    {k : Nat} (hP : Coefficients Eq P product) (hk : product.length = k + 1)
    (hsum : k + (l.map Nat.totient).sum < 2 ^ 32 - 1) :
    exists product', l.foldlM (fun product d => f d >>= fun Q => polyMult product Q) product =
        .ok product' ∧ product'.length = k + (l.map Nat.totient).sum + 1 ∧
      Coefficients Eq (P * (l.map fun d => cyclotomic d Int).prod) product' := by
  induction l generalizing P product k with
  | nil =>
      refine ⟨product, rfl, hk, ?_⟩
      rw [List.map_nil, List.prod_nil, mul_one]
      exact hP
  | cons d l ih =>
      rw [List.map_cons, List.sum_cons] at hsum
      have hdlength := cyclotomicList_length d
      rcases polyMult_spec hP (cyclotomicList_coefficients d) (by omega) (by omega) (by omega)
        with ⟨r, hrun, hr, hcoeffs⟩
      rcases ih (fun e he => hl e (List.mem_cons_of_mem _ he)) hcoeffs
        (show r.length = k + Nat.totient d + 1 by omega) (by omega)
        with ⟨product', hrest, hlength, hproduct⟩
      refine ⟨product', ?_, ?_, ?_⟩
      · rw [List.foldlM_cons, hl d List.mem_cons_self, ok_bind, hrun, ok_bind, hrest]
      · rw [List.map_cons, List.sum_cons]
        omega
      · rw [List.map_cons, List.prod_cons, ← mul_assoc]
        exact hproduct

/-- The product of the polynomials of the proper divisors, by which `x ^ m - 1` is divided. -/
noncomputable def properProduct (m : Nat) : Int[X] := ∏ d ∈ m.properDivisors, cyclotomic d Int

section Composite

variable {m : Nat} (hm : 1 < m)

include hm

theorem properProduct_mul : properProduct m * cyclotomic m Int = X ^ m - 1 := by
  rw [← prod_cyclotomic_eq_X_pow_sub_one (by omega : 0 < m),
    ← Nat.cons_self_properDivisors (by omega : m ≠ 0), prod_cons, mul_comm]
  rfl

theorem totient_sum : Nat.totient m + ∑ d ∈ m.properDivisors, Nat.totient d = m := by
  have hsum := Nat.sum_totient m
  rwa [← Nat.cons_self_properDivisors (by omega : m ≠ 0), sum_cons] at hsum

theorem properProduct_leader : (properProduct m).coeff (m - Nat.totient m) = 1 := by
  have hmonic : (properProduct m).Monic :=
    monic_prod_of_monic _ _ fun d _ => cyclotomic.monic d Int
  have hdegree : (properProduct m).natDegree = m - Nat.totient m := by
    have hsum := totient_sum hm
    unfold properProduct
    rw [natDegree_prod_of_monic _ _ fun d _ => cyclotomic.monic d Int]
    simp only [natDegree_cyclotomic]
    omega
  rw [← hdegree]
  exact hmonic

theorem divisors_spec {depth : Nat} (hlt : m < 2 ^ 32 - 1)
    (ih : forall d, d ∈ getDivisibleNumbers m ->
      getCyclotomicPolynomialRecursive depth d = .ok (cyclotomicList d)) :
    exists product, (getDivisibleNumbers m).foldlM (fun product d =>
        getCyclotomicPolynomialRecursive depth d >>= fun P => polyMult product P) [1] =
        .ok product ∧ product.length = m - Nat.totient m + 1 ∧
      Coefficients Eq (properProduct m) product := by
  have hfin := getDivisibleNumbers_toFinset (Nat.le_of_lt hm)
  have hnodup := getDivisibleNumbers_nodup m
  have hsum : ((getDivisibleNumbers m).map Nat.totient).sum = m - Nat.totient m := by
    rw [← List.sum_toFinset _ hnodup, hfin]
    have htotal : Nat.totient m + m.properDivisors.sum Nat.totient = m := totient_sum hm
    omega
  have hnil : Coefficients Eq (0 : Int[X]) [] := coefficients_nil
  have hone := hnil.cons (rfl : (1 : Int) = 1)
  rw [mul_zero, add_zero, C_1] at hone
  rcases divisorProduct_spec (k := 0) ih hone rfl (by rw [hsum]; omega)
    with ⟨product, hrun, hlength, hcoeffs⟩
  rw [hsum, Nat.zero_add] at hlength
  rw [one_mul, ← List.prod_toFinset _ hnodup, hfin] at hcoeffs
  exact ⟨product, hrun, hlength, hcoeffs⟩

theorem bigPoly_spec (hlt : m < 2 ^ 32 - 1) :
    exists p q, store (List.replicate (usint ((m : Int) + 1)) 0) 0 (-1) = .ok p ∧
      store p m 1 = .ok q ∧ q.length = m + 1 ∧ Coefficients Eq (X ^ m - 1 : Int[X]) q := by
  have hplaces : usint ((m : Int) + 1) = m + 1 := by
    unfold usint
    omega
  have hzeros : Coefficients Eq (0 : Int[X]) (List.replicate (m + 1) 0) :=
    coefficients_nil.append_replicate rfl (m + 1)
  have hlength : (List.replicate (m + 1) (0 : Int)).length = m + 1 := List.length_replicate
  have hlow := hzeros.add_monomial (k := 0) (v := -1) (x := -1) (by omega) rfl
  have hhigh := hlow.add_monomial (k := m) (v := 1) (x := 1)
    (by rw [List.length_set, hlength]; exact Nat.lt_succ_self m)
    (by
      rw [coeff_add, coeff_zero, coeff_monomial, if_neg (by omega), zero_add, zero_add])
  rw [hplaces]
  refine ⟨_, _, store_ok _ (by omega), store_ok _ (by rw [List.length_set]; omega), ?_, ?_⟩
  · rw [List.length_set, List.length_set, hlength]
  · have hsum : (X ^ m - 1 : Int[X]) = 0 + monomial 0 (-1) + monomial m 1 := by
      rw [← X_pow_eq_monomial, monomial_zero_left, C_neg, C_1]
      ring
    rw [hsum]
    exact hhigh

theorem composite_spec {depth : Nat} (hlt : m < 2 ^ 32 - 1) (htwo : m ≠ 2)
    (hprime : isPrime m = false)
    (ih : forall d, d ∈ getDivisibleNumbers m ->
      getCyclotomicPolynomialRecursive depth d = .ok (cyclotomicList d)) :
    getCyclotomicPolynomialRecursive (depth + 1) m = .ok (cyclotomicList m) := by
  rcases divisors_spec hm hlt ih with ⟨product, hproduct, hlength, hcoeffs⟩
  rcases bigPoly_spec hm hlt with ⟨p, q, hp, hq, hqlength, hbig⟩
  have htotient := Nat.totient_lt m hm
  have hquotient := @polyQuotient_spec (properProduct m) (cyclotomic m Int) (m - Nat.totient m)
    (properProduct_leader hm) (fun k hk => hcoeffs.coeff_eq_zero k (by omega)) q product
    (Nat.totient m) (by omega) (by omega) (by omega) hlength
    (by rw [properProduct_mul hm]; exact hbig) hcoeffs
    (fun k hk => coeff_eq_zero_of_natDegree_lt (by rwa [natDegree_cyclotomic]))
    (by
      have hlead := cyclotomic.monic m Int
      unfold Monic leadingCoeff at hlead
      rwa [natDegree_cyclotomic] at hlead)
  rw [cyclotomicList_reversed hm] at hquotient
  unfold getCyclotomicPolynomialRecursive
  rw [if_neg (by omega), if_neg htwo, hprime, if_neg Bool.false_ne_true]
  rw [hproduct, ok_bind, hp, ok_bind, hq, ok_bind, hquotient]

end Composite

theorem getCyclotomicPolynomialRecursive_spec {m depth : Nat} (hpos : 1 <= m)
    (hlt : m < 2 ^ 32 - 1) (hdepth : m <= depth) :
    getCyclotomicPolynomialRecursive depth m = .ok (cyclotomicList m) := by
  induction m using Nat.strong_induction_on generalizing depth with
  | h m ih =>
      obtain ⟨depth, rfl⟩ : exists n, depth = n + 1 := ⟨depth - 1, by omega⟩
      by_cases hone : m = 1
      · subst hone
        rw [cyclotomicList_one]
        rfl
      by_cases htwo : m = 2
      · subst htwo
        rw [cyclotomicList_two]
        rfl
      cases hprime : isPrime m with
      | true =>
          rw [cyclotomicList_prime ((isPrime_iff (by omega)).mp hprime)]
          unfold getCyclotomicPolynomialRecursive
          rw [if_neg hone, if_neg htwo, hprime, if_pos rfl]
      | false =>
          apply composite_spec (by omega) hlt htwo hprime
          intro d hd
          rcases Nat.mem_properDivisors.mp ((mem_getDivisibleNumbers hpos).mp hd) with ⟨hdvd, hdm⟩
          exact ih d hdm (Nat.pos_of_dvd_of_pos hdvd hpos) (by omega) (by omega)

theorem getCyclotomicPolynomialRecursive_last (depth : Nat) (cv : List Int) :
    getCyclotomicPolynomialRecursive depth (2 ^ 32 - 1) ≠ .ok cv := by
  cases depth with
  | zero =>
      intro h
      cases h
  | succ depth =>
      intro h
      have hprime : isPrime (2 ^ 32 - 1) = false := by
        rw [← Bool.not_eq_true, isPrime_iff (by decide)]
        intro hprime
        have hthree := (Nat.prime_dvd_prime_iff_eq Nat.prime_three hprime).mp (by decide)
        exact absurd hthree (by decide)
      unfold getCyclotomicPolynomialRecursive at h
      rw [if_neg (by decide), if_neg (by decide), hprime, if_neg Bool.false_ne_true] at h
      rcases bind_eq_ok h with ⟨product, _, hrest⟩
      rcases bind_eq_ok hrest with ⟨bigPoly, hstore, _⟩
      rw [store_undefined _ (Nat.zero_le _)] at hstore
      cases hstore

end CyclotomicDivision

/-- The polynomial of a list of coefficients, constant term first. -/
noncomputable def polynomialOf (cv : List Int) : Int[X] :=
  ∑ k ∈ range cv.length, monomial k (cv.getD k 0)

/-- What the function is for: the coefficients of the cyclotomic polynomial, and for all divisors
together those of the factors of `x ^ m - 1`. -/
structure CyclotomicRight (m : Nat) : Prop where
  returns : exists cv, (forall depth, m <= depth ->
      getCyclotomicPolynomialRecursive depth m = .ok cv) ∧
    cv.length = Nat.totient m + 1 ∧ polynomialOf cv = cyclotomic m Int
  product : exists cvs : Nat -> List Int, (forall d, d ∈ m.divisors -> forall depth, d <= depth ->
      getCyclotomicPolynomialRecursive depth d = .ok (cvs d)) ∧
    ∏ d ∈ m.divisors, polynomialOf (cvs d) = X ^ m - 1

theorem polynomialOf_cyclotomicList (m : Nat) :
    polynomialOf (cyclotomicList m) = cyclotomic m Int := by
  have hcoeffs := cyclotomicList_coefficients m
  conv_rhs => rw [hcoeffs.eq_sum]
  apply sum_congr rfl
  intro k hk
  rw [hcoeffs.getD 0 (mem_range.mp hk)]

/-- The function is right on all numbers but the largest. -/
theorem cyclotomicRight_iff {m : Nat} (hpos : 1 <= m) (hlt : m < 2 ^ 32) :
    CyclotomicRight m <-> m ≠ 2 ^ 32 - 1 := by
  constructor
  · rintro h rfl
    rcases h.returns with ⟨cv, hrun, _⟩
    exact getCyclotomicPolynomialRecursive_last _ cv (hrun _ le_rfl)
  · intro hne
    constructor
    case returns =>
      refine ⟨cyclotomicList m, ?_, cyclotomicList_length m, polynomialOf_cyclotomicList m⟩
      intro depth hdepth
      exact getCyclotomicPolynomialRecursive_spec hpos (by omega) hdepth
    case product =>
      refine ⟨cyclotomicList, ?_, ?_⟩
      · intro d hd depth hdepth
        have hle := Nat.divisor_le hd
        exact getCyclotomicPolynomialRecursive_spec (Nat.pos_of_mem_divisors hd) (by omega) hdepth
      · simp only [polynomialOf_cyclotomicList]
        exact prod_cyclotomic_eq_X_pow_sub_one hpos Int

theorem cyclotomicRight_iff_twelve : CyclotomicRight 12 <-> 12 ≠ 2 ^ 32 - 1 :=
  cyclotomicRight_iff (by decide) (by decide)

example : getCyclotomicPolynomialRecursive 12 12 = .ok [1, 0, -1, 0, 1] := by decide +kernel

/-- The largest number is composite, and the code leaves its vector at once. -/
theorem not_cyclotomicRight : ¬ CyclotomicRight 4294967295 := by
  intro h
  rcases h.returns with ⟨cv, hrun, _⟩
  exact getCyclotomicPolynomialRecursive_last _ cv (hrun _ le_rfl)

end Core
end OpenFHE
