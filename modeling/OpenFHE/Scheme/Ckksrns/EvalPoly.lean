import OpenFHE.Scheme.Ckksrns.PatersonStockmeyer
import Mathlib.Algebra.Algebra.Rat

/-!
# Evaluation of polynomials

`EvalPolyPS` computes the powers of the argument by binary splitting and evaluates the
polynomial by the recursion of Paterson and Stockmeyer.  The recursion throws when the
rest of one of its divisions starts with the power that is subtracted from it.
-/

namespace OpenFHE
namespace Scheme
namespace Ckksrns

open Foundation
open Polynomial

variable {F R : Type _} [Field F] [DecidableEq F] [CommRing R] [Algebra F R]

/-- The powers computed so far, and the counters of the loop. -/
structure PowersState (R : Type _) where
  powers : List R
  powerOf2 : Nat
  rem : Nat

def powersStep (s : PowersState R) : Option (PowersState R) := do
  let power <- (if s.rem = 0 then do
      let p <- s.powers[(s.powerOf2 >>> 1) - 1]?
      return p * p
    else do
      let p <- s.powers[s.powerOf2 - 1]?
      let r <- s.powers[s.rem - 1]?
      return p * r)
  let rem := s.rem + 1
  if rem = s.powerOf2 then
    return { powers := s.powers ++ [power], powerOf2 := s.powerOf2 <<< 1, rem := 0 }
  else
    return { powers := s.powers ++ [power], powerOf2 := s.powerOf2, rem := rem }

/-- The powers `x^{k * 2^i}` so far and their product. -/
def powers2Step (s : List R × R) (i : Nat) : Option (List R × R) := do
  let p <- s.1[i - 1]?
  return (s.1 ++ [p * p], p * p * s.2)

def internalEvalPowersPS (x : R) (degree : Nat) : Option (SeriesPowers R) := do
  let degs <- computeDegreesPS degree
  let k := degs.1
  let m := degs.2
  let s <- (List.range' 2 (k - 1)).foldlM (fun s _ => powersStep s)
    { powers := [x], powerOf2 := 2, rem := 0 }
  let back <- s.powers.getLast?
  let s2 <- (List.range' 1 (m - 1)).foldlM powers2Step ([back], back)
  return { powersRe := s.powers, powers2Re := s2.1, power2km1Re := s2.2, k := k, m := m }

/-- `qu` and `su` for a polynomial of degree `k` that is monic. -/
def evalMonicPS (powers : List R) (k : Nat) (q : List F) : Option R := do
  let power <- powers[k - 1]?
  let front <- q.head?
  addLowerTerms powers k (power + algebraMap F R front) q

/-- `cu`. -/
def evalCorrectionPS (powers powers2 : List R) (i : Nat) (q : List F) : Option R := do
  let n <- degree q
  let middle <- powers2[i]?
  let front <- q.head?
  if n = 0 then
    return middle + algebraMap F R front
  else if n = 1 then
    let x <- powers.head?
    let q1 <- q[1]?
    if q1 ≠ 1 then
      return q1 • x + middle + algebraMap F R front
    else
      return middle + x + algebraMap F R front
  else
    let low <- evalPartialLinearWSum powers q n
    return middle + low + algebraMap F R front

def polyEvaluation (powers powers2 : List R) (k : Nat) : Evaluation F R where
  longDivision := longDivisionPoly
  quotient := evalMonicPS powers k
  rest := evalMonicPS powers k
  correction := evalCorrectionPS powers powers2

def innerEvalPolyPS (coefficients : List F) (k m : Nat) (powers powers2 : List R) : Option R :=
  innerEvalPS (polyEvaluation powers powers2 k) k m coefficients

def internalEvalPolyPSWithPrecomp (ctxtPowers : SeriesPowers R) (coefficients : List F) :
    Option R :=
  internalEvalPSWithPrecomp
    (polyEvaluation ctxtPowers.powersRe ctxtPowers.powers2Re ctxtPowers.k) ctxtPowers coefficients

def evalPolyPS (x : R) (coeffs : List F) : Option R := do
  let n <- degree coeffs
  let ctxtPowers <- internalEvalPowersPS x n
  internalEvalPolyPSWithPrecomp ctxtPowers coeffs

/-!
## Powers
-/

/-- The first `n` powers of `x`, and the counters at power `n + 1`. -/
structure PowersUpTo (x : R) (n : Nat) (s : PowersState R) : Prop where
  powers : IsTable (fun i => x ^ (i + 1)) n s.powers
  even : exists h, 0 < h ∧ s.powerOf2 = 2 * h
  sum : s.powerOf2 + s.rem = n + 1
  rem_lt : s.rem < s.powerOf2

omit [DecidableEq F] [Field F] [Algebra F R] in
theorem powersStep_spec {x : R} {n : Nat} {s : PowersState R} (h : PowersUpTo x n s) :
    exists s', powersStep s = some s' ∧ PowersUpTo x (n + 1) s' := by
  rcases h.even with ⟨half, hhalf, heven⟩
  have hsum := h.sum
  have hlt := h.rem_lt
  have hpower : exists y, (if s.rem = 0 then do
        let p <- s.powers[(s.powerOf2 >>> 1) - 1]?
        return p * p
      else do
        let p <- s.powers[s.powerOf2 - 1]?
        let r <- s.powers[s.rem - 1]?
        return p * r) = some y ∧ y = x ^ (n + 1) := by
    by_cases hrem : s.rem = 0
    · have hshift : s.powerOf2 >>> 1 = half := by
        rw [heven, Nat.shiftRight_eq_div_pow]
        omega
      refine ⟨x ^ half * x ^ half, ?_, ?_⟩
      · rw [if_pos hrem, hshift, h.powers.value (half - 1) (by omega), Nat.sub_add_cancel hhalf]
        rfl
      · rw [<- pow_add]
        congr 1
        omega
    · refine ⟨x ^ s.powerOf2 * x ^ s.rem, ?_, ?_⟩
      · rw [if_neg hrem, h.powers.value (s.powerOf2 - 1) (by omega), h.powers.value (s.rem - 1) (by omega),
          Nat.sub_add_cancel (by omega), Nat.sub_add_cancel (by omega)]
        rfl
      · rw [<- pow_add]
        congr 1
  rcases hpower with ⟨y, hy, hvalue⟩
  unfold powersStep
  simp only [Option.bind_eq_bind] at hy ⊢
  rw [hy, Option.bind_some]
  by_cases hfull : s.rem + 1 = s.powerOf2
  · rw [if_pos hfull]
    refine ⟨_, rfl, h.powers.snoc hvalue, ⟨s.powerOf2, by omega, ?_⟩, ?_, ?_⟩
    · exact (Nat.shiftLeft_eq _ 1).trans (Nat.mul_comm _ _)
    · show s.powerOf2 <<< 1 + 0 = n + 1 + 1
      rw [Nat.shiftLeft_eq]
      omega
    · show 0 < s.powerOf2 <<< 1
      rw [Nat.shiftLeft_eq]
      omega
  · rw [if_neg hfull]
    refine ⟨_, rfl, h.powers.snoc hvalue, h.even, ?_, ?_⟩
    · show s.powerOf2 + (s.rem + 1) = n + 1 + 1
      omega
    · show s.rem + 1 < s.powerOf2
      omega

omit [DecidableEq F] [Field F] [Algebra F R] in
theorem PowersUpTo.init (x : R) : PowersUpTo x 1 { powers := [x], powerOf2 := 2, rem := 0 } := by
  constructor
  · exact IsTable.single (pow_one x).symm
  · exact ⟨1, Nat.one_pos, rfl⟩
  · rfl
  · exact Nat.two_pos

/-- The first `n` powers `x^{k * 2^i}` and their product. -/
structure Powers2UpTo (x : R) (k n : Nat) (s : List R × R) : Prop where
  powers : IsTable (fun i => x ^ (k * 2 ^ i)) n s.1
  product : s.2 = x ^ (k * (2 ^ n - 1))

omit [DecidableEq F] [Field F] [Algebra F R] in
theorem Powers2UpTo.init (x : R) (k : Nat) : Powers2UpTo x k 1 ([x ^ k], x ^ k) := by
  constructor
  · exact IsTable.single (by rw [pow_zero, mul_one])
  · simp

omit [DecidableEq F] [Field F] [Algebra F R] in
theorem powers2Step_spec {x : R} {k n : Nat} {s : List R × R} (h : Powers2UpTo x k (n + 1) s) :
    exists s', powers2Step s (n + 1) = some s' ∧ Powers2UpTo x k (n + 2) s' := by
  have hsquare : x ^ (k * 2 ^ n) * x ^ (k * 2 ^ n) = x ^ (k * 2 ^ (n + 1)) := by
    rw [<- pow_add]
    congr 1
    rw [Nat.pow_succ]
    ring
  refine ⟨(s.1 ++ [x ^ (k * 2 ^ (n + 1))], x ^ (k * 2 ^ (n + 1)) * s.2), ?_,
    h.powers.snoc rfl, ?_⟩
  · unfold powers2Step
    rw [Nat.add_sub_cancel, h.powers.value n (Nat.lt_succ_self n), Option.bind_eq_bind,
      Option.bind_some, hsquare]
    rfl
  · have hone := Nat.one_le_two_pow (n := n + 1)
    show x ^ (k * 2 ^ (n + 1)) * s.2 = x ^ (k * (2 ^ (n + 2) - 1))
    rw [h.product, <- pow_add, <- Nat.mul_add, Nat.pow_succ 2 (n + 1)]
    congr 2
    omega

omit [DecidableEq F] [Field F] [Algebra F R] in
theorem internalEvalPowersPS_spec (x : R) {n : Nat} (hn : 3 <= n) :
    exists p, internalEvalPowersPS x n = some p ∧ computeDegreesPS n = some (p.k, p.m) ∧
      (forall i, i < p.k -> p.powersRe[i]? = some (x ^ (i + 1))) ∧
      (forall i, i < p.m -> p.powers2Re[i]? = some (x ^ (p.k * 2 ^ i))) ∧
      p.power2km1Re = x ^ (p.k * (2 ^ p.m - 1)) := by
  rcases computeDegreesPS_spec hn with ⟨k, m, hdegs, hk, hm, -⟩
  rcases foldlM_range'_spec 2 (n := k - 1)
    (f := fun (s : PowersState R) (_ : Nat) => powersStep s)
    (fun t s => PowersUpTo x (t + 1) s) (PowersUpTo.init x)
    (fun i hi s hs => powersStep_spec hs) with ⟨s, hs, hpowers⟩
  rw [Nat.sub_add_cancel hk] at hpowers
  have hback : s.powers.getLast? = some (x ^ k) := by
    rw [List.getLast?_eq_getElem?, hpowers.powers.length, hpowers.powers.value (k - 1) (by omega),
      Nat.sub_add_cancel hk]
  rcases foldlM_range'_spec 1 (n := m - 1) (f := powers2Step)
    (fun t s => Powers2UpTo x k (t + 1) s) (Powers2UpTo.init x k)
    (fun t ht s hs => by
      rw [Nat.add_comm 1 t]
      exact powers2Step_spec hs) with ⟨s2, hs2, hpowers2⟩
  rw [Nat.sub_add_cancel (by omega)] at hpowers2
  refine ⟨{ powersRe := s.powers, powers2Re := s2.1, power2km1Re := s2.2, k := k, m := m },
    ?_, hdegs, hpowers.powers.value, hpowers2.powers.value, hpowers2.product⟩
  unfold internalEvalPowersPS
  simp only [hdegs, hs, hback, hs2, Option.bind_eq_bind, Option.bind_some]
  rfl

/-!
## Evaluation
-/

theorem evalMonicPS_spec {x : R} {powers : List R} {k : Nat} (hk : 0 < k)
    (hpowers : forall i, i < k -> powers[i]? = some (x ^ (i + 1))) {q : List F}
    (hq : q.length = k + 1) (hmonic : q.getD k 0 = 1) :
    evalMonicPS powers k q = some (aeval x (series (powerBasis F) q)) := by
  have hbasis : forall n, aeval x (powerBasis F n) = x ^ n := fun n => aeval_X_pow x
  rcases addLowerTerms_spec (B := powerBasis F) (x := x) hk
    (fun i hi => by rw [hbasis]; exact hpowers i hi) hq
    (x ^ k + algebraMap F R (q.getD 0 0)) with ⟨low, hlow, hvalue⟩
  unfold evalMonicPS
  rw [hpowers (k - 1) (by omega), Nat.sub_add_cancel hk, List.head?_eq_getElem?,
    getElem?_eq_getD (by omega)]
  simp only [Option.bind_eq_bind, Option.bind_some]
  rw [hlow, hvalue, hmonic, hbasis, hbasis, one_smul, pow_zero, Algebra.algebraMap_eq_smul_one]
  congr 1
  ring

theorem evalCorrectionPS_spec {x : R} {powers powers2 : List R} {k m : Nat}
    (hpowers : forall i, i < k -> powers[i]? = some (x ^ (i + 1)))
    (hpowers2 : forall i, i < m -> powers2[i]? = some (x ^ (k * 2 ^ i))) {i : Nat} (hi : i < m)
    {c : List F} (hne : c ≠ []) (hc : c.length <= k) :
    evalCorrectionPS powers powers2 i c =
      some (aeval x (powerBasis F (k * 2 ^ i)) + aeval x (series (powerBasis F) c)) := by
  have hbasis : forall n, aeval x (powerBasis F n) = x ^ n := fun n => aeval_X_pow x
  have hlen : 0 < c.length := List.length_pos_of_ne_nil hne
  rcases degree_spec hne with ⟨n, hn, hlt, habove, -⟩
  have hvalue := aeval_series_succ (powerBasis F) x habove
  unfold evalCorrectionPS
  rw [hn, hpowers2 i hi, List.head?_eq_getElem?, getElem?_eq_getD hlen]
  simp only [Option.bind_eq_bind, Option.bind_some]
  simp only [hbasis, pow_zero, <- Algebra.algebraMap_eq_smul_one] at hvalue ⊢
  rw [hvalue]
  by_cases hzero : n = 0
  · rw [if_pos hzero, hzero, Finset.sum_range_zero, add_zero]
    rfl
  · rw [if_neg hzero]
    by_cases hone : n = 1
    · rw [if_pos hone, List.head?_eq_getElem?, hpowers 0 (by omega),
        getElem?_eq_getD (show 1 < c.length by omega), hone, Finset.sum_range_one]
      simp only [Option.bind_some, Option.pure_def]
      by_cases hcoeff : c.getD 1 0 = 1
      · rw [if_neg (not_not.mpr hcoeff), hcoeff, one_smul]
        congr 1
        ring
      · rw [if_pos hcoeff]
        congr 1
        ring
    · rw [if_neg hone, evalPartialLinearWSum_spec (b := fun i => x ^ i) (by omega) hlt
        (fun i hi => hpowers i (by omega))]
      simp only [Option.bind_some, Option.pure_def]
      congr 1
      ring

theorem polyEvaluation_correct {x : R} {powers powers2 : List R} {k m : Nat} (hk : 0 < k)
    (hpowers : forall i, i < k -> powers[i]? = some (x ^ (i + 1)))
    (hpowers2 : forall i, i < m -> powers2[i]? = some (x ^ (k * 2 ^ i))) :
    (polyEvaluation (F := F) powers powers2 k).Correct (powerBasis F) x k m (fun v => v = 1) := by
  have hlead : forall n, (powerBasis F n).leadingCoeff = 1 := fun n => monic_X_pow n
  constructor
  · exact longDivisionPoly_spec
  · rfl
  · rintro u rfl
    exact one_ne_zero
  · rintro K u v - rfl h
    rw [hlead, hlead, hlead] at h
    simpa using h.symm
  · exact fun hq hmonic => evalMonicPS_spec hk hpowers hq hmonic
  · exact fun hs hmonic => evalMonicPS_spec hk hpowers hs hmonic
  · exact fun _ hi hne hc => evalCorrectionPS_spec hpowers hpowers2 hi hne hc

/--
No rest of the recursion is monic of the degree of the power that is subtracted from it:
the polynomial with its additional leading term splits.
-/
def SplitsPowers (coeffs : List F) (n : Nat) : Prop :=
  forall k m, computeDegreesPS n = some (k, m) ->
    RecursionSplits (powerBasis F) k m (series (powerBasis F) coeffs + X ^ (k * (2 ^ m - 1)))

omit [DecidableEq F] in
theorem aeval_series_powers (x : R) (coeffs : List F) :
    aeval x (series (powerBasis F) coeffs) =
      ∑ i ∈ Finset.range coeffs.length, coeffs.getD i 0 • x ^ i := by
  rw [aeval_series]
  exact Finset.sum_congr rfl fun i _ => congrArg _ (aeval_X_pow x)

theorem evalPolyPS_iff (x : R) (coeffs : List F) {n : Nat} (hdegree : degree coeffs = some n)
    (hn : 5 <= n) :
    evalPolyPS x coeffs = some (∑ i ∈ Finset.range coeffs.length, coeffs.getD i 0 • x ^ i) <->
      SplitsPowers coeffs n := by
  rcases internalEvalPowersPS_spec x (show 3 <= n by omega) with
    ⟨p, hp, hdegs, hpowers, hpowers2, hproduct⟩
  rcases computeDegreesPS_spec (show 3 <= n by omega) with ⟨k, m, hkm, hk, hm, hlt⟩
  have hpkm := Option.some.inj (hdegs.symm.trans hkm)
  have hpk : p.k = k := congrArg Prod.fst hpkm
  have hpm : p.m = m := congrArg Prod.snd hpkm
  have hiff := internalEvalPS_iff
    (polyEvaluation_correct (F := F) (hpk ▸ hk) hpowers hpowers2) (hpk ▸ hk) (hpm ▸ hm)
    (p := p) rfl rfl (hproduct.trans (aeval_X_pow x).symm) hdegree
    (by rw [hpk, hpm]; exact hlt)
  have hrun : evalPolyPS x coeffs = internalEvalPolyPSWithPrecomp p coeffs := by
    unfold evalPolyPS
    rw [hdegree, Option.bind_eq_bind, Option.bind_some, hp]
    rfl
  rw [hrun, <- aeval_series_powers]
  refine hiff.trans ⟨?_, fun h => h p.k p.m hdegs⟩
  intro h k' m' hkm'
  have heq := Option.some.inj (hdegs.symm.trans hkm')
  cases heq
  exact h

/-- The rest modulo `x^4` of `x^6 + x^5 + x^2` is monic of degree 2. -/
theorem evalPolyPS_middle_power :
    evalPolyPS (2 : ℚ) ([0, 0, 1, 0, 0, 1] : List ℚ) ≠
      some (∑ i ∈ Finset.range 6, ([0, 0, 1, 0, 0, 1] : List ℚ).getD i 0 • (2 : ℚ) ^ i) := by
  have hnone : evalPolyPS (2 : ℚ) ([0, 0, 1, 0, 0, 1] : List ℚ) = none := by decide +kernel
  rw [hnone]
  exact (Option.some_ne_none _).symm

theorem splitsPowers_degree_five :
    SplitsPowers ([1, 0, 2, 0, 0, 1] : List ℚ) 5 := by
  apply (evalPolyPS_iff (2 : ℚ) [1, 0, 2, 0, 0, 1] (by decide) le_rfl).mp
  have hvalue : evalPolyPS (2 : ℚ) ([1, 0, 2, 0, 0, 1] : List ℚ) = some 41 := by decide +kernel
  rw [hvalue]
  simp [Finset.sum_range_succ]
  norm_num

end Ckksrns
end Scheme
end OpenFHE
