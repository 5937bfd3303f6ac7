import OpenFHE.Scheme.Ckksrns.PatersonStockmeyer
import Mathlib.Algebra.Algebra.Rat

/-!
# Evaluation of Chebyshev series

`EvalChebyshevSeriesPS` rescales its argument, computes the Chebyshev polynomials by
`T_{2i} = 2 T_i^2 - 1` and `T_{2i+1} = 2 T_i T_{i+1} - T_1`, and evaluates the series by
the recursion of Paterson and Stockmeyer.  `std::log2(ToReal(v))`, converted to `uint32_t`,
is a parameter.
-/

namespace OpenFHE
namespace Scheme
namespace Ckksrns

open Foundation
open Polynomial

attribute [local instance] two_atLeastTwo

variable {F R : Type _} [Field F] [DecidableEq F] [CommRing R] [Algebra F R]

/-- `y = -1 + 2 (x-a)/(b-a)`.  The quotient is infinite in the source for `a = b`, and zero
here. -/
def linearTransform (x : R) (a b : F) : R :=
  if a = -1 ∧ b = 1 then x
  else
    let alpha := 2 / (b - a)
    let beta := a * alpha
    alpha • x + algebraMap F R (-1 - beta)

/-- `T_i` for the next `i`. -/
def chebyPolysStep (F : Type _) {R : Type _} [Field F] [CommRing R] [Algebra F R] (T : List R)
    (i : Nat) : Option (List R) :=
  if i % 2 = 1 then do
    let low <- T[i / 2 - 1]?
    let high <- T[i / 2]?
    let y <- T.head?
    return T ++ [low * high + low * high - y]
  else do
    let half <- T[i / 2 - 1]?
    return T ++ [half * half + half * half + algebraMap F R (-1)]

/-- `T_{k * 2^i}` for the next `i`, and `T_{k(2^{i+1} - 1)}`. -/
def chebyPolys2Step (F : Type _) {R : Type _} [Field F] [CommRing R] [Algebra F R]
    (s : List R × R) (i : Nat) : Option (List R × R) := do
  let half <- s.1[i - 1]?
  let front <- s.1.head?
  let t := half * half + half * half + algebraMap F R (-1)
  return (s.1 ++ [t], s.2 * t + s.2 * t - front)

def internalEvalChebyPolysPS (x : R) (degree : Nat) (a b : F) : Option (SeriesPowers R) := do
  let degs <- computeDegreesPS degree
  let k := degs.1
  let m := degs.2
  let T <- (List.range' 2 (k - 1)).foldlM (chebyPolysStep F) [linearTransform x a b]
  let back <- T.getLast?
  let s2 <- (List.range' 1 (m - 1)).foldlM (chebyPolys2Step F) ([back], back)
  return { powersRe := T, powers2Re := s2.1, power2km1Re := s2.2, k := k, m := m }

/-- `qu` for a series of degree `k` whose leading coefficient is a power of two. -/
def evalQuotientChebyshev (log2ToReal : F -> Nat) (T : List R) (k : Nat) (q : List F) :
    Option R := do
  let power <- T[k - 1]?
  let back <- q.getLast?
  let qu := (List.range (log2ToReal back)).foldl (fun qu _ => qu + qu) power
  let front <- q.head?
  addLowerTerms T k (qu + algebraMap F R (front / 2)) q

/-- `su` for a series of degree `k` with leading coefficient one. -/
def evalRestChebyshev (T : List R) (k : Nat) (s2 : List F) : Option R := do
  let power <- T[k - 1]?
  let su <- addLowerTerms T k power s2
  let front <- (resize s2 k).head?
  return su + algebraMap F R (front / 2)

/-- `cu`. -/
def evalCorrectionChebyshev (T T2 : List R) (i : Nat) (q : List F) : Option R := do
  let n <- degree q
  let middle <- T2[i]?
  let front <- q.head?
  if 1 <= n then
    let cu <- (if n = 1 then do
        let y <- T.head?
        let q1 <- q[1]?
        return (if q1 ≠ 1 then q1 • y else y)
      else evalPartialLinearWSum T q n)
    return middle + (cu + algebraMap F R (front / 2))
  else
    return middle + algebraMap F R (front / 2)

def chebyshevEvaluation (log2ToReal : F -> Nat) (T T2 : List R) (k : Nat) : Evaluation F R where
  longDivision := longDivisionChebyshev
  quotient := evalQuotientChebyshev log2ToReal T k
  rest := evalRestChebyshev T k
  correction := evalCorrectionChebyshev T T2

def innerEvalChebyshevPS (log2ToReal : F -> Nat) (coefficients : List F) (k m : Nat)
    (T T2 : List R) : Option R :=
  innerEvalPS (chebyshevEvaluation log2ToReal T T2 k) k m coefficients

def internalEvalChebyshevSeriesPSWithPrecomp (log2ToReal : F -> Nat)
    (ctxtPolys : SeriesPowers R) (coefficients : List F) : Option R :=
  internalEvalPSWithPrecomp
    (chebyshevEvaluation log2ToReal ctxtPolys.powersRe ctxtPolys.powers2Re ctxtPolys.k)
    ctxtPolys coefficients

def evalChebyshevSeriesPS (log2ToReal : F -> Nat) (x : R) (coeffs : List F) (a b : F) :
    Option R := do
  let n <- degree coeffs
  let ctxtPolys <- internalEvalChebyPolysPS x n a b
  internalEvalChebyshevSeriesPSWithPrecomp log2ToReal ctxtPolys coeffs

/-!
## Chebyshev polynomials
-/

noncomputable def cheb (y : R) (n : Nat) : R := (Chebyshev.T R n).eval y

section Values

omit [DecidableEq F] [Field F] [Algebra F R]

theorem cheb_zero (y : R) : cheb y 0 = 1 := by
  simp [cheb]

theorem cheb_one (y : R) : cheb y 1 = y := by
  simp [cheb]

theorem cheb_mul (y : R) {m n : Nat} (h : n <= m) :
    cheb y m * cheb y n + cheb y m * cheb y n = cheb y (m + n) + cheb y (m - n) := by
  have hproduct := congrArg (eval y) (Chebyshev.T_mul_T R m n)
  rw [eval_mul, eval_mul, eval_add, <- Nat.cast_add, <- Nat.cast_sub h] at hproduct
  have htwo : eval y (2 : R[X]) = 2 := eval_ofNat 2 y
  rw [htwo] at hproduct
  unfold cheb
  linear_combination hproduct

structure Chebyshev2UpTo (y : R) (k n : Nat) (s : List R × R) : Prop where
  values : IsTable (fun i => cheb y (k * 2 ^ i)) n s.1
  last : s.2 = cheb y (k * (2 ^ n - 1))

theorem Chebyshev2UpTo.init (y : R) (k : Nat) : Chebyshev2UpTo y k 1 ([cheb y k], cheb y k) := by
  constructor
  · exact IsTable.single (by rw [pow_zero, mul_one])
  · simp

end Values

omit [DecidableEq F] in
theorem chebyPolysStep_spec {y : R} {n : Nat} {T : List R} (hn : 0 < n)
    (h : IsTable (fun i => cheb y (i + 1)) n T) :
    exists T', chebyPolysStep F T (n + 1) = some T' ∧
      IsTable (fun i => cheb y (i + 1)) (n + 1) T' := by
  refine ⟨T ++ [cheb y (n + 1)], ?_, h.snoc rfl⟩
  unfold chebyPolysStep
  by_cases hodd : (n + 1) % 2 = 1
  · have hhalf : 0 < (n + 1) / 2 := by omega
    have hmul := cheb_mul y (Nat.le_add_right ((n + 1) / 2) 1)
    rw [show (n + 1) / 2 + 1 + (n + 1) / 2 = n + 1 by omega, Nat.add_sub_cancel_left,
      cheb_one] at hmul
    rw [if_pos hodd, h.value ((n + 1) / 2 - 1) (by omega), Nat.sub_add_cancel hhalf,
      h.value ((n + 1) / 2) (by omega), List.head?_eq_getElem?, h.value 0 hn, cheb_one]
    simp only [Option.bind_eq_bind, Option.bind_some, Option.pure_def]
    congr 3
    linear_combination hmul
  · have hhalf : 0 < (n + 1) / 2 := by omega
    have hmul := cheb_mul y (le_refl ((n + 1) / 2))
    rw [show (n + 1) / 2 + (n + 1) / 2 = n + 1 by omega, Nat.sub_self, cheb_zero] at hmul
    rw [if_neg hodd, h.value ((n + 1) / 2 - 1) (by omega), Nat.sub_add_cancel hhalf]
    simp only [Option.bind_eq_bind, Option.bind_some, Option.pure_def, map_neg, map_one]
    congr 3
    linear_combination hmul

omit [DecidableEq F] in
theorem chebyPolys2Step_spec {y : R} {k n : Nat} {s : List R × R}
    (h : Chebyshev2UpTo y k (n + 1) s) :
    exists s', chebyPolys2Step F s (n + 1) = some s' ∧ Chebyshev2UpTo y k (n + 2) s' := by
  have hpow : k * 2 ^ (n + 1) = k * 2 ^ n + k * 2 ^ n := by
    rw [Nat.pow_succ]
    ring
  have ht : cheb y (k * 2 ^ n) * cheb y (k * 2 ^ n) + cheb y (k * 2 ^ n) * cheb y (k * 2 ^ n) +
      algebraMap F R (-1) = cheb y (k * 2 ^ (n + 1)) := by
    have hmul := cheb_mul y (le_refl (k * 2 ^ n))
    rw [<- hpow, Nat.sub_self, cheb_zero] at hmul
    rw [map_neg, map_one]
    linear_combination hmul
  have hlast : s.2 * cheb y (k * 2 ^ (n + 1)) + s.2 * cheb y (k * 2 ^ (n + 1)) - cheb y k =
      cheb y (k * (2 ^ (n + 2) - 1)) := by
    have hmiddle : k * (2 ^ (n + 1) - 1) + k = k * 2 ^ (n + 1) := by
      rw [<- Nat.mul_succ, Nat.succ_eq_add_one, Nat.sub_add_cancel Nat.one_le_two_pow]
    have htop : k * (2 ^ (n + 2) - 1) + k = k * 2 ^ (n + 1) + k * 2 ^ (n + 1) := by
      rw [<- Nat.mul_succ, Nat.succ_eq_add_one, Nat.sub_add_cancel Nat.one_le_two_pow,
        Nat.pow_succ 2 (n + 1)]
      ring
    have hmul := cheb_mul y (show k * (2 ^ (n + 1) - 1) <= k * 2 ^ (n + 1) by omega)
    rw [show k * 2 ^ (n + 1) + k * (2 ^ (n + 1) - 1) = k * (2 ^ (n + 2) - 1) by omega,
      show k * 2 ^ (n + 1) - k * (2 ^ (n + 1) - 1) = k by omega] at hmul
    rw [h.last]
    linear_combination hmul
  refine ⟨(s.1 ++ [cheb y (k * 2 ^ (n + 1))], cheb y (k * (2 ^ (n + 2) - 1))), ?_,
    h.values.snoc rfl, rfl⟩
  have hfront := h.values.value 0 (Nat.succ_pos n)
  simp only [pow_zero, mul_one] at hfront
  unfold chebyPolys2Step
  rw [Nat.add_sub_cancel, h.values.value n (Nat.lt_succ_self n), List.head?_eq_getElem?, hfront]
  simp only [Option.bind_eq_bind, Option.bind_some, Option.pure_def, ht, hlast]

theorem internalEvalChebyPolysPS_spec (x : R) (a b : F) {n : Nat} (hn : 3 <= n) :
    exists p, internalEvalChebyPolysPS x n a b = some p ∧
      computeDegreesPS n = some (p.k, p.m) ∧
      (forall i, i < p.k -> p.powersRe[i]? = some (cheb (linearTransform x a b) (i + 1))) ∧
      (forall i, i < p.m -> p.powers2Re[i]? = some (cheb (linearTransform x a b) (p.k * 2 ^ i))) ∧
      p.power2km1Re = cheb (linearTransform x a b) (p.k * (2 ^ p.m - 1)) := by
  rcases computeDegreesPS_spec hn with ⟨k, m, hdegs, hk, hm, -⟩
  generalize hy : linearTransform x a b = y
  rcases foldlM_range'_spec 2 (n := k - 1) (f := chebyPolysStep (R := R) F)
    (fun t T => IsTable (fun i => cheb y (i + 1)) (t + 1) T) (IsTable.single (cheb_one y).symm)
    (fun t ht T hT => by
      rw [Nat.add_comm 2 t]
      exact chebyPolysStep_spec (Nat.succ_pos t) hT) with ⟨T, hT, hvalues⟩
  rw [Nat.sub_add_cancel hk] at hvalues
  have hback : T.getLast? = some (cheb y k) := by
    rw [List.getLast?_eq_getElem?, hvalues.length, hvalues.value (k - 1) (by omega),
      Nat.sub_add_cancel hk]
  rcases foldlM_range'_spec 1 (n := m - 1) (f := chebyPolys2Step (R := R) F)
    (fun t s => Chebyshev2UpTo y k (t + 1) s) (Chebyshev2UpTo.init y k)
    (fun t ht s hs => by
      rw [Nat.add_comm 1 t]
      exact chebyPolys2Step_spec hs) with ⟨s2, hs2, hvalues2⟩
  rw [Nat.sub_add_cancel (by omega)] at hvalues2
  refine ⟨{ powersRe := T, powers2Re := s2.1, power2km1Re := s2.2, k := k, m := m },
    ?_, hdegs, hvalues.value, hvalues2.values.value, hvalues2.last⟩
  unfold internalEvalChebyPolysPS
  simp only [hdegs, hy, hT, hback, hs2, Option.bind_eq_bind, Option.bind_some]
  rfl

/-!
## Evaluation
-/

section Evaluation

variable [NeZero (2 : F)] {y : R} {T T2 : List R} {k m : Nat} {log2ToReal : F -> Nat}

omit [DecidableEq F] in
theorem aeval_chebyshevBasis {n : Nat} (hn : 0 < n) :
    aeval y (chebyshevBasis F n) = cheb y n := by
  rw [chebyshevBasis_of_pos hn, Chebyshev.aeval_T]
  rfl

omit [DecidableEq F] in
theorem smul_aeval_chebyshevBasis_zero (v : F) :
    v • aeval y (chebyshevBasis F 0) = algebraMap F R (v / 2) := by
  rw [chebyshevBasis_zero, aeval_C, Algebra.smul_def, <- map_mul, div_eq_mul_inv]

omit [Field F] [DecidableEq F] [Algebra F R] [NeZero (2 : F)] in
theorem double_eq (n : Nat) (v : R) :
    (List.range n).foldl (fun qu _ => qu + qu) v = 2 ^ n * v := by
  induction n with
  | zero => simp
  | succ n ih =>
      rw [List.range_succ, List.foldl_append, ih, List.foldl_cons, List.foldl_nil]
      ring

theorem evalQuotientChebyshev_spec (hlog : forall i, log2ToReal (2 ^ i) = i) (hk : 0 < k)
    (hT : forall i, i < k -> T[i]? = some (cheb y (i + 1))) {q : List F}
    (hq : q.length = k + 1) (hlead : exists i, q.getD k 0 = 2 ^ i) :
    evalQuotientChebyshev log2ToReal T k q = some (aeval y (series (chebyshevBasis F) q)) := by
  rcases hlead with ⟨i, hi⟩
  rcases addLowerTerms_spec (B := chebyshevBasis F) (x := y) hk
    (fun i hi => by rw [aeval_chebyshevBasis (Nat.succ_pos i)]; exact hT i hi) hq
    (2 ^ i * cheb y k + algebraMap F R (q.getD 0 0 / 2)) with ⟨low, hlow, hvalue⟩
  unfold evalQuotientChebyshev
  rw [hT (k - 1) (by omega), Nat.sub_add_cancel hk, getLast?_eq_getD hq,
    List.head?_eq_getElem?, getElem?_eq_getD (by omega)]
  simp only [Option.bind_eq_bind, Option.bind_some]
  rw [hi, hlog, double_eq, hlow, hvalue, smul_aeval_chebyshevBasis_zero, hi,
    aeval_chebyshevBasis hk, Algebra.smul_def, map_pow, map_ofNat]
  congr 1
  ring

theorem evalRestChebyshev_spec (hk : 0 < k)
    (hT : forall i, i < k -> T[i]? = some (cheb y (i + 1))) {s2 : List F}
    (hs2 : s2.length = k + 1) (hlead : s2.getD k 0 = 1) :
    evalRestChebyshev T k s2 = some (aeval y (series (chebyshevBasis F) s2)) := by
  rcases addLowerTerms_spec (B := chebyshevBasis F) (x := y) hk
    (fun i hi => by rw [aeval_chebyshevBasis (Nat.succ_pos i)]; exact hT i hi) hs2
    (cheb y k) with ⟨low, hlow, hvalue⟩
  unfold evalRestChebyshev
  rw [hT (k - 1) (by omega), Nat.sub_add_cancel hk, Option.bind_eq_bind, Option.bind_some, hlow,
    List.head?_eq_getElem?, getElem?_eq_getD (by rw [length_resize]; exact hk), getD_resize,
    if_pos hk]
  simp only [Option.bind_eq_bind, Option.bind_some, Option.pure_def]
  rw [hvalue, hlead, smul_aeval_chebyshevBasis_zero, aeval_chebyshevBasis hk, one_smul]
  congr 1
  ring

theorem evalCorrectionChebyshev_spec (hk : 0 < k)
    (hT : forall i, i < k -> T[i]? = some (cheb y (i + 1)))
    (hT2 : forall i, i < m -> T2[i]? = some (cheb y (k * 2 ^ i))) {i : Nat} (hi : i < m)
    {c : List F} (hne : c ≠ []) (hc : c.length <= k) :
    evalCorrectionChebyshev T T2 i c =
      some (aeval y (chebyshevBasis F (k * 2 ^ i)) + aeval y (series (chebyshevBasis F) c)) := by
  have hlen : 0 < c.length := List.length_pos_of_ne_nil hne
  have hbasis : forall n, aeval y (chebyshevBasis F (n + 1)) = cheb y (n + 1) :=
    fun n => aeval_chebyshevBasis (Nat.succ_pos n)
  rcases degree_spec hne with ⟨n, hn, hlt, habove, -⟩
  have hvalue := aeval_series_succ (chebyshevBasis F) y habove
  rw [smul_aeval_chebyshevBasis_zero] at hvalue
  simp only [hbasis] at hvalue
  unfold evalCorrectionChebyshev
  rw [hn, hT2 i hi, List.head?_eq_getElem?, getElem?_eq_getD hlen, hvalue,
    aeval_chebyshevBasis (Nat.mul_pos hk (Nat.two_pow_pos i))]
  simp only [Option.bind_eq_bind, Option.bind_some, Option.pure_def]
  by_cases hzero : n = 0
  · rw [if_neg (by omega), hzero, Finset.sum_range_zero, add_zero]
  · rw [if_pos (by omega)]
    by_cases hone : n = 1
    · rw [if_pos hone, List.head?_eq_getElem?, hT 0 (by omega),
        getElem?_eq_getD (show 1 < c.length by omega), hone, Finset.sum_range_one]
      have hterm : (if c.getD 1 0 ≠ 1 then c.getD 1 0 • cheb y (0 + 1) else cheb y (0 + 1)) =
          c.getD 1 0 • cheb y (0 + 1) := by
        by_cases hcoeff : c.getD 1 0 = 1
        · rw [if_neg (not_not.mpr hcoeff), hcoeff, one_smul]
        · rw [if_pos hcoeff]
      simp only [Option.bind_some, hterm]
      congr 1
      ring
    · rw [if_neg hone, evalPartialLinearWSum_spec (b := fun i => cheb y i) (by omega) hlt
        (fun i hi => hT i (by omega))]
      simp only [Option.bind_some]
      congr 1
      ring

theorem chebyshevEvaluation_correct (hlog : forall i, log2ToReal (2 ^ i) = i) (hk : 0 < k)
    (hT : forall i, i < k -> T[i]? = some (cheb y (i + 1)))
    (hT2 : forall i, i < m -> T2[i]? = some (cheb y (k * 2 ^ i))) :
    (chebyshevEvaluation log2ToReal T T2 k).Correct (chebyshevBasis F) y k m
      (fun v => exists i, v = 2 ^ i) := by
  have hleadn : forall n, 0 < n -> (chebyshevBasis F n).leadingCoeff = 2 ^ (n - 1) := by
    intro n hn
    rw [chebyshevBasis_of_pos hn, Chebyshev.leadingCoeff_T]
    rfl
  constructor
  · exact longDivisionChebyshev_spec
  · exact ⟨0, (pow_zero 2).symm⟩
  · rintro u ⟨i, rfl⟩
    exact pow_ne_zero i two_ne_zero
  · rintro K u v hK ⟨i, rfl⟩ h
    refine ⟨i + 1, ?_⟩
    rw [hleadn _ (by omega), hleadn _ hK, hleadn _ (by omega), mul_assoc, <- pow_add,
      <- pow_add, show i + (2 * K + k - 1) = i + 1 + (K - 1 + (K + k - 1)) by omega,
      pow_add] at h
    exact (mul_right_cancel₀ (pow_ne_zero _ two_ne_zero) h).symm
  · exact fun hq hlead => evalQuotientChebyshev_spec hlog hk hT hq hlead
  · exact fun hs hlead => evalRestChebyshev_spec hk hT hs hlead
  · exact fun _ hi hne hc => evalCorrectionChebyshev_spec hk hT hT2 hi hne hc

/--
No rest of the recursion has the degree and the leading coefficient of the Chebyshev
polynomial that is subtracted from it: the series with its additional leading term splits.
-/
def SplitsChebyshev (coeffs : List F) (n : Nat) : Prop :=
  forall k m, computeDegreesPS n = some (k, m) ->
    RecursionSplits (chebyshevBasis F) k m
      (series (chebyshevBasis F) coeffs + Chebyshev.T F (k * (2 ^ m - 1) : Nat))

end Evaluation

theorem linearTransform_eq [NeZero (2 : F)] (x : R) (a b : F) :
    linearTransform x a b = -1 + (2 / (b - a)) • (x - algebraMap F R a) := by
  unfold linearTransform
  by_cases h : a = -1 ∧ b = 1
  · have hone : (2 : F) / (1 - -1) = 1 := by
      rw [sub_neg_eq_add, one_add_one_eq_two, div_self two_ne_zero]
    rw [if_pos h, h.1, h.2, hone, one_smul, map_neg, map_one]
    ring
  · rw [if_neg h]
    simp only [Algebra.smul_def, map_sub, map_neg, map_one, map_mul]
    ring

theorem evalChebyshevSeriesPS_iff [NeZero (2 : F)] {log2ToReal : F -> Nat}
    (hlog : forall i, log2ToReal (2 ^ i) = i) (x : R) (coeffs : List F) (a b : F) {n : Nat}
    (hdegree : degree coeffs = some n) (hn : 5 <= n) :
    evalChebyshevSeriesPS log2ToReal x coeffs a b =
        some (algebraMap F R (coeffs.getD 0 0 / 2) + ∑ i ∈ Finset.range n,
          coeffs.getD (i + 1) 0 • (Chebyshev.T R (i + 1 : Nat)).eval
            (-1 + (2 / (b - a)) • (x - algebraMap F R a))) <->
      SplitsChebyshev coeffs n := by
  rcases internalEvalChebyPolysPS_spec x a b (show 3 <= n by omega) with
    ⟨p, hp, hdegs, hT, hT2, hlast⟩
  rcases computeDegreesPS_spec (show 3 <= n by omega) with ⟨k, m, hkm, hk, hm, hlt⟩
  have hpkm := Option.some.inj (hdegs.symm.trans hkm)
  have hpk : p.k = k := congrArg Prod.fst hpkm
  have hpm : p.m = m := congrArg Prod.snd hpkm
  have htop : 0 < p.k * (2 ^ p.m - 1) := by
    rw [hpk, hpm]
    omega
  have hiff := internalEvalPS_iff
    (chebyshevEvaluation_correct hlog (hpk ▸ hk) hT hT2) (hpk ▸ hk) (hpm ▸ hm)
    (p := p) rfl rfl (hlast.trans (aeval_chebyshevBasis htop).symm) hdegree
    (by rw [hpk, hpm]; exact hlt)
  have hrun : evalChebyshevSeriesPS log2ToReal x coeffs a b =
      internalEvalChebyshevSeriesPSWithPrecomp log2ToReal p coeffs := by
    unfold evalChebyshevSeriesPS
    rw [hdegree, Option.bind_eq_bind, Option.bind_some, hp]
    rfl
  have hvalue : aeval (linearTransform x a b) (series (chebyshevBasis F) coeffs) =
      algebraMap F R (coeffs.getD 0 0 / 2) + ∑ i ∈ Finset.range n,
        coeffs.getD (i + 1) 0 • (Chebyshev.T R (i + 1 : Nat)).eval
          (-1 + (2 / (b - a)) • (x - algebraMap F R a)) := by
    have hne : coeffs ≠ [] := by
      rintro rfl
      cases hdegree
    rcases degree_spec hne with ⟨n', hn', -, habove, -⟩
    have hnn : n' = n := Option.some.inj (hn'.symm.trans hdegree)
    rw [hnn] at habove
    rw [aeval_series_succ (chebyshevBasis F) _ habove, smul_aeval_chebyshevBasis_zero,
      linearTransform_eq]
    congr 1
    apply Finset.sum_congr rfl
    intro i _
    rw [aeval_chebyshevBasis (Nat.succ_pos i)]
    rfl
  rw [chebyshevBasis_of_pos htop] at hiff
  rw [hrun, <- hvalue]
  refine hiff.trans ⟨?_, fun h => h p.k p.m hdegs⟩
  intro h k' m' hkm'
  have heq := Option.some.inj (hdegs.symm.trans hkm')
  cases heq
  exact h

/-- The logarithm of a rational number from one on, rounded down. -/
def log2Rat (v : ℚ) : Nat := Nat.log2 v.floor.toNat

theorem log2Rat_two_pow (i : Nat) : log2Rat (2 ^ i) = i := by
  have hfloor : ((2 : ℚ) ^ i).floor = 2 ^ i := by
    have hcast : ((2 : ℚ) ^ i) = ((2 ^ i : Int) : ℚ) := by push_cast; rfl
    rw [hcast]
    exact Rat.floor_intCast _
  rw [log2Rat, hfloor]
  exact Nat.log2_two_pow

/-- The rest of the division by `T_4` is `T_2`. -/
theorem evalChebyshevSeriesPS_middle_polynomial :
    evalChebyshevSeriesPS log2Rat (3 : ℚ) ([0, 0, 2, 1, 0, 1] : List ℚ) (-1) 1 ≠
      some (algebraMap ℚ ℚ (0 / 2) + ∑ i ∈ Finset.range 5,
        ([0, 0, 2, 1, 0, 1] : List ℚ).getD (i + 1) 0 • (Chebyshev.T ℚ (i + 1 : Nat)).eval
          (-1 + ((2 : ℚ) / (1 - -1)) • ((3 : ℚ) - algebraMap ℚ ℚ (-1)))) := by
  have hnone : evalChebyshevSeriesPS log2Rat (3 : ℚ) ([0, 0, 2, 1, 0, 1] : List ℚ) (-1) 1 =
      none := by decide +kernel
  rw [hnone]
  exact (Option.some_ne_none _).symm

theorem splitsChebyshev_degree_five : SplitsChebyshev ([2, 0, 1, 0, 0, 1] : List ℚ) 5 := by
  apply (evalChebyshevSeriesPS_iff log2Rat_two_pow (3 : ℚ) [2, 0, 1, 0, 0, 1] (-1) 1
    (by decide) le_rfl).mp
  have hrun : evalChebyshevSeriesPS log2Rat (3 : ℚ) ([2, 0, 1, 0, 0, 1] : List ℚ) (-1) 1 =
      some 3381 := by decide +kernel
  have hstep : forall n : Nat, cheb (3 : ℚ) (n + 2) = 6 * cheb 3 (n + 1) - cheb 3 n := by
    intro n
    have hmul := cheb_mul (3 : ℚ) (show 1 <= n + 1 by omega)
    rw [cheb_one, Nat.add_sub_cancel] at hmul
    linear_combination -hmul
  have hargument : (-1 + ((2 : ℚ) / (1 - -1)) • ((3 : ℚ) - algebraMap ℚ ℚ (-1))) = 3 := by
    rw [map_neg, map_one]
    norm_num
  have hsum : algebraMap ℚ ℚ (2 / 2) + ∑ i ∈ Finset.range 5,
      ([2, 0, 1, 0, 0, 1] : List ℚ).getD (i + 1) 0 • cheb (3 : ℚ) (i + 1) = 3381 := by
    simp only [Finset.sum_range_succ, Finset.sum_range_zero, List.getD_cons_succ,
      List.getD_cons_zero, hstep, zero_add, cheb_one, cheb_zero]
    norm_num
  rw [hrun, hargument]
  exact congrArg some hsum.symm

end Ckksrns
end Scheme
end OpenFHE
