import OpenFHE.Scheme.Ckksrns.LongDivision
import OpenFHE.Scheme.Ckksrns.Degrees

/-!
# The method of Paterson and Stockmeyer

`EvalPoly` and `EvalChebyshevSeries` evaluate a polynomial by the same recursion.  They
differ in the long division and in how they evaluate a polynomial of degree at most `k`
from the powers computed before.  Exact ring elements stand for the ciphertexts, so that
levels and rescaling are no part of the model.
-/

namespace OpenFHE
namespace Scheme
namespace Ckksrns

open Foundation
open Polynomial

/-- `seriesPowers`: the powers up to `k`, those of `k` times a power of two, and the power of
`k * (2 ^ m - 1)`. -/
structure SeriesPowers (R : Type _) where
  powersRe : List R
  powers2Re : List R
  power2km1Re : R
  k : Nat
  m : Nat

/-- The parts in which the two evaluations differ, over the powers that they are given. -/
structure Evaluation (F R : Type _) where
  longDivision : List F -> List F -> Option (LongDiv F)
  /-- `qu`, when the quotient is not evaluated recursively. -/
  quotient : List F -> Option R
  /-- `su`, when the rest is not evaluated recursively. -/
  rest : List F -> Option R
  /-- `cu`, from the index of the power of `k` and the second quotient. -/
  correction : Nat -> List F -> Option R

variable {F R : Type _} [Field F] [DecidableEq F] [CommRing R]

/-- Subtract `x^{k(2^{m-1} - 1)}` from `r`. -/
def subtractMiddle (k2m2k : Nat) (r : List F) : Option (List F) := do
  let n <- degree r
  if k2m2k <= n then
    let r := resize r (n + 1)
    let v <- r[k2m2k]?
    assign r k2m2k (v - 1)
  else
    assign (resize r (k2m2k + 1)) k2m2k (-1)

def innerEvalPS (e : Evaluation F R) (k : Nat) : Nat -> List F -> Option R
  | 0, _ => none
  | m + 1, coefficients => do
      let k2m2k := k * 2 ^ m - k
      let divqr <- e.longDivision coefficients (List.replicate (k2m2k + k) 0 ++ [1])
      let r2 <- subtractMiddle k2m2k divqr.r
      let divcs <- e.longDivision r2 divqr.q
      let dq <- degree divqr.q
      let qu <- (if k < dq then innerEvalPS e k m divqr.q else e.quotient divqr.q)
      let s2 <- assign (resize divcs.r (k2m2k + 1)) k2m2k 1
      let ds <- degree s2
      let su <- (if k < ds then innerEvalPS e k m s2 else e.rest s2)
      let cu <- e.correction m divcs.q
      return cu * qu + su

/-- The polynomial gets a leading term of degree `k(2^m - 1)`, which is subtracted from the
result. -/
def internalEvalPSWithPrecomp (e : Evaluation F R) (ctxtPowers : SeriesPowers R)
    (coefficients : List F) : Option R := do
  let k := ctxtPowers.k
  let k2m2k := k * 2 ^ (ctxtPowers.m - 1) - k
  let n <- degree coefficients
  let f2 <- assign (resize (resize coefficients (n + 1)) (2 * k2m2k + k + 1)) (2 * k2m2k + k) 1
  let result <- innerEvalPS e k ctxtPowers.m f2
  return result - ctxtPowers.power2km1Re

structure IsTable {α : Type _} (f : Nat -> α) (n : Nat) (v : List α) : Prop where
  length : v.length = n
  value : forall i, i < n -> v[i]? = some (f i)

theorem IsTable.single {α : Type _} {f : Nat -> α} {x : α} (h : x = f 0) : IsTable f 1 [x] := by
  constructor
  · rfl
  · intro i hi
    rw [Nat.lt_one_iff.mp hi, h]
    rfl

theorem IsTable.snoc {α : Type _} {f : Nat -> α} {n : Nat} {v : List α} {x : α}
    (h : IsTable f n v) (hx : x = f n) : IsTable f (n + 1) (v ++ [x]) := by
  constructor
  · simp [h.length]
  · intro i hi
    rcases Nat.lt_succ_iff_lt_or_eq.mp hi with hbelow | heq
    · rw [List.getElem?_append_left (by rw [h.length]; exact hbelow)]
      exact h.value i hbelow
    · rw [heq, <- h.length, List.getElem?_concat_length, hx, h.length]

/-!
## Linear sums
-/

section Sums

variable [Algebra F R]

/-- `EvalPartialLinearWSum`, whose constants start at the second one. -/
def evalPartialLinearWSum (ciphertexts : List R) (constants : List F) (limit : Nat) :
    Option R := do
  let limit := if limit = 0 then ciphertexts.length else limit
  let ct <- ciphertexts[0]?
  let constant <- constants[1]?
  (List.range' 1 (limit - 1)).foldlM (fun sum i => do
    let ct <- ciphertexts[i]?
    let constant <- constants[i + 1]?
    return sum + constant • ct) (constant • ct)

/-- The terms below the leading one, after `resize(k)`. -/
def addLowerTerms (powers : List R) (k : Nat) (sum : R) (q : List F) : Option R := do
  let n <- degree (resize q k)
  if 0 < n then
    let low <- evalPartialLinearWSum powers (resize q k) n
    return sum + low
  else
    return sum

omit [DecidableEq F] in
theorem evalPartialLinearWSum_spec {cts : List R} {c : List F} {b : Nat -> R} {n : Nat}
    (hn : 0 < n) (hc : n < c.length) (hcts : forall i, i < n -> cts[i]? = some (b (i + 1))) :
    evalPartialLinearWSum cts c n =
      some (∑ i ∈ Finset.range n, c.getD (i + 1) 0 • b (i + 1)) := by
  unfold evalPartialLinearWSum
  simp only [if_neg hn.ne', hcts 0 hn, getElem?_eq_getD (show 1 < c.length by omega),
    Option.bind_eq_bind, Option.bind_some]
  rcases foldlM_range'_spec 1 (n := n - 1)
    (f := fun (sum : R) i => (cts[i]?).bind fun ct => ((c)[i + 1]?).bind fun constant =>
      pure (sum + constant • ct))
    (fun t sum => sum = ∑ i ∈ Finset.range (t + 1), c.getD (i + 1) 0 • b (i + 1))
    (by rw [Finset.sum_range_one])
    (by
      intro i hi sum hsum
      refine ⟨sum + c.getD (1 + i + 1) 0 • b (1 + i + 1), ?_, ?_⟩
      · rw [hcts (1 + i) (by omega), getElem?_eq_getD (show 1 + i + 1 < c.length by omega)]
        rfl
      · rw [hsum, Finset.sum_range_succ _ (i + 1), Nat.add_comm 1 i]) with ⟨sum, hsum, hvalue⟩
  rw [Nat.sub_add_cancel hn] at hvalue
  rw [<- hvalue]
  exact hsum

omit [DecidableEq F] in
theorem aeval_series_succ (B : Polynomial.Sequence F) (x : R) {c : List F} {n : Nat}
    (h : forall i, n < i -> c.getD i 0 = 0) :
    aeval x (series B c) = c.getD 0 0 • aeval x (B 0) +
      ∑ i ∈ Finset.range n, c.getD (i + 1) 0 • aeval x (B (i + 1)) := by
  rw [series_eq_sum_of_zero B (n := n + 1) h, map_sum, Finset.sum_range_succ', add_comm]
  simp only [map_mul, aeval_C, Algebra.smul_def]

theorem addLowerTerms_spec {B : Polynomial.Sequence F} {x : R} {powers : List R} {k : Nat}
    (hk : 0 < k) (hpowers : forall i, i < k -> powers[i]? = some (aeval x (B (i + 1))))
    {q : List F} (hq : q.length = k + 1) (sum : R) :
    exists low, addLowerTerms powers k sum q = some (sum + low) ∧
      aeval x (series B q) = q.getD 0 0 • aeval x (B 0) + low + q.getD k 0 • aeval x (B k) := by
  have hget : forall i, i < k -> (resize q k).getD i 0 = q.getD i 0 := by
    intro i hi
    rw [getD_resize, if_pos hi]
  have hlength := length_resize q k
  rcases degree_spec (c := resize q k) (List.ne_nil_of_length_pos (by omega)) with
    ⟨n, hn, hlt, habove, -⟩
  have hseries : series B q = series B (resize q k) + C (q.getD k 0) * B k := by
    apply series_add_single
    intro i
    rw [getD_resize]
    rcases Nat.lt_trichotomy i k with hbelow | heq | hgt
    · rw [if_pos hbelow, if_neg (by omega), add_zero]
    · rw [if_neg (by omega), if_pos heq, heq, zero_add]
    · rw [if_neg (by omega), if_neg (by omega), List.getD_eq_default q 0 (by omega), add_zero]
  refine ⟨∑ i ∈ Finset.range n, (resize q k).getD (i + 1) 0 • aeval x (B (i + 1)), ?_, ?_⟩
  · unfold addLowerTerms
    rw [hn, Option.bind_eq_bind, Option.bind_some]
    by_cases hpos : 0 < n
    · rw [if_pos hpos, evalPartialLinearWSum_spec hpos (by omega)
        (b := fun i => aeval x (B i)) (fun i hi => hpowers i (by omega))]
      rfl
    · rw [if_neg hpos, show n = 0 by omega, Finset.sum_range_zero, add_zero]
      rfl
  · rw [hseries, map_add, aeval_series_succ B x habove, hget 0 hk, map_mul, aeval_C,
      <- Algebra.smul_def]

end Sums

/-!
## One level of the recursion
-/

theorem subtractMiddle_spec {K L : Nat} {r : List F} (hne : r ≠ []) (hlen : r.length <= L)
    (hK : K < L) :
    exists r2 N, subtractMiddle K r = some r2 ∧ r2.length = N + 1 ∧ K <= N ∧ N < L ∧
      (forall i, r2.getD i 0 = r.getD i 0 + if i = K then -1 else 0) ∧
      (r2.getD N 0 ≠ 0 ∨ N = K) := by
  rcases degree_spec hne with ⟨n, hn, hlt, habove, htop⟩
  unfold subtractMiddle
  rw [hn, Option.bind_eq_bind, Option.bind_some]
  by_cases hle : K <= n
  · have hresize : forall i, (resize r (n + 1)).getD i 0 = r.getD i 0 := by
      intro i
      rw [getD_resize]
      by_cases hi : i < n + 1
      · rw [if_pos hi]
      · rw [if_neg hi, habove i (by omega)]
    rcases assign_spec (v := resize r (n + 1)) (i := K) (r.getD K 0 - 1)
      (by rw [length_resize]; omega) with ⟨r2, hr2, hr2len, hget⟩
    have hentry : forall i, r2.getD i 0 = r.getD i 0 + if i = K then -1 else 0 := by
      intro i
      rw [hget, hresize]
      by_cases hi : i = K
      · rw [if_pos hi, if_pos hi, hi, sub_eq_add_neg]
      · rw [if_neg hi, if_neg hi, add_zero]
    refine ⟨r2, n, ?_, hr2len.trans (length_resize _ _), hle, by omega, hentry, ?_⟩
    · rw [if_pos hle]
      simp only [getElem?_eq_getD (show K < (resize r (n + 1)).length by
        rw [length_resize]; omega), hresize, Option.bind_some, Option.bind_eq_bind]
      exact hr2
    · by_cases heq : n = K
      · exact Or.inr heq
      · left
        rw [hentry, if_neg heq, add_zero]
        cases htop with
        | inl hzero => omega
        | inr h => exact h
  · rcases assign_spec (v := resize r (K + 1)) (i := K) (-1 : F)
      (by rw [length_resize]; omega) with ⟨r2, hr2, hr2len, hget⟩
    refine ⟨r2, K, ?_, hr2len.trans (length_resize _ _), le_rfl, hK, ?_, Or.inr rfl⟩
    · rw [if_neg hle]
      exact hr2
    · intro i
      rw [hget, getD_resize]
      rcases Nat.lt_trichotomy i K with hbelow | heq | hgt
      · rw [if_neg (by omega), if_pos (by omega), if_neg (by omega), add_zero]
      · rw [if_pos heq, if_pos heq, heq, habove K (by omega), zero_add]
      · rw [if_neg (by omega), if_neg (by omega), if_neg (by omega), habove i (by omega),
          add_zero]

/--
What the recursion asks of its parts: the division divides in the sequence `B`, the
evaluations are exact at `x`, and the leading coefficients that reach `quotient` stay in
`Lead`.
-/
structure Evaluation.Correct [Algebra F R] (e : Evaluation F R) (B : Polynomial.Sequence F)
    (x : R) (k m : Nat) (Lead : F -> Prop) : Prop where
  longDivision : IsLongDivision B e.longDivision
  lead_one : Lead 1
  lead_ne : forall {u}, Lead u -> u ≠ 0
  lead_quotient : forall {K : Nat} {u v : F}, 0 < K -> Lead u ->
    u * (B (2 * K + k)).leadingCoeff = v * (B K).leadingCoeff * (B (K + k)).leadingCoeff ->
    Lead v
  quotient : forall {q : List F}, q.length = k + 1 -> Lead (q.getD k 0) ->
    e.quotient q = some (aeval x (series B q))
  rest : forall {s : List F}, s.length = k + 1 -> s.getD k 0 = 1 ->
    e.rest s = some (aeval x (series B s))
  correction : forall {i : Nat} {c : List F}, 0 < i -> i < m -> c ≠ [] -> c.length <= k ->
    e.correction i c = some (aeval x (B (k * 2 ^ i)) + aeval x (series B c))

section Recursion

variable [Algebra F R] {e : Evaluation F R} {B : Polynomial.Sequence F} {x : R} {k m : Nat}
variable {Lead : F -> Prop}

omit [DecidableEq F] in
theorem lead_of_identity {K : Nat} {f q r : List F} (hf : f.length = 2 * K + k + 1)
    (hq : q.length = K + 1) (hr : r.length <= 2 * K + k)
    (h : series B f = series B q * B (K + k) + series B r) :
    f.getD (2 * K + k) 0 * (B (2 * K + k)).leadingCoeff =
      q.getD K 0 * (B K).leadingCoeff * (B (K + k)).leadingCoeff := by
  have htop : (series B q).coeff K = q.getD K 0 * (B K).leadingCoeff :=
    coeff_series B fun i hi => List.getD_eq_default q 0 (by omega)
  have hdegree : (series B q).natDegree <= K := by
    rw [natDegree_le_iff_degree_le]
    apply Order.le_of_lt_succ
    have hlt := degree_series_lt B q
    rw [hq] at hlt
    exact_mod_cast hlt
  have hrest : (series B r).coeff (2 * K + k) = 0 := by
    apply coeff_eq_zero_of_degree_lt
    exact (degree_series_lt B r).trans_le (by exact_mod_cast hr)
  have hsum : 2 * K + k = K + (K + k) := by omega
  calc
    f.getD (2 * K + k) 0 * (B (2 * K + k)).leadingCoeff = (series B f).coeff (2 * K + k) :=
      (coeff_series B fun i hi => List.getD_eq_default f 0 (by omega)).symm
    _ = (series B q * B (K + k)).coeff (K + (K + k)) := by
      rw [h, coeff_add, hrest, add_zero, hsum]
    _ = (series B q).coeff K * (B (K + k)).coeff (K + k) :=
      coeff_mul_add_eq_of_natDegree_le hdegree (B.natDegree_eq _).le
    _ = q.getD K 0 * (B K).leadingCoeff * (B (K + k)).leadingCoeff := by
      rw [htop, leadingCoeff, leadingCoeff, B.natDegree_eq, B.natDegree_eq]

/-- The level `i + 1`: it fails in the second division or passes on two polynomials. -/
theorem innerEvalPS_level (h : e.Correct B x k m Lead) (hk : 0 < k) {i : Nat} (hi : 0 < i)
    (him : i < m) {K : Nat} (hK : K = k * 2 ^ i - k) {f : List F}
    (hf : f.length = 2 * K + k + 1) (hlead : Lead (f.getD (2 * K + k) 0)) :
    (¬ (K : WithBot Nat) <= (series B f % B (K + k) - B K).degree ∧
      innerEvalPS e k (i + 1) f = none) ∨
    ((K : WithBot Nat) <= (series B f % B (K + k) - B K).degree ∧
      exists (q s2 : List F) (cu : R), q.length = K + 1 ∧ Lead (q.getD K 0) ∧
        s2.length = K + 1 ∧ s2.getD K 0 = 1 ∧ series B f / B (K + k) = series B q ∧
        (series B f % B (K + k) - B K) % series B q + B K = series B s2 ∧
        aeval x (series B f) = cu * aeval x (series B q) + aeval x (series B s2) ∧
        innerEvalPS e k (i + 1) f = do
          let qu <- (if k < K then innerEvalPS e k i q else e.quotient q)
          let su <- (if k < K then innerEvalPS e k i s2 else e.rest s2)
          return cu * qu + su) := by
  have hdouble : 2 <= 2 ^ i := Nat.le_self_pow hi.ne' 2
  have hmiddle : K + k = k * 2 ^ i := by
    have := Nat.mul_le_mul_left k hdouble
    omega
  have hKpos : 0 < K := by
    have := Nat.mul_le_mul_left k hdouble
    omega
  have hxkm : (List.replicate (K + k) (0 : F) ++ [1]).length = K + k + 1 := by simp
  have hxkmtop : (List.replicate (K + k) (0 : F) ++ [1]).getD (K + k) 0 ≠ 0 := by
    rw [getD_replicate_append, if_pos rfl]
    exact one_ne_zero
  rcases h.longDivision.divides hf (h.lead_ne hlead) hxkm hxkmtop (by omega) (by omega) with
    ⟨divqr, hdivqr, hqr⟩
  have hidentity := hqr.identity
  have hqlen := hqr.quotient_length
  have hrlen := hqr.rest_length
  rw [hf, hxkm] at hqlen
  rw [hxkm] at hrlen
  rw [series_replicate_append, C_1, one_mul] at hidentity
  have hqlength : divqr.q.length = K + 1 := by omega
  have hqlead : Lead (divqr.q.getD K 0) :=
    h.lead_quotient hKpos hlead (lead_of_identity hf hqlength (by omega) hidentity)
  have hqne := h.lead_ne hqlead
  rcases div_mod_of_eq hidentity (by
    rw [B.degree_eq]
    exact (degree_series_lt B divqr.r).trans_le (by exact_mod_cast Nat.le_of_lt_succ hrlen)) with
    ⟨hdiv, hmod⟩
  rcases subtractMiddle_spec hqr.rest_nonempty (Nat.le_of_lt_succ hrlen)
    (show K < K + k by omega) with ⟨r2, N, hr2, hr2len, hKN, hN, hr2get, hr2top⟩
  have hr2series : series B r2 = series B f % B (K + k) - B K := by
    rw [hmod, series_add_single B hr2get, C_neg, C_1]
    ring
  have hunfold : innerEvalPS e k (i + 1) f = (e.longDivision r2 divqr.q).bind fun divcs => do
      let dq <- degree divqr.q
      let qu <- (if k < dq then innerEvalPS e k i divqr.q else e.quotient divqr.q)
      let s2 <- assign (resize divcs.r (K + 1)) K 1
      let ds <- degree s2
      let su <- (if k < ds then innerEvalPS e k i s2 else e.rest s2)
      let cu <- e.correction i divcs.q
      return cu * qu + su := by
    rw [innerEvalPS]
    simp only [<- hK, hdivqr, hr2, Option.bind_eq_bind, Option.bind_some]
  rw [<- hr2series, hunfold, hdiv]
  by_cases hzero : r2.getD N 0 = 0
  · -- the second division rejects a leading coefficient of zero
    left
    have hNK : N = K := by
      cases hr2top with
      | inl hne => exact absurd hzero hne
      | inr heq => exact heq
    have hdegree : (series B r2).degree < K := by
      apply degree_series_lt_of_zero
      intro a ha
      rcases Nat.eq_or_lt_of_le ha with heq | hlt
      · rw [<- heq, <- hNK]
        exact hzero
      · exact List.getD_eq_default r2 0 (by omega)
    refine ⟨not_le.mpr hdegree, ?_⟩
    rw [h.longDivision.throws divqr.q (n := K - 1) (by omega)
      (by rw [Nat.sub_add_cancel hKpos, <- hNK]; exact hzero)]
    rfl
  · right
    rcases h.longDivision.divides hr2len hzero hqlength hqne hKpos hKN with
      ⟨divcs, hdivcs, hcs⟩
    have hclen := hcs.quotient_length
    have hslen := hcs.rest_length
    rw [hr2len, hqlength] at hclen
    rw [hqlength] at hslen
    rcases div_mod_of_eq hcs.identity (by
      rw [degree_series B hqlength hqne]
      exact (degree_series_lt B divcs.r).trans_le
        (by exact_mod_cast Nat.le_of_lt_succ hslen)) with ⟨-, hmod2⟩
    rcases assign_spec (v := resize divcs.r (K + 1)) (i := K) (1 : F)
      (by rw [length_resize]; omega) with ⟨s2, hs2, hs2len, hs2get⟩
    rw [length_resize] at hs2len
    have hs2top : s2.getD K 0 = 1 := by rw [hs2get, if_pos rfl]
    have hs2series : series B s2 = series B divcs.r + B K := by
      rw [series_add_single B (c := divcs.r) (n := K) (v := 1), C_1, one_mul]
      intro a
      rw [hs2get, getD_resize]
      rcases Nat.lt_trichotomy a K with hbelow | heq | hgt
      · rw [if_neg (by omega), if_pos (by omega), if_neg (by omega), add_zero]
      · rw [if_pos heq, if_pos heq, heq, List.getD_eq_default divcs.r 0 (by omega), zero_add]
      · rw [if_neg (by omega), if_neg (by omega), if_neg (by omega), add_zero,
          List.getD_eq_default divcs.r 0 (by omega)]
    have hcu := h.correction hi him (c := divcs.q)
      (List.ne_nil_of_length_pos (by omega)) (by omega)
    refine ⟨?_, divqr.q, s2, aeval x (B (k * 2 ^ i)) + aeval x (series B divcs.q), hqlength,
      hqlead, hs2len, hs2top, rfl, by rw [hmod2, hs2series], ?_, ?_⟩
    · rw [degree_series B hr2len hzero]
      exact_mod_cast hKN
    · have hsum : series B f =
          (B (K + k) + series B divcs.q) * series B divqr.q + series B s2 := by
        have hid := hcs.identity
        rw [hr2series, hmod] at hid
        rw [hs2series]
        linear_combination hidentity + hid
      rw [hsum, hmiddle, map_add, map_mul, map_add]
    · rw [hdivcs, degree_of_length hqlength hqne]
      simp only [Option.bind_some, Option.bind_eq_bind, hs2, hcu,
        degree_of_length hs2len (hs2top ▸ one_ne_zero)]

theorem innerEvalPS_spec (h : e.Correct B x k m Lead) (hk : 0 < k) (j : Nat)
    (hjm : j + 2 <= m) {f : List F} (hf : f.length = 2 * (k * 2 ^ (j + 1) - k) + k + 1)
    (hlead : Lead (f.getD (2 * (k * 2 ^ (j + 1) - k) + k) 0)) :
    (RecursionSplits B k (j + 2) (series B f) ->
      innerEvalPS e k (j + 2) f = some (aeval x (series B f))) ∧
    (¬ RecursionSplits B k (j + 2) (series B f) -> innerEvalPS e k (j + 2) f = none) := by
  induction j generalizing f with
  | zero =>
      have hK : k * 2 ^ (0 + 1) - k = k := by omega
      rw [hK] at hf hlead
      rcases innerEvalPS_level h hk Nat.one_pos hjm hK.symm hf hlead with
        ⟨hfail, hnone⟩ | ⟨hle, q, s2, cu, hq, hqlead, hs2, hs2top, hdiv, hmod, hsum, hrun⟩
      · refine ⟨fun hsplits => ?_, fun _ => hnone⟩
        rw [RecursionSplits, hK] at hsplits
        exact absurd hsplits.1 hfail
      · constructor
        · intro _
          simp only [hrun, if_neg (Nat.lt_irrefl k), h.quotient hq hqlead,
            h.rest hs2 hs2top, hsum]
          rfl
        · intro hnot
          apply absurd _ hnot
          rw [RecursionSplits, hK]
          exact ⟨hle, trivial, trivial⟩
  | succ j ih =>
      generalize hK : k * 2 ^ (j + 1 + 1) - k = K at hf hlead
      have hhalf : K = 2 * (k * 2 ^ (j + 1) - k) + k := by
        have hone := Nat.mul_le_mul_left k (Nat.one_le_two_pow (n := j + 1))
        rw [<- hK, Nat.pow_succ, <- Nat.mul_assoc]
        omega
      have hkK : k < K := by
        have hdouble := Nat.mul_le_mul_left k (Nat.le_self_pow (n := j + 1) (by omega) 2)
        omega
      rcases innerEvalPS_level h hk (Nat.succ_pos (j + 1)) (by omega) hK.symm hf hlead with
        ⟨hfail, hnone⟩ | ⟨hle, q, s2, cu, hq, hqlead, hs2, hs2top, hdiv, hmod, hsum, hrun⟩
      · refine ⟨fun hsplits => ?_, fun _ => hnone⟩
        rw [RecursionSplits, hK] at hsplits
        exact absurd hsplits.1 hfail
      · have hiff : RecursionSplits B k (j + 1 + 2) (series B f) <->
            RecursionSplits B k (j + 2) (series B q) ∧ RecursionSplits B k (j + 2) (series B s2) := by
          rw [RecursionSplits, hK, hdiv, hmod]
          exact ⟨fun hs => hs.2, fun hs => ⟨hle, hs⟩⟩
        rcases ih (by omega) (f := q) (by omega) (hhalf ▸ hqlead) with ⟨hqsome, hqnone⟩
        rcases ih (by omega) (f := s2) (by omega) (by
          rw [<- hhalf, hs2top]
          exact h.lead_one) with ⟨hssome, hsnone⟩
        simp only [hiff, hrun, if_pos hkK]
        constructor
        · rintro ⟨hqs, hss⟩
          rw [hqsome hqs, hssome hss, hsum]
          rfl
        · intro hnot
          by_cases hqs : RecursionSplits B k (j + 2) (series B q)
          · rw [hqsome hqs, hsnone fun hss => hnot ⟨hqs, hss⟩]
            rfl
          · rw [hqnone hqs]
            rfl

theorem internalEvalPS_iff (h : e.Correct B x k m Lead) (hk : 0 < k) (hm : 2 <= m)
    {p : SeriesPowers R} (hpk : p.k = k) (hpm : p.m = m)
    (hpower : p.power2km1Re = aeval x (B (k * (2 ^ m - 1)))) {c : List F} {n : Nat}
    (hdegree : degree c = some n) (hn : n < k * (2 ^ m - 1)) :
    internalEvalPSWithPrecomp e p c = some (aeval x (series B c)) <->
      RecursionSplits B k m (series B c + B (k * (2 ^ m - 1))) := by
  rcases Nat.exists_eq_add_of_le' hm with ⟨j, rfl⟩
  have hne : c ≠ [] := by
    rintro rfl
    cases hdegree
  rcases degree_spec hne with ⟨n', hn', -, habove, -⟩
  have hnn : n' = n := Option.some.inj (hn'.symm.trans hdegree)
  rw [hnn] at habove
  generalize hK : k * 2 ^ (j + 1) - k = K
  have htop : k * (2 ^ (j + 2) - 1) = 2 * K + k := by
    have hone := Nat.mul_le_mul_left k (Nat.one_le_two_pow (n := j + 1))
    have hpow : k * 2 ^ (j + 2) = 2 * (k * 2 ^ (j + 1)) := by
      rw [Nat.pow_succ]
      ring
    rw [Nat.mul_sub_one, hpow]
    omega
  rw [htop] at hn hpower ⊢
  rcases assign_spec (v := resize (resize c (n + 1)) (2 * K + k + 1)) (i := 2 * K + k) (1 : F)
    (by rw [length_resize]; omega) with ⟨f2, hf2, hf2len, hf2get⟩
  rw [length_resize] at hf2len
  have hf2top : f2.getD (2 * K + k) 0 = 1 := by rw [hf2get, if_pos rfl]
  have hseries : series B f2 = series B c + B (2 * K + k) := by
    rw [series_add_single B (c := c) (n := 2 * K + k) (v := 1), C_1, one_mul]
    intro i
    have hcut : (resize c (n + 1)).getD i 0 = c.getD i 0 := by
      rw [getD_resize]
      by_cases hi : i < n + 1
      · rw [if_pos hi]
      · rw [if_neg hi, habove i (by omega)]
    rw [hf2get, getD_resize, hcut]
    rcases Nat.lt_trichotomy i (2 * K + k) with hbelow | heq | hgt
    · rw [if_neg (by omega), if_pos (by omega), if_neg (by omega), add_zero]
    · rw [if_pos heq, if_pos heq, habove i (by omega), zero_add]
    · rw [if_neg (by omega), if_neg (by omega), if_neg (by omega), habove i (by omega),
        add_zero]
  rcases innerEvalPS_spec h hk j le_rfl (f := f2) (by rw [hK]; exact hf2len)
    (by rw [hK, hf2top]; exact h.lead_one) with ⟨hsome, hnone⟩
  have hrun : internalEvalPSWithPrecomp e p c =
      (innerEvalPS e k (j + 2) f2).map fun v => v - aeval x (B (2 * K + k)) := by
    have hindex : j + 2 - 1 = j + 1 := rfl
    unfold internalEvalPSWithPrecomp
    simp only [hpk, hpm, hpower, hindex, hK, hdegree, hf2, Option.bind_eq_bind,
      Option.bind_some]
    cases innerEvalPS e k (j + 2) f2 <;> rfl
  rw [hrun, <- hseries]
  constructor
  · intro hvalue
    by_contra hnot
    rw [hnone hnot] at hvalue
    cases hvalue
  · intro hsplits
    rw [hsome hsplits, hseries, map_add, Option.map_some, add_sub_cancel_right]

end Recursion

end Ckksrns
end Scheme
end OpenFHE
