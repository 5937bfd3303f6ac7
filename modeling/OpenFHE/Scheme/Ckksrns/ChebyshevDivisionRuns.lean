import OpenFHE.Foundation.ChebyshevParity
import OpenFHE.Scheme.Ckksrns.LongDivisionRuns

/-!
# Runs of the long division of Chebyshev series

The coefficient of `T_0` is stored doubled.  For integers the loop stays exact wherever the
quotient and the rest are integral; the last step divides before it doubles, and is exact where
the first coefficient of the quotient is even.
-/

namespace OpenFHE
namespace Scheme
namespace Ckksrns

open Foundation
open Polynomial

attribute [local instance] two_atLeastTwo

section Definitions

variable {K : Type} [CommRing K] [DecidableEq K] (A : CoefficientType K)

def twice (v : K) : Outcome K := do
  let v <- A.toDouble v
  A.check (2 * v)

def entryOf (g : List K) (k n i : Nat) : Outcome K :=
  if k = n - k then
    if i = 0 then do
      let v <- entry g (n - k)
      twice A v
    else entry g ((n : Int) - k - i).natAbs
  else if k > n - k then
    if i = 0 then do
      let v <- entry g (n - k)
      twice A v
    else if i < k - (n - k) + 1 then do
      let low <- entry g ((n : Int) - k - i).natAbs
      let high <- entry g (n - k + i)
      A.check (low + high)
    else entry g ((i : Int) - n + k).natAbs
  else
    if i = n - k then entry g 0
    else if n - 2 * k <= i then entry g ((i : Int) - n + k).natAbs
    else .ok 0

/-- `d *= f[n]` and `d /= g[k]`, where these are not one. -/
def scaleBy (last gback : K) (d : List K) : Outcome (List K) := do
  let d <- (if last ≠ 1 then (d.map fun v => v * last).mapM A.check else .ok d)
  if gback ≠ 1 then (d.map fun v => A.div v gback).mapM A.check else .ok d

def divisionChebyshevStep (g : List K) (k : Nat) (s : DivisionState K) :
    Outcome (DivisionState K) := do
  let last <- back s.r
  let qnk <- twice A last
  let gk <- entry g k
  let gback <- back g
  let qnk <- divideBy A gk gback qnk
  let q <- store s.q (s.n - k) qnk
  let d <- (List.range (s.n + 1)).mapM (entryOf A g k s.n)
  let d <- scaleBy A last gback d
  subtractRest A s q d

/-- The last step, for a rest of the degree of the divisor. -/
def divisionChebyshevLast (g : List K) (k : Nat) (s : DivisionState K) :
    Outcome (DivisionState K) :=
  if s.n = k then do
    let last <- back s.r
    let gback <- back g
    let front <- divideBy A gback gback last
    let q <- store s.q 0 front
    let d <- scaleBy A last gback g
    subtractRest A s q d
  else .ok s

/-- `LongDivisionChebyshev` with at most `fuel` tests of its loop. -/
def runLongDivisionChebyshev (fuel : Nat) (f g : List K) : Outcome (LongDiv K) := do
  let n <- degreeOf f
  if n ≠ f.length - 1 then
    throw (RuntimeFault.thrown "The dominant coefficient of the divident is zero")
  else
    let k <- degreeOf g
    if k ≠ g.length - 1 then
      throw (RuntimeFault.thrown "The dominant coefficient of the divisor is zero")
    else if n < k then return { q := [0], r := f }
    else
      let s <- whileLoop (fun s => decide (k < s.n)) (divisionChebyshevStep A g k) fuel
        { n := n, q := List.replicate (n - k + 1) 0, r := f }
      let s <- divisionChebyshevLast A g k s
      let front <- entry s.q 0
      let front <- twice A front
      let q <- store s.q 0 front
      return { q := q, r := s.r }

end Definitions

/-!
## Exact coefficients
-/

section Exact

variable {K F : Type} [CommRing K] [DecidableEq K] [Field F] {A : CoefficientType K}

omit [DecidableEq K] in
theorem twice_ok (hA : A.Exact) (v : K) : twice A v = .ok (2 * v) := by
  rw [twice, hA.toDouble, ok_bind, hA.check]

omit [DecidableEq K] in
theorem entryOf_eq (hA : A.Exact) {g : List K} {k n i : Nat} (hg : g.length = k + 1)
    (hkn : k < n) (hi : i < n + 1) :
    entryOf A g k n i =
      .ok (g.getD ((i : Int) - (n - k : Nat)).natAbs 0 + g.getD (i + (n - k)) 0) := by
  have hsame : entryOf A g k n i = orUndefined (chebyshevEntry g k n i) := by
    have hfirst : (do
        let v <- entry g (n - k)
        twice A v) = orUndefined ((g[n - k]?).map fun v => 2 * v) := by
      unfold entry
      cases g[n - k]? with
      | none => rfl
      | some v => exact twice_ok hA v
    unfold entryOf chebyshevEntry
    split
    · split
      · exact hfirst
      · rfl
    · split
      · split
        · exact hfirst
        · split
          · unfold entry
            cases g[((n : Int) - k - i).natAbs]? with
            | none => rfl
            | some low =>
                cases g[n - k + i]? with
                | none => rfl
                | some high => exact hA.check _
          · rfl
      · split
        · rw [List.head?_eq_getElem?]
          rfl
        · split <;> rfl
  rw [hsame, chebyshevEntry_eq hg hkn hi]
  rfl

theorem scaleBy_ok (hA : A.Exact) {last gback : K} (hne : gback ≠ 0) {d : List K}
    (hdvd : forall x, x ∈ d -> gback ∣ x * last) :
    exists e, scaleBy A last gback d = .ok e ∧ e.length = d.length ∧
      forall i, gback * e.getD i 0 = d.getD i 0 * last := by
  have hmul : (if last ≠ 1 then (d.map fun v => v * last).mapM A.check else .ok d) =
      .ok (d.map fun v => v * last) := by
    by_cases hone : last = 1
    · rw [if_neg (not_not.mpr hone), hone]
      simp
    · rw [if_pos hone, mapM_check hA]
  have hget : forall (h : K -> K) (v : List K) (i : Nat), i < v.length ->
      (v.map h).getD i 0 = h (v.getD i 0) := by
    intro h v i hi
    rw [List.getD_eq_getElem?_getD, List.getElem?_map, getElem?_eq_getD hi]
    rfl
  unfold scaleBy
  rw [hmul, ok_bind]
  by_cases hone : gback = 1
  · rw [if_neg (not_not.mpr hone)]
    refine ⟨_, rfl, List.length_map _, ?_⟩
    intro i
    rw [hone, one_mul]
    rcases Nat.lt_or_ge i d.length with hi | hi
    · exact hget _ d i hi
    · rw [List.getD_eq_default _ _ (by simpa using hi), List.getD_eq_default d 0 hi, zero_mul]
  · rw [if_pos hone, mapM_check hA]
    refine ⟨_, rfl, by simp, ?_⟩
    intro i
    rcases Nat.lt_or_ge i d.length with hi | hi
    · have hmem : d.getD i 0 ∈ d := by
        rw [List.getD_eq_getElem d 0 hi]
        exact List.getElem_mem hi
      rw [hget _ _ i (by simpa using hi), hget _ d i hi, mul_comm]
      exact hA.div_mul hne (hdvd _ hmem)
    · rw [List.getD_eq_default _ _ (by simpa using hi), List.getD_eq_default d 0 hi, zero_mul,
        mul_zero]

omit [DecidableEq K] in
theorem series_of_scaled {B : Polynomial.Sequence F} {φ : K →+* F}
    (hφ : Function.Injective φ) {last gback : K} (hne : gback ≠ 0) {d e : List K}
    (h : forall i, gback * e.getD i 0 = d.getD i 0 * last) :
    series B (e.map φ) = C (φ last / φ gback) * series B (d.map φ) := by
  have hback : φ gback ≠ 0 := fun hzero => hne ((map_eq_zero_iff φ hφ).mp hzero)
  have hlinear := series_linear B (φ last / φ gback) 0 (c := d.map φ) (d := d.map φ)
    (e := e.map φ) (by
      intro i
      have hi := congrArg φ (h i)
      rw [map_mul, map_mul] at hi
      rw [getD_map, getD_map, zero_mul, add_zero, div_mul_eq_mul_div, eq_div_iff hback, mul_comm,
        hi, mul_comm])
  rw [hlinear, C_0, zero_mul, add_zero]

variable [NeZero (2 : F)]

theorem leadingCoeff_chebyshevBasis (n : Nat) :
    2 * (chebyshevBasis F n).leadingCoeff = 2 ^ n := by
  rcases Nat.eq_zero_or_pos n with hzero | hpos
  · rw [hzero, chebyshevBasis_zero, leadingCoeff_C, mul_inv_cancel₀ two_ne_zero, pow_zero]
  · rw [chebyshevBasis_of_pos hpos, Chebyshev.leadingCoeff_T, Int.natAbs_natCast, <- pow_succ',
      Nat.sub_add_cancel hpos]

variable [DecidableEq F] {φ : K →+* F} (hφ : Function.Injective φ)
include hφ

/-- An exact quotient and rest whose products stay in the ring. -/
structure ExactQuotient (φ : K →+* F) (f g q r : List K) : Prop extends
    IsQuotient (chebyshevBasis F) (f.map φ) (g.map φ) (q.map φ) (r.map φ) where
  front : 2 ∣ q.getD 0 0
  even : (forall i, 2 ∣ q.getD i 0) ∨ forall i, 2 ∣ g.getD i 0

omit [DecidableEq K] [DecidableEq F] in
theorem chebyshev_top {f g : List K} {k : Nat} {s : DivisionState K} {t : DivisionState F}
    (hn : t.n = s.n) (hr : t.r = s.r.map φ)
    (hinv : DivisionInvariant (chebyshevBasis F) (f.map φ) (g.map φ) t)
    (hg : g.length = k + 1) (hgtop : g.getD k 0 ≠ 0) (hk : k <= s.n) {q r : List K}
    (h : IsQuotient (chebyshevBasis F) (f.map φ) (g.map φ) (q.map φ) (r.map φ)) :
    q.getD (s.n - k) 0 * g.getD k 0 = 2 * s.r.getD s.n 0 := by
  have htop := quotient_top hinv (by rw [List.length_map, hg])
    (by rw [getD_map]; exact fun hzero => hgtop ((map_eq_zero_iff φ hφ).mp hzero))
    (hn.symm ▸ hk) h
  rw [hn, hr, getD_map, getD_map, getD_map] at htop
  apply hφ
  rw [map_mul, map_mul, map_ofNat]
  have hpow : (2 : F) ^ (s.n - k) * 2 ^ k = 2 ^ s.n := by
    rw [<- pow_add, Nat.sub_add_cancel hk]
  rw [<- leadingCoeff_chebyshevBasis, <- leadingCoeff_chebyshevBasis,
    <- leadingCoeff_chebyshevBasis] at hpow
  have hlead : (chebyshevBasis F s.n).leadingCoeff ≠ 0 :=
    leadingCoeff_ne_zero.mpr ((chebyshevBasis F).ne_zero s.n)
  have htwo : (2 : F) ≠ 0 := two_ne_zero
  apply mul_right_cancel₀ (mul_ne_zero htwo hlead)
  linear_combination (4 : F) * htop - φ (q.getD (s.n - k) 0) * φ (g.getD k 0) * hpow

omit [DecidableEq K] [DecidableEq F] in
theorem leading_dvd {last gk Q : K} (htop : Q * gk = 2 * last) {x : K} (h : 2 ∣ Q ∨ 2 ∣ x) :
    gk ∣ x * last := by
  cases h with
  | inl hQ =>
      rcases hQ with ⟨u, rfl⟩
      have hlast : u * gk = last := by
        apply hφ
        have hmap := congrArg φ htop
        rw [map_mul, map_mul, map_mul, map_ofNat, mul_assoc, <- map_mul] at hmap
        exact mul_left_cancel₀ two_ne_zero hmap
      exact Dvd.intro_left (x * u) (by rw [mul_assoc, hlast])
  | inr hx =>
      rcases hx with ⟨y, rfl⟩
      exact Dvd.intro_left (y * Q) (by rw [mul_assoc, htop]; ring)

omit [DecidableEq K] [DecidableEq F] [NeZero (2 : F)] in
theorem scaled_top {last gk x : K} (hne : gk ≠ 0) (h : gk * x = gk * last) : x = last := by
  apply hφ
  have hmap := congrArg φ h
  rw [map_mul, map_mul] at hmap
  exact mul_left_cancel₀ (fun hzero => hne ((map_eq_zero_iff φ hφ).mp hzero)) hmap

theorem divisionChebyshevStep_map (hA : A.Exact) {f g : List K} {k : Nat} {s : DivisionState K}
    (hinv : DivisionInvariant (chebyshevBasis F) (f.map φ) (g.map φ) (s.map φ))
    (hg : g.length = k + 1) (hgtop : g.getD k 0 ≠ 0) (hk : k < s.n)
    (hfront : s.q.getD 0 0 = 0) (hexact : exists q r, ExactQuotient φ f g q r) :
    exists s', divisionChebyshevStep A g k s = .ok s' ∧
      (DivisionInvariant (chebyshevBasis F) (f.map φ) (g.map φ) (s'.map φ) ∧
        s'.q.getD 0 0 = 0) ∧ s'.n < s.n := by
  rcases hexact with ⟨Q, R, hexact⟩
  have hgmap : (g.map φ).length = k + 1 := by rw [List.length_map, hg]
  rcases exists_map s φ with ⟨t, ht, hn', hq', hr'⟩
  rw [ht] at hinv
  have hrlen : s.r.length = s.n + 1 := by
    rw [<- List.length_map φ, <- hr', <- hn']
    exact hinv.rest_length
  have hqlen : s.q.length + g.length = f.length + 1 := by
    have hlen := hinv.quotient_length
    rwa [hq', List.length_map, List.length_map, List.length_map] at hlen
  have hbound : s.n < f.length := by
    have hlt := hinv.bound
    rwa [hn', List.length_map] at hlt
  have htop := chebyshev_top hφ hn' hr' hinv hg hgtop hk.le hexact.toIsQuotient
  generalize hlast : s.r.getD s.n 0 = last at htop
  rcases divideBy_map hA (Eq.refl (g.getD k 0)) hgtop (Dvd.intro_left _ htop) with
    ⟨v, hv, hscale⟩
  -- the entries of the product
  rcases mapM_range_ok (n := s.n + 1) (f := entryOf A g k s.n)
    (fun i x => x = g.getD ((i : Int) - (s.n - k : Nat)).natAbs 0 + g.getD (i + (s.n - k)) 0)
    (fun i hi => ⟨_, entryOf_eq hA hg hk hi, rfl⟩) with ⟨d, hd, hdlen, hdget⟩
  have hentry : forall i, i < s.n + 1 -> d.getD i 0 =
      g.getD ((i : Int) - (s.n - k : Nat)).natAbs 0 + g.getD (i + (s.n - k)) 0 := by
    intro i hi
    rcases hdget i hi with ⟨x, hx, hsum⟩
    rw [List.getD_eq_getElem?_getD, hx]
    exact hsum
  have hdvd : forall x, x ∈ d -> g.getD k 0 ∣ x * last := by
    intro x hx
    apply leading_dvd hφ htop
    rcases List.mem_iff_getElem?.mp hx with ⟨i, hi⟩
    have hlt := (List.getElem?_eq_some_iff.mp hi).1
    have hvalue : x = d.getD i 0 := by
      rw [List.getD_eq_getElem?_getD, hi]
      rfl
    cases hexact.even with
    | inl hQ => exact Or.inl (hQ _)
    | inr hg2 =>
        rw [hvalue, hentry i (hdlen ▸ hlt)]
        exact Or.inr (dvd_add (hg2 _) (hg2 _))
  rcases scaleBy_ok hA hgtop hdvd with ⟨e, he, helen, hescale⟩
  have hindex : s.n - k < s.q.length := by omega
  have hset : forall i, ((s.q.set (s.n - k) v).map φ).getD i 0 =
      if i = t.n - k then φ v else t.q.getD i 0 := by
    intro i
    rw [getD_map, getD_set _ hindex, hn', hq', getD_map]
    split <;> rfl
  have hsetlen : ((s.q.set (s.n - k) v).map φ).length = t.q.length := by
    rw [hq', List.length_map, List.length_map, List.length_set]
  have helenmap : (e.map φ).length = t.n + 1 := by
    rw [List.length_map, helen, hdlen, hn']
  have hetop : (e.map φ).getD t.n 0 = t.r.getD t.n 0 := by
    have hindexk : ((s.n : Int) - (s.n - k : Nat)).natAbs = k := by omega
    have hdtop : d.getD s.n 0 = g.getD k 0 := by
      rw [hentry s.n (Nat.lt_succ_self _), hindexk,
        List.getD_eq_default g 0 (show g.length <= s.n + (s.n - k) by omega), add_zero]
    rw [hn', hr', getD_map, getD_map, hlast]
    exact congrArg φ (scaled_top hφ hgtop (by rw [hescale, hdtop]))
  have hgk : φ (g.getD k 0) ≠ 0 := fun hzero => hgtop ((map_eq_zero_iff φ hφ).mp hzero)
  have hterm : φ v = 2 * φ last / φ (g.getD k 0) := by
    have hmap := congrArg φ hscale
    rw [map_mul, map_mul, map_ofNat] at hmap
    rw [eq_div_iff hgk, mul_comm, hmap]
  have hseries : series (chebyshevBasis F) (e.map φ) =
      C (φ v) * chebyshevBasis F (t.n - k) * series (chebyshevBasis F) (g.map φ) := by
    rw [series_of_scaled hφ hgtop hescale, hn', hterm,
      chebyshev_product (d := d.map φ) (g := g.map φ) (j := s.n - k) (by omega) hgmap
        (by rw [List.length_map, hdlen]; omega)
        (by
          intro i hi
          rw [getD_map, getD_map, getD_map, hentry i (by omega), map_add]),
      mul_div_assoc, C_mul]
    ring
  have hpos : 0 < t.n := by omega
  rcases hinv.step hgmap (hn'.symm ▸ hk.le) hpos hsetlen hset helenmap hetop hseries with
    ⟨t', ht', hinv', hlt, hsq⟩
  rw [<- ht] at ht'
  rcases subtractRest_map hφ hA ht' with ⟨s', hs', rfl⟩
  refine ⟨s', ?_, ⟨hinv', ?_⟩, hn' ▸ hlt⟩
  · unfold divisionChebyshevStep
    rw [back, getLast?_eq_getD hrlen, entry_ok (getElem?_eq_getD (show k < g.length by omega)),
      back, getLast?_eq_getD hg]
    simp only [orUndefined, ok_bind, twice_ok hA, hlast, hv, store_ok _ hindex, hd, he]
    exact hs'
  · have hkept := congrArg (fun q => q.getD 0 0) hsq
    simp only [DivisionState.map, getD_map, getD_set _ hindex,
      if_neg (show ¬ 0 = s.n - k by omega), hfront, map_zero] at hkept
    exact (map_eq_zero_iff φ hφ).mp hkept

omit [Field F] [NeZero (2 : F)] [DecidableEq F] hφ in
theorem subtractRest_quotient (s : DivisionState K) (q q' d : List K) :
    subtractRest A s q' d = (subtractRest A s q d).map fun s' => { s' with q := q' } := by
  unfold subtractRest
  cases (List.zipWith (fun x y => x - y) s.r d).mapM A.check with
  | error e => rfl
  | ok r =>
      simp only [ok_bind]
      by_cases hone : 1 < r.length
      · rw [if_pos hone, if_pos hone]
        cases degreeOf r <;> rfl
      · rw [if_neg hone, if_neg hone]
        rfl

theorem divisionChebyshevLast_map (hA : A.Exact) {f g : List K} {k : Nat} {s : DivisionState K}
    (hinv : DivisionInvariant (chebyshevBasis F) (f.map φ) (g.map φ) (s.map φ))
    (hg : g.length = k + 1) (hgtop : g.getD k 0 ≠ 0) (hk : 0 < k) (hle : s.n <= k)
    (hkf : k < f.length) (hfront : s.q.getD 0 0 = 0)
    (hexact : exists q r, ExactQuotient φ f g q r) :
    exists s' q, divisionChebyshevLast A g k s = .ok s' ∧ 0 < s'.q.length ∧
      store s'.q 0 (2 * s'.q.getD 0 0) = .ok q ∧
      IsQuotient (chebyshevBasis F) (f.map φ) (g.map φ) (q.map φ) (s'.r.map φ) := by
  rcases hexact with ⟨Q, R, hexact⟩
  have hgmap : (g.map φ).length = k + 1 := by rw [List.length_map, hg]
  have hgk : φ (g.getD k 0) ≠ 0 := fun hzero => hgtop ((map_eq_zero_iff φ hφ).mp hzero)
  have hgtopmap : (g.map φ).getD k 0 ≠ 0 := by rwa [getD_map]
  rcases exists_map s φ with ⟨t, ht, hn', hq', hr'⟩
  rw [ht] at hinv
  have hrlen : s.r.length = s.n + 1 := by
    rw [<- List.length_map φ, <- hr', <- hn']
    exact hinv.rest_length
  have hqlen : s.q.length + g.length = f.length + 1 := by
    have hlen := hinv.quotient_length
    rwa [hq', List.length_map, List.length_map, List.length_map] at hlen
  have hindex : 0 < s.q.length := by omega
  rcases Nat.lt_or_eq_of_le hle with hlt | heq
  · refine ⟨s, _, if_neg (by omega), hindex, store_ok _ hindex, ?_⟩
    have hquotient := hinv.isQuotient hgmap hgtopmap (hn'.symm ▸ hlt)
    have hsame : series (chebyshevBasis F) ((s.q.set 0 (2 * s.q.getD 0 0)).map φ) =
        series (chebyshevBasis F) t.q := by
      apply series_congr
      intro i
      rw [getD_map, getD_set _ hindex, hq', getD_map, hfront, mul_zero]
      by_cases hi : i = 0
      · rw [if_pos hi, hi, hfront]
      · rw [if_neg hi]
    constructor
    · rw [hsame, <- hr']
      exact hquotient.identity
    · rw [<- hr']
      exact hquotient.degree_lt
  · have htop := chebyshev_top hφ hn' hr' hinv hg hgtop heq.ge hexact.toIsQuotient
    rw [heq, Nat.sub_self] at htop
    have hlast : s.r.getLast? = some (s.r.getD k 0) := getLast?_eq_getD (heq ▸ hrlen)
    generalize hvalue : s.r.getD k 0 = last at htop hlast
    have hdvd : forall x, g.getD k 0 ∣ x * last :=
      fun x => leading_dvd hφ htop (Or.inl hexact.front)
    rcases divideBy_map hA (Eq.refl (g.getD k 0)) hgtop (one_mul last ▸ hdvd 1) with
      ⟨v, hv, hscale⟩
    rcases scaleBy_ok hA hgtop (d := g) (fun x _ => hdvd x) with ⟨e, he, helen, hescale⟩
    have hset : forall i, ((s.q.set 0 (2 * v)).map φ).getD i 0 =
        if i = t.n - k then φ (2 * v) else t.q.getD i 0 := by
      intro i
      rw [getD_map, getD_set _ hindex, hn', heq, Nat.sub_self, hq', getD_map]
      split <;> rfl
    have hsetlen : ((s.q.set 0 (2 * v)).map φ).length = t.q.length := by
      rw [hq', List.length_map, List.length_map, List.length_set]
    have helenmap : (e.map φ).length = t.n + 1 := by
      rw [List.length_map, helen, hn', heq, hg]
    have hetop : (e.map φ).getD t.n 0 = t.r.getD t.n 0 := by
      rw [hn', heq, hr', getD_map, getD_map, hvalue]
      exact congrArg φ (scaled_top hφ hgtop (hescale k))
    have hseries : series (chebyshevBasis F) (e.map φ) =
        C (φ (2 * v)) * chebyshevBasis F (t.n - k) * series (chebyshevBasis F) (g.map φ) := by
      have hterm : φ last / φ (g.getD k 0) = φ v := by
        rw [div_eq_iff hgk, <- map_mul, mul_comm v, hscale]
      have hhalf : (C 2 * C 2⁻¹ : F[X]) = 1 := by
        rw [<- C_mul, mul_inv_cancel₀ two_ne_zero, C_1]
      rw [series_of_scaled hφ hgtop hescale, hterm, hn', heq, Nat.sub_self, chebyshevBasis_zero,
        map_mul, map_ofNat, C_mul]
      linear_combination (-C (φ v) * series (chebyshevBasis F) (g.map φ)) * hhalf
    have hpos : 0 < t.n := by omega
    rcases hinv.step hgmap (show k <= t.n by omega) hpos hsetlen hset helenmap hetop hseries with
      ⟨t', ht', hinv', hlt, hsq⟩
    have hquotient := hinv'.isQuotient hgmap hgtopmap (show t'.n < k by omega)
    rw [<- ht] at ht'
    rcases subtractRest_map hφ hA ht' with ⟨s', hs', rfl⟩
    have hrun : divisionChebyshevLast A g k s = .ok { s' with q := s.q.set 0 v } := by
      unfold divisionChebyshevLast
      rw [if_pos heq, back, hlast, back, getLast?_eq_getD hg]
      simp only [orUndefined, ok_bind, hv, store_ok _ hindex, he]
      rw [subtractRest_quotient s (s.q.set 0 (2 * v)) (s.q.set 0 v) e, hs']
      rfl
    refine ⟨_, s.q.set 0 (2 * v), hrun, by rwa [List.length_set], ?_, ?_⟩
    · rw [getD_set _ hindex, if_pos rfl, store_ok _ (by rwa [List.length_set]), List.set_set]
    · rw [hsq] at hquotient
      exact hquotient

theorem runLongDivisionChebyshev_divides (hA : A.Exact) {f g : List K} (hf : IsDividend f)
    {k : Nat} (hg : g.length = k + 2) (hgtop : g.getD (k + 1) 0 ≠ 0)
    (hexact : exists q r, ExactQuotient φ f g q r) :
    exists res, runLongDivisionChebyshev A (f.length + 1) f g = .ok res ∧
      IsQuotient (chebyshevBasis F) (f.map φ) (g.map φ) (res.q.map φ) (res.r.map φ) := by
  rcases hf with ⟨n, hf, hftop⟩
  have hgmap : (g.map φ).length = k + 1 + 1 := by rw [List.length_map, hg]
  have hgtopmap : (g.map φ).getD (k + 1) 0 ≠ 0 := by
    rw [getD_map]
    exact fun h => hgtop ((map_eq_zero_iff φ hφ).mp h)
  unfold runLongDivisionChebyshev
  rw [degreeOf_eq (degree_of_dividend hf hftop), degreeOf_eq (degree_of_length hg hgtop)]
  simp only [ok_bind]
  rw [if_neg (by omega), if_neg (by omega)]
  by_cases hlt : n < k + 1
  · rw [if_pos hlt]
    refine ⟨_, rfl, ?_⟩
    have hquotient := isQuotient_of_lt (B := chebyshevBasis F) (f := f.map φ)
      (by rw [List.length_map]; omega) hgmap hgtopmap
    rw [List.map_singleton, map_zero]
    exact hquotient
  · rw [if_neg hlt]
    have hfmap : (f.map φ).getD n 0 ≠ 0 := by
      rw [getD_map]
      exact fun h => hftop.resolve_left (by omega) ((map_eq_zero_iff φ hφ).mp h)
    have hinit := DivisionInvariant.init (chebyshevBasis F) (f := f.map φ) (g := g.map φ)
      (by rw [List.length_map, hf]) hfmap hgmap (not_lt.mp hlt)
    rcases whileLoop_spec (c := fun s : DivisionState K => decide (k + 1 < s.n))
      (f := divisionChebyshevStep A g (k + 1))
      (fun s => DivisionInvariant (chebyshevBasis F) (f.map φ) (g.map φ) (s.map φ) ∧
        s.q.getD 0 0 = 0)
      (fun s => s.n)
      (by
        intro s hinv hcond
        exact divisionChebyshevStep_map hφ hA hinv.1 hg hgtop (of_decide_eq_true hcond) hinv.2
          hexact)
      (f.length + 1) { n := n, q := List.replicate (n - (k + 1) + 1) 0, r := f }
      (by
        constructor
        · show DivisionInvariant (chebyshevBasis F) (f.map φ) (g.map φ)
            ⟨n, (List.replicate (n - (k + 1) + 1) 0).map φ, f.map φ⟩
          rw [List.map_replicate, map_zero]
          exact hinit
        · rw [List.replicate_succ]
          rfl)
      (by simp only [hf]; omega) with ⟨s, hrun, ⟨hinv, hfront⟩, hstop⟩
    have hle : s.n <= k + 1 := not_lt.mp (of_decide_eq_false hstop)
    rcases divisionChebyshevLast_map hφ hA hinv hg hgtop (Nat.succ_pos k) hle (by omega) hfront
      hexact with ⟨s', q, hlast, hpos, hstore, hquotient⟩
    rw [hrun, ok_bind, hlast, ok_bind, entry_ok (getElem?_eq_getD hpos), ok_bind, twice_ok hA,
      ok_bind, hstore]
    exact ⟨_, rfl, hquotient⟩

end Exact

/-!
## Fixed-width integers
-/

theorem twice_stops (v : Int) : Stops (twice int64Type v) (twice integerType v) := by
  apply (int64Type_toDouble v).bind
  intro v
  exact int64Type_check _

theorem entryOf_stops (g : List Int) (k n i : Nat) :
    Stops (entryOf int64Type g k n i) (entryOf integerType g k n i) := by
  have hfirst : Stops (do
      let v <- entry g (n - k)
      twice int64Type v) (do
      let v <- entry g (n - k)
      twice integerType v) := by
    apply (Stops.refl _).bind
    intro v
    exact twice_stops v
  apply Stops.ite
  · exact hfirst.ite (Stops.refl _)
  · apply Stops.ite
    · apply hfirst.ite
      apply Stops.ite
      · apply (Stops.refl _).bind
        intro low
        apply (Stops.refl _).bind
        intro high
        exact int64Type_check _
      · exact Stops.refl _
    · exact Stops.refl _

theorem scaleBy_stops (last gback : Int) (d : List Int) :
    Stops (scaleBy int64Type last gback d) (scaleBy integerType last gback d) := by
  have hmul := (Stops.mapM int64Type_check (d.map fun v => v * last)).ite (Stops.refl (.ok d))
    (c := last ≠ 1)
  apply hmul.bind
  intro d
  exact (Stops.mapM int64Type_check _).ite (Stops.refl _)

theorem divisionChebyshevStep_stops (g : List Int) (k : Nat) (s : DivisionState Int) :
    Stops (divisionChebyshevStep int64Type g k s) (divisionChebyshevStep integerType g k s) := by
  apply (Stops.refl _).bind
  intro last
  apply (twice_stops last).bind
  intro double
  apply (Stops.refl _).bind
  intro gk
  apply (Stops.refl _).bind
  intro gback
  apply (divideBy_stops gk gback double).bind
  intro qnk
  apply (Stops.refl _).bind
  intro q
  apply (Stops.mapM (entryOf_stops g k s.n) _).bind
  intro d
  apply (scaleBy_stops last gback d).bind
  intro d
  exact subtractRest_stops s q d

theorem divisionChebyshevLast_stops (g : List Int) (k : Nat) (s : DivisionState Int) :
    Stops (divisionChebyshevLast int64Type g k s) (divisionChebyshevLast integerType g k s) := by
  apply Stops.ite
  · apply (Stops.refl _).bind
    intro last
    apply (Stops.refl _).bind
    intro gback
    apply (divideBy_stops gback gback last).bind
    intro front
    apply (Stops.refl _).bind
    intro q
    apply (scaleBy_stops last gback g).bind
    intro d
    exact subtractRest_stops s q d
  · exact Stops.refl _

theorem runLongDivisionChebyshev_stops (fuel : Nat) (f g : List Int) :
    Stops (runLongDivisionChebyshev int64Type fuel f g)
      (runLongDivisionChebyshev integerType fuel f g) := by
  apply (Stops.refl _).bind
  intro n
  apply (Stops.refl _).ite
  apply (Stops.refl _).bind
  intro k
  apply (Stops.refl _).ite
  apply (Stops.refl _).ite
  apply (Stops.whileLoop (divisionChebyshevStep_stops g k) fuel _).bind
  intro s
  apply (divisionChebyshevLast_stops g k s).bind
  intro s
  apply (Stops.refl _).bind
  intro front
  apply (twice_stops front).bind
  intro front
  exact Stops.refl _

/-!
## When the division succeeds
-/

section Contract

variable {K F : Type} [CommRing K] [DecidableEq K] [Field F] {A : CoefficientType K}

theorem runLongDivisionChebyshev_throws {f : List K} (hf : ¬ IsDividend f) (g : List K) :
    exists message, forall fuel,
      runLongDivisionChebyshev A fuel f g = .error (.thrown message) := by
  unfold runLongDivisionChebyshev
  rcases degreeOf_of_not_dividend hf with hthrow | ⟨d, hd, hne⟩
  · rw [hthrow]
    exact ⟨_, fun _ => rfl⟩
  · refine ⟨"The dominant coefficient of the divident is zero", fun fuel => ?_⟩
    rw [hd, ok_bind, if_pos hne]
    rfl

theorem runLongDivisionChebyshev_front (hA : A.Exact) {fuel : Nat} {f g : List K}
    {res : LongDiv K} (h : runLongDivisionChebyshev A fuel f g = .ok res) :
    2 ∣ res.q.getD 0 0 := by
  unfold runLongDivisionChebyshev at h
  rcases bind_eq_ok h with ⟨n, -, hn⟩
  split at hn
  · cases hn
  · rcases bind_eq_ok hn with ⟨k, -, hk⟩
    split at hk
    · cases hk
    · split at hk
      · cases hk
        exact dvd_zero 2
      · rcases bind_eq_ok hk with ⟨s, -, hs⟩
        rcases bind_eq_ok hs with ⟨s', -, hs'⟩
        rcases bind_eq_ok hs' with ⟨front, hfront, hq⟩
        rw [twice_ok hA, ok_bind] at hq
        rcases bind_eq_ok hq with ⟨q, hstore, hret⟩
        cases hret
        unfold store at hstore
        split at hstore
        · rename_i hpos
          cases hstore
          rw [getD_set _ hpos, if_pos rfl]
          exact Dvd.intro front rfl
        · cases hstore

theorem divided_chebyshev_iff [DecidableEq F] [NeZero (2 : F)] (hA : A.Exact) {φ : K →+* F}
    (hφ : Function.Injective φ) {f g : List K} (hg : HasLead g) (hlen : 2 <= g.length)
    (heven : forall q r : List K,
      IsQuotient (chebyshevBasis F) (f.map φ) (g.map φ) (q.map φ) (r.map φ) ->
      (forall i, 2 ∣ q.getD i 0) ∨ forall i, 2 ∣ g.getD i 0) :
    Divided (runLongDivisionChebyshev A) (chebyshevBasis F) φ f g <->
      IsDividend f ∧ exists q r : List K,
        IsQuotient (chebyshevBasis F) (f.map φ) (g.map φ) (q.map φ) (r.map φ) ∧
          2 ∣ q.getD 0 0 := by
  rcases hg with ⟨k, hglen, hgtop⟩
  constructor
  · rintro ⟨fuel, res, hrun, hquotient⟩
    refine ⟨?_, res.q, res.r, hquotient, runLongDivisionChebyshev_front hA hrun⟩
    by_contra hf
    rcases runLongDivisionChebyshev_throws (A := A) hf g with ⟨message, hthrows⟩
    rw [hthrows fuel] at hrun
    cases hrun
  · rintro ⟨hf, q, r, hquotient, hfront⟩
    have hsplit : k = k - 1 + 1 := by omega
    rcases runLongDivisionChebyshev_divides hφ hA hf (k := k - 1) (by omega) (hsplit ▸ hgtop)
      ⟨q, r, hquotient, hfront, heven q r hquotient⟩ with ⟨res, hrun, hres⟩
    exact ⟨f.length + 1, res, hrun, hres⟩

end Contract

theorem exists_chebyshevQuotient {F : Type} [Field F] [DecidableEq F] [NeZero (2 : F)]
    {f g : List F} (hf : IsDividend f) (hg : HasLead g) (hlen : 2 <= g.length) :
    exists q r : List F, IsQuotient (chebyshevBasis F) f g q r := by
  rcases hf with ⟨n, hf, hftop⟩
  rcases hg with ⟨k, hg, hgtop⟩
  rcases Nat.lt_or_ge n k with hlt | hge
  · exact ⟨_, _, isQuotient_of_lt (by omega) hg hgtop⟩
  · rcases longDivisionChebyshev_spec.divides hf (hftop.resolve_left (by omega)) hg hgtop
      (by omega) hge with ⟨res, -, hdivides⟩
    refine ⟨res.q, res.r, hdivides.identity, ?_⟩
    rw [degree_series _ hg hgtop]
    apply (degree_series_lt _ res.r).trans_le
    exact_mod_cast Nat.le_of_lt_succ (hg ▸ hdivides.rest_length)

theorem integer_parity {f g q r : List Int}
    (h : IsQuotient (chebyshevBasis ℚ) (f.map (Int.castRingHom ℚ)) (g.map (Int.castRingHom ℚ))
      (q.map (Int.castRingHom ℚ)) (r.map (Int.castRingHom ℚ))) :
    (forall i, 2 ∣ q.getD i 0) ∨ forall i, 2 ∣ g.getD i 0 := by
  rcases exists_difference f r with ⟨m, hm⟩
  apply chebyshev_parity (m := m)
  have hseries := series_linear (chebyshevBasis ℚ) 1 (-1) (c := f.map (Int.castRingHom ℚ))
    (d := r.map (Int.castRingHom ℚ)) (e := m.map (Int.castRingHom ℚ)) (by
      intro i
      rw [getD_map, getD_map, getD_map, hm, map_sub]
      ring)
  rw [hseries, C_neg, C_1, h.identity]
  ring

/--
Both instantiations: over a field, and `int64_t` as long as no operation overflows and the
doubles hold their integers.
-/
theorem longDivisionChebyshev_iff (F : Type) [Field F] [DecidableEq F] [NeZero (2 : F)] :
    (forall f g : List F, HasLead g -> 2 <= g.length ->
      (Divided (runLongDivisionChebyshev (fieldType F)) (chebyshevBasis F) (RingHom.id F) f g <->
        IsDividend f)) ∧
    (forall f g : List Int, IsDividend f -> HasLead g -> 2 <= g.length ->
      (forall fuel, runLongDivisionChebyshev int64Type fuel f g ≠ .error .undefined) ->
      (Divided (runLongDivisionChebyshev int64Type) (chebyshevBasis ℚ) (Int.castRingHom ℚ) f g <->
        exists q r : List Int,
          IsQuotient (chebyshevBasis ℚ) (f.map (Int.castRingHom ℚ))
            (g.map (Int.castRingHom ℚ)) (q.map (Int.castRingHom ℚ))
            (r.map (Int.castRingHom ℚ)) ∧ 2 ∣ q.getD 0 0)) := by
  constructor
  · intro f g hg hlen
    have htwo : forall x : F, 2 ∣ x := fun x => (IsUnit.mk0 2 two_ne_zero).dvd
    rw [divided_chebyshev_iff fieldType_exact (RingHom.id F).injective hg hlen
      (fun q r _ => Or.inl fun i => htwo _)]
    simp only [RingHom.coe_id, List.map_id]
    constructor
    · rintro ⟨hf, -⟩
      exact hf
    · intro hf
      rcases exists_chebyshevQuotient hf hg hlen with ⟨q, r, hquotient⟩
      exact ⟨hf, q, r, hquotient, htwo _⟩
  · intro f g hf hg hlen hdefined
    have hsame : forall fuel, runLongDivisionChebyshev int64Type fuel f g =
        runLongDivisionChebyshev integerType fuel f g := by
      intro fuel
      exact (runLongDivisionChebyshev_stops fuel f g).eq (hdefined fuel)
    rw [divided_congr hsame, divided_chebyshev_iff integerType_exact
      (Int.castRingHom ℚ).injective_int hg hlen (fun q r h => integer_parity h)]
    simp only [hf, true_and]

theorem chebyshevBasis_one : chebyshevBasis ℚ 1 = (X : ℚ[X]) := by
  rw [chebyshevBasis_of_pos Nat.one_pos, Nat.cast_one, Chebyshev.T_one]

theorem chebyshevBasis_two : chebyshevBasis ℚ 2 = (2 * X ^ 2 - 1 : ℚ[X]) := by
  rw [chebyshevBasis_of_pos (by decide), Nat.cast_ofNat, Chebyshev.T_two]

theorem two_mul_half : (C 2 * C 2⁻¹ : ℚ[X]) = 1 := by
  rw [<- C_mul, mul_inv_cancel₀ two_ne_zero, C_1]

/-- `T_2` by `T_1`, over the rationals and in `int64_t`. -/
theorem longDivisionChebyshev_example :
    Divided (runLongDivisionChebyshev (fieldType ℚ)) (chebyshevBasis ℚ) (RingHom.id ℚ)
        [0, 0, 1] [0, 1] ∧
      Divided (runLongDivisionChebyshev int64Type) (chebyshevBasis ℚ) (Int.castRingHom ℚ)
        [0, 0, 1] [0, 1] := by
  have hlead : HasLead ([0, 1] : List ℚ) := ⟨1, rfl, one_ne_zero⟩
  have hleadInt : HasLead ([0, 1] : List Int) := ⟨1, rfl, one_ne_zero⟩
  have hdividend : IsDividend ([0, 0, 1] : List ℚ) := ⟨2, rfl, Or.inr one_ne_zero⟩
  have hdividendInt : IsDividend ([0, 0, 1] : List Int) := ⟨2, rfl, Or.inr one_ne_zero⟩
  have hrun : forall fuel, runLongDivisionChebyshev int64Type fuel [0, 0, 1] [0, 1] ≠
      .error .undefined := by
    intro fuel
    match fuel with
    | 0 | 1 => decide
    | fuel + 2 =>
        have hdone : runLongDivisionChebyshev int64Type (fuel + 2) [0, 0, 1] [0, 1] =
          .ok { q := [0, 2], r := [-2] } := rfl
        rw [hdone]
        intro h
        cases h
  refine ⟨((longDivisionChebyshev_iff ℚ).1 _ _ hlead (by decide)).mpr hdividend,
    ((longDivisionChebyshev_iff ℚ).2 _ _ hdividendInt hleadInt (by decide) hrun).mpr
      ⟨[0, 2], [-2], ?_, by decide⟩⟩
  constructor
  · simp [series, Finset.sum_range_succ, chebyshevBasis_zero, chebyshevBasis_one,
      chebyshevBasis_two, two_mul_half]
    rw [show (C 2 : ℚ[X]) = 2 from rfl]
    ring
  · rw [degree_series (chebyshevBasis ℚ) (c := ([0, 1] : List Int).map (Int.castRingHom ℚ))
      (n := 1) rfl (by simp)]
    apply (degree_series_lt _ _).trans_le
    exact le_rfl

/-- `T_1 = Q * (2 * T_1)` with `Q = 1 / 2`, whose stored coefficient is one. -/
theorem longDivisionChebyshev_truncates :
    (forall fuel, runLongDivisionChebyshev int64Type (fuel + 1) [0, 1] [0, 2] =
        .ok { q := [0], r := [0] }) ∧
      IsQuotient (chebyshevBasis ℚ) (([0, 1] : List Int).map (Int.castRingHom ℚ))
        (([0, 2] : List Int).map (Int.castRingHom ℚ))
        (([1] : List Int).map (Int.castRingHom ℚ)) (([0] : List Int).map (Int.castRingHom ℚ)) ∧
      ¬ Divided (runLongDivisionChebyshev int64Type) (chebyshevBasis ℚ) (Int.castRingHom ℚ)
        [0, 1] [0, 2] := by
  have hrun : forall fuel, runLongDivisionChebyshev int64Type (fuel + 1) [0, 1] [0, 2] =
      .ok { q := [0], r := [0] } := fun _ => rfl
  refine ⟨hrun, ?_, ?_⟩
  · constructor
    · simp [series, Finset.sum_range_succ, chebyshevBasis_zero, chebyshevBasis_one]
      linear_combination (-X : ℚ[X]) * two_mul_half
    · rw [degree_series (chebyshevBasis ℚ) (c := ([0, 2] : List Int).map (Int.castRingHom ℚ))
        (n := 1) rfl (by simp)]
      apply (degree_series_lt _ _).trans_le
      exact le_rfl
  · rintro ⟨fuel, res, hres, hquotient⟩
    cases fuel with
    | zero => cases hres
    | succ fuel =>
        rw [hrun fuel] at hres
        cases hres
        have hidentity := hquotient.identity
        simp [series, Finset.sum_range_succ, chebyshevBasis_zero, chebyshevBasis_one]
          at hidentity

end Ckksrns
end Scheme
end OpenFHE
