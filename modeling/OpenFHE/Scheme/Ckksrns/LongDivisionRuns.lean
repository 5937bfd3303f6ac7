import OpenFHE.Foundation.Outcome
import OpenFHE.Scheme.Ckksrns.LongDivision

/-!
# Runs of the long division

The divisions with their exceptions, and with loops that may not end, for coefficients in a
field and for `int64_t`.  A run with `fuel` tests of the loop that has not ended is still
running.
-/

namespace OpenFHE
namespace Scheme
namespace Ckksrns

open Foundation
open Polynomial

/-- The division of `VectorDataType`, and the range of its values. -/
structure CoefficientType (K : Type _) where
  div : K -> K -> K
  check : K -> Outcome K
  toDouble : K -> Outcome K

def fieldType (F : Type _) [Field F] : CoefficientType F where
  div a b := a / b
  check := .ok
  toDouble := .ok

/-- Integers without bounds, which divide with truncation. -/
def integerType : CoefficientType Int where
  div a b := a.tdiv b
  check := .ok
  toDouble := .ok

/--
`int64_t`.  A signed overflow is undefined; so is, in this model only, an integer in a product
with `2.0` that a double does not hold exactly.
-/
def int64Type : CoefficientType Int where
  div a b := a.tdiv b
  check x := if -2 ^ 63 <= x ∧ x < 2 ^ 63 then .ok x else .error .undefined
  toDouble x := if -2 ^ 53 <= x ∧ x <= 2 ^ 53 then .ok x else .error .undefined

section Definitions

variable {K : Type} [CommRing K] [DecidableEq K] (A : CoefficientType K)

def degreeOf (c : List K) : Outcome Nat :=
  match degree c with
  | none => throw (RuntimeFault.thrown "Coefficients vector can not be empty")
  | some n => return n

/-- `f -= d`, after which the rest is cut behind its degree. -/
def subtractRest (s : DivisionState K) (q d : List K) : Outcome (DivisionState K) := do
  let r <- (List.zipWith (fun x y => x - y) s.r d).mapM A.check
  if 1 < r.length then
    let n <- degreeOf r
    return { n := n, q := q, r := resize r (n + 1) }
  else
    return { n := s.n, q := q, r := r }

/-- `v /= g.back()`, where `gk` is not one. -/
def divideBy (gk gback v : K) : Outcome K :=
  if gk ≠ 1 then A.check (A.div v gback) else .ok v

def divisionPolyStep (g : List K) (k : Nat) (s : DivisionState K) :
    Outcome (DivisionState K) := do
  let last <- back s.r
  let gk <- entry g k
  let gback <- back g
  let qnk <- divideBy A gk gback last
  let q <- store s.q (s.n - k) qnk
  let d <- ((List.replicate (s.n - k) 0 ++ g).map fun v => v * qnk).mapM A.check
  subtractRest A s q d

/-- `LongDivisionPoly` with at most `fuel` tests of its loop. -/
def runLongDivisionPoly (fuel : Nat) (f g : List K) : Outcome (LongDiv K) := do
  let n <- degreeOf f
  if n ≠ f.length - 1 then
    throw (RuntimeFault.thrown "The dominant coefficient of the divident is zero")
  else
    let k <- degreeOf g
    if k ≠ g.length - 1 then
      throw (RuntimeFault.thrown "The dominant coefficient of the divisor is zero")
    else if n < k then return { q := [0], r := f }
    else
      let s <- whileLoop (fun s => decide (k <= s.n)) (divisionPolyStep A g k) fuel
        { n := n, q := List.replicate (n - k + 1) 0, r := f }
      return { q := s.q, r := s.r }

end Definitions

/-!
## Exact coefficients

Coefficients of any size in a ring that divide where they can, seen in a field.
-/

/-- The zero polynomial has one coefficient, any other one ends with its leading one. -/
def IsDividend {K : Type _} [Zero K] (f : List K) : Prop :=
  exists n, f.length = n + 1 ∧ (n = 0 ∨ f.getD n 0 ≠ 0)

theorem degree_of_dividend {K : Type _} [Zero K] [DecidableEq K] {f : List K} {n : Nat}
    (hf : f.length = n + 1) (htop : n = 0 ∨ f.getD n 0 ≠ 0) : degree f = some n := by
  cases htop with
  | inl hzero =>
      rcases degree_spec (List.ne_nil_of_length_pos (show 0 < f.length by omega)) with
        ⟨d, hd, hlt, -, -⟩
      rw [hd]
      exact congrArg some (by omega)
  | inr hne => exact degree_of_length hf hne

structure IsQuotient {F : Type _} [Field F] (B : Polynomial.Sequence F) (f g q r : List F) :
    Prop where
  identity : series B f = series B q * series B g + series B r
  degree_lt : (series B r).degree < (series B g).degree

theorem exists_difference {K : Type _} [Ring K] (c d : List K) :
    exists e : List K, forall i, e.getD i 0 = c.getD i 0 - d.getD i 0 := by
  refine ⟨(List.range (c.length + d.length)).map fun i => c.getD i 0 - d.getD i 0, ?_⟩
  intro i
  rcases Nat.lt_or_ge i (c.length + d.length) with hlt | hge
  · rw [List.getD_eq_getElem?_getD, List.getElem?_map, List.getElem?_range hlt]
    rfl
  · rw [List.getD_eq_default _ _ (by simpa using hge), List.getD_eq_default c 0 (by omega),
      List.getD_eq_default d 0 (by omega), sub_zero]

section Quotients

variable {F : Type _} [Field F] {B : Polynomial.Sequence F} {f g : List F}

theorem quotient_top {s : DivisionState F} (hinv : DivisionInvariant B f g s) {k : Nat}
    (hg : g.length = k + 1) (hgtop : g.getD k 0 ≠ 0) (hk : k <= s.n) {q r : List F}
    (h : IsQuotient B f g q r) :
    q.getD (s.n - k) 0 * (B (s.n - k)).leadingCoeff * (g.getD k 0 * (B k).leadingCoeff) =
      s.r.getD s.n 0 * (B s.n).leadingCoeff := by
  rcases exists_difference q s.q with ⟨e, he⟩
  have hseries : series B e = series B q - series B s.q := by
    rw [series_linear B 1 (-1) (c := q) (d := s.q) (e := e) (fun i => by rw [he i]; ring)]
    simp only [C_1, C_neg]
    ring
  have hproduct : series B e * series B g = series B s.r - series B r := by
    rw [hseries]
    linear_combination hinv.identity - h.identity
  have hgdeg : (series B g).degree = k := degree_series B hg hgtop
  have hrdeg : (series B r).degree < (s.n + 1 : Nat) := by
    apply (hgdeg ▸ h.degree_lt).trans
    exact_mod_cast Nat.lt_succ_of_le hk
  have hdiff : (series B s.r - series B r).degree < (s.n + 1 : Nat) := by
    apply (degree_sub_le _ _).trans_lt
    apply max_lt _ hrdeg
    exact hinv.rest_length ▸ degree_series_lt B s.r
  have hedeg : (series B e).degree < (s.n - k + 1 : Nat) := by
    by_cases hzero : series B e = 0
    · rw [hzero, degree_zero]
      exact WithBot.bot_lt_coe _
    · rw [<- hproduct, degree_mul, hgdeg, degree_eq_natDegree hzero] at hdiff
      rw [degree_eq_natDegree hzero]
      have hsum : (series B e).natDegree + k < s.n + 1 := by exact_mod_cast hdiff
      exact_mod_cast (show (series B e).natDegree < s.n - k + 1 by omega)
  have hezero := getD_eq_zero_of_degree_lt B hedeg
  have hcoeff : (series B e * series B g).coeff (s.n - k + k) =
      (series B s.r - series B r).coeff (s.n - k + k) := by
    rw [hproduct]
  have henat : (series B e).natDegree <= s.n - k :=
    natDegree_le_iff_degree_le.mpr (Order.le_of_lt_succ (by exact_mod_cast hedeg))
  rw [coeff_mul_add_eq_of_natDegree_le henat (natDegree_le_of_degree_le hgdeg.le),
    coeff_series B (c := e) (fun i hi => hezero i hi),
    coeff_series B (c := g) (fun i hi => List.getD_eq_default g 0 (by omega)), coeff_sub,
    Nat.sub_add_cancel hk,
    coeff_series B (c := s.r) (fun i hi => List.getD_eq_default s.r 0 (by
      rw [hinv.rest_length]
      omega)),
    coeff_eq_zero_of_degree_lt (hgdeg ▸ h.degree_lt |>.trans_le (by exact_mod_cast hk)),
    sub_zero, he, hinv.quotient_zero (s.n - k) (by omega), sub_zero] at hcoeff
  exact hcoeff

theorem DivisionInvariant.isQuotient {s : DivisionState F} (hinv : DivisionInvariant B f g s)
    {k : Nat} (hg : g.length = k + 1) (hgtop : g.getD k 0 ≠ 0) (hlt : s.n < k) :
    IsQuotient B f g s.q s.r := by
  constructor
  · exact hinv.identity
  · rw [degree_series B hg hgtop]
    apply (degree_series_lt B s.r).trans_le
    rw [hinv.rest_length]
    exact_mod_cast hlt

theorem isQuotient_of_lt {k : Nat} (hf : f.length <= k) (hg : g.length = k + 1)
    (hgtop : g.getD k 0 ≠ 0) : IsQuotient B f g [0] f := by
  constructor
  · rw [series_single B (c := [0]) (n := 0) (fun i hi => by
      cases i with
      | zero => exact absurd rfl hi
      | succ i => rfl)]
    simp
  · rw [degree_series B hg hgtop]
    exact (degree_series_lt B f).trans_le (by exact_mod_cast hf)

end Quotients

section Exact

variable {K F : Type} [CommRing K] [Field F] {A : CoefficientType K}

structure CoefficientType.Exact (A : CoefficientType K) : Prop where
  check : forall x, A.check x = .ok x
  toDouble : forall x, A.toDouble x = .ok x
  div_mul : forall {a b : K}, b ≠ 0 -> b ∣ a -> A.div a b * b = a

theorem fieldType_exact : (fieldType F).Exact := by
  constructor
  · intro x
    rfl
  · intro x
    rfl
  · intro a b hb _
    exact div_mul_cancel₀ a hb

theorem integerType_exact : integerType.Exact := by
  constructor
  · intro x
    rfl
  · intro x
    rfl
  · intro a b _ hdvd
    exact Int.tdiv_mul_cancel hdvd

theorem mapM_check (hA : A.Exact) (l : List K) : l.mapM A.check = .ok l := by
  induction l with
  | nil => rfl
  | cons x l ih =>
      rw [List.mapM_cons, hA.check, ih]
      rfl

theorem degreeOf_eq [DecidableEq K] {c : List K} {n : Nat} (h : degree c = some n) : degreeOf c = .ok n := by
  rw [degreeOf, h]
  rfl

theorem getD_map (φ : K →+* F) (c : List K) (i : Nat) :
    (c.map φ).getD i 0 = φ (c.getD i 0) := by
  have hmap := List.getD_map (f := φ) (l := c) (n := i) (d := 0)
  rwa [map_zero] at hmap

theorem resize_map (φ : K →+* F) (c : List K) (n : Nat) :
    (resize c n).map φ = resize (c.map φ) n := by
  simp [resize, List.map_take]

def DivisionState.map (φ : K →+* F) (s : DivisionState K) : DivisionState F where
  n := s.n
  q := s.q.map φ
  r := s.r.map φ

theorem exists_map (s : DivisionState K) (φ : K →+* F) :
    exists t, s.map φ = t ∧ t.n = s.n ∧ t.q = s.q.map φ ∧ t.r = s.r.map φ :=
  ⟨_, rfl, rfl, rfl, rfl⟩

omit [CommRing K] in
theorem getD_set [Zero K] {v : List K} {i : Nat} (x : K) (hi : i < v.length) (j : Nat) :
    (v.set i x).getD j 0 = if j = i then x else v.getD j 0 := by
  rcases assign_spec x hi with ⟨w, hw, -, hget⟩
  rw [assign, if_pos hi] at hw
  cases hw
  exact hget j

variable [DecidableEq K] [DecidableEq F] {φ : K →+* F} (hφ : Function.Injective φ)
include hφ

theorem degreeLoop_map (c : List K) (n : Nat) :
    degreeLoop (c.map φ) n = degreeLoop c n := by
  induction n with
  | zero => rfl
  | succ n ih =>
      rw [degreeLoop, degreeLoop, getD_map, ih]
      simp only [ne_eq, map_eq_zero_iff φ hφ]

theorem degree_map (c : List K) : degree (c.map φ) = degree c := by
  rw [degree, degree, List.length_map, degreeLoop_map hφ]

theorem subtractRest_map (hA : A.Exact) {s : DivisionState K} {q d : List K}
    {t : DivisionState F} (h : subtract (s.map φ) (q.map φ) (d.map φ) = some t) :
    exists s', subtractRest A s q d = .ok s' ∧ s'.map φ = t := by
  have hzip : List.zipWith (fun x y => x - y) (s.r.map φ) (d.map φ) =
      (List.zipWith (fun x y => x - y) s.r d).map φ := by
    rw [List.zipWith_map, List.map_zipWith]
    simp only [map_sub]
  unfold subtract at h
  unfold subtractRest
  rw [mapM_check hA, ok_bind]
  simp only [DivisionState.map, hzip, List.length_map, degree_map hφ] at h
  generalize List.zipWith (fun x y => x - y) s.r d = r at *
  by_cases hr : 1 < r.length
  · rw [if_pos hr] at h ⊢
    rcases Option.bind_eq_some_iff.mp h with ⟨n, hn, hret⟩
    cases hret
    rw [degreeOf_eq hn, ok_bind]
    refine ⟨_, rfl, ?_⟩
    rw [DivisionState.map, resize_map]
  · rw [if_neg hr] at h ⊢
    cases h
    exact ⟨_, rfl, rfl⟩

/-!
## Division in the powers of the variable
-/

omit hφ in
theorem divideBy_map (hA : A.Exact) {gk gback v : K} (heq : gk = gback) (hne : gback ≠ 0)
    (hdvd : gback ∣ v) : exists w, divideBy A gk gback v = .ok w ∧ gback * w = v := by
  unfold divideBy
  by_cases hone : gk = 1
  · rw [if_neg (not_not.mpr hone)]
    refine ⟨v, rfl, ?_⟩
    rw [<- heq, hone, one_mul]
  · rw [if_pos hone, hA.check]
    exact ⟨_, rfl, (mul_comm _ _).trans (hA.div_mul hne hdvd)⟩

theorem divisionPolyStep_map (hA : A.Exact) {f g : List K} {k : Nat} {s : DivisionState K}
    (hinv : DivisionInvariant (powerBasis F) (f.map φ) (g.map φ) (s.map φ))
    (hg : g.length = k + 1) (hgtop : g.getD k 0 ≠ 0) (hk : k <= s.n) (hn : 0 < s.n)
    (hexact : exists q r : List K,
      IsQuotient (powerBasis F) (f.map φ) (g.map φ) (q.map φ) (r.map φ)) :
    exists s', divisionPolyStep A g k s = .ok s' ∧
      DivisionInvariant (powerBasis F) (f.map φ) (g.map φ) (s'.map φ) ∧ s'.n < s.n := by
  rcases hexact with ⟨Q, R, hexact⟩
  have hgmap : (g.map φ).length = k + 1 := by rw [List.length_map, hg]
  have hgtopmap : (g.map φ).getD k 0 ≠ 0 := by
    rw [getD_map]
    exact fun h => hgtop ((map_eq_zero_iff φ hφ).mp h)
  rcases exists_map s φ with ⟨t, ht, hn', hq', hr'⟩
  rw [ht] at hinv
  have hrlen : s.r.length = s.n + 1 := by
    rw [<- List.length_map φ, <- hr', <- hn']
    exact hinv.rest_length
  have hqlen : s.q.length + g.length = f.length + 1 := by
    have hlen := hinv.quotient_length
    rwa [hq', List.length_map, List.length_map, List.length_map] at hlen
  have hbound : s.n < f.length := by
    have hlt := hinv.bound
    rwa [hn', List.length_map] at hlt
  -- the exact quotient has the next term
  have hk' : k <= t.n := hn'.symm ▸ hk
  have hpos : 0 < t.n := hn'.symm ▸ hn
  have htop := quotient_top hinv hgmap hgtopmap hk' hexact
  have hlead : forall n, (powerBasis F n).leadingCoeff = 1 := by
    intro n
    exact leadingCoeff_X_pow n
  rw [hlead, hlead, hlead, mul_one, mul_one, mul_one, hr', hn', getD_map, getD_map, getD_map,
    <- map_mul] at htop
  have hback : Q.getD (s.n - k) 0 * g.getD k 0 = s.r.getD s.n 0 := hφ htop
  rcases divideBy_map hA (Eq.refl (g.getD k 0)) hgtop (Dvd.intro_left _ hback) with
    ⟨v, hv, hscale⟩
  have hindex : s.n - k < s.q.length := by omega
  have hset : forall i, ((s.q.set (s.n - k) v).map φ).getD i 0 =
      if i = t.n - k then φ v else t.q.getD i 0 := by
    intro i
    rw [getD_map, getD_set _ hindex, hn', hq', getD_map]
    split <;> rfl
  have hsetlen : ((s.q.set (s.n - k) v).map φ).length = t.q.length := by
    rw [hq', List.length_map, List.length_map, List.length_set]
  have hdmap : ((List.replicate (s.n - k) 0 ++ g).map fun c => c * v).map φ =
      (List.replicate (s.n - k) 0 ++ g.map φ).map fun c => c * φ v := by
    simp [List.map_map, Function.comp_def]
  have hdlen : (((List.replicate (s.n - k) 0 ++ g).map fun c => c * v).map φ).length =
      t.n + 1 := by
    rw [List.length_map, List.length_map, List.length_append, List.length_replicate, hg]
    omega
  have hdtop : (((List.replicate (s.n - k) 0 ++ g).map fun c => c * v).map φ).getD t.n 0 =
      t.r.getD t.n 0 := by
    have hentry := List.getD_map (f := fun c => c * v) (l := List.replicate (s.n - k) 0 ++ g)
      (n := s.n) (d := 0)
    rw [zero_mul] at hentry
    rw [hn', hr', getD_map, getD_map, hentry, List.getD_append_right _ _ _ _ (by simp),
      List.length_replicate, Nat.sub_sub_self hk, hscale]
  have hseries : series (powerBasis F) (((List.replicate (s.n - k) 0 ++ g).map
      fun c => c * v).map φ) =
        C (φ v) * powerBasis F (t.n - k) * series (powerBasis F) (g.map φ) := by
    rw [hdmap, hn']
    exact series_shift (g.map φ) (s.n - k) (φ v)
  rcases hinv.step hgmap hk' hpos hsetlen hset hdlen hdtop hseries with ⟨t', ht', hinv', hlt, -⟩
  rw [<- ht] at ht'
  rcases subtractRest_map hφ hA ht' with ⟨s', hs', rfl⟩
  refine ⟨s', ?_, hinv', hn' ▸ hlt⟩
  unfold divisionPolyStep
  rw [back, getLast?_eq_getD hrlen, entry_ok (getElem?_eq_getD (show k < g.length by omega)),
    back, getLast?_eq_getD hg]
  simp only [orUndefined, ok_bind, hv, store_ok _ hindex, mapM_check hA]
  exact hs'

theorem runLongDivisionPoly_divides (hA : A.Exact) {f g : List K} (hf : IsDividend f)
    {k : Nat} (hg : g.length = k + 2) (hgtop : g.getD (k + 1) 0 ≠ 0)
    (hexact : exists q r : List K,
      IsQuotient (powerBasis F) (f.map φ) (g.map φ) (q.map φ) (r.map φ)) :
    exists res, runLongDivisionPoly A (f.length + 1) f g = .ok res ∧
      IsQuotient (powerBasis F) (f.map φ) (g.map φ) (res.q.map φ) (res.r.map φ) := by
  rcases hf with ⟨n, hf, hftop⟩
  have hgmap : (g.map φ).length = k + 1 + 1 := by rw [List.length_map, hg]
  have hgtopmap : (g.map φ).getD (k + 1) 0 ≠ 0 := by
    rw [getD_map]
    exact fun h => hgtop ((map_eq_zero_iff φ hφ).mp h)
  unfold runLongDivisionPoly
  rw [degreeOf_eq (degree_of_dividend hf hftop), degreeOf_eq (degree_of_length hg hgtop)]
  simp only [ok_bind]
  rw [if_neg (by omega), if_neg (by omega)]
  by_cases hlt : n < k + 1
  · rw [if_pos hlt]
    refine ⟨_, rfl, ?_⟩
    have hquotient := isQuotient_of_lt (B := powerBasis F) (f := f.map φ)
      (by rw [List.length_map]; omega) hgmap hgtopmap
    rw [List.map_singleton, map_zero]
    exact hquotient
  · rw [if_neg hlt]
    have hfmap : (f.map φ).getD n 0 ≠ 0 := by
      rw [getD_map]
      exact fun h => hftop.resolve_left (by omega) ((map_eq_zero_iff φ hφ).mp h)
    have hinit := DivisionInvariant.init (powerBasis F) (f := f.map φ) (g := g.map φ)
      (by rw [List.length_map, hf]) hfmap hgmap (not_lt.mp hlt)
    rcases whileLoop_spec (c := fun s : DivisionState K => decide (k + 1 <= s.n))
      (f := divisionPolyStep A g (k + 1))
      (fun s => DivisionInvariant (powerBasis F) (f.map φ) (g.map φ) (s.map φ))
      (fun s => s.n)
      (by
        intro s hinv hcond
        have hle : k + 1 <= s.n := of_decide_eq_true hcond
        exact divisionPolyStep_map hφ hA hinv hg hgtop hle (by omega) hexact)
      (f.length + 1) { n := n, q := List.replicate (n - (k + 1) + 1) 0, r := f }
      (by
        show DivisionInvariant (powerBasis F) (f.map φ) (g.map φ)
          ⟨n, (List.replicate (n - (k + 1) + 1) 0).map φ, f.map φ⟩
        rw [List.map_replicate, map_zero]
        exact hinit)
      (by simp only [hf]; omega) with ⟨s, hrun, hinv, hstop⟩
    have hstopped : s.n < k + 1 := not_le.mp (of_decide_eq_false hstop)
    rw [hrun]
    exact ⟨_, rfl, hinv.isQuotient hgmap hgtopmap hstopped⟩

end Exact

/-!
## Calls that do not divide
-/

section Failures

variable {K : Type} [CommRing K] [DecidableEq K] {A : CoefficientType K}

theorem degreeOf_of_not_dividend {f : List K} (hf : ¬ IsDividend f) :
    degreeOf f = .error (.thrown "Coefficients vector can not be empty") ∨
      exists d, degreeOf f = .ok d ∧ d ≠ f.length - 1 := by
  rcases Nat.eq_zero_or_pos f.length with hzero | hpos
  · left
    unfold degreeOf degree
    rw [if_pos hzero]
    rfl
  · right
    have hlen : f.length = f.length - 1 + 1 := by omega
    have hlast : f.getD (f.length - 1) 0 = 0 := by
      by_contra hne
      exact hf ⟨_, hlen, Or.inr hne⟩
    have htwo : f.length - 1 ≠ 0 := fun h => hf ⟨_, hlen, Or.inl h⟩
    have hsplit : f.length - 1 = f.length - 2 + 1 := by omega
    rcases degree_lt_of_last (n := f.length - 2) (by omega) (hsplit ▸ hlast) with ⟨d, hd, hle⟩
    exact ⟨d, degreeOf_eq hd, by omega⟩

theorem runLongDivisionPoly_throws {f : List K} (hf : ¬ IsDividend f) (g : List K) :
    exists message, forall fuel, runLongDivisionPoly A fuel f g = .error (.thrown message) := by
  unfold runLongDivisionPoly
  rcases degreeOf_of_not_dividend hf with hthrow | ⟨d, hd, hne⟩
  · rw [hthrow]
    exact ⟨_, fun _ => rfl⟩
  · refine ⟨"The dominant coefficient of the divident is zero", fun fuel => ?_⟩
    rw [hd, ok_bind, if_pos hne]
    rfl

theorem subtractRest_ok (hA : A.Exact) {s : DivisionState K} (q : List K) {d : List K}
    (hr : s.r.length = s.n + 1) (hd : d.length = s.n + 1) :
    exists s', subtractRest A s q d = .ok s' ∧ s'.q = q ∧ s'.n <= s.n ∧
      s'.r.length = s'.n + 1 := by
  have hlen : (List.zipWith (fun x y => x - y) s.r d).length = s.n + 1 := by
    rw [List.length_zipWith, hr, hd, Nat.min_self]
  unfold subtractRest
  rw [mapM_check hA, ok_bind]
  generalize List.zipWith (fun x y => x - y) s.r d = r at hlen
  by_cases hone : 1 < r.length
  · rcases degree_spec (List.ne_nil_of_length_pos (show 0 < r.length by omega)) with
      ⟨n, hn, hlt, -, -⟩
    rw [if_pos hone, degreeOf_eq hn]
    have hle : n <= s.n := by omega
    exact ⟨_, rfl, rfl, hle, length_resize _ _⟩
  · rw [if_neg hone]
    exact ⟨_, rfl, rfl, le_rfl, hlen⟩

theorem runLongDivisionPoly_running (hA : A.Exact) {f : List K} (hf : IsDividend f) (c : K)
    (fuel : Nat) : runLongDivisionPoly A fuel f [c] = .error .running := by
  rcases hf with ⟨n, hf, hftop⟩
  unfold runLongDivisionPoly
  have hdegree : degree [c] = some 0 := degree_of_dividend rfl (Or.inl rfl)
  rw [degreeOf_eq (degree_of_dividend hf hftop), degreeOf_eq hdegree]
  simp only [ok_bind]
  rw [if_neg (by omega), if_neg (by simp), if_neg (Nat.not_lt_zero n),
    whileLoop_running (c := fun s : DivisionState K => decide (0 <= s.n))
      (fun s => s.r.length = s.n + 1 ∧ s.n < s.q.length)]
  · rfl
  · rintro s ⟨hr, hq⟩
    refine ⟨decide_eq_true (Nat.zero_le _), ?_⟩
    have hterm : exists v, divideBy A c c (s.r.getD s.n 0) = .ok v := by
      unfold divideBy
      by_cases hone : c = 1
      · exact ⟨_, if_neg (not_not.mpr hone)⟩
      · rw [if_pos hone, hA.check]
        exact ⟨_, rfl⟩
    rcases hterm with ⟨v, hv⟩
    rcases subtractRest_ok hA (s := s) (s.q.set (s.n - 0) v)
      (d := (List.replicate (s.n - 0) 0 ++ [c]).map fun x => x * v) hr (by simp) with
      ⟨s', hs', hsq, hle, hlen⟩
    refine ⟨s', ?_, hlen, ?_⟩
    · unfold divisionPolyStep
      rw [back, getLast?_eq_getD hr]
      simp only [orUndefined, ok_bind, entry, back, List.getElem?_cons_zero,
        List.getLast?_singleton, hv, store_ok _ (show s.n - 0 < s.q.length from hq),
        mapM_check hA]
      exact hs'
    · rw [hsq, List.length_set]
      exact Nat.lt_of_le_of_lt hle hq
  · exact ⟨hf, by simp⟩

theorem divideBy_noThrow (hA : A.Exact) (gk gback v : K) : NoThrow (divideBy A gk gback v) := by
  unfold divideBy
  by_cases hone : gk ≠ 1
  · rw [if_pos hone, hA.check]
    exact NoThrow.ok _
  · rw [if_neg hone]
    exact NoThrow.ok _

theorem subtractRest_noThrow (hA : A.Exact) (s : DivisionState K) (q d : List K) :
    NoThrow (subtractRest A s q d) := by
  unfold subtractRest
  rw [mapM_check hA, ok_bind]
  generalize List.zipWith (fun x y => x - y) s.r d = r
  by_cases hone : 1 < r.length
  · rcases degree_spec (List.ne_nil_of_length_pos (show 0 < r.length by omega)) with
      ⟨n, hn, -, -, -⟩
    rw [if_pos hone, degreeOf_eq hn]
    exact NoThrow.ok _
  · rw [if_neg hone]
    exact NoThrow.ok _

theorem divisionPolyStep_noThrow (hA : A.Exact) (g : List K) (k : Nat) (s : DivisionState K) :
    NoThrow (divisionPolyStep A g k s) := by
  apply (NoThrow.orUndefined _).bind
  intro last _
  apply (NoThrow.orUndefined _).bind
  intro gk _
  apply (NoThrow.orUndefined _).bind
  intro gback _
  apply (divideBy_noThrow hA gk gback last).bind
  intro qnk _
  apply (NoThrow.store _ _ _).bind
  intro q _
  rw [mapM_check hA, ok_bind]
  exact subtractRest_noThrow hA s q _

/-- The exceptions are those for a leading coefficient of zero. -/
theorem runLongDivisionPoly_noThrow (hA : A.Exact) {f g : List K} (hf : IsDividend f)
    (hg : IsDividend g) (fuel : Nat) : NoThrow (runLongDivisionPoly A fuel f g) := by
  rcases hf with ⟨n, hf, hftop⟩
  rcases hg with ⟨k, hg, hgtop⟩
  unfold runLongDivisionPoly
  rw [degreeOf_eq (degree_of_dividend hf hftop), degreeOf_eq (degree_of_dividend hg hgtop)]
  simp only [ok_bind]
  rw [if_neg (by omega), if_neg (by omega)]
  by_cases hlt : n < k
  · rw [if_pos hlt]
    exact NoThrow.ok _
  · rw [if_neg hlt]
    apply (NoThrow.whileLoop (divisionPolyStep_noThrow hA g k) fuel _).bind
    intro s _
    exact NoThrow.ok _

end Failures

/-!
## Fixed-width integers
-/

theorem int64Type_check (x : Int) : Stops (int64Type.check x) (integerType.check x) := by
  unfold int64Type
  by_cases hx : -2 ^ 63 <= x ∧ x < 2 ^ 63
  · exact Or.inr (if_pos hx)
  · exact Or.inl (if_neg hx)

theorem int64Type_toDouble (x : Int) :
    Stops (int64Type.toDouble x) (integerType.toDouble x) := by
  unfold int64Type
  by_cases hx : -2 ^ 53 <= x ∧ x <= 2 ^ 53
  · exact Or.inr (if_pos hx)
  · exact Or.inl (if_neg hx)

theorem subtractRest_stops (s : DivisionState Int) (q d : List Int) :
    Stops (subtractRest int64Type s q d) (subtractRest integerType s q d) := by
  apply (Stops.mapM int64Type_check _).bind
  intro r
  exact Stops.refl _

theorem divideBy_stops (gk gback v : Int) :
    Stops (divideBy int64Type gk gback v) (divideBy integerType gk gback v) :=
  Stops.ite (int64Type_check _) (Stops.refl _)

theorem divisionPolyStep_stops (g : List Int) (k : Nat) (s : DivisionState Int) :
    Stops (divisionPolyStep int64Type g k s) (divisionPolyStep integerType g k s) := by
  apply (Stops.refl _).bind
  intro last
  apply (Stops.refl _).bind
  intro gk
  apply (Stops.refl _).bind
  intro gback
  apply (divideBy_stops gk gback last).bind
  intro qnk
  apply (Stops.refl _).bind
  intro q
  apply (Stops.mapM int64Type_check _).bind
  intro d
  exact subtractRest_stops s q d

theorem runLongDivisionPoly_stops (fuel : Nat) (f g : List Int) :
    Stops (runLongDivisionPoly int64Type fuel f g)
      (runLongDivisionPoly integerType fuel f g) := by
  apply (Stops.refl _).bind
  intro n
  apply (Stops.refl _).ite
  apply (Stops.refl _).bind
  intro k
  apply (Stops.refl _).ite
  apply (Stops.refl _).ite
  apply (Stops.whileLoop (divisionPolyStep_stops g k) fuel _).bind
  intro s
  exact Stops.refl _

/-!
## When the division succeeds
-/

def HasLead {K : Type _} [Zero K] (g : List K) : Prop :=
  exists k, g.length = k + 1 ∧ g.getD k 0 ≠ 0

section Contract

variable {K F : Type} [CommRing K] [DecidableEq K] [Field F]

/-- Some number of tests is enough for the call to return a quotient and a rest. -/
def Divided (run : Nat -> List K -> List K -> Outcome (LongDiv K)) (B : Polynomial.Sequence F)
    (φ : K →+* F) (f g : List K) : Prop :=
  exists fuel res, run fuel f g = .ok res ∧
    IsQuotient B (f.map φ) (g.map φ) (res.q.map φ) (res.r.map φ)

def Thrown (run : Nat -> List K -> List K -> Outcome (LongDiv K)) (f g : List K) : Prop :=
  exists fuel message, run fuel f g = .error (.thrown message)

theorem divided_iff [DecidableEq F] {A : CoefficientType K} (hA : A.Exact) {φ : K →+* F}
    (hφ : Function.Injective φ) {f g : List K} (hg : HasLead g) :
    Divided (runLongDivisionPoly A) (powerBasis F) φ f g <->
      IsDividend f ∧ 2 <= g.length ∧ exists q r : List K,
        IsQuotient (powerBasis F) (f.map φ) (g.map φ) (q.map φ) (r.map φ) := by
  rcases hg with ⟨k, hglen, hgtop⟩
  constructor
  · rintro ⟨fuel, res, hrun, hquotient⟩
    have hf : IsDividend f := by
      by_contra hf
      rcases runLongDivisionPoly_throws (A := A) hf g with ⟨message, hthrows⟩
      rw [hthrows fuel] at hrun
      cases hrun
    refine ⟨hf, ?_, res.q, res.r, hquotient⟩
    by_contra hone
    rcases List.length_eq_one_iff.mp (show g.length = 1 by omega) with ⟨c, rfl⟩
    rw [runLongDivisionPoly_running hA hf c fuel] at hrun
    cases hrun
  · rintro ⟨hf, hlen, hexact⟩
    have hsplit : k = k - 1 + 1 := by omega
    rcases runLongDivisionPoly_divides hφ hA hf (k := k - 1) (by omega) (hsplit ▸ hgtop)
      hexact with ⟨res, hrun, hquotient⟩
    exact ⟨f.length + 1, res, hrun, hquotient⟩

theorem thrown_iff {A : CoefficientType K} (hA : A.Exact) {f g : List K} (hg : HasLead g) :
    Thrown (runLongDivisionPoly A) f g <-> ¬ IsDividend f := by
  constructor
  · rintro ⟨fuel, message, hrun⟩ hf
    rcases hg with ⟨k, hglen, hgtop⟩
    exact runLongDivisionPoly_noThrow hA hf ⟨k, hglen, Or.inr hgtop⟩ fuel message hrun
  · intro hf
    rcases runLongDivisionPoly_throws (A := A) hf g with ⟨message, hthrows⟩
    exact ⟨0, message, hthrows 0⟩

end Contract

theorem exists_series {F : Type} [Field F] (p : F[X]) :
    exists c : List F, series (powerBasis F) c = p := by
  refine ⟨(List.range (p.natDegree + 1)).map p.coeff, ?_⟩
  have hget : forall i, i < p.natDegree + 1 ->
      ((List.range (p.natDegree + 1)).map p.coeff).getD i 0 = p.coeff i := by
    intro i hi
    rw [List.getD_eq_getElem?_getD, List.getElem?_map, List.getElem?_range hi]
    rfl
  rw [series_eq_sum (powerBasis F) (n := p.natDegree + 1) (by simp)]
  apply Eq.trans _ p.as_sum_range_C_mul_X_pow.symm
  apply Finset.sum_congr rfl
  intro i hi
  rw [hget i (Finset.mem_range.mp hi)]
  rfl

theorem exists_isQuotient {F : Type} [Field F] (f : List F) {g : List F} (hg : HasLead g) :
    exists q r : List F, IsQuotient (powerBasis F) f g q r := by
  rcases hg with ⟨k, hglen, hgtop⟩
  have hne : series (powerBasis F) g ≠ 0 := by
    intro hzero
    have hdegree := degree_series (powerBasis F) hglen hgtop
    rw [hzero, degree_zero] at hdegree
    cases hdegree
  rcases exists_series (series (powerBasis F) f / series (powerBasis F) g) with ⟨q, hq⟩
  rcases exists_series (series (powerBasis F) f % series (powerBasis F) g) with ⟨r, hr⟩
  refine ⟨q, r, ?_⟩
  constructor
  · rw [hq, hr, mul_comm]
    exact (EuclideanDomain.div_add_mod _ _).symm
  · rw [hr]
    exact degree_mod_lt _ hne

theorem divided_congr {K F : Type} [CommRing K] [Field F] {B : Polynomial.Sequence F}
    {φ : K →+* F} {run run' : Nat -> List K -> List K -> Outcome (LongDiv K)} {f g : List K}
    (h : forall fuel, run fuel f g = run' fuel f g) :
    Divided run B φ f g <-> Divided run' B φ f g := by
  simp only [Divided, h]

theorem thrown_congr {K : Type} {run run' : Nat -> List K -> List K -> Outcome (LongDiv K)}
    {f g : List K} (h : forall fuel, run fuel f g = run' fuel f g) :
    Thrown run f g <-> Thrown run' f g := by
  simp only [Thrown, h]

/-- Both instantiations: over a field, and `int64_t` as long as no operation overflows. -/
theorem longDivisionPoly_iff (F : Type) [Field F] [DecidableEq F] :
    (forall f g : List F, HasLead g ->
      (Divided (runLongDivisionPoly (fieldType F)) (powerBasis F) (RingHom.id F) f g <->
        IsDividend f ∧ 2 <= g.length)) ∧
    (forall f g : List Int, HasLead g ->
      (forall fuel, runLongDivisionPoly int64Type fuel f g ≠ .error .undefined) ->
      (Divided (runLongDivisionPoly int64Type) (powerBasis ℚ) (Int.castRingHom ℚ) f g ∨
          Thrown (runLongDivisionPoly int64Type) f g <->
        ¬ IsDividend f ∨ 2 <= g.length ∧ exists q r : List Int,
          IsQuotient (powerBasis ℚ) (f.map (Int.castRingHom ℚ)) (g.map (Int.castRingHom ℚ))
            (q.map (Int.castRingHom ℚ)) (r.map (Int.castRingHom ℚ)))) := by
  constructor
  · intro f g hg
    have hquotient := exists_isQuotient f hg
    rw [divided_iff fieldType_exact (RingHom.id F).injective hg]
    simp only [RingHom.coe_id, List.map_id]
    constructor
    · rintro ⟨hf, hlen, -⟩
      exact ⟨hf, hlen⟩
    · rintro ⟨hf, hlen⟩
      exact ⟨hf, hlen, hquotient⟩
  · intro f g hg hdefined
    have hsame : forall fuel, runLongDivisionPoly int64Type fuel f g =
        runLongDivisionPoly integerType fuel f g := by
      intro fuel
      exact (runLongDivisionPoly_stops fuel f g).eq (hdefined fuel)
    rw [divided_congr hsame, thrown_congr hsame, thrown_iff integerType_exact hg,
      divided_iff integerType_exact (Int.castRingHom ℚ).injective_int hg]
    by_cases hf : IsDividend f
    · simp only [hf, true_and, not_true_eq_false, or_false, false_or]
    · simp only [hf, not_false_eq_true, or_true, true_or]

/-- `x ^ 2 + 3 * x + 2` by `x + 1`, over the rationals and in `int64_t`. -/
theorem longDivisionPoly_example :
    Divided (runLongDivisionPoly (fieldType ℚ)) (powerBasis ℚ) (RingHom.id ℚ) [2, 3, 1] [1, 1] ∧
      (Divided (runLongDivisionPoly int64Type) (powerBasis ℚ) (Int.castRingHom ℚ)
          [2, 3, 1] [1, 1] ∨ Thrown (runLongDivisionPoly int64Type) [2, 3, 1] [1, 1]) := by
  have hlead : HasLead ([1, 1] : List ℚ) := ⟨1, rfl, one_ne_zero⟩
  have hleadInt : HasLead ([1, 1] : List Int) := ⟨1, rfl, one_ne_zero⟩
  have hdividend : IsDividend ([2, 3, 1] : List ℚ) := ⟨2, rfl, Or.inr one_ne_zero⟩
  have hrun : forall fuel, runLongDivisionPoly int64Type fuel [2, 3, 1] [1, 1] ≠
      .error .undefined := by
    intro fuel
    match fuel with
    | 0 | 1 | 2 => decide
    | fuel + 3 =>
        have hdone : runLongDivisionPoly int64Type (fuel + 3) [2, 3, 1] [1, 1] =
          .ok { q := [2, 1], r := [0] } := rfl
        rw [hdone]
        intro h
        cases h
  refine ⟨((longDivisionPoly_iff ℚ).1 _ _ hlead).mpr ⟨hdividend, by decide⟩,
    ((longDivisionPoly_iff ℚ).2 _ _ hleadInt hrun).mpr (Or.inr ⟨by decide, [2, 1], [0], ?_⟩)⟩
  have hpower : forall i, powerBasis ℚ i = X ^ i := fun _ => rfl
  constructor
  · have hthree : (C 3 : ℚ[X]) = C 2 + 1 := by
      rw [<- C_1, <- C_add]
      norm_num
    simp [series, Finset.sum_range_succ, hpower, hthree]
    ring
  · rw [degree_series (powerBasis ℚ) (c := ([1, 1] : List Int).map (Int.castRingHom ℚ))
      (n := 1) rfl (by simp)]
    simp [series, hpower]

/-- A constant divisor, and an integer leading coefficient that does not divide. -/
theorem longDivisionPoly_endless :
    (forall fuel, runLongDivisionPoly (fieldType ℚ) fuel [1] [1] = .error .running) ∧
      forall fuel, runLongDivisionPoly int64Type fuel [1, 3] [0, 2] = .error .running := by
  constructor
  · exact runLongDivisionPoly_running fieldType_exact ⟨0, rfl, Or.inl rfl⟩ 1
  · intro fuel
    have hloop : whileLoop (fun s => decide (1 <= s.n)) (divisionPolyStep int64Type [0, 2] 1) fuel
        { n := 1, q := [0], r := [1, 3] } = .error .running := by
      apply whileLoop_running (fun s : DivisionState Int =>
        s.n = 1 ∧ s.q.length = 1 ∧ (s.r = [1, 3] ∨ s.r = [1, 1]))
      · rintro ⟨n, q, r⟩ ⟨hn, hq, hr⟩
        rcases List.length_eq_one_iff.mp hq with ⟨x, hx⟩
        cases hn
        cases hx
        rcases hr with hr | hr <;> cases hr
        · exact ⟨rfl, _, rfl, rfl, rfl, Or.inr rfl⟩
        · exact ⟨rfl, _, rfl, rfl, rfl, Or.inr rfl⟩
      · exact ⟨rfl, rfl, Or.inl rfl⟩
    show (whileLoop (fun s => decide (1 <= s.n)) (divisionPolyStep int64Type [0, 2] 1) fuel
      { n := 1, q := [0], r := [1, 3] } >>= _) = _
    rw [hloop]
    rfl

end Ckksrns
end Scheme
end OpenFHE
