import OpenFHE.Scheme.Ckksrns.EvalPolyLinear

/-!
# Precomputed powers

`EvalPowers` and `EvalChebyPolys` return powers behind a shared pointer, for any number of
evaluations.  The method of Paterson and Stockmeyer works on copies, but an evaluation of low
degree leaves the terms of the polynomial in the place of the powers.
-/

namespace OpenFHE
namespace Scheme
namespace Ckksrns

open Foundation

/-- `seriesPowers`, with a null pointer for a power that was not computed. -/
structure SharedPowers (R : Type) where
  powersRe : List (Option R)
  powers2Re : List R
  power2km1Re : Option R
  k : Nat
  m : Nat
deriving DecidableEq

namespace SharedPowers

variable {R : Type}

def ofLinear (powers : List (Option R)) : SharedPowers R where
  powersRe := powers
  powers2Re := []
  power2km1Re := none
  k := 0
  m := 0

def ofSeries (powers : SeriesPowers R) : SharedPowers R where
  powersRe := powers.powersRe.map some
  powers2Re := powers.powers2Re
  power2km1Re := some powers.power2km1Re
  k := powers.k
  m := powers.m

def series (p : SharedPowers R) : Outcome (SeriesPowers R) := do
  let powersRe <- p.powersRe.mapM orUndefined
  let power2km1Re <- orUndefined p.power2km1Re
  return {
    powersRe := powersRe
    powers2Re := p.powers2Re
    power2km1Re := power2km1Re
    k := p.k
    m := p.m }

end SharedPowers

section Definitions

variable {F R : Type} [Field F] [DecidableEq F] [CommRing R] [Algebra F R]

def evalPowers (x : R) (coefficients : List F) : Outcome (SharedPowers R) := do
  let d <- degreeOf coefficients
  if d < 5 then do
    let powers <- internalEvalPowersLinear x coefficients
    return .ofLinear powers
  else do
    let powers <- orUndefined (internalEvalPowersPS x d)
    return .ofSeries powers

/-- The powers after the evaluation, and the result. -/
def evalPolyWithPrecomp (ctxtPowers : SharedPowers R) (coeffs : List F) :
    Outcome (SharedPowers R × R) := do
  let n <- degreeOf coeffs
  if n < 5 then do
    let s <- internalEvalPolyLinearWithPrecomp ctxtPowers.powersRe coeffs
    return ({ ctxtPowers with powersRe := s.1 }, s.2)
  else do
    let powers <- ctxtPowers.series
    let result <- orUndefined (internalEvalPolyPSWithPrecomp powers coeffs)
    return (ctxtPowers, result)

def evalChebyPolys (x : R) (coefficients : List F) (a b : F) : Outcome (SharedPowers R) := do
  let d <- degreeOf coefficients
  if d < 5 then do
    let T <- internalEvalChebyPolysLinear x coefficients a b
    return .ofLinear T
  else do
    let T <- orUndefined (internalEvalChebyPolysPS x d a b)
    return .ofSeries T

def evalChebyshevSeriesWithPrecomp (log2ToReal : F -> Nat) (ctxtPowers : SharedPowers R)
    (coeffs : List F) : Outcome (SharedPowers R × R) := do
  let n <- degreeOf coeffs
  if n < 5 then do
    let s <- internalEvalChebyshevSeriesLinearWithPrecomp ctxtPowers.powersRe coeffs
    return ({ ctxtPowers with powersRe := s.1 }, s.2)
  else do
    let polys <- ctxtPowers.series
    let result <- orUndefined (internalEvalChebyshevSeriesPSWithPrecomp log2ToReal polys coeffs)
    return (ctxtPowers, result)

end Definitions

/-! ## Sequences of evaluations -/

section Runs

variable {F R : Type}

/-- A call that throws does so before it writes; its exception is the result. -/
def evaluate (eval : SharedPowers R -> List F -> Outcome (SharedPowers R × R))
    (p : SharedPowers R) (coeffs : List F) : SharedPowers R × Outcome R :=
  match eval p coeffs with
  | .ok s => (s.1, .ok s.2)
  | .error e => (p, .error e)

/-- Evaluations with the same powers, one after the other. -/
def evaluateAll (eval : SharedPowers R -> List F -> Outcome (SharedPowers R × R)) :
    SharedPowers R -> List (List F) -> SharedPowers R × List (Outcome R)
  | p, [] => (p, [])
  | p, coeffs :: rest =>
      let s := evaluate eval p coeffs
      let t := evaluateAll eval s.1 rest
      (t.1, s.2 :: t.2)

/-- The powers stay as they are, and every result is the one with fresh powers. -/
def Reusable (eval : SharedPowers R -> List F -> Outcome (SharedPowers R × R))
    (p : SharedPowers R) (calls : List (List F)) : Prop :=
  evaluateAll eval p calls = (p, calls.map fun coeffs => (evaluate eval p coeffs).2)

theorem reusable_of_keeps {eval : SharedPowers R -> List F -> Outcome (SharedPowers R × R)}
    {p : SharedPowers R} {calls : List (List F)}
    (h : forall coeffs, coeffs ∈ calls -> (evaluate eval p coeffs).1 = p) :
    Reusable eval p calls := by
  induction calls with
  | nil =>
      rfl
  | cons coeffs rest ih =>
      have hfirst := h coeffs List.mem_cons_self
      have hrest := ih fun c hc => h c (List.mem_cons_of_mem _ hc)
      unfold Reusable at hrest
      unfold Reusable evaluateAll
      dsimp only
      rw [hfirst, hrest]
      rfl

theorem evaluate_keeps {eval : SharedPowers R -> List F -> Outcome (SharedPowers R × R)}
    {p : SharedPowers R} {coeffs : List F}
    (h : forall s, eval p coeffs = .ok s -> s.1 = p) : (evaluate eval p coeffs).1 = p := by
  unfold evaluate
  split
  next s hs => exact h s hs
  next => rfl

end Runs

/-! ## Evaluations that write nothing -/

section Keeps

variable {F R : Type} [Field F] [DecidableEq F]

/-- No coefficient between the free and the leading one. -/
def NoMiddleTerm (coeffs : List F) : Prop :=
  forall i, 0 < i -> i < coeffs.length - 1 -> coeffs.getD i 0 = 0

instance (coeffs : List F) : Decidable (NoMiddleTerm coeffs) :=
  decidable_of_iff (forall i, i < coeffs.length - 1 -> 0 < i -> coeffs.getD i 0 = 0)
    ⟨fun h i hi hlt => h i hlt hi, fun h i hlt hi => h i hi hlt⟩

/-- The method of Paterson and Stockmeyer is taken, or there is no product to store. -/
def WritesNothing (coeffs : List F) : Prop :=
  (exists n, degreeOf coeffs = .ok n ∧ 5 <= n) ∨ NoMiddleTerm coeffs

variable [CommRing R] [Algebra F R]

theorem linearTerms_of_noMiddleTerm {coeffs : List F} (h : NoMiddleTerm coeffs)
    (hlen : 0 < coeffs.length) (s : List (Option R) × R) :
    linearTerms coeffs (coeffs.length - 1) s = .ok s := by
  rcases linearTerms_spec (b := fun _ => (0 : R)) (Nat.sub_lt hlen Nat.one_pos) s
    (fun j hj hlt hne => absurd (h j hj hlt) hne) with ⟨powers, hrun, hget⟩
  have hpowers : powers = s.1 := by
    apply List.ext_getElem?
    intro i
    rw [hget i, if_neg]
    rintro ⟨hlt, hne⟩
    exact hne (h (i + 1) (Nat.succ_pos i) (by omega))
  rw [hrun, hpowers]
  simp

/-- An evaluation of low degree keeps the powers when it throws or has no middle term. -/
theorem polyLinear_keeps {powers : List (Option R)} {coeffs : List F}
    (h : NoMiddleTerm coeffs ∨ coeffs.getLast? = some 0) {s : List (Option R) × R}
    (hrun : internalEvalPolyLinearWithPrecomp powers coeffs = .ok s) : s.1 = powers := by
  unfold internalEvalPolyLinearWithPrecomp at hrun
  split at hrun
  · cases hrun
  next hlen =>
      rcases bind_eq_ok hrun with ⟨top, htop, hrun⟩
      split at hrun
      · cases hrun
      next hne =>
          cases h with
          | inl hmiddle =>
              rcases bind_eq_ok hrun with ⟨_, _, hrun⟩
              rcases bind_eq_ok hrun with ⟨p, _, hrun⟩
              rw [linearTerms_of_noMiddleTerm hmiddle (by omega), ok_bind] at hrun
              rcases bind_eq_ok hrun with ⟨c, _, hrun⟩
              cases hrun
              rfl
          | inr hlast =>
              rw [List.getLast?_eq_getElem?] at hlast
              rw [entry_ok hlast] at htop
              cases htop
              exact absurd rfl hne

theorem chebyshevLinear_keeps {T : List (Option R)} {coeffs : List F} (h : NoMiddleTerm coeffs)
    {s : List (Option R) × R}
    (hrun : internalEvalChebyshevSeriesLinearWithPrecomp T coeffs = .ok s) : s.1 = T := by
  unfold internalEvalChebyshevSeriesLinearWithPrecomp at hrun
  rcases bind_eq_ok hrun with ⟨_, _, hrun⟩
  split at hrun
  · cases hrun
  next hlen =>
      rcases bind_eq_ok hrun with ⟨p, _, hrun⟩
      rcases bind_eq_ok hrun with ⟨top, _, hrun⟩
      rw [show coeffs.length - 2 + 1 = coeffs.length - 1 by omega,
        linearTerms_of_noMiddleTerm h (by omega), ok_bind] at hrun
      rcases bind_eq_ok hrun with ⟨c, _, hrun⟩
      cases hrun
      rfl

theorem evalPolyWithPrecomp_keeps (p : SharedPowers R) {coeffs : List F}
    (h : WritesNothing coeffs ∨ coeffs.getLast? = some 0) :
    (evaluate evalPolyWithPrecomp p coeffs).1 = p := by
  apply evaluate_keeps
  intro s hrun
  unfold evalPolyWithPrecomp at hrun
  rcases bind_eq_ok hrun with ⟨n, hn, hrun⟩
  split at hrun
  next hlow =>
      rcases bind_eq_ok hrun with ⟨t, ht, hrun⟩
      cases hrun
      have hmiddle : NoMiddleTerm coeffs ∨ coeffs.getLast? = some 0 := by
        rcases h with (⟨d, hd, hhigh⟩ | hmiddle) | hlast
        · cases hd.symm.trans hn
          omega
        · exact Or.inl hmiddle
        · exact Or.inr hlast
      rw [polyLinear_keeps hmiddle ht]
  next hhigh =>
      rcases bind_eq_ok hrun with ⟨powers, _, hrun⟩
      rcases bind_eq_ok hrun with ⟨result, _, hrun⟩
      cases hrun
      rfl

theorem evalChebyshevSeriesWithPrecomp_keeps (log2ToReal : F -> Nat) (p : SharedPowers R)
    {coeffs : List F} (h : WritesNothing coeffs) :
    (evaluate (evalChebyshevSeriesWithPrecomp log2ToReal) p coeffs).1 = p := by
  apply evaluate_keeps
  intro s hrun
  unfold evalChebyshevSeriesWithPrecomp at hrun
  rcases bind_eq_ok hrun with ⟨n, hn, hrun⟩
  split at hrun
  next hlow =>
      rcases bind_eq_ok hrun with ⟨t, ht, hrun⟩
      cases hrun
      rcases h with ⟨d, hd, hhigh⟩ | hmiddle
      · cases hd.symm.trans hn
        omega
      · rw [chebyshevLinear_keeps hmiddle ht]
  next hhigh =>
      rcases bind_eq_ok hrun with ⟨polys, _, hrun⟩
      rcases bind_eq_ok hrun with ⟨result, _, hrun⟩
      cases hrun
      rfl

/--
Powers stay reusable over every sequence of evaluations that write nothing: those by the method
of Paterson and Stockmeyer, those without a middle term and, of the plain series, those with a
vanishing last coefficient, which throw.
-/
theorem precomputedPowers_reusable (log2ToReal : F -> Nat) (p : SharedPowers R)
    (calls : List (List F)) :
    ((forall coeffs, coeffs ∈ calls -> WritesNothing coeffs ∨ coeffs.getLast? = some 0) ->
      Reusable evalPolyWithPrecomp p calls) ∧
    ((forall coeffs, coeffs ∈ calls -> WritesNothing coeffs) ->
      Reusable (evalChebyshevSeriesWithPrecomp log2ToReal) p calls) := by
  constructor
  · intro h
    exact reusable_of_keeps fun coeffs hc => evalPolyWithPrecomp_keeps p (h coeffs hc)
  · intro h
    exact reusable_of_keeps fun coeffs hc =>
      evalChebyshevSeriesWithPrecomp_keeps log2ToReal p (h coeffs hc)

end Keeps

/-- Two series without a middle term, each evaluated twice. -/
theorem precomputedPowers_reusable_small :
    Reusable evalPolyWithPrecomp (.ofLinear [some 3, some 9] : SharedPowers ℚ)
        ([[1, 0, 2], [1, 0, 2]] : List (List ℚ)) ∧
      Reusable (evalChebyshevSeriesWithPrecomp log2Rat)
        (.ofLinear [some 3, some 17] : SharedPowers ℚ) ([[1, 0, 2], [1, 0, 2]] : List (List ℚ)) := by
  have hwrites : forall coeffs, coeffs ∈ ([[1, 0, 2], [1, 0, 2]] : List (List ℚ)) ->
      WritesNothing coeffs := by
    intro coeffs hc
    rw [List.mem_cons, List.mem_singleton, or_self] at hc
    rw [hc]
    exact Or.inr (by decide +kernel)
  exact ⟨(precomputedPowers_reusable log2Rat _ _).1 fun coeffs hc => Or.inl (hwrites coeffs hc),
    (precomputedPowers_reusable log2Rat _ _).2 hwrites⟩

/-- The second evaluation of `2 * x + x ^ 2` at three reads six for `x`. -/
theorem precomputedPowers_overwritten : exists p q : SharedPowers ℚ,
    evalPowers (3 : ℚ) ([0, 2, 1] : List ℚ) = .ok p ∧
      (evaluateAll evalPolyWithPrecomp p ([[0, 2, 1], [0, 2, 1]] : List (List ℚ))).2 =
        [.ok 15, .ok 21] ∧
      ¬ Reusable evalPolyWithPrecomp p ([[0, 2, 1], [0, 2, 1]] : List (List ℚ)) ∧
    evalChebyPolys (3 : ℚ) ([0, 2, 1] : List ℚ) (-1) 1 = .ok q ∧
      (evaluateAll (evalChebyshevSeriesWithPrecomp log2Rat) q
        ([[0, 2, 1], [0, 2, 1]] : List (List ℚ))).2 = [.ok 23, .ok 29] ∧
      ¬ Reusable (evalChebyshevSeriesWithPrecomp log2Rat) q
        ([[0, 2, 1], [0, 2, 1]] : List (List ℚ)) := by
  refine ⟨.ofLinear [some 3, some 9], .ofLinear [some 3, some 17], ?_, ?_, ?_, ?_, ?_, ?_⟩
  · decide +kernel
  · decide +kernel
  · unfold Reusable
    decide +kernel
  · decide +kernel
  · decide +kernel
  · unfold Reusable
    decide +kernel

end Ckksrns
end Scheme
end OpenFHE
