import OpenFHE.Foundation.Outcome
import OpenFHE.Core.NativeInteger.ModularArithmetic
import OpenFHE.Scheme.Ckksrns.EvalPoly
import OpenFHE.Scheme.Ckksrns.EvalChebyshevSeries
import OpenFHE.Scheme.Ckksrns.LongDivisionRuns

/-!
# Evaluation of polynomials of low degree

`EvalPolyLinear` computes the powers for the nonzero coefficients and those that they are
products of; the other entries of the vector of powers stay null.  The vector reaches up to the
last coefficient, whatever its value.
-/

namespace OpenFHE
namespace Scheme
namespace Ckksrns

open Core Foundation
open NativeInteger (getMSB)
open Polynomial

attribute [local instance] two_atLeastTwo

section Definitions

variable {F R : Type} [Field F] [DecidableEq F] [CommRing R] [Algebra F R]

/-- `rem &= (uint64_t(1) << (GetMSB(rem) - 1)) - 1`. -/
def dropTopBit (rem : Nat) : Nat :=
  rem &&& (1 <<< (getMSB rem - 1) - 1)

/-- The indices of the powers that `x^i` is a product of. -/
def markChain (indices : List Bool) (i : Nat) : Outcome (List Bool) := do
  let s <- whileLoop (fun s : Nat × List Bool => decide (s.1 &&& (s.1 - 1) ≠ 0))
    (fun s => do
      let indices <- store s.2 (s.1 - 1) true
      return (dropTopBit s.1, indices)) (i + 1) (i, indices)
  return s.2

def markIndex (coefficients : List F) (indices : List Bool) (i : Nat) : Outcome (List Bool) :=
  if i &&& (i - 1) = 0 then store indices (i - 1) true
  else do
    let c <- entry coefficients i
    if c ≠ 0 then markChain indices i else return indices

/-- The power `x^i`, where it is needed. -/
def powersLinearStep (indices : List Bool) (powers : List (Option R)) (i : Nat) :
    Outcome (List (Option R)) :=
  if i &&& (i - 1) = 0 then do
    let p <- load powers (i / 2 - 1)
    store powers (i - 1) (some (p * p))
  else do
    let needed <- entry indices (i - 1)
    if needed then do
      let high <- load powers (1 <<< (getMSB i - 1) - 1)
      let low <- load powers (dropTopBit i - 1)
      store powers (i - 1) (some (high * low))
    else return powers

/-- The levels of two powers are read; levels are no part of the values. -/
def alignLevel (indices : List Bool) (powers : List (Option R)) (k i : Nat) : Outcome Unit := do
  let needed <- entry indices (i - 1)
  if needed then do
    let _ <- load powers (k - 1)
    let _ <- load powers (i - 1)
    return ()
  else return ()

def internalEvalPowersLinear (x : R) (coefficients : List F) : Outcome (List (Option R)) := do
  let k := coefficients.length - 1
  let indices <- (List.range k).foldlM (fun indices t => markIndex coefficients indices (k - t))
    (List.replicate k false)
  let powers <- store (List.replicate k none) 0 (some x)
  let powers <- (List.range' 2 (k - 1)).foldlM (powersLinearStep indices) powers
  (List.range' 1 (k - 1)).foldlM (fun _ i => alignLevel indices powers k i) ()
  return powers

/-- The terms below the leading one.  Each product overwrites the power that it is made of. -/
def linearTerms (coefficients : List F) (k : Nat) (s : List (Option R) × R) :
    Outcome (List (Option R) × R) :=
  (List.range' 1 (k - 1)).foldlM (fun s i => do
    let c <- entry coefficients i
    if c ≠ 0 then
      let p <- load s.1 (i - 1)
      let powers <- store s.1 (i - 1) (some (c • p))
      return (powers, s.2 + c • p)
    else return s) s

/-- The result, and the powers as the evaluation leaves them. -/
def internalEvalPolyLinearWithPrecomp (powers : List (Option R)) (coefficients : List F) :
    Outcome (List (Option R) × R) := do
  if coefficients.length < 2 then
    throw (RuntimeFault.thrown "The coefficients vector should contain at least 2 elements")
  else
    let k := coefficients.length - 1
    let top <- entry coefficients k
    if top = 0 then
      throw (RuntimeFault.thrown "The highest-order coefficient cannot be set to 0")
    else
      let _ <- load powers 0
      let p <- load powers (k - 1)
      let s <- linearTerms coefficients k (powers, top • p)
      let c <- entry coefficients 0
      return (s.1, s.2 + algebraMap F R c)

def evalPolyLinear (x : R) (coeffs : List F) : Outcome R := do
  let powers <- internalEvalPowersLinear x coeffs
  let s <- internalEvalPolyLinearWithPrecomp powers coeffs
  return s.2

/-- `EvalPoly`, with the evaluation of a polynomial of degree 5 or more. -/
def evalPoly (evalPolyPS : R -> List F -> Outcome R) (x : R) (coeffs : List F) : Outcome R := do
  let n <- degreeOf coeffs
  if n < 5 then evalPolyLinear x coeffs else evalPolyPS x coeffs

def internalEvalChebyPolysLinear (x : R) (coefficients : List F) (a b : F) :
    Outcome (List (Option R)) := do
  let k := coefficients.length - 1
  let _ <- store (List.replicate k (none : Option R)) 0 (some (linearTransform x a b))
  let T <- orUndefined
    ((List.range' 2 (k - 1)).foldlM (chebyPolysStep F) [linearTransform x a b])
  return T.map some

/-- A vector of fewer than two coefficients has no last but one. -/
def internalEvalChebyshevSeriesLinearWithPrecomp (T : List (Option R)) (coefficients : List F) :
    Outcome (List (Option R) × R) := do
  let _ <- load T 0
  if coefficients.length < 2 then .error .undefined
  else
    let k := coefficients.length - 2
    let p <- load T k
    let top <- entry coefficients (k + 1)
    let s <- linearTerms coefficients (k + 1) (T, top • p)
    let c <- entry coefficients 0
    return (s.1, s.2 + algebraMap F R (c / 2))

def evalChebyshevSeriesLinear (x : R) (coeffs : List F) (a b : F) : Outcome R := do
  let T <- internalEvalChebyPolysLinear x coeffs a b
  let s <- internalEvalChebyshevSeriesLinearWithPrecomp T coeffs
  return s.2

def evalChebyshevSeries (evalChebyshevSeriesPS : R -> List F -> F -> F -> Outcome R) (x : R)
    (coeffs : List F) (a b : F) : Outcome R := do
  let n <- degreeOf coeffs
  if n < 5 then evalChebyshevSeriesLinear x coeffs a b else evalChebyshevSeriesPS x coeffs a b

end Definitions

/-!
## The top bit
-/

theorem dropTopBit_eq (i : Nat) : dropTopBit i = i % 2 ^ (getMSB i - 1) := by
  rw [dropTopBit, Nat.one_shiftLeft, Nat.and_two_pow_sub_one_eq_mod]

theorem isPowerOfTwo_iff {i : Nat} (hi : 0 < i) : i &&& (i - 1) = 0 <-> exists e, i = 2 ^ e :=
  Nat.and_sub_one_eq_zero_iff_isPowerOfTwo hi.ne'

theorem dropTopBit_bounds {i : Nat} (hi : 0 < i) (hpow : i &&& (i - 1) ≠ 0) :
    0 < dropTopBit i ∧ dropTopBit i < 2 ^ (getMSB i - 1) ∧
      2 ^ (getMSB i - 1) + dropTopBit i = i := by
  rcases NativeInteger.getMSB_bounds hi with ⟨hlow, hhigh⟩
  have hmsb : getMSB i - 1 + 1 = getMSB i := by
    rw [getMSB, if_neg hi.ne']
    omega
  have hsplit : 2 ^ getMSB i = 2 ^ (getMSB i - 1) * 2 := by
    rw [<- pow_succ, hmsb]
  have hdiv : i / 2 ^ (getMSB i - 1) = 1 := by
    apply Nat.div_eq_of_lt_le
    · rwa [one_mul]
    · rw [Nat.mul_comm]
      exact hsplit ▸ hhigh
  have hsum := Nat.div_add_mod i (2 ^ (getMSB i - 1))
  rw [hdiv, mul_one] at hsum
  rw [dropTopBit_eq]
  refine ⟨?_, Nat.mod_lt _ (by positivity), hsum⟩
  by_contra hzero
  apply hpow
  rw [isPowerOfTwo_iff hi]
  exact ⟨getMSB i - 1, by omega⟩

theorem dropTopBit_lt {i : Nat} (hi : 0 < i) (hpow : i &&& (i - 1) ≠ 0) : dropTopBit i < i := by
  rcases dropTopBit_bounds hi hpow with ⟨-, -, hsum⟩
  have hpos : 0 < 2 ^ (getMSB i - 1) := by positivity
  omega

/-!
## The indices of the powers
-/

def IsMarked (indices : List Bool) (j : Nat) : Prop :=
  indices[j - 1]? = some true

theorem isMarked_set {indices : List Bool} {i j : Nat} (hi : 0 < i) (hj : 0 < j)
    (hlt : i - 1 < indices.length) :
    IsMarked (indices.set (i - 1) true) j <-> j = i ∨ IsMarked indices j := by
  unfold IsMarked
  by_cases heq : j = i
  · rw [heq, List.getElem?_set_self hlt]
    exact iff_of_true rfl (Or.inl rfl)
  · rw [List.getElem?_set_ne (by omega)]
    exact ⟨Or.inr, fun h => h.resolve_left heq⟩

/-- What is needed for `x^j`: nothing for a power of two, else the lower part. -/
def Supported (indices : List Bool) (j : Nat) : Prop :=
  j &&& (j - 1) = 0 ∨ dropTopBit j &&& (dropTopBit j - 1) = 0 ∨ IsMarked indices (dropTopBit j)

/-- The indices after those from `i + 1` up to `k` have been looked at. -/
structure MarksFrom {F : Type} [Zero F] (coefficients : List F) (k i : Nat)
    (indices : List Bool) : Prop where
  length : indices.length = k
  supported : forall j, 0 < j -> IsMarked indices j -> Supported indices j
  complete : forall j, i < j -> j <= k ->
    (j &&& (j - 1) = 0 ∨ coefficients.getD j 0 ≠ 0) -> IsMarked indices j
  top : 0 < k -> IsMarked indices k -> k &&& (k - 1) = 0 ∨ coefficients.getD k 0 ≠ 0

theorem MarksFrom.init {F : Type} [Zero F] (coefficients : List F) (k : Nat) :
    MarksFrom coefficients k k (List.replicate k false) := by
  have hfalse : forall j, ¬ IsMarked (List.replicate k false) j := by
    intro j hj
    unfold IsMarked at hj
    rw [List.getElem?_replicate] at hj
    split at hj <;> cases hj
  constructor
  · exact List.length_replicate
  · intro j _ hj
    exact absurd hj (hfalse j)
  · intro j hlt hle
    omega
  · intro _ hk
    exact absurd hk (hfalse k)

theorem markChain_spec {indices : List Bool} {i : Nat} (hi : 0 < i) (hlen : i <= indices.length)
    (hpow : i &&& (i - 1) ≠ 0)
    (hsupported : forall j, 0 < j -> IsMarked indices j -> Supported indices j) :
    exists indices', markChain indices i = .ok indices' ∧ indices'.length = indices.length ∧
      (forall j, 0 < j -> IsMarked indices' j -> Supported indices' j) ∧
      (forall j, 0 < j -> IsMarked indices j -> IsMarked indices' j) ∧
      IsMarked indices' i ∧ forall j, i < j -> IsMarked indices' j -> IsMarked indices j := by
  rcases whileLoop_spec (c := fun s : Nat × List Bool => decide (s.1 &&& (s.1 - 1) ≠ 0))
    (f := fun s => do
      let indices <- store s.2 (s.1 - 1) true
      return (dropTopBit s.1, indices))
    (fun s => 0 < s.1 ∧ s.1 <= i ∧ s.2.length = indices.length ∧
      (forall j, 0 < j -> IsMarked s.2 j -> Supported s.2 j ∨ dropTopBit j = s.1) ∧
      (forall j, 0 < j -> IsMarked indices j -> IsMarked s.2 j) ∧
      (s.1 = i ∨ IsMarked s.2 i) ∧ forall j, i < j -> IsMarked s.2 j -> IsMarked indices j)
    (fun s => s.1)
    (by
      rintro ⟨rem, ind⟩ ⟨hfirst, hbelow, hkept, hsup, hkeep, hstart, habove⟩ hcond
      have hpos : 0 < rem := hfirst
      have hle : rem <= i := hbelow
      have hind : ind.length = indices.length := hkept
      have hrem : rem &&& (rem - 1) ≠ 0 := of_decide_eq_true hcond
      have hdrop := (dropTopBit_bounds hpos hrem).1
      have hlt := dropTopBit_lt hpos hrem
      have hindex : rem - 1 < ind.length := by omega
      have hset : forall j, 0 < j -> (IsMarked (ind.set (rem - 1) true) j <->
          j = rem ∨ IsMarked ind j) := fun j hj => isMarked_set hpos hj hindex
      have hgrow : forall j, 0 < j -> Supported ind j ->
          Supported (ind.set (rem - 1) true) j := by
        intro j hj h
        by_cases hjpow : j &&& (j - 1) = 0
        · exact Or.inl hjpow
        · have hjdrop := (dropTopBit_bounds hj hjpow).1
          rcases h with h | h | h
          · exact Or.inl h
          · exact Or.inr (Or.inl h)
          · exact Or.inr (Or.inr ((hset _ hjdrop).mpr (Or.inr h)))
      refine ⟨(dropTopBit rem, ind.set (rem - 1) true), ?_, ⟨hdrop, ?_, ?_, ?_, ?_, ?_, ?_⟩, ?_⟩
      · simp only [store_ok true hindex, ok_bind]
        rfl
      · exact hlt.le.trans hle
      · exact List.length_set.trans hind
      · intro j hj hmark
        rcases (hset j hj).mp hmark with heq | hold
        · exact Or.inr (congrArg dropTopBit heq)
        · rcases hsup j hj hold with hdone | hnext
          · exact Or.inl (hgrow j hj hdone)
          · exact Or.inl (Or.inr (Or.inr (hnext ▸ (hset rem hpos).mpr (Or.inl rfl))))
      · intro j hj hmark
        exact (hset j hj).mpr (Or.inr (hkeep j hj hmark))
      · right
        apply (hset i hi).mpr
        cases hstart with
        | inl heq => exact Or.inl heq.symm
        | inr hmark => exact Or.inr hmark
      · intro j hj hmark
        rcases (hset j (by omega)).mp hmark with heq | hold
        · omega
        · exact habove j hj hold
      · exact hlt)
    (i + 1) (i, indices)
    ⟨hi, le_rfl, rfl, fun j hj hmark => Or.inl (hsupported j hj hmark),
      fun _ _ hmark => hmark, Or.inl rfl, fun _ _ hmark => hmark⟩
    (Nat.lt_succ_self i) with ⟨⟨rem, ind⟩, hrun, ⟨-, -, hind, hsup, hkeep, hstart, habove⟩, hstop⟩
  have hrem : rem &&& (rem - 1) = 0 := not_not.mp (of_decide_eq_false hstop)
  refine ⟨ind, ?_, hind, ?_, hkeep, ?_, habove⟩
  · unfold markChain
    rw [hrun]
    rfl
  · intro j hj hmark
    cases hsup j hj hmark with
    | inl hdone => exact hdone
    | inr hnext => exact Or.inr (Or.inl (hnext.symm ▸ hrem))
  · cases hstart with
    | inl heq =>
        have heq' : rem = i := heq
        exact absurd (heq' ▸ hrem) hpow
    | inr hmark => exact hmark

theorem markIndex_spec {F : Type} [Field F] [DecidableEq F] {coefficients : List F}
    {k i : Nat} {indices : List Bool} (hk : coefficients.length = k + 1) (hi : 0 < i)
    (hle : i <= k) (h : MarksFrom coefficients k i indices) :
    exists indices', markIndex coefficients indices i = .ok indices' ∧
      MarksFrom coefficients k (i - 1) indices' := by
  have hindex : i - 1 < indices.length := by
    rw [h.length]
    omega
  unfold markIndex
  by_cases hpow : i &&& (i - 1) = 0
  · rw [if_pos hpow, store_ok true hindex]
    have hset : forall j, 0 < j -> (IsMarked (indices.set (i - 1) true) j <->
        j = i ∨ IsMarked indices j) := fun j hj => isMarked_set hi hj hindex
    refine ⟨_, rfl, ?_⟩
    constructor
    · exact List.length_set.trans h.length
    · intro j hj hmark
      rcases (hset j hj).mp hmark with heq | hold
      · exact Or.inl (heq ▸ hpow)
      · by_cases hjpow : j &&& (j - 1) = 0
        · exact Or.inl hjpow
        · have hjdrop := (dropTopBit_bounds hj hjpow).1
          rcases h.supported j hj hold with hsup | hsup | hsup
          · exact Or.inl hsup
          · exact Or.inr (Or.inl hsup)
          · exact Or.inr (Or.inr ((hset _ hjdrop).mpr (Or.inr hsup)))
    · intro j hlt hjk hneeded
      rw [hset j (by omega)]
      by_cases heq : j = i
      · exact Or.inl heq
      · exact Or.inr (h.complete j (by omega) hjk hneeded)
    · intro hpos hmark
      rcases (hset k hpos).mp hmark with heq | hold
      · exact Or.inl (heq ▸ hpow)
      · exact h.top hpos hold
  · rw [if_neg hpow, entry_ok (getElem?_eq_getD (show i < coefficients.length by omega)), ok_bind]
    by_cases hzero : coefficients.getD i 0 = 0
    · rw [if_neg (not_not.mpr hzero)]
      refine ⟨indices, rfl, h.length, h.supported, ?_, h.top⟩
      intro j hlt hjk hneeded
      by_cases heq : j = i
      · rw [heq] at hneeded
        exact absurd hneeded (not_or.mpr ⟨hpow, not_not.mpr hzero⟩)
      · exact h.complete j (by omega) hjk hneeded
    · rw [if_pos hzero]
      rcases markChain_spec hi (by rw [h.length]; exact hle) hpow h.supported with
        ⟨indices', hrun, hlength, hsupported, hkeep, hmark, habove⟩
      refine ⟨indices', hrun, hlength.trans h.length, hsupported, ?_, ?_⟩
      · intro j hlt hjk hneeded
        by_cases heq : j = i
        · exact heq ▸ hmark
        · exact hkeep j (by omega) (h.complete j (by omega) hjk hneeded)
      · intro hpos htop
        rcases Nat.lt_or_eq_of_le hle with hlt | heq
        · exact h.top hpos (habove k hlt htop)
        · exact Or.inr (heq ▸ hzero)

theorem marks_spec {F : Type} [Field F] [DecidableEq F] {coefficients : List F} {k : Nat}
    (hk : coefficients.length = k + 1) :
    exists indices, (List.range k).foldlM
        (fun indices t => markIndex coefficients indices (k - t)) (List.replicate k false) =
          .ok indices ∧ MarksFrom coefficients k 0 indices := by
  rcases foldlM_range_ok (n := k) (fun t indices => MarksFrom coefficients k (k - t) indices)
    (MarksFrom.init coefficients k)
    (by
      intro t ht indices hindices
      have h := markIndex_spec hk (show 0 < k - t by omega) (Nat.sub_le k t) hindices
      rwa [Nat.sub_sub] at h) with ⟨indices, hrun, hindices⟩
  rw [Nat.sub_self] at hindices
  exact ⟨indices, hrun, hindices⟩

theorem MarksFrom.top_iff {F : Type} [Zero F] {coefficients : List F} {k : Nat}
    {indices : List Bool} (h : MarksFrom coefficients k 0 indices) (hk : 0 < k) :
    IsMarked indices k <-> k &&& (k - 1) = 0 ∨ coefficients.getD k 0 ≠ 0 :=
  ⟨h.top hk, h.complete k hk le_rfl⟩

theorem MarksFrom.entry_eq {F : Type} [Zero F] {coefficients : List F} {k i j : Nat}
    {indices : List Bool} (h : MarksFrom coefficients k i indices) (hj : 0 < j) (hle : j <= k) :
    exists b, entry indices (j - 1) = .ok b ∧ (b = true <-> IsMarked indices j) := by
  have hlt : j - 1 < indices.length := by
    rw [h.length]
    omega
  have hget := List.getElem?_eq_getElem hlt
  refine ⟨_, entry_ok hget, ?_⟩
  rw [IsMarked, hget]
  exact (Option.some_inj).symm

/-!
## Powers
-/

section Powers

variable {F R : Type} [Field F] [CommRing R]

/-- The first `n` powers are there where they are marked, and no others. -/
structure PowersWhere (x : R) (indices : List Bool) (k n : Nat) (powers : List (Option R)) :
    Prop where
  length : powers.length = k
  value : forall j, 0 < j -> j <= n -> IsMarked indices j ->
    powers[j - 1]? = some (some (x ^ j))
  null : forall j, 0 < j -> j <= k -> n < j ∨ ¬ IsMarked indices j ->
    powers[j - 1]? = some none

theorem PowersWhere.init {coefficients : List F} {k : Nat} {indices : List Bool} (x : R)
    (hk : 0 < k) (h : MarksFrom coefficients k 0 indices) :
    exists powers, store (List.replicate k none) 0 (some x) = .ok powers ∧
      PowersWhere x indices k 1 powers := by
  have hlen : (List.replicate k (none : Option R)).length = k := List.length_replicate
  refine ⟨_, store_ok _ (by rwa [hlen]), ?_⟩
  constructor
  · exact List.length_set.trans hlen
  · intro j hj hle _
    have hone : j = 1 := by omega
    rw [hone, Nat.sub_self, List.getElem?_set_self (by rwa [hlen]), pow_one]
  · intro j hj hle hnull
    have hne : j ≠ 1 := by
      rintro rfl
      cases hnull with
      | inl hlt => exact absurd hlt (lt_irrefl 1)
      | inr hmark => exact hmark (h.complete 1 Nat.one_pos hle (Or.inl rfl))
    rw [List.getElem?_set_ne (by omega), List.getElem?_replicate, if_pos (by omega)]

theorem PowersWhere.set {x y : R} {indices : List Bool} {k n : Nat} {powers : List (Option R)}
    (h : PowersWhere x indices k n powers) (hn : n < k) (hmark : IsMarked indices (n + 1))
    (hy : y = x ^ (n + 1)) : PowersWhere x indices k (n + 1) (powers.set n (some y)) := by
  have hindex : n < powers.length := by rwa [h.length]
  constructor
  · exact List.length_set.trans h.length
  · intro j hj hle hj'
    by_cases heq : j = n + 1
    · rw [heq, Nat.add_sub_cancel, List.getElem?_set_self hindex, hy]
    · rw [List.getElem?_set_ne (by omega)]
      exact h.value j hj (by omega) hj'
  · intro j hj hle hnull
    have hne : j ≠ n + 1 := by
      rintro rfl
      cases hnull with
      | inl hlt => exact absurd hlt (lt_irrefl _)
      | inr hnot => exact hnot hmark
    rw [List.getElem?_set_ne (by omega)]
    apply h.null j hj hle
    cases hnull with
    | inl hlt => exact Or.inl (by omega)
    | inr hnot => exact Or.inr hnot

theorem powersLinearStep_spec {coefficients : List F} {x : R} {k n : Nat} {indices : List Bool}
    {powers : List (Option R)} (hmarks : MarksFrom coefficients k 0 indices) (hn : 0 < n)
    (hlt : n < k) (h : PowersWhere x indices k n powers) :
    exists powers', powersLinearStep indices powers (n + 1) = .ok powers' ∧
      PowersWhere x indices k (n + 1) powers' := by
  have hindex : n < powers.length := by rwa [h.length]
  have hnext : 0 < n + 1 := n.succ_pos
  have hpower : forall j, 0 < j -> j <= n -> j &&& (j - 1) = 0 ->
      powers[j - 1]? = some (some (x ^ j)) := fun j hj hle hpow =>
    h.value j hj hle (hmarks.complete j hj (by omega) (Or.inl hpow))
  unfold powersLinearStep
  by_cases hpow : (n + 1) &&& (n + 1 - 1) = 0
  · rcases (isPowerOfTwo_iff hnext).mp hpow with ⟨e, he⟩
    cases e with
    | zero =>
        rw [pow_zero] at he
        omega
    | succ e =>
        have hhalf : (n + 1) / 2 = 2 ^ e := by
          rw [he, pow_succ, Nat.mul_div_cancel _ Nat.two_pos]
        have hdouble : n + 1 = 2 ^ e + 2 ^ e := by
          rw [he, pow_succ, mul_two]
        have hpos : 0 < 2 ^ e := by positivity
        rw [if_pos hpow, hhalf, load_ok (hpower (2 ^ e) hpos (by omega)
          ((isPowerOfTwo_iff hpos).mpr ⟨e, rfl⟩)), ok_bind, Nat.add_sub_cancel,
          store_ok _ hindex]
        refine ⟨_, rfl, h.set hlt (hmarks.complete _ hnext hlt (Or.inl hpow)) ?_⟩
        rw [<- pow_add, <- hdouble]
  · rw [if_neg hpow]
    rcases hmarks.entry_eq hnext hlt with ⟨b, hb, hmark⟩
    rw [hb, ok_bind]
    cases b with
    | false =>
        have hnot : ¬ IsMarked indices (n + 1) := fun hm => Bool.noConfusion (hmark.mpr hm)
        refine ⟨powers, rfl, h.length, ?_, ?_⟩
        · intro j hj hle hj'
          have hne : j ≠ n + 1 := by
            rintro rfl
            exact hnot hj'
          exact h.value j hj (by omega) hj'
        · intro j hj hle hnull
          apply h.null j hj hle
          cases hnull with
          | inl hbelow => exact Or.inl (by omega)
          | inr hj' => exact Or.inr hj'
    | true =>
        have hm := hmark.mp rfl
        rcases dropTopBit_bounds hnext hpow with ⟨hdrop, hbelow, hsum⟩
        have hhigh : (1 <<< (getMSB (n + 1) - 1)) = 2 ^ (getMSB (n + 1) - 1) :=
          Nat.one_shiftLeft _
        have hpos : 0 < 2 ^ (getMSB (n + 1) - 1) := by positivity
        have hlow : powers[dropTopBit (n + 1) - 1]? = some (some (x ^ dropTopBit (n + 1))) := by
          rcases hmarks.supported _ hnext hm with hsup | hsup | hsup
          · exact absurd hsup hpow
          · exact hpower _ hdrop (by omega) hsup
          · exact h.value _ hdrop (by omega) hsup
        rw [if_pos rfl, hhigh, load_ok (hpower _ hpos (by omega)
          ((isPowerOfTwo_iff hpos).mpr ⟨_, rfl⟩)), ok_bind, load_ok hlow, ok_bind,
          Nat.add_sub_cancel, store_ok _ hindex]
        refine ⟨_, rfl, h.set hlt hm ?_⟩
        rw [<- pow_add, hsum]

theorem alignLevels_ok {coefficients : List F} {x : R} {k : Nat} {indices : List Bool}
    {powers : List (Option R)} (hmarks : MarksFrom coefficients k 0 indices)
    (h : PowersWhere x indices k k powers) (htop : IsMarked indices k) :
    (List.range' 1 (k - 1)).foldlM (fun (_ : Unit) i => alignLevel indices powers k i) () =
      .ok () := by
  rw [List.range'_eq_map_range, List.foldlM_map]
  rcases foldlM_range_ok (n := k - 1) (s := ())
    (f := fun (_ : Unit) t => alignLevel indices powers k (1 + t)) (fun _ _ => True) trivial
    (by
      intro t ht s _
      have hj : 0 < 1 + t := by omega
      rcases hmarks.entry_eq hj (by omega) with ⟨b, hb, hmark⟩
      refine ⟨(), ?_, trivial⟩
      unfold alignLevel
      rw [hb, ok_bind]
      cases b with
      | false => rfl
      | true =>
          rw [if_pos rfl, load_ok (h.value k (by omega) le_rfl htop), ok_bind,
            load_ok (h.value _ hj (by omega) (hmark.mp rfl))]
          rfl) with ⟨_, hrun, -⟩
  exact hrun

theorem alignLevels_undefined {coefficients : List F} {x : R} {k : Nat} {indices : List Bool}
    {powers : List (Option R)} (hmarks : MarksFrom coefficients k 0 indices)
    (h : PowersWhere x indices k k powers) (hk : 0 < k) (htop : ¬ IsMarked indices k) :
    (List.range' 1 (k - 1)).foldlM (fun (_ : Unit) i => alignLevel indices powers k i) () =
      .error .undefined := by
  have hone : k ≠ 1 := by
    rintro rfl
    exact htop (hmarks.complete 1 Nat.one_pos le_rfl (Or.inl rfl))
  rcases hmarks.entry_eq Nat.one_pos (show 1 <= k by omega) with ⟨b, hb, hmark⟩
  have hfirst : alignLevel indices powers k 1 = .error .undefined := by
    unfold alignLevel
    rw [hb, ok_bind, if_pos (hmark.mpr (hmarks.complete 1 Nat.one_pos (by omega) (Or.inl rfl))),
      load_null (h.null k hk le_rfl (Or.inr htop))]
    rfl
  rw [show k - 1 = (k - 2) + 1 by omega, List.range'_succ, List.foldlM_cons, hfirst]
  rfl

theorem internalEvalPowersLinear_spec [DecidableEq F] (x : R) {coefficients : List F} {k : Nat} (hk : 0 < k)
    (hlen : coefficients.length = k + 1) :
    if k &&& (k - 1) = 0 ∨ coefficients.getD k 0 ≠ 0 then
      exists powers, internalEvalPowersLinear x coefficients = .ok powers ∧
        powers[0]? = some (some x) ∧
        forall j, 0 < j -> j <= k -> j = k ∨ coefficients.getD j 0 ≠ 0 ->
          powers[j - 1]? = some (some (x ^ j))
    else internalEvalPowersLinear x coefficients = .error .undefined := by
  rcases marks_spec hlen with ⟨indices, hindices, hmarks⟩
  rcases PowersWhere.init x hk hmarks with ⟨powers₀, hpowers₀, hinit⟩
  rcases foldlM_range_ok (n := k - 1) (s := powers₀)
    (f := fun powers t => powersLinearStep indices powers (2 + t))
    (fun t powers => PowersWhere x indices k (t + 1) powers) hinit
    (by
      intro t ht powers hpowers
      rw [Nat.add_comm 2 t]
      exact powersLinearStep_spec hmarks t.succ_pos (by omega) hpowers) with
    ⟨powers, hrun, hpowers⟩
  rw [Nat.sub_add_cancel hk] at hpowers
  have hloop : (List.range' 2 (k - 1)).foldlM (powersLinearStep indices) powers₀ =
      .ok powers := by
    rw [List.range'_eq_map_range, List.foldlM_map]
    exact hrun
  have hstart : internalEvalPowersLinear x coefficients =
      ((List.range' 1 (k - 1)).foldlM (fun (_ : Unit) i => alignLevel indices powers k i) () >>=
        fun _ => .ok powers) := by
    unfold internalEvalPowersLinear
    simp only [hlen, Nat.add_sub_cancel, hindices, hpowers₀, hloop, ok_bind]
    rfl
  rw [hstart]
  split
  · next hneeded =>
      have htop := (hmarks.top_iff hk).mpr hneeded
      refine ⟨powers, ?_, ?_, ?_⟩
      · rw [alignLevels_ok hmarks hpowers htop]
        rfl
      · rw [hpowers.value 1 Nat.one_pos hk (hmarks.complete 1 Nat.one_pos hk (Or.inl rfl)),
          pow_one]
      · intro j hj hle hneed
        apply hpowers.value j hj hle
        cases hneed with
        | inl heq => exact heq ▸ htop
        | inr hne => exact hmarks.complete j hj hle (Or.inr hne)
  · next hneeded =>
      have htop : ¬ IsMarked indices k := fun h => hneeded ((hmarks.top_iff hk).mp h)
      rw [alignLevels_undefined hmarks hpowers hk htop]
      rfl

end Powers

/-!
## Terms
-/

section Terms

variable {F R : Type} [Field F] [DecidableEq F] [CommRing R] [Algebra F R]

theorem linearTerms_spec {coefficients : List F} {k : Nat} {b : Nat -> R}
    (hlen : k < coefficients.length) (s : List (Option R) × R)
    (h : forall j, 0 < j -> j < k -> coefficients.getD j 0 ≠ 0 ->
      s.1[j - 1]? = some (some (b j))) :
    exists powers, linearTerms coefficients k s = .ok (powers,
        s.2 + ∑ t ∈ Finset.range (k - 1), coefficients.getD (t + 1) 0 • b (t + 1)) ∧
      forall i : Nat, powers[i]? =
        if i < k - 1 ∧ coefficients.getD (i + 1) 0 ≠ 0 then
          some (some (coefficients.getD (i + 1) 0 • b (i + 1)))
        else s.1[i]? := by
  rcases foldlM_range_ok (n := k - 1) (s := s)
    (f := fun s t => do
      let c <- entry coefficients (1 + t)
      if c ≠ 0 then
        let p <- load s.1 (1 + t - 1)
        let powers <- store s.1 (1 + t - 1) (some (c • p))
        return (powers, s.2 + c • p)
      else return s)
    (fun t s' =>
      s'.2 = s.2 + ∑ t ∈ Finset.range t, coefficients.getD (t + 1) 0 • b (t + 1) ∧
      forall i : Nat, s'.1[i]? = if i < t ∧ coefficients.getD (i + 1) 0 ≠ 0 then
          some (some (coefficients.getD (i + 1) 0 • b (i + 1)))
        else s.1[i]?)
    (by
      constructor
      · rw [Finset.sum_range_zero, add_zero]
      · intro i
        rw [if_neg (fun h => absurd h.1 (Nat.not_lt_zero i))])
    (by
      rintro t ht s' ⟨hsum, htable⟩
      rw [Nat.add_comm 1 t, Nat.add_sub_cancel,
        entry_ok (getElem?_eq_getD (show t + 1 < coefficients.length by omega)), ok_bind]
      by_cases hzero : coefficients.getD (t + 1) 0 = 0
      · rw [if_neg (not_not.mpr hzero)]
        refine ⟨s', rfl, ?_, ?_⟩
        · rw [hsum, Finset.sum_range_succ, hzero, zero_smul, add_zero]
        · intro i
          have hiff : (i < t + 1 ∧ coefficients.getD (i + 1) 0 ≠ 0) <->
              (i < t ∧ coefficients.getD (i + 1) 0 ≠ 0) := by
            constructor
            · rintro ⟨hlt, hne⟩
              rcases Nat.lt_succ_iff_lt_or_eq.mp hlt with hbelow | heq
              · exact ⟨hbelow, hne⟩
              · exact absurd (heq ▸ hzero) hne
            · rintro ⟨hlt, hne⟩
              exact ⟨Nat.lt_succ_of_lt hlt, hne⟩
          rw [htable i]
          simp only [hiff]
      · rw [if_pos hzero]
        have hread : s'.1[t]? = some (some (b (t + 1))) := by
          rw [htable t, if_neg (fun h => absurd h.1 (lt_irrefl t))]
          exact h (t + 1) t.succ_pos (by omega) hzero
        have hindex : t < s'.1.length := (List.getElem?_eq_some_iff.mp hread).1
        rw [load_ok hread, ok_bind, store_ok _ hindex, ok_bind]
        refine ⟨_, rfl, ?_, ?_⟩
        · rw [hsum, Finset.sum_range_succ, add_assoc]
        · intro i
          rcases Nat.lt_trichotomy i t with hlt | heq | hgt
          · rw [List.getElem?_set_ne (by omega), htable i]
            simp only [hlt, Nat.lt_succ_of_lt hlt]
          · rw [heq, List.getElem?_set_self hindex, if_pos ⟨Nat.lt_succ_self t, hzero⟩]
          · rw [List.getElem?_set_ne (by omega), htable i, if_neg (fun h => by omega),
              if_neg (fun h => by omega)]) with ⟨s', hrun, hsum, htable⟩
  refine ⟨s'.1, ?_, htable⟩
  unfold linearTerms
  rw [List.range'_eq_map_range, List.foldlM_map, <- hsum]
  exact hrun

theorem internalEvalPolyLinearWithPrecomp_spec {coefficients : List F} {k : Nat} {x : R}
    {powers : List (Option R)} (hk : 0 < k) (hlen : coefficients.length = k + 1)
    (hfirst : powers[0]? = some (some x))
    (h : forall j, 0 < j -> j <= k -> j = k ∨ coefficients.getD j 0 ≠ 0 ->
      powers[j - 1]? = some (some (x ^ j))) :
    if coefficients.getD k 0 = 0 then
      internalEvalPolyLinearWithPrecomp powers coefficients =
        .error (.thrown "The highest-order coefficient cannot be set to 0")
    else exists powers', internalEvalPolyLinearWithPrecomp powers coefficients =
        .ok (powers', ∑ i ∈ Finset.range (k + 1), coefficients.getD i 0 • x ^ i) ∧
      forall i : Nat, powers'[i]? =
        if i < k - 1 ∧ coefficients.getD (i + 1) 0 ≠ 0 then
          some (some (coefficients.getD (i + 1) 0 • x ^ (i + 1)))
        else powers[i]? := by
  have hstart : internalEvalPolyLinearWithPrecomp powers coefficients =
      if coefficients.getD k 0 = 0 then
        throw (RuntimeFault.thrown "The highest-order coefficient cannot be set to 0")
      else do
        let _ <- load powers 0
        let p <- load powers (k - 1)
        let s <- linearTerms coefficients k (powers, coefficients.getD k 0 • p)
        let c <- entry coefficients 0
        return (s.1, s.2 + algebraMap F R c) := by
    unfold internalEvalPolyLinearWithPrecomp
    rw [if_neg (by omega)]
    simp only [hlen, Nat.add_sub_cancel,
      entry_ok (getElem?_eq_getD (show k < coefficients.length by omega)), ok_bind]
  rw [hstart]
  split
  · rfl
  · rcases linearTerms_spec (b := fun j => x ^ j) (show k < coefficients.length by omega)
      (powers, coefficients.getD k 0 • x ^ k)
      (fun j hj hlt hne => h j hj hlt.le (Or.inr hne)) with ⟨powers', hterms, htable⟩
    refine ⟨powers', ?_, htable⟩
    rw [load_ok hfirst, ok_bind, load_ok (h k hk le_rfl (Or.inl rfl)), ok_bind, hterms, ok_bind,
      entry_ok (getElem?_eq_getD (show 0 < coefficients.length by omega)), ok_bind]
    have hsum : ∑ i ∈ Finset.range (k + 1), coefficients.getD i 0 • x ^ i =
        coefficients.getD k 0 • x ^ k +
          ∑ t ∈ Finset.range (k - 1), coefficients.getD (t + 1) 0 • x ^ (t + 1) +
          algebraMap F R (coefficients.getD 0 0) := by
      have hsplit := Finset.sum_range_succ' (fun i => coefficients.getD i 0 • x ^ i) (k - 1)
      rw [Nat.sub_add_cancel hk] at hsplit
      rw [Finset.sum_range_succ, hsplit, pow_zero, Algebra.algebraMap_eq_smul_one]
      ring
    rw [hsum]
    rfl

theorem internalEvalChebyPolysLinear_spec (x : R) {coefficients : List F} (a b : F) {k : Nat}
    (hk : 0 < k) (hlen : coefficients.length = k + 1) :
    exists T, internalEvalChebyPolysLinear x coefficients a b = .ok T ∧
      forall i, i < k -> T[i]? = some (some (cheb (linearTransform x a b) (i + 1))) := by
  generalize hy : linearTransform x a b = y
  rcases foldlM_range'_spec 2 (n := k - 1) (f := chebyPolysStep (R := R) F)
    (fun t T => IsTable (fun i => cheb y (i + 1)) (t + 1) T) (IsTable.single (cheb_one y).symm)
    (fun t ht T hT => by
      rw [Nat.add_comm 2 t]
      exact chebyPolysStep_spec (Nat.succ_pos t) hT) with ⟨T, hT, hvalues⟩
  rw [Nat.sub_add_cancel hk] at hvalues
  have hstore : store (List.replicate k (none : Option R)) 0 (some y) =
      .ok ((List.replicate k none).set 0 (some y)) :=
    store_ok _ (by rwa [List.length_replicate])
  refine ⟨T.map some, ?_, ?_⟩
  · unfold internalEvalChebyPolysLinear
    simp only [hlen, Nat.add_sub_cancel, hy, hstore, ok_bind, hT]
    rfl
  · intro i hi
    rw [List.getElem?_map, hvalues.value i hi]
    rfl

theorem internalEvalChebyshevSeriesLinearWithPrecomp_spec {coefficients : List F} {k : Nat}
    {y : R} {T : List (Option R)} (hk : 0 < k) (hlen : coefficients.length = k + 1)
    (h : forall i, i < k -> T[i]? = some (some (cheb y (i + 1)))) :
    exists T', internalEvalChebyshevSeriesLinearWithPrecomp T coefficients =
        .ok (T', algebraMap F R (coefficients.getD 0 0 / 2) +
          ∑ i ∈ Finset.range k, coefficients.getD (i + 1) 0 • cheb y (i + 1)) ∧
      forall i : Nat, T'[i]? =
        if i < k - 1 ∧ coefficients.getD (i + 1) 0 ≠ 0 then
          some (some (coefficients.getD (i + 1) 0 • cheb y (i + 1)))
        else T[i]? := by
  have hlast : T[k - 1]? = some (some (cheb y k)) := by
    rw [h (k - 1) (by omega), Nat.sub_add_cancel hk]
  rcases linearTerms_spec (b := fun j => cheb y j) (show k < coefficients.length by omega)
    (T, coefficients.getD k 0 • cheb y k)
    (fun j hj hlt _ => by rw [h (j - 1) (by omega), Nat.sub_add_cancel hj]) with
    ⟨T', hterms, htable⟩
  refine ⟨T', ?_, htable⟩
  have hpred : coefficients.length - 2 = k - 1 := by omega
  unfold internalEvalChebyshevSeriesLinearWithPrecomp
  rw [load_ok (h 0 hk), ok_bind, if_neg (by omega)]
  simp only [hpred, Nat.sub_add_cancel hk]
  rw [load_ok hlast, ok_bind, entry_ok (getElem?_eq_getD (show k < coefficients.length by omega)),
    ok_bind, hterms, ok_bind,
    entry_ok (getElem?_eq_getD (show 0 < coefficients.length by omega)), ok_bind]
  have hsum : ∑ i ∈ Finset.range k, coefficients.getD (i + 1) 0 • cheb y (i + 1) =
      ∑ t ∈ Finset.range (k - 1), coefficients.getD (t + 1) 0 • cheb y (t + 1) +
        coefficients.getD k 0 • cheb y k := by
    have hsplit := Finset.sum_range_succ
      (fun i => coefficients.getD (i + 1) 0 • cheb y (i + 1)) (k - 1)
    rwa [Nat.sub_add_cancel hk] at hsplit
  rw [hsum]
  show Except.ok (T', _) = Except.ok (T', _)
  congr 2
  ring

end Terms

/-!
## Evaluation
-/

/-- The call throws an exception or returns `v`. -/
def ThrowsOrReturns {R : Type} (m : Outcome R) (v : R) : Prop :=
  (exists message, m = .error (.thrown message)) ∨ m = .ok v

theorem not_throwsOrReturns_undefined {R : Type} (v : R) :
    ¬ ThrowsOrReturns (.error .undefined : Outcome R) v := by
  intro h
  cases h with
  | inl hthrown =>
      rcases hthrown with ⟨message, h⟩
      cases h
  | inr hok => cases hok

section Evaluation

variable {F R : Type} [Field F] [DecidableEq F] [CommRing R] [Algebra F R]

theorem throwsOrReturns_evalPolyLinear_iff (x : R) {coeffs : List F} {k : Nat}
    (hlen : coeffs.length = k + 1) :
    ThrowsOrReturns (evalPolyLinear x coeffs)
        (∑ i ∈ Finset.range (k + 1), coeffs.getD i 0 • x ^ i) <->
      0 < k ∧ (k &&& (k - 1) = 0 ∨ coeffs.getD k 0 ≠ 0) := by
  unfold evalPolyLinear
  rcases Nat.eq_zero_or_pos k with hzero | hpos
  · have hundefined : internalEvalPowersLinear x coeffs = .error .undefined := by
      unfold internalEvalPowersLinear
      rw [hlen, hzero]
      rfl
    rw [hundefined, error_bind]
    apply iff_of_false (not_throwsOrReturns_undefined _)
    rintro ⟨hpos, -⟩
    exact absurd hzero hpos.ne'
  · have hpowers := internalEvalPowersLinear_spec x hpos hlen
    by_cases hneeded : k &&& (k - 1) = 0 ∨ coeffs.getD k 0 ≠ 0
    · rw [if_pos hneeded] at hpowers
      rcases hpowers with ⟨powers, hrun, hfirst, hvalues⟩
      have hresult := internalEvalPolyLinearWithPrecomp_spec hpos hlen hfirst hvalues
      rw [hrun, ok_bind]
      apply iff_of_true _ ⟨hpos, hneeded⟩
      by_cases htop : coeffs.getD k 0 = 0
      · rw [if_pos htop] at hresult
        left
        rw [hresult]
        exact ⟨_, rfl⟩
      · rw [if_neg htop] at hresult
        rcases hresult with ⟨powers', hresult, -⟩
        right
        rw [hresult]
        rfl
    · rw [if_neg hneeded] at hpowers
      rw [hpowers, error_bind]
      exact iff_of_false (not_throwsOrReturns_undefined _) fun h => hneeded h.2

theorem throwsOrReturns_evalChebyshevSeriesLinear_iff [NeZero (2 : F)] (x : R)
    {coeffs : List F} (a b : F) {k : Nat} (hlen : coeffs.length = k + 1) :
    ThrowsOrReturns (evalChebyshevSeriesLinear x coeffs a b)
        (algebraMap F R (coeffs.getD 0 0 / 2) + ∑ i ∈ Finset.range k,
          coeffs.getD (i + 1) 0 • (Chebyshev.T R (i + 1 : Nat)).eval
            (-1 + (2 / (b - a)) • (x - algebraMap F R a))) <-> 0 < k := by
  unfold evalChebyshevSeriesLinear
  rcases Nat.eq_zero_or_pos k with hzero | hpos
  · have hundefined : internalEvalChebyPolysLinear x coeffs a b = .error .undefined := by
      unfold internalEvalChebyPolysLinear
      rw [hlen, hzero]
      rfl
    rw [hundefined, error_bind]
    exact iff_of_false (not_throwsOrReturns_undefined _) fun h => absurd hzero h.ne'
  · rcases internalEvalChebyPolysLinear_spec x a b hpos hlen with ⟨T, hT, hvalues⟩
    rcases internalEvalChebyshevSeriesLinearWithPrecomp_spec hpos hlen hvalues with
      ⟨T', hresult, -⟩
    rw [hT, ok_bind, hresult, linearTransform_eq]
    exact iff_of_true (Or.inr rfl) hpos

theorem evalLowDegree_iff [NeZero (2 : F)] (evalPolyPS : R -> List F -> Outcome R)
    (evalChebyshevSeriesPS : R -> List F -> F -> F -> Outcome R) (x : R) (coeffs : List F)
    (a b : F) {n : Nat} (hdegree : degreeOf coeffs = .ok n) (hn : n < 5) :
    (ThrowsOrReturns (evalPoly evalPolyPS x coeffs)
        (∑ i ∈ Finset.range coeffs.length, coeffs.getD i 0 • x ^ i) <->
      2 <= coeffs.length ∧ ((exists e, coeffs.length - 1 = 2 ^ e) ∨
        coeffs.getD (coeffs.length - 1) 0 ≠ 0)) ∧
    (ThrowsOrReturns (evalPolyLinear x coeffs)
        (∑ i ∈ Finset.range coeffs.length, coeffs.getD i 0 • x ^ i) <->
      2 <= coeffs.length ∧ ((exists e, coeffs.length - 1 = 2 ^ e) ∨
        coeffs.getD (coeffs.length - 1) 0 ≠ 0)) ∧
    (ThrowsOrReturns (evalChebyshevSeries evalChebyshevSeriesPS x coeffs a b)
        (algebraMap F R (coeffs.getD 0 0 / 2) + ∑ i ∈ Finset.range (coeffs.length - 1),
          coeffs.getD (i + 1) 0 • (Chebyshev.T R (i + 1 : Nat)).eval
            (-1 + (2 / (b - a)) • (x - algebraMap F R a))) <-> 2 <= coeffs.length) ∧
    (ThrowsOrReturns (evalChebyshevSeriesLinear x coeffs a b)
        (algebraMap F R (coeffs.getD 0 0 / 2) + ∑ i ∈ Finset.range (coeffs.length - 1),
          coeffs.getD (i + 1) 0 • (Chebyshev.T R (i + 1 : Nat)).eval
            (-1 + (2 / (b - a)) • (x - algebraMap F R a))) <-> 2 <= coeffs.length) := by
  have hne : coeffs ≠ [] := by
    rintro rfl
    cases hdegree
  rcases Nat.exists_eq_add_of_le' (List.length_pos_of_ne_nil hne) with ⟨k, hlen⟩
  have hpoly : evalPoly evalPolyPS x coeffs = evalPolyLinear x coeffs := by
    rw [evalPoly, hdegree, ok_bind, if_pos hn]
  have hcheb : evalChebyshevSeries evalChebyshevSeriesPS x coeffs a b =
      evalChebyshevSeriesLinear x coeffs a b := by
    rw [evalChebyshevSeries, hdegree, ok_bind, if_pos hn]
  have htwo : 2 <= k + 1 <-> 0 < k := by omega
  have hlinear := throwsOrReturns_evalPolyLinear_iff x hlen
  have hchebyshev := throwsOrReturns_evalChebyshevSeriesLinear_iff x a b hlen
  have hcond : (2 <= k + 1 ∧ ((exists e, k = 2 ^ e) ∨ coeffs.getD k 0 ≠ 0)) <->
      0 < k ∧ (k &&& (k - 1) = 0 ∨ coeffs.getD k 0 ≠ 0) := by
    rw [htwo]
    apply and_congr_right
    intro hk
    rw [isPowerOfTwo_iff hk]
  rw [hpoly, hcheb, hlen, Nat.add_sub_cancel, hcond, htwo]
  exact ⟨hlinear, hlinear, hchebyshev, hchebyshev⟩

/-- The evaluation of higher degrees over the rationals. -/
def ratPolyPS (x : ℚ) (coeffs : List ℚ) : Outcome ℚ :=
  orUndefined (evalPolyPS x coeffs)

def ratChebyshevPS (x : ℚ) (coeffs : List ℚ) (a b : ℚ) : Outcome ℚ :=
  orUndefined (evalChebyshevSeriesPS log2Rat x coeffs a b)

/-- A polynomial and a series of degree four. -/
theorem evalLowDegree_four :
    ThrowsOrReturns (evalPoly ratPolyPS (3 : ℚ) ([1, 0, 0, 5, 2] : List ℚ)) 298 ∧
      ThrowsOrReturns
        (evalChebyshevSeries ratChebyshevPS (1 : ℚ) ([1, 0, 0, 5, 2] : List ℚ) (-1) 1)
        (15 / 2) := by
  rcases evalLowDegree_iff ratPolyPS ratChebyshevPS (3 : ℚ) ([1, 0, 0, 5, 2] : List ℚ) (-1) 1
    (n := 4) (by decide) (by decide) with ⟨hpoly, -, -, -⟩
  rcases evalLowDegree_iff ratPolyPS ratChebyshevPS (1 : ℚ) ([1, 0, 0, 5, 2] : List ℚ) (-1) 1
    (n := 4) (by decide) (by decide) with ⟨-, -, hcheb, -⟩
  constructor
  · have hvalue : ∑ i ∈ Finset.range 5, ([1, 0, 0, 5, 2] : List ℚ).getD i 0 • (3 : ℚ) ^ i =
        298 := by
      simp [Finset.sum_range_succ]
      norm_num
    rw [<- hvalue]
    exact hpoly.mpr ⟨by decide, Or.inl ⟨2, rfl⟩⟩
  · have hvalue : (algebraMap ℚ ℚ (1 / 2) + ∑ i ∈ Finset.range 4,
        ([1, 0, 0, 5, 2] : List ℚ).getD (i + 1) 0 • (Chebyshev.T ℚ (i + 1 : Nat)).eval
          (-1 + ((2 : ℚ) / (1 - -1)) • ((1 : ℚ) - algebraMap ℚ ℚ (-1)))) = 15 / 2 := by
      have hone : (-1 + ((2 : ℚ) / (1 - -1)) • ((1 : ℚ) - algebraMap ℚ ℚ (-1))) = 1 := by
        rw [map_neg, map_one]
        norm_num
      rw [hone]
      simp [Finset.sum_range_succ, Chebyshev.T_eval_one]
      norm_num
    rw [<- hvalue]
    exact hcheb.mpr (by decide)

/-- The vector of powers of a constant is empty; the power for a trailing zero is not computed. -/
theorem evalPoly_undefined :
    ¬ ThrowsOrReturns (evalPoly ratPolyPS (2 : ℚ) ([7] : List ℚ)) 7 ∧
      ¬ ThrowsOrReturns (evalPoly ratPolyPS (2 : ℚ) ([1, 2, 3, 0] : List ℚ)) 17 ∧
      ¬ ThrowsOrReturns
        (evalChebyshevSeries ratChebyshevPS (2 : ℚ) ([7] : List ℚ) (-1) 1) (7 / 2) := by
  have hconstant : evalPoly ratPolyPS (2 : ℚ) ([7] : List ℚ) = .error .undefined := by
    decide +kernel
  have htrailing : evalPoly ratPolyPS (2 : ℚ) ([1, 2, 3, 0] : List ℚ) = .error .undefined := by
    decide +kernel
  have hseries : evalChebyshevSeries ratChebyshevPS (2 : ℚ) ([7] : List ℚ) (-1) 1 =
      .error .undefined := by
    decide +kernel
  rw [hconstant, htrailing, hseries]
  exact ⟨not_throwsOrReturns_undefined _, not_throwsOrReturns_undefined _,
    not_throwsOrReturns_undefined _⟩

end Evaluation

end Ckksrns
end Scheme
end OpenFHE
