import OpenFHE.Core.Transform.NegacyclicTransform

/-!
# Single-modulus polynomials

`PolyImpl` over a power-of-two cyclotomic order.  In the evaluation format the
values are those at the odd powers of the root, so that products are pointwise.
An exception of the code is the value `none`.
-/

namespace OpenFHE
namespace Hal

open OpenFHE.Core Foundation

inductive Format where
  | EVALUATION
  | COEFFICIENT
deriving DecidableEq, Repr

structure Poly where
  modulus : Nat
  format : Format
  values : List Nat
deriving DecidableEq, Repr

namespace Poly

/-- The polynomial of the constructor with `initializeElementToZero`. -/
def zero (modulus ringDimension : Nat) (format : Format) : Poly where
  modulus := modulus
  format := format
  values := List.replicate ringDimension 0

def plus (a rhs : Poly) : Option Poly :=
  if a.values.length ≠ rhs.values.length then none
  else if a.modulus ≠ rhs.modulus then none
  else if a.format ≠ rhs.format then none
  else some { a with values := NativeVector.modAddNoCheckEq a.modulus a.values rhs.values }

def times (a rhs : Poly) : Option Poly :=
  if a.values.length ≠ rhs.values.length then none
  else if a.modulus ≠ rhs.modulus then none
  else if a.format ≠ .EVALUATION ∨ rhs.format ≠ .EVALUATION then none
  else (NativeVector.modMulNoCheckEq a.modulus a.values rhs.values).map
    fun values => { a with values := values }

def timesInteger (a : Poly) (element : Nat) : Option Poly :=
  (NativeVector.modMulScalar a.modulus a.values element).map
    fun values => { a with values := values }

/-- `operator+=`, which does not look at the format. -/
def plusEq (a rhs : Poly) : Option Poly :=
  if a.values.length ≠ rhs.values.length ∨ a.modulus ≠ rhs.modulus then none
  else some { a with values := NativeVector.modAddNoCheckEq a.modulus a.values rhs.values }

def minusEq (a rhs : Poly) : Option Poly :=
  if a.modulus ≠ rhs.modulus then none
  else (NativeVector.modSubEq a.modulus a.values rhs.values).map
    fun values => { a with values := values }

def plusNoCheck (a rhs : Poly) : Option Poly :=
  some { a with values := NativeVector.modAddNoCheckEq a.modulus a.values rhs.values }

def timesNoCheck (a rhs : Poly) : Option Poly :=
  (NativeVector.modMulNoCheckEq a.modulus a.values rhs.values).map
    fun values => { a with values := values }

/-- Unary minus: zero with the own parameters, minus the polynomial. -/
def negate (a : Poly) : Option Poly :=
  (NativeVector.modSubEq a.modulus (List.replicate a.values.length 0) a.values).map
    fun values => { a with values := values }

def switchModulus (a : Poly) (modulus : Nat) : Poly :=
  { a with
    modulus := modulus
    values := NativeVector.switchModulus a.modulus modulus a.values }

/-- The tables that the transforms keep for each modulus. -/
abbrev TableCache := Nat -> Option Transform.TransformTables

def switchFormat (cache : TableCache) (a : Poly) : Option Poly := do
  let tables <- cache a.modulus
  match a.format with
  | .EVALUATION =>
      let values <-
        Transform.inverseTransform a.modulus (2 * a.values.length) tables a.values
      return { a with format := .COEFFICIENT, values := values }
  | .COEFFICIENT =>
      let values <- Transform.forwardTransform a.modulus tables a.values
      return { a with format := .EVALUATION, values := values }

def setFormat (cache : TableCache) (a : Poly) (format : Format) : Option Poly :=
  if a.format = format then some a else switchFormat cache a

/-!
## What a polynomial denotes
-/

/-- The polynomial is well formed and its values stand for the residues of `f`. -/
structure Denotes (q n : Nat) (format : Format) (f : Nat -> ZMod q) (a : Poly) :
    Prop where
  modulus_eq : a.modulus = q
  format_eq : a.format = format
  holds : Holds q n f a.values

/-- A well-formed polynomial of the given parameters. -/
def WellFormed (q n : Nat) (format : Format) (a : Poly) : Prop :=
  a.modulus = q ∧ a.format = format ∧ Residues n q a.values

/-- The value at a position; past the ring dimension it is zero. -/
def value (a : Poly) (r : Nat) : Nat := a.values.getD r 0

theorem WellFormed.denotes {q n : Nat} {format : Format} {a : Poly}
    (h : WellFormed q n format a) : Denotes q n format (fun r => (a.value r : ZMod q)) a :=
  ⟨h.1, h.2.1, h.2.2.holds⟩

theorem Denotes.wellFormed {q n : Nat} {format : Format} {f : Nat -> ZMod q} {a : Poly}
    (h : Denotes q n format f a) : WellFormed q n format a :=
  ⟨h.modulus_eq, h.format_eq, h.holds.residues⟩

theorem Denotes.value_eq {q n : Nat} {format : Format} {f : Nat -> ZMod q} {a : Poly}
    (h : Denotes q n format f a) {r : Nat} (hr : r < n) : (a.value r : ZMod q) = f r :=
  h.holds.coefficient_eq hr

theorem WellFormed.value_lt {q n : Nat} {format : Format} {a : Poly}
    (h : WellFormed q n format a) {r : Nat} (hr : r < n) : a.value r < q := by
  have hlength : r < a.values.length := by
    rw [h.2.2.1]
    exact hr
  rw [Poly.value, List.getD_eq_getElem _ _ hlength]
  exact h.2.2.2 _ (List.getElem_mem hlength)

theorem eq_of_values {n : Nat} {a b : Poly} (hmodulus : a.modulus = b.modulus)
    (hformat : a.format = b.format) (ha : a.values.length = n) (hb : b.values.length = n)
    (hvalues : forall i, i < n -> a.values[i]? = b.values[i]?) : a = b := by
  rcases a with ⟨modulus, format, values⟩
  rcases b with ⟨modulus', format', values'⟩
  dsimp only at hmodulus hformat ha hb hvalues
  subst hmodulus hformat
  congr 1
  apply List.ext_getElem?
  intro i
  rcases Nat.lt_or_ge i n with hi | hi
  · exact hvalues i hi
  · rw [List.getElem?_eq_none (by omega), List.getElem?_eq_none (by omega)]

theorem Denotes.congr {q n : Nat} {format : Format} {f g : Nat -> ZMod q} {a : Poly}
    (h : Denotes q n format f a) (hfg : forall i, i < n -> f i = g i) :
    Denotes q n format g a :=
  ⟨h.modulus_eq, h.format_eq, h.holds.congr hfg⟩

theorem Denotes.unique {q n : Nat} {format : Format} {f : Nat -> ZMod q} {a b : Poly}
    (ha : Denotes q n format f a) (hb : Denotes q n format f b) : a = b := by
  apply eq_of_values (ha.modulus_eq.trans hb.modulus_eq.symm)
    (ha.format_eq.trans hb.format_eq.symm) ha.holds.length_eq hb.holds.length_eq
  intro i _
  rw [ha.holds.unique hb.holds]

/-- The moduli of the transforms: odd words with four spare bits. -/
structure NttModulus (q : Nat) : Prop where
  odd : q % 2 = 1
  one_lt : 1 < q
  lt : q < 2 ^ 60

section Operations

variable {q n : Nat} (hq : NttModulus q) {format : Format} {f g : Nat -> ZMod q}
  {a b : Poly}

theorem zero_denotes (hq : 0 < q) (n : Nat) (format : Format) :
    Denotes q n format (fun _ => 0) (zero q n format) := by
  refine ⟨rfl, rfl, List.length_replicate, ?_⟩
  intro i x hix
  rw [zero, List.getElem?_replicate] at hix
  split at hix
  · rw [← Option.some.inj hix]
    exact ⟨hq, Nat.cast_zero⟩
  · cases hix

include hq

theorem plusNoCheck_denotes (ha : Denotes q n format f a) (hb : Denotes q n format g b) :
    exists r, plusNoCheck a b = some r ∧ Denotes q n format (fun i => f i + g i) r := by
  refine ⟨{ a with values := NativeVector.modAddNoCheckEq q a.values b.values }, ?_,
    ha.modulus_eq, ha.format_eq,
    NativeVector.modAddNoCheckEq_spec hq.lt ha.holds hb.holds⟩
  rw [plusNoCheck, ha.modulus_eq]

theorem plus_denotes (ha : Denotes q n format f a) (hb : Denotes q n format g b) :
    exists r, plus a b = some r ∧ Denotes q n format (fun i => f i + g i) r := by
  have hlength : a.values.length = b.values.length :=
    ha.holds.length_eq.trans hb.holds.length_eq.symm
  have hmodulus : a.modulus = b.modulus := ha.modulus_eq.trans hb.modulus_eq.symm
  have hformat : a.format = b.format := ha.format_eq.trans hb.format_eq.symm
  rw [plus, if_neg (by simp [hlength]), if_neg (by simp [hmodulus]),
    if_neg (by simp [hformat])]
  exact plusNoCheck_denotes hq ha hb

theorem plusEq_denotes (ha : Denotes q n format f a) (hb : Denotes q n format g b) :
    exists r, plusEq a b = some r ∧ Denotes q n format (fun i => f i + g i) r := by
  have hlength : a.values.length = b.values.length :=
    ha.holds.length_eq.trans hb.holds.length_eq.symm
  have hmodulus : a.modulus = b.modulus := ha.modulus_eq.trans hb.modulus_eq.symm
  rw [plusEq, if_neg (by simp [hlength, hmodulus])]
  exact plusNoCheck_denotes hq ha hb

theorem minusEq_denotes (ha : Denotes q n format f a) (hb : Denotes q n format g b) :
    exists r, minusEq a b = some r ∧ Denotes q n format (fun i => f i - g i) r := by
  have hmodulus : a.modulus = b.modulus := ha.modulus_eq.trans hb.modulus_eq.symm
  rcases NativeVector.modSubEq_spec hq.lt ha.holds hb.holds with ⟨values, hvalues, hHolds⟩
  refine ⟨{ a with values := values }, ?_, ha.modulus_eq, ha.format_eq, hHolds⟩
  rw [minusEq, if_neg (by simp [hmodulus]), ha.modulus_eq, hvalues]
  rfl

theorem timesNoCheck_denotes {format' : Format} (ha : Denotes q n format f a)
    (hb : Denotes q n format' g b) :
    exists r, timesNoCheck a b = some r ∧
      Denotes q n format (fun i => f i * g i) r := by
  rcases NativeVector.modMulNoCheckEq_spec hq.lt hq.odd hq.one_lt ha.holds hb.holds with
    ⟨values, hvalues, hHolds⟩
  refine ⟨{ a with values := values }, ?_, ha.modulus_eq, ha.format_eq, hHolds⟩
  rw [timesNoCheck, ha.modulus_eq, hvalues]
  rfl

theorem times_denotes (ha : Denotes q n .EVALUATION f a)
    (hb : Denotes q n .EVALUATION g b) :
    exists r, times a b = some r ∧ Denotes q n .EVALUATION (fun i => f i * g i) r := by
  have hlength : a.values.length = b.values.length :=
    ha.holds.length_eq.trans hb.holds.length_eq.symm
  have hmodulus : a.modulus = b.modulus := ha.modulus_eq.trans hb.modulus_eq.symm
  rw [times, if_neg (by simp [hlength]), if_neg (by simp [hmodulus]),
    if_neg (by simp [ha.format_eq, hb.format_eq])]
  exact timesNoCheck_denotes hq ha hb

theorem timesInteger_denotes (c : Nat) (ha : Denotes q n format f a) :
    exists r, timesInteger a c = some r ∧ Denotes q n format (fun i => f i * c) r := by
  rcases NativeVector.modMulScalar_spec hq.lt (by have := hq.one_lt; omega) c ha.holds with
    ⟨values, hvalues, hHolds⟩
  refine ⟨{ a with values := values }, ?_, ha.modulus_eq, ha.format_eq, hHolds⟩
  rw [timesInteger, ha.modulus_eq, hvalues]
  rfl

theorem negate_denotes (ha : Denotes q n format f a) :
    exists r, negate a = some r ∧ Denotes q n format (fun i => -f i) r := by
  have hzero := (zero_denotes (by have := hq.one_lt; omega) n format : Denotes q n _ _ _)
  rcases NativeVector.modSubEq_spec hq.lt hzero.holds ha.holds with
    ⟨values, hvalues, hHolds⟩
  refine ⟨{ a with values := values }, ?_, ha.modulus_eq, ha.format_eq, ?_⟩
  · rw [zero] at hvalues
    rw [negate, ha.modulus_eq, ha.holds.length_eq, hvalues]
    rfl
  · simpa using hHolds

theorem switchModulus_wellFormed {old : Nat} (hold : NttModulus old)
    (ha : WellFormed old n format a) : WellFormed q n format (switchModulus a q) := by
  refine ⟨rfl, ha.2.1, ?_⟩
  rw [switchModulus, ha.1]
  exact (NativeVector.switchModulus_spec (lt_trans hold.lt (by decide)) hq.lt
    (by have := hq.one_lt; omega) ha.2.2).residues

end Operations

/-!
## Format switches
-/

/-- The cache holds the tables of the modulus for a root of order `2 ^ (k + 1)`. -/
structure Ready (cache : TableCache) (k q psi : Nat) : Prop where
  modulus : NttModulus q
  tables : exists tables, cache q = some tables ∧ Transform.TablesSpec k psi q tables
  root : (psi : ZMod q) ^ 2 ^ k = -1

theorem ready_of_preCompute {cache : TableCache} {k q psi : Nat} (hq : NttModulus q)
    (hk : 0 < k) (hk24 : k <= 24) (hpsi : psi < q) (hroot : (psi : ZMod q) ^ 2 ^ k = -1)
    (hcache : cache q = Transform.preCompute psi (2 * 2 ^ k) q) : Ready cache k q psi := by
  have hunit : IsUnit ((psi : ZMod q) ^ 2 ^ k) := by
    rw [hroot]
    exact isUnit_one.neg
  have hcoprime : Nat.gcd psi q = 1 :=
    (ZMod.isUnit_iff_coprime psi q).mp ((isUnit_pow_iff (by positivity)).mp hunit)
  rcases Transform.preCompute_spec hq.odd hq.one_lt hq.lt hk hk24 hpsi hcoprime with
    ⟨tables, htables, hspec⟩
  exact ⟨hq, ⟨tables, hcache.trans htables, hspec⟩, hroot⟩

section Format

variable {cache : TableCache} {k q psi : Nat} (hk : 0 < k) (h : Ready cache k q psi)

include hk h

theorem switchFormat_evaluation {f : Nat -> ZMod q} {a : Poly}
    (ha : Denotes q (2 ^ k) .COEFFICIENT f a) :
    exists r, switchFormat cache a = some r ∧
      Denotes q (2 ^ k) .EVALUATION (stageArray f psi 1 k) r := by
  rcases h.tables with ⟨tables, hcache, htables⟩
  have hpos : 0 < q := by have := h.modulus.one_lt; omega
  rcases Transform.forwardTransform_spec hk h.modulus.lt hpos htables h.root ha.holds with
    ⟨values, hvalues, hHolds⟩
  refine ⟨{ a with format := .EVALUATION, values := values }, ?_, ha.modulus_eq, rfl,
    hHolds⟩
  rw [switchFormat, ha.modulus_eq, hcache, ha.format_eq]
  simp only [Option.bind_eq_bind, Option.bind_some, hvalues]
  rfl

theorem switchFormat_coefficient (hk31 : k <= 31) {f : Nat -> ZMod q} {a : Poly}
    (ha : Denotes q (2 ^ k) .EVALUATION (stageArray f psi 1 k) a) :
    exists r, switchFormat cache a = some r ∧ Denotes q (2 ^ k) .COEFFICIENT f r := by
  rcases h.tables with ⟨tables, hcache, htables⟩
  have hpos : 0 < q := by have := h.modulus.one_lt; omega
  rcases Transform.inverseTransform_eq hk h.modulus.lt hpos htables h.root hk31 ha.holds with
    ⟨values, hvalues, hHolds⟩
  refine ⟨{ a with format := .COEFFICIENT, values := values }, ?_, ha.modulus_eq, rfl,
    hHolds⟩
  rw [switchFormat, ha.modulus_eq, hcache, ha.format_eq, ha.holds.length_eq]
  simp only [Option.bind_eq_bind, Option.bind_some, hvalues]
  rfl

/-- The second polynomial is the transform of the first one. -/
structure Transforms (k q psi : Nat) (coef eval : Poly) : Prop where
  coef_wellFormed : WellFormed q (2 ^ k) .COEFFICIENT coef
  eval_denotes : Denotes q (2 ^ k) .EVALUATION
    (stageArray (fun r => (coef.value r : ZMod q)) psi 1 k) eval

theorem switchFormat_transforms (hk31 : k <= 31) {a : Poly} {format : Format}
    (ha : WellFormed q (2 ^ k) format a) :
    exists b, switchFormat cache a = some b ∧
      Transforms k q psi (if format = .COEFFICIENT then a else b)
        (if format = .COEFFICIENT then b else a) := by
  cases format with
  | COEFFICIENT =>
      rcases switchFormat_evaluation hk h ha.denotes with ⟨b, hb, hdenotes⟩
      exact ⟨b, hb, ha, hdenotes⟩
  | EVALUATION =>
      rcases h.tables with ⟨tables, _, htables⟩
      have hpos : 0 < q := by have := h.modulus.one_lt; omega
      rcases Transform.exists_coefficients hk h.modulus.lt hpos htables h.root hk31 ha.2.2 with
        ⟨f, hf⟩
      rcases switchFormat_coefficient hk h hk31 ⟨ha.1, ha.2.1, hf⟩ with ⟨b, hb, hdenotes⟩
      have hsame : stageArray (fun r => (b.value r : ZMod q)) psi 1 k =
          stageArray f psi 1 k := by
        funext i
        exact stageArray_congr (fun c hc => hdenotes.value_eq hc) _ i
      refine ⟨b, hb, hdenotes.wellFormed, ha.1, ha.2.1, ?_⟩
      exact hsame ▸ hf

theorem setFormat_wellFormed (hk31 : k <= 31) {a : Poly} {format : Format}
    (ha : WellFormed q (2 ^ k) format a) (target : Format) :
    exists r, setFormat cache a target = some r ∧ WellFormed q (2 ^ k) target r := by
  by_cases heq : format = target
  · refine ⟨a, ?_, heq ▸ ha⟩
    rw [setFormat, if_pos (ha.2.1.trans heq)]
  · rw [setFormat, if_neg (fun hsame => heq (ha.2.1.symm.trans hsame))]
    rcases switchFormat_transforms hk h hk31 ha with ⟨r, hr, htransforms⟩
    refine ⟨r, hr, ?_⟩
    cases format with
    | COEFFICIENT =>
        cases target with
        | COEFFICIENT => exact absurd rfl heq
        | EVALUATION => exact htransforms.eval_denotes.wellFormed
    | EVALUATION =>
        cases target with
        | COEFFICIENT => exact htransforms.coef_wellFormed
        | EVALUATION => exact absurd rfl heq

theorem setFormat_roundTrip (hk31 : k <= 31) {a : Poly}
    (ha : WellFormed q (2 ^ k) .COEFFICIENT a) :
    exists r, setFormat cache a .EVALUATION = some r ∧
      setFormat cache r .COEFFICIENT = some a := by
  rcases switchFormat_evaluation hk h ha.denotes with ⟨r, hr, hdenotes⟩
  rcases switchFormat_coefficient hk h hk31 hdenotes with ⟨b, hb, hback⟩
  refine ⟨r, ?_, ?_⟩
  · rw [setFormat, if_neg (by rw [ha.2.1]; decide), hr]
  · rw [setFormat, if_neg (by rw [hdenotes.format_eq]; decide), hb,
      hback.unique ha.denotes]

end Format

/-!
## A small cache
-/

/-- Roots of minus one modulo some small primes and a prime of 60 bits. -/
def smallRoot (q : Nat) : Nat :=
  if q = 5 then 2 else if q = 13 then 5 else if q = 17 then 4 else if q = 29 then 12
  else 383824447308448458

def smallCache : TableCache := fun q => Transform.preCompute (smallRoot q) (2 * 2 ^ 1) q

theorem smallReady {q : Nat} (hq : q ∈ [5, 13, 17, 29, 1152921504606846869]) :
    Ready smallCache 1 q (smallRoot q) := by
  have hroot : smallRoot q < q ∧ q % 2 = 1 ∧ 1 < q ∧ q < 2 ^ 60 ∧
      (smallRoot q ^ 2 + 1) % q = 0 := by
    fin_cases hq <;> decide
  rcases hroot with ⟨hlt, hodd, hone, h60, hsquare⟩
  have hcast : ((smallRoot q ^ 2 + 1 : Nat) : ZMod q) = 0 :=
    (ZMod.natCast_eq_zero_iff _ _).mpr (Nat.dvd_of_mod_eq_zero hsquare)
  refine ready_of_preCompute ⟨hodd, hone, h60⟩ (by decide) (by decide) hlt ?_ rfl
  push_cast at hcast
  exact eq_neg_of_add_eq_zero_left hcast

end Poly

end Hal
end OpenFHE
