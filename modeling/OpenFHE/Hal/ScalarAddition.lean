import OpenFHE.Hal.CanonicalRuns

/-!
# Addition of constants

`Plus` of an integer adds the constant polynomial: in the coefficient format it changes
the first coefficient only.  `Minus` subtracts the integer from every entry in both
formats.
-/

namespace OpenFHE
namespace Core
namespace NativeVectorT

open NativeInteger

section Scalars

variable {v : NativeVectorT} {n q : Nat} {f : Nat -> ZMod q} (hv : Stands n q f v)
  (hpos : 0 < q) (hlt : q < 2 ^ maxModulusSize)

include hpos in
theorem reduceScalar_ok (hmodulus : v.modulus = q) (c : Nat) :
    v.reduceScalar c = .ok (c % q) := by
  unfold reduceScalar
  cases hmodulus
  split
  · rw [if_neg hpos.ne']
  · rw [Nat.mod_eq_of_lt (by omega)]

include hv hpos hlt

theorem modAddInteger_ok (c : Nat) :
    exists w, modAddInteger v c = .ok w ∧ Stands n q (fun i => f i + c) w := by
  refine ⟨{ v with data := v.data.map fun x => modAddFast x (c % q) v.modulus }, ?_,
    hv.modulus_eq, ?_⟩
  · rw [modAddInteger, reduceScalar_ok hpos hv.modulus_eq]
    rfl
  · apply NativeVector.holds_map _ hv.holds
    intro i x hx
    simp only [maxModulusSize] at hlt
    rw [hv.modulus_eq, modAddFast_eq (by omega) hx.1 (Nat.mod_lt _ hpos), ← hx.2,
      ← ZMod.natCast_mod c q, ← Nat.cast_add]
    exact represents_mod hpos _

theorem modSubInteger_ok (c : Nat) :
    exists w, modSubInteger v c = .ok w ∧ Stands n q (fun i => f i - c) w := by
  refine ⟨{ v with data := v.data.map fun x => modSubFast x (c % q) v.modulus }, ?_,
    hv.modulus_eq, ?_⟩
  · rw [modSubInteger, reduceScalar_ok hpos hv.modulus_eq]
    rfl
  · apply NativeVector.holds_map _ hv.holds
    intro i x hx
    rw [hv.modulus_eq, ← hx.2, ← ZMod.natCast_mod c q]
    exact NativeVector.represents_sub_fast hlt hx.1 (Nat.mod_lt _ hpos)

theorem modAddAtIndex_ok {i : Nat} (hi : i < n) (c : Nat) :
    exists w, modAddAtIndex v i c = .ok w ∧
      Stands n q (fun j => f j + if j = i then (c : ZMod q) else 0) w := by
  have hrange : i < v.data.length := by
    rw [hv.holds.length_eq]
    exact hi
  have hentry := List.getElem?_eq_getElem hrange
  refine ⟨{ v with data := v.data.set i (modAdd v.data[i] c v.modulus) }, ?_,
    hv.modulus_eq, ?_, ?_⟩
  · rw [modAddAtIndex, hentry]
    dsimp only
    rw [if_neg (by rw [hv.modulus_eq]; omega)]
  · rw [List.length_set, hv.holds.length_eq]
  · intro j x hx
    rw [List.getElem?_set] at hx
    split at hx
    next heq =>
        cases heq
        cases hx
        have hold := hv.holds.get i _ hentry
        simp only [maxModulusSize] at hlt
        rw [if_pos rfl, hv.modulus_eq, modAdd, reduce_eq_mod, reduce_eq_mod,
          modAddFast_eq (by omega) (Nat.mod_lt _ hpos) (Nat.mod_lt _ hpos), ← Nat.add_mod,
          ← hold.2, ← Nat.cast_add]
        exact represents_mod hpos _
    next hne =>
        rw [if_neg (Ne.symm hne), add_zero]
        exact hv.holds.get j x hx

end Scalars

end NativeVectorT
end Core

namespace Hal
namespace Poly

open OpenFHE.Core Foundation

/-- `operator+=` of an integer assigns the result of `Plus`. -/
def plusIntegerEq (a : Poly) (element : Nat) : Option Poly := a.plusInteger element

/-- `Minus` of an integer, without a look at the format. -/
def minusInteger (a : Poly) (element : Nat) : Option Poly :=
  a.onVector (a.vector.modSubInteger element)

/-- `operator-=` of an integer changes the values in place. -/
def minusIntegerEq (a : Poly) (element : Nat) : Option Poly :=
  (a.vector.modSubInteger element).toOption.map fun v => { a with values := v.data }

/-!
## What the operations denote
-/

section Operations

variable {q n : Nat} (hq : NttModulus q) {format : Format} {f : Nat -> ZMod q} {a : Poly}

theorem Denotes.stands (ha : Denotes q n format f a) :
    NativeVectorT.Stands n q f a.vector :=
  ⟨ha.modulus_eq, ha.holds⟩

theorem onVector_denotes {g : Nat -> ZMod q} {v : NativeVectorT}
    (ha : Denotes q n format f a) (hv : NativeVectorT.Stands n q g v) :
    exists r, a.onVector (.ok v) = some r ∧ r = { a with values := v.data } ∧
      Denotes q n format g r := by
  refine ⟨_, ?_, rfl, ha.modulus_eq, ha.format_eq, hv.holds⟩
  rw [onVector, withVector, hv.modulus_eq, ← ha.modulus_eq]

include hq

theorem plusInteger_evaluation (ha : Denotes q n .EVALUATION f a) (c : Nat) :
    exists r, plusInteger a c = some r ∧ Denotes q n .EVALUATION (fun i => f i + c) r := by
  rcases NativeVectorT.modAddInteger_ok ha.stands (by have := hq.one_lt; omega) hq.lt c with
    ⟨v, hv, hstands⟩
  rcases onVector_denotes ha hstands with ⟨r, hr, _, hdenotes⟩
  refine ⟨r, ?_, hdenotes⟩
  rw [plusInteger, ha.format_eq, hv]
  exact hr

theorem plusInteger_coefficient (hn : 0 < n) (ha : Denotes q n .COEFFICIENT f a) (c : Nat) :
    exists r, plusInteger a c = some r ∧
      Denotes q n .COEFFICIENT (fun i => f i + if i = 0 then (c : ZMod q) else 0) r := by
  rcases NativeVectorT.modAddAtIndex_ok ha.stands (by have := hq.one_lt; omega) hq.lt hn c with
    ⟨v, hv, hstands⟩
  rcases onVector_denotes ha hstands with ⟨r, hr, _, hdenotes⟩
  refine ⟨r, ?_, hdenotes⟩
  rw [plusInteger, ha.format_eq, hv]
  exact hr

theorem minusInteger_denotes (ha : Denotes q n format f a) (c : Nat) :
    exists r, minusInteger a c = some r ∧ minusIntegerEq a c = some r ∧
      Denotes q n format (fun i => f i - c) r := by
  rcases NativeVectorT.modSubInteger_ok ha.stands (by have := hq.one_lt; omega) hq.lt c with
    ⟨v, hv, hstands⟩
  rcases onVector_denotes ha hstands with ⟨r, hr, heq, hdenotes⟩
  refine ⟨r, ?_, ?_, hdenotes⟩
  · rw [minusInteger, hv]
    exact hr
  · rw [minusIntegerEq, hv, heq]
    rfl

end Operations

/-!
## Constants and the format
-/

theorem stageArray_add_constant {R : Type _} [CommRing R] (f : Nat -> R) (c psi : R)
    (k i : Nat) :
    stageArray (fun j => f j + if j = 0 then c else 0) psi 1 k i =
      stageArray f psi 1 k i + c := by
  rw [stageArray_last, stageArray_last]
  have hsplit : forall j, j ∈ Finset.range (2 ^ k) ->
      (f j + if j = 0 then c else 0) * psi ^ ((2 * bitReverse k i + 1) * j) =
        f j * psi ^ ((2 * bitReverse k i + 1) * j) + if j = 0 then c else 0 := by
    intro j _
    split
    next hzero =>
        rw [hzero, mul_zero, pow_zero, mul_one, mul_one]
    next hne =>
        rw [add_zero, add_zero]
  rw [Finset.sum_congr rfl hsplit, Finset.sum_add_distrib, Finset.sum_ite_eq' , if_pos]
  exact Finset.mem_range.mpr (by positivity)

theorem eq_zero_of_cast {q c : Nat} (hc : c < q) (h : (c : ZMod q) = 0) : c = 0 :=
  Nat.eq_zero_of_dvd_of_lt ((ZMod.natCast_eq_zero_iff c q).mp h) hc

/-- `Plus` and `Minus` undo each other and commute with the change of format. -/
structure ScalarAddition (cache : TableCache) (a : Poly) (c : Nat) : Prop where
  plus_minus : (a.plusInteger c).bind (minusInteger · c) = some a
  plusEq_minusEq : (a.plusIntegerEq c).bind (minusIntegerEq · c) = some a
  plus_switchFormat : (a.plusInteger c).bind (switchFormat cache) =
    (a.switchFormat cache).bind (plusInteger · c)
  minus_switchFormat : (a.minusInteger c).bind (switchFormat cache) =
    (a.switchFormat cache).bind (minusInteger · c)

theorem Denotes.eq_at {q n : Nat} {format : Format} {f g : Nat -> ZMod q} {a : Poly}
    (hf : Denotes q n format f a) (hg : Denotes q n format g a) {r : Nat} (hr : r < n) :
    f r = g r :=
  (hf.value_eq hr).symm.trans (hg.value_eq hr)

section Zero

variable {q n : Nat} (hq : NttModulus q) {format : Format} {a : Poly}
  (ha : WellFormed q n format a)

include hq ha

theorem plusInteger_zero (hn : 0 < n) : plusInteger a 0 = some a := by
  cases format with
  | COEFFICIENT =>
      rcases plusInteger_coefficient hq hn ha.denotes 0 with ⟨r, hr, hdenotes⟩
      rw [hr, hdenotes.unique (ha.denotes.congr fun i _ => by simp)]
  | EVALUATION =>
      rcases plusInteger_evaluation hq ha.denotes 0 with ⟨r, hr, hdenotes⟩
      rw [hr, hdenotes.unique (ha.denotes.congr fun i _ => by simp)]

theorem minusInteger_zero : minusInteger a 0 = some a ∧ minusIntegerEq a 0 = some a := by
  rcases minusInteger_denotes hq ha.denotes 0 with ⟨r, hr, hreq, hdenotes⟩
  have hsame : r = a := hdenotes.unique (ha.denotes.congr fun i _ => by simp)
  cases hsame
  exact ⟨hr, hreq⟩

end Zero

section Format

variable {cache : TableCache} {k q psi : Nat} (hk : 0 < k) (hk31 : k <= 31)
  (h : Ready cache k q psi) {format : Format} {a : Poly}
  (ha : WellFormed q (2 ^ k) format a)

include hk hk31 h

theorem exists_coefficients (ha : WellFormed q (2 ^ k) .EVALUATION a) :
    exists f, Denotes q (2 ^ k) .EVALUATION (stageArray f psi 1 k) a := by
  rcases switchFormat_transforms hk h hk31 ha with ⟨b, _, htransforms⟩
  exact ⟨_, htransforms.eval_denotes⟩

include ha

theorem plusInteger_switchFormat (c : Nat) :
    (a.plusInteger c).bind (switchFormat cache) =
      (a.switchFormat cache).bind (plusInteger · c) := by
  have hn : 0 < 2 ^ k := by positivity
  cases format with
  | COEFFICIENT =>
      rcases plusInteger_coefficient h.modulus hn ha.denotes c with ⟨r, hr, hrdenotes⟩
      rcases switchFormat_evaluation hk h hrdenotes with ⟨s, hs, hsdenotes⟩
      rcases switchFormat_evaluation hk h ha.denotes with ⟨b, hb, hbdenotes⟩
      rcases plusInteger_evaluation h.modulus hbdenotes c with ⟨t, ht, htdenotes⟩
      have hsame : s = t := hsdenotes.unique
        (htdenotes.congr fun i _ => (stageArray_add_constant _ _ _ _ _).symm)
      rw [hr, hb, Option.bind_some, Option.bind_some, hs, ht, hsame]
  | EVALUATION =>
      rcases exists_coefficients hk hk31 h ha with ⟨f, hf⟩
      rcases plusInteger_evaluation h.modulus hf c with ⟨r, hr, hrdenotes⟩
      rcases switchFormat_coefficient hk h hk31
        (hrdenotes.congr fun i _ => (stageArray_add_constant f _ _ _ _).symm) with
        ⟨s, hs, hsdenotes⟩
      rcases switchFormat_coefficient hk h hk31 hf with ⟨b, hb, hbdenotes⟩
      rcases plusInteger_coefficient h.modulus hn hbdenotes c with ⟨t, ht, htdenotes⟩
      have hsame : s = t := hsdenotes.unique htdenotes
      rw [hr, hb, Option.bind_some, Option.bind_some, hs, ht, hsame]

omit hk31 in
theorem eq_zero_of_plus_minus {c : Nat} (hc : c < q) (hformat : format = .COEFFICIENT)
    (hplus : (a.plusInteger c).bind (minusInteger · c) = some a) : c = 0 := by
  have hn : 1 < 2 ^ k := Nat.one_lt_two_pow hk.ne'
  cases hformat
  rcases plusInteger_coefficient h.modulus (by omega) ha.denotes c with ⟨r, hr, hrdenotes⟩
  rcases minusInteger_denotes h.modulus hrdenotes c with ⟨s, hs, _, hsdenotes⟩
  rw [hr, Option.bind_some, hs] at hplus
  cases hplus
  have heq := hsdenotes.eq_at ha.denotes hn
  rw [if_neg one_ne_zero, add_zero, sub_eq_self] at heq
  exact eq_zero_of_cast hc heq

theorem eq_zero_of_minus_switchFormat {c : Nat} (hc : c < q) (hformat : format = .EVALUATION)
    (hminus : (a.minusInteger c).bind (switchFormat cache) =
      (a.switchFormat cache).bind (minusInteger · c)) : c = 0 := by
  have hn : 1 < 2 ^ k := Nat.one_lt_two_pow hk.ne'
  cases hformat
  rcases exists_coefficients hk hk31 h ha with ⟨f, hf⟩
  rcases minusInteger_denotes h.modulus hf c with ⟨r, hr, _, hrdenotes⟩
  have hconstant : forall i, stageArray f psi 1 k i - (c : ZMod q) =
      stageArray (fun j => f j + if j = 0 then -(c : ZMod q) else 0) psi 1 k i := by
    intro i
    rw [stageArray_add_constant, sub_eq_add_neg]
  rcases switchFormat_coefficient hk h hk31 (hrdenotes.congr fun i _ => hconstant i) with
    ⟨s, hs, hsdenotes⟩
  rcases switchFormat_coefficient hk h hk31 hf with ⟨b, hb, hbdenotes⟩
  rcases minusInteger_denotes h.modulus hbdenotes c with ⟨t, ht, _, htdenotes⟩
  rw [hr, hb, Option.bind_some, Option.bind_some, hs, ht] at hminus
  cases hminus
  have heq := hsdenotes.eq_at htdenotes hn
  rw [if_neg one_ne_zero, add_zero, eq_comm, sub_eq_self] at heq
  exact eq_zero_of_cast hc heq

/-- The laws of the two operations hold for the constant zero only. -/
theorem scalarAddition_iff {c : Nat} (hc : c < q) : ScalarAddition cache a c <-> c = 0 := by
  have hn : 0 < 2 ^ k := by positivity
  constructor
  · intro hlaws
    cases format with
    | COEFFICIENT => exact eq_zero_of_plus_minus hk h ha hc rfl hlaws.plus_minus
    | EVALUATION =>
        exact eq_zero_of_minus_switchFormat hk hk31 h ha hc rfl hlaws.minus_switchFormat
  · intro hzero
    cases hzero
    have hplus := plusInteger_zero h.modulus ha hn
    have hminus := minusInteger_zero h.modulus ha
    rcases switchFormat_transforms hk h hk31 ha with ⟨b, hb, htransforms⟩
    have hswitched : minusInteger b 0 = some b := by
      cases format with
      | COEFFICIENT =>
          exact (minusInteger_zero h.modulus htransforms.eval_denotes.wellFormed).1
      | EVALUATION => exact (minusInteger_zero h.modulus htransforms.coef_wellFormed).1
    constructor
    · rw [hplus, Option.bind_some, hminus.1]
    · rw [plusIntegerEq, hplus, Option.bind_some, hminus.2]
    · exact plusInteger_switchFormat hk hk31 h ha 0
    · rw [hminus.1, Option.bind_some, hb, Option.bind_some, hswitched]

end Format

theorem scalarAddition_zero :
    ScalarAddition smallCache { modulus := 17, format := .COEFFICIENT, values := [3, 5] } 0 :=
  (scalarAddition_iff (by decide) (by decide) (smallReady (q := 17) (by decide))
    ⟨rfl, rfl, rfl, by decide⟩ (by decide)).mpr rfl

/-- Adding and subtracting `1` changes the second coefficient. -/
theorem plus_minus_coefficient :
    ¬ ScalarAddition smallCache { modulus := 17, format := .COEFFICIENT, values := [3, 5] } 1 := by
  intro h
  exact absurd h.plus_minus (by decide)

end Poly
end Hal
end OpenFHE
