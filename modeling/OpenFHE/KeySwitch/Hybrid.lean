import OpenFHE.KeySwitch.HybridParameters
import Mathlib.Algebra.BigOperators.Group.Finset.Basic

/-!
# Hybrid key switching

`KeySwitchHYBRID` cuts a ciphertext into digits, raises each digit to all towers
and the special moduli, and multiplies it by its key component.  Random samples
of the key generation are arguments.
-/

namespace OpenFHE
namespace KeySwitch

open OpenFHE.Core Foundation Hal

namespace Hybrid

variable (cache : Poly.TableCache) (params : HybridParameters)

/-- The new secret in basis `QP`; the special towers come from its first tower. -/
def extendSecret (sNew : DCRTPoly) : Option DCRTPoly := do
  let sNew0 <- sNew[0]?
  let sNew0 <- Poly.setFormat cache sNew0 .COEFFICIENT
  (List.range params.moduliQP.length).mapM fun i =>
    if i < params.sizeQ then do
      let tmp <- sNew[i]?
      Poly.setFormat cache tmp .EVALUATION
    else do
      let modulus <- params.moduliQP[i]?
      Poly.setFormat cache (Poly.switchModulus sNew0 modulus) .EVALUATION

def keySwitchGenTower (sNewExt sOld a e : DCRTPoly) (part i : Nat) : Option Poly := do
  let startPartIdx := params.numPerPartQ * part
  let endPartIdx :=
    if params.sizeQ > startPartIdx + params.numPerPartQ
    then startPartIdx + params.numPerPartQ else params.sizeQ
  let ai <- a[i]?
  let ei <- e[i]?
  let sni <- sNewExt[i]?
  let negated <- Poly.negate ai
  let masked <- Poly.times negated sni
  let noise <- Poly.timesInteger ei params.noiseScale
  let b <- Poly.plus masked noise
  if i < startPartIdx ∨ i >= endPartIdx then return b
  else
    let soi <- sOld[i]?
    let p <- params.pModq i
    let scaled <- Poly.timesInteger soi p
    Poly.plus b scaled

def keySwitchGenInternal (sOld sNew : DCRTPoly) (a e : List DCRTPoly) :
    Option EvalKey := do
  let sNewExt <- extendSecret cache params sNew
  let bv <- (List.range params.numPartQ).mapM fun part => do
    let a <- a[part]?
    let e <- e[part]?
    (List.range params.moduliQP.length).mapM
      (keySwitchGenTower params sNewExt sOld a e part)
  return { av := a, bv := bv }

def numPartQl (sizeQl : Nat) : Nat :=
  let numPartQl := ceilDiv sizeQl params.numPerPartQ
  if numPartQl > params.numPartQ then params.numPartQ else numPartQl

/-- The towers of digit `part`; the last digit may lack some. -/
def partTowers (c : DCRTPoly) (part : Nat) : Option DCRTPoly := do
  let paramsPartQ <- params.paramsPartQ part
  let sizePartQl :=
    if part = numPartQl params c.length - 1 then c.length - params.numPerPartQ * part
    else paramsPartQ.length
  if ¬ sizePartQl <= paramsPartQ.length then none
  (List.range sizePartQl).mapM fun i => (c)[params.numPerPartQ * part + i]?

/-- The digit over all towers: its own ones are copied, the others are raised. -/
def joinTowers (c partsCtCompl : DCRTPoly) (startPartIdx sizePartQl i : Nat) :
    Option Poly :=
  if i < startPartIdx then partsCtCompl[i]?
  else if i < startPartIdx + sizePartQl then (c)[i]?
  else partsCtCompl[i - sizePartQl]?

def raiseDigit (c : DCRTPoly) (part : Nat) : Option DCRTPoly := do
  let sizeQl := c.length
  let partsCt <- partTowers params c part
  let sizePartQl := partsCt.length
  let partsCt <- DCRTPoly.setFormat cache partsCt .COEFFICIENT
  let paramsPartQ <- params.paramsPartQ part
  let tables <- params.switchTables (sizeQl - 1) part sizePartQl
  let partsCtCompl <- DCRTPoly.approxSwitchCRTBasis tables params.ringDimension
    paramsPartQ.length .COEFFICIENT partsCt
  let partsCtCompl <- DCRTPoly.setFormat cache partsCtCompl .EVALUATION
  (List.range (sizeQl + params.sizeP)).mapM
    (joinTowers c partsCtCompl (params.numPerPartQ * part) sizePartQl)

def evalKeySwitchPrecomputeCore (c : DCRTPoly) : Option (List DCRTPoly) :=
  (List.range (numPartQl params c.length)).mapM (raiseDigit cache params c)

/-- The key tower of tower `i` of a ciphertext with `sizeQl` towers. -/
def keyTower (sizeQl i : Nat) : Nat :=
  let delta := params.sizeQ - sizeQl
  if i >= sizeQl then i + delta else i

def accumulateTower (sizeQl : Nat) (element digit key : DCRTPoly) (i : Nat) :
    Option Poly := do
  let acc <- element[i]?
  let cji <- digit[i]?
  let kji <- key[keyTower params sizeQl i]?
  let product <- Poly.times cji kji
  Poly.plus acc product

def accumulateDigit (sizeQl sizeQlP : Nat) (digits : List DCRTPoly) (evalKey : EvalKey)
    (elements : DCRTPoly × DCRTPoly) (j : Nat) : Option (DCRTPoly × DCRTPoly) := do
  let digit <- digits[j]?
  let bj <- evalKey.bv[j]?
  let aj <- evalKey.av[j]?
  let element0 <- (List.range sizeQlP).mapM
    (accumulateTower params sizeQl elements.1 digit bj)
  let element1 <- (List.range sizeQlP).mapM
    (accumulateTower params sizeQl elements.2 digit aj)
  return (element0, element1)

def evalFastKeySwitchCoreExt (digits : List DCRTPoly) (evalKey : EvalKey)
    (sizeQl : Nat) : Option (DCRTPoly × DCRTPoly) := do
  let first <- digits[0]?
  let moduliQlP := first.map Poly.modulus
  let element := DCRTPoly.zero moduliQlP params.ringDimension .EVALUATION
  (List.range digits.length).foldlM
    (accumulateDigit params sizeQl moduliQlP.length digits evalKey) (element, element)

/-!
## Shapes
-/

/-- The towers of a ciphertext with `sizeQl` towers, then the special ones. -/
def moduliQlP (sizeQl : Nat) : List Nat := params.moduliQ.take sizeQl ++ params.moduliP

structure Setting (k : Nat) : Prop where
  ringDimension : params.ringDimension = 2 ^ k
  pos : 0 < k
  le : k <= 31
  valid : params.Valid
  ready : forall q, q ∈ params.moduliQP -> exists psi, Poly.Ready cache k q psi

variable {cache params}

theorem keyTower_getElem? {sizeQl : Nat} (hle : sizeQl <= params.sizeQ) (i : Nat) :
    params.moduliQP[keyTower params sizeQl i]? = (moduliQlP params sizeQl)[i]? := by
  have hsizeQ : params.moduliQ.length = params.sizeQ := rfl
  unfold keyTower HybridParameters.moduliQP moduliQlP
  dsimp only
  split
  next hge =>
      rw [List.getElem?_append_right (by omega), List.getElem?_append_right (by simp; omega),
        List.length_take, hsizeQ]
      congr 1
      omega
  next hlt =>
      rw [List.getElem?_append_left (by omega), List.getElem?_append_left (by simp; omega),
        List.getElem?_take_of_lt (by omega)]

theorem length_moduliQlP {sizeQl : Nat} (hle : sizeQl <= params.sizeQ) :
    (moduliQlP params sizeQl).length = sizeQl + params.sizeP := by
  have hsizeQ : params.moduliQ.length = params.sizeQ := rfl
  have hsizeP : params.moduliP.length = params.sizeP := rfl
  rw [moduliQlP, List.length_append, List.length_take, hsizeP]
  omega

theorem moduliQlP_getElem?_low {sizeQl i : Nat} (hi : i < sizeQl)
    (hle : sizeQl <= params.sizeQ) :
    (moduliQlP params sizeQl)[i]? = params.moduliQ[i]? := by
  have hsizeQ : params.moduliQ.length = params.sizeQ := rfl
  rw [moduliQlP, List.getElem?_append_left (by simp; omega), List.getElem?_take_of_lt hi]

theorem moduliQlP_getElem?_high {sizeQl i : Nat} (hi : sizeQl <= i)
    (hle : sizeQl <= params.sizeQ) :
    (moduliQlP params sizeQl)[i]? = params.moduliP[i - sizeQl]? := by
  have hsizeQ : params.moduliQ.length = params.sizeQ := rfl
  have hlen : (params.moduliQ.take sizeQl).length = sizeQl := by
    rw [List.length_take]
    omega
  rw [moduliQlP, List.getElem?_append_right (by omega), hlen]

theorem mem_moduliQP_of_mem {sizeQl q : Nat} (hq : q ∈ moduliQlP params sizeQl) :
    q ∈ params.moduliQP := by
  rcases List.mem_append.mp hq with hmem | hmem
  · exact List.mem_append_left _ (List.mem_of_mem_take hmem)
  · exact List.mem_append_right _ hmem

theorem modulusP_eq_zero {sizeQl i q : Nat} (hi : sizeQl <= i)
    (hle : sizeQl <= params.sizeQ) (hq : (moduliQlP params sizeQl)[i]? = some q) :
    (params.modulusP : ZMod q) = 0 := by
  rw [moduliQlP_getElem?_high hi hle] at hq
  exact (ZMod.natCast_eq_zero_iff _ _).mpr (List.dvd_prod (List.mem_of_getElem? hq))

/-!
## Digits
-/

/-- The component of the gadget of digit `j` in tower `i` of the key. -/
def gadget (params : HybridParameters) (j i : Nat) : Nat :=
  if i < params.sizeQ ∧ i / params.numPerPartQ = j then 1 else 0

section Digits

variable {k : Nat} (h : Setting cache params k)

include h

omit h in
theorem numPartQl_eq (hdist : params.Distributes) {l : Nat} (hl : l < params.sizeQ) :
    numPartQl params (l + 1) = params.digitCount l := by
  have hle := hdist.digitCount_le hl
  unfold numPartQl
  dsimp only
  exact if_neg (not_lt.mpr hle)

theorem partTowers_spec {l j : Nat} (hl : l < params.sizeQ)
    (hj : j < params.digitCount l) {c : DCRTPoly}
    (hc : DCRTPoly.WellFormed (2 ^ k) .EVALUATION (params.moduliQ.take (l + 1)) c) :
    exists parts, partTowers params c j = some parts ∧
      DCRTPoly.WellFormed (2 ^ k) .EVALUATION
        ((params.moduliQ.drop (j * params.numPerPartQ)).take (params.digitSize l j))
        parts := by
  have hsizeQ : params.moduliQ.length = params.sizeQ := rfl
  have hlen : c.length = l + 1 := by
    rw [hc.length_eq, List.length_take]
    omega
  have hj' : j < params.numPartQ := lt_of_lt_of_le hj (h.valid.distributes.digitCount_le hl)
  have hsize := h.valid.distributes.digitSize_bounds hj
  have hdigit := h.valid.distributes.digit_length hl hj
  have hcount := h.valid.distributes.sizePartQj_eq hl hj
  have hceil : params.digitCount l = ceilDiv (l + 1) params.numPerPartQ := rfl
  unfold partTowers
  rw [h.valid.distributes.paramsPartQ_eq hj', hlen, numPartQl_eq h.valid.distributes hl]
  simp only [Option.bind_eq_bind, Option.bind_some]
  rw [hceil, mul_comm params.numPerPartQ j, hcount, if_neg (not_not.mpr hdigit)]
  rcases mapM_range_spec (n := params.digitSize l j)
    (f := fun i => (c)[j * params.numPerPartQ + i]?)
    (fun i (t : Poly) => (c)[j * params.numPerPartQ + i]? = some t)
    (fun i hi => ⟨_, List.getElem?_eq_getElem (by omega), List.getElem?_eq_getElem _⟩) with
    ⟨parts, hparts, hlength, hget⟩
  refine ⟨parts, hparts, ?_, ?_⟩
  · rw [hlength, List.length_take, List.length_drop, hsizeQ]
    omega
  · intro i q t hq ht
    have hi : i < params.digitSize l j := by
      rw [← hlength]
      exact (List.getElem?_eq_some_iff.mp ht).1
    rw [List.getElem?_take_of_lt hi, List.getElem?_drop] at hq
    refine hc.get (j * params.numPerPartQ + i) q t ?_ (hget i t ht)
    rwa [List.getElem?_take_of_lt (by omega)]

theorem raiseDigit_spec {l j : Nat} (hl : l < params.sizeQ)
    (hj : j < params.digitCount l) {c : DCRTPoly}
    (hc : DCRTPoly.WellFormed (2 ^ k) .EVALUATION (params.moduliQ.take (l + 1)) c) :
    exists digit, raiseDigit cache params c j = some digit ∧
      DCRTPoly.WellFormed (2 ^ k) .EVALUATION (moduliQlP params (l + 1)) digit ∧
      forall i, i <= l -> i / params.numPerPartQ = j -> digit[i]? = (c)[i]? := by
  have hsizeQ : params.moduliQ.length = params.sizeQ := rfl
  have hlen : c.length = l + 1 := by
    rw [hc.length_eq, List.length_take]
    omega
  have hj' : j < params.numPartQ := lt_of_lt_of_le hj (h.valid.distributes.digitCount_le hl)
  have hpos := h.valid.distributes.numPerPartQ_pos
  have hsize := h.valid.distributes.digitSize_bounds hj
  have hdigit := h.valid.distributes.digit_length hl hj
  rcases partTowers_spec h hl hj hc with ⟨parts, hparts, hwf⟩
  have hlength : parts.length = params.digitSize l j := by
    rw [hwf.length_eq, List.length_take, List.length_drop, hsizeQ]
    omega
  rcases DCRTPoly.setFormat_wellFormed h.pos h.le
    (fun q hq => h.ready q (List.mem_append_left _
      (List.mem_of_mem_drop (List.mem_of_mem_take hq)))) hwf .COEFFICIENT with
    ⟨coefs, hcoefs, hcoefs_wf⟩
  have hcoefs_length : coefs.length = params.digitSize l j := by
    rw [hcoefs_wf.length_eq, ← hwf.length_eq, hlength]
  rcases h.valid.switchTables_spec hl hj with ⟨tables, htables, hbasis, hsized⟩
  rcases h.valid.distributes.paramsComplPartQ_spec hl hj with ⟨basis, hbasis', hbasis_length, hentry⟩
  rw [hbasis] at hbasis'
  rw [← Option.some.inj hbasis'] at hbasis_length hentry
  have hmin : (if coefs.length > ((params.moduliQ.drop (j * params.numPerPartQ)).take
      params.numPerPartQ).length then ((params.moduliQ.drop (j * params.numPerPartQ)).take
      params.numPerPartQ).length else coefs.length) = params.digitSize l j := by
    rw [if_neg (by omega), hcoefs_length]
  rcases DCRTPoly.approxSwitchCRTBasis_wellFormed hsized hcoefs_wf hcoefs_length.ge hmin
    .COEFFICIENT with ⟨raised, hraised, hraised_wf⟩
  rcases DCRTPoly.setFormat_wellFormed h.pos h.le
    (fun q hq => h.ready q (h.valid.distributes.paramsComplPartQ_subset hl hj hbasis hq)) hraised_wf
    .EVALUATION with ⟨compl, hcompl, hcompl_wf⟩
  have hjoin : forall i q, (moduliQlP params (l + 1))[i]? = some q ->
      exists t, joinTowers c compl (params.numPerPartQ * j) (params.digitSize l j) i =
        some t ∧ t.WellFormed q (2 ^ k) .EVALUATION := by
    intro i q hq
    unfold joinTowers
    rw [mul_comm params.numPerPartQ j]
    split
    next hlow =>
        rw [moduliQlP_getElem?_low (by omega) (by omega)] at hq
        have hi : i < tables.moduli.length := by omega
        have hi' := List.getElem?_eq_getElem hi
        have heq := (hentry i _ hi').1 hlow
        rw [hq] at heq
        rw [← Option.some.inj heq] at hi'
        exact hcompl_wf.exists_tower hi'
    next hge =>
        split
        next hown =>
            rw [moduliQlP_getElem?_low (by omega) (by omega)] at hq
            refine hc.exists_tower ?_
            rwa [List.getElem?_take_of_lt (by omega)]
        next hhigh =>
            have hbound := (List.getElem?_eq_some_iff.mp hq).1
            rw [length_moduliQlP (by omega)] at hbound
            have hi : i - params.digitSize l j < tables.moduli.length := by omega
            have hi' := List.getElem?_eq_getElem hi
            rcases hentry _ _ hi' with ⟨_, hmid, htop⟩
            rcases Nat.lt_or_ge i (l + 1) with hlt | hge'
            · have heq := hmid (by omega) (by omega)
              rw [Nat.sub_add_cancel (by omega),
                ← moduliQlP_getElem?_low hlt (by omega), hq] at heq
              rw [← Option.some.inj heq] at hi'
              exact hcompl_wf.exists_tower hi'
            · have heq := htop (by omega)
              rw [show i - params.digitSize l j - (l + 1 - params.digitSize l j) =
                i - (l + 1) by omega, ← moduliQlP_getElem?_high hge' (by omega), hq] at heq
              rw [← Option.some.inj heq] at hi'
              exact hcompl_wf.exists_tower hi'
  rcases mapM_range_spec (n := l + 1 + params.sizeP)
    (f := joinTowers c compl (params.numPerPartQ * j) (params.digitSize l j))
    (fun i (t : Poly) =>
      joinTowers c compl (params.numPerPartQ * j) (params.digitSize l j) i = some t)
    (by
      intro i hi
      have hbound : i < (moduliQlP params (l + 1)).length := by
        rw [length_moduliQlP (by omega)]
        exact hi
      rcases hjoin i _ (List.getElem?_eq_getElem hbound) with ⟨t, ht, _⟩
      exact ⟨t, ht, ht⟩) with ⟨digit, hresult, hdigit_length, hget⟩
  refine ⟨digit, ?_, ⟨?_, ?_⟩, ?_⟩
  · unfold raiseDigit
    rw [hparts]
    simp only [Option.bind_eq_bind, Option.bind_some]
    rw [hcoefs, h.valid.distributes.paramsPartQ_eq hj', hlength, hlen, Nat.add_sub_cancel, htables]
    simp only [Option.bind_some]
    rw [h.ringDimension, hraised, Option.bind_some, hcompl, Option.bind_some, hresult]
  · rw [hdigit_length, length_moduliQlP (by omega)]
  · intro i q t hq ht
    rcases hjoin i q hq with ⟨t', ht', hwf'⟩
    rw [hget i t ht] at ht'
    rw [Option.some.inj ht']
    exact hwf'
  · intro i hi hij
    have hbound : i < digit.length := by omega
    have htower := hget i _ (List.getElem?_eq_getElem hbound)
    rw [List.getElem?_eq_getElem hbound, ← htower]
    have hdivmod := Nat.div_add_mod' i params.numPerPartQ
    have hmod := Nat.mod_lt i hpos
    rw [hij] at hdivmod
    unfold joinTowers
    rw [mul_comm params.numPerPartQ j, if_neg (by omega), if_pos ?_]
    unfold HybridParameters.digitSize
    split
    next hlast => omega
    next hfull => omega

theorem evalKeySwitchPrecomputeCore_spec {l : Nat} (hl : l < params.sizeQ) {c : DCRTPoly}
    (hc : DCRTPoly.WellFormed (2 ^ k) .EVALUATION (params.moduliQ.take (l + 1)) c) :
    exists digits, evalKeySwitchPrecomputeCore cache params c = some digits ∧
      digits.length = params.digitCount l ∧
      forall (j : Nat) digit, digits[j]? = some digit ->
        DCRTPoly.WellFormed (2 ^ k) .EVALUATION (moduliQlP params (l + 1)) digit ∧
        forall i, i <= l -> i / params.numPerPartQ = j -> digit[i]? = (c)[i]? := by
  have hsizeQ : params.moduliQ.length = params.sizeQ := rfl
  have hlen : c.length = l + 1 := by
    rw [hc.length_eq, List.length_take]
    omega
  unfold evalKeySwitchPrecomputeCore
  rw [hlen, numPartQl_eq h.valid.distributes hl]
  exact mapM_range_spec _ fun j hj => raiseDigit_spec h hl hj hc

end Digits

/-!
## Products with the key
-/

/-- Well-formed towers that hold the sums of the first `j` products with the key. -/
structure Accumulated (params : HybridParameters) (k l : Nat) (digits key : List DCRTPoly)
    (j : Nat) (element : DCRTPoly) : Prop where
  wellFormed :
    DCRTPoly.WellFormed (2 ^ k) .EVALUATION (moduliQlP params (l + 1)) element
  value_eq : forall i q, (moduliQlP params (l + 1))[i]? = some q -> forall r, r < 2 ^ k ->
    (DCRTPoly.value element i r : ZMod q) = ∑ j' ∈ Finset.range j,
      (DCRTPoly.value (digits.getD j' []) i r : ZMod q) *
        DCRTPoly.value (key.getD j' []) (keyTower params (l + 1) i) r

section Accumulate

variable {k : Nat} (h : Setting cache params k) {l : Nat} (hl : l < params.sizeQ)

include h hl

theorem accumulateTower_spec {element digit key : DCRTPoly}
    (helement : DCRTPoly.WellFormed (2 ^ k) .EVALUATION (moduliQlP params (l + 1)) element)
    (hdigit : DCRTPoly.WellFormed (2 ^ k) .EVALUATION (moduliQlP params (l + 1)) digit)
    (hkey : DCRTPoly.WellFormed (2 ^ k) .EVALUATION params.moduliQP key) {i q : Nat}
    (hq : (moduliQlP params (l + 1))[i]? = some q) :
    exists t, accumulateTower params (l + 1) element digit key i = some t ∧
      Poly.Denotes q (2 ^ k) .EVALUATION
        (fun r => (DCRTPoly.value element i r : ZMod q) +
          DCRTPoly.value digit i r *
            DCRTPoly.value key (keyTower params (l + 1) i) r) t := by
  have hmodulus := h.valid.modulus q (mem_moduliQP_of_mem (List.mem_of_getElem? hq))
  rcases helement.exists_tower hq with ⟨acc, hacc, hacc_wf⟩
  rcases hdigit.exists_tower hq with ⟨cji, hcji, hcji_wf⟩
  rw [← keyTower_getElem? (by omega)] at hq
  rcases hkey.exists_tower hq with ⟨kji, hkji, hkji_wf⟩
  rcases Poly.times_denotes hmodulus hcji_wf.denotes hkji_wf.denotes with
    ⟨product, hproduct, hproduct_denotes⟩
  rcases Poly.plus_denotes hmodulus hacc_wf.denotes hproduct_denotes with
    ⟨t, ht, ht_denotes⟩
  refine ⟨t, ?_, ?_⟩
  · unfold accumulateTower
    rw [hacc, hcji, hkji]
    simp only [Option.bind_eq_bind, Option.bind_some]
    rw [hproduct, Option.bind_some, ht]
  · simp only [DCRTPoly.value_eq hacc, DCRTPoly.value_eq hcji, DCRTPoly.value_eq hkji]
    exact ht_denotes

theorem accumulateTowers_spec {element digit key : DCRTPoly}
    (helement : DCRTPoly.WellFormed (2 ^ k) .EVALUATION (moduliQlP params (l + 1)) element)
    (hdigit : DCRTPoly.WellFormed (2 ^ k) .EVALUATION (moduliQlP params (l + 1)) digit)
    (hkey : DCRTPoly.WellFormed (2 ^ k) .EVALUATION params.moduliQP key) :
    exists result, (List.range (moduliQlP params (l + 1)).length).mapM
        (accumulateTower params (l + 1) element digit key) = some result ∧
      DCRTPoly.WellFormed (2 ^ k) .EVALUATION (moduliQlP params (l + 1)) result ∧
      forall i q, (moduliQlP params (l + 1))[i]? = some q -> forall r, r < 2 ^ k ->
        (DCRTPoly.value result i r : ZMod q) = DCRTPoly.value element i r +
          DCRTPoly.value digit i r *
            DCRTPoly.value key (keyTower params (l + 1) i) r := by
  rcases mapM_range_spec (n := (moduliQlP params (l + 1)).length)
    (f := accumulateTower params (l + 1) element digit key)
    (fun i t => accumulateTower params (l + 1) element digit key i = some t)
    (by
      intro i hi
      rcases accumulateTower_spec h hl helement hdigit hkey
        (List.getElem?_eq_getElem hi) with ⟨t, ht, _⟩
      exact ⟨t, ht, ht⟩) with ⟨result, hresult, hlength, hget⟩
  have htower : forall i q t, (moduliQlP params (l + 1))[i]? = some q ->
      result[i]? = some t -> Poly.Denotes q (2 ^ k) .EVALUATION
        (fun r => (DCRTPoly.value element i r : ZMod q) +
          DCRTPoly.value digit i r *
            DCRTPoly.value key (keyTower params (l + 1) i) r) t := by
    intro i q t hq ht
    rcases accumulateTower_spec h hl helement hdigit hkey hq with ⟨t', ht', hdenotes⟩
    rw [hget i t ht] at ht'
    rw [Option.some.inj ht']
    exact hdenotes
  refine ⟨result, hresult, ⟨hlength, fun i q t hq ht => (htower i q t hq ht).wellFormed⟩,
    ?_⟩
  intro i q hq r hr
  have hi : i < result.length := by
    rw [hlength]
    exact (List.getElem?_eq_some_iff.mp hq).1
  have ht := List.getElem?_eq_getElem hi
  rw [DCRTPoly.value_eq ht]
  exact (htower i q _ hq ht).value_eq hr

omit hl in
theorem accumulated_zero :
    forall digits key, Accumulated params k l digits key 0
      (DCRTPoly.zero (moduliQlP params (l + 1)) (2 ^ k) .EVALUATION) := by
  intro digits key
  have hpos : forall q, q ∈ moduliQlP params (l + 1) -> 0 < q := by
    intro q hq
    have hone := (h.valid.modulus q (mem_moduliQP_of_mem hq)).one_lt
    omega
  refine ⟨DCRTPoly.zero_wellFormed hpos _ _, ?_⟩
  intro i q hq r hr
  have hentry : (DCRTPoly.zero (moduliQlP params (l + 1)) (2 ^ k) .EVALUATION)[i]? =
      some (Poly.zero q (2 ^ k) .EVALUATION) := by
    rw [DCRTPoly.zero, List.getElem?_map, hq]
    rfl
  rw [DCRTPoly.value_eq hentry, Finset.range_zero, Finset.sum_empty]
  exact (Poly.zero_denotes (hpos q (List.mem_of_getElem? hq)) (2 ^ k) .EVALUATION).value_eq hr

theorem Accumulated.step {digits key : List DCRTPoly} {j : Nat} {element digit kj : DCRTPoly}
    (helement : Accumulated params k l digits key j element)
    (hdigit : digits[j]? = some digit)
    (hdigit_wf : DCRTPoly.WellFormed (2 ^ k) .EVALUATION (moduliQlP params (l + 1)) digit)
    (hkj : key[j]? = some kj)
    (hkj_wf : DCRTPoly.WellFormed (2 ^ k) .EVALUATION params.moduliQP kj) :
    exists result, (List.range (moduliQlP params (l + 1)).length).mapM
        (accumulateTower params (l + 1) element digit kj) = some result ∧
      Accumulated params k l digits key (j + 1) result := by
  rcases accumulateTowers_spec h hl helement.wellFormed hdigit_wf hkj_wf with
    ⟨result, hresult, hresult_wf, hvalue⟩
  refine ⟨result, hresult, hresult_wf, ?_⟩
  intro i q hq r hr
  rw [hvalue i q hq r hr, helement.value_eq i q hq r hr, Finset.sum_range_succ,
    List.getD_eq_getElem?_getD, List.getD_eq_getElem?_getD, hdigit, hkj]
  rfl

theorem evalFastKeySwitchCoreExt_spec {digits : List DCRTPoly} {evalKey : EvalKey}
    (hne : 0 < digits.length)
    (hdigits : forall (j : Nat) digit, digits[j]? = some digit ->
      DCRTPoly.WellFormed (2 ^ k) .EVALUATION (moduliQlP params (l + 1)) digit)
    (hkey : forall (j : Nat), j < digits.length -> exists b a, evalKey.bv[j]? = some b ∧
      evalKey.av[j]? = some a ∧ DCRTPoly.WellFormed (2 ^ k) .EVALUATION params.moduliQP b ∧
      DCRTPoly.WellFormed (2 ^ k) .EVALUATION params.moduliQP a) :
    exists u0 u1, evalFastKeySwitchCoreExt params digits evalKey (l + 1) = some (u0, u1) ∧
      Accumulated params k l digits evalKey.bv digits.length u0 ∧
      Accumulated params k l digits evalKey.av digits.length u1 := by
  have hfirst := List.getElem?_eq_getElem hne
  have hmoduli := (hdigits 0 _ hfirst).moduli_eq
  unfold evalFastKeySwitchCoreExt
  rw [hfirst]
  simp only [Option.bind_eq_bind, Option.bind_some]
  rw [hmoduli, h.ringDimension]
  rcases foldlM_range_spec (n := digits.length)
    (s := (DCRTPoly.zero (moduliQlP params (l + 1)) (2 ^ k) .EVALUATION,
      DCRTPoly.zero (moduliQlP params (l + 1)) (2 ^ k) .EVALUATION))
    (f := accumulateDigit params (l + 1) (moduliQlP params (l + 1)).length digits evalKey)
    (fun j (elements : DCRTPoly × DCRTPoly) =>
      Accumulated params k l digits evalKey.bv j elements.1 ∧
      Accumulated params k l digits evalKey.av j elements.2)
    ⟨accumulated_zero h digits evalKey.bv, accumulated_zero h digits evalKey.av⟩
    (by
      intro j hj elements ⟨hb, ha⟩
      have hdigit := List.getElem?_eq_getElem hj
      rcases hkey j hj with ⟨bj, aj, hbj, haj, hbj_wf, haj_wf⟩
      rcases hb.step h hl hdigit (hdigits j _ hdigit) hbj hbj_wf with
        ⟨element0, helement0, hstep0⟩
      rcases ha.step h hl hdigit (hdigits j _ hdigit) haj haj_wf with
        ⟨element1, helement1, hstep1⟩
      refine ⟨(element0, element1), ?_, hstep0, hstep1⟩
      unfold accumulateDigit
      rw [hdigit, hbj, haj]
      simp only [Option.bind_eq_bind, Option.bind_some]
      rw [helement0, Option.bind_some, helement1]
      rfl) with ⟨⟨u0, u1⟩, hrun, hu0, hu1⟩
  exact ⟨u0, u1, hrun, hu0, hu1⟩

end Accumulate

/-!
## Key generation
-/

/--
The evaluation key relates the secrets: in every tower of `QP` its components
satisfy `b + a * sNew = P * D_j * sOld + ns * e`.
-/
structure KeyEquation (params : HybridParameters) (k : Nat) (sNew sOld : DCRTPoly)
    (e : List DCRTPoly) (evalKey : EvalKey) : Prop where
  wellFormed : forall j, j < params.numPartQ -> exists b a, evalKey.bv[j]? = some b ∧
    evalKey.av[j]? = some a ∧ DCRTPoly.WellFormed (2 ^ k) .EVALUATION params.moduliQP b ∧
    DCRTPoly.WellFormed (2 ^ k) .EVALUATION params.moduliQP a
  equation : forall j, j < params.numPartQ -> forall i q, params.moduliQP[i]? = some q ->
    forall r, r < 2 ^ k ->
      (DCRTPoly.value (evalKey.bv.getD j []) i r : ZMod q) +
          DCRTPoly.value (evalKey.av.getD j []) i r * DCRTPoly.value sNew i r =
        params.modulusP * gadget params j i * DCRTPoly.value sOld i r +
          params.noiseScale * DCRTPoly.value (e.getD j []) i r

section KeyGeneration

variable {k : Nat} (h : Setting cache params k)

include h

theorem extendSecret_spec {sNew : DCRTPoly} {format : Format}
    (hsNew : DCRTPoly.WellFormed (2 ^ k) format params.moduliQ sNew) :
    exists sNewExt, extendSecret cache params sNew = some sNewExt ∧
      DCRTPoly.WellFormed (2 ^ k) .EVALUATION params.moduliQP sNewExt := by
  have hsizeQ : params.moduliQ.length = params.sizeQ := rfl
  have hpos : 0 < params.moduliQ.length := by
    have hlt := h.valid.distributes.lt_sizeQ
    omega
  have hq0 := List.getElem?_eq_getElem hpos
  rcases hsNew.exists_tower hq0 with ⟨sNew0, hsNew0, hsNew0_wf⟩
  have hmem0 := List.mem_append_left params.moduliP (List.mem_of_getElem? hq0)
  rcases h.ready _ hmem0 with ⟨psi0, hpsi0⟩
  rcases Poly.setFormat_wellFormed h.pos hpsi0 h.le hsNew0_wf .COEFFICIENT with
    ⟨coef0, hcoef0, hcoef0_wf⟩
  unfold extendSecret
  rw [hsNew0]
  simp only [Option.bind_eq_bind, Option.bind_some]
  rw [hcoef0]
  simp only [Option.bind_some]
  rcases mapM_range_spec (n := params.moduliQP.length)
    (f := fun i => if i < params.sizeQ then
        sNew[i]?.bind fun tmp => Poly.setFormat cache tmp .EVALUATION
      else params.moduliQP[i]?.bind fun modulus =>
        Poly.setFormat cache (Poly.switchModulus coef0 modulus) .EVALUATION)
    (fun i (t : Poly) => forall q, params.moduliQP[i]? = some q ->
      t.WellFormed q (2 ^ k) .EVALUATION)
    (by
      intro i hi
      have hq := List.getElem?_eq_getElem hi
      generalize params.moduliQP[i] = q at hq
      have hmem := List.mem_of_getElem? hq
      rcases h.ready q hmem with ⟨psi, hpsi⟩
      have hunique : forall t : Poly, t.WellFormed q (2 ^ k) .EVALUATION ->
          forall q', params.moduliQP[i]? = some q' ->
            t.WellFormed q' (2 ^ k) .EVALUATION := by
        intro t ht q' hq'
        rw [hq] at hq'
        rwa [← Option.some.inj hq']
      split
      next hlt =>
          have hqi := hq
          rw [HybridParameters.moduliQP, List.getElem?_append_left (by omega)] at hqi
          rcases hsNew.exists_tower hqi with ⟨t, ht, hwf⟩
          rcases Poly.setFormat_wellFormed h.pos hpsi h.le hwf .EVALUATION with
            ⟨r, hr, hr_wf⟩
          refine ⟨r, ?_, hunique r hr_wf⟩
          rw [ht, Option.bind_some, hr]
      next hge =>
          have hswitch := Poly.switchModulus_wellFormed (h.valid.modulus q hmem)
            (h.valid.modulus _ hmem0) hcoef0_wf
          rcases Poly.setFormat_wellFormed h.pos hpsi h.le hswitch .EVALUATION with
            ⟨r, hr, hr_wf⟩
          refine ⟨r, ?_, hunique r hr_wf⟩
          rw [hq, Option.bind_some, hr]) with ⟨sNewExt, hrun, hlength, hget⟩
  exact ⟨sNewExt, hrun, hlength, fun i q t hq ht => hget i t ht q hq⟩

theorem keySwitchGenTower_spec {sNewExt sOld a e : DCRTPoly} (part : Nat) {i q : Nat}
    (hsNewExt : DCRTPoly.WellFormed (2 ^ k) .EVALUATION params.moduliQP sNewExt)
    (hsOld : DCRTPoly.WellFormed (2 ^ k) .EVALUATION params.moduliQ sOld)
    (ha : DCRTPoly.WellFormed (2 ^ k) .EVALUATION params.moduliQP a)
    (he : DCRTPoly.WellFormed (2 ^ k) .EVALUATION params.moduliQP e)
    (hq : params.moduliQP[i]? = some q) :
    exists t, keySwitchGenTower params sNewExt sOld a e part i = some t ∧
      Poly.Denotes q (2 ^ k) .EVALUATION
        (fun r => -(DCRTPoly.value a i r : ZMod q) * DCRTPoly.value sNewExt i r +
          DCRTPoly.value e i r * params.noiseScale +
          DCRTPoly.value sOld i r * (params.modulusP * gadget params part i)) t := by
  have hsizeQ : params.moduliQ.length = params.sizeQ := rfl
  have halpha := h.valid.distributes.numPerPartQ_pos
  have hmodulus := h.valid.modulus q (List.mem_of_getElem? hq)
  rcases ha.exists_tower hq with ⟨ai, hai, hai_wf⟩
  rcases he.exists_tower hq with ⟨ei, hei, hei_wf⟩
  rcases hsNewExt.exists_tower hq with ⟨sni, hsni, hsni_wf⟩
  rcases Poly.negate_denotes hmodulus hai_wf.denotes with ⟨negated, hnegated, hd₁⟩
  rcases Poly.times_denotes hmodulus hd₁ hsni_wf.denotes with ⟨masked, hmasked, hd₂⟩
  rcases Poly.timesInteger_denotes hmodulus params.noiseScale hei_wf.denotes with
    ⟨noise, hnoise, hd₃⟩
  rcases Poly.plus_denotes hmodulus hd₂ hd₃ with ⟨b, hb, hd₄⟩
  have hdivmod := Nat.div_add_mod' i params.numPerPartQ
  have hmod := Nat.mod_lt i halpha
  unfold keySwitchGenTower
  dsimp only
  rw [hai, hei, hsni]
  simp only [Option.bind_eq_bind, Option.bind_some]
  rw [hnegated, Option.bind_some, hmasked, Option.bind_some, hnoise, Option.bind_some, hb,
    Option.bind_some]
  simp only [DCRTPoly.value_eq hai, DCRTPoly.value_eq hei, DCRTPoly.value_eq hsni]
  by_cases hin : i < params.sizeQ ∧ i / params.numPerPartQ = part
  · have hqi := hq
    rw [HybridParameters.moduliQP, List.getElem?_append_left (by omega)] at hqi
    rcases hsOld.exists_tower hqi with ⟨soi, hsoi, hsoi_wf⟩
    rcases Poly.timesInteger_denotes hmodulus (params.modulusP % q) hsoi_wf.denotes with
      ⟨scaled, hscaled, hd₅⟩
    rcases Poly.plus_denotes hmodulus hd₄ hd₅ with ⟨t, ht, hd₆⟩
    have hrange : ¬ (i < params.numPerPartQ * part ∨
        i >= if params.sizeQ > params.numPerPartQ * part + params.numPerPartQ
          then params.numPerPartQ * part + params.numPerPartQ else params.sizeQ) := by
      rw [hin.2, mul_comm] at hdivmod
      split <;> omega
    have hpModq : params.pModq i = some (params.modulusP % q) := by
      have hone := hmodulus.one_lt
      rw [HybridParameters.pModq, hqi]
      exact if_neg (by omega)
    refine ⟨t, ?_, ?_⟩
    · rw [if_neg hrange, hsoi, hpModq]
      simp only [Option.bind_some]
      rw [hscaled, Option.bind_some, ht]
    · simp only [DCRTPoly.value_eq hsoi, gadget, if_pos hin, Nat.cast_one, mul_one]
      simp only [ZMod.natCast_mod] at hd₆
      exact hd₆
  · have hrange : i < params.numPerPartQ * part ∨
        i >= if params.sizeQ > params.numPerPartQ * part + params.numPerPartQ
          then params.numPerPartQ * part + params.numPerPartQ else params.sizeQ := by
      by_contra hnot
      push Not at hnot
      refine hin ⟨?_, Nat.div_eq_of_lt_le ?_ ?_⟩
      · split at hnot <;> omega
      · rw [mul_comm]
        exact hnot.1
      · rw [add_mul, one_mul, mul_comm]
        split at hnot <;> omega
    refine ⟨b, by rw [if_pos hrange]; rfl, ?_⟩
    simp only [gadget, if_neg hin, Nat.cast_zero, mul_zero, add_zero]
    exact hd₄

theorem keySwitchGenInternal_keyEquation {sOld sNew : DCRTPoly} {a e : List DCRTPoly}
    {format : Format}
    (hsNew : DCRTPoly.WellFormed (2 ^ k) format params.moduliQ sNew)
    (hsOld : DCRTPoly.WellFormed (2 ^ k) .EVALUATION params.moduliQ sOld)
    (ha : forall j, j < params.numPartQ -> exists aj, a[j]? = some aj ∧
      DCRTPoly.WellFormed (2 ^ k) .EVALUATION params.moduliQP aj)
    (he : forall j, j < params.numPartQ -> exists ej, e[j]? = some ej ∧
      DCRTPoly.WellFormed (2 ^ k) .EVALUATION params.moduliQP ej) :
    exists sNewExt evalKey, extendSecret cache params sNew = some sNewExt ∧
      keySwitchGenInternal cache params sOld sNew a e = some evalKey ∧
      KeyEquation params k sNewExt sOld e evalKey := by
  rcases extendSecret_spec h hsNew with ⟨sNewExt, hsNewExt, hsNewExt_wf⟩
  have htower : forall (part : Nat) aj ej, a[part]? = some aj -> e[part]? = some ej ->
      DCRTPoly.WellFormed (2 ^ k) .EVALUATION params.moduliQP aj ->
      DCRTPoly.WellFormed (2 ^ k) .EVALUATION params.moduliQP ej ->
      exists b, (List.range params.moduliQP.length).mapM
          (keySwitchGenTower params sNewExt sOld aj ej part) = some b ∧
        b.length = params.moduliQP.length ∧
        forall i t, b[i]? = some t -> forall q, params.moduliQP[i]? = some q ->
          Poly.Denotes q (2 ^ k) .EVALUATION
            (fun r => -(DCRTPoly.value aj i r : ZMod q) * DCRTPoly.value sNewExt i r +
              DCRTPoly.value ej i r * params.noiseScale +
              DCRTPoly.value sOld i r * (params.modulusP * gadget params part i)) t := by
    intro part aj ej _ _ haj_wf hej_wf
    refine mapM_range_spec _ fun i hi => ?_
    have hq := List.getElem?_eq_getElem hi
    rcases keySwitchGenTower_spec h part hsNewExt_wf hsOld haj_wf hej_wf hq with
      ⟨t, ht, hdenotes⟩
    refine ⟨t, ht, fun q hq' => ?_⟩
    rw [hq] at hq'
    rw [← Option.some.inj hq']
    exact hdenotes
  rcases mapM_range_spec (n := params.numPartQ)
    (f := fun part => a[part]?.bind fun aj => e[part]?.bind fun ej =>
      (List.range params.moduliQP.length).mapM
        (keySwitchGenTower params sNewExt sOld aj ej part))
    (fun part b => forall aj ej, a[part]? = some aj -> e[part]? = some ej ->
      b.length = params.moduliQP.length ∧
      forall i t, b[i]? = some t -> forall q, params.moduliQP[i]? = some q ->
        Poly.Denotes q (2 ^ k) .EVALUATION
          (fun r => -(DCRTPoly.value aj i r : ZMod q) * DCRTPoly.value sNewExt i r +
            DCRTPoly.value ej i r * params.noiseScale +
            DCRTPoly.value sOld i r * (params.modulusP * gadget params part i)) t)
    (by
      intro part hpart
      rcases ha part hpart with ⟨aj, haj, haj_wf⟩
      rcases he part hpart with ⟨ej, hej, hej_wf⟩
      rcases htower part aj ej haj hej haj_wf hej_wf with ⟨b, hb, hspec⟩
      refine ⟨b, by rw [haj, hej]; exact hb, ?_⟩
      intro aj' ej' haj' hej'
      rw [haj] at haj'
      rw [hej] at hej'
      rw [← Option.some.inj haj', ← Option.some.inj hej']
      exact hspec) with ⟨bv, hbv, hbv_length, hget⟩
  refine ⟨sNewExt, { av := a, bv := bv }, hsNewExt, ?_, ?_, ?_⟩
  · unfold keySwitchGenInternal
    rw [hsNewExt]
    simp only [Option.bind_eq_bind, Option.bind_some]
    rw [hbv]
    rfl
  · intro j hj
    rcases ha j hj with ⟨aj, haj, haj_wf⟩
    rcases he j hj with ⟨ej, hej, _⟩
    have hb := List.getElem?_eq_getElem (show j < bv.length by omega)
    rcases hget j _ hb aj ej haj hej with ⟨hlength, hdenotes⟩
    exact ⟨_, aj, hb, haj,
      ⟨hlength, fun i q t hq ht => (hdenotes i t ht q hq).wellFormed⟩, haj_wf⟩
  · intro j hj i q hq r hr
    rcases ha j hj with ⟨aj, haj, haj_wf⟩
    rcases he j hj with ⟨ej, hej, _⟩
    have hb := List.getElem?_eq_getElem (show j < bv.length by omega)
    rcases hget j _ hb aj ej haj hej with ⟨hlength, hdenotes⟩
    have hi : i < bv[j].length := by
      rw [hlength]
      exact (List.getElem?_eq_some_iff.mp hq).1
    have ht := List.getElem?_eq_getElem hi
    have hvalue := (hdenotes i _ ht q hq).value_eq hr
    simp only [List.getD_eq_getElem?_getD, hb, haj, hej, Option.getD_some,
      DCRTPoly.value_eq ht]
    rw [hvalue]
    ring

end KeyGeneration

/-!
## Correctness
-/

theorem sum_gadget {k l i : Nat} (h : Setting cache params k) (hl : l < params.sizeQ)
    (hi : i <= l) {c : DCRTPoly} {digits : List DCRTPoly}
    (hlength : digits.length = params.digitCount l)
    (hown : forall (j : Nat) digit, digits[j]? = some digit ->
      i / params.numPerPartQ = j -> digit[i]? = (c)[i]?) (q r : Nat) :
    ∑ j ∈ Finset.range digits.length,
        (DCRTPoly.value (digits.getD j []) i r : ZMod q) * gadget params j i =
      DCRTPoly.value c i r := by
  have hpos := h.valid.distributes.numPerPartQ_pos
  have hj : i / params.numPerPartQ < digits.length := by
    have hbound := (ceilDiv_bounds (a := l + 1) hpos).1
    rw [hlength, Nat.div_lt_iff_lt_mul hpos]
    exact lt_of_lt_of_le (by omega) hbound
  rw [Finset.sum_eq_single_of_mem _ (Finset.mem_range.mpr hj)]
  · have hentry := List.getElem?_eq_getElem hj
    have htower := hown _ _ hentry rfl
    rw [gadget, if_pos ⟨by omega, rfl⟩, Nat.cast_one, mul_one,
      List.getD_eq_getElem?_getD, hentry, Option.getD_some, DCRTPoly.value, htower]
    rfl
  · intro j _ hne
    rw [gadget, if_neg fun hand => hne hand.2.symm, Nat.cast_zero, mul_zero]

/--
What key switching of `c` at level `l` achieves.  The digits extend the towers of
`c`; every tower meets the key tower of its modulus; and the two elements satisfy
`u0 + u1 * sNew = P * c * sOld + ns * sum of d_j * e_j` in all towers, of which the
special ones are killed by `P`.
-/
structure Switched (params : HybridParameters) (k l : Nat) (c sNew sOld : DCRTPoly)
    (e digits : List DCRTPoly) (u0 u1 : DCRTPoly) : Prop where
  digit_wellFormed : forall (j : Nat) digit, digits[j]? = some digit ->
    DCRTPoly.WellFormed (2 ^ k) .EVALUATION (moduliQlP params (l + 1)) digit
  digit_own : forall (j : Nat) digit, digits[j]? = some digit ->
    forall i, i <= l -> i / params.numPerPartQ = j -> digit[i]? = (c)[i]?
  u0_wellFormed : DCRTPoly.WellFormed (2 ^ k) .EVALUATION (moduliQlP params (l + 1)) u0
  u1_wellFormed : DCRTPoly.WellFormed (2 ^ k) .EVALUATION (moduliQlP params (l + 1)) u1
  keyTower_eq : forall i, i < (moduliQlP params (l + 1)).length ->
    params.moduliQP[keyTower params (l + 1) i]? = (moduliQlP params (l + 1))[i]?
  special : forall i q, (moduliQlP params (l + 1))[i]? = some q -> l < i ->
    (params.modulusP : ZMod q) = 0
  equation : forall i q, (moduliQlP params (l + 1))[i]? = some q -> forall r, r < 2 ^ k ->
    (DCRTPoly.value u0 i r : ZMod q) + DCRTPoly.value u1 i r *
        DCRTPoly.value sNew (keyTower params (l + 1) i) r =
      params.modulusP * (DCRTPoly.value c i r * DCRTPoly.value sOld i r) +
        params.noiseScale * ∑ j ∈ Finset.range digits.length,
          (DCRTPoly.value (digits.getD j []) i r : ZMod q) *
            DCRTPoly.value (e.getD j []) (keyTower params (l + 1) i) r

/-- Three towers in two digits, of which the last is partial, and one special modulus. -/
def smallParameters : HybridParameters where
  ringDimension := 2
  moduliQ := [5, 13, 17]
  moduliP := [29]
  numPartQ := 2
  noiseScale := 1

theorem smallSetting : Setting Poly.smallCache smallParameters 1 := by
  have hready : forall q, q ∈ smallParameters.moduliQP ->
      Poly.Ready Poly.smallCache 1 q (Poly.smallRoot q) := by
    have hsub : smallParameters.moduliQP ⊆ [5, 13, 17, 29, 1152921504606846869] := by decide
    exact fun q hq => Poly.smallReady (hsub hq)
  exact ⟨rfl, by decide, by decide,
    ⟨⟨by decide, by decide⟩, by decide, fun q hq => (hready q hq).modulus⟩,
    fun q hq => ⟨_, hready q hq⟩⟩

end Hybrid

end KeySwitch
end OpenFHE
