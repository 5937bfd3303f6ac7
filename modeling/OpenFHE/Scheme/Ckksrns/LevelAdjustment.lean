import OpenFHE.Hal.Rescale
import OpenFHE.Scheme.Relinearization

/-!
# Adjustment of levels

`AdjustLevelsAndDepthInPlace` brings two CKKS ciphertexts to one level and one noise scale
degree.  The ciphertext at the lower level is multiplied by a constant that corrects its
scaling factor, loses towers and is rescaled.
-/

namespace OpenFHE
namespace Scheme

open OpenFHE.Core Foundation Hal

inductive ScalingTechnique where
  | NORESCALE
  | FIXEDMANUAL
  | FIXEDAUTO
  | FLEXIBLEAUTO
  | FLEXIBLEAUTOEXT
  | COMPOSITESCALINGAUTO
  | COMPOSITESCALINGMANUAL
deriving DecidableEq, Repr

namespace Ckksrns

/--
The scaling factors are floating point numbers, of which only products and quotients are
taken.  The rounding of a factor to the towers of a ciphertext is a function of the
parameters.
-/
structure LeveledParameters (F : Type) where
  moduliQ : List Nat
  technique : ScalingTechnique
  compositeDegree : Nat
  scalingFactorsReal : List F
  scalingFactorsRealBig : List F
  dmoduliQ : Nat -> F
  approxSF : F
  getElementForEvalMult : Ciphertext F -> F -> List Nat
  factors_length : forall ciphertext operand c, ciphertext.elements[0]? = some c ->
    (getElementForEvalMult ciphertext operand).length = c.length

namespace LeveledParameters

variable {F : Type} (params : LeveledParameters F)

/-- The techniques with a table of scaling factors. -/
def HasTables : Prop :=
  params.technique = .FLEXIBLEAUTO ∨ params.technique = .FLEXIBLEAUTOEXT ∨
    params.technique = .COMPOSITESCALINGAUTO ∨ params.technique = .COMPOSITESCALINGMANUAL

instance : Decidable params.HasTables :=
  inferInstanceAs (Decidable (_ ∨ _ ∨ _ ∨ _))

def getScalingFactorReal (l : Nat) : F :=
  if params.HasTables then params.scalingFactorsReal.getD l params.approxSF
  else params.approxSF

def getScalingFactorRealBig (l : Nat) : F :=
  if params.HasTables then params.scalingFactorsRealBig.getD l params.approxSF
  else params.approxSF

def getModReduceFactor (l : Nat) : F :=
  if params.HasTables then params.dmoduliQ l else params.approxSF

/-- The tables of `PrecomputeCRTTables`, by the number of dropped towers. -/
def qlQlInvModqlDivqlModq (k : Nat) : List Nat :=
  let l := params.moduliQ.length - (k + 1)
  (params.moduliQ[l]?.bind fun ql =>
    DCRTPoly.qlQlInvModqlDivqlModq (params.moduliQ.take l) ql).getD []

def qlInvModq (k : Nat) : List Nat :=
  let l := params.moduliQ.length - (k + 1)
  (params.moduliQ[l]?.bind fun ql => DCRTPoly.qlInvModq (params.moduliQ.take l) ql).getD []

end LeveledParameters

/-! ## Operations -/

section Operations

variable {F : Type} [Mul F] [Div F] [One F] (cache : Poly.TableCache)
  (params : LeveledParameters F)

/-- `DCRTPoly::Times` with one factor for each tower. -/
def timesFactors (a : DCRTPoly) (factors : List Nat) : Option DCRTPoly :=
  DCRTPoly.mapTowers (fun i t => do
    let c <- factors[i]?
    t.timesInteger c) a

def evalMultCoreInPlace (ciphertext : Ciphertext F) (operand : F) : Option (Ciphertext F) := do
  let factors := params.getElementForEvalMult ciphertext operand
  let cv <- ciphertext.elements.mapM fun c => timesFactors c factors
  return { ciphertext with
    elements := cv
    noiseScaleDeg := ciphertext.noiseScaleDeg + 1
    scalingFactor :=
      ciphertext.scalingFactor * params.getScalingFactorReal ciphertext.level }

def divideByLast (sizeQl diffQl : Nat) (ciphertext : Ciphertext F) (i : Nat) :
    Option (Ciphertext F) := do
  let cv <- ciphertext.elements.mapM fun c =>
    DCRTPoly.dropLastElementAndScale cache (params.qlQlInvModqlDivqlModq (diffQl + i))
      (params.qlInvModq (diffQl + i)) .EVALUATION c
  return { ciphertext with
    elements := cv
    scalingFactor := ciphertext.scalingFactor / params.getModReduceFactor (sizeQl - 1 - i) }

def modReduceInternalInPlace (ciphertext : Ciphertext F) (levels : Nat) :
    Option (Ciphertext F) := do
  let cv0 <- ciphertext.elements[0]?
  let sizeQ := params.moduliQ.length
  let sizeQl := cv0.length
  let diffQl := sizeQ - sizeQl
  (List.range levels).foldlM (divideByLast cache params sizeQl diffQl) { ciphertext with
    noiseScaleDeg := ciphertext.noiseScaleDeg - levels / params.compositeDegree
    level := ciphertext.level + levels }

def levelReduceInternalInPlace (ciphertext : Ciphertext F) (levels : Nat) :
    Option (Ciphertext F) := do
  let cv <- ciphertext.elements.mapM fun c => DCRTPoly.dropLastElements c levels
  return { ciphertext with
    elements := cv
    level := ciphertext.level + levels }

/-- The levels are dropped only if there are any left between the ciphertexts. -/
def levelReduceBelow (ciphertext : Ciphertext F) (below target : Nat) :
    Option (Ciphertext F) :=
  if below < target then levelReduceInternalInPlace ciphertext (target - below)
  else some ciphertext

/-- The factor of the moduli that one rescaling removes. -/
def rescaleFactor (sizeQl : Nat) : F :=
  (List.range (params.compositeDegree - 1)).foldl
    (fun q j => q * params.getModReduceFactor (sizeQl - (j + 1) - 1))
    (params.getModReduceFactor (sizeQl - 1))

/-- The branch for a first ciphertext at a lower level than the second one. -/
def adjustLower (ciphertext1 ciphertext2 : Ciphertext F) : Option (Ciphertext F) := do
  let cv0 <- ciphertext1.elements[0]?
  let c1lvl := ciphertext1.level
  let c2lvl := ciphertext2.level
  let compositeDegree := params.compositeDegree
  let scf1 := ciphertext1.scalingFactor
  let scf := params.getScalingFactorReal c1lvl
  let q1 := rescaleFactor params cv0.length
  if ciphertext1.noiseScaleDeg = 2 then
    if ciphertext2.noiseScaleDeg = 2 then do
      let scf2 := ciphertext2.scalingFactor
      let c <- evalMultCoreInPlace params ciphertext1 (scf2 / scf1 * q1 / scf)
      let c <- modReduceInternalInPlace cache params c compositeDegree
      let c <- levelReduceBelow c (c1lvl + compositeDegree) c2lvl
      return { c with scalingFactor := ciphertext2.scalingFactor }
    else if c1lvl + compositeDegree = c2lvl then
      modReduceInternalInPlace cache params ciphertext1 compositeDegree
    else do
      let scf2 := params.getScalingFactorRealBig (c2lvl - compositeDegree)
      let c <- evalMultCoreInPlace params ciphertext1 (scf2 / scf1 * q1 / scf)
      let c <- modReduceInternalInPlace cache params c compositeDegree
      let c <- levelReduceBelow c (c1lvl + 2 * compositeDegree) c2lvl
      let c <- modReduceInternalInPlace cache params c compositeDegree
      return { c with scalingFactor := ciphertext2.scalingFactor }
  else if ciphertext2.noiseScaleDeg = 2 then do
    let scf2 := ciphertext2.scalingFactor
    let c <- evalMultCoreInPlace params ciphertext1 (scf2 / scf1 / scf)
    let c <- levelReduceInternalInPlace c (c2lvl - c1lvl)
    return { c with scalingFactor := scf2 }
  else do
    let scf2 := params.getScalingFactorRealBig (c2lvl - compositeDegree)
    let c <- evalMultCoreInPlace params ciphertext1 (scf2 / scf1 / scf)
    let c <- levelReduceBelow c (c1lvl + compositeDegree) c2lvl
    let c <- modReduceInternalInPlace cache params c compositeDegree
    return { c with scalingFactor := ciphertext2.scalingFactor }

/-- The second branch is the first one with the ciphertexts exchanged. -/
def adjustLevelsAndDepthInPlace (ciphertext1 ciphertext2 : Ciphertext F) :
    Option (Ciphertext F × Ciphertext F) :=
  if ciphertext1.level < ciphertext2.level then
    (adjustLower cache params ciphertext1 ciphertext2).map fun c => (c, ciphertext2)
  else if ciphertext1.level > ciphertext2.level then
    (adjustLower cache params ciphertext2 ciphertext1).map fun c => (ciphertext1, c)
  else if ciphertext1.noiseScaleDeg < ciphertext2.noiseScaleDeg then
    (evalMultCoreInPlace params ciphertext1 1).map fun c => (c, ciphertext2)
  else if ciphertext2.noiseScaleDeg < ciphertext1.noiseScaleDeg then
    (evalMultCoreInPlace params ciphertext2 1).map fun c => (ciphertext1, c)
  else some (ciphertext1, ciphertext2)

def adjustLevelsAndDepthToOneInPlace (ciphertext1 ciphertext2 : Ciphertext F) :
    Option (Ciphertext F × Ciphertext F) := do
  let (c1, c2) <- adjustLevelsAndDepthInPlace cache params ciphertext1 ciphertext2
  if c1.noiseScaleDeg = 2 then do
    let c1 <- modReduceInternalInPlace cache params c1 params.compositeDegree
    let c2 <- modReduceInternalInPlace cache params c2 params.compositeDegree
    return (c1, c2)
  else return (c1, c2)

end Operations

/-! ## Towers -/

section Towers

theorem mapM_elements {n : Nat} {source : List Nat} (target : List Nat) {cv : List DCRTPoly}
    {f : DCRTPoly -> Option DCRTPoly} (hcv : WellFormedElements n source cv) (hne : cv ≠ [])
    (hf : forall x, x ∈ cv -> DCRTPoly.WellFormed n .EVALUATION source x ->
      exists y, f x = some y ∧ DCRTPoly.WellFormed n .EVALUATION target y) :
    exists cv', cv.mapM f = some cv' ∧ cv' ≠ [] ∧ WellFormedElements n target cv' := by
  rcases mapM_spec (l := cv) (f := f)
    (fun _ y => DCRTPoly.WellFormed n .EVALUATION target y)
    (fun x hx => hf x hx (hcv x hx)) with ⟨cv', hcv', hlength, hget⟩
  refine ⟨cv', hcv', ?_, ?_⟩
  · rw [← List.length_pos_iff, hlength]
    exact List.length_pos_iff.mpr hne
  · intro y hy
    rcases List.mem_iff_getElem?.mp hy with ⟨i, hi⟩
    have hrange := (List.getElem?_eq_some_iff.mp hi).1
    rw [hlength] at hrange
    exact hget i _ y (List.getElem?_eq_getElem hrange) hi

variable {F : Type} {moduliQ : List Nat} {n : Nat}

structure Leveled (moduliQ : List Nat) (n : Nat) (c : Ciphertext F) : Prop where
  level_lt : c.level < moduliQ.length
  ne_nil : c.elements ≠ []
  elements : WellFormedElements n (moduliQ.take (moduliQ.length - c.level)) c.elements

variable {c : Ciphertext F} (hc : Leveled moduliQ n c)

include hc

theorem Leveled.length_eq {x : DCRTPoly} (hx : x ∈ c.elements) :
    x.length = moduliQ.length - c.level := by
  rw [(hc.elements x hx).length_eq, List.length_take]
  omega

theorem Leveled.first : exists x, c.elements[0]? = some x ∧ x ∈ c.elements ∧
    x.length = moduliQ.length - c.level := by
  have hx := List.getElem?_eq_getElem (List.length_pos_iff.mpr hc.ne_nil)
  have hmem := List.mem_of_getElem? hx
  exact ⟨_, hx, hmem, hc.length_eq hmem⟩

theorem levelReduceInternalInPlace_leveled (levels : Nat)
    (hlevels : c.level + levels < moduliQ.length) :
    exists cv, levelReduceInternalInPlace c levels =
        some { c with elements := cv, level := c.level + levels } ∧
      Leveled moduliQ n { c with elements := cv, level := c.level + levels } := by
  rcases mapM_elements (f := fun y => DCRTPoly.dropLastElements y levels)
    (moduliQ.take (moduliQ.length - (c.level + levels))) hc.elements hc.ne_nil (by
      intro y hy hwf
      have hlength := hc.length_eq hy
      refine ⟨y.take (y.length - levels), ?_, ?_⟩
      · rw [DCRTPoly.dropLastElements, if_neg (by omega)]
      · have htake := hwf.take (y.length - levels)
        rw [List.take_take, Nat.min_eq_left (by omega)] at htake
        rw [show moduliQ.length - (c.level + levels) = y.length - levels by omega]
        exact htake) with ⟨cv, hcv, hne, hwf⟩
  refine ⟨cv, ?_, ⟨hlevels, hne, hwf⟩⟩
  unfold levelReduceInternalInPlace
  rw [hcv]
  rfl

theorem levelReduceInternalInPlace_none {levels : Nat}
    (hlevels : moduliQ.length <= c.level + levels) :
    levelReduceInternalInPlace c levels = none := by
  rcases hc.first with ⟨x, _, hmem, hlength⟩
  have hx : DCRTPoly.dropLastElements x levels = none := by
    rw [DCRTPoly.dropLastElements, if_pos (by omega)]
  rw [levelReduceInternalInPlace, mapM_eq_none hmem hx]
  rfl

omit hc in
theorem levelReduceBelow_of_le {below target : Nat} (hle : target <= below) :
    levelReduceBelow c below target = some c := by
  rw [levelReduceBelow, if_neg (by omega)]

theorem levelReduceBelow_leveled (below target : Nat)
    (htarget : c.level + (target - below) < moduliQ.length) :
    exists cv, levelReduceBelow c below target =
        some { c with elements := cv, level := c.level + (target - below) } ∧
      Leveled moduliQ n { c with elements := cv, level := c.level + (target - below) } := by
  rcases Nat.lt_or_ge below target with hlt | hge
  · rw [levelReduceBelow, if_pos hlt]
    exact levelReduceInternalInPlace_leveled hc _ htarget
  · rw [levelReduceBelow_of_le hge, Nat.sub_eq_zero_of_le hge]
    exact ⟨c.elements, rfl, hc⟩

end Towers

/-! ## Levels -/

section Levels

variable {F : Type} {cache : Poly.TableCache}
  {params : LeveledParameters F} {k : Nat} {psi : Nat -> Nat}

structure Setting (cache : Poly.TableCache) (params : LeveledParameters F) (k : Nat)
    (psi : Nat -> Nat) : Prop where
  pos : 0 < k
  le : k <= 31
  ready : DCRTPoly.ReadyChain cache k psi params.moduliQ
  coprime : params.moduliQ.Pairwise Nat.Coprime
  compositeDegree : 0 < params.compositeDegree

/-- The elements have all towers but those of the levels. -/
structure AtLevel (params : LeveledParameters F) (n : Nat) (c : Ciphertext F) : Prop where
  level_lt : c.level < params.moduliQ.length
  ne_nil : c.elements ≠ []
  elements : WellFormedElements n (params.moduliQ.take (params.moduliQ.length - c.level))
    c.elements

theorem atLevel_iff {n : Nat} {c : Ciphertext F} :
    AtLevel params n c <-> Leveled params.moduliQ n c :=
  ⟨fun h => ⟨h.level_lt, h.ne_nil, h.elements⟩, fun h => ⟨h.level_lt, h.ne_nil, h.elements⟩⟩

theorem AtLevel.length_eq {n : Nat} {c : Ciphertext F} (h : AtLevel params n c)
    {x : DCRTPoly} (hx : x ∈ c.elements) : x.length = params.moduliQ.length - c.level :=
  (atLevel_iff.mp h).length_eq hx

theorem AtLevel.first {n : Nat} {c : Ciphertext F} (h : AtLevel params n c) :
    exists x, c.elements[0]? = some x ∧ x.length = params.moduliQ.length - c.level := by
  rcases (atLevel_iff.mp h).first with ⟨x, hx, _, hlength⟩
  exact ⟨x, hx, hlength⟩

theorem AtLevel.withFactor {n : Nat} {c : Ciphertext F} (h : AtLevel params n c) (factor : F) :
    AtLevel params n { c with scalingFactor := factor } :=
  ⟨h.level_lt, h.ne_nil, h.elements⟩

theorem timesFactors_wellFormed {n : Nat} {moduli : List Nat}
    (hmoduli : forall q, q ∈ moduli -> Poly.NttModulus q) {a : DCRTPoly}
    (ha : DCRTPoly.WellFormed n .EVALUATION moduli a) {factors : List Nat}
    (hfactors : factors.length = a.length) :
    exists b, timesFactors a factors = some b ∧
      DCRTPoly.WellFormed n .EVALUATION moduli b := by
  rcases DCRTPoly.mapTowers_denotes
    (w := fun i q r => DCRTPoly.residues a i q r * (factors.getD i 0 : Nat))
    (fun i t => do
      let c <- factors[i]?
      t.timesInteger c) ha.denotes (by
      intro i q t hq ht
      have hi := (List.getElem?_eq_some_iff.mp hq).1
      have hrange : i < factors.length := by
        rw [hfactors, ha.length_eq]
        exact hi
      have hc := List.getElem?_eq_getElem hrange
      rcases Poly.timesInteger_denotes (hmoduli q (List.mem_of_getElem? hq)) factors[i] ht with
        ⟨u, hu, hdenotes⟩
      refine ⟨u, ?_, ?_⟩
      · rw [hc]
        exact hu
      · rw [List.getD_eq_getElem?_getD, hc]
        exact hdenotes) with ⟨b, hb, hdenotes⟩
  exact ⟨b, hb, hdenotes.wellFormed⟩

variable {c : Ciphertext F} (hc : AtLevel params (2 ^ k) c)

include hc

theorem levelReduceInternalInPlace_spec (levels : Nat)
    (hlevels : c.level + levels < params.moduliQ.length) :
    exists r, levelReduceInternalInPlace c levels = some r ∧ AtLevel params (2 ^ k) r ∧
      r.level = c.level + levels ∧ r.noiseScaleDeg = c.noiseScaleDeg ∧
      r.scalingFactor = c.scalingFactor := by
  rcases levelReduceInternalInPlace_leveled (atLevel_iff.mp hc) levels hlevels with
    ⟨cv, hcv, hr⟩
  exact ⟨_, hcv, atLevel_iff.mpr hr, rfl, rfl, rfl⟩

theorem levelReduceBelow_spec (below target : Nat)
    (htarget : c.level + (target - below) < params.moduliQ.length) :
    exists r, levelReduceBelow c below target = some r ∧ AtLevel params (2 ^ k) r ∧
      r.level = c.level + (target - below) ∧ r.noiseScaleDeg = c.noiseScaleDeg ∧
      r.scalingFactor = c.scalingFactor := by
  rcases levelReduceBelow_leveled (atLevel_iff.mp hc) below target htarget with ⟨cv, hcv, hr⟩
  exact ⟨_, hcv, atLevel_iff.mpr hr, rfl, rfl, rfl⟩

variable (h : Setting cache params k psi)

include h

theorem evalMultCoreInPlace_spec [Mul F] (operand : F) :
    exists r, evalMultCoreInPlace params c operand = some r ∧ AtLevel params (2 ^ k) r ∧
      r.level = c.level ∧ r.noiseScaleDeg = c.noiseScaleDeg + 1 ∧
      r.scalingFactor = c.scalingFactor * params.getScalingFactorReal c.level := by
  rcases hc.first with ⟨x, hx, hlength⟩
  have hfactors := params.factors_length c operand x hx
  rcases mapM_elements (f := fun y => timesFactors y (params.getElementForEvalMult c operand))
    (params.moduliQ.take (params.moduliQ.length - c.level)) hc.elements hc.ne_nil (by
      intro y hy hwf
      exact timesFactors_wellFormed
        (fun q hq => (h.ready q (List.mem_of_mem_take hq)).modulus) hwf
        (by rw [hfactors, hlength, hc.length_eq hy])) with ⟨cv, hcv, hne, hwf⟩
  refine ⟨{ c with
    elements := cv
    noiseScaleDeg := c.noiseScaleDeg + 1
    scalingFactor := c.scalingFactor * params.getScalingFactorReal c.level }, ?_,
    ⟨hc.level_lt, hne, hwf⟩, rfl, rfl, rfl⟩
  unfold evalMultCoreInPlace
  dsimp only
  rw [hcv]
  rfl

end Levels

/-! ## Rescaling -/

section Rescaling

variable {F : Type} [Div F] {cache : Poly.TableCache}
  {params : LeveledParameters F} {k : Nat} {psi : Nat -> Nat}

/-- The scaling factor after `levels` divisions of a ciphertext with `sizeQl` towers. -/
def rescaledFactor (params : LeveledParameters F) (factor : F) (sizeQl levels : Nat) : F :=
  (List.range levels).foldl (fun f i => f / params.getModReduceFactor (sizeQl - 1 - i)) factor

theorem rescaledFactor_succ (factor : F) (sizeQl levels : Nat) :
    rescaledFactor params factor sizeQl (levels + 1) =
      rescaledFactor params factor sizeQl levels /
        params.getModReduceFactor (sizeQl - 1 - levels) := by
  rw [rescaledFactor, List.range_succ, List.foldl_append]
  rfl

theorem divideByLast_last {n : Nat} {a : Ciphertext F} (hne : a.elements ≠ [])
    (hwf : WellFormedElements n (params.moduliQ.take 1) a.elements)
    (hmoduli : params.moduliQ ≠ []) (sizeQl diffQl i : Nat) :
    divideByLast cache params sizeQl diffQl a i = none := by
  have hnone : forall consts inverses format x, x ∈ a.elements ->
      DCRTPoly.dropLastElementAndScale cache consts inverses format x = none := by
    intro consts inverses format x hx
    have hpos := List.length_pos_iff.mpr hmoduli
    have hone : x.length = 1 := by
      rw [(hwf x hx).length_eq, List.length_take]
      omega
    have hdrop : DCRTPoly.dropLastElement x = none := by
      rw [DCRTPoly.dropLastElement, if_neg (by rw [hone]; decide), if_pos hone]
    unfold DCRTPoly.dropLastElementAndScale
    simp only [hdrop, Option.bind_eq_bind, Option.bind_none, Option.bind_fun_none]
  have hx := List.getElem?_eq_getElem (List.length_pos_iff.mpr hne)
  have hmem := List.mem_of_getElem? hx
  rw [divideByLast, mapM_eq_none hmem (hnone _ _ _ _ hmem)]
  rfl

variable (h : Setting cache params k psi)

include h

theorem divideByLast_spec {a : Ciphertext F} {m i sizeQl : Nat} (hm : 0 < m)
    (hsize : sizeQl = m + 1 + i) (hle : sizeQl <= params.moduliQ.length)
    (hne : a.elements ≠ [])
    (hwf : WellFormedElements (2 ^ k) (params.moduliQ.take (m + 1)) a.elements) :
    exists cv, divideByLast cache params sizeQl (params.moduliQ.length - sizeQl) a i =
        some { a with
          elements := cv
          scalingFactor := a.scalingFactor / params.getModReduceFactor (sizeQl - 1 - i) } ∧
      cv ≠ [] ∧ WellFormedElements (2 ^ k) (params.moduliQ.take m) cv := by
  have hl : m < params.moduliQ.length := by omega
  have hql := List.getElem?_eq_getElem hl
  have hsplit : params.moduliQ.take (m + 1) = params.moduliQ.take m ++ [params.moduliQ[m]] :=
    (List.take_append_getElem hl).symm
  have htake : params.moduliQ.take m ≠ [] := by
    rw [← List.length_pos_iff, List.length_take]
    omega
  have hready : DCRTPoly.ReadyChain cache k psi (params.moduliQ.take m ++ [params.moduliQ[m]]) :=
    fun q hq => h.ready q (by rw [← hsplit] at hq; exact List.mem_of_mem_take hq)
  have hcoprime : (params.moduliQ.take m ++ [params.moduliQ[m]]).Pairwise Nat.Coprime := by
    rw [← hsplit]
    exact h.coprime.sublist (List.take_sublist _ _)
  have hindex : params.moduliQ.length - (params.moduliQ.length - sizeQl + i + 1) = m := by omega
  rcases mapM_elements (f := fun y => DCRTPoly.dropLastElementAndScale cache
      (params.qlQlInvModqlDivqlModq (params.moduliQ.length - sizeQl + i))
      (params.qlInvModq (params.moduliQ.length - sizeQl + i)) .EVALUATION y)
    (params.moduliQ.take m) hwf hne (by
      intro y hy hy'
      rw [hsplit] at hy'
      rcases hy'.exists_encodes h.pos h.le hready hcoprime with ⟨p, _, _, hencodes⟩
      rcases DCRTPoly.dropLastElementAndScale_encodes h.pos h.le hready htake hencodes
        (fun q hq => (List.pairwise_append.mp hcoprime).2.2 q hq _ (List.mem_singleton_self _))
        with ⟨consts, inverses, r, z, hconsts, hinverses, hr, _, hrencodes⟩
      refine ⟨r, ?_, DCRTPoly.Denotes.wellFormed hrencodes⟩
      rw [LeveledParameters.qlQlInvModqlDivqlModq, LeveledParameters.qlInvModq]
      rw [hindex, hql, Option.bind_some, Option.bind_some, hconsts, hinverses]
      exact hr) with ⟨cv, hcv, hcvne, hcvwf⟩
  refine ⟨cv, ?_, hcvne, hcvwf⟩
  unfold divideByLast
  rw [hcv]
  rfl

theorem divideByLast_run {a : Ciphertext F} {n sizeQl : Nat} (hn : n < sizeQl)
    (hle : sizeQl <= params.moduliQ.length) (hne : a.elements ≠ [])
    (hwf : WellFormedElements (2 ^ k) (params.moduliQ.take sizeQl) a.elements) :
    exists cv, (List.range n).foldlM
        (divideByLast cache params sizeQl (params.moduliQ.length - sizeQl)) a = some { a with
          elements := cv
          scalingFactor := rescaledFactor params a.scalingFactor sizeQl n } ∧
      cv ≠ [] ∧ WellFormedElements (2 ^ k) (params.moduliQ.take (sizeQl - n)) cv := by
  rcases foldlM_range_spec (n := n) (s := a)
    (f := divideByLast cache params sizeQl (params.moduliQ.length - sizeQl))
    (fun i s => exists cv, s = { a with
        elements := cv
        scalingFactor := rescaledFactor params a.scalingFactor sizeQl i } ∧
      cv ≠ [] ∧ WellFormedElements (2 ^ k) (params.moduliQ.take (sizeQl - i)) cv)
    ⟨a.elements, rfl, hne, hwf⟩ (by
      rintro i hi s ⟨cv, rfl, hcvne, hcvwf⟩
      have hsize : sizeQl = (sizeQl - i - 1) + 1 + i := by omega
      rw [show sizeQl - i = (sizeQl - i - 1) + 1 by omega] at hcvwf
      rcases divideByLast_spec h (a := { a with
          elements := cv
          scalingFactor := rescaledFactor params a.scalingFactor sizeQl i })
        (by omega) hsize hle hcvne hcvwf with
        ⟨cv', hstep, hcvne', hcvwf'⟩
      refine ⟨_, hstep, cv', ?_, hcvne', ?_⟩
      · rw [rescaledFactor_succ]
      · rw [show sizeQl - (i + 1) = sizeQl - i - 1 by omega]
        exact hcvwf') with ⟨s, hs, cv, rfl, hcvne, hcvwf⟩
  exact ⟨cv, hs, hcvne, hcvwf⟩

variable {c : Ciphertext F} (hc : AtLevel params (2 ^ k) c)

include hc

theorem modReduceInternalInPlace_spec
    (hlevel : c.level + params.compositeDegree < params.moduliQ.length) :
    exists r, modReduceInternalInPlace cache params c params.compositeDegree = some r ∧
      AtLevel params (2 ^ k) r ∧ r.level = c.level + params.compositeDegree ∧
      r.noiseScaleDeg = c.noiseScaleDeg - 1 ∧
      r.scalingFactor = rescaledFactor params c.scalingFactor
        (params.moduliQ.length - c.level) params.compositeDegree := by
  rcases hc.first with ⟨x, hx, hlength⟩
  rcases divideByLast_run h (n := params.compositeDegree)
    (a := { c with
      noiseScaleDeg := c.noiseScaleDeg - 1
      level := c.level + params.compositeDegree })
    (show params.compositeDegree < params.moduliQ.length - c.level by omega) (by omega)
    hc.ne_nil hc.elements with ⟨cv, hrun, hne, hwf⟩
  refine ⟨{ c with
    elements := cv
    noiseScaleDeg := c.noiseScaleDeg - 1
    level := c.level + params.compositeDegree
    scalingFactor := rescaledFactor params c.scalingFactor (params.moduliQ.length - c.level)
      params.compositeDegree }, ?_,
    ⟨hlevel, hne, ?_⟩, rfl, rfl, rfl⟩
  · unfold modReduceInternalInPlace
    rw [hx]
    simp only [Option.bind_eq_bind, Option.bind_some, Nat.div_self h.compositeDegree, hlength]
    exact hrun
  · rw [show params.moduliQ.length - (c.level + params.compositeDegree) =
      params.moduliQ.length - c.level - params.compositeDegree by omega]
    exact hwf

theorem modReduceInternalInPlace_last
    (hlast : params.moduliQ.length <= c.level + params.compositeDegree) :
    modReduceInternalInPlace cache params c params.compositeDegree = none := by
  have hlevel := hc.level_lt
  rcases hc.first with ⟨x, hx, hlength⟩
  have hmoduli : params.moduliQ ≠ [] := by
    rw [← List.length_pos_iff]
    omega
  rcases divideByLast_run h (n := params.moduliQ.length - c.level - 1)
    (a := { c with
      noiseScaleDeg := c.noiseScaleDeg - 1
      level := c.level + params.compositeDegree })
    (show params.moduliQ.length - c.level - 1 < params.moduliQ.length - c.level by omega)
    (by omega) hc.ne_nil hc.elements with ⟨cv, hrun, hne, hwf⟩
  rw [show params.moduliQ.length - c.level - (params.moduliQ.length - c.level - 1) = 1 by
    omega] at hwf
  rcases Nat.exists_eq_add_of_le (show params.moduliQ.length - c.level - 1 + 1 <=
    params.compositeDegree by omega) with ⟨rest, hrest⟩
  have hnone : divideByLast cache params (params.moduliQ.length - c.level)
      (params.moduliQ.length - (params.moduliQ.length - c.level)) { c with
        elements := cv
        noiseScaleDeg := c.noiseScaleDeg - 1
        level := c.level + params.compositeDegree
        scalingFactor := rescaledFactor params c.scalingFactor (params.moduliQ.length - c.level)
          (params.moduliQ.length - c.level - 1) } (params.moduliQ.length - c.level - 1) = none :=
    divideByLast_last hne hwf hmoduli _ _ _
  unfold modReduceInternalInPlace
  rw [hx]
  simp only [Option.bind_eq_bind, Option.bind_some, Nat.div_self h.compositeDegree, hlength]
  -- the divisions up to the last tower, that tower, and those that are not reached
  have hsplit : List.range params.compositeDegree =
      List.range (params.moduliQ.length - c.level - 1) ++
        (params.moduliQ.length - c.level - 1) ::
          (List.range rest).map (params.moduliQ.length - c.level - 1 + 1 + ·) := by
    rw [hrest, List.range_add, List.range_succ, List.append_assoc]
    rfl
  rw [hsplit, List.foldlM_append, hrun]
  simp only [Option.bind_eq_bind, Option.bind_some, List.foldlM_cons]
  rw [hnone]
  rfl

theorem modReduceInternalInPlace_cases :
    modReduceInternalInPlace cache params c params.compositeDegree = none ∨
      exists r, modReduceInternalInPlace cache params c params.compositeDegree = some r ∧
        AtLevel params (2 ^ k) r ∧ r.level = c.level + params.compositeDegree := by
  rcases Nat.lt_or_ge (c.level + params.compositeDegree) params.moduliQ.length with hlt | hge
  · rcases modReduceInternalInPlace_spec h hc hlt with ⟨r, hr, hwf, hlevel, _⟩
    exact Or.inr ⟨r, hr, hwf, hlevel⟩
  · exact Or.inl (modReduceInternalInPlace_last h hc hge)

end Rescaling

/-! ## Adjustment -/

section Adjustment

variable {F : Type} [Mul F] [Div F] [One F] {cache : Poly.TableCache}
  {params : LeveledParameters F} {k : Nat} {psi : Nat -> Nat}

/-- The branch that only rescales. -/
def OnlyRescaled (params : LeveledParameters F) (c1 c2 : Ciphertext F) : Prop :=
  c1.noiseScaleDeg = 2 ∧ c2.noiseScaleDeg ≠ 2 ∧ c1.level + params.compositeDegree = c2.level

instance (c1 c2 : Ciphertext F) : Decidable (OnlyRescaled params c1 c2) :=
  inferInstanceAs (Decidable (_ ∧ _ ∧ _))

/-- The levels that the branch for a lower ciphertext rescales away. -/
def levelsRescaled (params : LeveledParameters F) (c1 c2 : Ciphertext F) : Nat :=
  if c1.noiseScaleDeg = 2 then
    if c2.noiseScaleDeg = 2 ∨ c1.level + params.compositeDegree = c2.level then
      params.compositeDegree
    else 2 * params.compositeDegree
  else if c2.noiseScaleDeg = 2 then 0
  else params.compositeDegree

def lowerDegree (degree1 degree2 : Nat) : Nat :=
  if degree1 = 2 then
    if degree2 = 2 then 2 else 1
  else if degree2 = 2 then degree1 + 1
  else degree1

variable (h : Setting cache params k psi) {c1 c2 : Ciphertext F}
  (h1 : AtLevel params (2 ^ k) c1) (h2 : AtLevel params (2 ^ k) c2)

include h h1 h2

omit [One F] in
theorem adjustLower_spec (hlt : c1.level < c2.level)
    (hroom : c1.level + levelsRescaled params c1 c2 <= c2.level) :
    exists r, adjustLower cache params c1 c2 = some r ∧ AtLevel params (2 ^ k) r ∧
      r.level = c2.level ∧ r.noiseScaleDeg = lowerDegree c1.noiseScaleDeg c2.noiseScaleDeg ∧
      r.scalingFactor = if OnlyRescaled params c1 c2 then
        rescaledFactor params c1.scalingFactor (params.moduliQ.length - c1.level)
          params.compositeDegree
        else c2.scalingFactor := by
  have hlevel := h2.level_lt
  rcases h1.first with ⟨x, hx, _⟩
  unfold levelsRescaled at hroom
  unfold adjustLower lowerDegree
  rw [hx]
  simp only [Option.bind_eq_bind, Option.bind_some]
  rcases eq_or_ne c1.noiseScaleDeg 2 with htwo1 | hne1
  · rw [if_pos htwo1] at hroom ⊢
    rw [if_pos htwo1]
    rcases eq_or_ne c2.noiseScaleDeg 2 with htwo2 | hne2
    · rw [if_pos (Or.inl htwo2)] at hroom
      rw [if_pos htwo2, if_pos htwo2,
        if_neg (show ¬ OnlyRescaled params c1 c2 from fun hr => hr.2.1 htwo2)]
      rcases evalMultCoreInPlace_spec h1 h (c2.scalingFactor / c1.scalingFactor *
        rescaleFactor params x.length / params.getScalingFactorReal c1.level) with
        ⟨a, ha, hawf, hal, had, _⟩
      rcases modReduceInternalInPlace_spec h hawf (by omega) with ⟨b, hb, hbwf, hbl, hbd, _⟩
      rcases levelReduceBelow_spec hbwf (c1.level + params.compositeDegree) c2.level (by omega)
        with ⟨d, hd, hdwf, hdl, hdd, _⟩
      simp only [ha, Option.bind_some, hb, hd]
      exact ⟨_, rfl, hdwf.withFactor _, by rw [hdl]; omega, by rw [hdd]; omega, rfl⟩
    · rw [if_neg hne2, if_neg hne2]
      rcases eq_or_ne (c1.level + params.compositeDegree) c2.level with heq | hgap
      · rw [if_pos heq, if_pos ⟨htwo1, hne2, heq⟩]
        rcases modReduceInternalInPlace_spec h h1 (by omega) with ⟨d, hd, hdwf, hdl, hdd, hdf⟩
        exact ⟨d, hd, hdwf, by omega, by omega, hdf⟩
      · rw [if_neg (not_or.mpr ⟨hne2, hgap⟩)] at hroom
        rw [if_neg hgap, if_neg (show ¬ OnlyRescaled params c1 c2 from fun hr => hgap hr.2.2)]
        rcases evalMultCoreInPlace_spec h1 h
          (params.getScalingFactorRealBig (c2.level - params.compositeDegree) /
            c1.scalingFactor * rescaleFactor params x.length /
              params.getScalingFactorReal c1.level) with ⟨a, ha, hawf, hal, had, _⟩
        rcases modReduceInternalInPlace_spec h hawf (by omega) with ⟨b, hb, hbwf, hbl, hbd, _⟩
        rcases levelReduceBelow_spec hbwf (c1.level + 2 * params.compositeDegree) c2.level
          (by omega) with ⟨d, hd, hdwf, hdl, hdd, _⟩
        rcases modReduceInternalInPlace_spec h hdwf (by omega) with ⟨e, he, hewf, hel, hed, _⟩
        simp only [ha, Option.bind_some, hb, hd, he]
        exact ⟨_, rfl, hewf.withFactor _, by rw [hel, hdl]; omega, by rw [hed, hdd]; omega, rfl⟩
  · rw [if_neg hne1] at hroom ⊢
    rw [if_neg hne1, if_neg (show ¬ OnlyRescaled params c1 c2 from fun hr => hne1 hr.1)]
    rcases eq_or_ne c2.noiseScaleDeg 2 with htwo2 | hne2
    · rw [if_pos htwo2, if_pos htwo2]
      rcases evalMultCoreInPlace_spec h1 h (c2.scalingFactor / c1.scalingFactor /
        params.getScalingFactorReal c1.level) with ⟨a, ha, hawf, hal, had, _⟩
      rcases levelReduceInternalInPlace_spec hawf (c2.level - c1.level) (by omega) with
        ⟨b, hb, hbwf, hbl, hbd, _⟩
      simp only [ha, Option.bind_some, hb]
      exact ⟨_, rfl, hbwf.withFactor _, by rw [hbl]; omega, by rw [hbd]; omega, rfl⟩
    · rw [if_neg hne2] at hroom
      rw [if_neg hne2, if_neg hne2]
      rcases evalMultCoreInPlace_spec h1 h
        (params.getScalingFactorRealBig (c2.level - params.compositeDegree) / c1.scalingFactor /
          params.getScalingFactorReal c1.level) with ⟨a, ha, hawf, hal, had, _⟩
      rcases levelReduceBelow_spec hawf (c1.level + params.compositeDegree) c2.level (by omega)
        with ⟨b, hb, hbwf, hbl, hbd, _⟩
      rcases modReduceInternalInPlace_spec h hbwf (by omega) with ⟨d, hd, hdwf, hdl, hdd, _⟩
      simp only [ha, Option.bind_some, hb, hd]
      exact ⟨_, rfl, hdwf.withFactor _, by rw [hdl, hbl]; omega, by rw [hdd, hbd]; omega, rfl⟩

omit [One F] h2 in
theorem adjustLower_noRoom
    (hroom : c2.level < c1.level + levelsRescaled params c1 c2) (hlt : c1.level < c2.level) :
    adjustLower cache params c1 c2 = none ∨
      exists r, adjustLower cache params c1 c2 = some r ∧ AtLevel params (2 ^ k) r ∧
        c2.level < r.level := by
  rcases h1.first with ⟨x, hx, _⟩
  unfold levelsRescaled at hroom
  unfold adjustLower
  rw [hx]
  simp only [Option.bind_eq_bind, Option.bind_some]
  rcases eq_or_ne c1.noiseScaleDeg 2 with htwo1 | hne1
  · rw [if_pos htwo1] at hroom
    rw [if_pos htwo1]
    rcases eq_or_ne c2.noiseScaleDeg 2 with htwo2 | hne2
    · rw [if_pos (Or.inl htwo2)] at hroom
      rw [if_pos htwo2]
      rcases evalMultCoreInPlace_spec h1 h (c2.scalingFactor / c1.scalingFactor *
        rescaleFactor params x.length / params.getScalingFactorReal c1.level) with
        ⟨a, ha, hawf, hal, _⟩
      have hkeep : forall c : Ciphertext F,
          levelReduceBelow c (c1.level + params.compositeDegree) c2.level = some c :=
        fun c => levelReduceBelow_of_le hroom.le
      simp only [ha, Option.bind_some, hkeep]
      rcases modReduceInternalInPlace_cases h hawf with hb | ⟨b, hb, hbwf, hbl⟩
      · rw [hb]
        exact Or.inl rfl
      · rw [hb]
        exact Or.inr ⟨_, rfl, hbwf.withFactor _, by rw [hbl]; omega⟩
    · have hgap : c1.level + params.compositeDegree ≠ c2.level := by
        intro heq
        rw [if_pos (Or.inr heq)] at hroom
        omega
      rw [if_neg (not_or.mpr ⟨hne2, hgap⟩)] at hroom
      rw [if_neg hne2, if_neg hgap]
      rcases evalMultCoreInPlace_spec h1 h
        (params.getScalingFactorRealBig (c2.level - params.compositeDegree) /
          c1.scalingFactor * rescaleFactor params x.length /
            params.getScalingFactorReal c1.level) with ⟨a, ha, hawf, hal, _⟩
      have hkeep : forall c : Ciphertext F,
          levelReduceBelow c (c1.level + 2 * params.compositeDegree) c2.level = some c :=
        fun c => levelReduceBelow_of_le hroom.le
      simp only [ha, Option.bind_some, hkeep]
      rcases modReduceInternalInPlace_cases h hawf with hb | ⟨b, hb, hbwf, hbl⟩
      · rw [hb]
        exact Or.inl rfl
      · simp only [hb, Option.bind_some]
        rcases modReduceInternalInPlace_cases h hbwf with hd | ⟨d, hd, hdwf, hdl⟩
        · rw [hd]
          exact Or.inl rfl
        · rw [hd]
          exact Or.inr ⟨_, rfl, hdwf.withFactor _, by rw [hdl, hbl]; omega⟩
  · rw [if_neg hne1] at hroom
    rw [if_neg hne1]
    rcases eq_or_ne c2.noiseScaleDeg 2 with htwo2 | hne2
    · rw [if_pos htwo2] at hroom
      omega
    · rw [if_neg hne2] at hroom
      rw [if_neg hne2]
      rcases evalMultCoreInPlace_spec h1 h
        (params.getScalingFactorRealBig (c2.level - params.compositeDegree) / c1.scalingFactor /
          params.getScalingFactorReal c1.level) with ⟨a, ha, hawf, hal, _⟩
      have hkeep : forall c : Ciphertext F,
          levelReduceBelow c (c1.level + params.compositeDegree) c2.level = some c :=
        fun c => levelReduceBelow_of_le hroom.le
      simp only [ha, Option.bind_some, hkeep]
      rcases modReduceInternalInPlace_cases h hawf with hb | ⟨b, hb, hbwf, hbl⟩
      · rw [hb]
        exact Or.inl rfl
      · rw [hb]
        exact Or.inr ⟨_, rfl, hbwf.withFactor _, by rw [hbl]; omega⟩

/-- The scaling factor of a ciphertext after its adjustment to the other one. -/
def adjustedFactor (params : LeveledParameters F) (c other : Ciphertext F) : F :=
  if c.level < other.level then
    if OnlyRescaled params c other then
      rescaledFactor params c.scalingFactor (params.moduliQ.length - c.level)
        params.compositeDegree
    else other.scalingFactor
  else if c.level = other.level ∧ c.noiseScaleDeg < other.noiseScaleDeg then
    c.scalingFactor * params.getScalingFactorReal c.level
  else c.scalingFactor

def adjustedDegree (c other : Ciphertext F) : Nat :=
  if c.level < other.level then lowerDegree c.noiseScaleDeg other.noiseScaleDeg
  else if c.level = other.level ∧ c.noiseScaleDeg < other.noiseScaleDeg then c.noiseScaleDeg + 1
  else c.noiseScaleDeg

omit [One F] h h1 h2 in
theorem adjustedFactor_above {c other : Ciphertext F} (hlt : other.level < c.level) :
    adjustedFactor params c other = c.scalingFactor := by
  rw [adjustedFactor, if_neg (by omega), if_neg (by omega)]

omit [One F] h h1 h2 in
theorem adjustedFactor_level {c other : Ciphertext F} (heq : c.level = other.level) :
    adjustedFactor params c other = if c.noiseScaleDeg < other.noiseScaleDeg then
      c.scalingFactor * params.getScalingFactorReal c.level else c.scalingFactor := by
  rw [adjustedFactor, if_neg (by omega)]
  simp only [heq, true_and]

omit [Mul F] [Div F] [One F] h h1 h2 in
theorem adjustedDegree_above {c other : Ciphertext F} (hlt : other.level < c.level) :
    adjustedDegree c other = c.noiseScaleDeg := by
  rw [adjustedDegree, if_neg (by omega), if_neg (by omega)]

omit [Mul F] [Div F] [One F] h h1 h2 in
theorem adjustedDegree_level {c other : Ciphertext F} (heq : c.level = other.level) :
    adjustedDegree c other = if c.noiseScaleDeg < other.noiseScaleDeg then
      c.noiseScaleDeg + 1 else c.noiseScaleDeg := by
  rw [adjustedDegree, if_neg (by omega)]
  simp only [heq, true_and]

/-- Adjusted ciphertexts, whose degrees and factors may still differ. -/
structure Levelled (params : LeveledParameters F) (n : Nat) (c1 c2 r1 r2 : Ciphertext F) :
    Prop where
  first : AtLevel params n r1
  second : AtLevel params n r2
  first_level : r1.level = max c1.level c2.level
  second_level : r2.level = max c1.level c2.level
  first_degree : r1.noiseScaleDeg = adjustedDegree c1 c2
  second_degree : r2.noiseScaleDeg = adjustedDegree c2 c1
  first_factor : r1.scalingFactor = adjustedFactor params c1 c2
  second_factor : r2.scalingFactor = adjustedFactor params c2 c1

omit [One F] h h1 h2 in
theorem Levelled.swap {n : Nat} {r1 r2 : Ciphertext F}
    (hlevelled : Levelled params n c1 c2 r1 r2) : Levelled params n c2 c1 r2 r1 := by
  constructor
  · exact hlevelled.second
  · exact hlevelled.first
  · rw [hlevelled.second_level, Nat.max_comm]
  · rw [hlevelled.first_level, Nat.max_comm]
  · exact hlevelled.second_degree
  · exact hlevelled.first_degree
  · exact hlevelled.second_factor
  · exact hlevelled.first_factor

theorem adjustLevelsAndDepthInPlace_lower (hlt : c1.level < c2.level)
    (hroom : c1.level + levelsRescaled params c1 c2 <= c2.level) :
    exists r, adjustLevelsAndDepthInPlace cache params c1 c2 = some (r, c2) ∧
      adjustLevelsAndDepthInPlace cache params c2 c1 = some (c2, r) ∧
      Levelled params (2 ^ k) c1 c2 r c2 := by
  rcases adjustLower_spec h h1 h2 hlt hroom with ⟨r, hr, hwf, hlevel, hdegree, hfactor⟩
  refine ⟨r, ?_, ?_, hwf, h2, by omega, by omega, ?_, ?_, ?_, ?_⟩
  · rw [adjustLevelsAndDepthInPlace, if_pos hlt, hr]
    rfl
  · rw [adjustLevelsAndDepthInPlace, if_neg (by omega), if_pos hlt, hr]
    rfl
  · rw [adjustedDegree, if_pos hlt, hdegree]
  · exact (adjustedDegree_above hlt).symm
  · rw [adjustedFactor, if_pos hlt, hfactor]
  · exact (adjustedFactor_above hlt).symm

theorem adjustLevelsAndDepthInPlace_level (heq : c1.level = c2.level)
    (hle : c1.noiseScaleDeg <= c2.noiseScaleDeg) :
    exists r, adjustLevelsAndDepthInPlace cache params c1 c2 = some (r, c2) ∧
      adjustLevelsAndDepthInPlace cache params c2 c1 = some (c2, r) ∧
      Levelled params (2 ^ k) c1 c2 r c2 := by
  unfold adjustLevelsAndDepthInPlace
  rw [if_neg (show ¬ c1.level < c2.level by omega), if_neg (show ¬ c1.level > c2.level by omega)]
  rw [if_neg (show ¬ c2.level < c1.level by omega), if_neg (show ¬ c2.level > c1.level by omega)]
  have hsecond_degree : c2.noiseScaleDeg = adjustedDegree c2 c1 := by
    rw [adjustedDegree_level heq.symm, if_neg (by omega)]
  have hsecond_factor : c2.scalingFactor = adjustedFactor params c2 c1 := by
    rw [adjustedFactor_level heq.symm, if_neg (by omega)]
  rcases hle.eq_or_lt with hdegree | hlt
  · rw [if_neg (by omega), if_neg (by omega), if_neg (by omega), if_neg (by omega)]
    refine ⟨c1, rfl, rfl, h1, h2, by omega, by omega, ?_, hsecond_degree, ?_, hsecond_factor⟩
    · rw [adjustedDegree_level heq, if_neg (by omega)]
    · rw [adjustedFactor_level heq, if_neg (by omega)]
  · rcases evalMultCoreInPlace_spec h1 h 1 with ⟨r, hr, hwf, hlevel, hdegree, hfactor⟩
    rw [if_pos hlt, if_neg (by omega), if_pos hlt, hr]
    refine ⟨r, rfl, rfl, hwf, h2, by omega, by omega, ?_, hsecond_degree, ?_, hsecond_factor⟩
    · rw [adjustedDegree_level heq, if_pos hlt, hdegree]
    · rw [adjustedFactor_level heq, if_pos hlt, hfactor]

/-- The levels between the ciphertexts are enough for the rescalings. -/
def RoomBetween (params : LeveledParameters F) (c1 c2 : Ciphertext F) : Prop :=
  (c1.level < c2.level -> c1.level + levelsRescaled params c1 c2 <= c2.level) ∧
    (c2.level < c1.level -> c2.level + levelsRescaled params c2 c1 <= c1.level)

instance (c1 c2 : Ciphertext F) : Decidable (RoomBetween params c1 c2) :=
  inferInstanceAs (Decidable (_ ∧ _))

omit [Mul F] [Div F] [One F] h h1 h2 in
theorem levelsRescaled_of_dvd (hdvd1 : params.compositeDegree ∣ c1.level)
    (hdvd2 : params.compositeDegree ∣ c2.level) (hlt : c1.level < c2.level) :
    c1.level + levelsRescaled params c1 c2 <= c2.level := by
  have hgap := Nat.le_of_dvd (by omega) (Nat.dvd_sub hdvd2 hdvd1)
  unfold levelsRescaled
  split
  · split
    next _ => omega
    next hnot =>
      rcases not_or.mp hnot with ⟨_, hne⟩
      have hdvd : params.compositeDegree ∣ c1.level + params.compositeDegree :=
        Nat.dvd_add hdvd1 (Nat.dvd_refl _)
      have hgap2 := Nat.le_of_dvd (by omega) (Nat.dvd_sub hdvd2 hdvd)
      omega
  · split
    · omega
    · omega

omit [Mul F] [Div F] [One F] h h1 h2 in
theorem roomBetween_of_dvd (hdvd1 : params.compositeDegree ∣ c1.level)
    (hdvd2 : params.compositeDegree ∣ c2.level) : RoomBetween params c1 c2 :=
  ⟨levelsRescaled_of_dvd hdvd1 hdvd2, levelsRescaled_of_dvd hdvd2 hdvd1⟩

theorem adjustLevelsAndDepthInPlace_spec (hroom : RoomBetween params c1 c2) :
    exists r1 r2, adjustLevelsAndDepthInPlace cache params c1 c2 = some (r1, r2) ∧
      adjustLevelsAndDepthInPlace cache params c2 c1 = some (r2, r1) ∧
      Levelled params (2 ^ k) c1 c2 r1 r2 := by
  rcases Nat.lt_trichotomy c1.level c2.level with hlt | heq | hgt
  · rcases adjustLevelsAndDepthInPlace_lower h h1 h2 hlt (hroom.1 hlt) with
      ⟨r, hrun, hswap, hlevelled⟩
    exact ⟨r, c2, hrun, hswap, hlevelled⟩
  · rcases Nat.le_total c1.noiseScaleDeg c2.noiseScaleDeg with hle | hge
    · rcases adjustLevelsAndDepthInPlace_level h h1 h2 heq hle with ⟨r, hrun, hswap, hlevelled⟩
      exact ⟨r, c2, hrun, hswap, hlevelled⟩
    · rcases adjustLevelsAndDepthInPlace_level h h2 h1 heq.symm hge with
        ⟨r, hrun, hswap, hlevelled⟩
      exact ⟨c1, r, hswap, hrun, hlevelled.swap⟩
  · rcases adjustLevelsAndDepthInPlace_lower h h2 h1 hgt (hroom.2 hgt) with
      ⟨r, hrun, hswap, hlevelled⟩
    exact ⟨c1, r, hswap, hrun, hlevelled.swap⟩

theorem adjustLevelsAndDepthInPlace_noRoom (hnot : ¬ RoomBetween params c1 c2) :
    adjustLevelsAndDepthInPlace cache params c1 c2 = none ∨
      exists r1 r2, adjustLevelsAndDepthInPlace cache params c1 c2 = some (r1, r2) ∧
        AtLevel params (2 ^ k) r1 ∧ AtLevel params (2 ^ k) r2 ∧ r1.level ≠ r2.level := by
  unfold adjustLevelsAndDepthInPlace
  rcases Nat.lt_trichotomy c1.level c2.level with hlt | heq | hgt
  · have hroom : c2.level < c1.level + levelsRescaled params c1 c2 := by
      apply Nat.lt_of_not_le
      intro hle
      exact hnot ⟨fun _ => hle, fun hgt => absurd hgt (by omega)⟩
    rw [if_pos hlt]
    rcases adjustLower_noRoom h h1 hroom hlt with hr | ⟨r, hr, hwf, hlevel⟩
    · rw [hr]
      exact Or.inl rfl
    · rw [hr]
      exact Or.inr ⟨r, c2, rfl, hwf, h2, by omega⟩
  · exact absurd ⟨fun hlt => absurd hlt (by omega), fun hgt => absurd hgt (by omega)⟩ hnot
  · have hroom : c1.level < c2.level + levelsRescaled params c2 c1 := by
      apply Nat.lt_of_not_le
      intro hle
      exact hnot ⟨fun hlt => absurd hlt (by omega), fun _ => hle⟩
    rw [if_neg (by omega), if_pos hgt]
    rcases adjustLower_noRoom h h2 hroom hgt with hr | ⟨r, hr, hwf, hlevel⟩
    · rw [hr]
      exact Or.inl rfl
    · rw [hr]
      exact Or.inr ⟨c1, r, rfl, h1, hwf, by omega⟩

/-! ## Adjustment to the degree one -/

def TowersLeft (params : LeveledParameters F) (c1 c2 : Ciphertext F) : Prop :=
  adjustedDegree c1 c2 = 2 ->
    max c1.level c2.level + params.compositeDegree < params.moduliQ.length

instance (c1 c2 : Ciphertext F) : Decidable (TowersLeft params c1 c2) :=
  inferInstanceAs (Decidable (_ -> _))

/-- A factor after the adjustment to the degree one, by the degree of the first ciphertext. -/
def factorToOne (params : LeveledParameters F) (c1 c2 : Ciphertext F) (factor : F) : F :=
  if adjustedDegree c1 c2 = 2 then
    rescaledFactor params factor (params.moduliQ.length - max c1.level c2.level)
      params.compositeDegree
  else factor

/-- Adjusted ciphertexts of one level, whose factors may still differ. -/
structure LevelledToOne (params : LeveledParameters F) (n : Nat) (c1 c2 r1 r2 : Ciphertext F) :
    Prop where
  first : AtLevel params n r1
  second : AtLevel params n r2
  level_eq : r1.level = r2.level
  first_degree : r1.noiseScaleDeg =
    if adjustedDegree c1 c2 = 2 then 1 else adjustedDegree c1 c2
  second_degree : r2.noiseScaleDeg =
    if adjustedDegree c1 c2 = 2 then adjustedDegree c2 c1 - 1 else adjustedDegree c2 c1
  first_factor : r1.scalingFactor = factorToOne params c1 c2 (adjustedFactor params c1 c2)
  second_factor : r2.scalingFactor = factorToOne params c1 c2 (adjustedFactor params c2 c1)

theorem adjustLevelsAndDepthToOneInPlace_spec (hroom : RoomBetween params c1 c2)
    (hleft : TowersLeft params c1 c2) :
    exists r1 r2, adjustLevelsAndDepthToOneInPlace cache params c1 c2 = some (r1, r2) ∧
      LevelledToOne params (2 ^ k) c1 c2 r1 r2 := by
  rcases adjustLevelsAndDepthInPlace_spec h h1 h2 hroom with ⟨r1, r2, hrun, _, hlevelled⟩
  unfold adjustLevelsAndDepthToOneInPlace
  simp only [hrun, Option.bind_eq_bind, Option.bind_some]
  have hl1 := hlevelled.first_level
  have hl2 := hlevelled.second_level
  have hf1 := hlevelled.first_factor
  have hf2 := hlevelled.second_factor
  rw [hlevelled.first_degree]
  rcases eq_or_ne (adjustedDegree c1 c2) 2 with htwo | hne
  · have hlt := hleft htwo
    rw [if_pos htwo]
    rcases modReduceInternalInPlace_spec h hlevelled.first (by rw [hl1]; exact hlt) with
      ⟨s1, hs1, hwf1, hsl1, hsd1, hsf1⟩
    rcases modReduceInternalInPlace_spec h hlevelled.second (by rw [hl2]; exact hlt) with
      ⟨s2, hs2, hwf2, hsl2, hsd2, hsf2⟩
    simp only [hs1, hs2, Option.bind_some]
    refine ⟨s1, s2, rfl, hwf1, hwf2, ?_, ?_, ?_, ?_, ?_⟩
    · rw [hsl1, hsl2, hl1, hl2]
    · rw [hsd1, hlevelled.first_degree, if_pos htwo, htwo]
    · rw [hsd2, hlevelled.second_degree, if_pos htwo]
    · rw [factorToOne, if_pos htwo, hsf1, hf1, hl1]
    · rw [factorToOne, if_pos htwo, hsf2, hf2, hl2]
  · rw [if_neg hne]
    refine ⟨r1, r2, rfl, hlevelled.first, hlevelled.second, ?_, ?_, ?_, ?_, ?_⟩
    · rw [hl1, hl2]
    · rw [hlevelled.first_degree, if_neg hne]
    · rw [hlevelled.second_degree, if_neg hne]
    · rw [factorToOne, if_neg hne, hf1]
    · rw [factorToOne, if_neg hne, hf2]

theorem adjustLevelsAndDepthToOneInPlace_last (hroom : RoomBetween params c1 c2)
    (hleft : ¬ TowersLeft params c1 c2) :
    adjustLevelsAndDepthToOneInPlace cache params c1 c2 = none := by
  rcases adjustLevelsAndDepthInPlace_spec h h1 h2 hroom with ⟨r1, r2, hrun, _, hlevelled⟩
  rw [TowersLeft, Classical.not_imp, Nat.not_lt] at hleft
  rcases hleft with ⟨htwo, hge⟩
  have hnone := modReduceInternalInPlace_last h hlevelled.first
    (by rw [hlevelled.first_level]; exact hge)
  unfold adjustLevelsAndDepthToOneInPlace
  simp only [hrun, Option.bind_eq_bind, Option.bind_some]
  rw [hlevelled.first_degree, if_pos htwo, hnone]
  rfl

theorem adjustLevelsAndDepthToOneInPlace_noRoom (hnot : ¬ RoomBetween params c1 c2) :
    adjustLevelsAndDepthToOneInPlace cache params c1 c2 = none ∨
      exists r1 r2, adjustLevelsAndDepthToOneInPlace cache params c1 c2 = some (r1, r2) ∧
        AtLevel params (2 ^ k) r1 ∧ AtLevel params (2 ^ k) r2 ∧ r1.level ≠ r2.level := by
  unfold adjustLevelsAndDepthToOneInPlace
  rcases adjustLevelsAndDepthInPlace_noRoom h h1 h2 hnot with hrun | ⟨r1, r2, hrun, hwf1, hwf2, hne⟩
  · rw [hrun]
    exact Or.inl rfl
  · simp only [hrun, Option.bind_eq_bind, Option.bind_some]
    split
    · rcases modReduceInternalInPlace_cases h hwf1 with hs1 | ⟨s1, hs1, hswf1, hsl1⟩
      · rw [hs1]
        exact Or.inl rfl
      · rcases modReduceInternalInPlace_cases h hwf2 with hs2 | ⟨s2, hs2, hswf2, hsl2⟩
        · simp only [hs1, hs2, Option.bind_some]
          exact Or.inl rfl
        · simp only [hs1, hs2, Option.bind_some]
          exact Or.inr ⟨s1, s2, rfl, hswf1, hswf2, by omega⟩
    · exact Or.inr ⟨r1, r2, rfl, hwf1, hwf2, hne⟩

/-! ## Matching ciphertexts -/

/-- The noise scale degrees of the automatic techniques. -/
def DegreeOneOrTwo (c : Ciphertext F) : Prop := c.noiseScaleDeg = 1 ∨ c.noiseScaleDeg = 2

variable (hd1 : DegreeOneOrTwo c1) (hd2 : DegreeOneOrTwo c2)

include hd1 hd2

omit [Mul F] [Div F] [One F] h h1 h2 in
theorem lowerDegree_eq : lowerDegree c1.noiseScaleDeg c2.noiseScaleDeg = c2.noiseScaleDeg := by
  rcases hd1 with hone | htwo <;> rcases hd2 with hone' | htwo'
  · rw [hone, hone']
    rfl
  · rw [hone, htwo']
    rfl
  · rw [htwo, hone']
    rfl
  · rw [htwo, htwo']
    rfl

omit [Mul F] [Div F] [One F] h h1 h2 in
theorem adjustedDegree_comm : adjustedDegree c1 c2 = adjustedDegree c2 c1 := by
  rcases Nat.lt_trichotomy c1.level c2.level with hlt | heq | hgt
  · rw [adjustedDegree_above hlt, adjustedDegree, if_pos hlt, lowerDegree_eq hd1 hd2]
  · rw [adjustedDegree_level heq, adjustedDegree_level heq.symm]
    rcases hd1 with hone | htwo <;> rcases hd2 with hone' | htwo' <;> split <;> split <;> omega
  · rw [adjustedDegree_above hgt, adjustedDegree, if_pos hgt, lowerDegree_eq hd2 hd1]

omit [Mul F] [Div F] [One F] h h1 h2 in
theorem adjustedDegree_cases : adjustedDegree c1 c2 = 1 ∨ adjustedDegree c1 c2 = 2 := by
  rcases Nat.lt_trichotomy c1.level c2.level with hlt | heq | hgt
  · rw [adjustedDegree, if_pos hlt, lowerDegree_eq hd1 hd2]
    exact hd2
  · rw [adjustedDegree_level heq]
    rcases hd1 with hone | htwo <;> rcases hd2 with hone' | htwo' <;> split <;> omega
  · rw [adjustedDegree_above hgt]
    exact hd1

/--
The scaling factors fit together in the branches that do not take over the factor of the
other ciphertext.
-/
def FactorsMeet (params : LeveledParameters F) (c1 c2 : Ciphertext F) : Prop :=
  if c1.level < c2.level then
    OnlyRescaled params c1 c2 -> rescaledFactor params c1.scalingFactor
      (params.moduliQ.length - c1.level) params.compositeDegree = c2.scalingFactor
  else if c2.level < c1.level then
    OnlyRescaled params c2 c1 -> rescaledFactor params c2.scalingFactor
      (params.moduliQ.length - c2.level) params.compositeDegree = c1.scalingFactor
  else if c1.noiseScaleDeg < c2.noiseScaleDeg then
    c1.scalingFactor * params.getScalingFactorReal c1.level = c2.scalingFactor
  else if c2.noiseScaleDeg < c1.noiseScaleDeg then
    c2.scalingFactor * params.getScalingFactorReal c2.level = c1.scalingFactor
  else c1.scalingFactor = c2.scalingFactor

omit [One F] h h1 h2 hd1 hd2 in
theorem adjustedFactor_lower_iff {c other : Ciphertext F} (hlt : c.level < other.level) :
    adjustedFactor params c other = adjustedFactor params other c <->
      (OnlyRescaled params c other -> rescaledFactor params c.scalingFactor
        (params.moduliQ.length - c.level) params.compositeDegree = other.scalingFactor) := by
  rw [adjustedFactor_above hlt, adjustedFactor, if_pos hlt]
  split
  next hrescaled => exact ⟨fun heq _ => heq, fun himp => himp hrescaled⟩
  next hnot => exact ⟨fun _ hrescaled => absurd hrescaled hnot, fun _ => rfl⟩

omit [One F] h h1 h2 hd1 hd2 in
theorem factorsMeet_iff : FactorsMeet params c1 c2 <->
    adjustedFactor params c1 c2 = adjustedFactor params c2 c1 := by
  unfold FactorsMeet
  rcases Nat.lt_trichotomy c1.level c2.level with hlt | heq | hgt
  · rw [if_pos hlt]
    exact (adjustedFactor_lower_iff hlt).symm
  · rw [if_neg (by omega), if_neg (by omega)]
    rw [adjustedFactor_level heq, adjustedFactor_level heq.symm]
    rcases Nat.lt_trichotomy c1.noiseScaleDeg c2.noiseScaleDeg with hdlt | hdeq | hdgt
    · rw [if_pos hdlt, if_pos hdlt, if_neg (by omega)]
    · rw [if_neg (by omega), if_neg (by omega), if_neg (by omega), if_neg (by omega)]
    · rw [if_neg (by omega), if_pos hdgt, if_neg (by omega), if_pos hdgt]
      exact eq_comm
  · rw [if_neg (by omega), if_pos hgt]
    exact (adjustedFactor_lower_iff hgt).symm.trans eq_comm

theorem adjustLevelsAndDepthToOneInPlace_swap (hroom : RoomBetween params c1 c2) :
    adjustLevelsAndDepthToOneInPlace cache params c2 c1 =
      (adjustLevelsAndDepthToOneInPlace cache params c1 c2).map Prod.swap := by
  rcases adjustLevelsAndDepthInPlace_spec h h1 h2 hroom with ⟨r1, r2, hrun, hswap, hlevelled⟩
  unfold adjustLevelsAndDepthToOneInPlace
  simp only [hrun, hswap, Option.bind_eq_bind, Option.bind_some]
  rw [hlevelled.first_degree, hlevelled.second_degree, adjustedDegree_comm hd2 hd1]
  split
  · cases modReduceInternalInPlace cache params r1 params.compositeDegree with
    | none =>
        cases modReduceInternalInPlace cache params r2 params.compositeDegree with
        | none => rfl
        | some s2 => rfl
    | some s1 =>
        cases modReduceInternalInPlace cache params r2 params.compositeDegree with
        | none => rfl
        | some s2 => rfl
  · rfl

/-- Equal level, degree and scaling factor, and the towers of that level. -/
structure Matched (params : LeveledParameters F) (n : Nat) (c1 c2 : Ciphertext F) : Prop where
  first : AtLevel params n c1
  second : AtLevel params n c2
  level_eq : c1.level = c2.level
  noiseScaleDeg_eq : c1.noiseScaleDeg = c2.noiseScaleDeg
  scalingFactor_eq : c1.scalingFactor = c2.scalingFactor

/--
Both adjustments match the ciphertexts in either order.  The adjustment to the degree one
fails only if a degree of two is left at the last towers.
-/
structure AdjustsLevels (cache : Poly.TableCache) (params : LeveledParameters F) (n : Nat)
    (c1 c2 : Ciphertext F) : Prop where
  adjusts : exists r1 r2, adjustLevelsAndDepthInPlace cache params c1 c2 = some (r1, r2) ∧
    Matched params n r1 r2 ∧ r1.level = max c1.level c2.level ∧
    (adjustLevelsAndDepthToOneInPlace cache params c1 c2 = none ->
      r1.noiseScaleDeg = 2 ∧ params.moduliQ.length <= r1.level + params.compositeDegree)
  adjustsToOne : forall r1 r2,
    adjustLevelsAndDepthToOneInPlace cache params c1 c2 = some (r1, r2) ->
    Matched params n r1 r2 ∧ r1.noiseScaleDeg = 1
  exchanged : adjustLevelsAndDepthInPlace cache params c2 c1 =
    (adjustLevelsAndDepthInPlace cache params c1 c2).map Prod.swap
  exchangedToOne : adjustLevelsAndDepthToOneInPlace cache params c2 c1 =
    (adjustLevelsAndDepthToOneInPlace cache params c1 c2).map Prod.swap

variable (hdvd1 : params.compositeDegree ∣ c1.level) (hdvd2 : params.compositeDegree ∣ c2.level)

include hdvd1 hdvd2

omit hd1 hd2 in
theorem AdjustsLevels.factorsMeet (hadjusts : AdjustsLevels cache params (2 ^ k) c1 c2) :
    FactorsMeet params c1 c2 := by
  rcases adjustLevelsAndDepthInPlace_spec h h1 h2 (roomBetween_of_dvd hdvd1 hdvd2) with
    ⟨r1, r2, hrun, _, hlevelled⟩
  rcases hadjusts.adjusts with ⟨r1', r2', hrun', hmatched, _⟩
  cases hrun.symm.trans hrun'
  rw [factorsMeet_iff, ← hlevelled.first_factor, ← hlevelled.second_factor]
  exact hmatched.scalingFactor_eq

/-- The ciphertexts match exactly if the factors meet in the branches that do not set them. -/
theorem adjustsLevels_iff : AdjustsLevels cache params (2 ^ k) c1 c2 <->
    FactorsMeet params c1 c2 := by
  constructor
  · exact AdjustsLevels.factorsMeet h h1 h2 hdvd1 hdvd2
  · intro hmeet
    have hroom := roomBetween_of_dvd hdvd1 hdvd2
    rcases adjustLevelsAndDepthInPlace_spec h h1 h2 hroom with ⟨r1, r2, hrun, hswap, hlevelled⟩
    have hcomm := adjustedDegree_comm hd1 hd2
    refine ⟨⟨r1, r2, hrun, ⟨hlevelled.first, hlevelled.second, ?_, ?_, ?_⟩, hlevelled.first_level,
      ?_⟩, ?_, ?_, adjustLevelsAndDepthToOneInPlace_swap h h1 h2 hd1 hd2 hroom⟩
    · rw [hlevelled.first_level, hlevelled.second_level]
    · rw [hlevelled.first_degree, hlevelled.second_degree, hcomm]
    · rw [hlevelled.first_factor, hlevelled.second_factor, factorsMeet_iff.mp hmeet]
    · intro hnone
      have hleft : ¬ TowersLeft params c1 c2 := by
        intro hleft
        rcases adjustLevelsAndDepthToOneInPlace_spec h h1 h2 hroom hleft with ⟨s1, s2, hsome, _⟩
        cases hnone.symm.trans hsome
      rw [TowersLeft, Classical.not_imp, Nat.not_lt] at hleft
      rw [hlevelled.first_degree, hlevelled.first_level]
      exact hleft
    · intro s1 s2 hsome
      have hleft : TowersLeft params c1 c2 := by
        apply Classical.byContradiction
        intro hleft
        cases hsome.symm.trans (adjustLevelsAndDepthToOneInPlace_last h h1 h2 hroom hleft)
      rcases adjustLevelsAndDepthToOneInPlace_spec h h1 h2 hroom hleft with
        ⟨s1', s2', hsome', hone⟩
      cases hsome.symm.trans hsome'
      have hdegree : s1.noiseScaleDeg = 1 := by
        rw [hone.first_degree]
        rcases adjustedDegree_cases hd1 hd2 with hcase | hcase
        · rw [if_neg (by omega), hcase]
        · rw [if_pos hcase]
      refine ⟨⟨hone.first, hone.second, hone.level_eq, ?_, ?_⟩, hdegree⟩
      · rw [hdegree, hone.second_degree, ← hcomm]
        rcases adjustedDegree_cases hd1 hd2 with hcase | hcase
        · rw [if_neg (by omega), hcase]
        · rw [if_pos hcase, hcase]
      · rw [hone.first_factor, hone.second_factor, factorsMeet_iff.mp hmeet]
    · rw [hrun, hswap]
      rfl

/-- The factor of a level, or its square, by the degree. -/
def FactorOfTables (params : LeveledParameters F) (c : Ciphertext F) : Prop :=
  c.scalingFactor = if c.noiseScaleDeg = 2 then
    params.getScalingFactorReal c.level * params.getScalingFactorReal c.level
    else params.getScalingFactorReal c.level

omit [One F] h hdvd1 hdvd2 in
theorem factorsMeet_of_tables
    (hrescale : forall l, l + params.compositeDegree < params.moduliQ.length ->
      rescaledFactor params (params.getScalingFactorReal l * params.getScalingFactorReal l)
        (params.moduliQ.length - l) params.compositeDegree =
          params.getScalingFactorReal (l + params.compositeDegree))
    (hf1 : FactorOfTables params c1) (hf2 : FactorOfTables params c2) :
    FactorsMeet params c1 c2 := by
  have hlower : forall {x y : Ciphertext F}, AtLevel params (2 ^ k) y ->
      FactorOfTables params x -> FactorOfTables params y -> OnlyRescaled params x y ->
      rescaledFactor params x.scalingFactor (params.moduliQ.length - x.level)
        params.compositeDegree = y.scalingFactor := by
    intro x y hy hx' hy' hr
    rcases hr with ⟨htwo, hnot, hlevel⟩
    have hlt := hy.level_lt
    rw [hx', hy', if_pos htwo, if_neg hnot, hrescale x.level (by omega), hlevel]
  unfold FactorsMeet
  rcases Nat.lt_trichotomy c1.level c2.level with hlt | heq | hgt
  · rw [if_pos hlt]
    exact hlower h2 hf1 hf2
  · rw [if_neg (by omega), if_neg (by omega), hf1, hf2, heq]
    rcases hd1 with hone1 | htwo1 <;> rcases hd2 with hone2 | htwo2
    · rw [hone1, hone2]
      rfl
    · rw [hone1, htwo2]
      rfl
    · rw [htwo1, hone2]
      rfl
    · rw [htwo1, htwo2]
      rfl
  · rw [if_neg (by omega), if_pos hgt]
    exact hlower h1 hf2 hf1

end Adjustment

/-!
## Small parameters
-/

def smallLeveled : LeveledParameters Nat where
  moduliQ := [5, 13, 17]
  technique := .FLEXIBLEAUTO
  compositeDegree := 1
  scalingFactorsReal := [17, 17, 22]
  scalingFactorsRealBig := [289, 289]
  dmoduliQ := fun i => [5, 13, 17].getD i 1
  approxSF := 16
  getElementForEvalMult := fun c x => List.replicate (c.elements[0]?.getD []).length x
  factors_length := by
    intro c x y hy
    rw [List.length_replicate, hy]
    rfl

theorem smallLeveledSetting : Setting Poly.smallCache smallLeveled 1 Poly.smallRoot where
  pos := by decide
  le := by decide
  ready := smallSetting.ready
  coprime := by decide
  compositeDegree := by decide

def smallLeveledCiphertext (level degree factor : Nat) : Ciphertext Nat where
  elements := [DCRTPoly.constant (smallLeveled.moduliQ.take (3 - level)) [1, 2]]
  noiseScaleDeg := degree
  scalingFactor := factor
  scalingFactorInt := 1
  level := level
  hopslevel := 0
  slots := 1

theorem smallAtLevel {level : Nat} (hlevel : level < 3) (degree factor : Nat) :
    AtLevel smallLeveled (2 ^ 1) (smallLeveledCiphertext level degree factor) := by
  refine ⟨hlevel, List.cons_ne_nil _ _, ?_⟩
  intro c hc
  rw [List.mem_singleton.mp hc]
  apply DCRTPoly.constant_wellFormed [1, 2] rfl
  intro q hq x hx
  have hmem : q ∈ [5, 13, 17] := List.mem_of_mem_take hq
  fin_cases hmem <;> fin_cases hx <;> decide

/-- A rescaled square meets the factor of the next level. -/
theorem adjustsLevels_rescaled :
    AdjustsLevels Poly.smallCache smallLeveled (2 ^ 1) (smallLeveledCiphertext 0 2 289)
      (smallLeveledCiphertext 1 1 17) :=
  (adjustsLevels_iff smallLeveledSetting (smallAtLevel (by decide) 2 289)
    (smallAtLevel (by decide) 1 17) (Or.inr rfl) (Or.inl rfl) (Nat.one_dvd _)
    (Nat.one_dvd _)).mpr (by
      unfold FactorsMeet
      decide)

/-- Another factor is only rescaled, and differs afterwards. -/
theorem not_adjustsLevels_rescaled :
    ¬ AdjustsLevels Poly.smallCache smallLeveled (2 ^ 1) (smallLeveledCiphertext 0 2 100)
      (smallLeveledCiphertext 1 1 17) := by
  intro hadjusts
  have hmeet := hadjusts.factorsMeet smallLeveledSetting (smallAtLevel (by decide) 2 100)
    (smallAtLevel (by decide) 1 17) (Nat.one_dvd _) (Nat.one_dvd _)
  unfold FactorsMeet at hmeet
  exact absurd hmeet (by decide)

end Ckksrns
end Scheme
end OpenFHE
