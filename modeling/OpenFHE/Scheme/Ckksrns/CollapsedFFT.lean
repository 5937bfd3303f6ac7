import OpenFHE.Scheme.Ckksrns.LinearTransform
import Mathlib.Algebra.Order.Field.Basic
import Mathlib.Data.Finset.Sort
import Mathlib.Data.Rat.Floor
import Mathlib.Tactic.Linarith
import Mathlib.Tactic.Positivity

/-!
# Levels of CoeffsToSlots and SlotsToCoeffs

`GetCollapsedFFTParams` spreads the layers of a transform over the levels of a budget
and chooses the giant steps and the baby steps of a level.  `EvalCoeffsToSlots` and
`EvalSlotsToCoeffs` run the levels, `FindBootstrapRotationIndices` lists the rotations
that need keys.
-/

namespace OpenFHE
namespace Scheme
namespace Ckksrns

open OpenFHE.Core Foundation NativeInteger KeySwitch Finset

/-! ## Parameters -/

/-- The loop of `SelectLayers`: rows are given up until the dimension is the budget. -/
def lowerRows (logSlots layers budget : Nat) : Nat -> Option (Nat × Nat)
  | 0 => none
  | rows + 1 =>
      let rem := logSlots - rows * layers
      let dim := rows + if rem ≠ 0 then 1 else 0
      if dim ≠ budget then lowerRows logSlots layers budget rows else some (rows, rem)

def selectLayers (logSlots budget : Nat) : Option (Nat × Nat × Nat) :=
  let layers := ceilDiv logSlots budget
  let rows := logSlots / layers
  let rem := logSlots % layers
  let dim := rows + if rem ≠ 0 then 1 else 0
  if dim < budget then
    let layers := layers - 1
    if layers = 0 then none
    else
      let rows := logSlots / layers
      let rem := logSlots - rows * layers
      let dim := rows + if rem ≠ 0 then 1 else 0
      if dim > budget then
        (lowerRows logSlots layers budget rows).map fun (rows, rem) => (layers, rows, rem)
      else some (layers, rows, rem)
  else some (layers, rows, rem)

/-- `ckks_boot_params`. -/
structure BootParams where
  lvlb : Nat
  layersCollapse : Nat
  remCollapse : Nat
  numRotations : Nat
  b : Nat
  g : Nat
  numRotationsRem : Nat
  bRem : Nat
  gRem : Nat
  deriving DecidableEq

/-- The baby step that `GetCollapsedFFTParams` chooses itself. -/
def automaticStep (layers numRotations : Nat) : Nat :=
  1 <<< (layers / 2 + 1 + if numRotations > 7 then 1 else 0)

def getCollapsedFFTParams (slots levelBudget dim1 : Nat) : Option BootParams :=
  if slots = 0 then none
  else if levelBudget = 0 then none
  else
    let logSlots := if slots < 3 then 1 else Nat.log2 slots
    (selectLayers logSlots levelBudget).map fun (layersCollapse, _, remCollapse) =>
      let numRotations := (1 <<< (layersCollapse + 1)) - 1
      let numRotationsRem := (1 <<< (remCollapse + 1)) - 1
      let g :=
        if dim1 = 0 ∨ dim1 > numRotations then automaticStep layersCollapse numRotations else dim1
      let b := (numRotations + 1) / g
      let gRem := if remCollapse ≠ 0 then automaticStep remCollapse numRotationsRem else 0
      let bRem := if remCollapse ≠ 0 then (numRotationsRem + 1) / gRem else 0
      { lvlb := levelBudget, layersCollapse := layersCollapse, remCollapse := remCollapse,
        numRotations := numRotations, b := b, g := g, numRotationsRem := numRotationsRem,
        bRem := bRem, gRem := gRem }

/-- The parameters that `CKKSBootstrapPrecom` keeps. -/
structure BootstrapPrecom where
  slots : Nat
  paramsEnc : BootParams
  paramsDec : BootParams
  deriving DecidableEq

/-- The level budget that `EvalBootstrapSetup` falls back to. -/
def clampBudget (logSlots levelBudget : Nat) : Nat :=
  let newBudget := if levelBudget > logSlots then logSlots else levelBudget
  if newBudget < 1 then 1 else newBudget

/-- `EvalBootstrapSetup`, the parameters of its transforms. -/
def evalBootstrapSetup (M : Nat) (levelBudget dim1 : Nat × Nat) (numSlots : Nat) :
    Option BootstrapPrecom := do
  let slots := if numSlots = 0 then M / 4 else numSlots
  let logSlots := if slots < 3 then 1 else Nat.log2 slots
  let paramsEnc <- getCollapsedFFTParams slots (clampBudget logSlots levelBudget.1) dim1.1
  let paramsDec <- getCollapsedFFTParams slots (clampBudget logSlots levelBudget.2) dim1.2
  return { slots := slots, paramsEnc := paramsEnc, paramsDec := paramsDec }

/-! ## Levels -/

/-- Whether a level of its own holds the remaining layers. -/
def BootParams.flagRem (p : BootParams) : Nat := if p.remCollapse = 0 then 0 else 1

/-- One level of the loops: its diagonals are stored at `index`. -/
structure Level where
  index : Nat
  numRotations : Nat
  b : Nat
  g : Nat
  rotIn : List Nat
  rotOut : List Nat
  deriving DecidableEq

namespace Level

/-- The level with rotations in steps of `scale`, the inner ones reduced modulo `inner`. -/
def ofScale (index numRotations b g scale inner outer : Nat) : Level where
  index := index
  numRotations := numRotations
  b := b
  g := g
  rotIn := (List.range g).map fun j : Nat =>
    reduceRotation (int32 (scale * ((j : Int) - (((numRotations + 1) / 2 : Nat) - 1 : Int)))) inner
  rotOut := (List.range b).map fun i => reduceRotation (int32 (scale * g * i : Nat)) outer

/-- The baby steps of giant step `i`. -/
def babies (l : Level) (i : Nat) : List Nat :=
  0 :: (List.range' 1 (l.g - 1)).filter fun j => l.g * i + j ≠ l.numRotations

/-- The diagonals that the loops read, in their order. -/
def diagonals (l : Level) : List Nat :=
  (List.range l.b).flatMap fun i => (l.babies i).map (l.g * i + ·)

/-- The indices of the rotations that need keys, the inner ones first. -/
def rotations (l : Level) : List Nat :=
  l.rotIn.filter (· ≠ 0) ++ (l.rotOut.drop 1).filter (· ≠ 0)

end Level

/-- The levels of `EvalCoeffsToSlots`, the one with the remaining layers at the end. -/
def coeffsToSlotsLevels (p : BootParams) (slots M : Nat) : List Level :=
  ((List.range' p.flagRem (p.lvlb - p.flagRem)).reverse.map fun s =>
    Level.ofScale s p.numRotations p.b p.g
      (1 <<< ((s - p.flagRem) * p.layersCollapse + p.remCollapse)) slots (M / 4)) ++
  if p.flagRem = 1 then
    [Level.ofScale 0 p.numRotationsRem p.bRem p.gRem 1 slots (M / 4)]
  else []

def slotsToCoeffsLevels (p : BootParams) (M : Nat) : List Level :=
  let smax := p.lvlb - p.flagRem
  ((List.range smax).map fun s =>
    Level.ofScale s p.numRotations p.b p.g (1 <<< (s * p.layersCollapse)) (M / 4) (M / 4)) ++
  if p.flagRem = 1 then
    [Level.ofScale smax p.numRotationsRem p.bRem p.gRem (1 <<< (smax * p.layersCollapse))
      (M / 4) (M / 4)]
  else []

/-- `EvalCoeffsToSlotsPrecompute`, the numbers of diagonals that it stores. -/
def coeffsToSlotsSizes (p : BootParams) : List Nat :=
  let result := List.replicate p.lvlb p.numRotations
  if p.remCollapse ≠ 0 then result.set 0 p.numRotationsRem else result

/-- `EvalSlotsToCoeffsPrecompute`, the numbers of diagonals that it stores. -/
def slotsToCoeffsSizes (p : BootParams) : List Nat :=
  let result := List.replicate p.lvlb p.numRotations
  if p.flagRem = 1 then result.set (p.lvlb - 1) p.numRotationsRem else result

/-! ## Rotation indices -/

def indexRange (lo hi : Int) : List Int := (List.range (hi - lo).toNat).map fun j : Nat => lo + j

/-- The two loops that list the rotations of one level. -/
def levelRotationIndices (numRotations b g scalingFactor inner outer : Nat) : List Nat :=
  let halfRots := int32 (1 - ((numRotations + 1) / 2 : Nat))
  let halfRotsg := int32 (halfRots + g)
  ((indexRange halfRots halfRotsg).map fun j =>
    reduceRotation (int32 (j * scalingFactor)) inner) ++
  (List.range b).map fun i => reduceRotation (int32 (i * g * scalingFactor : Nat)) outer

def sparseIndices (slots M : Nat) : List Nat :=
  let m := usint (slots * 4 : Nat)
  if m ≠ M then
    (List.iterate (2 * ·) 1 (Nat.clog 2 (M / m))).map fun j => usint (j * slots : Nat)
  else []

/-- The size that both lists reserve, which must not be negative. -/
def indexListSz (p : BootParams) (M : Nat) : Int :=
  int32 (p.b + p.g - 2 + p.bRem + p.gRem - 2 + 1 + M)

def findCoeffsToSlotsRotationIndices (p : BootParams) (slots M : Nat) : Option (List Nat) :=
  if indexListSz p M < 0 then none
  else
    some (sparseIndices slots M ++
      ((List.range' p.flagRem (p.lvlb - p.flagRem)).reverse.flatMap fun s =>
        levelRotationIndices p.numRotations p.b p.g
          (1 <<< ((s - p.flagRem) * p.layersCollapse + p.remCollapse)) slots (M >>> 2)) ++
      if p.flagRem = 1 then
        levelRotationIndices p.numRotationsRem p.bRem p.gRem 1 slots (M >>> 2)
      else [])

def findSlotsToCoeffsRotationIndices (p : BootParams) (slots M : Nat) : Option (List Nat) :=
  let smax := p.lvlb - p.flagRem
  if indexListSz p M < 0 then none
  else
    some (sparseIndices slots M ++
      ((List.range smax).flatMap fun s =>
        levelRotationIndices p.numRotations p.b p.g (1 <<< (s * p.layersCollapse))
          (M >>> 2) (M >>> 2)) ++
      if p.flagRem = 1 then
        levelRotationIndices p.numRotationsRem p.bRem p.gRem (1 <<< (smax * p.layersCollapse))
          (M >>> 2) (M >>> 2)
      else [])

/-- Bootstrapping then runs `EvalLinearTransform` in place of the levels. -/
def BootstrapPrecom.isLTBootstrap (p : BootstrapPrecom) : Prop :=
  p.paramsEnc.lvlb = 1 ∧ p.paramsDec.lvlb = 1

instance (p : BootstrapPrecom) : Decidable p.isLTBootstrap :=
  inferInstanceAs (Decidable (p.paramsEnc.lvlb = 1 ∧ p.paramsDec.lvlb = 1))

/-- The lists that `FindBootstrapRotationIndices` collects. -/
def collectedIndices (p : BootstrapPrecom) (M : Nat) : Option (List Nat) :=
  if p.isLTBootstrap then findLinearTransformRotationIndices p.paramsEnc.g p.slots M
  else do
    let enc <- findCoeffsToSlotsRotationIndices p.paramsEnc p.slots M
    let dec <- findSlotsToCoeffsRotationIndices p.paramsDec p.slots M
    return enc ++ dec

def findBootstrapRotationIndices (p : BootstrapPrecom) (M : Nat) : Option (List Nat) :=
  (collectedIndices p M).map fun indices =>
    (((insert p.slots indices.toFinset).erase 0).erase (M / 4)).sort

def bootstrapLevels (p : BootstrapPrecom) (M : Nat) : List Level :=
  if p.isLTBootstrap then []
  else coeffsToSlotsLevels p.paramsEnc p.slots M ++ slotsToCoeffsLevels p.paramsDec M

/-! ## Layers -/

/-- The layers of a full level: as few as fill the budget. -/
def collapsedLayers (logSlots budget : Nat) : Nat :=
  let layers := ceilDiv logSlots budget
  if (budget - 1) * layers < logSlots then layers else layers - 1

theorem lowerRows_eq {logSlots layers budget rows : Nat} (hbudget : 0 < budget)
    (hle : budget <= rows) (hrows : (rows - 1) * layers < logSlots) :
    lowerRows logSlots layers budget rows =
      some (budget - 1, logSlots - (budget - 1) * layers) := by
  induction rows with
  | zero =>
      omega
  | succ rows ih =>
      rw [Nat.add_sub_cancel] at hrows
      have hrem : logSlots - rows * layers ≠ 0 := by omega
      unfold lowerRows
      simp only [if_pos hrem]
      cases Nat.eq_or_lt_of_le hle with
      | inl heq =>
          have hsub : budget - 1 = rows := by omega
          rw [if_neg (by omega), hsub]
      | inr hlt =>
          have hmul : (rows - 1) * layers <= rows * layers :=
            Nat.mul_le_mul_right layers (Nat.sub_le rows 1)
          rw [if_pos (by omega)]
          exact ih (by omega) (by omega)

theorem rows_le_iff {logSlots layers budget : Nat} (hlayers : 0 < layers) :
    logSlots / layers + (if logSlots % layers ≠ 0 then 1 else 0) <= budget <->
      logSlots <= budget * layers := by
  have hdiv := Nat.div_add_mod' logSlots layers
  have hmod := Nat.mod_lt logSlots hlayers
  constructor
  · intro hle
    have hmul := Nat.mul_le_mul_right layers hle
    split at hmul
    next hrem =>
        rw [Nat.add_mul, Nat.one_mul] at hmul
        omega
    next hrem =>
        rw [Nat.add_zero] at hmul
        omega
  · intro hle
    by_contra hgt
    have hrow : budget <= logSlots / layers := by
      split at hgt <;> omega
    have hmul := Nat.mul_le_mul_right layers hrow
    have hrem : logSlots % layers = 0 := by omega
    rw [if_neg (by simpa using hrem), Nat.add_zero] at hgt
    have hmore := Nat.mul_le_mul_right layers (show budget + 1 <= logSlots / layers by omega)
    rw [Nat.add_mul, Nat.one_mul] at hmore
    omega

theorem selectLayers_spec {logSlots budget : Nat} (hbudget : 0 < budget)
    (hle : budget <= logSlots) :
    exists rows rem, selectLayers logSlots budget =
        some (collapsedLayers logSlots budget, rows, rem) ∧
      0 < collapsedLayers logSlots budget ∧ 0 < rows ∧
      rows * collapsedLayers logSlots budget + rem = logSlots ∧
      budget = rows + if rem ≠ 0 then 1 else 0 := by
  rcases ceilDiv_bounds (a := logSlots) hbudget with ⟨hceil, hfloor⟩
  unfold collapsedLayers selectLayers
  generalize ceilDiv logSlots budget = layers at hceil hfloor ⊢
  have hpos : 0 < layers := by
    apply Nat.pos_of_ne_zero
    intro hzero
    rw [hzero, Nat.zero_mul] at hceil
    omega
  rw [Nat.mul_comm] at hceil
  have hdim := (rows_le_iff hpos).mpr hceil
  have hfill := @rows_le_iff logSlots layers (budget - 1) hpos
  by_cases hfit : (budget - 1) * layers < logSlots
  · have hfull : budget <= logSlots / layers + if logSlots % layers ≠ 0 then 1 else 0 := by
      by_contra hlt
      exact absurd (hfill.mp (by omega)) (by omega)
    have hlayers : layers <= logSlots := by
      by_contra hgt
      have hmul := Nat.mul_le_mul_right budget (show logSlots + 1 <= layers by omega)
      have hself := Nat.le_mul_of_pos_right logSlots hbudget
      rw [Nat.add_mul, Nat.one_mul] at hmul
      omega
    simp only [if_pos hfit, if_neg (Nat.not_lt.mpr hfull)]
    exact ⟨_, _, rfl, hpos, Nat.div_pos hlayers hpos, Nat.div_add_mod' _ _,
      Nat.le_antisymm hfull hdim⟩
  · have hbudget2 : 0 < budget - 1 := by
      by_contra hone
      rw [Nat.eq_zero_of_not_pos hone, Nat.zero_mul] at hfit
      omega
    have hshort := hfill.mpr (by omega)
    have hlower : budget * (layers - 1) < logSlots := by
      rw [Nat.mul_sub, Nat.mul_one, Nat.mul_comm]
      omega
    have htwo : 0 < layers - 1 := by
      by_contra hone
      have heq : layers = 1 := by omega
      rw [heq, Nat.mul_one] at hfit
      omega
    simp only [if_neg hfit, if_pos (show logSlots / layers +
      (if logSlots % layers ≠ 0 then 1 else 0) < budget by omega), if_neg htwo.ne']
    generalize layers - 1 = lower at hlower htwo ⊢
    have hdiv := Nat.div_add_mod' logSlots lower
    have hrem : logSlots - logSlots / lower * lower = logSlots % lower := by omega
    rw [hrem]
    have hmore : budget <= logSlots / lower + if logSlots % lower ≠ 0 then 1 else 0 := by
      by_contra hlt
      have hcover := (@rows_le_iff logSlots lower (budget - 1) htwo).mp (by omega)
      have hmul := Nat.mul_le_mul_right lower (Nat.sub_le budget 1)
      omega
    by_cases hgt : logSlots / lower + (if logSlots % lower ≠ 0 then 1 else 0) > budget
    · have hrows : budget <= logSlots / lower := by
        split at hgt <;> omega
      have hlast : (logSlots / lower - 1) * lower < logSlots := by
        rw [Nat.sub_mul, Nat.one_mul]
        omega
      have hfirst : (budget - 1) * lower < logSlots := by
        rw [Nat.sub_mul, Nat.one_mul]
        omega
      rw [if_pos hgt, lowerRows_eq hbudget hrows hlast]
      refine ⟨budget - 1, logSlots - (budget - 1) * lower, rfl, htwo, hbudget2, by omega, ?_⟩
      rw [if_pos (by omega)]
      omega
    · have hrow : 0 < logSlots / lower := by
        have hself := Nat.le_mul_of_pos_left lower hbudget
        exact Nat.div_pos (by omega) htwo
      rw [if_neg hgt]
      exact ⟨_, _, rfl, htwo, hrow, hdiv, by omega⟩

theorem automaticStep_spec {layers : Nat} (hlayers : 0 < layers) :
    2 <= automaticStep layers ((1 <<< (layers + 1)) - 1) ∧
      automaticStep layers ((1 <<< (layers + 1)) - 1) ∣ (1 <<< (layers + 1)) - 1 + 1 := by
  have hpos : 0 < 2 ^ (layers + 1) := Nat.two_pow_pos _
  unfold automaticStep
  rw [Nat.one_shiftLeft, Nat.one_shiftLeft, Nat.sub_add_cancel hpos]
  have hexp : layers / 2 + 1 + (if 2 ^ (layers + 1) - 1 > 7 then 1 else 0) <= layers + 1 := by
    split
    next hlarge =>
        -- more than seven rotations come from three layers or more
        have hthree : 3 <= layers := by
          by_contra hlt
          have hle : 2 ^ (layers + 1) <= 2 ^ 3 := Nat.pow_le_pow_right (by omega) (by omega)
          omega
        omega
    next => omega
  constructor
  · exact Nat.le_self_pow (by omega) 2
  · exact Nat.pow_dvd_pow 2 hexp

/-- What the parameters of `2 ^ logSlots` slots keep. -/
structure BootParams.Collapsed (p : BootParams) (logSlots budget dim1 : Nat) : Prop where
  lvlb : p.lvlb = budget
  layers : p.layersCollapse = collapsedLayers logSlots budget
  layers_pos : 0 < p.layersCollapse
  rows : (p.lvlb - p.flagRem) * p.layersCollapse + p.remCollapse = logSlots
  flagRem_lt : p.flagRem < p.lvlb
  numRotations : p.numRotations = 2 ^ (p.layersCollapse + 1) - 1
  numRotationsRem : p.numRotationsRem = 2 ^ (p.remCollapse + 1) - 1
  b : p.b = (p.numRotations + 1) / p.g
  g : (dim1 = 0 ∨ dim1 > p.numRotations) ∧ 2 <= p.g ∧ p.g ∣ p.numRotations + 1 ∨
    ¬(dim1 = 0 ∨ dim1 > p.numRotations) ∧ p.g = dim1
  remainder : p.flagRem = 1 -> p.bRem = (p.numRotationsRem + 1) / p.gRem ∧
    2 <= p.gRem ∧ p.gRem ∣ p.numRotationsRem + 1

theorem logSlots_of_two_pow {logSlots : Nat} (hpos : 0 < logSlots) :
    (if 2 ^ logSlots < 3 then 1 else Nat.log2 (2 ^ logSlots)) = logSlots := by
  split
  next hsmall =>
      by_contra hne
      have hfour : 2 ^ 2 <= 2 ^ logSlots := Nat.pow_le_pow_right (by omega) (by omega)
      omega
  next => exact Nat.log2_two_pow

theorem getCollapsedFFTParams_spec {logSlots budget : Nat} (hbudget : 0 < budget)
    (hle : budget <= logSlots) (dim1 : Nat) :
    exists p, getCollapsedFFTParams (2 ^ logSlots) budget dim1 = some p ∧
      p.Collapsed logSlots budget dim1 := by
  rcases selectLayers_spec hbudget hle with ⟨rows, rem, hselect, hpos, hrow, hrows, hdim⟩
  unfold getCollapsedFFTParams
  rw [if_neg (Nat.two_pow_pos _).ne', if_neg hbudget.ne']
  dsimp only
  rw [logSlots_of_two_pow (by omega), hselect, Option.map_some]
  have hpow (layers : Nat) : (1 <<< (layers + 1)) - 1 = 2 ^ (layers + 1) - 1 := by
    rw [Nat.one_shiftLeft]
  refine ⟨_, rfl, ?_⟩
  have hflag : (if rem = 0 then 0 else 1) = if rem ≠ 0 then 1 else 0 := by
    split <;> rename_i hrem <;> simp [hrem]
  constructor
  case lvlb => rfl
  case layers => rfl
  case layers_pos => exact hpos
  case rows =>
    unfold BootParams.flagRem
    dsimp only
    rw [hflag, show budget - (if rem ≠ 0 then 1 else 0) = rows by omega]
    exact hrows
  case flagRem_lt =>
    unfold BootParams.flagRem
    dsimp only
    rw [hflag, hdim]
    exact Nat.lt_add_of_pos_left hrow
  case numRotations => exact hpow _
  case numRotationsRem => exact hpow _
  case b => rfl
  case g =>
    dsimp only
    split
    next hauto => exact Or.inl ⟨hauto, automaticStep_spec hpos⟩
    next hauto => exact Or.inr ⟨hauto, rfl⟩
  case remainder =>
    unfold BootParams.flagRem
    dsimp only
    intro hone
    have hrem : rem ≠ 0 := by
      intro hzero
      rw [if_pos hzero] at hone
      omega
    rw [if_pos hrem, if_pos hrem]
    exact ⟨rfl, automaticStep_spec (Nat.pos_of_ne_zero hrem)⟩

/-! ## Diagonals -/

namespace Level

theorem diagonals_eq (l : Level) (hg : 0 < l.g) :
    l.diagonals = (List.range (l.g * l.b)).filter fun d => l.g ∣ d ∨ d ≠ l.numRotations := by
  have hblocks := flatMap_blocks l.g (l.g * l.b) l.b
  rw [Nat.min_self] at hblocks
  rw [← hblocks, List.filter_flatMap]
  unfold diagonals
  apply List.flatMap_congr
  intro i hi
  have hlen : blockLength l.g (l.g * l.b) i = l.g := by
    have hmul := Nat.mul_le_mul_left l.g (show i + 1 <= l.b from List.mem_range.mp hi)
    rw [Nat.mul_add, Nat.mul_one] at hmul
    unfold blockLength
    omega
  have hfirst : (decide (l.g ∣ l.g * i ∨ l.g * i ≠ l.numRotations)) = true :=
    decide_eq_true (Or.inl (dvd_mul_right _ _))
  have hsplit : List.range' (l.g * i) l.g =
      l.g * i :: (List.range' 1 (l.g - 1)).map (l.g * i + ·) := by
    rw [List.map_add_range', ← List.range'_succ, Nat.sub_add_cancel hg]
  rw [hlen, hsplit, List.filter_cons, if_pos hfirst, List.filter_map]
  unfold babies
  rw [List.map_cons, Nat.add_zero]
  congr 2
  apply List.filter_congr
  intro j hj
  rw [List.mem_range'_1] at hj
  -- behind the first baby step the equality test decides alone
  have hdvd : ¬l.g ∣ l.g * i + j := by
    rw [Nat.dvd_add_right (dvd_mul_right _ _)]
    exact Nat.not_dvd_of_pos_of_lt (by omega) (by omega)
  simp [hdvd]

theorem diagonals_perm_iff (l : Level) (hg : 0 < l.g) (hn : 0 < l.numRotations)
    (hb : l.b = (l.numRotations + 1) / l.g) :
    List.Perm l.diagonals (List.range l.numRotations) <->
      2 <= l.g ∧ (l.g ∣ l.numRotations + 1 ∨ l.g ∣ l.numRotations) := by
  have hmem (d : Nat) : d ∈ l.diagonals <->
      d < l.g * l.b ∧ (l.g ∣ d ∨ d ≠ l.numRotations) := by
    rw [diagonals_eq l hg, List.mem_filter, List.mem_range, decide_eq_true_eq]
  have hdiv := Nat.div_add_mod (l.numRotations + 1) l.g
  have hmod := Nat.mod_lt (l.numRotations + 1) hg
  rw [← hb] at hdiv
  constructor
  · intro hperm
    have htwo : 2 <= l.g := by
      by_contra hone
      have heq : l.g = 1 := by omega
      have hover : l.numRotations ∈ l.diagonals := by
        rw [hmem, heq]
        rw [heq] at hdiv hmod
        exact ⟨by omega, Or.inl (one_dvd _)⟩
      exact absurd (List.mem_range.mp (hperm.mem_iff.mp hover)) (Nat.lt_irrefl _)
    have hlast := (hmem (l.numRotations - 1)).mp
      (hperm.mem_iff.mpr (List.mem_range.mpr (Nat.sub_lt hn Nat.one_pos)))
    refine ⟨htwo, ?_⟩
    rcases Nat.eq_or_lt_of_le (show l.g * l.b <= l.numRotations + 1 by omega) with hall | hpart
    · exact Or.inl (Dvd.intro _ hall)
    · exact Or.inr (Dvd.intro _ (show l.g * l.b = l.numRotations by omega))
  · intro h
    rcases h with ⟨htwo, hdvd⟩
    rw [diagonals_eq l hg]
    cases hdvd with
    | inl hall =>
        have hnot : ¬l.g ∣ l.numRotations := by
          intro hboth
          have hone := (Nat.dvd_add_right hboth).mp hall
          exact absurd (Nat.le_of_dvd Nat.one_pos hone) (by omega)
        rw [hb, Nat.mul_div_cancel' hall, List.range_succ, List.filter_append,
          List.filter_eq_self.mpr, List.filter_eq_nil_iff.mpr, List.append_nil]
        · intro d hd
          rw [List.mem_singleton.mp hd]
          simp [hnot]
        · intro d hd
          exact decide_eq_true (Or.inr (List.mem_range.mp hd).ne)
    | inr hpart =>
        have hcover : l.g * l.b = l.numRotations := by
          rw [hb, Nat.succ_div_of_not_dvd, Nat.mul_div_cancel' hpart]
          intro hboth
          have hone := (Nat.dvd_add_right hpart).mp hboth
          exact absurd (Nat.le_of_dvd Nat.one_pos hone) (by omega)
        rw [hcover, List.filter_eq_self.mpr]
        intro d hd
        exact decide_eq_true (Or.inr (List.mem_range.mp hd).ne)

/-! ## Rotations -/

theorem rotations_ofScale {index numRotations b g scale inner outer r : Nat}
    (hn : numRotations < 2 ^ 31) (hg : g <= numRotations + 1)
    (hr : r ∈ (ofScale index numRotations b g scale inner outer).rotations) :
    r ≠ 0 ∧ r ∈ levelRotationIndices numRotations b g scale inner outer := by
  have hint {x : Int} (hlow : -2 ^ 31 <= x) (hhigh : x < 2 ^ 31) : int32 x = x := by
    unfold int32
    rw [Int.bmod_eq_of_le (by omega) (by omega)]
  unfold rotations at hr
  unfold levelRotationIndices
  rw [List.mem_append] at hr ⊢
  cases hr with
  | inl hin =>
      rw [List.mem_filter] at hin
      rcases hin with ⟨hin, hne⟩
      rcases List.mem_map.mp hin with ⟨j, hj, rfl⟩
      refine ⟨of_decide_eq_true hne, Or.inl ?_⟩
      rw [hint (x := 1 - _) (by omega) (by omega), hint (by omega) (by omega)]
      rw [List.mem_map]
      refine ⟨1 - ((numRotations + 1) / 2 : Nat) + j, ?_, ?_⟩
      · unfold indexRange
        rw [List.mem_map]
        refine ⟨j, ?_, rfl⟩
        rw [List.mem_range] at hj ⊢
        omega
      · congr 2
        ring
  | inr hout =>
      rw [List.mem_filter] at hout
      rcases hout with ⟨hout, hne⟩
      rcases List.mem_map.mp (List.mem_of_mem_drop hout) with ⟨i, hi, rfl⟩
      refine ⟨of_decide_eq_true hne, Or.inr ?_⟩
      rw [List.mem_map]
      refine ⟨i, hi, ?_⟩
      rw [show i * g * scale = scale * g * i by ring]

end Level

theorem Level.map_index_ofScale (scale : Nat -> Nat) (numRotations b g inner outer : Nat)
    (levels : List Nat) :
    (levels.map fun s => Level.ofScale s numRotations b g (scale s) inner outer).map
      Level.index = levels := by
  rw [List.map_map]
  exact List.map_id' levels

/-! ## Covering the stored diagonals -/

/-- The levels go through all that is stored, each level through each of its diagonals once. -/
def CoverDiagonals (levels : List Level) (sizes : List Nat) : Prop :=
  List.Perm (levels.map Level.index) (List.range sizes.length) ∧
    forall l, l ∈ levels -> exists size, sizes[l.index]? = some size ∧
      List.Perm l.diagonals (List.range size)

/-- Zero, too large, or a baby step that cuts the diagonals, or one more, into equal parts. -/
def CutsEvenly (numRotations dim1 : Nat) : Prop :=
  dim1 = 0 ∨ dim1 > numRotations ∨
    2 <= dim1 ∧ (dim1 ∣ numRotations + 1 ∨ dim1 ∣ numRotations)

instance (numRotations dim1 : Nat) : Decidable (CutsEvenly numRotations dim1) :=
  inferInstanceAs (Decidable (_ ∨ _ ∨ _ ∧ (_ ∨ _)))

namespace BootParams.Collapsed

variable {p : BootParams} {logSlots budget dim1 : Nat} (hp : p.Collapsed logSlots budget dim1)

theorem flagRem_eq : p.flagRem = 0 ∧ p.remCollapse = 0 ∨ p.flagRem = 1 ∧ p.remCollapse ≠ 0 := by
  unfold flagRem
  split
  next hzero => exact Or.inl ⟨rfl, hzero⟩
  next hne => exact Or.inr ⟨rfl, hne⟩

include hp

theorem numRotations_pos : 0 < p.numRotations := by
  have hpow : 2 ^ 1 < 2 ^ (p.layersCollapse + 1) :=
    Nat.pow_lt_pow_right (by omega) (Nat.succ_lt_succ hp.layers_pos)
  rw [hp.numRotations]
  omega

theorem g_pos : 0 < p.g := by
  rcases hp.g with ⟨_, htwo, _⟩ | ⟨hdim, heq⟩
  · omega
  · omega

/-- A full level reads each diagonal once if and only if `dim1` cuts evenly. -/
theorem diagonals_perm_iff (index scale inner outer : Nat) :
    List.Perm (Level.ofScale index p.numRotations p.b p.g scale inner outer).diagonals
        (List.range p.numRotations) <->
      CutsEvenly p.numRotations dim1 := by
  have hpos := hp.numRotations_pos
  refine (Level.diagonals_perm_iff (Level.ofScale ..) hp.g_pos hpos hp.b).trans ?_
  change 2 <= p.g ∧ (p.g ∣ p.numRotations + 1 ∨ p.g ∣ p.numRotations) <-> _
  unfold CutsEvenly
  rcases hp.g with ⟨hauto, htwo, hdvd⟩ | ⟨huser, heq⟩
  · constructor
    · intro _
      rcases hauto with hzero | hlarge
      · exact Or.inl hzero
      · exact Or.inr (Or.inl hlarge)
    · intro _
      exact ⟨htwo, Or.inl hdvd⟩
  · rw [heq]
    rw [not_or] at huser
    rw [or_iff_right huser.left, or_iff_right huser.right]

theorem diagonals_perm_rem (hflag : p.flagRem = 1) (index scale inner outer : Nat) :
    List.Perm (Level.ofScale index p.numRotationsRem p.bRem p.gRem scale inner outer).diagonals
      (List.range p.numRotationsRem) := by
  rcases hp.remainder hflag with ⟨hb, htwo, hdvd⟩
  have hpos : 0 < p.numRotationsRem := by
    have hle := Nat.le_of_dvd (Nat.succ_pos _) hdvd
    omega
  exact (Level.diagonals_perm_iff _ (show 0 < p.gRem by omega) hpos hb).mpr
    ⟨htwo, Or.inl hdvd⟩

theorem cover_iff {levels : List Level} {sizes : List Nat}
    (hindices : List.Perm (levels.map Level.index) (List.range sizes.length))
    (hlevels : forall l, l ∈ levels ->
      (exists index scale inner outer,
        l = Level.ofScale index p.numRotations p.b p.g scale inner outer ∧
          sizes[index]? = some p.numRotations) ∨
      p.flagRem = 1 ∧ exists index scale inner outer,
        l = Level.ofScale index p.numRotationsRem p.bRem p.gRem scale inner outer ∧
          sizes[index]? = some p.numRotationsRem)
    (hfull : exists index scale inner outer,
      Level.ofScale index p.numRotations p.b p.g scale inner outer ∈ levels ∧
        sizes[index]? = some p.numRotations) :
    CoverDiagonals levels sizes <-> CutsEvenly p.numRotations dim1 := by
  constructor
  · intro hcover
    rcases hfull with ⟨index, scale, inner, outer, hmem, hsize⟩
    rcases hcover.right _ hmem with ⟨size, hread, hperm⟩
    have heq : size = p.numRotations := Option.some.inj (hread.symm.trans hsize)
    rw [heq] at hperm
    exact (hp.diagonals_perm_iff index scale inner outer).mp hperm
  · intro hcuts
    refine ⟨hindices, ?_⟩
    intro l hl
    rcases hlevels l hl with ⟨index, scale, inner, outer, rfl, hsize⟩ |
      ⟨hflag, index, scale, inner, outer, rfl, hsize⟩
    · exact ⟨_, hsize, (hp.diagonals_perm_iff index scale inner outer).mpr hcuts⟩
    · exact ⟨_, hsize, hp.diagonals_perm_rem hflag index scale inner outer⟩

theorem coeffsToSlots_cover_iff (slots M : Nat) :
    CoverDiagonals (coeffsToSlotsLevels p slots M) (coeffsToSlotsSizes p) <->
      CutsEvenly p.numRotations dim1 := by
  have hlt := hp.flagRem_lt
  have hread {s : Nat} (hs : s < p.lvlb) :
      (List.replicate p.lvlb p.numRotations)[s]? = some p.numRotations := by
    rw [List.getElem?_replicate, if_pos hs]
  unfold coeffsToSlotsLevels coeffsToSlotsSizes
  dsimp only
  rcases flagRem_eq (p := p) with ⟨hflag, hrem⟩ | ⟨hflag, hrem⟩
  · rw [hflag, if_neg (by omega), if_neg (by simpa using hrem), List.append_nil, Nat.sub_zero]
    apply hp.cover_iff
    · rw [Level.map_index_ofScale, List.length_replicate, List.range_eq_range']
      exact List.reverse_perm _
    · intro l hl
      rcases List.mem_map.mp hl with ⟨s, hs, rfl⟩
      rw [List.mem_reverse, List.mem_range'_1] at hs
      exact Or.inl ⟨_, _, _, _, rfl, hread (by omega)⟩
    · exact ⟨0, _, _, _, List.mem_map.mpr ⟨0, by simp; omega, rfl⟩, hread (by omega)⟩
  · rw [hflag, if_pos rfl, if_pos hrem]
    apply hp.cover_iff
    · rw [List.map_append, Level.map_index_ofScale, List.length_set, List.length_replicate,
        List.range_eq_range', ← Nat.sub_add_cancel (show 1 <= p.lvlb by omega),
        Nat.add_sub_cancel]
      exact (List.perm_append_singleton _ _).trans (List.Perm.cons _ (List.reverse_perm _))
    · intro l hl
      rw [List.mem_append, List.mem_singleton] at hl
      rcases hl with hl | rfl
      · rcases List.mem_map.mp hl with ⟨s, hs, rfl⟩
        rw [List.mem_reverse, List.mem_range'_1] at hs
        refine Or.inl ⟨_, _, _, _, rfl, ?_⟩
        rw [List.getElem?_set_ne (by omega), hread (by omega)]
      · refine Or.inr ⟨hflag, _, _, _, _, rfl, ?_⟩
        rw [List.getElem?_set_self (by simp; omega)]
    · refine ⟨1, _, _, _, List.mem_append_left _ (List.mem_map.mpr ⟨1, by simp; omega, rfl⟩), ?_⟩
      rw [List.getElem?_set_ne (by omega), hread (by omega)]

theorem slotsToCoeffs_cover_iff (M : Nat) :
    CoverDiagonals (slotsToCoeffsLevels p M) (slotsToCoeffsSizes p) <->
      CutsEvenly p.numRotations dim1 := by
  have hlt := hp.flagRem_lt
  have hread {s : Nat} (hs : s < p.lvlb) :
      (List.replicate p.lvlb p.numRotations)[s]? = some p.numRotations := by
    rw [List.getElem?_replicate, if_pos hs]
  unfold slotsToCoeffsLevels slotsToCoeffsSizes
  dsimp only
  rcases flagRem_eq (p := p) with ⟨hflag, _⟩ | ⟨hflag, _⟩
  · rw [hflag, if_neg (by omega), if_neg (by omega), List.append_nil, Nat.sub_zero]
    apply hp.cover_iff
    · rw [Level.map_index_ofScale, List.length_replicate]
    · intro l hl
      rcases List.mem_map.mp hl with ⟨s, hs, rfl⟩
      rw [List.mem_range] at hs
      exact Or.inl ⟨_, _, _, _, rfl, hread hs⟩
    · exact ⟨0, _, _, _, List.mem_map.mpr ⟨0, List.mem_range.mpr (by omega), rfl⟩,
        hread (by omega)⟩
  · rw [hflag, if_pos rfl, if_pos rfl]
    apply hp.cover_iff
    · rw [List.map_append, Level.map_index_ofScale, List.length_set, List.length_replicate]
      conv_rhs => rw [← Nat.sub_add_cancel (show 1 <= p.lvlb by omega), List.range_succ]
      exact List.Perm.refl _
    · intro l hl
      rw [List.mem_append, List.mem_singleton] at hl
      rcases hl with hl | rfl
      · rcases List.mem_map.mp hl with ⟨s, hs, rfl⟩
        rw [List.mem_range] at hs
        refine Or.inl ⟨_, _, _, _, rfl, ?_⟩
        rw [List.getElem?_set_ne (by omega), hread (by omega)]
      · refine Or.inr ⟨hflag, _, _, _, _, rfl, ?_⟩
        rw [List.getElem?_set_self (by simp; omega)]
    · refine ⟨0, _, _, _, List.mem_append_left _
        (List.mem_map.mpr ⟨0, List.mem_range.mpr (by omega), rfl⟩), ?_⟩
      rw [List.getElem?_set_ne (by omega), hread (by omega)]

/-! ## Keys of the rotations -/

theorem layers_le : p.layersCollapse <= logSlots ∧ p.remCollapse <= logSlots := by
  have hlt := hp.flagRem_lt
  have hmul := Nat.le_mul_of_pos_left p.layersCollapse (Nat.sub_pos_of_lt hlt)
  have hrows := hp.rows
  omega

theorem rotations_bounds (hlog : logSlots <= 29) :
    p.numRotations < 2 ^ 31 ∧ p.g <= p.numRotations + 1 ∧
      (p.flagRem = 1 -> p.numRotationsRem < 2 ^ 31 ∧ p.gRem <= p.numRotationsRem + 1) := by
  rcases hp.layers_le with ⟨hlayers, hrem⟩
  have hpow {l : Nat} (hl : l <= 29) : 2 ^ (l + 1) - 1 < 2 ^ 31 := by
    have hle : 2 ^ (l + 1) <= 2 ^ 30 := Nat.pow_le_pow_right (by omega) (by omega)
    omega
  refine ⟨?_, ?_, ?_⟩
  · rw [hp.numRotations]
    exact hpow (by omega)
  · rcases hp.g with ⟨_, _, hdvd⟩ | ⟨huser, heq⟩
    · exact Nat.le_of_dvd (Nat.succ_pos _) hdvd
    · omega
  · intro hflag
    constructor
    · rw [hp.numRotationsRem]
      exact hpow (by omega)
    · exact Nat.le_of_dvd (Nat.succ_pos _) (hp.remainder hflag).right.right

theorem coeffsToSlots_rotations (hlog : logSlots <= 29) {slots M : Nat} {indices : List Nat}
    (hfind : findCoeffsToSlotsRotationIndices p slots M = some indices) {l : Level}
    (hl : l ∈ coeffsToSlotsLevels p slots M) {r : Nat} (hr : r ∈ l.rotations) :
    r ≠ 0 ∧ r ∈ indices := by
  rcases hp.rotations_bounds hlog with ⟨hn, hg, hrem⟩
  have hquarter : M >>> 2 = M / 4 := Nat.shiftRight_eq_div_pow M 2
  unfold findCoeffsToSlotsRotationIndices at hfind
  rw [hquarter] at hfind
  split at hfind
  next => cases hfind
  next =>
      cases hfind
      rw [List.mem_append, List.mem_append]
      rcases List.mem_append.mp hl with hl | hl
      · rcases List.mem_map.mp hl with ⟨s, hs, rfl⟩
        rcases Level.rotations_ofScale hn hg hr with ⟨hne, hmem⟩
        exact ⟨hne, Or.inl (Or.inr (List.mem_flatMap.mpr ⟨s, hs, hmem⟩))⟩
      · split at hl
        next hflag =>
          rcases hrem hflag with ⟨hnRem, hgRem⟩
          rw [List.mem_singleton.mp hl] at hr
          rcases Level.rotations_ofScale hnRem hgRem hr with ⟨hne, hmem⟩
          rw [if_pos hflag]
          exact ⟨hne, Or.inr hmem⟩
        next => cases hl

theorem slotsToCoeffs_rotations (hlog : logSlots <= 29) {slots M : Nat} {indices : List Nat}
    (hfind : findSlotsToCoeffsRotationIndices p slots M = some indices) {l : Level}
    (hl : l ∈ slotsToCoeffsLevels p M) {r : Nat} (hr : r ∈ l.rotations) :
    r ≠ 0 ∧ r ∈ indices := by
  rcases hp.rotations_bounds hlog with ⟨hn, hg, hrem⟩
  have hquarter : M >>> 2 = M / 4 := Nat.shiftRight_eq_div_pow M 2
  unfold findSlotsToCoeffsRotationIndices at hfind
  rw [hquarter] at hfind
  split at hfind
  next => cases hfind
  next =>
      cases hfind
      rw [List.mem_append, List.mem_append]
      rcases List.mem_append.mp hl with hl | hl
      · rcases List.mem_map.mp hl with ⟨s, hs, rfl⟩
        rcases Level.rotations_ofScale hn hg hr with ⟨hne, hmem⟩
        exact ⟨hne, Or.inl (Or.inr (List.mem_flatMap.mpr ⟨s, hs, hmem⟩))⟩
      · split at hl
        next hflag =>
          rcases hrem hflag with ⟨hnRem, hgRem⟩
          rw [List.mem_singleton.mp hl] at hr
          rcases Level.rotations_ofScale hnRem hgRem hr with ⟨hne, hmem⟩
          rw [if_pos hflag]
          exact ⟨hne, Or.inr hmem⟩
        next => cases hl

end BootParams.Collapsed

/-- Every rotation that a bootstrapping requests is listed, the one by `M / 4` apart. -/
def RotationsListed (p : BootstrapPrecom) (M : Nat) : Prop :=
  forall indices, findBootstrapRotationIndices p M = some indices ->
    forall l, l ∈ bootstrapLevels p M -> forall r, r ∈ l.rotations -> r ≠ M / 4 -> r ∈ indices

theorem rotationsListed {p : BootstrapPrecom} {logSlots : Nat} {budget dim1 : Nat × Nat}
    (henc : p.paramsEnc.Collapsed logSlots budget.1 dim1.1)
    (hdec : p.paramsDec.Collapsed logSlots budget.2 dim1.2) (hlog : logSlots <= 29) (M : Nat) :
    RotationsListed p M := by
  intro indices hfind l hl r hr hquarter
  rcases Option.map_eq_some_iff.mp hfind with ⟨collected, hcollected, rfl⟩
  unfold collectedIndices at hcollected
  unfold bootstrapLevels at hl
  split at hl
  next => cases hl
  next hlinear =>
      rw [if_neg hlinear] at hcollected
      rcases Option.bind_eq_some_iff.mp hcollected with ⟨enc, hfindEnc, hrest⟩
      rcases Option.bind_eq_some_iff.mp hrest with ⟨dec, hfindDec, happend⟩
      cases happend
      have hmem : r ≠ 0 ∧ r ∈ enc ++ dec := by
        rw [List.mem_append]
        rcases List.mem_append.mp hl with hl | hl
        · rcases henc.coeffsToSlots_rotations hlog hfindEnc hl hr with ⟨hne, hmem⟩
          exact ⟨hne, Or.inl hmem⟩
        · rcases hdec.slotsToCoeffs_rotations hlog hfindDec hl hr with ⟨hne, hmem⟩
          exact ⟨hne, Or.inr hmem⟩
      rw [Finset.mem_sort, Finset.mem_erase, Finset.mem_erase, Finset.mem_insert,
        List.mem_toFinset]
      exact ⟨hquarter, hmem.left, Or.inr hmem.right⟩

/-! ## The bookkeeping of bootstrapping -/

/-- The levels cover the stored diagonals and the keys cover their rotations. -/
structure LevelsCorrect (p : BootstrapPrecom) (M : Nat) : Prop where
  coeffsToSlots : CoverDiagonals (coeffsToSlotsLevels p.paramsEnc p.slots M)
    (coeffsToSlotsSizes p.paramsEnc)
  slotsToCoeffs : CoverDiagonals (slotsToCoeffsLevels p.paramsDec M)
    (slotsToCoeffsSizes p.paramsDec)
  rotations : RotationsListed p M

theorem evalBootstrapSetup_spec {logSlots M : Nat} {budget : Nat × Nat}
    (henc : 0 < budget.1 ∧ budget.1 <= logSlots) (hdec : 0 < budget.2 ∧ budget.2 <= logSlots)
    (dim1 : Nat × Nat) :
    exists p, evalBootstrapSetup M budget dim1 (2 ^ logSlots) = some p ∧
      p.slots = 2 ^ logSlots ∧ p.paramsEnc.Collapsed logSlots budget.1 dim1.1 ∧
      p.paramsDec.Collapsed logSlots budget.2 dim1.2 := by
  have hclamp {budget : Nat} (hbudget : 0 < budget ∧ budget <= logSlots) :
      clampBudget logSlots budget = budget := by
    unfold clampBudget
    dsimp only
    rw [if_neg (show ¬budget > logSlots by omega), if_neg (by omega)]
  rcases getCollapsedFFTParams_spec henc.left henc.right dim1.1 with ⟨enc, hgetEnc, hcolEnc⟩
  rcases getCollapsedFFTParams_spec hdec.left hdec.right dim1.2 with ⟨dec, hgetDec, hcolDec⟩
  refine ⟨{ slots := 2 ^ logSlots, paramsEnc := enc, paramsDec := dec }, ?_, rfl, hcolEnc,
    hcolDec⟩
  unfold evalBootstrapSetup
  dsimp only
  rw [if_neg (Nat.two_pow_pos logSlots).ne', logSlots_of_two_pow (by omega), hclamp henc,
    hclamp hdec, hgetEnc, hgetDec]
  rfl

/--
Bootstrapping goes through every diagonal once with listed rotations if and only if
both inner dimensions cut the diagonals of a full level evenly.
-/
theorem levelsCorrect_iff {logSlots logOrder : Nat} (horder : logSlots + 2 <= logOrder)
    (hword : logOrder < 32) {budget : Nat × Nat}
    (henc : 0 < budget.1 ∧ budget.1 <= logSlots) (hdec : 0 < budget.2 ∧ budget.2 <= logSlots)
    (dim1 : Nat × Nat) :
    exists p, evalBootstrapSetup (2 ^ logOrder) budget dim1 (2 ^ logSlots) = some p ∧
      (LevelsCorrect p (2 ^ logOrder) <->
        CutsEvenly (2 ^ (collapsedLayers logSlots budget.1 + 1) - 1) dim1.1 ∧
          CutsEvenly (2 ^ (collapsedLayers logSlots budget.2 + 1) - 1) dim1.2) := by
  rcases evalBootstrapSetup_spec (M := 2 ^ logOrder) henc hdec dim1 with
    ⟨p, hsetup, hslots, hcolEnc, hcolDec⟩
  refine ⟨p, hsetup, ?_⟩
  rw [← hcolEnc.layers, ← hcolEnc.numRotations, ← hcolDec.layers, ← hcolDec.numRotations,
    ← hcolEnc.coeffsToSlots_cover_iff p.slots (2 ^ logOrder),
    ← hcolDec.slotsToCoeffs_cover_iff (2 ^ logOrder)]
  constructor
  · intro h
    exact ⟨h.coeffsToSlots, h.slotsToCoeffs⟩
  · intro h
    exact ⟨h.left, h.right, rotationsListed hcolEnc hcolDec (by omega) _⟩

/-- Sixteen slots in two levels each, with the automatic inner dimension and with four. -/
theorem levelsCorrect_iff_sixteen :
    exists p, evalBootstrapSetup (2 ^ 6) (2, 2) (0, 4) (2 ^ 4) = some p ∧
      (LevelsCorrect p (2 ^ 6) <->
        CutsEvenly (2 ^ (collapsedLayers 4 2 + 1) - 1) 0 ∧
          CutsEvenly (2 ^ (collapsedLayers 4 2 + 1) - 1) 4) :=
  levelsCorrect_iff (by decide) (by decide) (by decide) (by decide) (0, 4)

/-- With an inner dimension of three the last of seven diagonals is left out. -/
theorem three_drops_diagonal :
    exists p, evalBootstrapSetup (2 ^ 6) (2, 2) (3, 0) (2 ^ 4) = some p ∧
      ¬LevelsCorrect p (2 ^ 6) ∧
      forall l, l ∈ coeffsToSlotsLevels p.paramsEnc (2 ^ 4) (2 ^ 6) ->
        l.numRotations = 7 ∧ l.diagonals = [0, 1, 2, 3, 4, 5] := by
  refine ⟨⟨16, ⟨2, 2, 0, 7, 2, 3, 1, 0, 0⟩, ⟨2, 2, 0, 7, 2, 4, 1, 0, 0⟩⟩,
    by decide +kernel, ?_, by decide +kernel⟩
  intro h
  rcases h.coeffsToSlots.right (Level.ofScale 1 7 2 3 4 16 16) (by decide +kernel) with
    ⟨size, hsize, hperm⟩
  cases hsize
  exact absurd (hperm.mem_iff.mpr (by decide : 6 ∈ List.range 7)) (by decide +kernel)

/-! ## The level budget -/

/--
The ceiling of a quotient of two words that is rounded to a `double`: a quotient that is no
integer stays between its neighbours.
-/
theorem ceil_rounded {a b : Nat} (hb : 0 < b) (ha : a < 2 ^ 32) {x : Rat}
    (herror : |x - a / b| <= a / b / 2 ^ 53) (hexact : b ∣ a -> x = a / b) :
    ⌈x⌉ = ceilDiv a b := by
  have hbQ : (0 : Rat) < b := by exact_mod_cast hb
  have haQ : (a : Rat) < 2 ^ 32 := by exact_mod_cast ha
  rcases ceilDiv_bounds (a := a) hb with ⟨hceil, hfloor⟩
  have hceilQ : (a : Rat) <= ceilDiv a b * b := by exact_mod_cast hceil
  have hfloorQ : (ceilDiv a b * b : Rat) + 1 <= a + b := by exact_mod_cast hfloor
  rw [Int.ceil_eq_iff, Int.cast_natCast]
  by_cases hdvd : b ∣ a
  · rw [hexact hdvd]
    constructor
    · rw [lt_div_iff₀ hbQ]
      linarith
    · rwa [div_le_iff₀ hbQ]
  · have hne : a ≠ ceilDiv a b * b := by
      intro heq
      exact hdvd ⟨ceilDiv a b, by rw [Nat.mul_comm]; exact heq⟩
    have hstrictQ : (a : Rat) + 1 <= ceilDiv a b * b := by
      exact_mod_cast Nat.lt_of_le_of_ne hceil hne
    -- the error is below the distance `1 / b` of the quotient from the next integer
    have hsmall : (a : Rat) / b / 2 ^ 53 < 1 / b := by
      rw [div_div, mul_comm, ← div_div]
      exact (div_lt_div_iff_of_pos_right hbQ).mpr (by rw [div_lt_one (by positivity)]; linarith)
    rcases abs_le.mp herror with ⟨hlow, hhigh⟩
    have hupper : (a : Rat) / b + 1 / b <= ceilDiv a b := by
      rw [← add_div, div_le_iff₀ hbQ]
      exact hstrictQ
    have hlower : (ceilDiv a b : Rat) - 1 + 1 / b <= a / b := by
      rw [le_div_iff₀ hbQ, add_mul, div_mul_cancel₀ _ hbQ.ne']
      linarith
    constructor <;> linarith

/-- The logarithm that the parameters take of the slots. -/
def transformLogSlots (slots : Nat) : Nat := if slots < 3 then 1 else Nat.log2 slots

theorem getCollapsedFFTParams_congr {slots logSlots : Nat} (hslots : 0 < slots)
    (hpos : 0 < logSlots) (hlog : transformLogSlots slots = logSlots) (budget dim1 : Nat) :
    getCollapsedFFTParams slots budget dim1 =
      getCollapsedFFTParams (2 ^ logSlots) budget dim1 := by
  unfold transformLogSlots at hlog
  unfold getCollapsedFFTParams
  rw [if_neg hslots.ne', if_neg (Nat.two_pow_pos _).ne', hlog, logSlots_of_two_pow hpos]

theorem coeffsToSlotsLevels_length {p : BootParams} (slots M : Nat) (h : p.flagRem < p.lvlb) :
    (coeffsToSlotsLevels p slots M).length = p.lvlb := by
  unfold coeffsToSlotsLevels
  rw [List.length_append, List.length_map, List.length_reverse, List.length_range']
  rcases BootParams.Collapsed.flagRem_eq (p := p) with ⟨hflag, _⟩ | ⟨hflag, _⟩
  · rw [hflag, if_neg (by decide), List.length_nil]
    rfl
  · rw [hflag] at h
    rw [hflag, if_pos rfl, List.length_singleton, Nat.sub_add_cancel h.le]

theorem slotsToCoeffsLevels_length {p : BootParams} (M : Nat) (h : p.flagRem < p.lvlb) :
    (slotsToCoeffsLevels p M).length = p.lvlb := by
  unfold slotsToCoeffsLevels
  rw [List.length_append, List.length_map, List.length_range]
  rcases BootParams.Collapsed.flagRem_eq (p := p) with ⟨hflag, _⟩ | ⟨hflag, _⟩
  · rw [hflag, if_neg (by decide), List.length_nil]
    rfl
  · rw [hflag] at h
    rw [hflag, if_pos rfl, List.length_singleton, Nat.sub_add_cancel h.le]

/-- The parameters describe as many levels as the budget, with all layers in them. -/
structure FillsBudget (p : BootParams) (logSlots budget : Nat) : Prop where
  lvlb : p.lvlb = budget
  layers_pos : 0 < p.layersCollapse
  layers : (budget - p.flagRem) * p.layersCollapse + p.remCollapse = logSlots
  coeffsToSlots (slots M : Nat) : (coeffsToSlotsLevels p slots M).length = budget
  slotsToCoeffs (M : Nat) : (slotsToCoeffsLevels p M).length = budget

/--
A budget between one level and one level for each layer is met exactly, whatever `double`
the quotient of the layers and the budget is rounded to.
-/
theorem selectLayers_fillsBudget {logSlots budget : Nat} (hbudget : 1 <= budget)
    (hle : budget <= logSlots) (hword : logSlots < 2 ^ 32) :
    (forall x : Rat, |x - logSlots / budget| <= logSlots / budget / 2 ^ 53 ->
        (budget ∣ logSlots -> x = logSlots / budget) -> ⌈x⌉ = ceilDiv logSlots budget) ∧
      (exists layers rows rem, selectLayers logSlots budget = some (layers, rows, rem) ∧
        1 <= layers ∧ layers * rows + rem = logSlots ∧
        rows + (if rem > 0 then 1 else 0) = budget) ∧
      forall slots dim1, 0 < slots -> transformLogSlots slots = logSlots ->
        exists p, getCollapsedFFTParams slots budget dim1 = some p ∧
          FillsBudget p logSlots budget := by
  constructor
  · intro x herror hexact
    exact ceil_rounded hbudget hword herror hexact
  · constructor
    · rcases selectLayers_spec hbudget hle with ⟨rows, rem, hselect, hpos, _, hrows, hdim⟩
      refine ⟨_, rows, rem, hselect, hpos, ?_, ?_⟩
      · rw [Nat.mul_comm]
        exact hrows
      · rw [hdim]
        simp only [Nat.pos_iff_ne_zero]
    · intro slots dim1 hslots hlog
      rcases getCollapsedFFTParams_spec hbudget hle dim1 with ⟨p, hget, hp⟩
      refine ⟨p, ?_, ?_⟩
      · rw [getCollapsedFFTParams_congr hslots (by omega) hlog, hget]
      · constructor
        case lvlb => exact hp.lvlb
        case layers_pos => exact hp.layers_pos
        case layers =>
          rw [← hp.lvlb]
          exact hp.rows
        case coeffsToSlots =>
          intro slots M
          rw [coeffsToSlotsLevels_length slots M hp.flagRem_lt, hp.lvlb]
        case slotsToCoeffs =>
          intro M
          rw [slotsToCoeffsLevels_length M hp.flagRem_lt, hp.lvlb]

/-- Seven layers in five levels: the remainder of three outgrows a layer. -/
theorem selectLayers_fillsBudget_seven :
    (forall x : Rat, |x - (7 : Nat) / (5 : Nat)| <= (7 : Nat) / (5 : Nat) / 2 ^ 53 ->
        (5 ∣ 7 -> x = (7 : Nat) / (5 : Nat)) -> ⌈x⌉ = ceilDiv 7 5) ∧
      (exists layers rows rem, selectLayers 7 5 = some (layers, rows, rem) ∧
        1 <= layers ∧ layers * rows + rem = 7 ∧
        rows + (if rem > 0 then 1 else 0) = 5) ∧
      forall slots dim1, 0 < slots -> transformLogSlots slots = 7 ->
        exists p, getCollapsedFFTParams slots 5 dim1 = some p ∧ FillsBudget p 7 5 :=
  selectLayers_fillsBudget (by decide) (by decide) (by decide)

example : selectLayers 7 5 = some (1, 4, 3) := by decide

end Ckksrns
end Scheme
end OpenFHE
