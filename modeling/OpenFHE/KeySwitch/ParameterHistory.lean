import OpenFHE.KeySwitch.HybridParameters
import Mathlib.Data.Rat.Floor

/-!
# The estimate of the special primes

`EstimateLogP` leaves the number of special primes in a global of the file, and
the next `PrecomputeCRTTables` of the hybrid technique compares it with its own
number.  The two calls need not belong to the same context.
-/

namespace OpenFHE
namespace KeySwitch

open OpenFHE.Core Foundation NativeInteger Hal

inductive KeySwitchTechnique where
  | INVALID_KS_TECH
  | BV
  | HYBRID
deriving DecidableEq, Repr

/-- The exceptions of the two functions. -/
inductive ParameterException where
  | numPartQIsZero
  | cannotDistribute (sizeQ numPartQ : Nat)
  | estimateFailure (expected got : Nat)
  | noSpecialPrime
  | noInverse
deriving DecidableEq, Repr

def ParameterException.message : ParameterException -> String
  | .numPartQIsZero => "numPartQ is zero"
  | .cannotDistribute sizeQ numPartQ =>
      "HYBRID key switching parameters: Can't appropriately distribute " ++ toString sizeQ ++
        " towers into " ++ toString numPartQ ++
        " digits. Please select different number of digits."
  | .estimateFailure expected got =>
      "EstimateLogP() failure: expected sizeP [" ++ toString expected ++ "], but got sizeP [" ++
        toString got ++ "]"
  | .noSpecialPrime => "Overflow shrinking candidate"
  | .noInverse => "does not have a ModInverse"

/-! ## `EstimateLogP` -/

/-- The arguments of `EstimateLogP`; sizes of moduli in bits may be fractional. -/
structure EstimateArguments where
  numPartQ : Nat
  firstModulusSize : Rat
  dcrtBits : Rat
  extraModulusSize : Rat
  numPrimes : Nat
  auxBits : Nat
  addOne : Bool
  isNoiseFloodingMultiparty : Bool

namespace EstimateArguments

variable (arguments : EstimateArguments)

def sizeQ : Nat :=
  if arguments.extraModulusSize > 0 then arguments.numPrimes + 1 else arguments.numPrimes

def bitSizes : List Rat :=
  let qi := (List.replicate arguments.sizeQ arguments.dcrtBits).set 0
    arguments.firstModulusSize
  let qi :=
    if arguments.extraModulusSize > 0 then
      qi.set (arguments.sizeQ - 1) arguments.extraModulusSize
    else qi
  if arguments.isNoiseFloodingMultiparty then (qi.set 1 60).set 2 60 else qi

def maxBits (numPartQ numPerPartQ : Nat) : Nat :=
  (List.range numPartQ).foldl (fun maxBits j =>
    let digit := (arguments.bitSizes.drop (j * numPerPartQ)).take numPerPartQ
    let bits := usint (digit.foldl (· + ·) 0).floor
    if bits > maxBits then bits else maxBits) 0

end EstimateArguments

/-- `EstimateLogP` on the global: its result and the global after it. -/
def estimateLogP (arguments : EstimateArguments) (sizePEstimate : Nat) :
    Except ParameterException (Nat × Nat) × Nat :=
  if arguments.numPartQ = 0 then (.error .numPartQIsZero, sizePEstimate)
  else
    let sizeQ := arguments.sizeQ
    let numPartQ := if arguments.numPartQ > sizeQ then sizeQ else arguments.numPartQ
    let numPerPartQ := ceilDiv sizeQ numPartQ
    if sizeQ <= numPerPartQ * (numPartQ - 1) then
      (.error (.cannotDistribute sizeQ numPartQ), sizePEstimate)
    else
      let maxBits := arguments.maxBits numPartQ numPerPartQ
      let maxBits :=
        if arguments.addOne && maxBits != arguments.auxBits then maxBits + 1 else maxBits
      let sizeP := usint (ceilDiv maxBits arguments.auxBits)
      (.ok (usint (sizeP * arguments.auxBits), sizeP), sizeP)

/-! ## `PrecomputeCRTTables` -/

/--
The context of a call and its arguments.  The step of the special primes is the
value of the virtual `FindAuxPrimeStep`, the ring dimension in the base class.
-/
structure TableRequest where
  ringDimension : Nat
  auxPrimeStep : Nat
  moduliQ : List Nat
  noiseScale : Nat
  ksTech : KeySwitchTechnique
  numPartQ : Nat
  auxBits : Nat
deriving DecidableEq, Repr

/-- The search for primes in an arithmetic progression; `none` is an exception. -/
structure PrimeSearch where
  FirstPrime : Nat -> Nat -> Option Nat
  PreviousPrime : Nat -> Nat -> Option Nat

/-- The tables of the hybrid technique, functions of the moduli. -/
structure HybridTables where
  params : HybridParameters
  PModq : List Nat
  PInvModq : List Nat
  switchTables : List (List DCRTPoly.SwitchTables)

/-- What a call stores; without the hybrid technique only its settings. -/
structure CRTTables where
  request : TableRequest
  hybrid : Option HybridTables

namespace TableRequest

variable (request : TableRequest)

def sizeQ : Nat := request.moduliQ.length

def numPerPartQ : Nat := ceilDiv request.sizeQ request.numPartQ

def maxBits : Nat :=
  (List.range request.numPartQ).foldl (fun maxBits j =>
    let moduliPartQ :=
      ((request.moduliQ.drop (request.numPerPartQ * j)).take request.numPerPartQ).prod
    if moduliPartQ.size > maxBits then moduliPartQ.size else maxBits) 0

def sizeP : Nat := usint (ceilDiv request.maxBits request.auxBits)

/-- The `do` loop that steps down to a prime outside `moduliQ`. -/
def previousOutside (primes : PrimeSearch) : Nat -> Nat -> Option Nat
  | 0, _ => none
  | fuel + 1, pPrev =>
      match primes.PreviousPrime pPrev request.auxPrimeStep with
      | none => none
      | some p =>
          if p ∈ request.moduliQ then previousOutside primes fuel p else some p

def specialPrimes (primes : PrimeSearch) : Nat -> Nat -> Option (List Nat)
  | 0, _ => some []
  | count + 1, pPrev =>
      match request.previousOutside primes (request.sizeQ + 1) pPrev with
      | none => none
      | some p => (specialPrimes primes count p).map (p :: ·)

def hybridTables (params : HybridParameters) : Option HybridTables := do
  let pModq <- (List.range params.sizeQ).mapM params.pModq
  let pInvModq <- params.moduliQ.mapM (bigModInverse params.modulusP)
  let tables <- (List.range params.sizeQ).mapM fun l =>
    (List.range (params.digitCount l)).mapM fun j =>
      params.switchTables l j (params.digitSize l j)
  return {
    params := params
    PModq := pModq
    PInvModq := pInvModq
    switchTables := tables }

/-- The part of the hybrid branch behind the comparison with the estimate. -/
def buildTables (primes : PrimeSearch) : Except ParameterException CRTTables :=
  match (primes.FirstPrime request.auxBits request.auxPrimeStep).bind
      (request.specialPrimes primes request.sizeP) with
  | none => .error .noSpecialPrime
  | some moduliP =>
      let params : HybridParameters :=
        { ringDimension := request.ringDimension
          moduliQ := request.moduliQ
          moduliP := moduliP
          numPartQ := request.numPartQ
          noiseScale := request.noiseScale }
      match hybridTables params with
      | none => .error .noInverse
      | some tables => .ok { request := request, hybrid := some tables }

end TableRequest

/-- `PrecomputeCRTTables` on the global: its result and the global after it. -/
def precomputeCRTTables (primes : PrimeSearch) (request : TableRequest)
    (sizePEstimate : Nat) : Except ParameterException CRTTables × Nat :=
  if request.ksTech = .HYBRID then
    if request.numPartQ = 0 then (.error .numPartQIsZero, sizePEstimate)
    else if request.sizeQ <= usint (request.numPerPartQ * (request.numPartQ - 1)) then
      (.error (.cannotDistribute request.sizeQ request.numPartQ), sizePEstimate)
    else if sizePEstimate > 0 then
      if sizePEstimate ≠ request.sizeP then
        (.error (.estimateFailure sizePEstimate request.sizeP), sizePEstimate)
      else (request.buildTables primes, 0)
    else (request.buildTables primes, sizePEstimate)
  else (.ok { request := request, hybrid := none }, sizePEstimate)

/-! ## Histories -/

inductive ParameterCall where
  | EstimateLogP (arguments : EstimateArguments)
  | PrecomputeCRTTables (request : TableRequest)

/-- The global after a call, also one that throws. -/
def ParameterCall.step (primes : PrimeSearch) (sizePEstimate : Nat) : ParameterCall -> Nat
  | .EstimateLogP arguments => (estimateLogP arguments sizePEstimate).2
  | .PrecomputeCRTTables request => (precomputeCRTTables primes request sizePEstimate).2

def estimateAfter (primes : PrimeSearch) (calls : List ParameterCall) : Nat :=
  calls.foldl (ParameterCall.step primes) 0

/-- The call reaches the comparison with the estimate. -/
def TableRequest.Compares (request : TableRequest) : Prop :=
  request.ksTech = .HYBRID ∧ request.numPartQ ≠ 0 ∧
    Not (request.sizeQ <= usint (request.numPerPartQ * (request.numPartQ - 1)))

variable {primes : PrimeSearch} {request : TableRequest}

theorem buildTables_ne_estimateFailure (expected got : Nat) :
    request.buildTables primes ≠ .error (.estimateFailure expected got) := by
  unfold TableRequest.buildTables
  split
  · simp
  · dsimp only
    split
    · simp
    · simp

theorem precomputeCRTTables_of_not_compares (h : Not request.Compares)
    (sizePEstimate : Nat) :
    (precomputeCRTTables primes request sizePEstimate).1 =
      (precomputeCRTTables primes request 0).1 := by
  unfold precomputeCRTTables
  by_cases hks : request.ksTech = .HYBRID
  · rw [if_pos hks, if_pos hks]
    by_cases hpart : request.numPartQ = 0
    · rw [if_pos hpart, if_pos hpart]
    · rw [if_neg hpart, if_neg hpart]
      have hdist : request.sizeQ <= usint (request.numPerPartQ * (request.numPartQ - 1)) :=
        not_not.mp fun hdist => h ⟨hks, hpart, hdist⟩
      rw [if_pos hdist, if_pos hdist]
  · rw [if_neg hks, if_neg hks]

theorem precomputeCRTTables_of_compares (h : request.Compares) (sizePEstimate : Nat) :
    (precomputeCRTTables primes request sizePEstimate).1 =
      if sizePEstimate = 0 ∨ sizePEstimate = request.sizeP then request.buildTables primes
      else .error (.estimateFailure sizePEstimate request.sizeP) := by
  rcases h with ⟨hks, hpart, hdist⟩
  unfold precomputeCRTTables
  rw [if_pos hks, if_neg hpart, if_neg hdist]
  cases Nat.eq_zero_or_pos sizePEstimate with
  | inl hzero =>
      simp [hzero]
  | inr hpos =>
      rw [if_pos hpos]
      by_cases heq : sizePEstimate = request.sizeP
      · rw [if_neg (not_not.mpr heq), if_pos (Or.inr heq)]
      · rw [if_pos heq, if_neg (not_or.mpr ⟨hpos.ne', heq⟩)]

/--
After any history, a call has the outcome it has in a new process exactly when
it does not compare, nothing is left over, or what is left over fits.
-/
theorem precomputeCRTTables_history_iff (primes : PrimeSearch) (calls : List ParameterCall)
    (request : TableRequest) :
    (precomputeCRTTables primes request (estimateAfter primes calls)).1 =
        (precomputeCRTTables primes request (estimateAfter primes [])).1 <->
      Not request.Compares ∨ estimateAfter primes calls = 0 ∨
        estimateAfter primes calls = request.sizeP := by
  have hfresh : estimateAfter primes [] = 0 := rfl
  rw [hfresh]
  by_cases hcmp : request.Compares
  · rw [precomputeCRTTables_of_compares hcmp, precomputeCRTTables_of_compares hcmp,
      if_pos (Or.inl rfl), or_iff_right (not_not.mpr hcmp)]
    constructor
    · intro h
      by_contra hstale
      rw [if_neg hstale] at h
      exact buildTables_ne_estimateFailure _ _ h.symm
    · intro h
      rw [if_pos h]
  · exact ⟨fun _ => Or.inl hcmp, fun _ => precomputeCRTTables_of_not_compares hcmp _⟩

/-- An estimate for four towers of 60 bits, whose parameter generation is abandoned. -/
def abandonedEstimate : EstimateArguments where
  numPartQ := 1
  firstModulusSize := 60
  dcrtBits := 60
  extraModulusSize := 0
  numPrimes := 4
  auxBits := 60
  addOne := false
  isNoiseFloodingMultiparty := false

def smallRequest : TableRequest where
  ringDimension := 8
  auxPrimeStep := 8
  moduliQ := [17, 97]
  noiseScale := 1
  ksTech := .HYBRID
  numPartQ := 1
  auxBits := 11

def smallPrimes : PrimeSearch where
  FirstPrime := fun nBits m =>
    ((List.range 64).map fun i => 2 ^ nBits + 1 + i * m).find? fun p => decide p.Prime
  PreviousPrime := fun q m =>
    ((List.range 64).map fun i => q - (i + 1) * m).find? fun p => decide p.Prime

theorem smallRequest_fails_after_abandonedEstimate :
    (precomputeCRTTables smallPrimes smallRequest
        (estimateAfter smallPrimes [.EstimateLogP abandonedEstimate])).1 =
          .error (.estimateFailure 4 1) ∧
      (precomputeCRTTables smallPrimes smallRequest (estimateAfter smallPrimes [])).1 ≠
        .error (.estimateFailure 4 1) := by
  have hestimate : (estimateLogP abandonedEstimate 0).2 = 4 := by decide +kernel
  have hleft : estimateAfter smallPrimes [.EstimateLogP abandonedEstimate] = 4 := hestimate
  have hcmp : smallRequest.Compares := ⟨rfl, by decide, by decide⟩
  have hsize : smallRequest.sizeP = 1 := by decide +kernel
  constructor
  · rw [hleft, precomputeCRTTables_of_compares hcmp, hsize, if_neg (by decide)]
  · have hfresh : estimateAfter smallPrimes [] = 0 := rfl
    rw [hfresh, precomputeCRTTables_of_compares hcmp, if_pos (Or.inl rfl)]
    exact buildTables_ne_estimateFailure 4 1

end KeySwitch
end OpenFHE
