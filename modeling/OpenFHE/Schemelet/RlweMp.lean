import OpenFHE.Hal.LargePolynomial
import OpenFHE.Hal.Residues
import OpenFHE.Schemelet.BitReverse

/-!
# Coefficient packing

`SchemeletRLWEMP` packs integers into the coefficients of an RLWE ciphertext modulo a power of
two.  The encryption is one of zero under an RNS modulus, switched to the large modulus, to which
the scaled integers are added.
-/

namespace OpenFHE
namespace Schemelet

open Foundation Hal

/-! ## Encryption -/

/-- The modulus switching that both functions write out, from `Q'` to `Q`. -/
def switchToModulus (Q bigQPrime : Nat) (a : Poly) : Option Poly :=
  if Q < bigQPrime then do
    let a <- Poly.multiplyAndRound a Q bigQPrime
    Poly.switchModulusLarge a Q
  else do
    let a <- Poly.switchModulusLarge a Q
    Poly.multiplyAndRound a Q bigQPrime

/-- An element drops the towers that the element parameters lack, and is multiplied. -/
def timesSecret (a secret : DCRTPoly) : Option DCRTPoly := do
  let scopy <- DCRTPoly.dropLastElements secret (secret.length - a.length)
  DCRTPoly.times a scopy

/-- The quotient by `2.0 * input.size()`, cut off; for an empty vector it has no value. -/
def inputGap (ringDimension size : Nat) : Option Nat :=
  if size = 0 then none else some (ringDimension / (2 * size))

/-- A negative entry is lifted to the modulus; the product is not reduced. -/
def scaledEntry (modulus delta : Nat) (x : Int) : Nat :=
  delta * if x < 0 then modulus - x.natAbs else x.toNat

def writeAt (values : List Nat) (i x : Nat) : Option (List Nat) :=
  if i < values.length then some (values.set i x) else none

def writeEntry (modulus delta gap limit : Nat) (input : List Int) (values : List Nat) (i : Nat) :
    Option (List Nat) := do
  let x <- input[i]?
  let values <- writeAt values (i * gap) (scaledEntry modulus delta x)
  if 1 < gap then writeAt values ((i + limit) * gap) (scaledEntry modulus delta x)
  else some values

/-- The vector is reversed as a whole or, without a gap between its entries, by halves. -/
def reorder (bitReverse halves : Bool) (vals : List Int) : Option (List Int) :=
  if bitReverse then if halves then bitReverseTwoHalves vals else bitReverseVector vals
  else some vals

def messagePolynomial (ringDimension Q p : Nat) (input : List Int) (bitReverse : Bool) :
    Option Poly :=
  if p = 0 then none
  else do
    let delta := Q / p
    let gap <- inputGap ringDimension input.length
    let input <- reorder bitReverse (gap = 0) input
    let gap := if gap = 0 then 1 else gap
    let limit := if input.length < ringDimension then input.length else ringDimension
    let values <- (List.range limit).foldlM (writeEntry Q delta gap limit input)
      (List.replicate ringDimension 0)
    return { modulus := Q, format := .COEFFICIENT, values := values }

/-- `EncryptCoeff` with the samples `a` and `e`; the towers of `a` are the element parameters. -/
def encryptCoeff (cache : Poly.TableCache) (ringDimension : Nat) (a e secret : DCRTPoly)
    (input : List Int) (Q p : Nat) (bitReverse : Bool) : Option (List Poly) := do
  let product <- timesSecret a secret
  let b <- DCRTPoly.minus e product
  let a <- DCRTPoly.setFormat cache a .COEFFICIENT
  let aPoly <- DCRTPoly.crtInterpolate ringDimension a
  let b <- DCRTPoly.setFormat cache b .COEFFICIENT
  let bPoly <- DCRTPoly.crtInterpolate ringDimension b
  let bigQPrime := DCRTPoly.bigModulus b
  let bPoly <- switchToModulus Q bigQPrime bPoly
  let aPoly <- switchToModulus Q bigQPrime aPoly
  let mPoly <- messagePolynomial ringDimension Q p input bitReverse
  let bPoly <- Poly.plusEqLarge bPoly mPoly
  return [bPoly, aPoly]

/-! ## Decryption -/

/-- What `ModSwitchUp` and `ModSwitchDown` do with each of the two polynomials. -/
def switchFromModulus (Qfrom Qto : Nat) (input : Poly) : Option Poly :=
  if Qfrom < Qto then do
    let poly <- Poly.switchModulusLarge input Qto
    Poly.multiplyAndRound poly Qto Qfrom
  else do
    let poly <- Poly.multiplyAndRound input Qto Qfrom
    Poly.switchModulusLarge poly Qto

/-- `ModSwitchUp` or `ModSwitchDown`, of one polynomial. -/
def modSwitch (cache : Poly.TableCache) (moduli : List Nat) (ringDimension Qfrom Qto : Nat)
    (input : Poly) : Option DCRTPoly := do
  let switched <- switchFromModulus Qfrom Qto input
  let output <- DCRTPoly.ofPolyLarge moduli ringDimension switched
  DCRTPoly.setFormat cache output .EVALUATION

/-- The decrypted polynomial modulo `Q`, the noise included. -/
def decryptedPolynomial (cache : Poly.TableCache) (moduli : List Nat) (ringDimension : Nat)
    (secret : DCRTPoly) (input : List Poly) (Q : Nat) : Option Poly := do
  let bigQPrime := moduli.prod
  let b <- input[0]?
  let a <- input[1]?
  let b <- modSwitch cache moduli ringDimension Q bigQPrime b
  let a <- modSwitch cache moduli ringDimension Q bigQPrime a
  let product <- timesSecret a secret
  let m <- DCRTPoly.plus b product
  let m <- DCRTPoly.setFormat cache m .COEFFICIENT
  let mPoly <- DCRTPoly.crtInterpolate ringDimension m
  switchToModulus Q bigQPrime mPoly

/-- `ConvertToInt<int64_t>` -/
def convertToInt (x : Nat) : Int := Int.bmod x (2 ^ 64)

/-- An entry of the output; the negation is the one of `int64_t`. -/
def outputEntry (p : Nat) (mPoly : Poly) (idx : Nat) : Option Int := do
  let v <- mPoly.values[idx]?
  return if p >>> 1 < v then Int.bmod (-convertToInt (p - v)) (2 ^ 64) else convertToInt v

/-- `DecryptCoeff`; a number of slots whose double is zero has no quotient. -/
def decryptCoeff (cache : Poly.TableCache) (moduli : List Nat) (ringDimension : Nat)
    (secret : DCRTPoly) (input : List Poly) (Q p numSlots length : Nat) (bitReverse : Bool) :
    Option (List Int) := do
  let mPoly <- decryptedPolynomial cache moduli ringDimension secret input Q
  let slots := 2 * numSlots % 2 ^ 32
  if slots = 0 then none
  else do
    let gap := mPoly.values.length / slots
    let mPoly <- Poly.multiplyAndRound mPoly p Q
    let mPoly <- Poly.switchModulusLarge mPoly p
    let length := if length = 0 then numSlots else length
    let output <- (List.range length).mapM fun i => outputEntry p mPoly (i * gap)
    reorder bitReverse (numSlots < length) output

/-! ## Every step succeeds -/

section Success

variable {Q bigQPrime n : Nat} (hQ : 0 < Q) (hprime : 0 < bigQPrime)

include hQ hprime

theorem switchToModulus_sized {a : Poly} (ha : Poly.Sized bigQPrime n a) :
    exists b, switchToModulus Q bigQPrime a = some b ∧ Poly.Sized Q n b := by
  unfold switchToModulus
  split
  case isTrue =>
    rcases Poly.multiplyAndRound_spec ha hprime Q hprime with ⟨b, hb, hsized, _⟩
    rcases Poly.switchModulusLarge_sized hsized hQ with ⟨c, hc, hsized'⟩
    refine ⟨c, ?_, hsized'⟩
    rw [hb]
    exact hc
  case isFalse =>
    rcases Poly.switchModulusLarge_sized ha hQ with ⟨b, hb, hsized⟩
    rcases Poly.multiplyAndRound_spec hsized hQ Q hprime with ⟨c, hc, hsized', _⟩
    refine ⟨c, ?_, hsized'⟩
    rw [hb]
    exact hc

theorem switchFromModulus_sized {a : Poly} (ha : Poly.Sized Q n a) :
    exists b, switchFromModulus Q bigQPrime a = some b ∧ Poly.Sized bigQPrime n b := by
  unfold switchFromModulus
  split
  case isTrue =>
    rcases Poly.switchModulusLarge_sized ha hprime with ⟨b, hb, hsized⟩
    rcases Poly.multiplyAndRound_spec hsized hprime bigQPrime hQ with ⟨c, hc, hsized', _⟩
    refine ⟨c, ?_, hsized'⟩
    rw [hb]
    exact hc
  case isFalse =>
    rcases Poly.multiplyAndRound_spec ha hQ bigQPrime hQ with ⟨b, hb, hsized, _⟩
    rcases Poly.switchModulusLarge_sized hsized hprime with ⟨c, hc, hsized'⟩
    refine ⟨c, ?_, hsized'⟩
    rw [hb]
    exact hc

end Success

section Chain

variable {cache : Poly.TableCache} {k : Nat} {psi : Nat -> Nat} {moduli full : List Nat}
  (hk : 0 < k) (hk31 : k <= 31) (hready : DCRTPoly.ReadyChain cache k psi moduli)
  (hcoprime : moduli.Pairwise Nat.Coprime) (hne : moduli ≠ [])

include hk hk31 hready

theorem setFormat_wellFormed {a : DCRTPoly} {format : Format}
    (ha : DCRTPoly.WellFormed (2 ^ k) format moduli a) (target : Format) :
    exists r, DCRTPoly.setFormat cache a target = some r ∧
      DCRTPoly.WellFormed (2 ^ k) target moduli r :=
  DCRTPoly.setFormat_wellFormed hk hk31 (fun q hq => ⟨psi q, hready q hq⟩) ha target

theorem modSwitch_wellFormed {Q : Nat} (hQ : 0 < Q) {input : Poly}
    (hinput : Poly.Sized Q (2 ^ k) input) :
    exists a, modSwitch cache moduli (2 ^ k) Q moduli.prod input = some a ∧
      DCRTPoly.WellFormed (2 ^ k) .EVALUATION moduli a := by
  have hone (q : Nat) (hq : q ∈ moduli) : 1 < q := (hready q hq).modulus.one_lt
  have hprod : 0 < moduli.prod := DCRTPoly.prod_pos hone
  rcases switchFromModulus_sized hQ hprod hinput with ⟨b, hb, hsized⟩
  rcases DCRTPoly.ofPolyLarge_spec hone hsized.length_eq with ⟨a, ha, hwf, _⟩
  rw [hsized.format_eq] at hwf
  rcases setFormat_wellFormed hk hk31 hready hwf .EVALUATION with ⟨r, hr, hwf'⟩
  refine ⟨r, ?_, hwf'⟩
  unfold modSwitch
  simp only [hb, Option.bind_eq_bind, Option.bind_some, ha, hr]

include hcoprime

theorem switchToModulus_interpolate {Q : Nat} (hQ : 0 < Q) {a : DCRTPoly}
    (ha : DCRTPoly.WellFormed (2 ^ k) .EVALUATION moduli a) :
    exists b poly r, DCRTPoly.setFormat cache a .COEFFICIENT = some b ∧
      DCRTPoly.bigModulus b = moduli.prod ∧ DCRTPoly.crtInterpolate (2 ^ k) b = some poly ∧
      switchToModulus Q moduli.prod poly = some r ∧ Poly.Sized Q (2 ^ k) r := by
  have hone (q : Nat) (hq : q ∈ moduli) : 1 < q := (hready q hq).modulus.one_lt
  rcases setFormat_wellFormed hk hk31 hready ha .COEFFICIENT with ⟨b, hb, hwf⟩
  rcases DCRTPoly.crtInterpolate_spec hcoprime hone hwf with ⟨poly, hpoly, hpoly_wf, _⟩
  rcases switchToModulus_sized hQ (DCRTPoly.prod_pos hone) hpoly_wf.sized with ⟨r, hr, hsized⟩
  refine ⟨b, poly, r, hb, ?_, hpoly, hr, hsized⟩
  rw [DCRTPoly.bigModulus, hwf.moduli_eq]

end Chain

end Schemelet
end OpenFHE
