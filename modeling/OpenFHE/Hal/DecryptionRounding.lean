import OpenFHE.Foundation.ScaledRounding
import OpenFHE.Hal.BaseConversion
import OpenFHE.Hal.CRTInterpolation

/-!
# Rounding to the plaintext modulus

The HPS `ScaleAndRound` of the decryption multiplies by `t / Q` and rounds.  The sizes of the
moduli select one of eight branches: the plaintext modulus is a power of two or not, a residue
is used whole or as two digits, and the products are reduced or not.  The fractions are added up
as rational numbers.
-/

namespace OpenFHE
namespace Hal
namespace DCRTPoly

open OpenFHE.Core Foundation NativeInteger Finset

/-! ## Operations -/

section Operations

/-- The precomputed tables; the last three are for the high digits. -/
structure DecryptionTables where
  tQHatInvModqDivqModt : List Nat
  tQHatInvModqDivqModtPrecon : List Nat
  tQHatInvModqDivqFrac : List Rat
  tQHatInvModqBDivqModt : List Nat
  tQHatInvModqBDivqModtPrecon : List Nat
  tQHatInvModqBDivqFrac : List Rat
deriving DecidableEq, Repr

def digitEntry (source : List Nat) (t shift q : Nat) : Option (Nat × Nat × Rat) := do
  let inverse <- BigInteger.modInverse (source.prod / q) q
  let tQHatInvModqi := (inverse * t) <<< shift
  let tQHatInvModqDivqModt := tQHatInvModqi / q % t
  let precon <- prepModMulConst tQHatInvModqDivqModt t
  return (tQHatInvModqDivqModt, precon, ((tQHatInvModqi % q : Nat) : Rat) / q)

def qMSB (moduli : List Nat) : Nat := getMSB (moduli.foldl max 0)

/-- The entries for the high digits, where these are used. -/
def highEntries (source : List Nat) (t : Nat) : Option (List (Nat × Nat × Rat)) :=
  if qMSB source + getMSB source.length < 52 then some []
  else source.mapM (digitEntry source t (qMSB source >>> 1))

def decryptionTables (source : List Nat) (t : Nat) : Option DecryptionTables := do
  let low <- source.mapM (digitEntry source t 0)
  let high <- highEntries source t
  return {
    tQHatInvModqDivqModt := low.map Prod.fst
    tQHatInvModqDivqModtPrecon := low.map fun e => e.2.1
    tQHatInvModqDivqFrac := low.map fun e => e.2.2
    tQHatInvModqBDivqModt := high.map Prod.fst
    tQHatInvModqBDivqModtPrecon := high.map fun e => e.2.1
    tQHatInvModqBDivqFrac := high.map fun e => e.2.2 }

/-- How the residues are split and whether the products are reduced. -/
inductive SumKind where
  | whole (reduced : Bool)
  | digits (shift : Nat) (reduced : Bool)
deriving DecidableEq, Repr

def isPowerOfTwo (t : Nat) : Bool := t ≠ 0 ∧ t &&& (t - 1) = 0

/-- The eight branches, without the way they end. -/
def sumKind (t qMSB sizeQMSB : Nat) : SumKind :=
  let tMSB := getMSB t
  let qMSBHf := qMSB >>> 1
  if isPowerOfTwo t then
    if qMSB + sizeQMSB < 52 then
      if qMSB + sizeQMSB + tMSB < 63 then .whole false else .whole true
    else
      if qMSBHf + tMSB + sizeQMSB < 62 then .digits qMSBHf false else .digits qMSBHf true
  else
    if qMSB + sizeQMSB < 52 then
      if qMSB + tMSB + sizeQMSB < 52 then .whole false else .whole true
    else
      if qMSBHf + tMSB + sizeQMSB < 52 then .digits qMSBHf false else .digits qMSBHf true

/-- A product with an entry of the tables, as a word or as a residue. -/
def digitProduct (t : Nat) (reduced : Bool) (x factor precon : Nat) : Nat :=
  if reduced then modMulFastConst x factor t precon else word (x * factor)

variable (tables : DecryptionTables) (t : Nat)

/-- One residue is added to the sums of the fractions and of the integers. -/
def addResidue (kind : SumKind) (x i : Nat) (sums : Rat × Nat) : Option (Rat × Nat) := do
  let frac <- tables.tQHatInvModqDivqFrac[i]?
  let factor <- tables.tQHatInvModqDivqModt[i]?
  let precon <- tables.tQHatInvModqDivqModtPrecon[i]?
  match kind with
  | .whole reduced =>
      return (sums.1 + x * frac, word (sums.2 + digitProduct t reduced x factor precon))
  | .digits shift reduced =>
      let fracB <- tables.tQHatInvModqBDivqFrac[i]?
      let factorB <- tables.tQHatInvModqBDivqModt[i]?
      let preconB <- tables.tQHatInvModqBDivqModtPrecon[i]?
      let tmpHi := x >>> shift
      let tmpLo := subFast x (word (tmpHi <<< shift))
      return (sums.1 + tmpLo * frac + tmpHi * fracB,
        word (word (sums.2 + digitProduct t reduced tmpLo factor precon) +
          digitProduct t reduced tmpHi factorB preconB))

def residueSums (kind : SumKind) (start : Rat) (a : DCRTPoly) (ri : Nat) : Option (Rat × Nat) :=
  (List.range a.length).foldlM (fun sums i => do
    let tower <- a[i]?
    let x <- tower.values[ri]?
    addResidue tables t kind x i sums) (start, 0)

/-- A conversion to a word; it is undefined for numbers out of range. -/
def toWord (x : Rat) : Option Nat := if x < 0 ∨ 2 ^ 64 <= x then none else some ⌊x⌋.toNat

def maskedSum (sums : Rat × Nat) : Option Nat :=
  (toWord sums.1).map fun floatSum => word (sums.2 + floatSum) &&& (t - 1)

/-- The quotient is found and subtracted before the rounding. -/
def roundedSumModt (sums : Rat × Nat) : Option Nat := do
  let td : Rat := t
  let tInv : Rat := 1 / td
  let floatSum : Rat := sums.1 + sums.2
  let quotient <- toWord (floatSum * tInv)
  let floatSum : Rat := floatSum - td * quotient
  toWord (floatSum + 1 / 2)

def scaledCoefficient (a : DCRTPoly) (ri : Nat) : Option Nat :=
  let kind := sumKind t (qMSB (a.map fun tower => tower.modulus)) (getMSB a.length)
  if isPowerOfTwo t then (residueSums tables t kind (1 / 2) a ri).bind (maskedSum t)
  else (residueSums tables t kind 0 a ri).bind (roundedSumModt t)

/-- `ScaleAndRound` of the decryption, which reads the first tower. -/
def scaleAndRoundModt (ringDimension : Nat) (a : DCRTPoly) : Option Poly := do
  let _ <- a[0]?
  let coefficients <- (List.range ringDimension).mapM fun ri => scaledCoefficient tables t a ri
  return { modulus := t, format := .COEFFICIENT, values := coefficients }

end Operations

/-! ## The tables -/

section Numbers

/-- The integer part of a scaled digit, modulo the plaintext modulus. -/
def digitFactor (source : List Nat) (t shift i : Nat) : Nat :=
  scaledQuotient source (t * 2 ^ shift) i % t

def digitFraction (source : List Nat) (t shift i : Nat) : Rat :=
  (scaledRemainder source (t * 2 ^ shift) i : Rat) / source.getD i 1

variable {source : List Nat} (hcoprime : source.Pairwise Nat.Coprime)
  (hone : forall q, q ∈ source -> 1 < q) {t : Nat} (ht : 1 < t) (ht60 : t < 2 ^ 60)

include hcoprime hone ht ht60

theorem digitEntry_spec (shift : Nat) {i q : Nat} (hq : source[i]? = some q) :
    digitEntry source t shift q = some (digitFactor source t shift i,
      precon (digitFactor source t shift i) t, digitFraction source t shift i) := by
  have hmem := List.mem_of_getElem? hq
  have hgetD : source.getD i 1 = q := by
    rw [List.getD_eq_getElem?_getD, hq, Option.getD_some]
  rcases BigInteger.modInverse_spec (hone q hmem) (coprime_prod_div hcoprime hone hmem) with
    ⟨inverse, hinverse, hlt, hmul⟩
  have heq : inverse = cofactorInverse source i := by
    apply eq_cofactorInverse hcoprime hone hq hlt
    rw [cofactor_eq hq]
    exact hmul
  have hscaled : (inverse * t) <<< shift = t * 2 ^ shift * cofactorInverse source i := by
    rw [Nat.shiftLeft_eq, heq]
    ring
  have hfactor : digitFactor source t shift i < t := Nat.mod_lt _ (by omega)
  have hprecon : prepModMulConst (digitFactor source t shift i) t =
      some (precon (digitFactor source t shift i) t) :=
    prepModMulConst_eq (ht60.trans (by decide)) hfactor
  unfold digitEntry
  simp only [hinverse, Option.bind_eq_bind, Option.bind_some, hscaled]
  unfold digitFactor digitFraction scaledQuotient scaledRemainder at *
  rw [hgetD] at *
  rw [hprecon]
  rfl

/-- The tables hold the factors and the fractions of both digits. -/
structure TablesFor (source : List Nat) (t : Nat) (tables : DecryptionTables) : Prop where
  factor : forall i, i < source.length ->
    tables.tQHatInvModqDivqModt[i]? = some (digitFactor source t 0 i)
  precon : forall i, i < source.length ->
    tables.tQHatInvModqDivqModtPrecon[i]? = some (precon (digitFactor source t 0 i) t)
  frac : forall i, i < source.length ->
    tables.tQHatInvModqDivqFrac[i]? = some (digitFraction source t 0 i)
  high : ¬qMSB source + getMSB source.length < 52 -> forall i, i < source.length ->
    tables.tQHatInvModqBDivqModt[i]? = some (digitFactor source t (qMSB source >>> 1) i) ∧
      tables.tQHatInvModqBDivqModtPrecon[i]? =
        some (NativeInteger.precon (digitFactor source t (qMSB source >>> 1) i) t) ∧
      tables.tQHatInvModqBDivqFrac[i]? = some (digitFraction source t (qMSB source >>> 1) i)

theorem mapM_digitEntry (shift : Nat) :
    exists entries, source.mapM (digitEntry source t shift) = some entries ∧
      forall i, i < source.length -> entries[i]? = some (digitFactor source t shift i,
        precon (digitFactor source t shift i) t, digitFraction source t shift i) := by
  rcases mapM_spec (l := source) (f := digitEntry source t shift)
    (fun q entry => digitEntry source t shift q = some entry) (by
      intro q hq
      rcases List.mem_iff_getElem?.mp hq with ⟨i, hi⟩
      have hentry := digitEntry_spec hcoprime hone ht ht60 shift hi
      exact ⟨_, hentry, hentry⟩) with ⟨entries, hentries, hlength, hget⟩
  refine ⟨entries, hentries, ?_⟩
  intro i hi
  have hq := List.getElem?_eq_getElem hi
  have hentry := List.getElem?_eq_getElem (show i < entries.length by omega)
  have heq := hget i _ _ hq hentry
  rw [digitEntry_spec hcoprime hone ht ht60 shift hq] at heq
  rw [hentry, heq]

theorem decryptionTables_spec :
    exists tables, decryptionTables source t = some tables ∧ TablesFor source t tables := by
  rcases mapM_digitEntry hcoprime hone ht ht60 0 with ⟨low, hlow, hlowGet⟩
  rcases mapM_digitEntry hcoprime hone ht ht60 (qMSB source >>> 1) with ⟨high, hhigh, hhighGet⟩
  have hhigh' : exists entries, highEntries source t = some entries ∧
      (¬qMSB source + getMSB source.length < 52 -> entries = high) := by
    unfold highEntries
    split
    case isTrue hsmall => exact ⟨[], rfl, fun h => absurd hsmall h⟩
    case isFalse => exact ⟨high, hhigh, fun _ => rfl⟩
  rcases hhigh' with ⟨entries, hentries, hsame⟩
  unfold decryptionTables
  simp only [hlow, hentries, Option.bind_eq_bind, Option.bind_some]
  refine ⟨_, rfl, ?_⟩
  constructor
  case factor =>
    intro i hi
    rw [List.getElem?_map, hlowGet i hi]
    rfl
  case precon =>
    intro i hi
    rw [List.getElem?_map, hlowGet i hi]
    rfl
  case frac =>
    intro i hi
    rw [List.getElem?_map, hlowGet i hi]
    rfl
  case high =>
    intro hlarge i hi
    rw [hsame hlarge, List.getElem?_map, List.getElem?_map, List.getElem?_map, hhighGet i hi]
    exact ⟨rfl, rfl, rfl⟩

end Numbers

/-! ## The sums -/

section Sums

def exactProduct (t : Nat) (reduced : Bool) (y factor : Nat) : Nat :=
  if reduced then y * factor % t else y * factor

/-- What a residue adds to the sum of the fractions. -/
def fractionTerm (source : List Nat) (t : Nat) (kind : SumKind) (x i : Nat) : Rat :=
  match kind with
  | .whole _ => x * digitFraction source t 0 i
  | .digits shift _ => (x % 2 ^ shift : Nat) * digitFraction source t 0 i +
      (x / 2 ^ shift : Nat) * digitFraction source t shift i

/-- What a residue adds to the sum of the integers. -/
def integerTerm (source : List Nat) (t : Nat) (kind : SumKind) (x i : Nat) : Nat :=
  match kind with
  | .whole reduced => exactProduct t reduced x (digitFactor source t 0 i)
  | .digits shift reduced => exactProduct t reduced (x % 2 ^ shift) (digitFactor source t 0 i) +
      exactProduct t reduced (x / 2 ^ shift) (digitFactor source t shift i)

def fractionSumOf (source : List Nat) (t : Nat) (kind : SumKind) (x : Nat -> Nat) (n : Nat) : Rat :=
  ∑ i ∈ range n, fractionTerm source t kind (x i) i

/-- The integer sum before it is cut off to a word. -/
def integerSum (source : List Nat) (t : Nat) (kind : SumKind) (x : Nat -> Nat) (n : Nat) : Nat :=
  ∑ i ∈ range n, integerTerm source t kind (x i) i

variable {source : List Nat} {t : Nat}

theorem digitFactor_lt (ht : 1 < t) (shift i : Nat) : digitFactor source t shift i < t :=
  Nat.mod_lt _ (by omega)

theorem digitProduct_modEq (source : List Nat) (ht : 1 < t) (ht60 : t < 2 ^ 60) (reduced : Bool) {y : Nat}
    (hy : y < 2 ^ maxBits) (shift i : Nat) :
    digitProduct t reduced y (digitFactor source t shift i)
        (precon (digitFactor source t shift i) t) ≡
      exactProduct t reduced y (digitFactor source t shift i) [MOD 2 ^ maxBits] := by
  unfold digitProduct exactProduct
  cases reduced with
  | true =>
      rw [if_pos rfl, if_pos rfl,
        modMulFastConst_eq (ht60.trans (by decide)) (digitFactor_lt ht shift i) hy]
  | false =>
      rw [if_neg (by decide), if_neg (by decide)]
      exact Nat.mod_modEq _ _

/-- The kinds for which the tables have been built. -/
def SumKind.Fits (source : List Nat) (kind : SumKind) : Prop :=
  match kind with
  | .whole _ => True
  | .digits shift _ =>
      shift = qMSB source >>> 1 ∧ ¬qMSB source + getMSB source.length < 52

theorem addResidue_spec (ht : 1 < t) (ht60 : t < 2 ^ 60) {tables : DecryptionTables}
    (htables : TablesFor source t tables) {kind : SumKind} (hkind : kind.Fits source) {x i : Nat}
    (hx : x < 2 ^ maxBits) (hi : i < source.length) (F : Rat) (T : Nat) :
    addResidue tables t kind x i (F, word T) =
      some (F + fractionTerm source t kind x i, word (T + integerTerm source t kind x i)) := by
  have hfrac := htables.frac i hi
  have hfactor := htables.factor i hi
  have hprecon := htables.precon i hi
  unfold addResidue
  simp only [hfrac, hfactor, hprecon, Option.bind_eq_bind, Option.bind_some]
  cases kind with
  | whole reduced =>
      have hproduct := digitProduct_modEq source ht ht60 reduced hx 0 i
      have hsum : word (word T + digitProduct t reduced x (digitFactor source t 0 i)
          (precon (digitFactor source t 0 i) t)) =
          word (T + exactProduct t reduced x (digitFactor source t 0 i)) :=
        Nat.ModEq.add (Nat.mod_modEq _ _) hproduct
      exact congrArg some (Prod.ext rfl hsum)
  | digits shift reduced =>
      rcases hkind with ⟨hshift, hlarge⟩
      rcases htables.high hlarge i hi with ⟨hfactorB, hpreconB, hfracB⟩
      rw [← hshift] at hfactorB hpreconB hfracB
      have hhi : x >>> shift = x / 2 ^ shift := Nat.shiftRight_eq_div_pow x shift
      have hle : x / 2 ^ shift * 2 ^ shift <= x := Nat.div_mul_le_self x _
      have hlo : subFast x (word ((x / 2 ^ shift) <<< shift)) = x % 2 ^ shift := by
        rw [Nat.shiftLeft_eq, word_eq (by omega), subFast_eq hle hx]
        have := Nat.div_add_mod x (2 ^ shift)
        rw [Nat.mul_comm] at this
        omega
      have hloWord : x % 2 ^ shift < 2 ^ maxBits := Nat.lt_of_le_of_lt (Nat.mod_le _ _) hx
      have hhiWord : x / 2 ^ shift < 2 ^ maxBits := Nat.lt_of_le_of_lt (Nat.div_le_self _ _) hx
      have hloProduct := digitProduct_modEq source ht ht60 reduced hloWord 0 i
      have hhiProduct := digitProduct_modEq source ht ht60 reduced hhiWord shift i
      have hsum : word (word (word T + digitProduct t reduced (x % 2 ^ shift)
          (digitFactor source t 0 i) (precon (digitFactor source t 0 i) t)) +
          digitProduct t reduced (x / 2 ^ shift) (digitFactor source t shift i)
            (precon (digitFactor source t shift i) t)) =
          word (T + (exactProduct t reduced (x % 2 ^ shift) (digitFactor source t 0 i) +
            exactProduct t reduced (x / 2 ^ shift) (digitFactor source t shift i))) := by
        rw [← Nat.add_assoc]
        exact Nat.ModEq.add ((Nat.mod_modEq _ _).trans
          (Nat.ModEq.add (Nat.mod_modEq _ _) hloProduct)) hhiProduct
      simp only [hfactorB, hpreconB, hfracB, Option.bind_some, hhi, hlo]
      exact congrArg some (Prod.ext (add_assoc _ _ _) hsum)

theorem residueSums_spec (ht : 1 < t) (ht60 : t < 2 ^ 60) {tables : DecryptionTables}
    (htables : TablesFor source t tables) {kind : SumKind} (hkind : kind.Fits source) {n : Nat}
    {a : DCRTPoly} (ha : WellFormed n .COEFFICIENT source a)
    (hq : forall q, q ∈ source -> q < 2 ^ maxBits) {r : Nat} (hr : r < n) (start : Rat) :
    residueSums tables t kind start a r =
      some (start + fractionSumOf source t kind (fun i => value a i r) source.length,
        word (integerSum source t kind (fun i => value a i r) source.length)) := by
  have hlength := ha.length_eq
  unfold residueSums
  rcases foldlM_range_spec (n := a.length) (s := (start, 0))
    (f := fun sums i => do
      let tower <- a[i]?
      let x <- tower.values[r]?
      addResidue tables t kind x i sums)
    (fun i s => s = (start + fractionSumOf source t kind (fun i => value a i r) i,
      word (integerSum source t kind (fun i => value a i r) i)))
    (by
      unfold fractionSumOf integerSum
      rw [range_zero, sum_empty, sum_empty, add_zero]
      rfl)
    (by
      intro i hi s hs
      rcases read_value ha hi hr with ⟨tower, q, htower, hread, hmodulus, _⟩
      have hlt : value a i r < 2 ^ maxBits :=
        (ha.value_lt hmodulus hr).trans (hq q (List.mem_of_getElem? hmodulus))
      refine ⟨_, ?_, rfl⟩
      rw [hs]
      simp only [htower, hread, Option.bind_eq_bind, Option.bind_some]
      rw [addResidue_spec ht ht60 htables hkind hlt (by omega)]
      unfold fractionSumOf integerSum
      rw [sum_range_succ, sum_range_succ, add_assoc]) with ⟨s, hs, heq⟩
  rw [hs, heq, hlength]

/-! ## The scaled number -/

theorem digit_split (source : List Nat) (t : Nat) (reduced : Bool) (y shift i : Nat) :
    exists z : Int, (y : Rat) * digitFraction source t shift i +
        exactProduct t reduced y (digitFactor source t shift i) =
      (y * 2 ^ shift : Nat) * (((t * cofactorInverse source i : Nat) : Rat) / source.getD i 1) +
        t * z := by
  have hsplit := scaled_split source (t * 2 ^ shift) i
  have hproduct : exactProduct t reduced y (digitFactor source t shift i) ≡
      y * scaledQuotient source (t * 2 ^ shift) i [MOD t] := by
    have hfactor : y * digitFactor source t shift i ≡
        y * scaledQuotient source (t * 2 ^ shift) i [MOD t] := (Nat.mod_modEq _ _).mul_left y
    unfold exactProduct
    cases reduced with
    | true =>
        rw [if_pos rfl]
        exact (Nat.mod_modEq _ _).trans hfactor
    | false =>
        rw [if_neg (by decide)]
        exact hfactor
  rcases (Int.natCast_modEq_iff.mpr hproduct).symm.dvd with ⟨z, hz⟩
  refine ⟨z, ?_⟩
  have hcast : (exactProduct t reduced y (digitFactor source t shift i) : Rat) =
      y * scaledQuotient source (t * 2 ^ shift) i + t * z := by
    have hint : (exactProduct t reduced y (digitFactor source t shift i) : Int) =
        (y * scaledQuotient source (t * 2 ^ shift) i : Nat) + t * z := by omega
    have hrat := congrArg (fun u : Int => (u : Rat)) hint
    push_cast at hrat
    exact hrat
  have hscaled : ((y * 2 ^ shift : Nat) : Rat) *
      (((t * cofactorInverse source i : Nat) : Rat) / source.getD i 1) =
      y * (((t * 2 ^ shift * cofactorInverse source i : Nat) : Rat) / source.getD i 1) := by
    push_cast
    ring
  rw [hcast, hscaled, hsplit]
  unfold digitFraction
  ring

theorem term_split (source : List Nat) (t : Nat) (kind : SumKind) (x i : Nat) :
    exists z : Int, fractionTerm source t kind x i + integerTerm source t kind x i =
      x * (((t * cofactorInverse source i : Nat) : Rat) / source.getD i 1) + t * z := by
  cases kind with
  | whole reduced =>
      rcases digit_split source t reduced x 0 i with ⟨z, hz⟩
      refine ⟨z, ?_⟩
      rw [pow_zero, Nat.mul_one] at hz
      exact hz
  | digits shift reduced =>
      rcases digit_split source t reduced (x % 2 ^ shift) 0 i with ⟨z, hz⟩
      rcases digit_split source t reduced (x / 2 ^ shift) shift i with
        ⟨z', hz'⟩
      refine ⟨z + z', ?_⟩
      rw [pow_zero, Nat.mul_one] at hz
      have hdigits : (x : Rat) = (x % 2 ^ shift : Nat) + (x / 2 ^ shift * 2 ^ shift : Nat) := by
        have := Nat.div_add_mod x (2 ^ shift)
        rw [Nat.mul_comm] at this
        exact_mod_cast (show x = x % 2 ^ shift + x / 2 ^ shift * 2 ^ shift by omega)
      rw [hdigits]
      unfold fractionTerm integerTerm
      dsimp only
      push_cast at hz hz' ⊢
      linarith

variable (hcoprime : source.Pairwise Nat.Coprime) (hone : forall q, q ∈ source -> 1 < q)

include hcoprime hone

theorem exists_sums (kind : SumKind) {X : Nat} {x : Nat -> Nat}
    (hx : forall (i q : Nat), source[i]? = some q -> x i = X % q) :
    exists w : Int, fractionSumOf source t kind x source.length +
        integerSum source t kind x source.length = (t * X : Rat) / source.prod + t * w := by
  have hresidues : forall (i q : Nat), source[i]? = some q -> (x i : Int) ≡ (X : Int) [ZMOD q] := by
    intro i q hq
    rw [hx i q hq]
    exact Int.natCast_modEq_iff.mpr (Nat.mod_modEq X q)
  rcases exists_scaled hcoprime hone hresidues t with ⟨v, hv⟩
  have hterms : exists z : Int, fractionSumOf source t kind x source.length +
      integerSum source t kind x source.length =
      ∑ i ∈ range source.length,
        (x i : Rat) * (((t * cofactorInverse source i : Nat) : Rat) / source.getD i 1) + t * z := by
    unfold fractionSumOf integerSum
    generalize source.length = n
    induction n with
    | zero => exact ⟨0, by simp⟩
    | succ n ih =>
        rcases ih with ⟨z, hz⟩
        rcases term_split source t kind (x n) n with ⟨z', hz'⟩
        refine ⟨z + z', ?_⟩
        rw [sum_range_succ, sum_range_succ, sum_range_succ]
        push_cast at hz hz' ⊢
        linarith
  rcases hterms with ⟨z, hz⟩
  refine ⟨v + z, ?_⟩
  rw [hz, ← hv]
  push_cast
  ring

end Sums

/-! ## Bounds -/

section Bounds

/-- The products are reduced before they are added. -/
def SumKind.reduced : SumKind -> Bool
  | .whole reduced => reduced
  | .digits _ reduced => reduced

def SumKind.width (qMSB : Nat) : SumKind -> Nat
  | .whole _ => 2 ^ qMSB
  | .digits shift _ => 2 ^ (shift + 2)

theorem le_foldl_max (l : List Nat) (start : Nat) :
    start <= l.foldl max start ∧ forall q, q ∈ l -> q <= l.foldl max start := by
  induction l generalizing start with
  | nil => exact ⟨Nat.le_refl _, by simp⟩
  | cons q l ih =>
      rcases ih (max start q) with ⟨hstart, hmem⟩
      rw [List.foldl_cons]
      refine ⟨Nat.le_trans (Nat.le_max_left _ _) hstart, ?_⟩
      intro q' hq'
      cases hq' with
      | head => exact Nat.le_trans (Nat.le_max_right _ _) hstart
      | tail _ htail => exact hmem q' htail

theorem foldl_max_lt {l : List Nat} {start b : Nat} (hstart : start < b)
    (hl : forall q, q ∈ l -> q < b) : l.foldl max start < b := by
  induction l generalizing start with
  | nil => exact hstart
  | cons q l ih =>
      rw [List.foldl_cons]
      apply ih
      · exact Nat.max_lt.mpr ⟨hstart, hl q List.mem_cons_self⟩
      · intro q' hq'
        exact hl q' (List.mem_cons_of_mem _ hq')

theorem lt_two_pow_getMSB (x : Nat) : x < 2 ^ getMSB x := by
  rcases Nat.eq_zero_or_pos x with hzero | hpos
  · subst hzero
    exact Nat.two_pow_pos _
  · exact (getMSB_bounds hpos).2

theorem lt_two_pow_qMSB {source : List Nat} {q : Nat} (hq : q ∈ source) : q < 2 ^ qMSB source :=
  Nat.lt_of_le_of_lt ((le_foldl_max source 0).2 q hq) (lt_two_pow_getMSB _)

theorem qMSB_le {source : List Nat} (h60 : forall q, q ∈ source -> q < 2 ^ 60) :
    qMSB source <= 60 :=
  getMSB_le (foldl_max_lt (by decide) h60)

theorem sumKind_cases (t m s : Nat) :
    (exists reduced, sumKind t m s = .whole reduced ∧ m + s < 52 ∧
      (reduced = false -> m + s + getMSB t < 63)) ∨
    exists reduced, sumKind t m s = .digits (m >>> 1) reduced ∧ ¬m + s < 52 ∧
      (reduced = false -> (m >>> 1) + getMSB t + s < 62) := by
  unfold sumKind
  dsimp only
  by_cases hsmall : m + s < 52
  · left
    rw [if_pos hsmall, if_pos hsmall]
    by_cases hfirst : m + s + getMSB t < 63
    · by_cases hsecond : m + getMSB t + s < 52
      · rw [if_pos hfirst, if_pos hsecond]
        exact ⟨false, by split <;> rfl, hsmall, fun _ => hfirst⟩
      · rw [if_pos hfirst, if_neg hsecond]
        split
        case isTrue => exact ⟨false, rfl, hsmall, fun _ => hfirst⟩
        case isFalse => exact ⟨true, rfl, hsmall, fun _ => hfirst⟩
    · have hsecond : ¬m + getMSB t + s < 52 := by omega
      rw [if_neg hfirst, if_neg hsecond]
      exact ⟨true, by split <;> rfl, hsmall, fun h => absurd h (by decide)⟩
  · right
    rw [if_neg hsmall, if_neg hsmall]
    by_cases hfirst : (m >>> 1) + getMSB t + s < 62
    · by_cases hsecond : (m >>> 1) + getMSB t + s < 52
      · rw [if_pos hfirst, if_pos hsecond]
        exact ⟨false, by split <;> rfl, hsmall, fun _ => hfirst⟩
      · rw [if_pos hfirst, if_neg hsecond]
        split
        case isTrue => exact ⟨false, rfl, hsmall, fun _ => hfirst⟩
        case isFalse => exact ⟨true, rfl, hsmall, fun _ => hfirst⟩
    · have hsecond : ¬(m >>> 1) + getMSB t + s < 52 := by omega
      rw [if_neg hfirst, if_neg hsecond]
      exact ⟨true, by split <;> rfl, hsmall, fun h => absurd h (by decide)⟩

variable {source : List Nat} {t : Nat}

def chainKind (source : List Nat) (t : Nat) : SumKind :=
  sumKind t (qMSB source) (getMSB source.length)

theorem chainKind_fits (source : List Nat) (t : Nat) : (chainKind source t).Fits source := by
  unfold chainKind
  rcases sumKind_cases t (qMSB source) (getMSB source.length) with
    ⟨reduced, heq, _, _⟩ | ⟨reduced, heq, hlarge, _⟩
  · rw [heq]
    trivial
  · rw [heq]
    exact ⟨rfl, hlarge⟩

theorem digitFraction_bounds (hone : forall q, q ∈ source -> 1 < q) (shift : Nat) {i : Nat}
    (hi : i < source.length) :
    0 <= digitFraction source t shift i ∧ digitFraction source t shift i <= 1 := by
  have hgetD : source.getD i 1 = source[i] := List.getD_eq_getElem _ _ hi
  have hpos := hone _ (List.getElem_mem hi)
  have hlt : scaledRemainder source (t * 2 ^ shift) i < source[i] := by
    unfold scaledRemainder
    rw [hgetD]
    exact Nat.mod_lt _ (by omega)
  unfold digitFraction
  rw [hgetD]
  constructor
  · positivity
  · rw [div_le_one (by exact_mod_cast (by omega : 0 < source[i]))]
    exact_mod_cast hlt.le

theorem digits_lt {x m : Nat} (hx : x < 2 ^ m) :
    x % 2 ^ (m >>> 1) + x / 2 ^ (m >>> 1) < 2 ^ (m >>> 1 + 2) := by
  have hlow := Nat.mod_lt x (Nat.two_pow_pos (m >>> 1))
  have hhigh : x / 2 ^ (m >>> 1) < 2 ^ (m >>> 1 + 1) := by
    apply Nat.div_lt_of_lt_mul
    rw [← pow_add]
    apply Nat.lt_of_lt_of_le hx
    apply Nat.pow_le_pow_right (by decide)
    rw [Nat.shiftRight_eq_div_pow]
    omega
  rw [pow_succ] at hhigh
  rw [pow_succ, pow_succ]
  omega

theorem term_bounds (hone : forall q, q ∈ source -> 1 < q) (ht : 1 < t) {x i : Nat}
    (hi : i < source.length) (hx : x < 2 ^ qMSB source) :
    (0 <= fractionTerm source t (chainKind source t) x i ∧
      fractionTerm source t (chainKind source t) x i <=
        (chainKind source t).width (qMSB source)) ∧
    ((chainKind source t).reduced = false ->
      integerTerm source t (chainKind source t) x i <=
        (chainKind source t).width (qMSB source) * t) := by
  have hlow := digitFraction_bounds (t := t) hone 0 hi
  have hscale {y : Nat} {f : Rat} (hf : 0 <= f ∧ f <= 1) : 0 <= y * f ∧ y * f <= y := by
    have hy : (0 : Rat) <= y := Nat.cast_nonneg y
    exact ⟨mul_nonneg hy hf.1, mul_le_of_le_one_right hy hf.2⟩
  have hproduct {y f : Nat} (hf : f < t) : exactProduct t false y f <= y * t := by
    unfold exactProduct
    rw [if_neg (by decide)]
    exact Nat.mul_le_mul_left y hf.le
  unfold chainKind
  rcases sumKind_cases t (qMSB source) (getMSB source.length) with
    ⟨reduced, heq, _, _⟩ | ⟨reduced, heq, _, _⟩
  · rw [heq]
    unfold fractionTerm integerTerm SumKind.width SumKind.reduced
    dsimp only
    refine ⟨⟨(hscale hlow).1, ?_⟩, ?_⟩
    · have hle := (hscale (y := x) hlow).2
      have hcast : (x : Rat) <= (2 ^ qMSB source : Nat) := by exact_mod_cast hx.le
      exact hle.trans hcast
    · intro hreduced
      rw [hreduced]
      exact (hproduct (digitFactor_lt ht 0 i)).trans (Nat.mul_le_mul_right t hx.le)
  · rw [heq]
    unfold fractionTerm integerTerm SumKind.width SumKind.reduced
    dsimp only
    have hhigh := digitFraction_bounds (t := t) hone (qMSB source >>> 1) hi
    have hdigits := digits_lt hx
    have hlowTerm := hscale (y := x % 2 ^ (qMSB source >>> 1)) hlow
    have hhighTerm := hscale (y := x / 2 ^ (qMSB source >>> 1)) hhigh
    refine ⟨⟨add_nonneg hlowTerm.1 hhighTerm.1, ?_⟩, ?_⟩
    · have hcast : ((x % 2 ^ (qMSB source >>> 1) : Nat) : Rat) +
          (x / 2 ^ (qMSB source >>> 1) : Nat) <= (2 ^ (qMSB source >>> 1 + 2) : Nat) := by
        exact_mod_cast hdigits.le
      exact (add_le_add hlowTerm.2 hhighTerm.2).trans hcast
    · intro hreduced
      rw [hreduced]
      have hsum := Nat.mul_le_mul_right t hdigits.le
      rw [Nat.add_mul] at hsum
      exact (Nat.add_le_add (hproduct (digitFactor_lt ht 0 i))
        (hproduct (digitFactor_lt ht _ i))).trans hsum

theorem width_bounds (t : Nat) (h60 : forall q, q ∈ source -> q < 2 ^ 60) (hsize : source.length < 2 ^ 32) :
    source.length * (chainKind source t).width (qMSB source) < 2 ^ 64 ∧
    ((chainKind source t).reduced = false ->
      source.length * ((chainKind source t).width (qMSB source) * t) < 2 ^ 64) := by
  have hn := lt_two_pow_getMSB source.length
  have htMSB := lt_two_pow_getMSB t
  have hm := qMSB_le h60
  have hprod {e : Nat} (he : getMSB source.length + (e + getMSB t) <= 64) :
      source.length * (2 ^ e * t) < 2 ^ 64 := by
    have hinner : 2 ^ e * t < 2 ^ (e + getMSB t) := by
      rw [pow_add]
      exact Nat.mul_lt_mul_of_pos_left htMSB (Nat.two_pow_pos e)
    calc
      source.length * (2 ^ e * t) < 2 ^ getMSB source.length * 2 ^ (e + getMSB t) :=
        Nat.mul_lt_mul'' hn hinner
      _ = 2 ^ (getMSB source.length + (e + getMSB t)) := (pow_add _ _ _).symm
      _ <= 2 ^ 64 := Nat.pow_le_pow_right (by decide) he
  unfold chainKind
  rcases sumKind_cases t (qMSB source) (getMSB source.length) with
    ⟨reduced, heq, hsmall, hfits⟩ | ⟨reduced, heq, _, hfits⟩
  · rw [heq]
    unfold SumKind.width SumKind.reduced
    dsimp only
    constructor
    · calc
        source.length * 2 ^ qMSB source < 2 ^ getMSB source.length * 2 ^ qMSB source :=
          Nat.mul_lt_mul_of_pos_right hn (Nat.two_pow_pos _)
        _ = 2 ^ (getMSB source.length + qMSB source) := (pow_add _ _ _).symm
        _ <= 2 ^ 64 := Nat.pow_le_pow_right (by decide) (by omega)
    · intro hreduced
      have := hfits hreduced
      exact hprod (by omega)
  · rw [heq]
    unfold SumKind.width SumKind.reduced
    dsimp only
    have hhalf : qMSB source >>> 1 <= 30 := by
      rw [Nat.shiftRight_eq_div_pow]
      omega
    constructor
    · calc
        source.length * 2 ^ (qMSB source >>> 1 + 2) <= source.length * 2 ^ 32 :=
          Nat.mul_le_mul_left _ (Nat.pow_le_pow_right (by decide) (by omega))
        _ < 2 ^ 32 * 2 ^ 32 := Nat.mul_lt_mul_of_pos_right hsize (by decide)
        _ = 2 ^ 64 := by decide
    · intro hreduced
      have := hfits hreduced
      exact hprod (by omega)

section Chain

variable (hone : forall q, q ∈ source -> 1 < q) (h60 : forall q, q ∈ source -> q < 2 ^ 60)
  (hsize : source.length < 2 ^ 32) (ht : 1 < t) {x : Nat -> Nat}
  (hx : forall i, i < source.length -> x i < 2 ^ qMSB source)

include hone h60 hsize ht hx

theorem fractionSum_bounds :
    0 <= fractionSumOf source t (chainKind source t) x source.length ∧
      fractionSumOf source t (chainKind source t) x source.length <= 2 ^ 64 - 1 := by
  have hterm (i : Nat) (hi : i ∈ range source.length) :=
    (term_bounds hone ht (mem_range.mp hi) (hx i (mem_range.mp hi))).1
  constructor
  · exact sum_nonneg fun i hi => (hterm i hi).1
  · have hle := sum_le_card_nsmul (range source.length) _ _ fun i hi => (hterm i hi).2
    rw [card_range, nsmul_eq_mul] at hle
    have hwidth := (width_bounds t h60 hsize).1
    have hcast : ((source.length * (chainKind source t).width (qMSB source) + 1 : Nat) : Rat) <=
        (2 ^ 64 : Nat) := by
      exact_mod_cast hwidth
    push_cast at hcast
    unfold fractionSumOf
    linarith

theorem integerSum_lt (hreduced : (chainKind source t).reduced = false) :
    integerSum source t (chainKind source t) x source.length < 2 ^ 64 := by
  have hle : integerSum source t (chainKind source t) x source.length <=
      source.length * ((chainKind source t).width (qMSB source) * t) := by
    have hterms := sum_le_card_nsmul (range source.length) _ _ fun i hi =>
      (term_bounds hone ht (mem_range.mp hi) (hx i (mem_range.mp hi))).2 hreduced
    rw [card_range, smul_eq_mul] at hterms
    exact hterms
  exact Nat.lt_of_le_of_lt hle ((width_bounds t h60 hsize).2 hreduced)

end Chain

end Bounds

/-! ## The roundings -/

section Roundings

theorem toWord_eq {x : Rat} (hlow : 0 <= x) (hhigh : x < 2 ^ 64) : toWord x = some ⌊x⌋.toNat :=
  if_neg fun h => h.elim (fun hneg => absurd hneg (not_lt.mpr hlow))
    fun hlarge => absurd hlarge (not_le.mpr hhigh)

theorem maskedSum_eq {t : Nat} (hpow : isPowerOfTwo t = true) (ht60 : t < 2 ^ 60) {F : Rat}
    (hF : 0 <= F) (hF64 : F <= 2 ^ 64 - 1) (T : Nat) :
    exists v, maskedSum t (1 / 2 + F, word T) = some v ∧ (v : Int) = ⌊T + F + 1 / 2⌋ % t := by
  have hpow' : t.isPowerOfTwo := by
    apply Nat.ne_zero_and_sub_one_eq_zero_iff_isPowerOfTwo.mp
    exact of_decide_eq_true hpow
  rcases hpow' with ⟨j, rfl⟩
  have hj : j <= 64 := by
    by_contra hlarge
    have := Nat.pow_le_pow_right (show 0 < 2 by decide) (show 60 <= j by omega)
    omega
  have hword := toWord_eq (x := 1 / 2 + F) (by linarith) (by linarith)
  refine ⟨(T + ⌊1 / 2 + F⌋.toNat) % 2 ^ j, ?_, ?_⟩
  · unfold maskedSum
    rw [hword]
    apply congrArg some
    dsimp only
    rw [Nat.and_two_pow_sub_one_eq_mod]
    have hsum : word (word T + ⌊1 / 2 + F⌋.toNat) = (T + ⌊1 / 2 + F⌋.toNat) % 2 ^ maxBits :=
      Nat.ModEq.add_right _ (Nat.mod_modEq _ _)
    rw [hsum]
    exact Nat.mod_mod_of_dvd _ (pow_dvd_pow 2 hj)
  · have hfloor : ⌊(T : Rat) + F + 1 / 2⌋ = T + ⌊1 / 2 + F⌋ := by
      rw [add_assoc, add_comm F, Int.floor_natCast_add]
    have hnonneg : 0 <= ⌊1 / 2 + F⌋ := Int.floor_nonneg.mpr (by linarith)
    rw [hfloor, Int.natCast_mod, Nat.cast_add, Int.toNat_of_nonneg hnonneg]

theorem roundedSumModt_eq {t : Nat} (ht : 2 < t) (ht60 : t < 2 ^ 60) {F : Rat} (hF : 0 <= F)
    (hF64 : F <= 2 ^ 64 - 1) {I : Nat} (hI : I < 2 ^ 64) :
    exists v, roundedSumModt t (F, I) = some v ∧
      (v : Int) = ⌊F + I + 1 / 2⌋ - t * ⌊(F + I) / t⌋ := by
  have htpos : (0 : Rat) < t := by exact_mod_cast (by omega : 0 < t)
  have htRat : (2 : Rat) < t := by exact_mod_cast ht
  have hItRat : (I : Rat) < 2 ^ 64 := by exact_mod_cast hI
  have hsum : 0 <= F + I := add_nonneg hF (Nat.cast_nonneg I)
  have hquotient : 0 <= (F + I) * (1 / (t : Rat)) := mul_nonneg hsum (by positivity)
  have hquotient64 : (F + I) * (1 / (t : Rat)) < 2 ^ 64 := by
    rw [mul_one_div, div_lt_iff₀ htpos]
    linarith
  have hfirst := toWord_eq hquotient hquotient64
  have hnonneg : 0 <= ⌊(F + I) * (1 / (t : Rat))⌋ := Int.floor_nonneg.mpr hquotient
  have hcast : ((⌊(F + I) * (1 / (t : Rat))⌋.toNat : Nat) : Rat) =
      (⌊(F + I) * (1 / (t : Rat))⌋ : Rat) := by
    exact_mod_cast Int.toNat_of_nonneg hnonneg
  have hlow := Int.floor_le ((F + I) * (1 / (t : Rat)))
  have hhigh := Int.lt_floor_add_one ((F + I) * (1 / (t : Rat)))
  have hback : t * ((F + I) * (1 / (t : Rat))) = F + I := by
    field_simp
  have hrestLow : 0 <= F + I - t * (⌊(F + I) * (1 / (t : Rat))⌋ : Rat) := by
    have := mul_le_mul_of_nonneg_left hlow htpos.le
    linarith
  have hrestHigh : F + I - t * (⌊(F + I) * (1 / (t : Rat))⌋ : Rat) < t := by
    have := mul_lt_mul_of_pos_left hhigh htpos
    linarith
  have ht64 : (t : Rat) < 2 ^ 60 := by exact_mod_cast ht60
  have hsecond := toWord_eq
    (x := F + I - t * (⌊(F + I) * (1 / (t : Rat))⌋ : Rat) + 1 / 2) (by linarith) (by linarith)
  refine ⟨⌊F + I - t * (⌊(F + I) * (1 / (t : Rat))⌋ : Rat) + 1 / 2⌋.toNat, ?_, ?_⟩
  · unfold roundedSumModt
    simp only [hfirst, Option.bind_eq_bind, Option.bind_some, hcast, hsecond]
  · rw [Int.toNat_of_nonneg (Int.floor_nonneg.mpr (by linarith)), mul_one_div]
    have hshift : F + I - t * (⌊(F + I) / (t : Rat)⌋ : Rat) + 1 / 2 =
        F + I + 1 / 2 - ((t * ⌊(F + I) / (t : Rat)⌋ : Int) : Rat) := by
      push_cast
      ring
    rw [hshift, Int.floor_sub_intCast]

theorem late_rounding_iff {t : Nat} (ht : 0 < t) {y S : Rat} {c : Int} (hy : 0 <= y)
    (hyt : y < t) (hS : S = y + c) :
    ⌊S + 1 / 2⌋ - t * ⌊S / t⌋ = ⌊y + 1 / 2⌋ % t <-> (t : Int) ∣ c ∧ y + 1 / 2 < t := by
  have htpos : (0 : Rat) < t := by exact_mod_cast ht
  have htInt : (0 : Int) < t := by exact_mod_cast ht
  have hfloor : ⌊S + 1 / 2⌋ = ⌊y + 1 / 2⌋ + c := by
    rw [hS, add_right_comm, Int.floor_add_intCast]
  have hnonneg : 0 <= ⌊y + 1 / 2⌋ := Int.floor_nonneg.mpr (by linarith)
  have hquotient (hdvd : (t : Int) ∣ c) : t * ⌊S / t⌋ = c := by
    rcases hdvd with ⟨d, rfl⟩
    have hsplit : S / t = y / t + d := by
      rw [hS, Int.cast_mul, Int.cast_natCast]
      field_simp
    have hzero : ⌊y / (t : Rat)⌋ = 0 := by
      apply Int.floor_eq_iff.mpr
      constructor
      · rw [Int.cast_zero]
        positivity
      · rw [Int.cast_zero, zero_add, div_lt_one htpos]
        exact hyt
    rw [hsplit, Int.floor_add_intCast, hzero, zero_add]
  rw [hfloor]
  constructor
  · intro heq
    have hdvd : (t : Int) ∣ c := by
      have hmod : ⌊y + 1 / 2⌋ + c ≡ ⌊y + 1 / 2⌋ [ZMOD t] := by
        have hleft : ⌊y + 1 / 2⌋ + c = ⌊y + 1 / 2⌋ % t + t * ⌊S / t⌋ := by linarith
        rw [hleft]
        unfold Int.ModEq
        rw [Int.add_mul_emod_self_left]
        exact Int.emod_emod_of_dvd _ (dvd_refl _)
      have hdiff := hmod.symm.dvd
      rw [add_sub_cancel_left] at hdiff
      exact hdiff
    refine ⟨hdvd, ?_⟩
    rw [hquotient hdvd, add_sub_cancel_right] at heq
    have hlt : ⌊y + 1 / 2⌋ < t := by
      rw [heq]
      exact Int.emod_lt_of_pos _ htInt
    exact_mod_cast Int.floor_lt.mp hlt
  · rintro ⟨hdvd, hlt⟩
    have hfloorLt : ⌊y + 1 / 2⌋ < t := Int.floor_lt.mpr (by exact_mod_cast hlt)
    rw [hquotient hdvd, add_sub_cancel_right, Int.emod_eq_of_lt hnonneg hfloorLt]

end Roundings

/-! ## The decrypted coefficients -/

/-- Every coefficient is the rounded number, and sums of whole products do not wrap. -/
structure RoundsModt (source : List Nat) (t n : Nat) (a : DCRTPoly) (X : Nat -> Nat) : Prop where
  coefficients : exists tables m, decryptionTables source t = some tables ∧
    scaleAndRoundModt tables t n a = some m ∧ m.modulus = t ∧ m.values.length = n ∧
    forall r, r < n -> (m.value r : Int) = ⌊(t * X r : Rat) / source.prod + 1 / 2⌋ % t
  unreduced : (chainKind source t).reduced = false -> forall r, r < n ->
    integerSum source t (chainKind source t) (fun i => value a i r) source.length < 2 ^ 64

section Coefficients

variable {source : List Nat} (hcoprime : source.Pairwise Nat.Coprime)
  (hmodulus : forall q, q ∈ source -> Poly.NttModulus q) (hsize : source.length < 2 ^ 32) {t : Nat} (ht : 1 < t) (ht60 : t < 2 ^ 60) {n : Nat}
  {a : DCRTPoly} (ha : WellFormed n .COEFFICIENT source a) {X : Nat -> Nat}
  (hX : forall r, r < n -> X r < source.prod)
  (hvalue : forall (i q : Nat), source[i]? = some q -> forall r, r < n -> value a i r = X r % q)

include hcoprime hmodulus hsize ht ht60 ha hX hvalue

theorem scaledCoefficient_iff {tables : DecryptionTables} (htables : TablesFor source t tables)
    {r : Nat} (hr : r < n) :
    exists v, scaledCoefficient tables t a r = some v ∧
      ((v : Int) = ⌊(t * X r : Rat) / source.prod + 1 / 2⌋ % t <->
        isPowerOfTwo t = true ∨ (source.prod < 2 * t * (source.prod - X r) ∧
          t ∣ 2 ^ 64 * (integerSum source t (chainKind source t) (fun i => value a i r)
            source.length / 2 ^ 64))) := by
  have hone (q : Nat) (hq : q ∈ source) : 1 < q := (hmodulus q hq).one_lt
  have h60 (q : Nat) (hq : q ∈ source) : q < 2 ^ 60 := (hmodulus q hq).lt
  have h64 (q : Nat) (hq : q ∈ source) : q < 2 ^ maxBits := (h60 q hq).trans (by decide)
  have hx (i : Nat) (hi : i < source.length) : value a i r < 2 ^ qMSB source := by
    have hq := List.getElem?_eq_getElem hi
    exact (ha.value_lt hq hr).trans (lt_two_pow_qMSB (List.getElem_mem hi))
  have hprod : (0 : Rat) < source.prod := by exact_mod_cast prod_pos hone
  have htpos : (0 : Rat) < t := by exact_mod_cast (by omega : 0 < t)
  have hXlt := hX r hr
  rcases exists_sums (t := t) hcoprime hone (chainKind source t)
    (fun i q hq => hvalue i q hq r hr) with ⟨w, hw⟩
  rcases fractionSum_bounds hone h60 hsize ht hx with ⟨hF, hF64⟩
  have hsums := residueSums_spec ht ht60 htables (chainKind_fits source t) ha h64 hr
  have hkind : sumKind t (qMSB (a.map fun tower => tower.modulus)) (getMSB a.length) =
      chainKind source t := by
    rw [ha.moduli_eq, ha.length_eq]
    rfl
  generalize fractionSumOf source t (chainKind source t) (fun i => value a i r) source.length = F
    at hw hF hF64 hsums
  generalize integerSum source t (chainKind source t) (fun i => value a i r) source.length = T
    at hw hsums ⊢
  unfold scaledCoefficient
  dsimp only
  rw [hkind]
  by_cases hpow : isPowerOfTwo t = true
  · rcases maskedSum_eq hpow ht60 hF hF64 T with ⟨v, hv, heq⟩
    refine ⟨v, ?_, fun _ => Or.inl hpow, fun _ => ?_⟩
    · rw [if_pos hpow, hsums, Option.bind_some, hv]
    · have hshift : (T : Rat) + F + 1 / 2 =
          (t * X r : Rat) / source.prod + 1 / 2 + ((t * w : Int) : Rat) := by
        rw [Int.cast_mul, Int.cast_natCast]
        linarith
      rw [heq, hshift, Int.floor_add_intCast, Int.add_mul_emod_self_left]
  · have htwo : 2 < t := by
      rcases Nat.lt_or_eq_of_le (show 2 <= t by omega) with hlt | heq
      · exact hlt
      · subst heq
        exact absurd rfl hpow
    have hword : word T < 2 ^ 64 := word_lt T
    rcases roundedSumModt_eq htwo ht60 hF hF64 hword with ⟨v, hv, heq⟩
    refine ⟨v, ?_, ?_⟩
    · rw [if_neg hpow, hsums, Option.bind_some, zero_add, hv]
    · have hwordCast : ((word T : Nat) : Rat) = T - ((2 ^ 64 * (T / 2 ^ 64) : Nat) : Rat) := by
        have hnat : word T + 2 ^ 64 * (T / 2 ^ 64) = T := Nat.mod_add_div T (2 ^ 64)
        have hrat : ((word T + 2 ^ 64 * (T / 2 ^ 64) : Nat) : Rat) = T := by rw [hnat]
        rw [Nat.cast_add] at hrat
        linarith
      have hS : F + (word T : Nat) = (t * X r : Rat) / source.prod +
          ((t * w - (2 ^ 64 * (T / 2 ^ 64) : Nat) : Int) : Rat) := by
        rw [hwordCast, Int.cast_sub, Int.cast_mul, Int.cast_natCast, Int.cast_natCast]
        linarith
      have hy : 0 <= (t * X r : Rat) / source.prod := by positivity
      have hyt : (t * X r : Rat) / source.prod < t := by
        rw [div_lt_iff₀ hprod]
        have hlt : (X r : Rat) < source.prod := by exact_mod_cast hXlt
        exact mul_lt_mul_of_pos_left hlt htpos
      have hcorner : (t * X r : Rat) / source.prod + 1 / 2 < t <->
          source.prod < 2 * t * (source.prod - X r) := by
        have hsub : ((source.prod - X r : Nat) : Rat) = source.prod - X r :=
          Nat.cast_sub hXlt.le
        have hleft : (t * X r : Rat) / source.prod + 1 / 2 < t <->
            (t * X r : Rat) < (t - 1 / 2) * source.prod := by
          rw [← lt_sub_iff_add_lt, div_lt_iff₀ hprod]
        have hright : source.prod < 2 * t * (source.prod - X r) <->
            (source.prod : Rat) < 2 * t * (source.prod - X r) := by
          rw [← hsub]
          exact_mod_cast Iff.rfl
        rw [hleft, hright]
        constructor
        · intro h
          linarith
        · intro h
          linarith
      have hdvd : (t : Int) ∣ t * w - (2 ^ 64 * (T / 2 ^ 64) : Nat) <->
          t ∣ 2 ^ 64 * (T / 2 ^ 64) := by
        rw [dvd_sub_right (Dvd.intro w rfl), Int.natCast_dvd_natCast]
      rw [heq, late_rounding_iff (by omega) hy hyt hS, hcorner, hdvd]
      constructor
      · rintro ⟨hd, hc⟩
        exact Or.inr ⟨hc, hd⟩
      · rintro (h | ⟨hc, hd⟩)
        · exact absurd h hpow
        · exact ⟨hd, hc⟩

/--
For a power of two all coefficients are right.  Other plaintext moduli are rounded after the
reduction: the numbers that round up to the modulus are not reduced, and neither are sums that
have wrapped.
-/
theorem roundsModt_iff (hpos : 0 < source.length) : RoundsModt source t n a X <-> isPowerOfTwo t = true ∨
    forall r, r < n -> source.prod < 2 * t * (source.prod - X r) ∧
      t ∣ 2 ^ 64 * (integerSum source t (chainKind source t) (fun i => value a i r)
        source.length / 2 ^ 64) := by
  have hone (q : Nat) (hq : q ∈ source) : 1 < q := (hmodulus q hq).one_lt
  have h60 (q : Nat) (hq : q ∈ source) : q < 2 ^ 60 := (hmodulus q hq).lt
  rcases decryptionTables_spec hcoprime hone ht ht60 with ⟨tables, hrun, htables⟩
  rcases mapM_range_spec (n := n) (f := scaledCoefficient tables t a)
    (fun r v => scaledCoefficient tables t a r = some v) (by
      intro r hr
      rcases scaledCoefficient_iff hcoprime hmodulus hsize ht ht60 ha hX hvalue htables hr with
        ⟨v, hv, _⟩
      exact ⟨v, hv, hv⟩) with ⟨values, hvalues, hlength, hget⟩
  have hm : scaleAndRoundModt tables t n a =
      some { modulus := t, format := .COEFFICIENT, values := values } := by
    have hfirst := List.getElem?_eq_getElem (show 0 < a.length by rw [ha.length_eq]; exact hpos)
    unfold scaleAndRoundModt
    rw [hfirst, hvalues]
    rfl
  have hcoefficient (r : Nat) (hr : r < n) : ((values.getD r 0 : Nat) : Int) =
      ⌊(t * X r : Rat) / source.prod + 1 / 2⌋ % t <->
      isPowerOfTwo t = true ∨ (source.prod < 2 * t * (source.prod - X r) ∧
        t ∣ 2 ^ 64 * (integerSum source t (chainKind source t) (fun i => value a i r)
          source.length / 2 ^ 64)) := by
    rcases scaledCoefficient_iff hcoprime hmodulus hsize ht ht60 ha hX hvalue htables hr with
      ⟨v, hv, hiff⟩
    have hread := List.getElem?_eq_getElem (show r < values.length by omega)
    have hsame := hget r _ hread
    rw [hv] at hsame
    have heq : values.getD r 0 = v := by
      rw [List.getD_eq_getElem?_getD, hread, Option.getD_some]
      exact (Option.some.inj hsame).symm
    rw [heq]
    exact hiff
  constructor
  · intro h
    rcases h.coefficients with ⟨tables', m, hrun', hm', _, _, hrounded⟩
    rw [hrun] at hrun'
    cases hrun'
    rw [hm] at hm'
    cases hm'
    by_cases hpow : isPowerOfTwo t = true
    · exact Or.inl hpow
    · right
      intro r hr
      exact ((hcoefficient r hr).mp (hrounded r hr)).resolve_left hpow
  · intro h
    constructor
    case coefficients =>
      refine ⟨tables, _, hrun, hm, rfl, hlength, ?_⟩
      intro r hr
      apply (hcoefficient r hr).mpr
      rcases h with hpow | hall
      · exact Or.inl hpow
      · exact Or.inr (hall r hr)
    case unreduced =>
      intro hreduced r hr
      apply integerSum_lt hone h60 hsize ht _ hreduced
      intro i hi
      have hq := List.getElem?_eq_getElem hi
      exact (ha.value_lt hq hr).trans (lt_two_pow_qMSB (List.getElem_mem hi))

end Coefficients

/-- The towers of the number one. -/
theorem roundsModt_one :
    RoundsModt [5, 7] 3 1 [⟨5, .COEFFICIENT, [1]⟩, ⟨7, .COEFFICIENT, [1]⟩] (fun _ => 1) := by
  have hwf : WellFormed 1 .COEFFICIENT [5, 7]
      [⟨5, .COEFFICIENT, [1]⟩, ⟨7, .COEFFICIENT, [1]⟩] := by
    refine ⟨rfl, ?_⟩
    intro i q tower hq htower
    have hi := (List.getElem?_eq_some_iff.mp hq).1
    simp only [List.length_cons, List.length_nil] at hi
    interval_cases i
    all_goals
      cases hq
      cases htower
      exact ⟨rfl, rfl, rfl, by decide⟩
  have hmodulus (q : Nat) (hq : q ∈ [5, 7]) : Poly.NttModulus q := by
    fin_cases hq
    · exact ⟨by decide, by decide, by decide⟩
    · exact ⟨by decide, by decide, by decide⟩
  apply (roundsModt_iff (by decide) hmodulus (by decide) (by decide) (by decide) hwf
    (by decide) ?_ (by decide)).mpr
  · right
    intro r hr
    refine ⟨by decide, ?_⟩
    have hone (q : Nat) (hq : q ∈ [5, 7]) : 1 < q := (hmodulus q hq).one_lt
    have h60 (q : Nat) (hq : q ∈ [5, 7]) : q < 2 ^ 60 := (hmodulus q hq).lt
    rw [Nat.div_eq_of_lt (integerSum_lt hone h60 (by decide) (by decide) _ (by decide)),
      Nat.mul_zero]
    · exact dvd_zero 3
    · intro i hi
      have hq := List.getElem?_eq_getElem hi
      exact (hwf.value_lt hq hr).trans (lt_two_pow_qMSB (List.getElem_mem hi))
  · intro i q hq r hr
    have hi := (List.getElem?_eq_some_iff.mp hq).1
    simp only [List.length_cons, List.length_nil] at hi
    interval_cases i
    all_goals
      interval_cases r
      cases hq
      rfl

/-- `3 * 34 / 35` rounds up to three, and the coefficient is three. -/
theorem not_roundsModt_top :
    ¬RoundsModt [5, 7] 3 1 [⟨5, .COEFFICIENT, [4]⟩, ⟨7, .COEFFICIENT, [6]⟩] (fun _ => 34) := by
  intro h
  rcases h.coefficients with ⟨tables, m, htables, hm, _, _, hvalue⟩
  have htables' : tables =
      ⟨[1, 1], [6148914691236517205, 6148914691236517205], [4 / 5, 2 / 7], [], [], []⟩ :=
    Option.some.inj (htables.symm.trans (by decide +kernel))
  subst htables'
  have hm' : m = ⟨3, .COEFFICIENT, [3]⟩ := Option.some.inj (hm.symm.trans (by decide +kernel))
  subst hm'
  exact absurd (hvalue 0 (by decide)) (by decide +kernel)

end DCRTPoly
end Hal
end OpenFHE
