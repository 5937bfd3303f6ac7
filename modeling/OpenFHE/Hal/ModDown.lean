import OpenFHE.Core.NativeInteger.ModInverse
import OpenFHE.Hal.BaseConversion

/-!
# Scaling down by the special modulus

`ApproxModDown` converts the special towers to the ciphertext towers, subtracts them and
divides by the special modulus.  With a plaintext modulus the subtracted number is a
multiple of it.
-/

namespace OpenFHE
namespace Hal
namespace DCRTPoly

open OpenFHE.Core Foundation NativeInteger

structure ModDownTables where
  pInvModq : List Nat
  pHat : SwitchTables
  tInvModp : List Nat
deriving DecidableEq, Repr

/-- The special towers in the coefficient format, divided by the plaintext modulus. -/
def specialPart (cache : Poly.TableCache) (tInvModp : List Nat) (t sizeP sizeQ : Nat)
    (a : DCRTPoly) : Option DCRTPoly :=
  (List.range sizeP).mapM fun j => do
    let tower <- a[sizeQ + j]?
    let part <- Poly.setFormat cache tower .COEFFICIENT
    if t > 0 then do
      let tInv <- tInvModp[j]?
      Poly.timesInteger part tInv
    else return part

/-- The product with the plaintext modulus, when there is one. -/
def timesPlain (t : Nat) (a : Poly) : Option Poly :=
  if t > 0 then Poly.timesInteger a t else some a

/-- One tower of the result: the difference divided by the special modulus. -/
def scaleTower (cache : Poly.TableCache) (t pInv : Nat) (tower switched : Poly) :
    Option Poly := do
  let part <- timesPlain t switched
  let part <- Poly.setFormat cache part .EVALUATION
  let difference <- Poly.minusEq tower part
  Poly.timesInteger difference pInv

/-- The zero towers of the result, as many as the argument has ciphertext towers. -/
def resultTowers (paramsQ : List Nat) (ringDimension sizeQ : Nat) : Option DCRTPoly :=
  let ans := zero paramsQ ringDimension .EVALUATION
  -- the unsigned `diffQ` is larger than any number of towers when towers are missing
  if paramsQ.length < sizeQ then none
  else
    let diffQ := paramsQ.length - sizeQ
    if diffQ > 0 then dropLastElements ans diffQ else some ans

def approxModDown (cache : Poly.TableCache) (tables : ModDownTables) (paramsQ paramsP : List Nat)
    (ringDimension t : Nat) (a : DCRTPoly) : Option DCRTPoly := do
  let sizeP := paramsP.length
  let sizeQ := a.length - sizeP
  let partP <- specialPart cache tables.tInvModp t sizeP sizeQ a
  let partPSwitchedToQ <- approxSwitchCRTBasis { tables.pHat with moduli := paramsQ }
    ringDimension sizeP .COEFFICIENT partP
  let ans <- resultTowers paramsQ ringDimension sizeQ
  (List.range ans.length).mapM fun i => do
    let tower <- a[i]?
    let switched <- partPSwitchedToQ[i]?
    let pInv <- tables.pInvModq[i]?
    scaleTower cache t pInv tower switched

theorem resultTowers_length {paramsQ : List Nat} {sizeQ : Nat} (hpos : 0 < sizeQ)
    (hle : sizeQ <= paramsQ.length) (ringDimension : Nat) :
    exists ans, resultTowers paramsQ ringDimension sizeQ = some ans ∧ ans.length = sizeQ := by
  have hzero : (zero paramsQ ringDimension .EVALUATION).length = paramsQ.length :=
    List.length_map _
  unfold resultTowers dropLastElements
  dsimp only
  rw [if_neg (by omega)]
  split
  · rw [hzero, if_neg (by omega)]
    exact ⟨_, rfl, by rw [List.length_take]; omega⟩
  · exact ⟨_, rfl, by omega⟩

/-!
## The subtracted number
-/

/-- The factor of the subtracted number; zero stands for no plaintext modulus. -/
def plainFactor (t : Nat) : Nat := if t = 0 then 1 else t

/-- The special part divided by the plaintext modulus. -/
def dividedPart (moduliP : List Nat) (t x : Nat) : Nat :=
  ((x : ZMod moduliP.prod) * (plainFactor t : ZMod moduliP.prod)⁻¹).val

/-- The number that the conversion of the special part stands for. -/
def convertedPart (moduliP : List Nat) (t x : Nat) : Nat :=
  digitSum moduliP (baseDigit moduliP (dividedPart moduliP t x))

def scaledDown (moduliP : List Nat) (t x : Nat) : Int :=
  ((x : Int) - plainFactor t * convertedPart moduliP t x) / moduliP.prod

section Numbers

variable {moduliP : List Nat} (hcoprime : moduliP.Pairwise Nat.Coprime)
  (hone : forall p, p ∈ moduliP -> 1 < p) {t : Nat} (ht : Nat.Coprime (plainFactor t) moduliP.prod)

include hone ht

theorem dividedPart_modEq (x : Nat) :
    plainFactor t * dividedPart moduliP t x ≡ x [MOD moduliP.prod] := by
  have hne : NeZero moduliP.prod := ⟨(prod_pos_of_one_lt hone).ne'⟩
  apply (ZMod.natCast_eq_natCast_iff _ _ _).mp
  rw [Nat.cast_mul, dividedPart, ZMod.natCast_zmod_val, mul_left_comm,
    ZMod.coe_mul_inv_eq_one _ ht, mul_one]

include hcoprime

theorem convertedPart_modEq (x : Nat) :
    plainFactor t * convertedPart moduliP t x ≡ x [MOD moduliP.prod] := by
  have hsum : convertedPart moduliP t x ≡ dividedPart moduliP t x [MOD moduliP.prod] :=
    digitSum_modEq hcoprime hone (baseDigit_spec hcoprime hone)
  exact (hsum.mul_left _).trans (dividedPart_modEq hone ht x)

omit ht in
theorem convertedPart_lt (hne : moduliP ≠ []) (x : Nat) :
    convertedPart moduliP t x < moduliP.length * moduliP.prod :=
  digitSum_lt hone (baseDigit_spec hcoprime hone) (List.length_pos_iff.mpr hne)

theorem mul_scaledDown (x : Nat) : (moduliP.prod : Int) * scaledDown moduliP t x =
    x - plainFactor t * convertedPart moduliP t x := by
  have hdvd := (Nat.modEq_iff_dvd.mp (convertedPart_modEq hcoprime hone ht x))
  rw [Nat.cast_mul] at hdvd
  exact Int.mul_ediv_cancel' hdvd

end Numbers

/-!
## The towers
-/

/-- `[t^{-1}]_{p_j}`, which only a scheme with a plaintext modulus needs. -/
def tInvModp (moduliP : List Nat) (t : Nat) : Option (List Nat) :=
  if t > 0 then moduliP.mapM fun p => NativeInteger.modInverse t p else some []

/-- The tables that the crypto parameters precompute for scaling down. -/
def modDownTables (moduliQ moduliP : List Nat) (t : Nat) : Option ModDownTables := do
  let pInvModq <- moduliQ.mapM fun q => BigInteger.modInverse moduliP.prod q
  let pHat <- switchTables moduliP moduliQ
  let tInvModp <- tInvModp moduliP t
  return { pInvModq := pInvModq, pHat := pHat, tInvModp := tInvModp }

structure ModDownTables.Exact (tables : ModDownTables) (moduliQ moduliP : List Nat) (t : Nat) :
    Prop where
  pInv : forall (i q : Nat), moduliQ[i]? = some q ->
    exists w : Nat, tables.pInvModq[i]? = some w ∧ moduliP.prod * w % q = 1
  tInv : 0 < t -> forall (j p : Nat), moduliP[j]? = some p ->
    exists w : Nat, tables.tInvModp[j]? = some w ∧ t * w % p = 1
  pHat : tables.pHat.Exact moduliP
  moduli_eq : tables.pHat.moduli = moduliQ

theorem SwitchTables.Exact.narrow {tables : SwitchTables} {source targets : List Nat}
    (h : tables.Exact source)
    (hnarrow : forall (j p : Nat), targets[j]? = some p -> tables.moduli[j]? = some p) :
    { tables with moduli := targets }.Exact source := by
  refine ⟨h.inverse, ?_, fun j p hp => h.modpBarrettMu j p (hnarrow j p hp)⟩
  intro i hi
  rcases h.qHatModp i hi with ⟨row, hrow, hget⟩
  exact ⟨row, hrow, fun j p hp => hget j p (hnarrow j p hp)⟩

section Tables

variable {moduliQ moduliP : List Nat} {t : Nat}

theorem modDownTables_exact (hconv : Convertible moduliP moduliQ)
    (hQ : forall q, q ∈ moduliQ -> 1 < q ∧ Nat.gcd moduliP.prod q = 1)
    (ht : Nat.Coprime (plainFactor t) moduliP.prod) :
    exists tables, modDownTables moduliQ moduliP t = some tables ∧
      tables.Exact moduliQ moduliP t := by
  rcases mapM_spec (l := moduliQ) (f := fun q => BigInteger.modInverse moduliP.prod q)
    (fun q w => moduliP.prod * w % q = 1) (by
      intro q hq
      rcases BigInteger.modInverse_spec (hQ q hq).1 (hQ q hq).2 with ⟨w, hw, _, hmul⟩
      exact ⟨w, hw, hmul⟩) with ⟨pInvModq, hpInv, hpInvLength, hpInvGet⟩
  rcases switchTables_exact hconv with ⟨pHat, hpHat, hmoduli, hexact⟩
  have htInv : exists inverses : List Nat, tInvModp moduliP t = some inverses ∧
      (0 < t -> forall (j p : Nat), moduliP[j]? = some p ->
        exists w : Nat, inverses[j]? = some w ∧ t * w % p = 1) := by
    unfold tInvModp
    by_cases hpos : t > 0
    · rw [if_pos hpos]
      rw [plainFactor, if_neg (by omega)] at ht
      rcases mapM_spec (l := moduliP) (f := fun p => NativeInteger.modInverse t p)
        (fun p w => t * w % p = 1) (by
          intro p hp
          have hlt := hconv.source_lt p hp
          rcases NativeInteger.modInverse_spec (hconv.one_lt p hp) (by omega)
            (Nat.Coprime.coprime_dvd_right (List.dvd_prod hp) ht) with ⟨w, hw, _, hmul⟩
          exact ⟨w, hw, hmul⟩) with ⟨inverses, hinverses, hlength, hget⟩
      refine ⟨inverses, hinverses, fun _ j p hp => ?_⟩
      have hj : j < inverses.length := by
        rw [hlength]
        exact (List.getElem?_eq_some_iff.mp hp).1
      have hw := List.getElem?_eq_getElem hj
      exact ⟨_, hw, hget j p _ hp hw⟩
    · rw [if_neg hpos]
      exact ⟨[], rfl, fun h => absurd h hpos⟩
  rcases htInv with ⟨inverses, htInv, htInvGet⟩
  refine ⟨⟨pInvModq, pHat, inverses⟩, ?_, ?_, htInvGet, hexact, hmoduli⟩
  · unfold modDownTables
    rw [hpInv, hpHat, htInv]
    rfl
  · intro i q hq
    have hi : i < pInvModq.length := by
      rw [hpInvLength]
      exact (List.getElem?_eq_some_iff.mp hq).1
    have hw := List.getElem?_eq_getElem hi
    exact ⟨_, hw, hpInvGet i q _ hq hw⟩

end Tables

section ModDown

variable {cache : Poly.TableCache} {k : Nat} (hk : 0 < k) (hk31 : k <= 31) {psi : Nat -> Nat}
  {moduliQ moduliP : List Nat} (hready : ReadyChain cache k psi (moduliQ ++ moduliP))
  (hcoprime : moduliP.Pairwise Nat.Coprime)
  {t : Nat} (ht : Nat.Coprime (plainFactor t) moduliP.prod)
  {tables : ModDownTables} (htables : tables.Exact moduliQ moduliP t)

include hk hk31 hready ht htables

theorem specialPart_denotes {l : Nat} (hl : l <= moduliQ.length) {a : DCRTPoly} {x : Nat -> Nat}
    (ha : Denotes (2 ^ k) .EVALUATION (moduliQ.take l ++ moduliP)
      (transform k psi fun _ q r => (x r : ZMod q)) a) :
    exists b, specialPart cache tables.tInvModp t moduliP.length l a = some b ∧
      Denotes (2 ^ k) .COEFFICIENT moduliP
        (fun _ p r => (dividedPart moduliP t (x r) : ZMod p)) b := by
  have hone : forall p, p ∈ moduliP -> 1 < p :=
    fun p hp => (hready p (List.mem_append_right _ hp)).modulus.one_lt
  have hlength : (moduliQ.take l).length = l := by
    rw [List.length_take, Nat.min_eq_left hl]
  rcases mapM_range_spec (n := moduliP.length)
    (f := fun j => do
      let tower <- a[l + j]?
      let part <- Poly.setFormat cache tower .COEFFICIENT
      if t > 0 then do
        let tInv <- tables.tInvModp[j]?
        Poly.timesInteger part tInv
      else return part)
    (fun j u => forall p, moduliP[j]? = some p -> Poly.Denotes p (2 ^ k) .COEFFICIENT
      (fun r => (dividedPart moduliP t (x r) : ZMod p)) u) (by
      intro j hj
      have hp := List.getElem?_eq_getElem hj
      have hmem := List.mem_of_getElem? hp
      have hq : (moduliQ.take l ++ moduliP)[l + j]? = some moduliP[j] := by
        rw [List.getElem?_append_right (by omega), hlength, Nat.add_sub_cancel_left, hp]
      have hprime := hready _ (List.mem_append_right _ hmem)
      rcases ha.tower hq with ⟨tower, htower, hdenotes⟩
      rcases Poly.switchFormat_coefficient hk hprime hk31 hdenotes with ⟨part, hpart, hpdenotes⟩
      have hset : Poly.setFormat cache tower .COEFFICIENT = some part := by
        rw [Poly.setFormat, hdenotes.format_eq]
        exact hpart
      have hdivided : forall r, (plainFactor t : ZMod moduliP[j]) *
          dividedPart moduliP t (x r) = x r := by
        intro r
        have hmod := (dividedPart_modEq hone ht (x r)).of_dvd (List.dvd_prod hmem)
        exact_mod_cast (ZMod.natCast_eq_natCast_iff _ _ _).mpr hmod
      by_cases hpos : t > 0
      · rcases htables.tInv hpos j _ hp with ⟨w, hw, hmul⟩
        rcases Poly.timesInteger_denotes hprime.modulus w hpdenotes with ⟨u, hu, hudenotes⟩
        refine ⟨u, ?_, ?_⟩
        · simp only [htower, hset, hw, hpos, Option.bind_eq_bind, Option.bind_some, if_true]
          exact hu
        · intro p hp'
          cases hp.symm.trans hp'
          apply hudenotes.congr
          intro r _
          have hinv : (t : ZMod moduliP[j]) * w = 1 := by
            have hcast := (ZMod.natCast_eq_natCast_iff' (t * w) 1 moduliP[j]).mpr (by
              rw [hmul, Nat.mod_eq_of_lt hprime.modulus.one_lt])
            exact_mod_cast hcast
          have hone' := hdivided r
          rw [plainFactor, if_neg (by omega)] at hone'
          change (x r : ZMod moduliP[j]) * w = _
          rw [← hone']
          linear_combination (dividedPart moduliP t (x r) : ZMod moduliP[j]) * hinv
      · refine ⟨part, ?_, ?_⟩
        · simp only [htower, hset, hpos, Option.bind_eq_bind, Option.bind_some, if_false]
          rfl
        · intro p hp'
          cases hp.symm.trans hp'
          apply hpdenotes.congr
          intro r _
          have hone' := hdivided r
          rw [plainFactor, if_pos (by omega), Nat.cast_one, one_mul] at hone'
          exact hone'.symm) with ⟨b, hb, hblength, hget⟩
  exact ⟨b, hb, denotes_of_towers hblength fun j p u hp hu => hget j u hu p hp⟩

omit hk hk31 hready ht htables in
theorem timesPlain_denotes (t : Nat) {q n : Nat} (hq : Poly.NttModulus q) {format : Format}
    {f : Nat -> ZMod q} {a : Poly} (ha : Poly.Denotes q n format f a) :
    exists u, timesPlain t a = some u ∧
      Poly.Denotes q n format (fun r => f r * plainFactor t) u := by
  unfold timesPlain plainFactor
  by_cases hpos : t > 0
  · rw [if_pos hpos, if_neg (by omega)]
    exact Poly.timesInteger_denotes hq t ha
  · rw [if_neg hpos, if_pos (by omega)]
    exact ⟨a, rfl, ha.congr fun i _ => by rw [Nat.cast_one, mul_one]⟩

omit hk hk31 hready ht htables in
theorem stageArray_sub_mul {q : Nat} (f g : Nat -> ZMod q) (c root : ZMod q) (i : Nat) :
    (stageArray f root 1 k i - stageArray g root 1 k i) * c =
      stageArray (fun r => (f r - g r) * c) root 1 k i := by
  rw [stageArray_last, stageArray_last, stageArray_last, ← Finset.sum_sub_distrib,
    Finset.sum_mul]
  refine Finset.sum_congr rfl fun r _ => ?_
  ring

omit hk31 hready ht htables in
theorem scaleTower_denotes {q : Nat} (hq : Poly.Ready cache k q (psi q)) (t : Nat)
    {x e : Nat -> Nat} {quotient : Nat -> Int}
    (hquotient : forall r, (moduliP.prod : Int) * quotient r = x r - plainFactor t * e r)
    {pInv : Nat} (hpInv : moduliP.prod * pInv % q = 1) {tower switched : Poly}
    (htower : Poly.Denotes q (2 ^ k) .EVALUATION
      (stageArray (fun r => (x r : ZMod q)) (psi q) 1 k) tower)
    (hswitched : Poly.Denotes q (2 ^ k) .COEFFICIENT (fun r => (e r : ZMod q)) switched) :
    exists u, scaleTower cache t pInv tower switched = some u ∧
      Poly.Denotes q (2 ^ k) .EVALUATION
        (stageArray (fun r => (quotient r : ZMod q)) (psi q) 1 k) u := by
  rcases timesPlain_denotes t hq.modulus hswitched with ⟨part, hpart, hpart_denotes⟩
  rcases Poly.switchFormat_evaluation hk hq hpart_denotes with ⟨part', hpart', hpart'_denotes⟩
  rcases Poly.minusEq_denotes hq.modulus htower hpart'_denotes with ⟨d, hd, hd_denotes⟩
  rcases Poly.timesInteger_denotes hq.modulus pInv hd_denotes with ⟨u, hu, hu_denotes⟩
  refine ⟨u, ?_, ?_⟩
  · unfold scaleTower Poly.setFormat
    simp only [hpart, hpart_denotes.format_eq, Option.bind_eq_bind, Option.bind_some]
    rw [if_neg (by decide), hpart', Option.bind_some, hd, Option.bind_some, hu]
  · apply hu_denotes.congr
    intro i _
    rw [stageArray_sub_mul]
    apply stageArray_congr
    intro r _
    have hinv : (moduliP.prod : ZMod q) * pInv = 1 := by
      have hcast := (ZMod.natCast_eq_natCast_iff' (moduliP.prod * pInv) 1 q).mpr (by
        rw [hpInv, Nat.mod_eq_of_lt hq.modulus.one_lt])
      exact_mod_cast hcast
    have hcast := congrArg (Int.cast (R := ZMod q)) (hquotient r)
    simp only [Int.cast_mul, Int.cast_sub, Int.cast_natCast] at hcast
    linear_combination (quotient r : ZMod q) * hinv - pInv * hcast

include hcoprime

theorem approxModDown_denotes {l m : Nat} (hpos : 0 < l) (hlm : l <= m)
    (hm : m <= moduliQ.length) {a : DCRTPoly} {x : Nat -> Nat}
    (ha : Denotes (2 ^ k) .EVALUATION (moduliQ.take l ++ moduliP)
      (transform k psi fun _ q r => (x r : ZMod q)) a)
    (hlost : forall r, r < 2 ^ k -> forall q, q ∈ moduliQ.take l ->
      q ∣ 2 ^ 128 * (accumulator moduliP q (dividedPart moduliP t (x r)) / 2 ^ 128)) :
    exists b, approxModDown cache tables (moduliQ.take m) moduliP (2 ^ k) t a = some b ∧
      Denotes (2 ^ k) .EVALUATION (moduliQ.take l)
        (transform k psi fun _ q r => (scaledDown moduliP t (x r) : ZMod q)) b := by
  have hprimeP : forall p, p ∈ moduliP -> Poly.NttModulus p :=
    fun p hp => (hready p (List.mem_append_right _ hp)).modulus
  have hreadyQ : forall q, q ∈ moduliQ -> Poly.Ready cache k q (psi q) :=
    fun q hq => hready q (List.mem_append_left _ hq)
  have hone : forall p, p ∈ moduliP -> 1 < p := fun p hp => (hprimeP p hp).one_lt
  have hconv : Convertible moduliP (moduliQ.take m) := by
    refine ⟨hcoprime, hone, fun p hp => (hprimeP p hp).lt, ?_, ?_⟩
    · intro q hq
      have hone := (hreadyQ q (List.mem_of_mem_take hq)).modulus.one_lt
      omega
    · exact fun q hq => (hreadyQ q (List.mem_of_mem_take hq)).modulus.lt
  have hexact : { tables.pHat with moduli := moduliQ.take m }.Exact moduliP := by
    apply htables.pHat.narrow
    intro j q hq
    rw [htables.moduli_eq]
    rw [List.getElem?_take] at hq
    split at hq
    · exact hq
    · cases hq
  have htake : (moduliQ.take l).length = l := by
    rw [List.length_take, Nat.min_eq_left (by omega)]
  have hsizeQ : a.length - moduliP.length = l := by
    rw [ha.wellFormed.length_eq, List.length_append, htake, Nat.add_sub_cancel]
  rcases specialPart_denotes hk hk31 hready ht htables (by omega) ha with
    ⟨part, hpart, hpart_denotes⟩
  rcases approxSwitchCRTBasis_value hconv hexact hpart_denotes.wellFormed
    (x := fun r => dividedPart moduliP t (x r))
    (fun r hr i p hp => hpart_denotes.value_mod
      (f := fun _ _ r => dividedPart moduliP t (x r)) hp hr)
    (le_refl _) .COEFFICIENT with ⟨switched, hswitched, hswitched_wf, hvalue⟩
  have htowers : exists ans, resultTowers (moduliQ.take m) (2 ^ k) l = some ans ∧
      ans.length = l := resultTowers_length hpos (by rw [List.length_take]; omega) _
  rcases htowers with ⟨ans, hans, hanslength⟩
  rcases mapM_range_spec (n := l)
    (f := fun i => do
      let tower <- a[i]?
      let switched <- switched[i]?
      let pInv <- tables.pInvModq[i]?
      scaleTower cache t pInv tower switched)
    (fun i u => forall q, (moduliQ.take l)[i]? = some q ->
      Poly.Denotes q (2 ^ k) .EVALUATION
        (stageArray (fun r => (scaledDown moduliP t (x r) : ZMod q)) (psi q) 1 k) u) (by
      intro i hi
      have hq := List.getElem?_eq_getElem (show i < (moduliQ.take l).length by omega)
      have hmem := List.mem_of_getElem? hq
      have hprime := hreadyQ _ (List.mem_of_mem_take hmem)
      have hqm : (moduliQ.take m)[i]? = some (moduliQ.take l)[i] := by
        rw [List.getElem?_take_of_lt (by omega), ← hq, List.getElem?_take_of_lt hi]
      have hlow : (moduliQ.take l ++ moduliP)[i]? = some (moduliQ.take l)[i] := by
        rw [List.getElem?_append_left (by omega), hq]
      rcases ha.tower hlow with ⟨tower, htower, htower_denotes⟩
      rcases hswitched_wf.exists_tower hqm with ⟨s, hs, hs_wf⟩
      rcases htables.pInv i (moduliQ.take l)[i] (by
        rw [← hq, List.getElem?_take_of_lt hi]) with ⟨pInv, hpInv, hmul⟩
      have hs_denotes : Poly.Denotes (moduliQ.take l)[i] (2 ^ k) .COEFFICIENT
          (fun r => (convertedPart moduliP t (x r) : ZMod (moduliQ.take l)[i])) s := by
        apply hs_wf.denotes.congr
        intro r hr
        rw [← value_eq hs, hvalue r hr i _ hqm,
          (doubleWord_mod_eq_iff _ _).mpr (hlost r hr _ hmem), accumulator_mod,
          ZMod.natCast_mod]
        rfl
      rcases scaleTower_denotes hk hprime t (mul_scaledDown hcoprime hone ht <| x ·) hmul
        htower_denotes hs_denotes with ⟨u, hu, hu_denotes⟩
      refine ⟨u, ?_, ?_⟩
      · simp only [htower, hs, hpInv, Option.bind_eq_bind, Option.bind_some]
        exact hu
      · intro q' hq'
        cases hq.symm.trans hq'
        exact hu_denotes) with ⟨b, hb, hblength, hget⟩
  refine ⟨b, ?_, denotes_of_towers (hblength.trans htake.symm)
    fun i q u hq hu => hget i u hu q hq⟩
  unfold approxModDown
  simp only [hsizeQ, hpart, hswitched, hans, hanslength, Option.bind_eq_bind, Option.bind_some]
  exact hb

end ModDown

end DCRTPoly
end Hal
end OpenFHE
