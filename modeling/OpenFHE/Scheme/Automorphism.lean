import OpenFHE.Hal.Automorphism
import OpenFHE.KeySwitch.BV

/-!
# Automorphisms of ciphertexts

`LeveledSHEBase` generates the key of an automorphism for the secret permuted by
the inverse index, and evaluates the automorphism by a key switch followed by the
permutation.  The hoisted rotation takes the digits of the key switch as an
argument.
-/

namespace OpenFHE
namespace Scheme

open OpenFHE.Core Foundation Hal KeySwitch NativeInteger

/--
The key-switching technique of a scheme over the chain `moduliQ`.  The first
argument of `keySwitchGen` names the random draws of the call.  Ciphertexts are
in the evaluation format.
-/
structure KeySwitching (n : Nat) (moduliQ : List Nat) where
  keySwitchGen : Nat -> DCRTPoly -> DCRTPoly -> Option EvalKey
  evalKeySwitchPrecomputeCore : DCRTPoly -> Option (List DCRTPoly)
  evalFastKeySwitchCore : List DCRTPoly -> EvalKey -> Nat -> Option (DCRTPoly × DCRTPoly)
  generates : forall draw sOld sNew,
    DCRTPoly.WellFormed n .EVALUATION moduliQ sOld ->
    DCRTPoly.WellFormed n .EVALUATION moduliQ sNew ->
    exists evalKey, keySwitchGen draw sOld sNew = some evalKey
  switches : forall draw sOld sNew evalKey l c,
    keySwitchGen draw sOld sNew = some evalKey ->
    DCRTPoly.WellFormed n .EVALUATION moduliQ sOld ->
    DCRTPoly.WellFormed n .EVALUATION moduliQ sNew -> l < moduliQ.length ->
    DCRTPoly.WellFormed n .EVALUATION (moduliQ.take (l + 1)) c ->
    exists digits u0 u1, evalKeySwitchPrecomputeCore c = some digits ∧
      evalFastKeySwitchCore digits evalKey (l + 1) = some (u0, u1) ∧
      DCRTPoly.WellFormed n .EVALUATION (moduliQ.take (l + 1)) u0 ∧
      DCRTPoly.WellFormed n .EVALUATION (moduliQ.take (l + 1)) u1

abbrev EvalKeyMap := List (Nat × EvalKey)

section Operations

variable {n : Nat} {moduliQ : List Nat} (cache : Poly.TableCache)
  (ks : KeySwitching n moduliQ)

def keySwitchCore (a : DCRTPoly) (evalKey : EvalKey) : Option (DCRTPoly × DCRTPoly) := do
  let digits <- ks.evalKeySwitchPrecomputeCore a
  ks.evalFastKeySwitchCore digits evalKey a.length

def keySwitchInPlace (cv : List DCRTPoly) (evalKey : EvalKey) : Option (List DCRTPoly) := do
  let last <- cv.getLast?
  let ba <- keySwitchCore ks last evalKey
  let cv0 <- cv[0]?
  let cv0 <- DCRTPoly.setFormat cache cv0 .EVALUATION
  let cv0 <- DCRTPoly.plusEq cv0 ba.1
  let cv1 <- cv[1]?
  let cv1 <- (if cv.length > 2 then
      (DCRTPoly.setFormat cache cv1 .EVALUATION).bind fun cv1 => DCRTPoly.plusEq cv1 ba.2
    else some ba.2)
  return [cv0, cv1]

/-- The key of one index: a switch to the secret permuted by the inverse index. -/
def automorphismKey (s : DCRTPoly) (i : Nat) : Option (Nat × EvalKey) := do
  let inverse <- modInverse i (2 * n)
  let index := usint inverse
  let vec <- precomputeAutoMap n index
  let privateKeyPermuted <- DCRTPoly.automorphismTransformMap index vec s
  let evalKey <- ks.keySwitchGen i s privateKeyPermuted
  return (i, evalKey)

/-- `existing` are the indices whose keys are already stored. -/
def evalAutomorphismKeyGen (s : DCRTPoly) (existing indexList : List Nat) :
    Option EvalKeyMap :=
  let newIndices := ((indexList.filter fun i => ¬ i ∈ existing).dedup).mergeSort
  newIndices.mapM (automorphismKey ks s)

def evalAutomorphism (cv : List DCRTPoly) (i : Nat) (evalKeyMap : EvalKeyMap) :
    Option (List DCRTPoly) :=
  if cv.length ≠ 2 then none
  else do
    let evalKey <- evalKeyMap.lookup i
    let rcv <- keySwitchInPlace cache ks cv evalKey
    let vec <- precomputeAutoMap n i
    let rcv0 <- rcv[0]?
    let rcv0 <- DCRTPoly.automorphismTransformMap i vec rcv0
    let rcv1 <- rcv[1]?
    let rcv1 <- DCRTPoly.automorphismTransformMap i vec rcv1
    return [rcv0, rcv1]

def evalFastRotationPrecompute (cv : List DCRTPoly) : Option (List DCRTPoly) := do
  let cv1 <- cv[1]?
  ks.evalKeySwitchPrecomputeCore cv1

variable (findAutomorphismIndex : Nat -> Nat -> Option Nat)

def evalFastRotation (cv : List DCRTPoly) (index m : Nat) (digits : List DCRTPoly)
    (evalKeyMap : EvalKeyMap) : Option (List DCRTPoly) :=
  if index = 0 then some cv
  else do
    let autoIndex <- findAutomorphismIndex index m
    let evalKey <- evalKeyMap.lookup autoIndex
    let vec <- precomputeAutoMap n autoIndex
    let cv0 <- cv[0]?
    let ba <- ks.evalFastKeySwitchCore digits evalKey cv0.length
    let ba0 <- DCRTPoly.plusEq ba.1 cv0
    let ba0 <- DCRTPoly.automorphismTransformMap autoIndex vec ba0
    let ba1 <- DCRTPoly.automorphismTransformMap autoIndex vec ba.2
    return [ba0, ba1]

/-- The rotation index is an `int32_t`, converted to `uint32_t`. -/
def evalAtIndexKeyGen (s : DCRTPoly) (existing : List Nat) (indexList : List Int) :
    Option EvalKeyMap := do
  let autoIndices <- indexList.mapM fun index => findAutomorphismIndex (usint index) (2 * n)
  evalAutomorphismKeyGen ks s existing autoIndices

def evalAtIndex (cv : List DCRTPoly) (index : Int) (evalKeyMap : EvalKeyMap) :
    Option (List DCRTPoly) := do
  let i <- findAutomorphismIndex (usint index) (2 * n)
  evalAutomorphism cache ks cv i evalKeyMap

end Operations

/-- The phase of a two-element ciphertext at a position of tower `t`. -/
def phase (q : Nat) (c0 c1 s : DCRTPoly) (t r : Nat) : ZMod q :=
  DCRTPoly.value c0 t r + DCRTPoly.value c1 t r * DCRTPoly.value s t r

/--
The key switch of `c1` from `s` to the permuted secret yields `(u0, u1)`, and the
result decrypts to the automorphism of the message and of the key-switch noise,
in every tower.  `psi` gives the root of each modulus.
-/
structure Rotated {n : Nat} {moduliQ : List Nat} (ks : KeySwitching n moduliQ)
    (k : Nat) (psi : Nat -> Nat) (l i : Nat) (s c0 c1 r0 r1 : DCRTPoly)
    (evalKey : EvalKey) (sPerm u0 u1 : DCRTPoly) : Prop where
  generated : ks.keySwitchGen i s sPerm = some evalKey
  switched : keySwitchCore ks c1 evalKey = some (u0, u1)
  r0_wellFormed : DCRTPoly.WellFormed (2 ^ k) .EVALUATION (moduliQ.take (l + 1)) r0
  r1_wellFormed : DCRTPoly.WellFormed (2 ^ k) .EVALUATION (moduliQ.take (l + 1)) r1
  decrypts : forall t q, (moduliQ.take (l + 1))[t]? = some q ->
    exists message noise : Nat -> ZMod q,
      (forall r, r < 2 ^ k -> phase q c0 c1 s t r = stageArray message (psi q) 1 k r) ∧
      (forall r, r < 2 ^ k -> phase q u0 u1 sPerm t r - DCRTPoly.value c1 t r *
        DCRTPoly.value s t r = stageArray noise (psi q) 1 k r) ∧
      forall r, r < 2 ^ k -> phase q r0 r1 s t r =
        stageArray (negacyclicAutomorphism (2 ^ k) i message) (psi q) 1 k r +
          stageArray (negacyclicAutomorphism (2 ^ k) i noise) (psi q) 1 k r

/--
For every secret, every list of odd indices and every ciphertext the automorphisms
decrypt as they should, and the hoisted rotation agrees with `EvalAtIndex`.
-/
def AutomorphismContract (cache : Poly.TableCache) (k : Nat) {moduliQ : List Nat}
    (ks : KeySwitching (2 ^ k) moduliQ) (findAutomorphismIndex : Nat -> Nat -> Option Nat)
    (psi : Nat -> Nat) : Prop :=
  forall (s : DCRTPoly) (existing indexList : List Nat),
    DCRTPoly.WellFormed (2 ^ k) .EVALUATION moduliQ s ->
    (forall i, i ∈ indexList -> i % 2 = 1 ∧ i < 2 ^ 32) ->
    exists evalKeyMap, evalAutomorphismKeyGen ks s existing indexList = some evalKeyMap ∧
      forall i, i ∈ indexList -> i ∉ existing -> forall l, l < moduliQ.length ->
        forall c0 c1, DCRTPoly.WellFormed (2 ^ k) .EVALUATION (moduliQ.take (l + 1)) c0 ->
          DCRTPoly.WellFormed (2 ^ k) .EVALUATION (moduliQ.take (l + 1)) c1 ->
          exists r0 r1 evalKey sPerm u0 u1,
            evalAutomorphism cache ks [c0, c1] i evalKeyMap = some [r0, r1] ∧
            evalKeyMap.lookup i = some evalKey ∧
            Rotated ks k psi l i s c0 c1 r0 r1 evalKey sPerm u0 u1 ∧
            forall index : Int, -2 ^ 31 <= index -> index < 2 ^ 31 ->
              findAutomorphismIndex (usint index) (2 * 2 ^ k) = some i ->
              evalAtIndex cache ks findAutomorphismIndex [c0, c1] index evalKeyMap =
                some [r0, r1] ∧
              (index ≠ 0 -> exists digits,
                evalFastRotationPrecompute ks [c0, c1] = some digits ∧
                evalFastRotation ks findAutomorphismIndex [c0, c1] (usint index) (2 * 2 ^ k)
                  digits evalKeyMap = some [r0, r1])

section Correctness

variable {cache : Poly.TableCache} {k : Nat} (hk : 0 < k) (hk24 : k <= 24)
  {moduliQ : List Nat} (ks : KeySwitching (2 ^ k) moduliQ)

include hk hk24

theorem inverseIndex_spec {i : Nat} (hi : i % 2 = 1) :
    exists index vec, modInverse i (2 * 2 ^ k) = some index ∧ usint index = index ∧
      precomputeAutoMap (2 ^ k) index = some vec ∧ index % 2 = 1 ∧
      i * index % 2 ^ (k + 1) = 1 ∧
      forall r, r < 2 ^ k -> vec[r]? = some (autoPosition k index r) := by
  have hone : 1 < 2 ^ (k + 1) := Nat.one_lt_two_pow (by omega)
  have hsmall : 2 ^ (k + 1) < 2 ^ 32 := Nat.pow_lt_pow_right (by decide) (by omega)
  have hgcd : Nat.gcd i (2 ^ (k + 1)) = 1 :=
    Nat.Coprime.pow_right (k + 1) (Nat.coprime_two_right.mpr (Nat.odd_iff.mpr hi))
  rcases modInverse_spec hone (by omega) hgcd with ⟨index, hindex, hlt, hproduct⟩
  have hodd : index % 2 = 1 := by
    have hparity := congrArg (· % 2) hproduct
    simp only [Nat.mod_mod_of_dvd _ (dvd_pow_self 2 (Nat.succ_ne_zero k))] at hparity
    rw [Nat.mul_mod, hi, one_mul, Nat.mod_mod] at hparity
    exact hparity
  rcases precomputeAutoMap_spec (i := index) (by omega) hk hk24 with ⟨vec, hvec, _, hentry⟩
  refine ⟨index, vec, ?_, ?_, hvec, hodd, hproduct, hentry⟩
  · rw [← pow_succ', hindex]
  · rw [usint_natCast, Nat.mod_eq_of_lt (by omega)]

theorem automorphismKey_spec {s : DCRTPoly}
    (hs : DCRTPoly.WellFormed (2 ^ k) .EVALUATION moduliQ s) {i : Nat} (hi : i % 2 = 1) :
    exists evalKey sPerm, automorphismKey ks s i = some (i, evalKey) ∧
      ks.keySwitchGen i s sPerm = some evalKey ∧
      DCRTPoly.WellFormed (2 ^ k) .EVALUATION moduliQ sPerm ∧
      forall t q, moduliQ[t]? = some q -> forall r, r < 2 ^ k ->
        (DCRTPoly.value sPerm t (autoPosition k i r) : ZMod q) = DCRTPoly.value s t r := by
  rcases inverseIndex_spec hk hk24 hi with
    ⟨index, vec, hindex, husint, hvec, hodd, hproduct, hentry⟩
  rcases DCRTPoly.automorphismTransformMap_spec hs hodd hentry
    (fun r _ => autoPosition_lt k index r) with ⟨sPerm, hperm, hperm_wf, hvalue⟩
  rcases ks.generates i s sPerm hs hperm_wf with ⟨evalKey, hgen⟩
  refine ⟨evalKey, sPerm, ?_, hgen, hperm_wf, ?_⟩
  · unfold automorphismKey
    rw [hindex]
    simp only [Option.bind_eq_bind, Option.bind_some]
    rw [husint, hvec]
    simp only [Option.bind_some]
    rw [hperm]
    simp only [Option.bind_some]
    rw [hgen]
    rfl
  · intro t q hq r hr
    rw [hvalue t q hq _ (autoPosition_lt k i r), autoPosition_inverse hi hodd hproduct hr]

omit hk hk24 in
theorem automorphismKey_fst {s : DCRTPoly} {i : Nat} {entry : Nat × EvalKey}
    (h : automorphismKey ks s i = some entry) : entry.1 = i := by
  simp only [automorphismKey, Option.bind_eq_bind, Option.bind_eq_some_iff] at h
  rcases h with ⟨_, _, _, _, _, _, _, _, hentry⟩
  rw [← Option.some.inj hentry]

omit hk hk24 in
theorem lookup_mapM {s : DCRTPoly} {indices : List Nat} {evalKeyMap : EvalKeyMap}
    (h : indices.mapM (automorphismKey ks s) = some evalKeyMap) {i : Nat}
    (hi : i ∈ indices) {evalKey : EvalKey}
    (hkey : automorphismKey ks s i = some (i, evalKey)) :
    evalKeyMap.lookup i = some evalKey := by
  induction indices generalizing evalKeyMap with
  | nil => cases hi
  | cons x xs ih =>
      simp only [List.mapM_cons, Option.bind_eq_bind, Option.bind_eq_some_iff] at h
      rcases h with ⟨entry, hentry, rest, hrest, hmap⟩
      rw [← Option.some.inj hmap]
      have hfst := automorphismKey_fst ks hentry
      rw [List.lookup_cons]
      by_cases hix : i = x
      · rw [← hix, hkey] at hentry
        rw [← Option.some.inj hentry]
        simp
      · rw [hfst, beq_false_of_ne hix]
        exact ih hrest ((List.mem_cons.mp hi).resolve_left hix)

theorem evalAutomorphismKeyGen_spec {s : DCRTPoly}
    (hs : DCRTPoly.WellFormed (2 ^ k) .EVALUATION moduliQ s) (existing : List Nat)
    {indexList : List Nat} (hodd : forall i, i ∈ indexList -> i % 2 = 1) :
    exists evalKeyMap, evalAutomorphismKeyGen ks s existing indexList = some evalKeyMap ∧
      forall i, i ∈ indexList -> i ∉ existing -> exists evalKey sPerm,
        evalKeyMap.lookup i = some evalKey ∧ ks.keySwitchGen i s sPerm = some evalKey ∧
        DCRTPoly.WellFormed (2 ^ k) .EVALUATION moduliQ sPerm ∧
        forall t q, moduliQ[t]? = some q -> forall r, r < 2 ^ k ->
          (DCRTPoly.value sPerm t (autoPosition k i r) : ZMod q) =
            DCRTPoly.value s t r := by
  have hmem : forall i, i ∈ ((indexList.filter fun i => ¬ i ∈ existing).dedup).mergeSort <->
      i ∈ indexList ∧ i ∉ existing := by
    intro i
    simp [List.mem_mergeSort]
  rcases mapM_spec (l := ((indexList.filter fun i => ¬ i ∈ existing).dedup).mergeSort)
    (f := automorphismKey ks s) (fun _ _ => True)
    (by
      intro i hi
      rcases automorphismKey_spec hk hk24 ks hs (hodd i ((hmem i).mp hi).1) with
        ⟨evalKey, _, hkey, _⟩
      exact ⟨_, hkey, trivial⟩) with ⟨evalKeyMap, hmap, _⟩
  refine ⟨evalKeyMap, hmap, ?_⟩
  intro i hi hnew
  rcases automorphismKey_spec hk hk24 ks hs (hodd i hi) with
    ⟨evalKey, sPerm, hkey, hgen, hperm_wf, hvalue⟩
  exact ⟨evalKey, sPerm, lookup_mapM ks hmap ((hmem i).mpr ⟨hi, hnew⟩) hkey, hgen, hperm_wf,
    hvalue⟩

section Evaluate

variable {s sPerm c0 c1 : DCRTPoly} {i l : Nat} {evalKey : EvalKey}
  (hmoduli : forall q, q ∈ moduliQ -> Poly.NttModulus q)
  (hs : DCRTPoly.WellFormed (2 ^ k) .EVALUATION moduliQ s)
  (hperm : DCRTPoly.WellFormed (2 ^ k) .EVALUATION moduliQ sPerm) (hl : l < moduliQ.length)
  (hc0 : DCRTPoly.WellFormed (2 ^ k) .EVALUATION (moduliQ.take (l + 1)) c0)
  (hc1 : DCRTPoly.WellFormed (2 ^ k) .EVALUATION (moduliQ.take (l + 1)) c1)
  (hi : i % 2 = 1) (hgen : ks.keySwitchGen i s sPerm = some evalKey)

include hmoduli hs hperm hl hc0 hc1 hi hgen

theorem switch_and_permute :
    exists digits u0 u1 sum vec r0 r1,
      ks.evalKeySwitchPrecomputeCore c1 = some digits ∧
      ks.evalFastKeySwitchCore digits evalKey (l + 1) = some (u0, u1) ∧
      DCRTPoly.plusEq c0 u0 = some sum ∧ DCRTPoly.plusEq u0 c0 = some sum ∧
      precomputeAutoMap (2 ^ k) i = some vec ∧
      DCRTPoly.automorphismTransformMap i vec sum = some r0 ∧
      DCRTPoly.automorphismTransformMap i vec u1 = some r1 ∧
      DCRTPoly.WellFormed (2 ^ k) .EVALUATION (moduliQ.take (l + 1)) r0 ∧
      DCRTPoly.WellFormed (2 ^ k) .EVALUATION (moduliQ.take (l + 1)) r1 ∧
      forall t q, (moduliQ.take (l + 1))[t]? = some q -> forall r, r < 2 ^ k ->
        (DCRTPoly.value r0 t r : ZMod q) = DCRTPoly.value c0 t (autoPosition k i r) +
            DCRTPoly.value u0 t (autoPosition k i r) ∧
          (DCRTPoly.value r1 t r : ZMod q) = DCRTPoly.value u1 t (autoPosition k i r) := by
  have htake : forall q, q ∈ moduliQ.take (l + 1) -> Poly.NttModulus q :=
    fun q hq => hmoduli q (List.mem_of_mem_take hq)
  have hposition := fun r (_ : r < 2 ^ k) => autoPosition_lt k i r
  rcases ks.switches i s sPerm evalKey l c1 hgen hs hperm hl hc1 with
    ⟨digits, u0, u1, hdigits, hfast, hu0, hu1⟩
  rcases DCRTPoly.plusEq_spec htake hc0 hu0 with ⟨sum, hsum, hsum_wf, hsum_value⟩
  rcases precomputeAutoMap_spec (i := i) (by omega) hk hk24 with ⟨vec, hvec, _, hentry⟩
  rcases DCRTPoly.automorphismTransformMap_spec hsum_wf hi hentry hposition with
    ⟨r0, hr0, hr0_wf, hr0_value⟩
  rcases DCRTPoly.automorphismTransformMap_spec hu1 hi hentry hposition with
    ⟨r1, hr1, hr1_wf, hr1_value⟩
  refine ⟨digits, u0, u1, sum, vec, r0, r1, hdigits, hfast, hsum,
    (DCRTPoly.plusEq_comm htake hu0 hc0).trans hsum, hvec, hr0, hr1, hr0_wf, hr1_wf, ?_⟩
  intro t q hq r hr
  constructor
  · rw [hr0_value t q hq r hr, hsum_value t q hq _ (autoPosition_lt k i r)]
  · exact hr1_value t q hq r hr

omit hk hk24 hmoduli hs hperm hl hc1 hi hgen in
theorem setFormat_first : DCRTPoly.setFormat cache c0 .EVALUATION = some c0 :=
  DCRTPoly.setFormat_self fun _ ht => hc0.format_eq ht

theorem evalAutomorphism_spec {psi : Nat -> Nat}
    (hroot : forall q, q ∈ moduliQ -> (psi q : ZMod q) ^ 2 ^ k = -1)
    (hpermuted : forall t q, moduliQ[t]? = some q -> forall r, r < 2 ^ k ->
      (DCRTPoly.value sPerm t (autoPosition k i r) : ZMod q) = DCRTPoly.value s t r)
    {evalKeyMap : EvalKeyMap} (hlookup : evalKeyMap.lookup i = some evalKey)
    (findAutomorphismIndex : Nat -> Nat -> Option Nat) :
    exists r0 r1 u0 u1, evalAutomorphism cache ks [c0, c1] i evalKeyMap = some [r0, r1] ∧
      Rotated ks k psi l i s c0 c1 r0 r1 evalKey sPerm u0 u1 ∧
      forall index, index ≠ 0 -> findAutomorphismIndex index (2 * 2 ^ k) = some i ->
        exists digits, evalFastRotationPrecompute ks [c0, c1] = some digits ∧
          evalFastRotation ks findAutomorphismIndex [c0, c1] index (2 * 2 ^ k) digits
            evalKeyMap = some [r0, r1] := by
  rcases switch_and_permute hk hk24 ks hmoduli hs hperm hl hc0 hc1 hi hgen with
    ⟨digits, u0, u1, sum, vec, r0, r1, hdigits, hfast, hsum, hsum', hvec, hr0, hr1, hr0_wf,
      hr1_wf, hvalue⟩
  have htotal : (moduliQ.take (l + 1)).length = l + 1 := by
    rw [List.length_take]
    omega
  have hcore : keySwitchCore ks c1 evalKey = some (u0, u1) := by
    unfold keySwitchCore
    rw [hdigits, hc1.length_eq, htotal]
    exact hfast
  refine ⟨r0, r1, u0, u1, ?_, ⟨hgen, hcore, hr0_wf, hr1_wf, ?_⟩, ?_⟩
  · have hswitch : keySwitchInPlace cache ks [c0, c1] evalKey = some [sum, u1] := by
      simp [keySwitchInPlace, hcore, setFormat_first hc0, hsum]
    simp [evalAutomorphism, hlookup, hswitch, hvec, hr0, hr1]
  · intro t q hq
    have hqmem := List.mem_of_mem_take (List.mem_of_getElem? hq)
    have hfull : moduliQ[t]? = some q := by
      have ht := (List.getElem?_eq_some_iff.mp hq).1
      rw [List.length_take] at ht
      rwa [List.getElem?_take_of_lt (by omega)] at hq
    have hone := (hmoduli q hqmem).one_lt
    have : NeZero q := ⟨by omega⟩
    have : Nontrivial (ZMod q) := ZMod.nontrivial_iff.mpr (by omega)
    have htwo : IsUnit (2 : ZMod q) := by
      have hcoprime := (ZMod.isUnit_iff_coprime 2 q).mpr
        (Nat.coprime_two_left.mpr (Nat.odd_iff.mpr (hmoduli q hqmem).odd))
      exact_mod_cast hcoprime
    rcases stageArray_surjective (hroot q hqmem) htwo (phase q c0 c1 s t) with
      ⟨message, hmessage⟩
    rcases stageArray_surjective (hroot q hqmem) htwo
      (fun r => phase q u0 u1 sPerm t r - (DCRTPoly.value c1 t r * DCRTPoly.value s t r :
        ZMod q)) with ⟨noise, hnoise⟩
    refine ⟨message, noise, fun r hr => (hmessage r hr).symm, fun r hr => (hnoise r hr).symm,
      ?_⟩
    intro r hr
    have hposition := autoPosition_lt k i r
    rw [← stageArray_autoPosition (hroot q hqmem) hi, ← stageArray_autoPosition
      (hroot q hqmem) hi, hmessage _ hposition, hnoise _ hposition]
    unfold phase
    rw [(hvalue t q hq r hr).1, (hvalue t q hq r hr).2, ← hpermuted t q hfull r hr]
    ring
  · intro index hindex hfind
    refine ⟨digits, hdigits, ?_⟩
    have hlength := hc0.length_eq.trans htotal
    simp [evalFastRotation, hindex, hfind, hlookup, hvec, hlength, hfast, hsum', hr0, hr1]

end Evaluate

end Correctness

section Contract

variable {cache : Poly.TableCache} {k : Nat} {moduliQ : List Nat}
  (ks : KeySwitching (2 ^ k) moduliQ)
  (hmoduli : forall q, q ∈ moduliQ -> Poly.NttModulus q)

include hmoduli

theorem not_automorphismContract (hk30 : k <= 30) (hlarge : k = 0 ∨ 24 < k)
    (findAutomorphismIndex : Nat -> Nat -> Option Nat) (psi : Nat -> Nat) :
    ¬ AutomorphismContract cache k ks findAutomorphismIndex psi := by
  intro hcontract
  have hzero := DCRTPoly.zero_wellFormed
    (fun q hq => by have := (hmoduli q hq).one_lt; omega) (2 ^ k) .EVALUATION
  rcases hcontract (DCRTPoly.zero moduliQ (2 ^ k) .EVALUATION) [] [1] hzero
    (by simp) with ⟨evalKeyMap, hmap, _⟩
  have hkey : automorphismKey ks (DCRTPoly.zero moduliQ (2 ^ k) .EVALUATION) 1 = none := by
    unfold automorphismKey
    cases modInverse 1 (2 * 2 ^ k) with
    | none => rfl
    | some inverse =>
        simp only [Option.bind_eq_bind, Option.bind_some,
          precomputeAutoMap_eq_none (by omega) hlarge, Option.bind_none]
  rw [evalAutomorphismKeyGen, mapM_eq_none (x := 1) (by simp) hkey] at hmap
  cases hmap

theorem automorphismContract_iff (hk30 : k <= 30)
    (findAutomorphismIndex : Nat -> Nat -> Option Nat) {psi : Nat -> Nat}
    (hroot : forall q, q ∈ moduliQ -> (psi q : ZMod q) ^ 2 ^ k = -1) :
    AutomorphismContract cache k ks findAutomorphismIndex psi <->
      2 <= 2 ^ k ∧ 2 ^ k <= 2 ^ 24 := by
  constructor
  · intro hcontract
    by_contra hnot
    refine not_automorphismContract ks hmoduli hk30 ?_ findAutomorphismIndex psi hcontract
    by_contra hrange
    apply hnot
    exact ⟨Nat.le_self_pow (by omega) 2, Nat.pow_le_pow_right (by decide) (by omega)⟩
  · rintro ⟨hlow, hhigh⟩ s existing indexList hs hodd
    have hk : 0 < k := by
      rcases Nat.eq_zero_or_pos k with hzero | hpos
      · rw [hzero] at hlow
        exact absurd hlow (by decide)
      · exact hpos
    have hk24 : k <= 24 := (Nat.pow_le_pow_iff_right (by decide)).mp hhigh
    rcases evalAutomorphismKeyGen_spec hk hk24 ks hs existing (fun i hi => (hodd i hi).1) with
      ⟨evalKeyMap, hmap, hkeys⟩
    refine ⟨evalKeyMap, hmap, ?_⟩
    intro i hi hnew l hl c0 c1 hc0 hc1
    rcases hkeys i hi hnew with ⟨evalKey, sPerm, hlookup, hgen, hperm_wf, hpermuted⟩
    rcases evalAutomorphism_spec hk hk24 ks hmoduli hs hperm_wf hl hc0 hc1 (hodd i hi).1 hgen
      hroot hpermuted hlookup findAutomorphismIndex with
      ⟨r0, r1, u0, u1, hrun, hrotated, hfast⟩
    refine ⟨r0, r1, evalKey, sPerm, u0, u1, hrun, hlookup, hrotated, ?_⟩
    intro index hlower hupper hfind
    constructor
    · unfold evalAtIndex
      rw [hfind]
      exact hrun
    · intro hindex
      refine hfast (usint index) ?_ hfind
      unfold usint
      omega

end Contract

/-!
## Key switching by windows
-/

/-- `KeySwitchBV` with the random polynomials of every call. -/
def windowKeySwitching {cache : Poly.TableCache} {params : BVParameters} {k : Nat}
    {psi : Nat -> Nat} (h : BV.Setting cache params k psi)
    (hdecomposable : forall l, l < params.moduliQ.length ->
      DCRTPoly.Decomposable params.digitSize (params.moduliQ.take (l + 1)))
    (a e : Nat -> List DCRTPoly)
    (ha : forall draw t, t < arrWindows params.digitSize params.moduliQ
      params.moduliQ.length -> exists a', (a draw)[t]? = some a' ∧
        DCRTPoly.WellFormed (2 ^ k) .EVALUATION params.moduliQ a')
    (he : forall draw t, t < arrWindows params.digitSize params.moduliQ
      params.moduliQ.length -> exists e', (e draw)[t]? = some e' ∧
        DCRTPoly.WellFormed (2 ^ k) .EVALUATION params.moduliQ e') :
    KeySwitching (2 ^ k) params.moduliQ where
  keySwitchGen draw sOld sNew := BV.keySwitchGenInternal params sOld sNew (a draw) (e draw)
  evalKeySwitchPrecomputeCore := BV.evalKeySwitchPrecomputeCore cache params .EVALUATION
  evalFastKeySwitchCore := BV.evalFastKeySwitchCore
  generates := by
    intro draw sOld sNew hsOld hsNew
    rcases BV.keySwitchGenInternal_keyEquation h hsNew hsOld (ha draw) (he draw) with
      ⟨evalKey, hgen, _⟩
    exact ⟨evalKey, hgen⟩
  switches := by
    intro draw sOld sNew evalKey l c hgen hsOld hsNew hl hc
    rcases BV.keySwitchGenInternal_keyEquation h hsNew hsOld (ha draw) (he draw) with
      ⟨evalKey', hgen', hequation⟩
    rw [hgen] at hgen'
    rw [← Option.some.inj hgen'] at hequation
    rcases BV.evalKeySwitch_switched h hl hc hequation (hdecomposable l hl) with
      ⟨_, digits, u0, u1, _, hdigits, hrun, hswitched⟩
    exact ⟨digits, u0, u1, hdigits, hrun, hswitched.u0_wellFormed, hswitched.u1_wellFormed⟩

def findAutomorphismIndex (index m : Nat) : Option Nat :=
  findAutomorphismIndex2n (int32 index) m

theorem smallSetting : BV.Setting Poly.smallCache BV.smallParameters 1 Poly.smallRoot :=
  ⟨rfl, by decide, by decide, fun q hq => Poly.smallReady (by
    have hsub : BV.smallParameters.moduliQ ⊆ [5, 13, 17, 29, 1152921504606846869] := by decide
    exact hsub hq)⟩

theorem smallDecomposable (l : Nat) (_ : l < BV.smallParameters.moduliQ.length) :
    DCRTPoly.Decomposable BV.smallParameters.digitSize
      (BV.smallParameters.moduliQ.take (l + 1)) := by
  have hreadable : forall q, q ∈ BV.smallParameters.moduliQ ->
      Readable BV.smallParameters.digitSize q := by
    intro q hq
    fin_cases hq <;> exact ⟨by decide, by decide⟩
  exact Or.inr fun q hq => hreadable q (List.mem_of_mem_take hq)

theorem smallMasks_wellFormed (_draw t : Nat) (ht : t < 7) :
    exists a, (List.replicate 7 (DCRTPoly.constant BV.smallParameters.moduliQ [4, 3]))[t]? =
        some a ∧ DCRTPoly.WellFormed (2 ^ 1) .EVALUATION BV.smallParameters.moduliQ a :=
  BV.sample_wellFormed 7 [4, 3] rfl (by decide) t ht

theorem smallErrors_wellFormed (_draw t : Nat) (ht : t < 7) :
    exists e, (List.replicate 7 (DCRTPoly.constant BV.smallParameters.moduliQ [1, 2]))[t]? =
        some e ∧ DCRTPoly.WellFormed (2 ^ 1) .EVALUATION BV.smallParameters.moduliQ e :=
  BV.sample_wellFormed 7 [1, 2] rfl (by decide) t ht

/-- Three towers of dimension two, with the same draws in every call. -/
def smallSwitching : KeySwitching (2 ^ 1) BV.smallParameters.moduliQ :=
  windowKeySwitching smallSetting smallDecomposable
    (fun _ => List.replicate 7 (DCRTPoly.constant BV.smallParameters.moduliQ [4, 3]))
    (fun _ => List.replicate 7 (DCRTPoly.constant BV.smallParameters.moduliQ [1, 2]))
    smallMasks_wellFormed smallErrors_wellFormed

theorem automorphismContract_iff_small :
    AutomorphismContract Poly.smallCache 1 smallSwitching findAutomorphismIndex
      Poly.smallRoot <-> 2 <= 2 ^ 1 ∧ 2 ^ 1 <= 2 ^ 24 :=
  automorphismContract_iff smallSwitching (fun q hq => (smallSetting.ready q hq).modulus)
    (by decide) findAutomorphismIndex (fun q hq => (smallSetting.ready q hq).root)

/-- One tower of dimension `2 ^ 25`, switched as a whole. -/
def largeParameters : BVParameters where
  ringDimension := 2 ^ 25
  moduliQ := [469762049]
  digitSize := 0
  noiseScale := 1

theorem zero_sample (_ t : Nat)
    (ht : t < arrWindows largeParameters.digitSize largeParameters.moduliQ
      largeParameters.moduliQ.length) :
    exists a, [DCRTPoly.zero largeParameters.moduliQ (2 ^ 25) .EVALUATION][t]? = some a ∧
      DCRTPoly.WellFormed (2 ^ 25) .EVALUATION largeParameters.moduliQ a := by
  have hone : arrWindows largeParameters.digitSize largeParameters.moduliQ
      largeParameters.moduliQ.length = 1 := by decide
  rw [hone, Nat.lt_one_iff] at ht
  rw [ht]
  exact ⟨_, rfl, DCRTPoly.zero_wellFormed (by decide) (2 ^ 25) .EVALUATION⟩

/--
For the dimension `2 ^ 25` no automorphism key is generated, whatever cache holds
the tables of the transforms.
-/
theorem not_automorphismContract_two_pow_25 :
    exists (cache : Poly.TableCache)
      (h : BV.Setting cache largeParameters 25 (fun _ => 2187)),
      ¬ AutomorphismContract cache 25
        (windowKeySwitching h (fun _ _ => Or.inl rfl)
          (fun _ => [DCRTPoly.zero largeParameters.moduliQ (2 ^ 25) .EVALUATION])
          (fun _ => [DCRTPoly.zero largeParameters.moduliQ (2 ^ 25) .EVALUATION])
          zero_sample zero_sample)
        findAutomorphismIndex (fun _ => 2187) := by
  have hmodulus : Poly.NttModulus 469762049 := ⟨by decide, by decide, by decide⟩
  rcases Transform.exists_tables (k := 25) hmodulus.odd
    hmodulus.one_lt hmodulus.lt (by decide : Nat.gcd 2187 469762049 = 1) with ⟨tables, htables⟩
  have hmem : forall q, q ∈ largeParameters.moduliQ -> q = 469762049 :=
    fun q hq => List.mem_singleton.mp hq
  refine ⟨fun _ => some tables, ⟨rfl, by decide, by decide, ?_⟩, ?_⟩
  · intro q hq
    rw [hmem q hq]
    exact ⟨hmodulus, ⟨tables, rfl, htables⟩, Transform.pow_two_pow_25⟩
  · refine not_automorphismContract _ ?_ (by decide) (Or.inr (by decide)) _ _
    intro q hq
    rw [hmem q hq]
    exact hmodulus

end Scheme
end OpenFHE
