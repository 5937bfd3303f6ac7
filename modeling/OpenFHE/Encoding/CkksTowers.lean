import OpenFHE.Hal.ScalarOperations
import Mathlib.Data.Int.Bitwise

/-!
# The towers of an approximate encoding

`CKKSPackedEncoding::Encode` from the rounded values on.  A negative value is shifted up by
a constant that every modulus takes off again; the powers of the scaling factor and of two are
multiplied up tower by tower.
-/

namespace OpenFHE
namespace Encoding
namespace CKKSPackedEncoding

open OpenFHE.Core Foundation NativeInteger Hal

/-! ## The code -/

def max64BitValue : Int := 2 ^ 63 - 2 ^ 9 - 1

def tempEntry (re : Int) : Int := if re < 0 then max64BitValue + re else re

def temp (re im : List Int) : List Int := re.map tempEntry ++ im.map tempEntry

/-- The entry that `FitToNativeVector` writes. -/
def fitEntry (bigBound : Int) (modulus : Nat) (v : Int) : Nat :=
  let bigValueHf := ofSigned (bigBound >>> 1)
  let diff := subFast (ofSigned bigBound) modulus
  let n := ofSigned v
  if n > bigValueHf then modSub n diff modulus else n % modulus

def fitStep (vec : List Int) (bigBound : Int) (modulus gap : Nat) (nativeVec : List Nat)
    (i : Nat) : Option (List Nat) :=
  vec[i]?.bind fun v =>
    if gap * i < nativeVec.length then
      some (nativeVec.set (gap * i) (fitEntry bigBound modulus v))
    else none

/-- `FitToNativeVector` on a new vector; there is no gap without entries. -/
def fitToNativeVector (ringDim : Nat) (vec : List Int) (bigBound : Int) (modulus : Nat) :
    Option (List Nat) :=
  if vec.length = 0 then none
  else
    let gap := ringDim / vec.length
    (List.range vec.length).foldlM (fitStep vec bigBound modulus gap)
      (List.replicate ringDim 0)

/-- `ModMulFast` of `BigInteger`, which does not reduce a factor beside one. -/
def modMulFastLarge (a b modulus : Nat) : Nat :=
  if a = 0 ∨ b = 0 then 0
  else if b = 1 then a
  else if a = 1 then b
  else if a * b >= modulus then a * b % modulus else a * b

def crtMult (a b m : List Nat) : Option (List Nat) :=
  (List.range a.length).mapM fun i => do
    let x <- a[i]?
    let y <- b[i]?
    let modulus <- m[i]?
    return modMulFastLarge x y modulus

/-- The powers of the scaling factor that the loop from two on leaves. -/
def currPowP (moduli : List Nat) (intPowP noiseScaleDeg : Nat) : Option (List Nat) :=
  let crtPowP := List.replicate moduli.length intPowP
  (List.range (noiseScaleDeg - 2)).foldlM (fun currPowP _ => crtMult currPowP crtPowP moduli)
    crtPowP

def maxLogStep : Nat := 60

def logStep (logApprox : Nat) : Nat :=
  if logApprox <= maxLogStep then logApprox else maxLogStep

/-- One step of the approximation factor: what is left of the exponent, and the factors. -/
def approxStep (moduli : List Nat) (s : Nat × List Nat) : Option (Nat × List Nat) :=
  let crtSF := List.replicate moduli.length (1 <<< logStep s.1)
  (crtMult s.2 crtSF moduli).map fun crtApprox => (s.1 - logStep s.1, crtApprox)

/-- The factors that scale back up by the approximation factor. -/
def crtApprox (moduli : List Nat) (logApprox : Nat) : Option (List Nat) :=
  (whileFuel (fun s => decide (s.1 > 0)) (approxStep moduli) (logApprox + 1)
    (logApprox - logStep logApprox,
      List.replicate moduli.length (1 <<< logStep logApprox))).map Prod.snd

def timesPowP (moduli : List Nat) (intPowP noiseScaleDeg : Nat) (a : DCRTPoly) :
    Option DCRTPoly := do
  let powers <- currPowP moduli intPowP noiseScaleDeg
  if noiseScaleDeg > 1 then a.timesVector powers else some a

def timesApprox (moduli : List Nat) (logApprox : Nat) (a : DCRTPoly) : Option DCRTPoly :=
  if logApprox > 0 then (crtApprox moduli logApprox).bind a.timesVector else some a

def fitTowers (ringDim : Nat) (moduli : List Nat) (re im : List Int) : Option DCRTPoly :=
  moduli.mapM fun modulus =>
    (fitToNativeVector ringDim (temp re im) max64BitValue modulus).map fun values =>
      { modulus := modulus, format := .COEFFICIENT, values := values }

/-- `Encode` from the rounded real and imaginary parts of the slots on. -/
def encode (cache : Poly.TableCache) (ringDim : Nat) (moduli : List Nat) (re im : List Int)
    (intPowP noiseScaleDeg logApprox : Nat) : Option DCRTPoly := do
  let fitted <- fitTowers ringDim moduli re im
  let scaled <- timesPowP moduli intPowP noiseScaleDeg fitted
  let encodedVectorDCRT <- timesApprox moduli logApprox scaled
  DCRTPoly.setFormat cache encodedVectorDCRT .EVALUATION

/-! ## One entry -/

theorem fitEntry_spec {q : Nat} (hq : Poly.NttModulus q) {re : Int}
    (hlow : -2 ^ 61 <= re) (hhigh : re <= 2 ^ 61) :
    Represents q re (fitEntry max64BitValue q (tempEntry re)) := by
  have hone := hq.one_lt
  have hlt := hq.lt
  have hhalf : ofSigned (max64BitValue >>> 1) = 2 ^ 62 - 257 := by decide
  have hbound : ofSigned max64BitValue = 2 ^ 63 - 513 := by decide
  have hmax : max64BitValue = 2 ^ 63 - 513 := by decide
  have hword : 2 ^ maxBits = 2 ^ 64 := rfl
  have hword' : (2 : Int) ^ maxBits = 2 ^ 64 := rfl
  unfold fitEntry tempEntry
  rw [hhalf, hbound]
  dsimp only
  rw [subFast_eq (by omega) (by omega)]
  split
  next hneg =>
      rw [ofSigned_eq (by omega) (by omega), if_pos (by omega)]
      generalize hn : (max64BitValue + re).toNat = n
      have hre : (n : Int) - (2 ^ 63 - 513 : Nat) = re := by omega
      have hdiff := Nat.mod_lt (2 ^ 63 - 513 - q) (show 0 < q by omega)
      unfold modSub
      rw [reduce_eq_mod, reduce_eq_mod, modSubFast_eq (by omega) (Nat.mod_lt _ (by omega)) hdiff]
      refine ⟨Nat.mod_lt _ (by omega), ?_⟩
      rw [ZMod.natCast_mod, Nat.cast_add, ZMod.natCast_mod, Nat.cast_sub hdiff.le,
        ZMod.natCast_mod, Nat.cast_sub (by omega), ZMod.natCast_self, ← hre, Int.cast_sub,
        Int.cast_natCast, Int.cast_natCast]
      ring
  next hpos =>
      rw [ofSigned_eq (by omega) (by omega), if_neg (by omega)]
      refine ⟨Nat.mod_lt _ (by omega), ?_⟩
      rw [ZMod.natCast_mod]
      have hre : ((re.toNat : Nat) : Int) = re := Int.toNat_of_nonneg (by omega)
      rw [← Int.cast_natCast, hre]

/-! ## The vector of a tower -/

def spread (gap : Nat) (vec : List Int) (r : Nat) : Int :=
  if r % gap = 0 then vec.getD (r / gap) 0 else 0

theorem spread_mul {gap : Nat} (hgap : 0 < gap) (vec : List Int) (i : Nat) :
    spread gap vec (gap * i) = vec.getD i 0 := by
  unfold spread
  rw [if_pos (Nat.mul_mod_right gap i), Nat.mul_div_cancel_left i hgap]

theorem spread_of_ne {gap : Nat} {vec : List Int} {r : Nat}
    (h : forall i, i < vec.length -> r ≠ gap * i) : spread gap vec r = 0 := by
  unfold spread
  split
  next hmod =>
      have hr : r = gap * (r / gap) := (Nat.mul_div_cancel' (Nat.dvd_of_mod_eq_zero hmod)).symm
      have hout : vec.length <= r / gap := by
        by_contra hin
        exact h (r / gap) (by omega) hr
      rw [List.getD_eq_getElem?_getD, List.getElem?_eq_none hout]
      rfl
  next _ => rfl

theorem spread_take_succ {gap r c : Nat} (vec : List Int) (hne : r ≠ gap * c) :
    spread gap (vec.take (c + 1)) r = spread gap (vec.take c) r := by
  unfold spread
  split
  next hmod =>
      have hr : r = gap * (r / gap) := (Nat.mul_div_cancel' (Nat.dvd_of_mod_eq_zero hmod)).symm
      have hother : r / gap ≠ c := by
        intro heq
        exact hne (heq ▸ hr)
      rw [List.getD_eq_getElem?_getD, List.getD_eq_getElem?_getD, List.getElem?_take,
        List.getElem?_take]
      rcases Nat.lt_or_ge (r / gap) c with hlt | hge
      · rw [if_pos (by omega), if_pos hlt]
      · rw [if_neg (by omega), if_neg (by omega)]
  next _ => rfl

theorem fitToNativeVector_spec {ringDim q : Nat} (hq : Poly.NttModulus q) {values : List Int}
    (hpos : 0 < values.length) (hfit : values.length <= ringDim)
    (hvalues : forall v, v ∈ values -> -2 ^ 61 <= v ∧ v <= 2 ^ 61) :
    exists nativeVec,
      fitToNativeVector ringDim (values.map tempEntry) max64BitValue q = some nativeVec ∧
      Holds q ringDim (fun r => (spread (ringDim / values.length) values r : ZMod q))
        nativeVec := by
  have hgap : 0 < ringDim / values.length := Nat.div_pos hfit hpos
  have hone := hq.one_lt
  generalize hgapEq : ringDim / values.length = gap at hgap
  have hroom : gap * values.length <= ringDim := by
    rw [← hgapEq]
    exact Nat.div_mul_le_self ringDim values.length
  have hentry : forall i, i < values.length -> gap * i < ringDim := by
    intro i hi
    exact lt_of_lt_of_le (Nat.mul_lt_mul_of_pos_left hi hgap) hroom
  unfold fitToNativeVector
  rw [List.length_map, if_neg (by omega)]
  dsimp only
  rw [hgapEq]
  rcases foldlM_range_spec (n := values.length)
    (f := fitStep (values.map tempEntry) max64BitValue q gap)
    (fun c => Holds q ringDim (fun r => (spread gap (values.take c) r : ZMod q)))
    (s := List.replicate ringDim 0)
    (by
      refine ⟨List.length_replicate, ?_⟩
      intro r e he
      rw [List.getElem?_replicate] at he
      split at he
      · cases he
        refine ⟨by omega, ?_⟩
        rw [List.take_zero, spread_of_ne (by simp), Nat.cast_zero, Int.cast_zero]
      · cases he)
    (by
      intro c hc nativeVec hholds
      have hin : gap * c < nativeVec.length := by
        rw [hholds.length_eq]
        exact hentry c hc
      have hvalue := hvalues values[c] (List.getElem_mem hc)
      refine ⟨nativeVec.set (gap * c) (fitEntry max64BitValue q (tempEntry values[c])), ?_, ?_, ?_⟩
      · unfold fitStep
        rw [List.getElem?_map, List.getElem?_eq_getElem hc, Option.map_some, Option.bind_some,
          if_pos hin]
      · rw [List.length_set, hholds.length_eq]
      · intro r e he
        by_cases heq : r = gap * c
        · rw [heq, List.getElem?_set_self hin] at he
          cases he
          rw [heq, spread_mul hgap, List.getD_eq_getElem?_getD,
            List.getElem?_take_of_lt (Nat.lt_succ_self c), List.getElem?_eq_getElem hc]
          exact fitEntry_spec hq hvalue.1 hvalue.2
        · rw [List.getElem?_set_ne (fun h => heq h.symm)] at he
          rw [spread_take_succ values heq]
          exact hholds.get r e he) with ⟨nativeVec, hrun, hholds⟩
  rw [List.take_length] at hholds
  exact ⟨nativeVec, hrun, hholds⟩

/-! ## Factors by tower -/

/-- One word for each tower, the residue of `x`. -/
structure Factors (moduli : List Nat) (x : Nat) (factors : List Nat) : Prop where
  length_eq : factors.length = moduli.length
  get : forall (i q : Nat), moduli[i]? = some q -> exists e : Nat, factors[i]? = some e ∧
    e < 2 ^ maxBits ∧ (e : ZMod q) = x

theorem factors_replicate (moduli : List Nat) {x : Nat} (hx : x < 2 ^ maxBits) :
    Factors moduli x (List.replicate moduli.length x) := by
  refine ⟨List.length_replicate, ?_⟩
  intro i q hq
  exact ⟨x, List.getElem?_replicate_of_lt (List.getElem?_eq_some_iff.mp hq).1, hx, rfl⟩

theorem modMulFastLarge_spec {a b q : Nat} (hq : 0 < q) (hlt : q < 2 ^ maxBits)
    (ha : a < 2 ^ maxBits) (hb : b < 2 ^ maxBits) :
    modMulFastLarge a b q < 2 ^ maxBits ∧ (modMulFastLarge a b q : ZMod q) = a * b := by
  unfold modMulFastLarge
  split
  next hzero =>
      refine ⟨by omega, ?_⟩
      rcases hzero with rfl | rfl
      · rw [Nat.cast_zero, zero_mul]
      · rw [Nat.cast_zero, mul_zero]
  next hne =>
      split
      next hone => exact ⟨ha, by rw [hone, Nat.cast_one, mul_one]⟩
      next _ =>
          split
          next hone => exact ⟨hb, by rw [hone, Nat.cast_one, one_mul]⟩
          next _ =>
              rw [reduce_eq_mod]
              refine ⟨(Nat.mod_lt _ hq).trans hlt, ?_⟩
              rw [ZMod.natCast_mod, Nat.cast_mul]

section Products

variable {moduli : List Nat} (hmoduli : forall q, q ∈ moduli -> Poly.NttModulus q)

include hmoduli

theorem crtMult_factors {x y : Nat} {a b : List Nat} (ha : Factors moduli x a)
    (hb : Factors moduli y b) :
    exists c, crtMult a b moduli = some c ∧ Factors moduli (x * y) c := by
  unfold crtMult
  rcases mapM_range_spec (n := a.length) (f := fun i => a[i]?.bind fun x => b[i]?.bind fun y =>
      moduli[i]?.bind fun modulus => some (modMulFastLarge x y modulus))
    (fun i e => forall q, moduli[i]? = some q -> e < 2 ^ maxBits ∧ (e : ZMod q) = (x * y : Nat))
    (by
      intro i hi
      obtain ⟨q, hq⟩ : exists q, moduli[i]? = some q :=
        ⟨_, List.getElem?_eq_getElem (ha.length_eq ▸ hi)⟩
      rcases ha.get i q hq with ⟨e, he, helt, hecast⟩
      rcases hb.get i q hq with ⟨f, hf, hflt, hfcast⟩
      have hntt := hmoduli q (List.mem_of_getElem? hq)
      have hone := hntt.one_lt
      have hlt := hntt.lt
      rcases modMulFastLarge_spec (show 0 < q by omega) (by simp only [maxBits]; omega) helt hflt
        with ⟨hword, hcast⟩
      refine ⟨modMulFastLarge e f q, ?_, ?_⟩
      · rw [he, hf, hq]
        rfl
      · intro q' hq'
        cases hq.symm.trans hq'
        exact ⟨hword, by rw [hcast, hecast, hfcast, Nat.cast_mul]⟩) with ⟨c, hc, hlength, hget⟩
  refine ⟨c, hc, hlength.trans ha.length_eq, ?_⟩
  intro i q hq
  have hi : i < c.length := by
    rw [hlength, ha.length_eq]
    exact (List.getElem?_eq_some_iff.mp hq).1
  have hentry := List.getElem?_eq_getElem hi
  exact ⟨_, hentry, hget i _ hentry q hq⟩

theorem currPowP_spec {intPowP : Nat} (hlt : intPowP < 2 ^ 63) (noiseScaleDeg : Nat) :
    exists powers, currPowP moduli intPowP noiseScaleDeg = some powers ∧
      Factors moduli (intPowP ^ (noiseScaleDeg - 2 + 1)) powers := by
  have hbase := factors_replicate moduli (show intPowP < 2 ^ maxBits by
    simp only [maxBits]
    omega)
  rcases foldlM_range_spec (n := noiseScaleDeg - 2)
    (f := fun currPowP _ => crtMult currPowP (List.replicate moduli.length intPowP) moduli)
    (fun c powers => Factors moduli (intPowP ^ (c + 1)) powers)
    (s := List.replicate moduli.length intPowP)
    (by rwa [zero_add, pow_one])
    (by
      intro c _ powers hpowers
      rcases crtMult_factors hmoduli hpowers hbase with ⟨next, hnext, hfactors⟩
      exact ⟨next, hnext, by rwa [pow_succ]⟩) with ⟨powers, hrun, hfactors⟩
  exact ⟨powers, hrun, hfactors⟩

omit hmoduli in
theorem logStep_spec (logApprox : Nat) :
    logStep logApprox <= logApprox ∧ 1 <<< logStep logApprox < 2 ^ maxBits ∧
      (0 < logApprox -> 0 < logStep logApprox) := by
  have hbits : logStep logApprox < maxBits := by
    unfold logStep maxLogStep maxBits
    split <;> omega
  refine ⟨?_, ?_, ?_⟩
  · unfold logStep
    split <;> omega
  · rw [Nat.one_shiftLeft]
    exact Nat.pow_lt_pow_right (by decide) hbits
  · unfold logStep maxLogStep
    split <;> omega

theorem crtApprox_spec (logApprox : Nat) :
    exists factors, crtApprox moduli logApprox = some factors ∧
      Factors moduli (2 ^ logApprox) factors := by
  have hstep := logStep_spec logApprox
  have hfirst := factors_replicate moduli hstep.2.1
  rw [Nat.one_shiftLeft] at hfirst
  rcases whileFuel_spec (c := fun s : Nat × List Nat => decide (s.1 > 0))
    (f := approxStep moduli)
    (fun s => s.1 <= logApprox ∧ Factors moduli (2 ^ (logApprox - s.1)) s.2) Prod.fst
    (by
      rintro ⟨left, factors⟩ ⟨hle, hfactors⟩ hpositive
      dsimp only at hle hfactors hpositive
      have hnext := logStep_spec left
      have hpos := hnext.2.2 (of_decide_eq_true hpositive)
      have hpower := factors_replicate moduli hnext.2.1
      rw [Nat.one_shiftLeft] at hpower
      rcases crtMult_factors hmoduli hfactors hpower with ⟨product, hproduct, hspec⟩
      refine ⟨(left - logStep left, product), ?_, ⟨by omega, ?_⟩, by dsimp only; omega⟩
      · unfold approxStep
        dsimp only
        rw [Nat.one_shiftLeft, hproduct]
        rfl
      · rw [← pow_add] at hspec
        dsimp only
        rwa [show logApprox - (left - logStep left) = logApprox - left + logStep left by omega])
    (logApprox + 1)
    (logApprox - logStep logApprox, List.replicate moduli.length (2 ^ logStep logApprox))
    ⟨Nat.sub_le _ _, by dsimp only; rwa [Nat.sub_sub_self hstep.1]⟩ (by dsimp only; omega) with
    ⟨⟨left, factors⟩, hrun, ⟨_, hfactors⟩, hend⟩
  have hzero : left = 0 := by
    have := of_decide_eq_false hend
    dsimp only at this
    omega
  rw [hzero, Nat.sub_zero] at hfactors
  refine ⟨factors, ?_, hfactors⟩
  unfold crtApprox
  rw [Nat.one_shiftLeft, hrun]
  rfl

end Products

/-! ## All towers -/

section Towers

variable {k : Nat} {psi : Nat -> Nat} {moduli : List Nat}
  (hmoduli : forall q, q ∈ moduli -> Poly.NttModulus q)

include hmoduli

theorem timesVector_encodes {x : Nat -> Int} {a : DCRTPoly}
    (ha : DCRTPoly.Encodes k psi .COEFFICIENT moduli x a) {c : Nat} {factors : List Nat}
    (hfactors : Factors moduli c factors) :
    exists b, a.timesVector factors = some b ∧
      DCRTPoly.Encodes k psi .COEFFICIENT moduli (fun r => x r * c) b := by
  apply DCRTPoly.mapTowers_denotes _ ha
  intro i q t hq ht
  rcases hfactors.get i q hq with ⟨e, he, hlt, hcast⟩
  rcases DCRTPoly.timesInteger_tower (hmoduli q (List.mem_of_getElem? hq)) ht hcast with
    ⟨u, hu, hdenotes⟩
  refine ⟨u, ?_, hdenotes⟩
  rw [he, Option.bind_some, word_eq hlt, hu]

theorem timesPowP_encodes {x : Nat -> Int} {a : DCRTPoly}
    (ha : DCRTPoly.Encodes k psi .COEFFICIENT moduli x a) {intPowP : Nat}
    (hlt : intPowP < 2 ^ 63) (noiseScaleDeg : Nat) :
    exists b, timesPowP moduli intPowP noiseScaleDeg a = some b ∧
      DCRTPoly.Encodes k psi .COEFFICIENT moduli
        (fun r => x r * (intPowP ^ (noiseScaleDeg - 1) : Nat)) b := by
  rcases currPowP_spec hmoduli hlt noiseScaleDeg with ⟨powers, hpowers, hfactors⟩
  unfold timesPowP
  rw [hpowers]
  simp only [Option.bind_eq_bind, Option.bind_some]
  split
  next hdeg =>
      rw [show noiseScaleDeg - 2 + 1 = noiseScaleDeg - 1 by omega] at hfactors
      exact timesVector_encodes hmoduli ha hfactors
  next hdeg =>
      rw [show noiseScaleDeg - 1 = 0 by omega]
      simp only [pow_zero, Nat.cast_one, mul_one]
      exact ⟨a, rfl, ha⟩

theorem timesApprox_encodes {x : Nat -> Int} {a : DCRTPoly}
    (ha : DCRTPoly.Encodes k psi .COEFFICIENT moduli x a) (logApprox : Nat) :
    exists b, timesApprox moduli logApprox a = some b ∧
      DCRTPoly.Encodes k psi .COEFFICIENT moduli (fun r => x r * (2 ^ logApprox : Nat)) b := by
  unfold timesApprox
  split
  next hpos =>
      rcases crtApprox_spec hmoduli logApprox with ⟨factors, hfactors, hspec⟩
      rw [hfactors, Option.bind_some]
      exact timesVector_encodes hmoduli ha hspec
  next hzero =>
      rw [show logApprox = 0 by omega]
      simp only [pow_zero, Nat.cast_one, mul_one]
      exact ⟨a, rfl, ha⟩

theorem fitTowers_encodes {re im : List Int} (hpos : 0 < (re ++ im).length)
    (hfit : (re ++ im).length <= 2 ^ k)
    (hvalues : forall v, v ∈ re ++ im -> -2 ^ 61 <= v ∧ v <= 2 ^ 61) :
    exists a, fitTowers (2 ^ k) moduli re im = some a ∧
      DCRTPoly.Encodes k psi .COEFFICIENT moduli
        (spread (2 ^ k / (re ++ im).length) (re ++ im)) a := by
  have htemp : temp re im = (re ++ im).map tempEntry := List.map_append.symm
  unfold fitTowers
  rcases mapM_spec (l := moduli)
    (f := fun modulus =>
      (fitToNativeVector (2 ^ k) (temp re im) max64BitValue modulus).map fun values =>
        ({ modulus := modulus, format := .COEFFICIENT, values := values } : Poly))
    (fun q t => Poly.Denotes q (2 ^ k) .COEFFICIENT
      (fun r => (spread (2 ^ k / (re ++ im).length) (re ++ im) r : ZMod q)) t)
    (by
      intro q hq
      rcases fitToNativeVector_spec (hmoduli q hq) hpos hfit hvalues with
        ⟨nativeVec, hrun, hholds⟩
      refine ⟨{ modulus := q, format := .COEFFICIENT, values := nativeVec }, ?_,
        rfl, rfl, hholds⟩
      rw [htemp, hrun]
      rfl) with ⟨a, ha, hlength, hget⟩
  exact ⟨a, ha, DCRTPoly.denotes_of_towers hlength hget⟩

end Towers

/--
Encoding succeeds.  In the coefficient format, every tower holds the residues of the rounded
real and imaginary parts times the powers of the scaling factor and of two, a gap apart, and
zeros elsewhere.
-/
theorem encode_spec {cache : Poly.TableCache} {k : Nat} (hk : 0 < k) (hk31 : k <= 31)
    {psi : Nat -> Nat} {moduli : List Nat} (hready : DCRTPoly.ReadyChain cache k psi moduli)
    {slots : Nat} (hslots : 0 < slots) (hfit : 2 * slots <= 2 ^ k) {re im : List Int}
    (hre : re.length = slots) (him : im.length = slots)
    (hvalues : forall v, v ∈ re ++ im -> |v| <= 2 ^ 61)
    {sf : Nat} (hsf : sf < 2 ^ 63) (d logApprox : Nat) :
    exists encoded coefficients,
      encode cache (2 ^ k) moduli re im sf d logApprox = some encoded ∧
      DCRTPoly.WellFormed (2 ^ k) .EVALUATION moduli encoded ∧
      DCRTPoly.setFormat cache encoded .COEFFICIENT = some coefficients ∧
      forall (j q : Nat), moduli[j]? = some q ->
        (forall (i : Nat) v, re[i]? = some v ->
          (DCRTPoly.value coefficients j (2 ^ k / (2 * slots) * i) : Int) =
            v * sf ^ (d - 1) * 2 ^ logApprox % q) ∧
        (forall (i : Nat) v, im[i]? = some v ->
          (DCRTPoly.value coefficients j (2 ^ k / (2 * slots) * (i + slots)) : Int) =
            v * sf ^ (d - 1) * 2 ^ logApprox % q) ∧
        forall r, r < 2 ^ k ->
          (forall i, i < 2 * slots -> r ≠ 2 ^ k / (2 * slots) * i) ->
          DCRTPoly.value coefficients j r = 0 := by
  have hmoduli : forall q, q ∈ moduli -> Poly.NttModulus q := fun q hq => (hready q hq).modulus
  have hlength : (re ++ im).length = 2 * slots := by
    rw [List.length_append, hre, him]
    omega
  have hgap : 0 < 2 ^ k / (2 * slots) := Nat.div_pos hfit (by omega)
  have hbounds : forall v, v ∈ re ++ im -> -2 ^ 61 <= v ∧ v <= 2 ^ 61 :=
    fun v hv => abs_le.mp (hvalues v hv)
  rcases fitTowers_encodes hmoduli (show 0 < (re ++ im).length by omega)
    (show (re ++ im).length <= 2 ^ k by omega) hbounds with
    ⟨fitted, hfitted, hspread⟩
  rcases timesPowP_encodes hmoduli hspread hsf d with ⟨scaled, hscaled, hpowers⟩
  rcases timesApprox_encodes hmoduli hpowers logApprox with ⟨product, hproduct, happrox⟩
  rcases happrox.setFormat hk hk31 hready .EVALUATION with ⟨encoded, hencoded, hevaluation⟩
  rcases hevaluation.hasCoefficients hk hk31 hready with
    ⟨coefficients, hcoefficients, _, hvalue⟩
  refine ⟨encoded, coefficients, ?_, hevaluation.wellFormed, hcoefficients, ?_⟩
  · unfold encode
    rw [hfitted]
    simp only [Option.bind_eq_bind, Option.bind_some]
    rw [hscaled, Option.bind_some, hproduct, Option.bind_some, hencoded]
  · intro j q hq
    rw [hlength] at hvalue
    have hentry : forall (i : Nat) v, (re ++ im)[i]? = some v ->
        (DCRTPoly.value coefficients j (2 ^ k / (2 * slots) * i) : Int) =
          v * sf ^ (d - 1) * 2 ^ logApprox % q := by
      intro i v hv
      have hi : i < 2 * slots := by
        rw [← hlength]
        exact (List.getElem?_eq_some_iff.mp hv).1
      have hinside : 2 ^ k / (2 * slots) * i < 2 ^ k :=
        lt_of_lt_of_le (Nat.mul_lt_mul_of_pos_left hi hgap) (Nat.div_mul_le_self _ _)
      rw [hvalue _ hinside j q hq]
      dsimp only
      rw [spread_mul hgap, List.getD_eq_getElem?_getD, hv,
        Option.getD_some, Nat.cast_pow, Nat.cast_pow, Nat.cast_ofNat]
    refine ⟨?_, ?_, ?_⟩
    · intro i v hv
      apply hentry i v
      rwa [List.getElem?_append_left (List.getElem?_eq_some_iff.mp hv).1]
    · intro i v hv
      apply hentry (i + slots) v
      rwa [List.getElem?_append_right (by omega), hre, Nat.add_sub_cancel]
    · intro r hr hother
      have hzero := hvalue r hr j q hq
      dsimp only at hzero
      rw [spread_of_ne (hlength ▸ hother), zero_mul, zero_mul, Int.zero_emod] at hzero
      exact Int.natCast_eq_zero.mp hzero

/-- One slot with a negative real part, in three towers and past one step of sixty bits. -/
theorem encode_small : exists encoded coefficients,
    encode Poly.smallCache (2 ^ 1) [13, 17, 29] [-3] [5] 100 3 61 = some encoded ∧
    DCRTPoly.WellFormed (2 ^ 1) .EVALUATION [13, 17, 29] encoded ∧
    DCRTPoly.setFormat Poly.smallCache encoded .COEFFICIENT = some coefficients ∧
    forall (j q : Nat), [13, 17, 29][j]? = some q ->
      (forall (i : Nat) v, [(-3 : Int)][i]? = some v ->
        (DCRTPoly.value coefficients j (2 ^ 1 / (2 * 1) * i) : Int) =
          v * (100 : Nat) ^ (3 - 1) * 2 ^ 61 % q) ∧
      (forall (i : Nat) v, [(5 : Int)][i]? = some v ->
        (DCRTPoly.value coefficients j (2 ^ 1 / (2 * 1) * (i + 1)) : Int) =
          v * (100 : Nat) ^ (3 - 1) * 2 ^ 61 % q) ∧
      forall r, r < 2 ^ 1 -> (forall i, i < 2 * 1 -> r ≠ 2 ^ 1 / (2 * 1) * i) ->
        DCRTPoly.value coefficients j r = 0 :=
  encode_spec (by decide) (by decide)
    (show DCRTPoly.ReadyChain Poly.smallCache 1 Poly.smallRoot [13, 17, 29] from
      DCRTPoly.smallReadyChain (by decide))
    (show 0 < 1 by decide) (by decide) (show [(-3 : Int)].length = 1 from rfl)
    (show [(5 : Int)].length = 1 from rfl)
    (show forall v, v ∈ [(-3 : Int)] ++ [(5 : Int)] -> |v| <= 2 ^ 61 by decide)
    (show 100 < 2 ^ 63 by decide) 3 61

end CKKSPackedEncoding
end Encoding
end OpenFHE
