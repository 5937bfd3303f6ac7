import OpenFHE.Foundation.CoefficientList
import OpenFHE.Hal.Residues
import OpenFHE.Scheme.Automorphism

/-!
# Products of ciphertexts

A ciphertext is a polynomial in the secret, given by its coefficients.  Its products have
more coefficients, which relinearization removes by key switches from the powers of the
secret.
-/

namespace OpenFHE
namespace Scheme

open OpenFHE.Core OpenFHE.Core.NativeInteger Foundation Hal KeySwitch Polynomial

/-- The scaling factor is a floating point number, of which only products are taken. -/
structure Ciphertext (F : Type) where
  elements : List DCRTPoly
  noiseScaleDeg : Nat
  scalingFactor : F
  scalingFactorInt : Nat
  level : Nat
  hopslevel : Nat
  slots : Nat

/-! ## Operations -/

section Operations

variable {F : Type} [Mul F]

/-- A different number of towers is an exception. -/
def verifyNumOfTowers (cv1 cv2 : List DCRTPoly) : Option Unit := do
  let x <- cv1[0]?
  let y <- cv2[0]?
  if x.length ≠ y.length then none else some ()

/-- The elements of a product of two ciphertexts with two elements. -/
def productTwo (cv1 cv2 : List DCRTPoly) : Option (List DCRTPoly) := do
  let a0 <- cv1[0]?
  let a1 <- cv1[1]?
  let b0 <- cv2[0]?
  let b1 <- cv2[1]?
  let c0 <- DCRTPoly.times a0 b0
  let x <- DCRTPoly.times a0 b1
  let y <- DCRTPoly.times a1 b0
  let c1 <- DCRTPoly.plusEq x y
  let c2 <- DCRTPoly.times a1 b1
  return [c0, c1, c2]

def squareTwo (cv : List DCRTPoly) : Option (List DCRTPoly) := do
  let a0 <- cv[0]?
  let a1 <- cv[1]?
  let c0 <- DCRTPoly.times a0 a0
  let x <- DCRTPoly.times a0 a1
  let c1 <- DCRTPoly.plusEq x x
  let c2 <- DCRTPoly.times a1 a1
  return [c0, c1, c2]

/-- `EvalMultCore` with the plaintext modulus `t`. -/
def evalMultCore (t : Nat) (ctxt1 ctxt2 : Ciphertext F) : Option (Ciphertext F) := do
  let cv1 := ctxt1.elements
  let cv2 := ctxt2.elements
  verifyNumOfTowers cv1 cv2
  let cvr <- (if cv1.length = 2 ∧ cv2.length = 2 then productTwo cv1 cv2
    else convolve DCRTPoly.times DCRTPoly.plusEq cv1 cv2)
  return { ctxt1 with
    elements := cvr
    noiseScaleDeg := ctxt1.noiseScaleDeg + ctxt2.noiseScaleDeg
    scalingFactor := ctxt1.scalingFactor * ctxt2.scalingFactor
    scalingFactorInt := modMul ctxt1.scalingFactorInt ctxt2.scalingFactorInt t }

def evalSquareCore (t : Nat) (ctxt : Ciphertext F) : Option (Ciphertext F) := do
  let cv := ctxt.elements
  let cvr <- (if cv.length = 2 then squareTwo cv
    else square DCRTPoly.times DCRTPoly.plusEq cv)
  return { ctxt with
    elements := cvr
    noiseScaleDeg := 2 * ctxt.noiseScaleDeg
    scalingFactor := ctxt.scalingFactor * ctxt.scalingFactor
    scalingFactorInt := modMul ctxt.scalingFactorInt ctxt.scalingFactorInt t }

variable {n : Nat} {moduliQ : List Nat} (cache : Poly.TableCache)
  (ks : KeySwitching n moduliQ)

/-- The keys for the powers of the secret from the second one on. -/
def evalMultKeysGen (s : DCRTPoly) (maxRelinSkDeg : Nat) : Option (List EvalKey) :=
  ((List.range (maxRelinSkDeg - 1)).foldlM (fun (st : DCRTPoly × List EvalKey) i => do
    let power <- DCRTPoly.times s st.1
    let evalKey <- ks.keySwitchGen i power s
    return (power, st.2 ++ [evalKey])) (s, [])).map Prod.snd

/-- `resize(2)`: missing elements are polynomials without towers. -/
def resizeTwo (cv : List DCRTPoly) : List DCRTPoly := (cv ++ [[], []]).take 2

/-- The switched element is added to the first two ones. -/
def addSwitched (cv : List DCRTPoly) (ab : DCRTPoly × DCRTPoly) : Option (List DCRTPoly) := do
  let cv0 <- cv[0]?
  let cv0 <- DCRTPoly.plusEq cv0 ab.1
  let cv1 <- cv[1]?
  let cv1 <- DCRTPoly.plusEq cv1 ab.2
  return (cv.set 0 cv0).set 1 cv1

def relinearizeInPlace (cv : List DCRTPoly) (evalKeyVec : List EvalKey) :
    Option (List DCRTPoly) := do
  let cv <- cv.mapM fun c => DCRTPoly.setFormat cache c .EVALUATION
  let cv <- (List.range (cv.length - 2)).foldlM (fun cv i => do
    let c <- cv[i + 2]?
    let evalKey <- evalKeyVec[i]?
    let ab <- keySwitchCore ks c evalKey
    addSwitched cv ab) cv
  return resizeTwo cv

/-- `DecryptCore`: the sum of the elements times the powers of the secret. -/
def decryptCore (s : DCRTPoly) (cv : List DCRTPoly) : Option DCRTPoly := do
  let cv0 <- cv[0]?
  if s.length < cv0.length then none
  else
    let scopy <- DCRTPoly.dropLastElements s (s.length - cv0.length)
    let b <- DCRTPoly.setFormat cache cv0 .EVALUATION
    ((List.range (cv.length - 1)).foldlM (fun (st : DCRTPoly × DCRTPoly) i => do
      let ci <- cv[i + 1]?
      let ci <- DCRTPoly.setFormat cache ci .EVALUATION
      let term <- DCRTPoly.times st.2 ci
      let b <- DCRTPoly.plusEq st.1 term
      let sPower <- DCRTPoly.timesEq st.2 scopy
      return (b, sPower)) (b, scopy)).map Prod.fst

end Operations

/-!
## Elements as coefficients
-/

section Elements

variable {n : Nat} {moduli : List Nat}

/-- The elements are residues of the moduli in the evaluation format. -/
def WellFormedElements (n : Nat) (moduli : List Nat) (cv : List DCRTPoly) : Prop :=
  forall c, c ∈ cv -> DCRTPoly.WellFormed n .EVALUATION moduli c

/-- The elements stand for the coefficients of the polynomial. -/
abbrev Elements (n : Nat) (moduli : List Nat) (A : TowerResidues[X]) (cv : List DCRTPoly) :
    Prop :=
  Coefficients (fun v c => DCRTPoly.Denotes n .EVALUATION moduli v c) A cv

/-- The value at the secret, at position `r` of tower `i`. -/
def secretValue (q : Nat) (cv : List DCRTPoly) (s : DCRTPoly) (i r : Nat) : ZMod q :=
  ∑ k ∈ Finset.range cv.length,
    (DCRTPoly.value (cv.getD k []) i r : ZMod q) * (DCRTPoly.value s i r : ZMod q) ^ k

theorem WellFormedElements.exists_elements {cv : List DCRTPoly}
    (h : WellFormedElements n moduli cv) : exists A, Elements n moduli A cv := by
  let v : Nat -> TowerResidues := fun k => DCRTPoly.residues (cv.getD k [])
  refine ⟨∑ k ∈ Finset.range cv.length, monomial k (v k), ?_, ?_⟩
  · intro k c hc
    have hk := (List.getElem?_eq_some_iff.mp hc).1
    have hcoeff : (∑ k ∈ Finset.range cv.length, monomial k (v k)).coeff k = v k := by
      rw [finsetSum_coeff]
      simp only [coeff_monomial]
      rw [Finset.sum_ite_eq', if_pos (Finset.mem_range.mpr hk)]
    rw [hcoeff]
    have hv : v k = DCRTPoly.residues c := by
      change DCRTPoly.residues (cv.getD k []) = _
      rw [List.getD_eq_getElem?_getD, hc]
      rfl
    rw [hv]
    exact (h c (List.mem_of_getElem? hc)).denotes
  · intro k hk
    rw [finsetSum_coeff]
    simp only [coeff_monomial]
    rw [Finset.sum_ite_eq', if_neg (by rw [Finset.mem_range]; omega)]

theorem Elements.wellFormed {A : TowerResidues[X]} {cv : List DCRTPoly}
    (h : Elements n moduli A cv) : WellFormedElements n moduli cv := by
  intro c hc
  rcases List.mem_iff_getElem?.mp hc with ⟨k, hk⟩
  exact (h.get k c hk).wellFormed

theorem Elements.secretValue_eq {A : TowerResidues[X]} {cv : List DCRTPoly}
    (h : Elements n moduli A cv) (s : DCRTPoly) {i q : Nat} (hq : moduli[i]? = some q)
    {r : Nat} (hr : r < n) :
    secretValue q cv s i r = A.eval (DCRTPoly.residues s) i q r := by
  have heval := h.eval_eq (DCRTPoly.residues s)
  rw [heval, secretValue, Finset.sum_apply, Finset.sum_apply, Finset.sum_apply]
  apply Finset.sum_congr rfl
  intro k hk
  rcases h.entry (Finset.mem_range.mp hk) with ⟨c, hc, hden⟩
  rw [List.getD_eq_getElem?_getD, hc, Option.getD_some, hden.value_eq i q hq r hr]
  rfl

end Elements

/-!
## Products
-/

theorem productTwo_eq {cv1 cv2 : List DCRTPoly} (h1 : cv1.length = 2) (h2 : cv2.length = 2) :
    productTwo cv1 cv2 = convolve DCRTPoly.times DCRTPoly.plusEq cv1 cv2 := by
  rcases List.length_eq_two.mp h1 with ⟨a0, a1, rfl⟩
  rcases List.length_eq_two.mp h2 with ⟨b0, b1, rfl⟩
  rw [convolve_two]
  rfl

theorem squareTwo_eq {cv : List DCRTPoly} (h : cv.length = 2) :
    squareTwo cv = square DCRTPoly.times DCRTPoly.plusEq cv := by
  rcases List.length_eq_two.mp h with ⟨a0, a1, rfl⟩
  rw [square_two]
  rfl

section Products

variable {F : Type} [Mul F] {n : Nat} {moduli : List Nat}
  (hmoduli : forall q, q ∈ moduli -> Poly.NttModulus q) (hne : 0 < moduli.length)
  {A B : TowerResidues[X]} {ctxt1 ctxt2 : Ciphertext F}

theorem verifyNumOfTowers_eq {cv1 cv2 : List DCRTPoly} (h1 : WellFormedElements n moduli cv1)
    (h2 : WellFormedElements n moduli cv2) (hpos1 : 0 < cv1.length) (hpos2 : 0 < cv2.length) :
    verifyNumOfTowers cv1 cv2 = some () := by
  have hx := (h1 _ (List.getElem_mem hpos1)).length_eq
  have hy := (h2 _ (List.getElem_mem hpos2)).length_eq
  unfold verifyNumOfTowers
  rw [List.getElem?_eq_getElem hpos1, List.getElem?_eq_getElem hpos2]
  simp only [Option.bind_eq_bind, Option.bind_some]
  rw [hx, hy, if_neg (not_not.mpr rfl)]

include hmoduli hne

theorem timesElements {v w : TowerResidues} {x y : DCRTPoly}
    (hx : DCRTPoly.Denotes n .EVALUATION moduli v x)
    (hy : DCRTPoly.Denotes n .EVALUATION moduli w y) :
    exists z, DCRTPoly.times x y = some z ∧ DCRTPoly.Denotes n .EVALUATION moduli (v * w) z :=
  DCRTPoly.times_denotes hmoduli hx hy hne

theorem evalMultCore_spec (t : Nat) (h1 : Elements n moduli A ctxt1.elements)
    (h2 : Elements n moduli B ctxt2.elements) (hpos1 : 0 < ctxt1.elements.length)
    (hpos2 : 0 < ctxt2.elements.length) :
    exists cvr, evalMultCore t ctxt1 ctxt2 = some { ctxt1 with
        elements := cvr
        noiseScaleDeg := ctxt1.noiseScaleDeg + ctxt2.noiseScaleDeg
        scalingFactor := ctxt1.scalingFactor * ctxt2.scalingFactor
        scalingFactorInt := modMul ctxt1.scalingFactorInt ctxt2.scalingFactorInt t } ∧
      cvr.length = ctxt1.elements.length + ctxt2.elements.length - 1 ∧
      Elements n moduli (A * B) cvr := by
  rcases convolve_spec (fun v w x y => timesElements hmoduli hne)
    (fun v w x y => DCRTPoly.plusEq_denotes hmoduli) h1 h2 hpos1 hpos2 with
    ⟨cvr, hcvr, hlength, hproduct⟩
  refine ⟨cvr, ?_, hlength, hproduct⟩
  have helements : (if ctxt1.elements.length = 2 ∧ ctxt2.elements.length = 2
      then productTwo ctxt1.elements ctxt2.elements
      else convolve DCRTPoly.times DCRTPoly.plusEq ctxt1.elements ctxt2.elements) =
      some cvr := by
    split
    next htwo => rw [productTwo_eq htwo.1 htwo.2, hcvr]
    next _ => exact hcvr
  unfold evalMultCore
  dsimp only
  rw [verifyNumOfTowers_eq h1.wellFormed h2.wellFormed hpos1 hpos2]
  simp only [Option.bind_eq_bind, Option.bind_some]
  rw [helements]
  rfl

theorem evalSquareCore_eq (t : Nat) (h1 : Elements n moduli A ctxt1.elements)
    (hpos1 : 0 < ctxt1.elements.length) :
    evalSquareCore t ctxt1 = evalMultCore t ctxt1 ctxt1 := by
  rcases square_spec (fun v w x y => timesElements hmoduli hne)
    (fun v w x y => DCRTPoly.plusEq_denotes hmoduli) h1 hpos1 with
    ⟨cvr, hcvr, hlength, hsquare⟩
  rcases evalMultCore_spec hmoduli hne t h1 h1 hpos1 hpos1 with ⟨cvr', hrun, hlength', hproduct⟩
  have hequal : cvr = cvr' := by
    apply List.ext_getElem (hlength.trans hlength'.symm)
    intro k hk hk'
    exact (hsquare.get k _ (List.getElem?_eq_getElem hk)).unique
      (hproduct.get k _ (List.getElem?_eq_getElem hk'))
  have helements : (if ctxt1.elements.length = 2 then squareTwo ctxt1.elements
      else square DCRTPoly.times DCRTPoly.plusEq ctxt1.elements) = some cvr := by
    split
    next htwo => rw [squareTwo_eq htwo, hcvr]
    next _ => exact hcvr
  rw [hrun, evalSquareCore, helements, ← hequal, two_mul]
  rfl

end Products

end Scheme
end OpenFHE
