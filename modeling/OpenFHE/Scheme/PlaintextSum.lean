import OpenFHE.Scheme.Bgvrns.LevelAdjustment
import OpenFHE.Scheme.Ckksrns.PlaintextProduct

/-!
# Sums with plaintexts

The variants of `EvalAdd` and `EvalSub` that take a plaintext, of the RNS schemes.  Without
rescaling the subtraction in place adds.
-/

namespace OpenFHE
namespace Scheme

open OpenFHE.Core Foundation Hal Polynomial
open Ckksrns (Plaintext Leveled morphPlaintext adjustLevelsInPlace timesFactors)

/--
What `LeveledSHERNS` takes from its parameters and from the class of the scheme.  `intSF` is
`scFactor + 0.5`, converted to an integer.
-/
structure LeveledSHERNS (F : Type) where
  moduliQ : List Nat
  technique : ScalingTechnique
  scFactor : F
  intSF : Nat
  adjustLevelsAndDepthInPlace : Ciphertext F -> Ciphertext F ->
    Option (Ciphertext F × Ciphertext F)

/-! ## Operations -/

section Operations

variable {F : Type}

/-- `CKKSPackedEncoding::CRTMult`. -/
def crtMult (a b moduli : List Nat) : List Nat :=
  List.zipWith3 (fun x y q => x * y % q) a b moduli

/-- The ciphertext with one element takes the degree of the other one. -/
def scaleToDegree (she : LeveledSHERNS F) (ptxt ctxt : Ciphertext F) :
    Option (Ciphertext F) := do
  let x <- ptxt.elements[0]?
  let y <- ctxt.elements[0]?
  let moduli := y.map Poly.modulus
  if ptxt.noiseScaleDeg < ctxt.noiseScaleDeg then
    let diffDepth := ctxt.noiseScaleDeg - ptxt.noiseScaleDeg
    let crtSF := List.replicate y.length she.intSF
    let crtPowSF := (List.range (diffDepth - 1)).foldl (fun c _ => crtMult c crtSF moduli) crtSF
    let x <- timesFactors x crtPowSF
    return { ptxt with
      elements := [x]
      noiseScaleDeg := ctxt.noiseScaleDeg }
  else if ptxt.noiseScaleDeg > ctxt.noiseScaleDeg then none
  else return ptxt

/-- The operation with the plaintext on the first element. -/
def coreInPlace (op : DCRTPoly -> DCRTPoly -> Option DCRTPoly) (ciphertext : Ciphertext F)
    (pt : DCRTPoly) : Option (Ciphertext F) := do
  verifyNumOfTowers ciphertext.elements [pt]
  let cv0 <- ciphertext.elements[0]?
  let cv0 <- op cv0 pt
  return { ciphertext with elements := ciphertext.elements.set 0 cv0 }

def evalAddCoreInPlace (ciphertext : Ciphertext F) (pt : DCRTPoly) : Option (Ciphertext F) :=
  coreInPlace DCRTPoly.plusEq ciphertext pt

def evalSubCoreInPlace (ciphertext : Ciphertext F) (pt : DCRTPoly) : Option (Ciphertext F) :=
  coreInPlace DCRTPoly.minusEq ciphertext pt

variable [Zero F] [DecidableEq F]

/-- A plaintext of a lower degree than the ciphertext is scaled up. -/
def scaleOperands (she : LeveledSHERNS F) (ciphertext1 ciphertext2 : Ciphertext F) :
    Option (Ciphertext F × Ciphertext F) :=
  if she.scFactor = 0 then some (ciphertext1, ciphertext2)
  else if ciphertext1.elements.length = 1 then
    (scaleToDegree she ciphertext1 ciphertext2).map fun c => (c, ciphertext2)
  else if ciphertext2.elements.length = 1 then
    (scaleToDegree she ciphertext2 ciphertext1).map fun c => (ciphertext1, c)
  else some (ciphertext1, ciphertext2)

def adjustForAddOrSubInPlace (she : LeveledSHERNS F) (ciphertext1 ciphertext2 : Ciphertext F) :
    Option (Ciphertext F × Ciphertext F) :=
  if she.technique = .FIXEDMANUAL then do
    let (c1, c2) <- adjustLevelsInPlace ciphertext1 ciphertext2
    scaleOperands she c1 c2
  else if she.technique ≠ .NORESCALE then
    she.adjustLevelsAndDepthInPlace ciphertext1 ciphertext2
  else some (ciphertext1, ciphertext2)

variable (cache : Poly.TableCache) (she : LeveledSHERNS F)

def evalAddInPlace (ciphertext : Ciphertext F) (plaintext : Plaintext F) :
    Option (Ciphertext F) :=
  if she.technique = .NORESCALE then evalAddCoreInPlace ciphertext plaintext.element
  else do
    let ctmorphed <- morphPlaintext cache plaintext ciphertext
    let (ciphertext, ctmorphed) <- adjustForAddOrSubInPlace she ciphertext ctmorphed
    let pt <- ctmorphed.elements[0]?
    evalAddCoreInPlace ciphertext pt

/-- `EvalAdd` works on a clone. -/
def evalAdd (ciphertext : Ciphertext F) (plaintext : Plaintext F) : Option (Ciphertext F) :=
  evalAddInPlace cache she ciphertext plaintext

/-- The branch without rescaling is that of the addition. -/
def evalSubInPlace (ciphertext : Ciphertext F) (plaintext : Plaintext F) :
    Option (Ciphertext F) :=
  if she.technique = .NORESCALE then evalAddCoreInPlace ciphertext plaintext.element
  else do
    let ctmorphed <- morphPlaintext cache plaintext ciphertext
    let (ciphertext, ctmorphed) <- adjustForAddOrSubInPlace she ciphertext ctmorphed
    let pt <- ctmorphed.elements[0]?
    evalSubCoreInPlace ciphertext pt

def evalSub (ciphertext : Ciphertext F) (plaintext : Plaintext F) : Option (Ciphertext F) :=
  evalSubInPlace cache she ciphertext plaintext

/-- The adjusted ciphertext, and the result of the core operation. -/
def evalMutable (core : Ciphertext F -> DCRTPoly -> Option (Ciphertext F))
    (ciphertext : Ciphertext F) (plaintext : Plaintext F) :
    Option (Ciphertext F × Ciphertext F) := do
  let ctmorphed <- morphPlaintext cache plaintext ciphertext
  let (ciphertext, ctmorphed) <- adjustForAddOrSubInPlace she ciphertext ctmorphed
  let pt <- ctmorphed.elements[0]?
  let result <- core ciphertext pt
  return (ciphertext, result)

def evalAddMutable (ciphertext : Ciphertext F) (plaintext : Plaintext F) :
    Option (Ciphertext F × Ciphertext F) :=
  evalMutable cache she evalAddCoreInPlace ciphertext plaintext

def evalAddMutableInPlace (ciphertext : Ciphertext F) (plaintext : Plaintext F) :
    Option (Ciphertext F) :=
  (evalMutable cache she evalAddCoreInPlace ciphertext plaintext).map Prod.snd

def evalSubMutable (ciphertext : Ciphertext F) (plaintext : Plaintext F) :
    Option (Ciphertext F × Ciphertext F) :=
  evalMutable cache she evalSubCoreInPlace ciphertext plaintext

def evalSubMutableInPlace (ciphertext : Ciphertext F) (plaintext : Plaintext F) :
    Option (Ciphertext F) :=
  (evalMutable cache she evalSubCoreInPlace ciphertext plaintext).map Prod.snd

end Operations

/-! ## Sums of the same operands -/

section Agreement

variable {F : Type} [Zero F] [DecidableEq F] (cache : Poly.TableCache) (she : LeveledSHERNS F)

/-- The adjusted ciphertext, and the plaintext that is added or subtracted. -/
def sumOperands (ciphertext : Ciphertext F) (plaintext : Plaintext F) :
    Option (Ciphertext F × Ciphertext F) := do
  let ctmorphed <- morphPlaintext cache plaintext ciphertext
  adjustForAddOrSubInPlace she ciphertext ctmorphed

/-- For every secret the decryption of `r` is that of `c` plus `v`. -/
def DecryptsTo (n : Nat) (c r : Ciphertext F) (v : TowerResidues) : Prop :=
  forall s, DCRTPoly.WellFormed n .EVALUATION she.moduliQ s ->
    exists b b', decryptCore cache s c.elements = some b ∧
      decryptCore cache s r.elements = some b' ∧
      DCRTPoly.Denotes n .EVALUATION (she.moduliQ.take (she.moduliQ.length - c.level))
        (DCRTPoly.residues b + v) b'

def additions (ciphertext : Ciphertext F) (plaintext : Plaintext F) :
    List (Option (Ciphertext F)) :=
  [evalAdd cache she ciphertext plaintext, evalAddInPlace cache she ciphertext plaintext,
    (evalAddMutable cache she ciphertext plaintext).map Prod.snd,
    evalAddMutableInPlace cache she ciphertext plaintext]

def subtractions (ciphertext : Ciphertext F) (plaintext : Plaintext F) :
    List (Option (Ciphertext F)) :=
  [evalSub cache she ciphertext plaintext, evalSubInPlace cache she ciphertext plaintext,
    (evalSubMutable cache she ciphertext plaintext).map Prod.snd,
    evalSubMutableInPlace cache she ciphertext plaintext]

/--
All variants are refused, or they return the sums and the differences of the same operands, and
the subtraction of what has been added leaves the elements of the adjusted ciphertext.
-/
inductive SumsAgree (n : Nat) (ciphertext : Ciphertext F) (plaintext : Plaintext F) : Prop where
  | refused (hadd : forall o, o ∈ additions cache she ciphertext plaintext -> o = none)
      (hsub : forall o, o ∈ subtractions cache she ciphertext plaintext -> o = none)
  | agree (c p : Ciphertext F) (x : DCRTPoly)
      (hoperands : sumOperands cache she ciphertext plaintext = some (c, p))
      (hx : p.elements[0]? = some x)
      (hadd : forall o, o ∈ additions cache she ciphertext plaintext ->
        exists r, o = some r ∧ DecryptsTo cache she n c r (DCRTPoly.residues x))
      (hsub : forall o, o ∈ subtractions cache she ciphertext plaintext ->
        exists r, o = some r ∧ DecryptsTo cache she n c r (-DCRTPoly.residues x))
      (hrestore : exists r d, evalAdd cache she ciphertext plaintext = some r ∧
        evalSub cache she r plaintext = some d ∧ d.elements = c.elements)

end Agreement

/-! ## The core operations -/

section Core

variable {F : Type} {cache : Poly.TableCache} {she : LeveledSHERNS F} {n : Nat}
  {c : Ciphertext F} {x : DCRTPoly}

theorem set_of_getElem?_eq_some {α : Type} {l : List α} {i : Nat} {x : α} (h : l[i]? = some x) :
    l.set i x = l := by
  rcases List.getElem?_eq_some_iff.mp h with ⟨_, rfl⟩
  exact List.set_getElem_self _

theorem elements_set {moduli : List Nat} {A : TowerResidues[X]} {cv : List DCRTPoly}
    (h : Elements n moduli A cv) (hpos : 0 < cv.length) {v : TowerResidues} {y : DCRTPoly}
    (hy : DCRTPoly.Denotes n .EVALUATION moduli (A.coeff 0 + v) y) :
    Elements n moduli (A + C v) (cv.set 0 y) := by
  constructor
  · intro k z hz
    cases k with
    | zero =>
        rw [List.getElem?_set_self hpos] at hz
        cases hz
        rw [coeff_add, coeff_C_zero]
        exact hy
    | succ k =>
        rw [List.getElem?_set_ne (Nat.succ_ne_zero k).symm] at hz
        rw [coeff_add, coeff_C_succ, add_zero]
        exact h.get _ z hz
  · intro k hk
    rw [List.length_set] at hk
    have hne : k ≠ 0 := by omega
    rw [coeff_add, coeff_C_of_ne_zero hne, h.coeff_eq_zero k hk, add_zero]

variable (hmoduli : forall q, q ∈ she.moduliQ -> Poly.NttModulus q)
  (hc : Leveled she.moduliQ n c)

include hc

theorem coreInPlace_none (op : DCRTPoly -> DCRTPoly -> Option DCRTPoly)
    (hx : x.length ≠ she.moduliQ.length - c.level) : coreInPlace op c x = none := by
  rcases hc.first with ⟨y, hy, _, hlength⟩
  have hverify : verifyNumOfTowers c.elements [x] = none := by
    rw [verifyNumOfTowers, hy]
    exact if_pos (fun heq => hx (heq.symm.trans hlength))
  rw [coreInPlace, hverify]
  rfl

include hmoduli

theorem coreInPlace_spec {op : DCRTPoly -> DCRTPoly -> Option DCRTPoly} {v : TowerResidues}
    (hx : x.length = she.moduliQ.length - c.level)
    (hop : forall w y, DCRTPoly.Denotes n .EVALUATION
        (she.moduliQ.take (she.moduliQ.length - c.level)) w y ->
      exists z, op y x = some z ∧ DCRTPoly.Denotes n .EVALUATION
        (she.moduliQ.take (she.moduliQ.length - c.level)) (w + v) z) :
    exists cv, coreInPlace op c x = some { c with elements := cv } ∧
      Leveled she.moduliQ n { c with elements := cv } ∧ cv.length = c.elements.length ∧
      DecryptsTo cache she n c { c with elements := cv } v := by
  have hlevel := hc.level_lt
  rcases hc.first with ⟨y, hy, _, hlength⟩
  have hpos : 0 < c.elements.length := List.length_pos_iff.mpr hc.ne_nil
  have hverify : verifyNumOfTowers c.elements [x] = some () := by
    rw [verifyNumOfTowers, hy]
    exact if_neg (fun hne => hne (hlength.trans hx.symm))
  rcases hc.elements.exists_elements with ⟨A, hA⟩
  rcases hop _ _ (hA.get 0 y hy) with ⟨z, hz, hzden⟩
  have hset := elements_set hA hpos hzden
  refine ⟨c.elements.set 0 z, ?_, ⟨hc.level_lt, ?_, hset.wellFormed⟩, List.length_set, ?_⟩
  · unfold coreInPlace
    rw [hverify]
    simp only [Option.bind_eq_bind, Option.bind_some, hy, hz]
    rfl
  · rw [<- List.length_pos_iff, List.length_set]
    exact hpos
  · intro s hs
    have htowers : she.moduliQ.length - c.level = she.moduliQ.length - c.level - 1 + 1 := by
      omega
    have hform : forall cv, WellFormedElements n
        (she.moduliQ.take (she.moduliQ.length - c.level)) cv ->
        EvaluationForm cache (she.moduliQ.length - c.level - 1 + 1) cv cv := by
      intro cv hcv
      have hself : EvaluationForm cache _ cv cv := evaluationForm_self hcv
      rwa [List.length_take, Nat.min_eq_left (Nat.sub_le _ _), htowers] at hself
    have hl : she.moduliQ.length - c.level - 1 < she.moduliQ.length := by omega
    have hA' := hA
    have hset' := hset
    rw [htowers] at hA' hset'
    rcases decryptCore_spec hmoduli hl hs (hform _ hc.elements) hA' hpos with ⟨b, hb, hbden⟩
    rcases decryptCore_spec hmoduli hl hs (hform _ hset.wellFormed) hset'
      (by rw [List.length_set]; exact hpos) with ⟨b', hb', hbden'⟩
    refine ⟨b, b', hb, hb', ?_⟩
    rw [htowers]
    apply hbden'.congr
    intro i q hq r hr
    rw [eval_add, eval_C]
    show A.eval (DCRTPoly.residues s) i q r + v i q r = DCRTPoly.value b i r + v i q r
    rw [hbden.value_eq i q hq r hr]

omit hmoduli in
theorem coreInPlace_self {op : DCRTPoly -> DCRTPoly -> Option DCRTPoly}
    (hx : x.length = she.moduliQ.length - c.level)
    (hop : forall w y, DCRTPoly.Denotes n .EVALUATION
        (she.moduliQ.take (she.moduliQ.length - c.level)) w y ->
      exists z, op y x = some z ∧ DCRTPoly.Denotes n .EVALUATION
        (she.moduliQ.take (she.moduliQ.length - c.level)) w z) :
    coreInPlace op c x = some c := by
  rcases hc.first with ⟨y, hy, hymem, hlength⟩
  have hverify : verifyNumOfTowers c.elements [x] = some () := by
    rw [verifyNumOfTowers, hy]
    exact if_neg (fun hne => hne (hlength.trans hx.symm))
  have hyden := (hc.elements y hymem).denotes
  rcases hop _ _ hyden with ⟨z, hz, hzden⟩
  cases hzden.unique hyden
  unfold coreInPlace
  rw [hverify]
  simp only [Option.bind_eq_bind, Option.bind_some, hy, hz]
  rw [set_of_getElem?_eq_some hy]
  rfl

variable (hx : DCRTPoly.WellFormed n .EVALUATION
  (she.moduliQ.take (she.moduliQ.length - c.level)) x)

include hx

theorem evalAddCoreInPlace_spec :
    exists cv, evalAddCoreInPlace c x = some { c with elements := cv } ∧
      Leveled she.moduliQ n { c with elements := cv } ∧ cv.length = c.elements.length ∧
      DecryptsTo cache she n c { c with elements := cv } (DCRTPoly.residues x) := by
  apply coreInPlace_spec hmoduli hc
  · rw [hx.length_eq, List.length_take]
    omega
  · intro w y hy
    exact DCRTPoly.plusEq_denotes (fun q hq => hmoduli q (List.mem_of_mem_take hq)) hy hx.denotes

theorem evalSubCoreInPlace_spec :
    exists cv, evalSubCoreInPlace c x = some { c with elements := cv } ∧
      Leveled she.moduliQ n { c with elements := cv } ∧ cv.length = c.elements.length ∧
      DecryptsTo cache she n c { c with elements := cv } (-DCRTPoly.residues x) := by
  apply coreInPlace_spec hmoduli hc
  · rw [hx.length_eq, List.length_take]
    omega
  · intro w y hy
    rw [<- sub_eq_add_neg]
    exact DCRTPoly.minusEq_denotes (fun q hq => hmoduli q (List.mem_of_mem_take hq)) hy
      hx.denotes

theorem evalSubCoreInPlace_evalAddCoreInPlace {r : Ciphertext F}
    (hadd : evalAddCoreInPlace c x = some r) :
    exists d, evalSubCoreInPlace r x = some d ∧ d.elements = c.elements := by
  have hmoduli' : forall q, q ∈ she.moduliQ.take (she.moduliQ.length - c.level) ->
      Poly.NttModulus q := fun q hq => hmoduli q (List.mem_of_mem_take hq)
  rcases hc.first with ⟨y, hy, hymem, hylength⟩
  have hpos : 0 < c.elements.length := List.length_pos_iff.mpr hc.ne_nil
  have hyden := (hc.elements y hymem).denotes
  have hxlength : x.length = y.length :=
    hx.length_eq.trans (hc.elements y hymem).length_eq.symm
  rcases DCRTPoly.plusEq_denotes hmoduli' hyden hx.denotes with ⟨z, hz, hzden⟩
  rcases DCRTPoly.minusEq_denotes hmoduli' hzden hx.denotes with ⟨w, hw, hwden⟩
  rw [add_sub_cancel_right] at hwden
  cases hwden.unique hyden
  have hverify : forall (cv : List DCRTPoly) (v : DCRTPoly), cv[0]? = some v ->
      v.length = x.length -> verifyNumOfTowers cv [x] = some () := by
    intro cv v hv hlength
    rw [verifyNumOfTowers, hv]
    exact if_neg (not_not.mpr hlength)
  have hset : (c.elements.set 0 z)[0]? = some z := List.getElem?_set_self hpos
  unfold evalAddCoreInPlace coreInPlace at hadd
  rw [hverify _ _ hy hxlength.symm] at hadd
  simp only [Option.bind_eq_bind, Option.bind_some, hy, hz] at hadd
  cases hadd
  refine ⟨{ c with elements := c.elements }, ?_, rfl⟩
  unfold evalSubCoreInPlace coreInPlace
  rw [hverify _ _ hset (hzden.wellFormed.length_eq.trans hx.length_eq.symm)]
  simp only [Option.bind_eq_bind, Option.bind_some, hset, hw, List.set_set]
  rw [set_of_getElem?_eq_some hy]
  rfl

omit hx in
theorem evalAddCoreInPlace_zero (hx : DCRTPoly.Denotes n .EVALUATION
      (she.moduliQ.take (she.moduliQ.length - c.level)) 0 x) :
    evalAddCoreInPlace c x = some c := by
  apply coreInPlace_self hc
  · rw [hx.wellFormed.length_eq, List.length_take]
    omega
  · intro w y hy
    have hsum := DCRTPoly.plusEq_denotes (fun q hq => hmoduli q (List.mem_of_mem_take hq)) hy hx
    rwa [add_zero] at hsum

omit hx in
theorem evalSubCoreInPlace_zero (hx : DCRTPoly.Denotes n .EVALUATION
      (she.moduliQ.take (she.moduliQ.length - c.level)) 0 x) :
    evalSubCoreInPlace c x = some c := by
  apply coreInPlace_self hc
  · rw [hx.wellFormed.length_eq, List.length_take]
    omega
  · intro w y hy
    have hdiff := DCRTPoly.minusEq_denotes (fun q hq => hmoduli q (List.mem_of_mem_take hq)) hy hx
    rwa [sub_zero] at hdiff

omit hc hx in
theorem DecryptsTo.unique {r : Ciphertext F} {v w : TowerResidues}
    (hv : DecryptsTo cache she n c r v) (hw : DecryptsTo cache she n c r w) (i q : Nat)
    (hq : (she.moduliQ.take (she.moduliQ.length - c.level))[i]? = some q) (j : Nat)
    (hj : j < n) : v i q j = w i q j := by
  have hzero := DCRTPoly.zero_wellFormed
    (fun q hq => Nat.lt_trans Nat.zero_lt_one (hmoduli q hq).one_lt) n .EVALUATION
  rcases hv _ hzero with ⟨b, b', hb, hb', hbv⟩
  rcases hw _ hzero with ⟨b1, b1', hb1, hb1', hbw⟩
  cases hb.symm.trans hb1
  cases hb'.symm.trans hb1'
  have heq := (hbv.value_eq i q hq j hj).symm.trans (hbw.value_eq i q hq j hj)
  exact add_left_cancel heq

end Core

/-! ## Adjusted operands -/

section Adjustment

variable {F : Type} {moduliQ : List Nat} {n : Nat} {c1 c2 : Ciphertext F}

theorem adjustLevelsInPlace_spec (h1 : Leveled moduliQ n c1) (h2 : Leveled moduliQ n c2) :
    exists cv1 cv2,
      adjustLevelsInPlace c1 c2 = some
        ({ c1 with elements := cv1, level := max c1.level c2.level },
          { c2 with elements := cv2, level := max c1.level c2.level }) ∧
      Leveled moduliQ n { c1 with elements := cv1, level := max c1.level c2.level } ∧
      Leveled moduliQ n { c2 with elements := cv2, level := max c1.level c2.level } ∧
      forall r : Ciphertext F, Leveled moduliQ n r -> r.level = max c1.level c2.level ->
        adjustLevelsInPlace r c2 =
          some (r, { c2 with elements := cv2, level := max c1.level c2.level }) := by
  have hl1 := h1.level_lt
  have hl2 := h2.level_lt
  rcases h1.first with ⟨x, hx, _, hxlength⟩
  rcases h2.first with ⟨y, hy, _, hylength⟩
  have hmax1 : c1.level + (x.length - y.length) = max c1.level c2.level := by omega
  have hmax2 : c2.level + (y.length - x.length) = max c1.level c2.level := by omega
  rcases Ckksrns.levelReduceBelow_leveled h2 x.length y.length (by omega) with ⟨cv2, hcv2, hr2⟩
  rcases Ckksrns.levelReduceBelow_leveled h1 y.length x.length (by omega) with ⟨cv1, hcv1, hr1⟩
  rw [hmax1] at hcv1 hr1
  rw [hmax2] at hcv2 hr2
  refine ⟨cv1, cv2, ?_, hr1, hr2, ?_⟩
  · unfold Ckksrns.adjustLevelsInPlace
    simp only [hx, hy, Option.bind_eq_bind, Option.bind_some, hcv1, hcv2]
    rfl
  · intro r hr hlevel
    rcases hr.first with ⟨z, hz, _, hzlength⟩
    have hsame : Ckksrns.levelReduceBelow c2 z.length y.length =
        Ckksrns.levelReduceBelow c2 x.length y.length := by
      unfold Ckksrns.levelReduceBelow
      rcases Nat.lt_or_ge x.length y.length with hlt | hge
      · rw [if_pos hlt, if_pos (by omega), show z.length = x.length by omega]
      · rw [if_neg (by omega), if_neg (by omega)]
    unfold Ckksrns.adjustLevelsInPlace
    simp only [hz, hy, Option.bind_eq_bind, Option.bind_some, hsame, hcv2]
    rw [Ckksrns.levelReduceBelow_of_le (show z.length <= y.length by omega)]
    rfl

theorem length_crtMult : forall a b moduli : List Nat, a.length = b.length ->
    moduli.length = b.length -> (crtMult a b moduli).length = b.length
  | [], [], _, _, _ => rfl
  | _ :: a, _ :: b, _ :: moduli, hab, hmb =>
      congrArg Nat.succ (length_crtMult a b moduli (Nat.succ.inj hab) (Nat.succ.inj hmb))

theorem length_crtPow (crtSF moduli : List Nat) (h : moduli.length = crtSF.length) (m : Nat) :
    ((List.range m).foldl (fun c _ => crtMult c crtSF moduli) crtSF).length = crtSF.length := by
  induction m with
  | zero => rfl
  | succ m ih =>
      rw [List.range_succ, List.foldl_append]
      exact length_crtMult _ crtSF moduli ih h

theorem scaleToDegree_spec {she : LeveledSHERNS F}
    (hmoduli : forall q, q ∈ moduliQ -> Poly.NttModulus q) (h1 : Leveled moduliQ n c1)
    (h2 : Leveled moduliQ n c2) (hlevel : c1.level = c2.level) {r : Ciphertext F}
    (hrun : scaleToDegree she c1 c2 = some r) :
    Leveled moduliQ n r ∧ r.level = c1.level ∧ r.noiseScaleDeg = c2.noiseScaleDeg ∧
      r.hopslevel = c1.hopslevel ∧ (c1.elements.length = 1 -> r.elements.length = 1) := by
  rcases h1.first with ⟨x, hx, hxmem, hxlength⟩
  rcases h2.first with ⟨y, hy, hymem, hylength⟩
  unfold scaleToDegree at hrun
  simp only [hx, hy, Option.bind_eq_bind, Option.bind_some] at hrun
  split at hrun
  · rcases Option.bind_eq_some_iff.mp hrun with ⟨z, hz, hr⟩
    cases hr
    have hfactors := length_crtPow (List.replicate y.length she.intSF) (y.map Poly.modulus)
      (by rw [List.length_map, List.length_replicate])
      (c2.noiseScaleDeg - c1.noiseScaleDeg - 1)
    rw [List.length_replicate] at hfactors
    rcases Ckksrns.timesFactors_wellFormed
      (fun q hq => hmoduli q (List.mem_of_mem_take hq)) (h1.elements x hxmem)
      (hfactors.trans (show y.length = x.length by omega)) with ⟨z', hz', hwf⟩
    cases hz.symm.trans hz'
    refine ⟨⟨h1.level_lt, List.cons_ne_nil _ _, ?_⟩, rfl, rfl, rfl, fun _ => rfl⟩
    intro w hw
    cases List.mem_singleton.mp hw
    exact hwf
  · split at hrun
    · cases hrun
    · cases hrun
      exact ⟨h1, rfl, by omega, rfl, id⟩

theorem scaleToDegree_self {she : LeveledSHERNS F} (h1 : Leveled moduliQ n c1)
    (h2 : Leveled moduliQ n c2) (hdegree : c1.noiseScaleDeg = c2.noiseScaleDeg) :
    scaleToDegree she c1 c2 = some c1 := by
  rcases h1.first with ⟨x, hx, _, _⟩
  rcases h2.first with ⟨y, hy, _, _⟩
  unfold scaleToDegree
  simp only [hx, hy, Option.bind_eq_bind, Option.bind_some]
  rw [if_neg (by omega), if_neg (by omega)]
  rfl

theorem scaleToDegree_congr {she : LeveledSHERNS F} {r : Ciphertext F}
    (h2 : Leveled moduliQ n c2) (hr : Leveled moduliQ n r) (hlevel : r.level = c2.level)
    (hdegree : r.noiseScaleDeg = c2.noiseScaleDeg) :
    scaleToDegree she c1 r = scaleToDegree she c1 c2 := by
  rcases h2.first with ⟨y, hy, hymem, hylength⟩
  rcases hr.first with ⟨z, hz, hzmem, hzlength⟩
  have hmoduli : z.map Poly.modulus = y.map Poly.modulus := by
    rw [(h2.elements y hymem).moduli_eq, (hr.elements z hzmem).moduli_eq, hlevel]
  have hlength : z.length = y.length := by omega
  unfold scaleToDegree
  simp only [hy, hz, hdegree, Option.bind_eq_bind, Option.bind_some, hmoduli, hlength]

end Adjustment

/-! ## Schemes -/

section Schemes

variable {F : Type}

/--
The adjustment keeps the towers of the levels.  Next to a first operand that has been adjusted
before, the second one becomes what it became then.
-/
structure LeveledSHERNS.Sound (she : LeveledSHERNS F) (n : Nat) : Prop where
  leveled : forall c1 c2 d1 d2, Leveled she.moduliQ n c1 -> Leveled she.moduliQ n c2 ->
    she.adjustLevelsAndDepthInPlace c1 c2 = some (d1, d2) ->
    Leveled she.moduliQ n d1 ∧ Leveled she.moduliQ n d2
  stable : forall c1 c2 d1 d2 cv, Leveled she.moduliQ n c1 -> Leveled she.moduliQ n c2 ->
    (c1.noiseScaleDeg = 1 ∨ c1.noiseScaleDeg = 2) ->
    (c2.noiseScaleDeg = 1 ∨ c2.noiseScaleDeg = 2) -> c2.hopslevel = c1.hopslevel ->
    she.adjustLevelsAndDepthInPlace c1 c2 = some (d1, d2) -> d1.level = d2.level ->
    exists e, she.adjustLevelsAndDepthInPlace { d1 with elements := cv }
        { c2 with hopslevel := d1.hopslevel } = some ({ d1 with elements := cv }, e) ∧
      e.elements = d2.elements

/-- The degrees that ciphertexts and plaintexts have under the automatic techniques. -/
def LeveledSHERNS.Admissible (she : LeveledSHERNS F) (noiseScaleDeg : Nat) : Prop :=
  she.technique ≠ .FIXEDMANUAL -> she.technique ≠ .NORESCALE ->
    noiseScaleDeg = 1 ∨ noiseScaleDeg = 2

variable [Zero F] [DecidableEq F] {she : LeveledSHERNS F} {n : Nat} {c1 c2 d1 d2 : Ciphertext F}

theorem scaleOperands_spec (hmoduli : forall q, q ∈ she.moduliQ -> Poly.NttModulus q)
    (h1 : Leveled she.moduliQ n c1) (h2 : Leveled she.moduliQ n c2) (hlevel : c1.level = c2.level)
    (hrun : scaleOperands she c1 c2 = some (d1, d2)) :
    Leveled she.moduliQ n d1 ∧ Leveled she.moduliQ n d2 ∧ d1.level = c1.level ∧
      d1.hopslevel = c1.hopslevel := by
  unfold scaleOperands at hrun
  split at hrun
  · cases hrun
    exact ⟨h1, h2, rfl, rfl⟩
  · split at hrun
    · rcases Option.map_eq_some_iff.mp hrun with ⟨r, hr, heq⟩
      cases heq
      rcases scaleToDegree_spec hmoduli h1 h2 hlevel hr with ⟨hrwf, hrlevel, _, hrhops, _⟩
      exact ⟨hrwf, h2, hrlevel, hrhops⟩
    · split at hrun
      · rcases Option.map_eq_some_iff.mp hrun with ⟨r, hr, heq⟩
        cases heq
        exact ⟨h1, (scaleToDegree_spec hmoduli h2 h1 hlevel.symm hr).1, rfl, rfl⟩
      · cases hrun
        exact ⟨h1, h2, rfl, rfl⟩

theorem scaleOperands_stable (hmoduli : forall q, q ∈ she.moduliQ -> Poly.NttModulus q)
    (h1 : Leveled she.moduliQ n c1) (h2 : Leveled she.moduliQ n c2) (hlevel : c1.level = c2.level)
    (hrun : scaleOperands she c1 c2 = some (d1, d2)) {cv : List DCRTPoly}
    (hcv : Leveled she.moduliQ n { d1 with elements := cv })
    (hlength : cv.length = d1.elements.length) :
    scaleOperands she { d1 with elements := cv } c2 =
      some ({ d1 with elements := cv }, d2) := by
  unfold scaleOperands at hrun ⊢
  by_cases hzero : she.scFactor = 0
  · rw [if_pos hzero] at hrun ⊢
    cases hrun
    rfl
  · rw [if_neg hzero] at hrun ⊢
    by_cases hone : c1.elements.length = 1
    · rw [if_pos hone] at hrun
      rcases Option.map_eq_some_iff.mp hrun with ⟨r, hr, heq⟩
      cases heq
      rcases scaleToDegree_spec hmoduli h1 h2 hlevel hr with ⟨_, _, hrdegree, _, hrlength⟩
      rw [if_pos (hlength.trans (hrlength hone)), scaleToDegree_self hcv h2 hrdegree]
      rfl
    · rw [if_neg hone] at hrun
      by_cases htwo : c2.elements.length = 1
      · rw [if_pos htwo] at hrun ⊢
        rcases Option.map_eq_some_iff.mp hrun with ⟨r, hr, heq⟩
        cases heq
        rw [if_neg (fun h => hone (hlength.symm.trans h)), scaleToDegree_congr h1 hcv rfl rfl, hr]
        rfl
      · rw [if_neg htwo] at hrun ⊢
        cases hrun
        rw [if_neg (fun h => hone (hlength.symm.trans h))]

theorem adjustForAddOrSubInPlace_spec (h : she.Sound n)
    (hmoduli : forall q, q ∈ she.moduliQ -> Poly.NttModulus q)
    (h1 : Leveled she.moduliQ n c1) (h2 : Leveled she.moduliQ n c2)
    (hrun : adjustForAddOrSubInPlace she c1 c2 = some (d1, d2)) :
    Leveled she.moduliQ n d1 ∧ Leveled she.moduliQ n d2 := by
  unfold adjustForAddOrSubInPlace at hrun
  split at hrun
  · rcases adjustLevelsInPlace_spec h1 h2 with ⟨cv1, cv2, hadjust, ha1, ha2, _⟩
    rw [hadjust] at hrun
    rcases scaleOperands_spec hmoduli ha1 ha2 rfl hrun with ⟨hd1, hd2, _, _⟩
    exact ⟨hd1, hd2⟩
  · split at hrun
    · exact h.leveled _ _ _ _ h1 h2 hrun
    · cases hrun
      exact ⟨h1, h2⟩

theorem adjustForAddOrSubInPlace_stable (h : she.Sound n)
    (hmoduli : forall q, q ∈ she.moduliQ -> Poly.NttModulus q)
    (h1 : Leveled she.moduliQ n c1) (h2 : Leveled she.moduliQ n c2)
    (hdegree1 : she.Admissible c1.noiseScaleDeg) (hdegree2 : she.Admissible c2.noiseScaleDeg)
    (hhops : c2.hopslevel = c1.hopslevel)
    (hrun : adjustForAddOrSubInPlace she c1 c2 = some (d1, d2)) (hlevel : d1.level = d2.level)
    {cv : List DCRTPoly} (hcv : Leveled she.moduliQ n { d1 with elements := cv })
    (hlength : cv.length = d1.elements.length) :
    exists e, adjustForAddOrSubInPlace she { d1 with elements := cv }
        { c2 with hopslevel := d1.hopslevel } = some ({ d1 with elements := cv }, e) ∧
      e.elements = d2.elements := by
  unfold adjustForAddOrSubInPlace at hrun ⊢
  by_cases hmanual : she.technique = .FIXEDMANUAL
  · rw [if_pos hmanual] at hrun ⊢
    rcases adjustLevelsInPlace_spec h1 h2 with ⟨cv1, cv2, hadjust, ha1, ha2, hagain⟩
    rw [hadjust] at hrun
    rcases scaleOperands_spec hmoduli ha1 ha2 rfl hrun with ⟨_, _, hd1level, hd1hops⟩
    have hsecond : { c2 with hopslevel := d1.hopslevel } = c2 := by
      rw [hd1hops, <- hhops]
    refine ⟨d2, ?_, rfl⟩
    rw [hsecond, hagain { d1 with elements := cv } hcv hd1level]
    exact scaleOperands_stable hmoduli ha1 ha2 rfl hrun hcv hlength
  · rw [if_neg hmanual] at hrun ⊢
    by_cases hnone : she.technique = .NORESCALE
    · rw [if_neg (not_not.mpr hnone)] at hrun ⊢
      cases hrun
      exact ⟨_, rfl, rfl⟩
    · rw [if_pos hnone] at hrun ⊢
      exact h.stable _ _ _ _ cv h1 h2 (hdegree1 hmanual hnone) (hdegree2 hmanual hnone) hhops
        hrun hlevel

end Schemes

/-! ## CKKS and BGV -/

section Instances

variable {F : Type} {cache : Poly.TableCache} {k : Nat} {psi : Nat -> Nat}

/-- `toInteger` converts the scaling factor plus 0.5. -/
def ckksrns [Mul F] [Div F] [One F] (cache : Poly.TableCache)
    (params : Ckksrns.LeveledParameters F) (toInteger : F -> Nat) : LeveledSHERNS F where
  moduliQ := params.moduliQ
  technique := params.technique
  scFactor := params.getScalingFactorReal 0
  intSF := toInteger (params.getScalingFactorReal 0)
  adjustLevelsAndDepthInPlace := Ckksrns.adjustLevelsAndDepthInPlace cache params

/-- The parameters of BGV have no real scaling factor. -/
def bgvrns [Zero F] (cache : Poly.TableCache) (params : Bgvrns.LeveledParameters) :
    LeveledSHERNS F where
  moduliQ := params.moduliQ
  technique := params.technique
  scFactor := 0
  intSF := 0
  adjustLevelsAndDepthInPlace := Bgvrns.adjustLevelsAndDepthInPlace cache params

/-- The branches that both schemes have, with their operations. -/
def adjustBy (lower : Ciphertext F -> Ciphertext F -> Option (Ciphertext F))
    (mult : Ciphertext F -> Option (Ciphertext F)) (c1 c2 : Ciphertext F) :
    Option (Ciphertext F × Ciphertext F) :=
  if c1.level < c2.level then (lower c1 c2).map fun c => (c, c2)
  else if c1.level > c2.level then (lower c2 c1).map fun c => (c1, c)
  else if c1.noiseScaleDeg < c2.noiseScaleDeg then (mult c1).map fun c => (c, c2)
  else if c2.noiseScaleDeg < c1.noiseScaleDeg then (mult c2).map fun c => (c1, c)
  else some (c1, c2)

theorem lowerDegree_eq {degree1 degree2 : Nat} (h1 : degree1 = 1 ∨ degree1 = 2)
    (h2 : degree2 = 1 ∨ degree2 = 2) : Ckksrns.lowerDegree degree1 degree2 = degree2 := by
  rcases h1 with rfl | rfl
  · rcases h2 with rfl | rfl <;> rfl
  · rcases h2 with rfl | rfl <;> rfl

section AdjustBy

variable {lower : Ciphertext F -> Ciphertext F -> Option (Ciphertext F)}
  {mult : Ciphertext F -> Option (Ciphertext F)} {c1 c2 : Ciphertext F}

theorem adjustBy_same (hlevel : c1.level = c2.level)
    (hdegree : c1.noiseScaleDeg = c2.noiseScaleDeg) :
    adjustBy lower mult c1 c2 = some (c1, c2) := by
  unfold adjustBy
  rw [if_neg (by omega), if_neg (by omega), if_neg (by omega), if_neg (by omega)]

theorem adjustBy_degree (hlevel : c1.level = c2.level)
    (hdegree : c2.noiseScaleDeg < c1.noiseScaleDeg) :
    adjustBy lower mult c1 c2 = (mult c2).map fun c => (c1, c) := by
  unfold adjustBy
  rw [if_neg (by omega), if_neg (by omega), if_neg (by omega), if_pos hdegree]

theorem adjustBy_level (hlevel : c2.level < c1.level) :
    adjustBy lower mult c1 c2 = (lower c2 c1).map fun c => (c1, c) := by
  unfold adjustBy
  rw [if_neg (by omega), if_pos hlevel]

end AdjustBy

theorem LeveledSHERNS.Sound.of_adjustBy {she : LeveledSHERNS F} {n : Nat}
    (lower : Ciphertext F -> Ciphertext F -> Option (Ciphertext F))
    (mult : Ciphertext F -> Option (Ciphertext F))
    (hadjust : she.adjustLevelsAndDepthInPlace = adjustBy lower mult)
    (hlower : forall c1 c2 r, Leveled she.moduliQ n c1 -> Leveled she.moduliQ n c2 ->
      c1.level < c2.level -> lower c1 c2 = some r -> Leveled she.moduliQ n r ∧
        (r.level = c2.level ->
          r.noiseScaleDeg = Ckksrns.lowerDegree c1.noiseScaleDeg c2.noiseScaleDeg))
    (hcongr : forall c1 c2 cv, lower c1 { c2 with elements := cv } = lower c1 c2)
    (hmult : forall c r, Leveled she.moduliQ n c -> mult c = some r ->
      Leveled she.moduliQ n r ∧ r.level = c.level ∧ r.noiseScaleDeg = c.noiseScaleDeg + 1) :
    she.Sound n := by
  constructor
  · intro c1 c2 d1 d2 h1 h2 hrun
    rw [hadjust] at hrun
    unfold adjustBy at hrun
    split at hrun
    · next hlt =>
        rcases Option.map_eq_some_iff.mp hrun with ⟨r, hr, heq⟩
        cases heq
        exact ⟨(hlower _ _ _ h1 h2 hlt hr).1, h2⟩
    · split at hrun
      · next hgt =>
          rcases Option.map_eq_some_iff.mp hrun with ⟨r, hr, heq⟩
          cases heq
          exact ⟨h1, (hlower _ _ _ h2 h1 hgt hr).1⟩
      · split at hrun
        · rcases Option.map_eq_some_iff.mp hrun with ⟨r, hr, heq⟩
          cases heq
          exact ⟨(hmult _ _ h1 hr).1, h2⟩
        · split at hrun
          · rcases Option.map_eq_some_iff.mp hrun with ⟨r, hr, heq⟩
            cases heq
            exact ⟨h1, (hmult _ _ h2 hr).1⟩
          · cases hrun
            exact ⟨h1, h2⟩
  · intro c1 c2 d1 d2 cv h1 h2 hdegree1 hdegree2 hhops hrun hlevel
    rw [hadjust] at hrun ⊢
    -- once the first operand has the level and the degree of the second one, nothing is done
    have hdone : d1.level = c2.level -> d1.noiseScaleDeg = c2.noiseScaleDeg -> d2 = c2 ->
        exists e, adjustBy lower mult { d1 with elements := cv }
          { c2 with hopslevel := d1.hopslevel } = some ({ d1 with elements := cv }, e) ∧
            e.elements = d2.elements := by
      rintro hl hd rfl
      exact ⟨_, adjustBy_same hl hd, rfl⟩
    have hsecond : { c2 with hopslevel := c1.hopslevel } = c2 := by
      rw [<- hhops]
    unfold adjustBy at hrun
    rcases Nat.lt_trichotomy c1.level c2.level with hlt | heq | hgt
    · rw [if_pos hlt] at hrun
      rcases Option.map_eq_some_iff.mp hrun with ⟨r, hr, hpair⟩
      cases hpair
      apply hdone hlevel _ rfl
      rw [(hlower _ _ _ h1 h2 hlt hr).2 hlevel, lowerDegree_eq hdegree1 hdegree2]
    · rw [if_neg (by omega), if_neg (by omega)] at hrun
      by_cases hbelow : c1.noiseScaleDeg < c2.noiseScaleDeg
      · rw [if_pos hbelow] at hrun
        rcases Option.map_eq_some_iff.mp hrun with ⟨r, hr, hpair⟩
        cases hpair
        rcases hmult _ _ h1 hr with ⟨_, hrlevel, hrdegree⟩
        exact hdone (hrlevel.trans heq) (by omega) rfl
      · rw [if_neg hbelow] at hrun
        by_cases habove : c2.noiseScaleDeg < c1.noiseScaleDeg
        · rw [if_pos habove] at hrun
          rcases Option.map_eq_some_iff.mp hrun with ⟨r, hr, hpair⟩
          cases hpair
          refine ⟨d2, ?_, rfl⟩
          have hagain : adjustBy lower mult { c1 with elements := cv } c2 =
              (mult c2).map fun c => ({ c1 with elements := cv }, c) :=
            adjustBy_degree heq habove
          rw [hsecond, hagain, hr]
          rfl
        · rw [if_neg habove] at hrun
          cases hrun
          exact hdone heq (by omega) rfl
    · rw [if_neg (by omega), if_pos hgt] at hrun
      rcases Option.map_eq_some_iff.mp hrun with ⟨r, hr, hpair⟩
      cases hpair
      refine ⟨d2, ?_, rfl⟩
      have hagain : adjustBy lower mult { c1 with elements := cv } c2 =
          (lower c2 { c1 with elements := cv }).map fun c => ({ c1 with elements := cv }, c) :=
        adjustBy_level hgt
      rw [hsecond, hagain, hcongr, hr]
      rfl

theorem ckksrns_sound [Mul F] [Div F] [One F] {params : Ckksrns.LeveledParameters F}
    (h : Ckksrns.Setting cache params k psi) (toInteger : F -> Nat) :
    (ckksrns cache params toInteger).Sound (2 ^ k) := by
  apply LeveledSHERNS.Sound.of_adjustBy (Ckksrns.adjustLower cache params)
    (fun c => Ckksrns.evalMultCoreInPlace params c 1) rfl
  · intro c1 c2 r h1 h2 hlt hrun
    have ha1 := Ckksrns.atLevel_iff.mpr h1
    have ha2 := Ckksrns.atLevel_iff.mpr h2
    rcases Nat.lt_or_ge c2.level (c1.level + Ckksrns.levelsRescaled params c1 c2) with
      hroom | hroom
    · rcases Ckksrns.adjustLower_noRoom h ha1 hroom hlt with hnone | ⟨r', hr', hwf, hbeyond⟩
      · cases hnone.symm.trans hrun
      · cases hr'.symm.trans hrun
        exact ⟨Ckksrns.atLevel_iff.mp hwf, fun heq => absurd heq hbeyond.ne'⟩
    · rcases Ckksrns.adjustLower_spec h ha1 ha2 hlt hroom with ⟨r', hr', hwf, _, hdegree, _⟩
      cases hr'.symm.trans hrun
      exact ⟨Ckksrns.atLevel_iff.mp hwf, fun _ => hdegree⟩
  · intro c1 c2 cv
    rfl
  · intro c r hc hr
    rcases Ckksrns.evalMultCoreInPlace_spec (Ckksrns.atLevel_iff.mpr hc) h 1 with
      ⟨r', hr', hwf, hlevel, hdegree, _⟩
    cases hr'.symm.trans hr
    exact ⟨Ckksrns.atLevel_iff.mp hwf, hlevel, hdegree⟩

theorem bgvrns_sound [Zero F] {params : Bgvrns.LeveledParameters}
    (h : Bgvrns.Setting cache params k psi) :
    (bgvrns cache params : LeveledSHERNS F).Sound (2 ^ k) := by
  apply LeveledSHERNS.Sound.of_adjustBy (Bgvrns.adjustLower cache params)
    (fun c => Bgvrns.evalMultCoreInPlace params c c.scalingFactorInt) rfl
  · intro c1 c2 r h1 _ _ hrun
    rcases Bgvrns.adjustLower_spec h h1 hrun with ⟨hr, hdegree⟩
    exact ⟨hr, fun _ => hdegree⟩
  · intro c1 c2 cv
    rfl
  · intro c r hc hr
    exact Bgvrns.evalMultCoreInPlace_spec h hc _ hr

end Instances

/-! ## Raw elements -/

section Raw

variable {n : Nat} {source : Format} {moduli : List Nat} {a x : DCRTPoly}

def relabel (x : DCRTPoly) (format : Format) : DCRTPoly :=
  x.map fun t => { t with format := format }

theorem relabel_wellFormed (hx : DCRTPoly.WellFormed n source moduli x) (format : Format) :
    DCRTPoly.WellFormed n format moduli (relabel x format) := by
  constructor
  · rw [relabel, List.length_map]
    exact hx.length_eq
  · intro i q t hq ht
    rw [relabel, List.getElem?_map] at ht
    rcases Option.map_eq_some_iff.mp ht with ⟨u, hu, rfl⟩
    rcases hx.get i q u hq hu with ⟨hmodulus, _, hvalues⟩
    exact ⟨hmodulus, rfl, hvalues⟩

theorem residues_relabel (x : DCRTPoly) (format : Format) :
    DCRTPoly.residues (relabel x format) = DCRTPoly.residues x := by
  funext i q r
  unfold DCRTPoly.residues DCRTPoly.value relabel
  rw [List.getElem?_map]
  cases x[i]? <;> rfl

theorem plusEq_relabel (a x : DCRTPoly) (format : Format) :
    DCRTPoly.plusEq a (relabel x format) = DCRTPoly.plusEq a x := by
  unfold DCRTPoly.plusEq DCRTPoly.zipTowers
  congr 1
  funext i
  rw [relabel, List.getElem?_map]
  cases a[i]? with
  | none => rfl
  | some t => cases x[i]? <;> rfl

theorem evalAddCoreInPlace_relabel {F : Type} (c : Ciphertext F) (x : DCRTPoly)
    (format : Format) : evalAddCoreInPlace c (relabel x format) = evalAddCoreInPlace c x := by
  have hverify : verifyNumOfTowers c.elements [relabel x format] =
      verifyNumOfTowers c.elements [x] := by
    unfold verifyNumOfTowers
    cases c.elements[0]? with
    | none => rfl
    | some y =>
        simp only [List.getElem?_cons_zero, Option.bind_eq_bind, Option.bind_some, relabel,
          List.length_map]
  unfold evalAddCoreInPlace coreInPlace
  simp only [hverify, plusEq_relabel]

theorem value_eq_zero (hx : DCRTPoly.WellFormed n source moduli x)
    (hzero : forall i q, moduli[i]? = some q -> forall r, r < n -> DCRTPoly.value x i r = 0)
    (i r : Nat) : DCRTPoly.value x i r = 0 := by
  cases ht : x[i]? with
  | none =>
      rw [DCRTPoly.value, ht]
      rfl
  | some t =>
      have hi : i < moduli.length := by
        rw [<- hx.length_eq]
        exact (List.getElem?_eq_some_iff.mp ht).1
      have hq := List.getElem?_eq_getElem hi
      rcases Nat.lt_or_ge r n with hr | hr
      · exact hzero i _ hq r hr
      · have hlength := (hx.get i _ t hq ht).2.2.1
        rw [DCRTPoly.value_eq ht, Poly.value, List.getD_eq_default _ _ (hlength.trans_le hr)]

theorem eq_zero_of_eq_neg {q v : Nat} (hodd : q % 2 = 1) (hlt : v < q)
    (h : (v : ZMod q) = -(v : ZMod q)) : v = 0 := by
  have hsum : ((2 * v : Nat) : ZMod q) = 0 := by
    rw [Nat.cast_mul, Nat.cast_two, two_mul]
    exact eq_neg_iff_add_eq_zero.mp h
  have hdvd := (ZMod.natCast_eq_zero_iff _ _).mp hsum
  have hcoprime : Nat.Coprime q 2 := (Nat.coprime_two_right.mpr (Nat.odd_iff.mpr hodd))
  exact Nat.eq_zero_of_dvd_of_lt (hcoprime.dvd_of_dvd_mul_left hdvd) hlt

end Raw

/-! ## Agreement of the sums -/

section Refinement

variable {F : Type} [Zero F] [DecidableEq F]

section Variants

variable (cache : Poly.TableCache) (she : LeveledSHERNS F) (ciphertext : Ciphertext F)
  (plaintext : Plaintext F)

theorem evalMutable_eq (core : Ciphertext F -> DCRTPoly -> Option (Ciphertext F)) :
    (evalMutable cache she core ciphertext plaintext).map Prod.snd =
      (sumOperands cache she ciphertext plaintext).bind fun o =>
        (o.2.elements[0]?).bind (core o.1) := by
  unfold evalMutable sumOperands
  cases morphPlaintext cache plaintext ciphertext with
  | none => rfl
  | some ctmorphed =>
      simp only [Option.bind_eq_bind, Option.bind_some]
      cases adjustForAddOrSubInPlace she ciphertext ctmorphed with
      | none => rfl
      | some o =>
          simp only [Option.bind_some]
          cases o.2.elements[0]? with
          | none => rfl
          | some pt =>
              simp only [Option.bind_some]
              cases core o.1 pt <;> rfl

theorem evalAddInPlace_eq (htech : she.technique ≠ .NORESCALE) :
    evalAddInPlace cache she ciphertext plaintext =
      (sumOperands cache she ciphertext plaintext).bind fun o =>
        (o.2.elements[0]?).bind (evalAddCoreInPlace o.1) := by
  unfold evalAddInPlace sumOperands
  rw [if_neg htech]
  cases morphPlaintext cache plaintext ciphertext <;> rfl

theorem evalSubInPlace_eq (htech : she.technique ≠ .NORESCALE) :
    evalSubInPlace cache she ciphertext plaintext =
      (sumOperands cache she ciphertext plaintext).bind fun o =>
        (o.2.elements[0]?).bind (evalSubCoreInPlace o.1) := by
  unfold evalSubInPlace sumOperands
  rw [if_neg htech]
  cases morphPlaintext cache plaintext ciphertext <;> rfl

end Variants

variable {cache : Poly.TableCache} {she : LeveledSHERNS F} {ciphertext : Ciphertext F}
  {plaintext : Plaintext F} {o r : Option (Ciphertext F)}

theorem of_mem_additions (hinPlace : evalAddInPlace cache she ciphertext plaintext = r)
    (hmutable : (evalMutable cache she evalAddCoreInPlace ciphertext plaintext).map Prod.snd = r)
    (ho : o ∈ additions cache she ciphertext plaintext) : o = r := by
  simp only [additions, List.mem_cons, List.not_mem_nil, or_false] at ho
  rcases ho with rfl | rfl | rfl | rfl
  · exact hinPlace
  · exact hinPlace
  · exact hmutable
  · exact hmutable

theorem of_mem_subtractions (hinPlace : evalSubInPlace cache she ciphertext plaintext = r)
    (hmutable : (evalMutable cache she evalSubCoreInPlace ciphertext plaintext).map Prod.snd = r)
    (ho : o ∈ subtractions cache she ciphertext plaintext) : o = r := by
  simp only [subtractions, List.mem_cons, List.not_mem_nil, or_false] at ho
  rcases ho with rfl | rfl | rfl | rfl
  · exact hinPlace
  · exact hinPlace
  · exact hmutable
  · exact hmutable

/-- The element has the towers of the level of the plaintext, in either format. -/
structure LeveledPlaintext (moduliQ : List Nat) (n : Nat) (format : Format)
    (plaintext : Plaintext F) : Prop where
  level_lt : plaintext.level < moduliQ.length
  element : DCRTPoly.WellFormed n format (moduliQ.take (moduliQ.length - plaintext.level))
    plaintext.element

def Vanishes (plaintext : Plaintext F) : Prop :=
  forall i r, DCRTPoly.value plaintext.element i r = 0

variable {k : Nat} {psi : Nat -> Nat} {format : Format} (hpos : 0 < k) (hle : k <= 31)
  (hready : DCRTPoly.ReadyChain cache k psi she.moduliQ)
  (hc : Leveled she.moduliQ (2 ^ k) ciphertext)
  (hp : LeveledPlaintext she.moduliQ (2 ^ k) format plaintext)

include hpos hle hready hp

omit [Zero F] [DecidableEq F] in
theorem morphPlaintext_leveled :
    exists elem, DCRTPoly.setFormat cache plaintext.element .EVALUATION = some elem ∧
      forall ciphertext : Ciphertext F, morphPlaintext cache plaintext ciphertext =
          some (plaintext.toCiphertext ciphertext elem) ∧
        Leveled she.moduliQ (2 ^ k) (plaintext.toCiphertext ciphertext elem) := by
  rcases DCRTPoly.setFormat_wellFormed hpos hle
    (fun q hq => ⟨psi q, hready q (List.mem_of_mem_take hq)⟩) hp.element .EVALUATION with
    ⟨elem, helem, hwf⟩
  refine ⟨elem, helem, ?_⟩
  intro ciphertext
  constructor
  · rw [morphPlaintext, helem]
    rfl
  · refine ⟨hp.level_lt, List.cons_ne_nil _ _, ?_⟩
    intro c hmem
    rw [List.mem_singleton.mp hmem]
    exact hwf

theorem sumsAgree_of_rescaling (hsound : she.Sound (2 ^ k))
    (hc : Leveled she.moduliQ (2 ^ k) ciphertext)
    (hdegree : she.Admissible ciphertext.noiseScaleDeg)
    (hpdegree : she.Admissible plaintext.noiseScaleDeg)
    (htech : she.technique ≠ .NORESCALE) :
    SumsAgree cache she (2 ^ k) ciphertext plaintext := by
  have hmoduli : forall q, q ∈ she.moduliQ -> Poly.NttModulus q :=
    fun q hq => (hready q hq).modulus
  rcases morphPlaintext_leveled hpos hle hready hp with ⟨elem, _, hmorphs⟩
  rcases hmorphs ciphertext with ⟨hmorph, hm⟩
  have hoperands : sumOperands cache she ciphertext plaintext =
      adjustForAddOrSubInPlace she ciphertext (plaintext.toCiphertext ciphertext elem) := by
    rw [sumOperands, hmorph]
    rfl
  have hadd := evalAddInPlace_eq cache she ciphertext plaintext htech
  have hsub := evalSubInPlace_eq cache she ciphertext plaintext htech
  have hadds := evalMutable_eq cache she ciphertext plaintext evalAddCoreInPlace
  have hsubs := evalMutable_eq cache she ciphertext plaintext evalSubCoreInPlace
  cases hrun : sumOperands cache she ciphertext plaintext with
  | none =>
      rw [hrun, Option.bind_none] at hadd hsub hadds hsubs
      exact .refused (fun o ho => of_mem_additions hadd hadds ho)
        (fun o ho => of_mem_subtractions hsub hsubs ho)
  | some o =>
      rcases o with ⟨c, p⟩
      rw [hrun, Option.bind_some] at hadd hsub hadds hsubs
      have hadjust := hoperands.symm.trans hrun
      rcases adjustForAddOrSubInPlace_spec hsound hmoduli hc hm hadjust with ⟨hcwf, hpwf⟩
      rcases hpwf.first with ⟨x, hx, hxmem, hxlength⟩
      simp only [hx, Option.bind_some] at hadd hsub hadds hsubs
      have hclevel := hcwf.level_lt
      have hplevel := hpwf.level_lt
      by_cases hlevel : c.level = p.level
      · have hxwf := hpwf.elements x hxmem
        rw [<- hlevel] at hxwf
        rcases evalAddCoreInPlace_spec hmoduli hcwf hxwf with
          ⟨cv, hcore, hcv, hlength, hdecrypts⟩
        rcases evalSubCoreInPlace_spec hmoduli hcwf hxwf with ⟨cv', hcore', _, _, hdecrypts'⟩
        rw [hcore] at hadd hadds
        rw [hcore'] at hsub hsubs
        apply SumsAgree.agree c p x hrun hx
        · intro o ho
          exact ⟨_, of_mem_additions hadd hadds ho, hdecrypts⟩
        · intro o ho
          exact ⟨_, of_mem_subtractions hsub hsubs ho, hdecrypts'⟩
        · rcases adjustForAddOrSubInPlace_stable hsound hmoduli hc hm hdegree hpdegree rfl
            hadjust hlevel hcv hlength with ⟨e, hagain, he⟩
          rcases evalSubCoreInPlace_evalAddCoreInPlace hmoduli hcwf hxwf hcore with
            ⟨d, hd, hdelements⟩
          refine ⟨_, d, hadd, ?_, hdelements⟩
          have hmorph' : morphPlaintext cache plaintext { c with elements := cv } =
              some { plaintext.toCiphertext ciphertext elem with hopslevel := c.hopslevel } :=
            (hmorphs { c with elements := cv }).1
          unfold evalSub
          rw [evalSubInPlace_eq _ _ _ _ htech, sumOperands, hmorph']
          simp only [Option.bind_eq_bind, Option.bind_some, hagain, he, hx]
          exact hd
      · have hnone : forall op, coreInPlace op c x = none :=
          fun op => coreInPlace_none hcwf op (by omega)
        exact .refused (fun o ho => of_mem_additions (hadd.trans (hnone _))
            (hadds.trans (hnone _)) ho)
          (fun o ho => of_mem_subtractions (hsub.trans (hnone _)) (hsubs.trans (hnone _)) ho)

omit [Zero F] [DecidableEq F] in
theorem vanishes_denotes (hzero : Vanishes plaintext) {elem : DCRTPoly}
    (helem : DCRTPoly.setFormat cache plaintext.element .EVALUATION = some elem) :
    DCRTPoly.Denotes (2 ^ k) .EVALUATION
        (she.moduliQ.take (she.moduliQ.length - plaintext.level)) 0
        (relabel plaintext.element .EVALUATION) ∧
      DCRTPoly.Denotes (2 ^ k) .EVALUATION
        (she.moduliQ.take (she.moduliQ.length - plaintext.level)) 0 elem := by
  have hready' : DCRTPoly.ReadyChain cache k psi
      (she.moduliQ.take (she.moduliQ.length - plaintext.level)) :=
    fun q hq => hready q (List.mem_of_mem_take hq)
  have hmoduli : forall q, q ∈ she.moduliQ.take (she.moduliQ.length - plaintext.level) -> 0 < q :=
    fun q hq => Nat.lt_trans Nat.zero_lt_one (hready' q hq).modulus.one_lt
  have hresidues : forall i q,
      (she.moduliQ.take (she.moduliQ.length - plaintext.level))[i]? = some q ->
      forall r, r < 2 ^ k -> DCRTPoly.residues plaintext.element i q r = 0 := by
    intro i q _ r _
    rw [DCRTPoly.residues, hzero, Nat.cast_zero]
  constructor
  · apply (relabel_wellFormed hp.element .EVALUATION).denotes.congr
    rw [residues_relabel]
    exact hresidues
  · have hraw := hp.element.denotes.congr (w := 0) hresidues
    rw [hraw.unique (DCRTPoly.zero_denotes hmoduli _ _)] at helem
    rcases (DCRTPoly.zero_encodes hmoduli format).setFormat hpos hle hready' .EVALUATION with
      ⟨elem', helem', hencodes⟩
    cases helem.symm.trans helem'
    rw [hencodes.unique (DCRTPoly.zero_encodes hmoduli .EVALUATION)]
    exact DCRTPoly.zero_denotes hmoduli _ _

theorem sumsAgree_noRescale (hc : Leveled she.moduliQ (2 ^ k) ciphertext)
    (htech : she.technique = .NORESCALE) :
    SumsAgree cache she (2 ^ k) ciphertext plaintext <->
      (ciphertext.level = plaintext.level -> Vanishes plaintext) := by
  have hmoduli : forall q, q ∈ she.moduliQ -> Poly.NttModulus q :=
    fun q hq => (hready q hq).modulus
  rcases morphPlaintext_leveled hpos hle hready hp with ⟨elem, helem, hmorphs⟩
  rcases hmorphs ciphertext with ⟨hmorph, hm⟩
  have hoperands : sumOperands cache she ciphertext plaintext =
      some (ciphertext, plaintext.toCiphertext ciphertext elem) := by
    rw [sumOperands, hmorph]
    simp only [Option.bind_eq_bind, Option.bind_some, adjustForAddOrSubInPlace, htech]
    rfl
  have hadd : evalAddInPlace cache she ciphertext plaintext =
      evalAddCoreInPlace ciphertext plaintext.element := if_pos htech
  have hsub : evalSubInPlace cache she ciphertext plaintext =
      evalAddCoreInPlace ciphertext plaintext.element := if_pos htech
  have hadds := evalMutable_eq cache she ciphertext plaintext evalAddCoreInPlace
  have hsubs := evalMutable_eq cache she ciphertext plaintext evalSubCoreInPlace
  have hfirst : (plaintext.toCiphertext ciphertext elem).elements[0]? = some elem := rfl
  rw [hoperands, Option.bind_some, hfirst, Option.bind_some] at hadds hsubs
  have hplevel := hp.level_lt
  have hclevel := hc.level_lt
  have helength : elem.length = she.moduliQ.length - plaintext.level :=
    hm.length_eq (List.mem_singleton_self _)
  have hlength : plaintext.element.length = she.moduliQ.length - plaintext.level := by
    rw [hp.element.length_eq, List.length_take]
    omega
  by_cases hlevel : ciphertext.level = plaintext.level
  · have helemwf := hm.elements elem (List.mem_singleton_self _)
    have hrawwf := relabel_wellFormed hp.element .EVALUATION
    have hlevel' : (plaintext.toCiphertext ciphertext elem).level = ciphertext.level :=
      hlevel.symm
    rw [hlevel'] at helemwf
    rw [<- hlevel] at hrawwf
    rcases evalAddCoreInPlace_spec hmoduli hc hrawwf with ⟨cv, hcore, _, _, hraw⟩
    rw [evalAddCoreInPlace_relabel] at hcore
    rw [residues_relabel] at hraw
    constructor
    · intro hagree _
      cases hagree with
      | refused hnone _ =>
          cases (hnone _ (List.mem_cons_of_mem _ List.mem_cons_self)).symm.trans
            (hadd.trans hcore)
      | agree c p x hops hx hplus hminus _ =>
          cases hoperands.symm.trans hops
          cases hfirst.symm.trans hx
          rcases hplus _ (List.mem_cons_of_mem _ List.mem_cons_self) with ⟨r, hr, hrplus⟩
          rcases hminus _ (List.mem_cons_of_mem _ List.mem_cons_self) with ⟨r', hr', hrminus⟩
          cases (hadd.trans hcore).symm.trans hr
          cases (hsub.trans hcore).symm.trans hr'
          apply value_eq_zero hp.element
          rw [<- hlevel]
          intro i q hq r hr
          have hprime := hmoduli q (List.mem_of_mem_take (List.mem_of_getElem? hq))
          have hplus' := hraw.unique hmoduli hrplus i q hq r hr
          have hminus' := hraw.unique hmoduli hrminus i q hq r hr
          apply eq_zero_of_eq_neg hprime.odd
          · have hwf := hp.element
            rw [<- hlevel] at hwf
            exact hwf.value_lt hq hr
          · exact hminus'.trans (congrArg Neg.neg hplus'.symm)
    · intro hzero
      rcases vanishes_denotes hpos hle hready hp (hzero hlevel) helem with ⟨hrawzero, helemzero⟩
      rw [<- hlevel] at hrawzero helemzero
      have hkeep := evalAddCoreInPlace_zero hmoduli hc hrawzero
      have hkeepAdd := evalAddCoreInPlace_zero hmoduli hc helemzero
      have hkeepSub := evalSubCoreInPlace_zero hmoduli hc helemzero
      rw [evalAddCoreInPlace_relabel] at hkeep
      rcases @evalAddCoreInPlace_spec F cache she _ _ _ hmoduli hc helemwf with
        ⟨cv1, hcore1, _, _, hdecrypts1⟩
      rcases @evalSubCoreInPlace_spec F cache she _ _ _ hmoduli hc helemwf with
        ⟨cv2, hcore2, _, _, hdecrypts2⟩
      rw [<- Option.some.inj (hkeepAdd.symm.trans hcore1)] at hdecrypts1
      rw [<- Option.some.inj (hkeepSub.symm.trans hcore2)] at hdecrypts2
      apply SumsAgree.agree _ _ _ hoperands hfirst
      · intro o ho
        exact ⟨_, of_mem_additions (hadd.trans hkeep) (hadds.trans hkeepAdd) ho, hdecrypts1⟩
      · intro o ho
        exact ⟨_, of_mem_subtractions (hsub.trans hkeep) (hsubs.trans hkeepSub) ho, hdecrypts2⟩
      · exact ⟨_, _, hadd.trans hkeep, hsub.trans hkeep, rfl⟩
  · have hnone : forall op pt, pt.length = she.moduliQ.length - plaintext.level ->
        coreInPlace op ciphertext pt = none :=
      fun op pt hpt => coreInPlace_none hc op (by omega)
    constructor
    · intro _ heq
      exact absurd heq hlevel
    · intro _
      exact .refused (fun o ho => of_mem_additions (hadd.trans (hnone _ _ hlength))
          (hadds.trans (hnone _ _ helength)) ho)
        (fun o ho => of_mem_subtractions (hsub.trans (hnone _ _ hlength))
          (hsubs.trans (hnone _ _ helength)) ho)

end Refinement

/-! ## Both schemes -/

section Outcomes

variable {F : Type} [Zero F] [One F] [Mul F] [Div F] [DecidableEq F] {cache : Poly.TableCache}
  {k : Nat} {psi : Nat -> Nat}

/-- The schemes with their parameters set. -/
inductive RnsScheme (cache : Poly.TableCache) (k : Nat) (psi : Nat -> Nat) :
    LeveledSHERNS F -> Prop where
  | ckksrns {params : Ckksrns.LeveledParameters F} (toInteger : F -> Nat)
      (h : Ckksrns.Setting cache params k psi) :
      RnsScheme cache k psi (ckksrns cache params toInteger)
  | bgvrns {params : Bgvrns.LeveledParameters} (h : Bgvrns.Setting cache params k psi) :
      RnsScheme cache k psi (bgvrns cache params)

/-- The sums agree unless the technique without rescaling gets a nonzero plaintext. -/
theorem sumsAgree_iff {she : LeveledSHERNS F} (hscheme : RnsScheme cache k psi she)
    {ciphertext : Ciphertext F} {plaintext : Plaintext F} {format : Format}
    (hc : Leveled she.moduliQ (2 ^ k) ciphertext)
    (hp : LeveledPlaintext she.moduliQ (2 ^ k) format plaintext)
    (hdegree : she.Admissible ciphertext.noiseScaleDeg)
    (hpdegree : she.Admissible plaintext.noiseScaleDeg) :
    SumsAgree cache she (2 ^ k) ciphertext plaintext <->
      (she.technique = .NORESCALE -> ciphertext.level = plaintext.level ->
        Vanishes plaintext) := by
  have hsetting : 0 < k ∧ k <= 31 ∧ DCRTPoly.ReadyChain cache k psi she.moduliQ ∧
      she.Sound (2 ^ k) := by
    cases hscheme with
    | ckksrns toInteger h => exact ⟨h.pos, h.le, h.ready, ckksrns_sound h toInteger⟩
    | bgvrns h => exact ⟨h.pos, h.le, h.ready, bgvrns_sound h⟩
  rcases hsetting with ⟨hpos, hle, hready, hsound⟩
  by_cases htech : she.technique = .NORESCALE
  · rw [sumsAgree_noRescale hpos hle hready hp hc htech]
    exact ⟨fun h _ => h, fun h => h htech⟩
  · constructor
    · intro _ heq
      exact absurd heq htech
    · intro _
      exact sumsAgree_of_rescaling hpos hle hready hp hsound hc hdegree hpdegree htech

end Outcomes

/-! ## Small parameters -/

open Ckksrns (smallManual smallManualSetting smallManualAtLevel smallPlaintext
  smallPlaintextAtLevel smallLeveledCiphertext atLevel_iff)

def smallNoRescale : Ckksrns.LeveledParameters Nat := { smallManual with technique := .NORESCALE }

theorem smallLeveled (factor : Nat) :
    Leveled smallManual.moduliQ (2 ^ 1) (smallLeveledCiphertext 0 1 factor) :=
  atLevel_iff.mp (smallManualAtLevel factor)

theorem smallLeveledPlaintext (degree : Nat) :
    LeveledPlaintext smallManual.moduliQ (2 ^ 1) .EVALUATION (smallPlaintext degree) :=
  ⟨(smallPlaintextAtLevel degree).level_lt, (smallPlaintextAtLevel degree).element⟩

/-- With the manual technique a nonzero plaintext is added and subtracted. -/
theorem sumsAgree_manual :
    SumsAgree Poly.smallCache (ckksrns Poly.smallCache smallManual id) (2 ^ 1)
      (smallLeveledCiphertext 0 1 16) (smallPlaintext 1) :=
  (sumsAgree_iff (.ckksrns id smallManualSetting) (smallLeveled 16) (smallLeveledPlaintext 1)
    (fun _ _ => Or.inl rfl) (fun _ _ => Or.inl rfl)).mpr
    (fun htech => absurd htech (by decide))

/-- Without rescaling `EvalSub` adds the plaintext. -/
theorem not_sumsAgree_noRescale :
    ¬ SumsAgree Poly.smallCache (ckksrns Poly.smallCache smallNoRescale id) (2 ^ 1)
      (smallLeveledCiphertext 0 1 16) (smallPlaintext 1) := by
  intro h
  have hready : DCRTPoly.ReadyChain Poly.smallCache 1 Poly.smallRoot
      (ckksrns Poly.smallCache smallNoRescale id).moduliQ := smallManualSetting.ready
  have hzero := (sumsAgree_noRescale smallManualSetting.pos smallManualSetting.le hready
    (smallLeveledPlaintext 1) (smallLeveled 16) rfl).mp h rfl
  exact absurd (hzero 0 0) (by decide)

end Scheme
end OpenFHE
