import OpenFHE.Scheme.Ckksrns.LevelAdjustment

/-!
# Products with plaintexts

`EvalMult`, `EvalMultInPlace` and `EvalMultMutable` of a CKKS ciphertext and a plaintext.  The
product in place squares the scaling factor of the ciphertext, the mutable one multiplies the
factors of both operands.
-/

namespace OpenFHE
namespace Scheme
namespace Ckksrns

open OpenFHE.Core Foundation Hal NativeInteger

structure Plaintext (F : Type) where
  element : DCRTPoly
  noiseScaleDeg : Nat
  scalingFactor : F
  scalingFactorInt : Nat
  level : Nat
  slots : Nat

/-- The data of a plaintext in a clone of the ciphertext without its elements. -/
def Plaintext.toCiphertext {F : Type} (plaintext : Plaintext F) (ciphertext : Ciphertext F)
    (elem : DCRTPoly) : Ciphertext F :=
  { ciphertext with
    elements := [elem]
    slots := plaintext.slots
    level := plaintext.level
    noiseScaleDeg := plaintext.noiseScaleDeg
    scalingFactor := plaintext.scalingFactor
    scalingFactorInt := plaintext.scalingFactorInt }

/-! ## Operations -/

section Operations

variable {F : Type} [Mul F] [Div F] [One F] (cache : Poly.TableCache)
  (params : LeveledParameters F)

def morphPlaintext (plaintext : Plaintext F) (ciphertext : Ciphertext F) :
    Option (Ciphertext F) := do
  let elem <- DCRTPoly.setFormat cache plaintext.element .EVALUATION
  return plaintext.toCiphertext ciphertext elem

/-- `AdjustLevelsInPlace` compares the numbers of towers. -/
def adjustLevelsInPlace (ciphertext1 ciphertext2 : Ciphertext F) :
    Option (Ciphertext F × Ciphertext F) := do
  let x <- ciphertext1.elements[0]?
  let y <- ciphertext2.elements[0]?
  let c2 <- levelReduceBelow ciphertext2 x.length y.length
  let c1 <- levelReduceBelow ciphertext1 y.length x.length
  return (c1, c2)

def adjustForMultInPlace (ciphertext1 ciphertext2 : Ciphertext F) :
    Option (Ciphertext F × Ciphertext F) :=
  if params.technique = .FIXEDMANUAL then adjustLevelsInPlace ciphertext1 ciphertext2
  else if params.technique ≠ .NORESCALE then
    adjustLevelsAndDepthToOneInPlace cache params ciphertext1 ciphertext2
  else some (ciphertext1, ciphertext2)

/-- `EvalMultCoreInPlace` with a plaintext element. -/
def evalMultElementInPlace (ciphertext : Ciphertext F) (pt : DCRTPoly) :
    Option (Ciphertext F) := do
  verifyNumOfTowers ciphertext.elements [pt]
  let cv <- ciphertext.elements.mapM fun c => DCRTPoly.timesEq c pt
  return { ciphertext with elements := cv }

def evalMultRnsInPlace (ciphertext : Ciphertext F) (plaintext : Plaintext F) :
    Option (Ciphertext F) :=
  if params.technique = .NORESCALE then evalMultElementInPlace ciphertext plaintext.element
  else do
    let ctmorphed <- morphPlaintext cache plaintext ciphertext
    let (ciphertext, ctmorphed) <- adjustForMultInPlace cache params ciphertext ctmorphed
    let pt <- ctmorphed.elements[0]?
    let ciphertext <- evalMultElementInPlace ciphertext pt
    return { ciphertext with
      noiseScaleDeg := ciphertext.noiseScaleDeg + ctmorphed.noiseScaleDeg }

def evalMultInPlace (ciphertext : Ciphertext F) (plaintext : Plaintext F) :
    Option (Ciphertext F) := do
  let ciphertext <- evalMultRnsInPlace cache params ciphertext plaintext
  if params.technique ≠ .NORESCALE then
    return { ciphertext with
      scalingFactor := ciphertext.scalingFactor * ciphertext.scalingFactor }
  else return ciphertext

/-- `EvalMult` works on a clone. -/
def evalMult (ciphertext : Ciphertext F) (plaintext : Plaintext F) : Option (Ciphertext F) :=
  evalMultInPlace cache params ciphertext plaintext

/-- The ciphertext is adjusted too; `t` is the plaintext modulus. -/
def evalMultMutable (t : Nat) (ciphertext : Ciphertext F) (plaintext : Plaintext F) :
    Option (Ciphertext F × Ciphertext F) := do
  let ctmorphed <- morphPlaintext cache plaintext ciphertext
  let (ciphertext, ctmorphed) <- adjustForMultInPlace cache params ciphertext ctmorphed
  let pt <- ctmorphed.elements[0]?
  let result <- evalMultElementInPlace ciphertext pt
  let result : Ciphertext F := { result with
    noiseScaleDeg := ciphertext.noiseScaleDeg + ctmorphed.noiseScaleDeg
    scalingFactor := ciphertext.scalingFactor * ctmorphed.scalingFactor }
  if params.technique = .FLEXIBLEAUTO ∨ params.technique = .FLEXIBLEAUTOEXT then
    return (ciphertext, { result with
      scalingFactorInt := modMul ciphertext.scalingFactorInt ctmorphed.scalingFactorInt t })
  else return (ciphertext, result)

end Operations

/-! ## Metadata of a product -/

section Products

variable {F : Type} [Mul F] [Div F] [One F]

/-- The level, the degree and the scaling factor of a product of the operands. -/
structure ProductMetadata (ciphertext ctmorphed r : Ciphertext F) : Prop where
  level_eq : r.level = ciphertext.level
  noiseScaleDeg_eq : r.noiseScaleDeg = ciphertext.noiseScaleDeg + ctmorphed.noiseScaleDeg
  scalingFactor_eq : r.scalingFactor = ciphertext.scalingFactor * ctmorphed.scalingFactor

def operands (cache : Poly.TableCache) (params : LeveledParameters F)
    (ciphertext : Ciphertext F) (plaintext : Plaintext F) :
    Option (Ciphertext F × Ciphertext F) := do
  let ctmorphed <- morphPlaintext cache plaintext ciphertext
  adjustForMultInPlace cache params ciphertext ctmorphed

/-- All products are refused, or all have the metadata of the multiplied operands. -/
inductive ProductsAgree (cache : Poly.TableCache) (params : LeveledParameters F) (t : Nat)
    (ciphertext : Ciphertext F) (plaintext : Plaintext F) : Prop where
  | refused (hmult : evalMult cache params ciphertext plaintext = none)
      (hinPlace : evalMultInPlace cache params ciphertext plaintext = none)
      (hmutable : evalMultMutable cache params t ciphertext plaintext = none)
  | agree (c p r1 r2 r3 : Ciphertext F)
      (hoperands : operands cache params ciphertext plaintext = some (c, p))
      (hmult : evalMult cache params ciphertext plaintext = some r1)
      (hinPlace : evalMultInPlace cache params ciphertext plaintext = some r2)
      (hmutable : evalMultMutable cache params t ciphertext plaintext = some (c, r3))
      (h1 : ProductMetadata c p r1) (h2 : ProductMetadata c p r2) (h3 : ProductMetadata c p r3)

variable {cache : Poly.TableCache} {params : LeveledParameters F} {k : Nat}
  {psi : Nat -> Nat} {t : Nat} {ciphertext : Ciphertext F} {plaintext : Plaintext F}

omit [Mul F] [Div F] [One F] in
theorem evalMultElementInPlace_none {x pt : DCRTPoly} (hx : ciphertext.elements[0]? = some x)
    (hne : x.length ≠ pt.length) : evalMultElementInPlace ciphertext pt = none := by
  have hverify : verifyNumOfTowers ciphertext.elements [pt] = none := by
    rw [verifyNumOfTowers, hx]
    exact if_pos hne
  rw [evalMultElementInPlace, hverify]
  rfl

omit [Mul F] [Div F] [One F] in
theorem evalMultElementInPlace_spec (h : Setting cache params k psi)
    (hc : AtLevel params (2 ^ k) ciphertext) {pt : DCRTPoly}
    (hpt : DCRTPoly.WellFormed (2 ^ k) .EVALUATION
      (params.moduliQ.take (params.moduliQ.length - ciphertext.level)) pt) :
    exists cv, evalMultElementInPlace ciphertext pt = some { ciphertext with elements := cv } := by
  rcases hc.first with ⟨x, hx, hlength⟩
  have hverify : verifyNumOfTowers ciphertext.elements [pt] = some () := by
    rw [verifyNumOfTowers, hx]
    have hequal : ¬ x.length ≠ pt.length := by
      rw [hlength, hpt.length_eq, List.length_take]
      omega
    exact if_neg hequal
  rcases mapM_elements (f := fun c => DCRTPoly.timesEq c pt)
    (params.moduliQ.take (params.moduliQ.length - ciphertext.level)) hc.elements hc.ne_nil (by
      intro c _ hwf
      rcases DCRTPoly.timesEq_spec
        (fun q hq => (h.ready q (List.mem_of_mem_take hq)).modulus) hwf hpt with ⟨r, hr, hrwf, _⟩
      exact ⟨r, hr, hrwf⟩) with ⟨cv, hcv, _, _⟩
  refine ⟨cv, ?_⟩
  rw [evalMultElementInPlace, hverify]
  simp only [Option.bind_eq_bind, Option.bind_some, hcv]
  rfl

omit [Mul F] [Div F] [One F] in
theorem evalMultElementInPlace_coefficient {n : Nat} (hc : AtLevel params n ciphertext)
    {pt : DCRTPoly} (hpt : DCRTPoly.WellFormed n .COEFFICIENT
      (params.moduliQ.take (params.moduliQ.length - ciphertext.level)) pt) :
    evalMultElementInPlace ciphertext pt = none := by
  rcases hc.first with ⟨x, hx, hxlength⟩
  have hlevel := hc.level_lt
  have hlength : pt.length = params.moduliQ.length - ciphertext.level := by
    rw [hpt.length_eq, List.length_take]
    omega
  have hx0 := List.getElem?_eq_getElem (show 0 < x.length by omega)
  have hpt0 := List.getElem?_eq_getElem (show 0 < pt.length by omega)
  have hq0 := List.getElem?_eq_getElem
    (show 0 < (params.moduliQ.take (params.moduliQ.length - ciphertext.level)).length by
      rw [← hpt.length_eq]
      omega)
  have hformat := (hpt.get 0 _ _ hq0 hpt0).2.1
  have htower : Poly.times x[0] pt[0] = none := by
    unfold Poly.times
    split
    · rfl
    · split
      · rfl
      · rw [if_pos (Or.inr (by rw [hformat]; decide))]
  have htimes : DCRTPoly.timesEq x pt = none := by
    rw [DCRTPoly.timesEq, DCRTPoly.zipTowers]
    apply mapM_eq_none (List.mem_range.mpr (show 0 < x.length by omega))
    simp only [hx0, hpt0, Option.bind_eq_bind, Option.bind_some]
    exact htower
  unfold evalMultElementInPlace
  rw [mapM_eq_none (List.mem_of_getElem? hx) htimes]
  cases verifyNumOfTowers ciphertext.elements [pt] with
  | none => rfl
  | some _ => rfl

theorem operands_bind {γ : Type} (f : Ciphertext F × Ciphertext F -> Option γ) :
    ((morphPlaintext cache plaintext ciphertext).bind fun m =>
      (adjustForMultInPlace cache params ciphertext m).bind f) =
        (operands cache params ciphertext plaintext).bind f :=
  (Option.bind_assoc _ _ _).symm

theorem evalMultInPlace_eq (htech : params.technique ≠ .NORESCALE) :
    evalMultInPlace cache params ciphertext plaintext =
      (operands cache params ciphertext plaintext).bind fun cp => cp.2.elements[0]?.bind fun pt =>
        (evalMultElementInPlace cp.1 pt).map fun r => { r with
          noiseScaleDeg := r.noiseScaleDeg + cp.2.noiseScaleDeg
          scalingFactor := r.scalingFactor * r.scalingFactor } := by
  unfold evalMultInPlace evalMultRnsInPlace
  simp only [if_neg htech, if_pos htech, Option.bind_eq_bind]
  rw [operands_bind]
  cases operands cache params ciphertext plaintext with
  | none => rfl
  | some cp =>
      simp only [Option.bind_some]
      cases cp.2.elements[0]? with
      | none => rfl
      | some pt =>
          simp only [Option.bind_some]
          cases evalMultElementInPlace cp.1 pt with
          | none => rfl
          | some r => rfl

theorem evalMultMutable_eq :
    evalMultMutable cache params t ciphertext plaintext =
      (operands cache params ciphertext plaintext).bind fun cp => cp.2.elements[0]?.bind fun pt =>
        (evalMultElementInPlace cp.1 pt).map fun r => (cp.1, { r with
          noiseScaleDeg := cp.1.noiseScaleDeg + cp.2.noiseScaleDeg
          scalingFactor := cp.1.scalingFactor * cp.2.scalingFactor
          scalingFactorInt :=
            if params.technique = .FLEXIBLEAUTO ∨ params.technique = .FLEXIBLEAUTOEXT then
              modMul cp.1.scalingFactorInt cp.2.scalingFactorInt t
            else r.scalingFactorInt }) := by
  unfold evalMultMutable
  simp only [Option.bind_eq_bind]
  rw [operands_bind]
  cases operands cache params ciphertext plaintext with
  | none => rfl
  | some cp =>
      simp only [Option.bind_some]
      cases cp.2.elements[0]? with
      | none => rfl
      | some pt =>
          simp only [Option.bind_some]
          cases evalMultElementInPlace cp.1 pt with
          | none => rfl
          | some r =>
              simp only [Option.bind_some, Option.map_some]
              split
              · rfl
              · rfl

theorem ProductsAgree.of_operands_none (htech : params.technique ≠ .NORESCALE)
    (hnone : operands cache params ciphertext plaintext = none) :
    ProductsAgree cache params t ciphertext plaintext := by
  have hinPlace : evalMultInPlace cache params ciphertext plaintext = none := by
    rw [evalMultInPlace_eq htech, hnone]
    rfl
  apply ProductsAgree.refused hinPlace hinPlace
  rw [evalMultMutable_eq, hnone]
  rfl

theorem ProductsAgree.of_levels_ne (htech : params.technique ≠ .NORESCALE)
    {c p : Ciphertext F} (hoperands : operands cache params ciphertext plaintext = some (c, p))
    (hc : AtLevel params (2 ^ k) c) (hp : AtLevel params (2 ^ k) p) (hne : c.level ≠ p.level) :
    ProductsAgree cache params t ciphertext plaintext := by
  rcases hc.first with ⟨x, hx, hxlength⟩
  rcases hp.first with ⟨pt, hpt, hptlength⟩
  have hclevel := hc.level_lt
  have hplevel := hp.level_lt
  have hnone : evalMultElementInPlace c pt = none := evalMultElementInPlace_none hx (by omega)
  have hinPlace : evalMultInPlace cache params ciphertext plaintext = none := by
    rw [evalMultInPlace_eq htech, hoperands]
    simp only [Option.bind_some, hpt, hnone]
    rfl
  apply ProductsAgree.refused hinPlace hinPlace
  rw [evalMultMutable_eq, hoperands]
  simp only [Option.bind_some, hpt, hnone]
  rfl

theorem productsAgree_iff_of_level_eq (h : Setting cache params k psi)
    (htech : params.technique ≠ .NORESCALE) {c p : Ciphertext F}
    (hoperands : operands cache params ciphertext plaintext = some (c, p))
    (hc : AtLevel params (2 ^ k) c) (hp : AtLevel params (2 ^ k) p) (hlevel : c.level = p.level) :
    ProductsAgree cache params t ciphertext plaintext <->
      c.scalingFactor * c.scalingFactor = c.scalingFactor * p.scalingFactor := by
  rcases hp.first with ⟨pt, hpt, _⟩
  have hptwf := hp.elements pt (List.mem_of_getElem? hpt)
  rw [← hlevel] at hptwf
  rcases evalMultElementInPlace_spec h hc hptwf with ⟨cv, hcv⟩
  have hinPlace : evalMultInPlace cache params ciphertext plaintext = _ :=
    evalMultInPlace_eq htech
  have hmutable : evalMultMutable cache params t ciphertext plaintext = _ := evalMultMutable_eq
  rw [hoperands] at hinPlace hmutable
  simp only [Option.bind_some, hpt, hcv, Option.map_some] at hinPlace hmutable
  constructor
  · intro hagree
    cases hagree with
    | refused hmult => cases hmult.symm.trans hinPlace
    | agree c' p' r1 r2 r3 hoperands' hmult _ _ h1 =>
        cases hoperands.symm.trans hoperands'
        cases hmult.symm.trans hinPlace
        exact h1.scalingFactor_eq
  · intro hfactor
    exact .agree c p _ _ _ hoperands hinPlace hinPlace hmutable ⟨rfl, rfl, hfactor⟩
      ⟨rfl, rfl, hfactor⟩ ⟨rfl, rfl, rfl⟩

/-! ## Techniques -/

/-- The factors of the operands after their adjustment to the degree one. -/
def operandFactor (params : LeveledParameters F) (ciphertext : Ciphertext F)
    (plaintext : Plaintext F) : F :=
  let p := plaintext.toCiphertext ciphertext plaintext.element
  factorToOne params ciphertext p (adjustedFactor params ciphertext p)

def plaintextFactor (params : LeveledParameters F) (ciphertext : Ciphertext F)
    (plaintext : Plaintext F) : F :=
  let p := plaintext.toCiphertext ciphertext plaintext.element
  factorToOne params ciphertext p (adjustedFactor params p ciphertext)

/-- The adjustment to the degree one has the levels and the towers that it needs. -/
def Adjustable (params : LeveledParameters F) (ciphertext : Ciphertext F)
    (plaintext : Plaintext F) : Prop :=
  RoomBetween params ciphertext (plaintext.toCiphertext ciphertext plaintext.element) ∧
    TowersLeft params ciphertext (plaintext.toCiphertext ciphertext plaintext.element)

instance (ciphertext : Ciphertext F) (plaintext : Plaintext F) :
    Decidable (Adjustable params ciphertext plaintext) :=
  inferInstanceAs (Decidable (_ ∧ _))

/--
The square of the first factor is the product of the factors.  Without rescaling, the factor
and the degree of the ciphertext stay.
-/
def FactorsAgree (params : LeveledParameters F) (format : Format) (ciphertext : Ciphertext F)
    (plaintext : Plaintext F) : Prop :=
  if params.technique = .NORESCALE then
    ciphertext.level = plaintext.level -> format = .EVALUATION ∧ plaintext.noiseScaleDeg = 0 ∧
      ciphertext.scalingFactor = ciphertext.scalingFactor * plaintext.scalingFactor
  else if params.technique = .FIXEDMANUAL then
    ciphertext.scalingFactor * ciphertext.scalingFactor =
      ciphertext.scalingFactor * plaintext.scalingFactor
  else Adjustable params ciphertext plaintext ->
    operandFactor params ciphertext plaintext * operandFactor params ciphertext plaintext =
      operandFactor params ciphertext plaintext * plaintextFactor params ciphertext plaintext

/-- The element has the towers of the level of the plaintext, in either format. -/
structure Plaintext.AtLevel (params : LeveledParameters F) (n : Nat) (format : Format)
    (plaintext : Plaintext F) : Prop where
  level_lt : plaintext.level < params.moduliQ.length
  element : DCRTPoly.WellFormed n format
    (params.moduliQ.take (params.moduliQ.length - plaintext.level)) plaintext.element

variable {format : Format} (h : Setting cache params k psi)
  (hc : AtLevel params (2 ^ k) ciphertext) (hp : plaintext.AtLevel params (2 ^ k) format)

include h hp

omit [Mul F] [Div F] [One F] in
theorem morphPlaintext_spec (ciphertext : Ciphertext F) :
    exists elem, morphPlaintext cache plaintext ciphertext =
        some (plaintext.toCiphertext ciphertext elem) ∧
      AtLevel params (2 ^ k) (plaintext.toCiphertext ciphertext elem) := by
  rcases DCRTPoly.setFormat_wellFormed h.pos h.le
    (fun q hq => ⟨psi q, h.ready q (List.mem_of_mem_take hq)⟩) hp.element .EVALUATION with
    ⟨elem, helem, hwf⟩
  refine ⟨elem, ?_, hp.level_lt, List.cons_ne_nil _ _, ?_⟩
  · rw [morphPlaintext, helem]
    rfl
  · intro c hmem
    rw [List.mem_singleton.mp hmem]
    exact hwf

include hc

theorem operands_manual (htech : params.technique = .FIXEDMANUAL) :
    exists c p, operands cache params ciphertext plaintext = some (c, p) ∧
      AtLevel params (2 ^ k) c ∧ AtLevel params (2 ^ k) p ∧ c.level = p.level ∧
      c.scalingFactor = ciphertext.scalingFactor ∧
      p.scalingFactor = plaintext.scalingFactor := by
  rcases morphPlaintext_spec h hp ciphertext with ⟨elem, hmorph, hm⟩
  have hlevel : (plaintext.toCiphertext ciphertext elem).level = plaintext.level := rfl
  have hclevel := hc.level_lt
  have hplevel := hp.level_lt
  rcases hc.first with ⟨x, hx, hxlength⟩
  rcases hm.first with ⟨y, hy, hylength⟩
  rw [hlevel] at hylength
  rcases levelReduceBelow_spec hm x.length y.length (by omega) with ⟨p, hrunp, hpwf, hpl, _, hpf⟩
  rcases levelReduceBelow_spec hc y.length x.length (by omega) with ⟨c, hrunc, hcwf, hcl, _, hcf⟩
  refine ⟨c, p, ?_, hcwf, hpwf, by omega, hcf, hpf⟩
  unfold operands adjustForMultInPlace
  rw [hmorph]
  simp only [Option.bind_eq_bind, Option.bind_some, if_pos htech]
  unfold adjustLevelsInPlace
  simp only [hx, hy, Option.bind_eq_bind, Option.bind_some, hrunp, hrunc]
  rfl

omit hp in
theorem productsAgree_auto (htech : params.technique ≠ .NORESCALE)
    (hmanual : params.technique ≠ .FIXEDMANUAL)
    (hp : plaintext.AtLevel params (2 ^ k) format) :
    ProductsAgree cache params t ciphertext plaintext <->
      (Adjustable params ciphertext plaintext ->
        operandFactor params ciphertext plaintext * operandFactor params ciphertext plaintext =
          operandFactor params ciphertext plaintext *
            plaintextFactor params ciphertext plaintext) := by
  rcases morphPlaintext_spec h hp ciphertext with ⟨elem, hmorph, hm⟩
  have hoperands : operands cache params ciphertext plaintext =
      adjustLevelsAndDepthToOneInPlace cache params ciphertext
        (plaintext.toCiphertext ciphertext elem) := by
    unfold operands adjustForMultInPlace
    rw [hmorph]
    simp only [Option.bind_eq_bind, Option.bind_some, if_neg hmanual, if_pos htech]
  by_cases hroom : RoomBetween params ciphertext (plaintext.toCiphertext ciphertext elem)
  · by_cases hleft : TowersLeft params ciphertext (plaintext.toCiphertext ciphertext elem)
    · rcases adjustLevelsAndDepthToOneInPlace_spec h hc hm hroom hleft with ⟨c, p, hrun, hone⟩
      rw [productsAgree_iff_of_level_eq h htech (hoperands.trans hrun) hone.first hone.second
        hone.level_eq, hone.first_factor, hone.second_factor]
      exact ⟨fun hfactor _ => hfactor, fun himp => himp ⟨hroom, hleft⟩⟩
    · have hnone := adjustLevelsAndDepthToOneInPlace_last h hc hm hroom hleft
      exact ⟨fun _ hadjustable => absurd hadjustable.2 hleft,
        fun _ => .of_operands_none htech (hoperands.trans hnone)⟩
  · constructor
    · intro _ hadjustable
      exact absurd hadjustable.1 hroom
    · intro _
      rcases adjustLevelsAndDepthToOneInPlace_noRoom h hc hm hroom with
        hnone | ⟨c, p, hrun, hcwf, hpwf, hne⟩
      · exact .of_operands_none htech (hoperands.trans hnone)
      · exact .of_levels_ne htech (hoperands.trans hrun) hcwf hpwf hne

theorem productsAgree_noRescale (htech : params.technique = .NORESCALE) :
    ProductsAgree cache params t ciphertext plaintext <->
      (ciphertext.level = plaintext.level -> format = .EVALUATION ∧
        plaintext.noiseScaleDeg = 0 ∧
        ciphertext.scalingFactor = ciphertext.scalingFactor * plaintext.scalingFactor) := by
  rcases morphPlaintext_spec h hp ciphertext with ⟨elem, hmorph, hm⟩
  have hclevel := hc.level_lt
  have hplevel := hp.level_lt
  rcases hc.first with ⟨x, hx, hxlength⟩
  have hlength : plaintext.element.length = params.moduliQ.length - plaintext.level := by
    rw [hp.element.length_eq, List.length_take]
    omega
  have helength : elem.length = params.moduliQ.length - plaintext.level :=
    hm.length_eq (List.mem_singleton_self _)
  have hoperands : operands cache params ciphertext plaintext =
      some (ciphertext, plaintext.toCiphertext ciphertext elem) := by
    unfold operands adjustForMultInPlace
    rw [hmorph]
    simp only [Option.bind_eq_bind, Option.bind_some, htech]
    rfl
  have hinPlace : evalMultInPlace cache params ciphertext plaintext =
      evalMultElementInPlace ciphertext plaintext.element := by
    unfold evalMultInPlace evalMultRnsInPlace
    rw [if_pos htech]
    simp only [htech, ne_eq, not_true_eq_false, if_false]
    exact Option.bind_fun_some _
  have hmutable : evalMultMutable cache params t ciphertext plaintext = _ := evalMultMutable_eq
  rw [hoperands] at hmutable
  have hfirst : (plaintext.toCiphertext ciphertext elem).elements[0]? = some elem := rfl
  simp only [Option.bind_some, hfirst] at hmutable
  rcases eq_or_ne ciphertext.level plaintext.level with hlevel | hne
  · have hwf := hm.elements elem (List.mem_singleton_self _)
    rw [show (plaintext.toCiphertext ciphertext elem).level = ciphertext.level from hlevel.symm]
      at hwf
    rcases evalMultElementInPlace_spec h hc hwf with ⟨cv, hcv⟩
    rw [hcv, Option.map_some] at hmutable
    constructor
    · intro hagree _
      cases hagree with
      | refused _ _ hrefused => cases hrefused.symm.trans hmutable
      | agree c p r1 r2 r3 hoperands' hmult _ _ h1 =>
          cases hoperands.symm.trans hoperands'
          have hpwf := hp.element
          rw [← hlevel] at hpwf
          have hrun := hinPlace.symm.trans hmult
          cases format with
          | COEFFICIENT =>
              cases (evalMultElementInPlace_coefficient hc hpwf).symm.trans hrun
          | EVALUATION =>
              rcases evalMultElementInPlace_spec h hc hpwf with ⟨cv', hcv'⟩
              cases hcv'.symm.trans hrun
              have hdegree : ciphertext.noiseScaleDeg =
                ciphertext.noiseScaleDeg + plaintext.noiseScaleDeg := h1.noiseScaleDeg_eq
              exact ⟨rfl, by omega, h1.scalingFactor_eq⟩
    · intro hcond
      rcases hcond hlevel with ⟨rfl, hdegree, hfactor⟩
      have hpwf := hp.element
      rw [← hlevel] at hpwf
      rcases evalMultElementInPlace_spec h hc hpwf with ⟨cv', hcv'⟩
      rw [hcv'] at hinPlace
      have hproduct : ProductMetadata ciphertext (plaintext.toCiphertext ciphertext elem)
          { ciphertext with elements := cv' } := by
        constructor
        · rfl
        · show ciphertext.noiseScaleDeg = ciphertext.noiseScaleDeg + plaintext.noiseScaleDeg
          rw [hdegree, Nat.add_zero]
        · exact hfactor
      exact .agree _ _ _ _ _ hoperands hinPlace hinPlace hmutable hproduct hproduct
        ⟨rfl, rfl, rfl⟩
  · have hrefused : evalMultInPlace cache params ciphertext plaintext = none := by
      rw [hinPlace]
      exact evalMultElementInPlace_none hx (by omega)
    constructor
    · intro _ hlevel
      exact absurd hlevel hne
    · intro _
      apply ProductsAgree.refused hrefused hrefused
      rw [hmutable, evalMultElementInPlace_none hx (by omega)]
      rfl

/-- The products agree exactly if the square of one factor is the product of both. -/
theorem productsAgree_iff : ProductsAgree cache params t ciphertext plaintext <->
    FactorsAgree params format ciphertext plaintext := by
  unfold FactorsAgree
  by_cases htech : params.technique = .NORESCALE
  · rw [if_pos htech]
    exact productsAgree_noRescale h hc hp htech
  · rw [if_neg htech]
    by_cases hmanual : params.technique = .FIXEDMANUAL
    · rw [if_pos hmanual]
      rcases operands_manual h hc hp hmanual with ⟨c, p, hrun, hcwf, hpwf, hlevel, hcf, hpf⟩
      rw [productsAgree_iff_of_level_eq h htech hrun hcwf hpwf hlevel, hcf, hpf]
    · rw [if_neg hmanual]
      exact productsAgree_auto h hc htech hmanual hp

end Products

/-!
## Small parameters
-/

def smallManual : LeveledParameters Nat := { smallLeveled with technique := .FIXEDMANUAL }

theorem smallManualSetting : Setting Poly.smallCache smallManual 1 Poly.smallRoot :=
  ⟨smallLeveledSetting.pos, smallLeveledSetting.le, smallLeveledSetting.ready,
    smallLeveledSetting.coprime, smallLeveledSetting.compositeDegree⟩

theorem smallManualAtLevel (factor : Nat) :
    AtLevel smallManual (2 ^ 1) (smallLeveledCiphertext 0 1 factor) :=
  ⟨(smallAtLevel (by decide) 1 factor).level_lt, List.cons_ne_nil _ _,
    (smallAtLevel (by decide) 1 factor).elements⟩

/-- A plaintext encoded with a degree has that power of the factor. -/
def smallPlaintext (degree : Nat) : Plaintext Nat where
  element := DCRTPoly.constant smallLeveled.moduliQ [3, 4]
  noiseScaleDeg := degree
  scalingFactor := 16 ^ degree
  scalingFactorInt := 1
  level := 0
  slots := 1

theorem smallPlaintextAtLevel (degree : Nat) :
    (smallPlaintext degree).AtLevel smallManual (2 ^ 1) .EVALUATION := by
  refine ⟨(by decide : 0 < 3), ?_⟩
  apply DCRTPoly.constant_wellFormed [3, 4] rfl
  intro q hq x hx
  have hmem : q ∈ [5, 13, 17] := hq
  fin_cases hmem <;> fin_cases hx <;> decide

/-- Equal factors of a manual product. -/
theorem productsAgree_manual : ProductsAgree Poly.smallCache smallManual 50
    (smallLeveledCiphertext 0 1 16) (smallPlaintext 1) :=
  (productsAgree_iff smallManualSetting (smallManualAtLevel 16) (smallPlaintextAtLevel 1)).mpr (by
    unfold FactorsAgree
    decide)

/-- A plaintext of the degree two has the square of the factor. -/
theorem not_productsAgree_manual : ¬ ProductsAgree Poly.smallCache smallManual 50
    (smallLeveledCiphertext 0 1 16) (smallPlaintext 2) := by
  intro hagree
  rcases operands_manual smallManualSetting (smallManualAtLevel 16) (smallPlaintextAtLevel 2) rfl
    with ⟨c, p, hrun, hc, hp, hlevel, hcf, hpf⟩
  rw [productsAgree_iff_of_level_eq smallManualSetting (by decide) hrun hc hp hlevel, hcf, hpf]
    at hagree
  exact absurd hagree (by decide)

end Ckksrns
end Scheme
end OpenFHE
