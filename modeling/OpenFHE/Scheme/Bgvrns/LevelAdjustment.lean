import OpenFHE.Scheme.Ckksrns.LevelAdjustment

/-!
# Adjustment of levels in BGV

The scaling factors are integers modulo the plaintext modulus.  A rescaling divides by the last
modulus after a multiple of the plaintext modulus has been added.
-/

namespace OpenFHE
namespace Scheme
namespace Bgvrns

open OpenFHE.Core Foundation Hal NativeInteger
open Ckksrns (levelReduceInternalInPlace levelReduceBelow Leveled lowerDegree)

structure LeveledParameters where
  moduliQ : List Nat
  technique : ScalingTechnique
  plaintextModulus : Nat
  scalingFactorsIntBig : List Nat
  fixedSF : Nat

namespace LeveledParameters

variable (params : LeveledParameters)

/-- The techniques with a table of scaling factors. -/
def HasTables : Prop :=
  params.technique = .FLEXIBLEAUTO ∨ params.technique = .FLEXIBLEAUTOEXT ∨
    params.technique = .COMPOSITESCALINGAUTO ∨ params.technique = .COMPOSITESCALINGMANUAL

instance : Decidable params.HasTables :=
  inferInstanceAs (Decidable (_ ∨ _ ∨ _ ∨ _))

/-- The techniques under which the ciphertexts keep track of their factors. -/
def Flexible : Prop :=
  params.technique = .FLEXIBLEAUTO ∨ params.technique = .FLEXIBLEAUTOEXT

instance : Decidable params.Flexible :=
  inferInstanceAs (Decidable (_ ∨ _))

def getScalingFactorIntBig (l : Nat) : Nat :=
  if params.HasTables then params.scalingFactorsIntBig.getD l params.fixedSF
  else params.fixedSF

def getModReduceFactorInt (l : Nat) : Option Nat :=
  if params.HasTables then params.moduliQ[l]?.map (· % params.plaintextModulus)
  else some params.fixedSF

def negtInvModq (i : Nat) : Option Nat := do
  let q <- params.moduliQ[i]?
  DCRTPoly.negtInvModq params.plaintextModulus q

def qlInvModq (i : Nat) : Option (List Nat) := do
  let q <- params.moduliQ[i]?
  DCRTPoly.qlInvModq (params.moduliQ.take i) q

end LeveledParameters

/-! ## Operations -/

section Operations

variable {F : Type} (cache : Poly.TableCache) (params : LeveledParameters)

def evalMultCoreInPlace (ciphertext : Ciphertext F) (scalar : Nat) : Option (Ciphertext F) := do
  let cv <- ciphertext.elements.mapM fun c => DCRTPoly.timesInteger c scalar
  return { ciphertext with
    elements := cv
    noiseScaleDeg := ciphertext.noiseScaleDeg + 1
    scalingFactorInt :=
      if params.Flexible then
        modMul ciphertext.scalingFactorInt scalar params.plaintextModulus
      else ciphertext.scalingFactorInt }

def divideByLast (sizeQl : Nat) (c : DCRTPoly) (j : Nat) : Option DCRTPoly := do
  let i := sizeQl - 1 - j
  let negtInv <- params.negtInvModq i
  let qlInv <- params.qlInvModq i
  DCRTPoly.modReduce cache params.plaintextModulus negtInv qlInv .EVALUATION c

def rescaledFactorInt (sizeQl levels factor : Nat) : Option Nat :=
  (List.range levels).foldlM (fun factor i => do
    let modReduceFactor <- params.getModReduceFactorInt (sizeQl - 1 - i)
    let modReduceFactorInv <- modInverse modReduceFactor params.plaintextModulus
    return modMul factor modReduceFactorInv params.plaintextModulus) factor

def modReduceInternalInPlace (ciphertext : Ciphertext F) (levels : Nat) :
    Option (Ciphertext F) := do
  let cv0 <- ciphertext.elements[0]?
  let sizeQl := cv0.length
  if levels < sizeQl ∧ 0 < sizeQl then
    let cv <- ciphertext.elements.mapM fun c =>
      (List.range levels).foldlM (divideByLast cache params sizeQl) c
    let factor <- (if params.Flexible then
        rescaledFactorInt params sizeQl levels ciphertext.scalingFactorInt
      else some ciphertext.scalingFactorInt)
    return { ciphertext with
      elements := cv
      level := ciphertext.level + levels
      noiseScaleDeg := ciphertext.noiseScaleDeg - levels
      scalingFactorInt := factor }
  else none

/-- The branch for a first ciphertext at a lower level than the second one. -/
def adjustLower (ciphertext1 ciphertext2 : Ciphertext F) : Option (Ciphertext F) := do
  let cv0 <- ciphertext1.elements[0]?
  let sizeQl1 := cv0.length
  let t := params.plaintextModulus
  let c1lvl := ciphertext1.level
  let c2lvl := ciphertext2.level
  let scf1 := ciphertext1.scalingFactorInt
  if ciphertext1.noiseScaleDeg = 2 then
    if ciphertext2.noiseScaleDeg = 2 then do
      let scf2 := ciphertext2.scalingFactorInt
      let ql1Modt <- params.getModReduceFactorInt (sizeQl1 - 1)
      let scf1Inv <- modInverse scf1 t
      let c <- evalMultCoreInPlace params ciphertext1 (modMul (modMul scf2 scf1Inv t) ql1Modt t)
      let c <- modReduceInternalInPlace cache params c 1
      let c <- levelReduceBelow c (c1lvl + 1) c2lvl
      return { c with scalingFactorInt := ciphertext2.scalingFactorInt }
    else if c1lvl + 1 = c2lvl then
      modReduceInternalInPlace cache params ciphertext1 1
    else do
      let scf2 := params.getScalingFactorIntBig (c2lvl - 1)
      let ql1Modt <- params.getModReduceFactorInt (sizeQl1 - 1)
      let scf1Inv <- modInverse scf1 t
      let c <- evalMultCoreInPlace params ciphertext1 (modMul (modMul scf2 scf1Inv t) ql1Modt t)
      let c <- modReduceInternalInPlace cache params c 1
      let c <- levelReduceBelow c (c1lvl + 2) c2lvl
      let c <- modReduceInternalInPlace cache params c 1
      return { c with scalingFactorInt := ciphertext2.scalingFactorInt }
  else if ciphertext2.noiseScaleDeg = 2 then do
    let scf2 := ciphertext2.scalingFactorInt
    let scf1Inv <- modInverse scf1 t
    let c <- evalMultCoreInPlace params ciphertext1 (modMul scf2 scf1Inv t)
    let c <- levelReduceInternalInPlace c (c2lvl - c1lvl)
    return { c with scalingFactorInt := scf2 }
  else do
    let scf2 := params.getScalingFactorIntBig (c2lvl - 1)
    let scf1Inv <- modInverse scf1 t
    let c <- evalMultCoreInPlace params ciphertext1 (modMul scf2 scf1Inv t)
    let c <- levelReduceBelow c (c1lvl + 1) c2lvl
    let c <- modReduceInternalInPlace cache params c 1
    return { c with scalingFactorInt := ciphertext2.scalingFactorInt }

/--
The second branch is the first one with the ciphertexts exchanged.  At one level the ciphertext
of the lower degree is multiplied by its own factor.
-/
def adjustLevelsAndDepthInPlace (ciphertext1 ciphertext2 : Ciphertext F) :
    Option (Ciphertext F × Ciphertext F) :=
  if ciphertext1.level < ciphertext2.level then
    (adjustLower cache params ciphertext1 ciphertext2).map fun c => (c, ciphertext2)
  else if ciphertext1.level > ciphertext2.level then
    (adjustLower cache params ciphertext2 ciphertext1).map fun c => (ciphertext1, c)
  else if ciphertext1.noiseScaleDeg < ciphertext2.noiseScaleDeg then
    (evalMultCoreInPlace params ciphertext1 ciphertext1.scalingFactorInt).map
      fun c => (c, ciphertext2)
  else if ciphertext2.noiseScaleDeg < ciphertext1.noiseScaleDeg then
    (evalMultCoreInPlace params ciphertext2 ciphertext2.scalingFactorInt).map
      fun c => (ciphertext1, c)
  else some (ciphertext1, ciphertext2)

end Operations

/-! ## Rescaling -/

section Rescaling

variable {F : Type} {cache : Poly.TableCache} {params : LeveledParameters} {k : Nat}
  {psi : Nat -> Nat}

/-- The chain is ready for the transforms, and coprime to the plaintext modulus. -/
structure Setting (cache : Poly.TableCache) (params : LeveledParameters) (k : Nat)
    (psi : Nat -> Nat) : Prop where
  pos : 0 < k
  le : k <= 31
  ready : DCRTPoly.ReadyChain cache k psi params.moduliQ
  coprime : params.moduliQ.Pairwise Nat.Coprime
  plaintext : forall q, q ∈ params.moduliQ -> Nat.gcd params.plaintextModulus q = 1

variable (h : Setting cache params k psi)

include h

theorem divideByLast_encodes {m sizeQl j q : Nat} {c : DCRTPoly} {x : Nat -> Int} (hm : 0 < m)
    (hindex : sizeQl - 1 - j = m) (hq : params.moduliQ[m]? = some q)
    (hc : DCRTPoly.Encodes k psi .EVALUATION (params.moduliQ.take (m + 1)) x c) :
    exists r y, divideByLast cache params sizeQl c j = some r ∧
      DCRTPoly.Encodes k psi .EVALUATION (params.moduliQ.take m) y r ∧
      forall i, exists delta : Int, (q : Int) * y i = x i + params.plaintextModulus * delta ∧
        2 * |delta| <= q := by
  have hl := (List.getElem?_eq_some_iff.mp hq).1
  have hsplit : params.moduliQ.take (m + 1) = params.moduliQ.take m ++ [q] := by
    rw [List.take_add_one, hq]
    rfl
  have hready : DCRTPoly.ReadyChain cache k psi (params.moduliQ.take m ++ [q]) :=
    fun p hp => h.ready p (by rw [<- hsplit] at hp; exact List.mem_of_mem_take hp)
  have hcoprime : (params.moduliQ.take m ++ [q]).Pairwise Nat.Coprime := by
    rw [<- hsplit]
    exact h.coprime.sublist (List.take_sublist _ _)
  have hne : params.moduliQ.take m ≠ [] := by
    rw [<- List.length_pos_iff, List.length_take]
    omega
  rw [hsplit] at hc
  rcases DCRTPoly.modReduce_encodes h.pos h.le hready hne hc
    (fun p hp => (List.pairwise_append.mp hcoprime).2.2 p hp _ (List.mem_singleton_self _))
    (h.plaintext q (List.mem_of_getElem? hq)) with
    ⟨negtInv, inverses, r, y, delta, hnegtInv, hinverses, hr, hy, hencodes⟩
  refine ⟨r, y, ?_, hencodes, fun i => ⟨delta i, hy i⟩⟩
  unfold divideByLast LeveledParameters.negtInvModq LeveledParameters.qlInvModq
  simp only [hindex, hq, Option.bind_eq_bind, Option.bind_some, hnegtInv, hinverses]
  exact hr

theorem divideByLast_run {n sizeQl : Nat} {c : DCRTPoly} {x : Nat -> Int} (hn : n < sizeQl)
    (hle : sizeQl <= params.moduliQ.length)
    (hc : DCRTPoly.Encodes k psi .EVALUATION (params.moduliQ.take sizeQl) x c) :
    exists r y, (List.range n).foldlM (divideByLast cache params sizeQl) c = some r ∧
      DCRTPoly.Encodes k psi .EVALUATION (params.moduliQ.take (sizeQl - n)) y r ∧
      DCRTPoly.DividedBy params.plaintextModulus
        ((params.moduliQ.take sizeQl).drop (sizeQl - n)).prod x y := by
  rcases foldlM_range_spec (n := n) (s := c) (f := divideByLast cache params sizeQl)
    (fun i r => exists y,
      DCRTPoly.Encodes k psi .EVALUATION (params.moduliQ.take (sizeQl - i)) y r ∧
      DCRTPoly.DividedBy params.plaintextModulus
        ((params.moduliQ.take sizeQl).drop (sizeQl - i)).prod x y)
    (by
      refine ⟨x, hc, ?_⟩
      rw [Nat.sub_zero, List.drop_of_length_le (by rw [List.length_take]; omega), List.prod_nil]
      exact DCRTPoly.DividedBy.refl _ x)
    (by
      rintro i hi r ⟨y, hy, hdivided⟩
      have hm : sizeQl - i = sizeQl - i - 1 + 1 := by omega
      have hlt : sizeQl - i - 1 < params.moduliQ.length := by omega
      have hq := List.getElem?_eq_getElem hlt
      rw [hm] at hy
      rcases divideByLast_encodes h (show 0 < sizeQl - i - 1 by omega)
        (show sizeQl - 1 - i = sizeQl - i - 1 by omega) hq hy with ⟨r', z, hr', hz, hquotient⟩
      refine ⟨r', hr', z, ?_, ?_⟩
      · rw [show sizeQl - (i + 1) = sizeQl - i - 1 by omega]
        exact hz
      · have hdrop : (params.moduliQ.take sizeQl).drop (sizeQl - (i + 1)) =
            params.moduliQ[sizeQl - i - 1] ::
              (params.moduliQ.take sizeQl).drop (sizeQl - i) := by
          rw [show sizeQl - (i + 1) = sizeQl - i - 1 by omega,
            List.drop_eq_getElem_cons (by rw [List.length_take]; omega), <- hm,
            List.getElem_take]
        rw [hdrop, List.prod_cons]
        exact hdivided.step (h.ready _ (List.getElem_mem hlt)).modulus.one_lt hquotient) with
    ⟨r, hr, y, hy, hdivided⟩
  exact ⟨r, y, hr, hy, hdivided⟩

end Rescaling

/-! ## Levels -/

section Levels

variable {F : Type} {cache : Poly.TableCache} {params : LeveledParameters} {k : Nat}
  {psi : Nat -> Nat} (h : Setting cache params k psi) {c r : Ciphertext F}
  (hc : Leveled params.moduliQ (2 ^ k) c)

include h hc

theorem evalMultCoreInPlace_spec (scalar : Nat)
    (hrun : evalMultCoreInPlace params c scalar = some r) :
    Leveled params.moduliQ (2 ^ k) r ∧ r.level = c.level ∧
      r.noiseScaleDeg = c.noiseScaleDeg + 1 := by
  rcases Ckksrns.mapM_elements (f := fun y => DCRTPoly.timesInteger y scalar)
    (params.moduliQ.take (params.moduliQ.length - c.level)) hc.elements hc.ne_nil (by
      intro y _ hwf
      rcases DCRTPoly.timesInteger_spec
        (fun q hq => (h.ready q (List.mem_of_mem_take hq)).modulus) hwf scalar with
        ⟨z, hz, hzwf, _⟩
      exact ⟨z, hz, hzwf⟩) with ⟨cv, hcv, hne, hwf⟩
  unfold evalMultCoreInPlace at hrun
  rw [hcv] at hrun
  cases hrun
  exact ⟨⟨hc.level_lt, hne, hwf⟩, rfl, rfl⟩

theorem modReduceInternalInPlace_spec {levels : Nat}
    (hrun : modReduceInternalInPlace cache params c levels = some r) :
    Leveled params.moduliQ (2 ^ k) r ∧ r.level = c.level + levels ∧
      r.noiseScaleDeg = c.noiseScaleDeg - levels := by
  have hlevel := hc.level_lt
  rcases hc.first with ⟨x, hx, _, hlength⟩
  unfold modReduceInternalInPlace at hrun
  simp only [hx, Option.bind_eq_bind, Option.bind_some, hlength] at hrun
  split at hrun
  · next hroom =>
      rcases Ckksrns.mapM_elements (f := fun y => (List.range levels).foldlM
          (divideByLast cache params (params.moduliQ.length - c.level)) y)
        (params.moduliQ.take (params.moduliQ.length - c.level - levels)) hc.elements hc.ne_nil (by
          intro y _ hwf
          rcases hwf.exists_encodes h.pos h.le
            (fun q hq => h.ready q (List.mem_of_mem_take hq))
            (h.coprime.sublist (List.take_sublist _ _)) with ⟨p, _, _, hencodes⟩
          rcases divideByLast_run h hroom.1 (Nat.sub_le _ _) hencodes with ⟨z, w, hz, hw, _⟩
          exact ⟨z, hz, DCRTPoly.Denotes.wellFormed hw⟩) with ⟨cv, hcv, hne, hwf⟩
      rw [hcv, Option.bind_some] at hrun
      rcases Option.bind_eq_some_iff.mp hrun with ⟨factor, _, hr⟩
      cases hr
      refine ⟨⟨?_, hne, ?_⟩, rfl, rfl⟩
      · show c.level + levels < params.moduliQ.length
        omega
      · show WellFormedElements (2 ^ k)
          (params.moduliQ.take (params.moduliQ.length - (c.level + levels))) cv
        rw [<- Nat.sub_sub]
        exact hwf
  · cases hrun

omit h in
theorem levelReduceInternalInPlace_spec {levels : Nat}
    (hrun : levelReduceInternalInPlace c levels = some r) :
    Leveled params.moduliQ (2 ^ k) r ∧ r.level = c.level + levels ∧
      r.noiseScaleDeg = c.noiseScaleDeg := by
  rcases Nat.lt_or_ge (c.level + levels) params.moduliQ.length with hlt | hge
  · rcases Ckksrns.levelReduceInternalInPlace_leveled hc levels hlt with ⟨cv, hcv, hr⟩
    cases hcv.symm.trans hrun
    exact ⟨hr, rfl, rfl⟩
  · cases (Ckksrns.levelReduceInternalInPlace_none hc hge).symm.trans hrun

omit h in
theorem levelReduceBelow_spec {below target : Nat}
    (hrun : levelReduceBelow c below target = some r) :
    Leveled params.moduliQ (2 ^ k) r ∧ r.noiseScaleDeg = c.noiseScaleDeg := by
  unfold Ckksrns.levelReduceBelow at hrun
  split at hrun
  · rcases levelReduceInternalInPlace_spec hc hrun with ⟨hr, _, hdegree⟩
    exact ⟨hr, hdegree⟩
  · cases hrun
    exact ⟨hc, rfl⟩

omit h in
theorem leveled_withFactor (factor : Nat) :
    Leveled params.moduliQ (2 ^ k) { c with scalingFactorInt := factor } :=
  ⟨hc.level_lt, hc.ne_nil, hc.elements⟩

theorem adjustLower_spec {c2 : Ciphertext F} (hrun : adjustLower cache params c c2 = some r) :
    Leveled params.moduliQ (2 ^ k) r ∧
      r.noiseScaleDeg = lowerDegree c.noiseScaleDeg c2.noiseScaleDeg := by
  rcases hc.first with ⟨x, hx, _, _⟩
  unfold adjustLower at hrun
  unfold Ckksrns.lowerDegree
  simp only [hx, Option.bind_eq_bind, Option.bind_some] at hrun
  by_cases htwo1 : c.noiseScaleDeg = 2
  · rw [if_pos htwo1] at hrun
    rw [if_pos htwo1]
    by_cases htwo2 : c2.noiseScaleDeg = 2
    · rw [if_pos htwo2] at hrun
      rw [if_pos htwo2]
      rcases Option.bind_eq_some_iff.mp hrun with ⟨factor, _, hrun⟩
      rcases Option.bind_eq_some_iff.mp hrun with ⟨inverse, _, hrun⟩
      rcases Option.bind_eq_some_iff.mp hrun with ⟨a, ha, hrun⟩
      rcases Option.bind_eq_some_iff.mp hrun with ⟨b, hb, hrun⟩
      rcases Option.bind_eq_some_iff.mp hrun with ⟨d, hd, hrun⟩
      cases hrun
      rcases evalMultCoreInPlace_spec h hc _ ha with ⟨hawf, _, hadeg⟩
      rcases modReduceInternalInPlace_spec h hawf hb with ⟨hbwf, _, hbdeg⟩
      rcases levelReduceBelow_spec hbwf hd with ⟨hdwf, hddeg⟩
      exact ⟨leveled_withFactor hdwf _, by rw [hddeg, hbdeg, hadeg, htwo1]⟩
    · rw [if_neg htwo2] at hrun
      rw [if_neg htwo2]
      by_cases hnext : c.level + 1 = c2.level
      · rw [if_pos hnext] at hrun
        rcases modReduceInternalInPlace_spec h hc hrun with ⟨hrwf, _, hdeg⟩
        exact ⟨hrwf, by rw [hdeg, htwo1]⟩
      · rw [if_neg hnext] at hrun
        rcases Option.bind_eq_some_iff.mp hrun with ⟨factor, _, hrun⟩
        rcases Option.bind_eq_some_iff.mp hrun with ⟨inverse, _, hrun⟩
        rcases Option.bind_eq_some_iff.mp hrun with ⟨a, ha, hrun⟩
        rcases Option.bind_eq_some_iff.mp hrun with ⟨b, hb, hrun⟩
        rcases Option.bind_eq_some_iff.mp hrun with ⟨d, hd, hrun⟩
        rcases Option.bind_eq_some_iff.mp hrun with ⟨e, he, hrun⟩
        cases hrun
        rcases evalMultCoreInPlace_spec h hc _ ha with ⟨hawf, _, hadeg⟩
        rcases modReduceInternalInPlace_spec h hawf hb with ⟨hbwf, _, hbdeg⟩
        rcases levelReduceBelow_spec hbwf hd with ⟨hdwf, hddeg⟩
        rcases modReduceInternalInPlace_spec h hdwf he with ⟨hewf, _, hedeg⟩
        exact ⟨leveled_withFactor hewf _, by rw [hedeg, hddeg, hbdeg, hadeg, htwo1]⟩
  · rw [if_neg htwo1] at hrun
    rw [if_neg htwo1]
    by_cases htwo2 : c2.noiseScaleDeg = 2
    · rw [if_pos htwo2] at hrun
      rw [if_pos htwo2]
      rcases Option.bind_eq_some_iff.mp hrun with ⟨inverse, _, hrun⟩
      rcases Option.bind_eq_some_iff.mp hrun with ⟨a, ha, hrun⟩
      rcases Option.bind_eq_some_iff.mp hrun with ⟨b, hb, hrun⟩
      cases hrun
      rcases evalMultCoreInPlace_spec h hc _ ha with ⟨hawf, _, hadeg⟩
      rcases levelReduceInternalInPlace_spec hawf hb with ⟨hbwf, _, hbdeg⟩
      exact ⟨leveled_withFactor hbwf _, by rw [hbdeg, hadeg]⟩
    · rw [if_neg htwo2] at hrun
      rw [if_neg htwo2]
      rcases Option.bind_eq_some_iff.mp hrun with ⟨inverse, _, hrun⟩
      rcases Option.bind_eq_some_iff.mp hrun with ⟨a, ha, hrun⟩
      rcases Option.bind_eq_some_iff.mp hrun with ⟨b, hb, hrun⟩
      rcases Option.bind_eq_some_iff.mp hrun with ⟨d, hd, hrun⟩
      cases hrun
      rcases evalMultCoreInPlace_spec h hc _ ha with ⟨hawf, _, hadeg⟩
      rcases levelReduceBelow_spec hawf hb with ⟨hbwf, hbdeg⟩
      rcases modReduceInternalInPlace_spec h hbwf hd with ⟨hdwf, _, hddeg⟩
      refine ⟨leveled_withFactor hdwf _, ?_⟩
      show d.noiseScaleDeg = c.noiseScaleDeg
      rw [hddeg, hbdeg, hadeg, Nat.add_sub_cancel]

end Levels

end Bgvrns
end Scheme
end OpenFHE
