import OpenFHE.Core.BigInteger.ModInverse
import OpenFHE.Foundation.ChineseRemainder
import OpenFHE.Hal.Automorphism

/-!
# Interpolation of the towers

`CRTInterpolate` finds the large polynomial whose residues are the towers,
`CRTInterpolateIndex` one of its coefficients; the constructor from a large polynomial
takes the residues.
-/

namespace OpenFHE
namespace Hal
namespace DCRTPoly

open OpenFHE.Core Foundation BigInteger Finset

def bigModulus (a : DCRTPoly) : Nat := (a.map Poly.modulus).prod

/-- The constructor from a large polynomial; the towers start with zeros. -/
def ofPolyLarge (moduli : List Nat) (ringDimension : Nat) (rhs : Poly) : Option DCRTPoly :=
  let rdim := rhs.values.length
  if rdim > ringDimension then none
  else
    moduli.mapM fun m =>
      if m = 0 then none
      else
        some { modulus := m, format := rhs.format,
               values := rhs.values.map (· % m) ++ List.replicate (ringDimension - rdim) 0 }

/-- `qt/qi * [(qt/qi)^(-1) mod qi]`. -/
def crtMultiplier (qt qi : Nat) : Option Nat :=
  if qi = 0 then none
  else
    let tmp2 := qt / qi
    (modInverse tmp2 qi).map fun inverse => inverse * tmp2

def crtTerm (a : DCRTPoly) (multiplier : List Nat) (j i : Nat) : Option Nat := do
  let t <- a[i]?
  let x <- t.values[j]?
  let m <- multiplier[i]?
  return x * m

/-- The sum for coefficient `j`, reduced once at the end. -/
def crtCoefficient (a : DCRTPoly) (qt : Nat) (multiplier : List Nat) (j : Nat) : Option Nat :=
  ((List.range a.length).foldlM (fun V i => (crtTerm a multiplier j i).map (V + ·)) 0).map
    (· % qt)

def crtInterpolate (ringDimension : Nat) (a : DCRTPoly) : Option Poly :=
  if a.any fun t => t.format ≠ .COEFFICIENT then none
  else do
    let qt := bigModulus a
    let multiplier <- a.mapM fun t => crtMultiplier qt t.modulus
    let V <- (List.range ringDimension).mapM (crtCoefficient a qt multiplier)
    return { modulus := qt, format := .COEFFICIENT, values := V }

/-- `CRTInterpolateIndex`, zero but at the index. -/
def crtInterpolateIndex (ringDimension : Nat) (a : DCRTPoly) (i : Nat) : Option Poly :=
  if a.any fun t => t.format ≠ .COEFFICIENT then none
  else if ¬i < ringDimension then none
  else do
    let qt := bigModulus a
    let V <- a.foldlM (fun V npoly => do
      let m <- crtMultiplier qt npoly.modulus
      let x <- npoly.values[i]?
      return V + m * x) 0
    return { modulus := qt, format := .COEFFICIENT,
             values := (List.replicate ringDimension 0).set i (V % qt) }

section Interpolation

variable {moduli : List Nat} (hcoprime : moduli.Pairwise Nat.Coprime)
  (hone : forall q, q ∈ moduli -> 1 < q) {n : Nat}

include hone

theorem prod_pos : 0 < moduli.prod := by
  apply Nat.pos_of_ne_zero
  intro hzero
  have hlt := hone 0 (List.prod_eq_zero_iff.mp hzero)
  omega

theorem ofPolyLarge_spec {p : Poly} (hp : p.values.length = n) :
    exists a, ofPolyLarge moduli n p = some a ∧ WellFormed n p.format moduli a ∧
      forall i q, moduli[i]? = some q -> forall j, value a i j = p.value j % q := by
  rcases mapM_spec (l := moduli)
    (f := fun m => if m = 0 then none
      else
        some { modulus := m, format := p.format,
               values := p.values.map (· % m) ++ List.replicate (n - p.values.length) 0 })
    (fun m (t : Poly) => t.WellFormed m n p.format ∧ forall j, t.value j = p.value j % m) (by
      intro m hm
      have hlt := hone m hm
      refine ⟨_, if_neg (by omega), ?_, ?_⟩
      · refine ⟨rfl, rfl, by simp [hp], ?_⟩
        intro x hx
        rw [hp, Nat.sub_self, List.replicate_zero, List.append_nil] at hx
        rcases List.mem_map.mp hx with ⟨y, _, rfl⟩
        exact Nat.mod_lt _ (by omega)
      · intro j
        rw [Poly.value, Poly.value, hp, Nat.sub_self, List.replicate_zero, List.append_nil,
          List.getD_eq_getElem?_getD, List.getD_eq_getElem?_getD, List.getElem?_map]
        cases p.values[j]? with
        | none => exact (Nat.zero_mod m).symm
        | some x => rfl) with ⟨a, ha, hlen, hget⟩
  refine ⟨a, ?_, ⟨hlen, ?_⟩, ?_⟩
  · unfold ofPolyLarge
    dsimp only
    rw [if_neg (by omega)]
    exact ha
  · intro i q t hq ht
    exact (hget i q t hq ht).left
  · intro i q hq j
    have hi : i < a.length := by
      rw [hlen]
      exact (List.getElem?_eq_some_iff.mp hq).1
    have ht := List.getElem?_eq_getElem hi
    rw [value_eq ht]
    exact (hget i q _ hq ht).right j

def towerMultiplier (moduli : List Nat) (i : Nat) : Nat :=
  ((moduli[i]?).bind (crtMultiplier moduli.prod)).getD 0

def towerSum (moduli : List Nat) (a : DCRTPoly) (j k : Nat) : Nat :=
  ∑ i ∈ range k, value a i j * towerMultiplier moduli i

include hcoprime

theorem towerMultiplier_spec {i q : Nat} (hq : moduli[i]? = some q) :
    crtMultiplier moduli.prod q = some (towerMultiplier moduli i) ∧
      exists inverse, towerMultiplier moduli i = inverse * (moduli.prod / q) ∧
        moduli.prod / q * inverse % q = 1 := by
  have hmem := List.mem_of_getElem? hq
  have hlt := hone q hmem
  rcases modInverse_spec hlt (coprime_prod_div hcoprime hone hmem) with
    ⟨inverse, hinverse, _, hmul⟩
  have hmultiplier : crtMultiplier moduli.prod q = some (inverse * (moduli.prod / q)) := by
    unfold crtMultiplier
    dsimp only
    rw [if_neg (by omega), hinverse]
    rfl
  have hvalue : towerMultiplier moduli i = inverse * (moduli.prod / q) := by
    rw [towerMultiplier, hq, Option.bind_some, hmultiplier]
    rfl
  rw [hvalue]
  exact ⟨hmultiplier, inverse, rfl, hmul⟩

variable {a : DCRTPoly} (ha : WellFormed n .COEFFICIENT moduli a)

include ha

theorem towerSum_mod {j : Nat} (hj : j < n) {i q : Nat} (hq : moduli[i]? = some q) :
    towerSum moduli a j moduli.length % moduli.prod % q = value a i j := by
  rcases ha.exists_tower hq with ⟨t, ht, hwf⟩
  have hlt : value a i j < q := by
    rw [value_eq ht]
    exact hwf.value_lt hj
  rw [Nat.mod_mod_of_dvd _ (List.dvd_prod (List.mem_of_getElem? hq)), towerSum,
    sum_multipliers_mod hcoprime hone
      (fun i q hq => (towerMultiplier_spec hcoprime hone hq).right) (fun t => value a t j) hq,
    Nat.mod_eq_of_lt hlt]

omit hone hcoprime in
theorem any_format_eq : (a.any fun t => t.format ≠ .COEFFICIENT) = false := by
  rw [List.any_eq_false]
  intro t ht
  simp [ha.format_eq ht]

omit hone hcoprime in
theorem read_value {i j : Nat} (hi : i < a.length) (hj : j < n) :
    exists t q, a[i]? = some t ∧ t.values[j]? = some (value a i j) ∧
      moduli[i]? = some q ∧ t.modulus = q := by
  have hq := List.getElem?_eq_getElem (show i < moduli.length by rw [← ha.length_eq]; exact hi)
  rcases ha.exists_tower hq with ⟨t, ht, hwf⟩
  have hlen : j < t.values.length := by
    rw [hwf.2.2.1]
    exact hj
  refine ⟨t, _, ht, ?_, hq, hwf.1⟩
  rw [value_eq ht, Poly.value, List.getD_eq_getElem _ _ hlen, List.getElem?_eq_getElem hlen]

theorem crtInterpolate_spec :
    exists p, crtInterpolate n a = some p ∧ p.WellFormed moduli.prod n .COEFFICIENT ∧
      forall j, j < n -> forall i q, moduli[i]? = some q -> p.value j % q = value a i j := by
  have hlength := ha.length_eq
  have hqt : bigModulus a = moduli.prod := by
    rw [bigModulus, ha.moduli_eq]
  rcases mapM_spec (l := a) (f := fun t => crtMultiplier moduli.prod t.modulus)
    (fun t m => crtMultiplier moduli.prod t.modulus = some m) (by
      intro t ht
      have hmem : t.modulus ∈ moduli := by
        rw [← ha.moduli_eq]
        exact List.mem_map_of_mem ht
      rcases List.mem_iff_getElem?.mp hmem with ⟨i, hi⟩
      have hmultiplier := (towerMultiplier_spec hcoprime hone hi).left
      exact ⟨_, hmultiplier, hmultiplier⟩) with ⟨multiplier, hmapM, hlen, hget⟩
  have hterm {i j : Nat} (hi : i < a.length) (hj : j < n) :
      crtTerm a multiplier j i = some (value a i j * towerMultiplier moduli i) := by
    rcases read_value ha hi hj with ⟨t, q, ht, hread, hq, hmodulus⟩
    have hm := List.getElem?_eq_getElem (show i < multiplier.length by omega)
    have heq := hget i t _ ht hm
    rw [hmodulus, (towerMultiplier_spec hcoprime hone hq).left] at heq
    unfold crtTerm
    rw [ht, Option.bind_eq_bind, Option.bind_some, hread, Option.bind_eq_bind,
      Option.bind_some, hm, ← heq]
    rfl
  rcases mapM_range_spec (n := n) (f := crtCoefficient a moduli.prod multiplier)
    (fun j V => V = towerSum moduli a j moduli.length % moduli.prod) (by
      intro j hj
      rcases foldlM_range_spec (n := a.length) (s := 0)
        (f := fun V i => (crtTerm a multiplier j i).map (V + ·))
        (fun i V => V = towerSum moduli a j i) (by simp [towerSum]) (by
          intro i hi V hV
          refine ⟨_, by rw [hterm hi hj]; rfl, ?_⟩
          rw [hV, towerSum, towerSum, sum_range_succ]) with ⟨V, hrun, hV⟩
      refine ⟨_, ?_, rfl⟩
      rw [crtCoefficient, hrun, hV, hlength]
      rfl) with ⟨values, hvalues, hvaluesLen, hsum⟩
  refine ⟨{ modulus := moduli.prod, format := .COEFFICIENT, values := values }, ?_,
    ⟨rfl, rfl, hvaluesLen, ?_⟩, ?_⟩
  · unfold crtInterpolate
    rw [any_format_eq ha]
    simp only [Bool.false_eq_true, if_false, hqt]
    rw [hmapM, Option.bind_eq_bind, Option.bind_some, hvalues]
    rfl
  · intro x hx
    rcases List.mem_iff_getElem?.mp hx with ⟨j, hj⟩
    rw [hsum j x hj]
    exact Nat.mod_lt _ (prod_pos hone)
  · intro j hj i q hq
    have hread := List.getElem?_eq_getElem (show j < values.length by omega)
    rw [Poly.value, List.getD_eq_getElem?_getD, hread, Option.getD_some, hsum j _ hread]
    exact towerSum_mod hcoprime hone ha hj hq

theorem crtInterpolateIndex_spec {j : Nat} (hj : j < n) :
    exists p, crtInterpolateIndex n a j = some p ∧ p.WellFormed moduli.prod n .COEFFICIENT ∧
      (forall i q, moduli[i]? = some q -> p.value j % q = value a i j) ∧
      forall j', j' ≠ j -> p.value j' = 0 := by
  have hqt : bigModulus a = moduli.prod := by
    rw [bigModulus, ha.moduli_eq]
  have hfold : exists V, a.foldlM (fun V npoly =>
      (crtMultiplier moduli.prod npoly.modulus).bind fun m =>
        (npoly.values[j]?).bind fun x => some (V + m * x)) 0 = some V ∧
      V = towerSum moduli a j a.length := by
    apply foldlM_spec (fun i V => V = towerSum moduli a j i) (by simp [towerSum])
    intro i t ht V hV
    rcases read_value ha (List.getElem?_eq_some_iff.mp ht).1 hj with
      ⟨t', q, ht', hread, hq, hmodulus⟩
    cases ht.symm.trans ht'
    refine ⟨V + towerMultiplier moduli i * value a i j, ?_, ?_⟩
    · rw [hmodulus, (towerMultiplier_spec hcoprime hone hq).left, Option.bind_some, hread]
      rfl
    · rw [hV, towerSum, towerSum, sum_range_succ, Nat.mul_comm]
  rcases hfold with ⟨V, hrun, hV⟩
  have hlt : V % moduli.prod < moduli.prod := Nat.mod_lt _ (prod_pos hone)
  have hread : ((List.replicate n 0).set j (V % moduli.prod))[j]? = some (V % moduli.prod) :=
    List.getElem?_set_self (by simpa using hj)
  refine ⟨⟨moduli.prod, .COEFFICIENT, (List.replicate n 0).set j (V % moduli.prod)⟩, ?_,
    ⟨rfl, rfl, by simp, ?_⟩, ?_, ?_⟩
  · unfold crtInterpolateIndex
    rw [any_format_eq ha]
    simp only [Bool.false_eq_true, if_false, hqt, hj, not_true_eq_false]
    exact Option.bind_eq_some_iff.mpr ⟨V, hrun, rfl⟩
  · intro x hx
    rcases List.mem_or_eq_of_mem_set hx with hzero | heq
    · rw [List.eq_of_mem_replicate hzero]
      exact prod_pos hone
    · rw [heq]
      exact hlt
  · intro i q hq
    rw [Poly.value, List.getD_eq_getElem?_getD, hread, Option.getD_some, hV, ha.length_eq]
    exact towerSum_mod hcoprime hone ha hj hq
  · intro j' hne
    rw [Poly.value, List.getD_eq_getElem?_getD, List.getElem?_set_ne (Ne.symm hne),
      List.getElem?_replicate]
    split <;> rfl

end Interpolation

theorem value_eq_of_residues {moduli : List Nat} (hcoprime : moduli.Pairwise Nat.Coprime)
    {n : Nat} {p p' : Poly} (hp : p.WellFormed moduli.prod n .COEFFICIENT)
    (hp' : p'.WellFormed moduli.prod n .COEFFICIENT) {j : Nat} (hj : j < n)
    (hresidues : forall (i q : Nat), moduli[i]? = some q -> p.value j % q = p'.value j % q) :
    p.value j = p'.value j := by
  have hlt {p : Poly} (hp : p.WellFormed moduli.prod n .COEFFICIENT) :
      p.value j < moduli.prod := hp.value_lt hj
  apply eq_of_residues hcoprime (hlt hp) (hlt hp')
  intro q hq
  rcases List.mem_iff_getElem?.mp hq with ⟨i, hi⟩
  exact hresidues i q hi

/--
Interpolation is the inverse of taking residues on both sides, and finds the same
coefficients one by one.
-/
theorem crtInterpolate_roundTrip {moduli : List Nat} (hcoprime : moduli.Pairwise Nat.Coprime)
    (hone : forall q, q ∈ moduli -> 1 < q) (n : Nat) :
    (forall p : Poly, p.WellFormed moduli.prod n .COEFFICIENT ->
      exists a, ofPolyLarge moduli n p = some a ∧ crtInterpolate n a = some p) ∧
    forall a, WellFormed n .COEFFICIENT moduli a ->
      exists p, crtInterpolate n a = some p ∧ p.WellFormed moduli.prod n .COEFFICIENT ∧
        ofPolyLarge moduli n p = some a ∧
        forall j, j < n -> exists pj, crtInterpolateIndex n a j = some pj ∧
          pj.value j = p.value j := by
  constructor
  · intro p hp
    rcases ofPolyLarge_spec hone hp.2.2.1 with ⟨a, ha, hwf, hvalue⟩
    rw [hp.2.1] at hwf
    rcases crtInterpolate_spec hcoprime hone hwf with ⟨p', hp', hwf', hresidues⟩
    refine ⟨a, ha, ?_⟩
    have heq : p' = p := by
      apply hwf'.denotes.unique (Poly.Denotes.congr hp.denotes ?_)
      intro j hj
      have hsame : p.value j = p'.value j := by
        apply value_eq_of_residues hcoprime hp hwf' hj
        intro i q hq
        rw [hresidues j hj i q hq, hvalue i q hq j]
      rw [hsame]
    rw [hp', heq]
  · intro a ha
    rcases crtInterpolate_spec hcoprime hone ha with ⟨p, hp, hwf, hresidues⟩
    rcases ofPolyLarge_spec hone hwf.2.2.1 with ⟨a', ha', hwf', hvalue⟩
    rw [hwf.2.1] at hwf'
    refine ⟨p, hp, hwf, ?_, ?_⟩
    · have heq : a' = a := by
        apply hwf'.ext ha
        intro i q hq j hj
        rw [hvalue i q hq j, hresidues j hj i q hq]
      rw [ha', heq]
    · intro j hj
      rcases crtInterpolateIndex_spec hcoprime hone ha hj with ⟨pj, hpj, hwfj, hresiduesj, _⟩
      refine ⟨pj, hpj, ?_⟩
      apply value_eq_of_residues hcoprime hwfj hwf hj
      intro i q hq
      rw [hresiduesj i q hq, hresidues j hj i q hq]

/-- The towers 3 and 5 with two coefficients. -/
theorem crtInterpolate_roundTrip_two :
    (forall p : Poly, p.WellFormed [3, 5].prod 2 .COEFFICIENT ->
      exists a, ofPolyLarge [3, 5] 2 p = some a ∧ crtInterpolate 2 a = some p) ∧
    forall a, WellFormed 2 .COEFFICIENT [3, 5] a ->
      exists p, crtInterpolate 2 a = some p ∧ p.WellFormed [3, 5].prod 2 .COEFFICIENT ∧
        ofPolyLarge [3, 5] 2 p = some a ∧
        forall j, j < 2 -> exists pj, crtInterpolateIndex 2 a j = some pj ∧
          pj.value j = p.value j :=
  crtInterpolate_roundTrip (by decide) (by decide) 2

end DCRTPoly
end Hal
end OpenFHE
