import OpenFHE.Hal.ModDown
import OpenFHE.KeySwitch.Hybrid

/-!
# The extended basis of hybrid key switching

`KeySwitchExt` multiplies a ciphertext by the special modulus and appends zero towers,
`KeySwitchDown` divides the first two elements by the special modulus.
-/

namespace OpenFHE
namespace KeySwitch
namespace Hybrid

open OpenFHE.Core Foundation Hal DCRTPoly

inductive SchemeId where
  | CKKSRNS_SCHEME
  | BFVRNS_SCHEME
  | BGVRNS_SCHEME
deriving DecidableEq, Repr

/-- What the two functions read of the crypto parameters. -/
structure CryptoParameters where
  scheme : SchemeId
  hybrid : HybridParameters
  plaintextModulus : Nat
  pModq : List Nat
  modDown : ModDownTables
deriving DecidableEq, Repr

/-- The cast to `CryptoParametersCKKSRNS`, a null pointer for the other schemes. -/
def asCKKSRNS (params : CryptoParameters) : Option CryptoParameters :=
  if params.scheme = .CKKSRNS_SCHEME then some params else none

/-- `TimesNoCheck` with one factor for every tower. -/
def timesNoCheck (a : DCRTPoly) (rhs : List Nat) : Option DCRTPoly :=
  (List.range (if a.length < rhs.length then a.length else rhs.length)).mapM fun i => do
    let tower <- a[i]?
    let factor <- rhs[i]?
    Poly.timesInteger tower factor

/-- `SetElementAtIndex` for the first `size` towers. -/
def setElements (element towers : DCRTPoly) (size : Nat) : Option DCRTPoly :=
  (List.range size).foldlM (fun element i => towers[i]?.map fun tower => element.set i tower)
    element

def keySwitchExt (params : CryptoParameters) (ciphertext : List DCRTPoly) (addFirst : Bool) :
    Option (List DCRTPoly) := do
  let cryptoParams <- asCKKSRNS params
  let first <- ciphertext[0]?
  let sizeQl := first.length
  let moduliQlP := first.map Poly.modulus ++ cryptoParams.hybrid.moduliP
  (List.range ciphertext.length).mapM fun k => do
    let element := zero moduliQlP cryptoParams.hybrid.ringDimension .EVALUATION
    if addFirst ∨ k > 0 then do
      let cv <- ciphertext[k]?
      let cMult <- timesNoCheck cv cryptoParams.pModq
      setElements element cMult sizeQl
    else return element

/-- The plaintext modulus of `ApproxModDown`, zero when the noise is not scaled. -/
def downModulus (params : CryptoParameters) : Nat :=
  if params.hybrid.noiseScale = 1 then 0 else params.plaintextModulus

def keySwitchDown (cache : Poly.TableCache) (params : CryptoParameters)
    (ciphertext : List DCRTPoly) : Option (List DCRTPoly) := do
  let first <- ciphertext[0]?
  let second <- ciphertext[1]?
  let cryptoParams <- asCKKSRNS params
  let sizeQl := first.length - cryptoParams.hybrid.moduliP.length
  let moduliQ := (first.map Poly.modulus).take sizeQl
  let t := downModulus cryptoParams
  let c0 <- approxModDown cache cryptoParams.modDown moduliQ cryptoParams.hybrid.moduliP
    cryptoParams.hybrid.ringDimension t first
  let c1 <- approxModDown cache cryptoParams.modDown moduliQ cryptoParams.hybrid.moduliP
    cryptoParams.hybrid.ringDimension t second
  return [c0, c1]

/-!
## The zero multiple
-/

theorem baseDigit_zero (moduli : List Nat) (i : Nat) : baseDigit moduli 0 i = 0 := by
  rw [baseDigit, Nat.cast_zero, zero_mul, ZMod.val_zero]

theorem convertedPart_multiple (moduliP : List Nat) (x : Nat) :
    dividedPart moduliP 0 (moduliP.prod * x) = 0 ∧
      convertedPart moduliP 0 (moduliP.prod * x) = 0 := by
  have hpart : dividedPart moduliP 0 (moduliP.prod * x) = 0 := by
    rw [dividedPart, Nat.cast_mul, ZMod.natCast_self, zero_mul, zero_mul, ZMod.val_zero]
  refine ⟨hpart, ?_⟩
  rw [convertedPart, hpart, digitSum]
  apply Finset.sum_eq_zero
  intro i _
  rw [baseDigit_zero, Nat.zero_mul]

theorem scaledDown_multiple {moduliP : List Nat} (hone : forall p, p ∈ moduliP -> 1 < p)
    (x : Nat) : scaledDown moduliP 0 (moduliP.prod * x) = x := by
  have hpos := prod_pos_of_one_lt hone
  rw [scaledDown, (convertedPart_multiple moduliP x).2, Nat.cast_zero, mul_zero, sub_zero,
    Nat.cast_mul, Int.mul_ediv_cancel_left _ (by omega)]

theorem accumulator_zero (source : List Nat) (p : Nat) : accumulator source p 0 = 0 := by
  rw [accumulator]
  apply Finset.sum_eq_zero
  intro i _
  rw [baseDigit_zero, Nat.zero_mul]

/-!
## Elements of the extended basis
-/

theorem setElements_spec {element towers : DCRTPoly} {size : Nat}
    (htowers : size <= towers.length) (helement : size <= element.length) :
    exists r, setElements element towers size = some r ∧ r.length = element.length ∧
      forall j : Nat, r[j]? = if j < size then towers[j]? else element[j]? := by
  rcases foldlM_range_spec (n := size) (s := element)
    (f := fun (element : DCRTPoly) i => towers[i]?.map fun tower => element.set i tower)
    (fun i r => r.length = element.length ∧
      forall j : Nat, r[j]? = if j < i then towers[j]? else element[j]?)
    ⟨rfl, fun j => by rw [if_neg (Nat.not_lt_zero j)]⟩ (by
      intro i hi r hr
      have htower := List.getElem?_eq_getElem (show i < towers.length by omega)
      refine ⟨r.set i towers[i], by rw [htower]; rfl, by rw [List.length_set, hr.1], ?_⟩
      intro j
      rcases Nat.lt_trichotomy j i with hlt | heq | hgt
      · rw [List.getElem?_set_ne (by omega), hr.2 j, if_pos hlt, if_pos (by omega)]
      · rw [heq, List.getElem?_set_self (by rw [hr.1]; omega), if_pos (by omega), htower]
      · rw [List.getElem?_set_ne (by omega), hr.2 j, if_neg (by omega), if_neg (by omega)]) with
    ⟨r, hr, hlength, hget⟩
  exact ⟨r, hr, hlength, hget⟩

theorem exists_residues {moduli : List Nat} (hcoprime : moduli.Pairwise Nat.Coprime)
    (v : Nat -> Nat) : exists x, forall (i q : Nat), moduli[i]? = some q -> x ≡ v i [MOD q] := by
  have hpairwise : (List.range moduli.length).Pairwise
      (Function.onFun Nat.Coprime fun i => moduli.getD i 1) := by
    rw [List.pairwise_iff_getElem] at hcoprime ⊢
    intro i j hi hj hij
    rw [List.length_range] at hi hj
    have hij' := hcoprime i j hi hj hij
    simp only [List.getElem_range, Function.onFun, List.getD_eq_getElem _ _ hi,
      List.getD_eq_getElem _ _ hj]
    exact hij'
  rcases Nat.chineseRemainderOfList v (fun i => moduli.getD i 1) (List.range moduli.length)
    hpairwise with ⟨x, hx⟩
  refine ⟨x, ?_⟩
  intro i q hq
  have hmod := hx i (List.mem_range.mpr (List.getElem?_eq_some_iff.mp hq).1)
  rwa [List.getD_eq_getElem?_getD, hq, Option.getD_some] at hmod

section Extended

variable {cache : Poly.TableCache} {params : CryptoParameters} {k : Nat} {psi : Nat -> Nat}

/-- The tables of the crypto parameters, as they are precomputed. -/
structure CryptoParameters.Precomputed (params : CryptoParameters) : Prop where
  pModq : params.pModq = params.hybrid.moduliQ.map fun q => params.hybrid.modulusP % q
  modDown : modDownTables params.hybrid.moduliQ params.hybrid.moduliP (downModulus params) =
    some params.modDown

variable (hpre : params.Precomputed) (hk : 0 < k)
  (hready : ReadyChain cache k psi params.hybrid.moduliQP)
  {l : Nat} (hl : l <= params.hybrid.sizeQ) {cv : DCRTPoly} {x : Nat -> Nat}
  (hc : Denotes (2 ^ k) .EVALUATION (params.hybrid.moduliQ.take l)
    (transform k psi fun _ q r => (x r : ZMod q)) cv)

include hpre hready hl hc

theorem timesNoCheck_denotes : exists b, timesNoCheck cv params.pModq = some b ∧
    Denotes (2 ^ k) .EVALUATION (params.hybrid.moduliQ.take l)
      (transform k psi fun _ q r => ((params.hybrid.modulusP * x r : Nat) : ZMod q)) b := by
  have hsizeQ : params.hybrid.moduliQ.length = params.hybrid.sizeQ := rfl
  have htake : (params.hybrid.moduliQ.take l).length = l := by
    rw [List.length_take]
    omega
  have hlength : cv.length = l := hc.wellFormed.length_eq.trans htake
  have hsize : (if cv.length < params.pModq.length then cv.length else params.pModq.length) = l := by
    rw [hpre.pModq, List.length_map, hsizeQ, hlength]
    split <;> omega
  unfold timesNoCheck
  rw [hsize]
  rcases mapM_range_spec (n := l)
    (f := fun i => do
      let tower <- cv[i]?
      let factor <- params.pModq[i]?
      Poly.timesInteger tower factor)
    (fun i u => forall q, (params.hybrid.moduliQ.take l)[i]? = some q ->
      Poly.Denotes q (2 ^ k) .EVALUATION (stageArray
        (fun r => ((params.hybrid.modulusP * x r : Nat) : ZMod q)) (psi q) 1 k) u) (by
      intro i hi
      have hq := List.getElem?_eq_getElem (show i < (params.hybrid.moduliQ.take l).length by
        omega)
      have hmem := List.mem_of_mem_take (List.mem_of_getElem? hq)
      have hprime := hready _ (List.mem_append_left _ hmem)
      have hfactor : params.pModq[i]? =
          some (params.hybrid.modulusP % (params.hybrid.moduliQ.take l)[i]) := by
        rw [hpre.pModq, List.getElem?_map, ← List.getElem?_take_of_lt hi, hq]
        rfl
      rcases hc.tower hq with ⟨tower, htower, hdenotes⟩
      rcases Poly.timesInteger_denotes hprime.modulus
        (params.hybrid.modulusP % (params.hybrid.moduliQ.take l)[i]) hdenotes with
        ⟨u, hu, hu_denotes⟩
      refine ⟨u, ?_, ?_⟩
      · simp only [htower, hfactor, Option.bind_eq_bind, Option.bind_some]
        exact hu
      · intro q' hq'
        cases hq.symm.trans hq'
        apply hu_denotes.congr
        intro r _
        rw [ZMod.natCast_mod]
        simp only [transform, stageArray_last, Finset.sum_mul]
        refine Finset.sum_congr rfl fun j _ => ?_
        push_cast
        ring) with ⟨b, hb, hblength, hget⟩
  exact ⟨b, hb, denotes_of_towers (hblength.trans htake.symm)
    fun i q u hq hu => hget i u hu q hq⟩

theorem extendElement_denotes : exists b e, timesNoCheck cv params.pModq = some b ∧
    setElements (zero (moduliQlP params.hybrid l) (2 ^ k) .EVALUATION) b l = some e ∧
    Denotes (2 ^ k) .EVALUATION (moduliQlP params.hybrid l)
      (transform k psi fun _ q r => ((params.hybrid.modulusP * x r : Nat) : ZMod q)) e := by
  have hlength : (moduliQlP params.hybrid l).length = l + params.hybrid.sizeP :=
    length_moduliQlP hl
  have hzero : (zero (moduliQlP params.hybrid l) (2 ^ k) .EVALUATION).length =
      l + params.hybrid.sizeP := (List.length_map _).trans hlength
  rcases timesNoCheck_denotes hpre hready hl hc with ⟨b, hb, hb_denotes⟩
  have hblength : b.length = l := by
    have hsizeQ : params.hybrid.moduliQ.length = params.hybrid.sizeQ := rfl
    rw [hb_denotes.wellFormed.length_eq, List.length_take]
    omega
  rcases setElements_spec (show l <= b.length by omega)
    (show l <= (zero (moduliQlP params.hybrid l) (2 ^ k) .EVALUATION).length by omega) with
    ⟨e, he, helength, hget⟩
  refine ⟨b, e, hb, he, denotes_of_towers (by rw [helength, hzero, hlength]) ?_⟩
  intro i q u hq hu
  rw [hget i] at hu
  split at hu
  next hlow =>
    rw [moduliQlP_getElem?_low hlow hl] at hq
    exact hb_denotes.tower_denotes (by rw [List.getElem?_take_of_lt hlow, hq]) hu
  next hhigh =>
    have hprime := hready q (mem_moduliQP_of_mem (List.mem_of_getElem? hq))
    rw [zero, List.getElem?_map, hq] at hu
    cases hu
    have hpos : 0 < q := by
      have hone := hprime.modulus.one_lt
      omega
    apply (Poly.zero_denotes hpos (2 ^ k) .EVALUATION).congr
    intro r _
    rw [transform, stageArray_last]
    symm
    apply Finset.sum_eq_zero
    intro j _
    rw [Nat.cast_mul, modulusP_eq_zero (by omega) hl hq, zero_mul, zero_mul]

end Extended

/-!
## Down and up
-/

section Down

variable {cache : Poly.TableCache} {hybrid : HybridParameters} {k : Nat}
  (h : Setting cache hybrid k) (hcoprime : hybrid.moduliQP.Pairwise Nat.Coprime)

include h

theorem Setting.exists_readyChain : exists psi, ReadyChain cache k psi hybrid.moduliQP := by
  have hroot : forall q, exists psi, q ∈ hybrid.moduliQP -> Poly.Ready cache k q psi := by
    intro q
    by_cases hq : q ∈ hybrid.moduliQP
    · rcases h.ready q hq with ⟨psi, hpsi⟩
      exact ⟨psi, fun _ => hpsi⟩
    · exact ⟨0, fun hmem => absurd hmem hq⟩
  choose psi hpsi using hroot
  exact ⟨psi, hpsi⟩

include hcoprime

theorem exists_modDownTables {t : Nat} (ht : Nat.Coprime (plainFactor t) hybrid.modulusP) :
    exists tables, modDownTables hybrid.moduliQ hybrid.moduliP t = some tables ∧
      tables.Exact hybrid.moduliQ hybrid.moduliP t := by
  rcases List.pairwise_append.mp hcoprime with ⟨_, hP, hQP⟩
  have hprime : forall q, q ∈ hybrid.moduliQP -> Poly.NttModulus q := h.valid.modulus
  have hprimeQ := fun q hq => hprime q (List.mem_append_left _ hq)
  have hprimeP := fun p hp => hprime p (List.mem_append_right _ hp)
  apply modDownTables_exact _ _ ht
  · refine ⟨hP, fun p hp => (hprimeP p hp).one_lt, fun p hp => (hprimeP p hp).lt, ?_,
      fun q hq => (hprimeQ q hq).lt⟩
    intro q hq
    have hone := (hprimeQ q hq).one_lt
    omega
  · intro q hq
    exact ⟨(hprimeQ q hq).one_lt, Nat.coprime_list_prod_left_iff.mpr
      fun p hp => (hQP q hq p hp).symm⟩

theorem exists_numbers {psi : Nat -> Nat} (hready : ReadyChain cache k psi hybrid.moduliQP)
    {l : Nat} {c : DCRTPoly} (hc : WellFormed (2 ^ k) .EVALUATION (hybrid.moduliQ.take l) c) :
    exists x : Nat -> Nat, Denotes (2 ^ k) .EVALUATION (hybrid.moduliQ.take l)
      (transform k psi fun _ q r => (x r : ZMod q)) c := by
  have hreadyQ : ReadyChain cache k psi (hybrid.moduliQ.take l) :=
    fun q hq => hready q (List.mem_append_left _ (List.mem_of_mem_take hq))
  have hcoprimeQ : (hybrid.moduliQ.take l).Pairwise Nat.Coprime :=
    (List.pairwise_append.mp hcoprime).1.sublist (List.take_sublist _ _)
  rcases exists_coefficients h.pos hreadyQ h.le hc with ⟨b, _, _, hdenotes⟩
  choose x hx using fun r => exists_residues hcoprimeQ fun i => value b i r
  refine ⟨x, hdenotes.congr ?_⟩
  intro i q hq r _
  apply stageArray_congr
  intro j _
  exact ((ZMod.natCast_eq_natCast_iff _ _ _).mpr (hx j i q hq)).symm

end Down

section Ciphertext

variable {cache : Poly.TableCache} {params : CryptoParameters} {k : Nat}
  (h : Setting cache params.hybrid k)
  (hcoprime : params.hybrid.moduliQP.Pairwise Nat.Coprime)
  (hscheme : params.scheme = .CKKSRNS_SCHEME) (hpre : params.Precomputed)
  {l : Nat} (hpos : 0 < l) (hl : l <= params.hybrid.sizeQ) {ciphertext : List DCRTPoly}
  (hct : forall c, c ∈ ciphertext ->
    WellFormed (2 ^ k) .EVALUATION (params.hybrid.moduliQ.take l) c)

include h hcoprime hscheme hpre hpos hl hct

omit hpos in
theorem keySwitchExt_spec {psi : Nat -> Nat}
    (hready : ReadyChain cache k psi params.hybrid.moduliQP) (hne : ciphertext ≠ []) :
    exists e, keySwitchExt params ciphertext true = some e ∧ e.length = ciphertext.length ∧
      forall (i : Nat) (ei c : DCRTPoly), e[i]? = some ei -> ciphertext[i]? = some c ->
        exists x : Nat -> Nat,
          Denotes (2 ^ k) .EVALUATION (params.hybrid.moduliQ.take l)
            (transform k psi fun _ q r => (x r : ZMod q)) c ∧
          Denotes (2 ^ k) .EVALUATION (moduliQlP params.hybrid l)
            (transform k psi fun _ q r => ((params.hybrid.modulusP * x r : Nat) : ZMod q)) ei := by
  have hsizeQ : params.hybrid.moduliQ.length = params.hybrid.sizeQ := rfl
  rcases List.exists_cons_of_ne_nil hne with ⟨first, rest, rfl⟩
  have hfirst_wf := hct first List.mem_cons_self
  have hlength : first.length = l := by
    rw [hfirst_wf.length_eq, List.length_take]
    omega
  rcases mapM_range_spec (n := (first :: rest).length)
    (f := fun i => do
      let element := zero (moduliQlP params.hybrid l) params.hybrid.ringDimension .EVALUATION
      if true = true ∨ i > 0 then do
        let cv <- (first :: rest)[i]?
        let cMult <- timesNoCheck cv params.pModq
        setElements element cMult l
      else return element)
    (fun i ei => forall c, (first :: rest)[i]? = some c -> exists x : Nat -> Nat,
      Denotes (2 ^ k) .EVALUATION (params.hybrid.moduliQ.take l)
        (transform k psi fun _ q r => (x r : ZMod q)) c ∧
      Denotes (2 ^ k) .EVALUATION (moduliQlP params.hybrid l)
        (transform k psi fun _ q r => ((params.hybrid.modulusP * x r : Nat) : ZMod q)) ei) (by
      intro i hi
      have hc := List.getElem?_eq_getElem hi
      rcases exists_numbers h hcoprime hready (hct _ (List.mem_of_getElem? hc)) with ⟨x, hx⟩
      rcases extendElement_denotes hpre hready hl hx with ⟨b, e, hb, he, hdenotes⟩
      refine ⟨e, ?_, ?_⟩
      · simp only [hc, hb, true_or, if_true, Option.bind_eq_bind, Option.bind_some,
          h.ringDimension]
        exact he
      · intro c hc'
        cases hc.symm.trans hc'
        exact ⟨x, hx, hdenotes⟩) with ⟨e, he, helength, hget⟩
  refine ⟨e, ?_, helength, fun i ei c hei hc => hget i ei hei c hc⟩
  unfold keySwitchExt asCKKSRNS
  rw [if_pos hscheme]
  simp only [Option.bind_eq_bind, Option.bind_some, List.getElem?_cons_zero, hlength,
    hfirst_wf.moduli_eq]
  exact he

theorem keySwitchDown_keySwitchExt (hnoise : params.hybrid.noiseScale = 1)
    (htwo : 2 <= ciphertext.length) :
    exists e, keySwitchExt params ciphertext true = some e ∧
      keySwitchDown cache params e = some (ciphertext.take 2) := by
  have hsizeQ : params.hybrid.moduliQ.length = params.hybrid.sizeQ := rfl
  rcases h.exists_readyChain with ⟨psi, hready⟩
  rcases keySwitchExt_spec h hcoprime hscheme hpre hl hct hready
    (List.length_pos_iff.mp (by omega)) with ⟨e, he, helength, hget⟩
  have ht0 : downModulus params = 0 := if_pos hnoise
  have hP : params.hybrid.moduliP.Pairwise Nat.Coprime :=
    (List.pairwise_append.mp hcoprime).2.1
  have hone : forall p, p ∈ params.hybrid.moduliP -> 1 < p :=
    fun p hp => (h.valid.modulus p (List.mem_append_right _ hp)).one_lt
  have hfactor : Nat.Coprime (plainFactor 0) params.hybrid.modulusP := Nat.coprime_one_left _
  rcases exists_modDownTables h hcoprime hfactor with ⟨tables, htables, hexact⟩
  have htables' := hpre.modDown
  rw [ht0, htables] at htables'
  cases htables'
  have hdown : forall (i : Nat) (ei c : DCRTPoly), e[i]? = some ei -> ciphertext[i]? = some c ->
      approxModDown cache params.modDown (params.hybrid.moduliQ.take l) params.hybrid.moduliP
        (2 ^ k) 0 ei = some c := by
    intro i ei c hei hc
    rcases hget i ei c hei hc with ⟨x, hx, hdenotes⟩
    rcases approxModDown_denotes h.pos h.le hready hP hfactor hexact hpos (le_refl l) hl hdenotes
      (by
        intro r _ q _
        rw [HybridParameters.modulusP, (convertedPart_multiple _ _).1, accumulator_zero,
          Nat.zero_div]
        exact dvd_zero q) with ⟨b, hb, hb_denotes⟩
    rw [hb]
    congr 1
    apply hb_denotes.unique
    apply hx.congr
    intro j q hq r _
    apply stageArray_congr
    intro s _
    dsimp only
    rw [HybridParameters.modulusP, scaledDown_multiple hone, Int.cast_natCast]
  match ciphertext, e, helength, htwo with
  | c0 :: c1 :: rest, e0 :: e1 :: rest', _, _ =>
      rcases hget 0 e0 c0 rfl rfl with ⟨_, _, hdenotes⟩
      have hmoduli := hdenotes.wellFormed.moduli_eq
      have hsize : e0.length - params.hybrid.moduliP.length = l := by
        have hsizeP : params.hybrid.moduliP.length = params.hybrid.sizeP := rfl
        rw [hdenotes.wellFormed.length_eq, length_moduliQlP hl, hsizeP, Nat.add_sub_cancel]
      have hlow : (moduliQlP params.hybrid l).take l = params.hybrid.moduliQ.take l := by
        rw [moduliQlP, List.take_left' (by rw [List.length_take]; omega)]
      refine ⟨_, he, ?_⟩
      unfold keySwitchDown asCKKSRNS
      rw [if_pos hscheme]
      simp only [Option.bind_eq_bind, Option.bind_some, List.getElem?_cons_zero,
        List.getElem?_cons_succ, hsize, hmoduli, hlow, ht0, h.ringDimension]
      rw [hdown 0 e0 c0 rfl rfl, Option.bind_some, hdown 1 e1 c1 rfl rfl, Option.bind_some]
      rfl

end Ciphertext

/-!
## Scaling down
-/

/--
All towers of `b` stand for the exact quotient by the special modulus of `x` minus a small
multiple of the plaintext factor.
-/
def ScalesDown (cache : Poly.TableCache) (n : Nat) (moduliQ moduliP : List Nat) (t : Nat)
    (x : Nat -> Nat) (b : DCRTPoly) : Prop :=
  WellFormed n .EVALUATION moduliQ b ∧ exists (quotient : Nat -> Int) (E : Nat -> Nat),
    HasCoefficients cache n moduliQ b quotient ∧ forall r, r < n ->
      E r < moduliP.length * moduliP.prod ∧
      plainFactor t * E r ≡ x r [MOD moduliP.prod] ∧
      (moduliP.prod : Int) * quotient r = x r - plainFactor t * E r ∧
      (0 < t -> (moduliP.prod : Int) * quotient r ≡ x r [ZMOD t])

/--
`ApproxModDown` returns the exact quotients at every level when no carry is lost, and
`KeySwitchDown` undoes `KeySwitchExt` on ciphertexts of two elements.
-/
theorem approxModDown_scalesDown {cache : Poly.TableCache} {hybrid : HybridParameters} {k : Nat}
    (h : Setting cache hybrid k) (hcoprime : hybrid.moduliQP.Pairwise Nat.Coprime)
    (hne : hybrid.moduliP ≠ []) :
    (forall t, Nat.Coprime (plainFactor t) hybrid.modulusP ->
      exists tables, modDownTables hybrid.moduliQ hybrid.moduliP t = some tables ∧
        forall l m, 0 < l -> l <= m -> m <= hybrid.sizeQ -> forall (a : DCRTPoly) (x : Nat -> Nat),
          WellFormed (2 ^ k) .EVALUATION (moduliQlP hybrid l) a ->
          HasCoefficients cache (2 ^ k) (moduliQlP hybrid l) a (fun r => x r) ->
          (forall r, r < 2 ^ k -> KeepsCarries hybrid.moduliP (hybrid.moduliQ.take l)
            (dividedPart hybrid.moduliP t (x r))) ->
          exists b, approxModDown cache tables (hybrid.moduliQ.take m) hybrid.moduliP (2 ^ k) t a =
              some b ∧
            ScalesDown cache (2 ^ k) (hybrid.moduliQ.take l) hybrid.moduliP t x b) ∧
    forall params : CryptoParameters, params.hybrid = hybrid ->
      params.scheme = .CKKSRNS_SCHEME -> params.Precomputed -> hybrid.noiseScale = 1 ->
      forall l, 0 < l -> l <= hybrid.sizeQ -> forall c0 c1 : DCRTPoly,
        WellFormed (2 ^ k) .EVALUATION (hybrid.moduliQ.take l) c0 ->
        WellFormed (2 ^ k) .EVALUATION (hybrid.moduliQ.take l) c1 ->
        (keySwitchExt params [c0, c1] true).bind (keySwitchDown cache params) =
          some [c0, c1] := by
  rcases h.exists_readyChain with ⟨psi, hready⟩
  have hP : hybrid.moduliP.Pairwise Nat.Coprime := (List.pairwise_append.mp hcoprime).2.1
  have hone : forall p, p ∈ hybrid.moduliP -> 1 < p :=
    fun p hp => (h.valid.modulus p (List.mem_append_right _ hp)).one_lt
  constructor
  · intro t ht
    rcases exists_modDownTables h hcoprime ht with ⟨tables, htables, hexact⟩
    refine ⟨tables, htables, ?_⟩
    intro l m hpos hlm hm a x ha hx hcarries
    have hreadyl : ReadyChain cache k psi (moduliQlP hybrid l) :=
      fun q hq => hready q (mem_moduliQP_of_mem hq)
    have hreadyQ : ReadyChain cache k psi (hybrid.moduliQ.take l) :=
      fun q hq => hready q (List.mem_append_left _ (List.mem_of_mem_take hq))
    have ha_denotes : Denotes (2 ^ k) .EVALUATION (moduliQlP hybrid l)
        (transform k psi fun _ q r => (x r : ZMod q)) a := by
      have hdenotes := HasCoefficients.denotes h.pos hreadyl h.le hx ha
      simpa using hdenotes
    rcases approxModDown_denotes h.pos h.le hready hP ht hexact hpos hlm hm ha_denotes hcarries
      with ⟨b, hb, hb_denotes⟩
    refine ⟨b, hb, hb_denotes.wellFormed, fun r => scaledDown hybrid.moduliP t (x r),
      fun r => convertedPart hybrid.moduliP t (x r),
      Denotes.hasCoefficients h.pos hreadyQ h.le hb_denotes, ?_⟩
    intro r _
    have hquotient := mul_scaledDown hP hone ht (x r)
    refine ⟨convertedPart_lt hP hone hne (x r), convertedPart_modEq hP hone ht (x r),
      hquotient, ?_⟩
    intro hpos
    rw [hquotient, plainFactor, if_neg (by omega)]
    exact Int.modEq_iff_dvd.mpr (by rw [sub_sub_cancel]; exact dvd_mul_right _ _)
  · rintro params rfl hscheme hpre hnoise l hpos hl c0 c1 hc0 hc1
    have hct : forall c, c ∈ [c0, c1] ->
        WellFormed (2 ^ k) .EVALUATION (params.hybrid.moduliQ.take l) c := by
      intro c hc
      rcases List.mem_cons.mp hc with rfl | hc
      · exact hc0
      · exact List.mem_singleton.mp hc ▸ hc1
    rcases keySwitchDown_keySwitchExt h hcoprime hscheme hpre hpos hl hct hnoise (le_refl 2) with
      ⟨e, he, hdown⟩
    rw [he, Option.bind_some, hdown]
    rfl

theorem smallModuliQP_coprime : smallParameters.moduliQP.Pairwise Nat.Coprime := by decide

/-- Two towers and a special one with the plaintext modulus 2. -/
theorem approxModDown_scalesDown_small : exists tables a b,
    modDownTables smallParameters.moduliQ smallParameters.moduliP 2 = some tables ∧
    setFormat Poly.smallCache (residuePolynomial (moduliQlP smallParameters 2) (2 ^ 1)
      fun r => r + 100) .EVALUATION = some a ∧
    approxModDown Poly.smallCache tables (smallParameters.moduliQ.take 3) smallParameters.moduliP
      (2 ^ 1) 2 a = some b ∧
    ScalesDown Poly.smallCache (2 ^ 1) (smallParameters.moduliQ.take 2) smallParameters.moduliP 2
      (fun r => r + 100) b := by
  have hsub : forall q, q ∈ moduliQlP smallParameters 2 ->
      q ∈ [5, 13, 17, 29, 1152921504606846869] := by decide
  have hready : ReadyChain Poly.smallCache 1 Poly.smallRoot (moduliQlP smallParameters 2) :=
    fun q hq => Poly.smallReady (hsub q hq)
  have hpositive : forall q, q ∈ moduliQlP smallParameters 2 -> 0 < q := by decide
  have hresidues : Denotes (2 ^ 1) .COEFFICIENT (moduliQlP smallParameters 2)
      (fun _ q r => (((r + 100 : Nat) : Int) : ZMod q))
      (residuePolynomial (moduliQlP smallParameters 2) (2 ^ 1) fun r => r + 100) := by
    refine ⟨residuePolynomial_wellFormed hpositive _ _, ?_⟩
    intro i q hq r hr
    rw [residuePolynomial_value _ hr hq, ZMod.natCast_mod, Int.cast_natCast]
  rcases setFormat_hasCoefficients (by decide) hready (by decide) hresidues with
    ⟨a, ha, ha_wf, hback⟩
  rcases (approxModDown_scalesDown smallSetting smallModuliQP_coprime (by decide)).1 2
    (by decide) with ⟨tables, htables, hdown⟩
  rcases hdown 2 3 (by decide) (by decide) (by decide) a (fun r => r + 100) ha_wf
    ⟨_, hback, hresidues.wellFormed, by
      intro r hr i q hq
      exact hresidues.value_emod (f := fun _ r => ((r + 100 : Nat) : Int)) hq hr⟩ (by
      intro r _
      exact keepsCarries_of_length ⟨by decide, by decide, by decide, by decide, by decide⟩
        (by decide) _) with ⟨b, hb, hscales⟩
  exact ⟨tables, a, b, htables, ha, hb, hscales⟩

def smallCiphertext : List DCRTPoly := List.replicate 3 (constant [5, 13] [4, 2])

def smallCryptoParameters (tables : ModDownTables) : CryptoParameters where
  scheme := .CKKSRNS_SCHEME
  hybrid := smallParameters
  plaintextModulus := 2
  pModq := smallParameters.moduliQ.map fun q => smallParameters.modulusP % q
  modDown := tables

/-- The third element of a ciphertext does not come back. -/
theorem keySwitchDown_drops_third : exists tables,
    (smallCryptoParameters tables).Precomputed ∧
    (keySwitchExt (smallCryptoParameters tables) smallCiphertext true).bind
      (keySwitchDown Poly.smallCache (smallCryptoParameters tables)) =
        some (smallCiphertext.take 2) ∧
    smallCiphertext.take 2 ≠ smallCiphertext := by
  have hcoprime : Nat.Coprime (plainFactor 0) smallParameters.modulusP := by decide
  rcases exists_modDownTables smallSetting smallModuliQP_coprime hcoprime with
    ⟨tables, htables, _⟩
  have hpre : (smallCryptoParameters tables).Precomputed := ⟨rfl, htables⟩
  have hl : 2 <= smallParameters.sizeQ := by decide
  have hct : forall c, c ∈ smallCiphertext ->
      WellFormed (2 ^ 1) .EVALUATION (smallParameters.moduliQ.take 2) c := by
    intro c hc
    rw [List.eq_of_mem_replicate hc]
    exact constant_wellFormed [4, 2] rfl (by decide)
  have hsetting : Setting Poly.smallCache (smallCryptoParameters tables).hybrid 1 := smallSetting
  rcases keySwitchDown_keySwitchExt hsetting smallModuliQP_coprime rfl hpre (by decide) hl hct
    rfl (by decide) with ⟨e, he, hdown⟩
  refine ⟨tables, hpre, ?_, by decide⟩
  rw [he, Option.bind_some, hdown]

end Hybrid
end KeySwitch
end OpenFHE
