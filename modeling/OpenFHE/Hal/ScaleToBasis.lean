import OpenFHE.Core.NativeInteger.Barrett
import OpenFHE.Foundation.ScaledRounding
import OpenFHE.Hal.BaseConversion

/-!
# Scaling to an output basis

The HPS `ScaleAndRound` divides a product by the input moduli and returns the towers of the
output moduli.  Every arithmetic result of a floating-point number is passed to a rounding.
-/

namespace OpenFHE
namespace Hal
namespace DCRTPoly

open OpenFHE.Core Foundation NativeInteger Finset

/-! ## Operations -/

section Operations

structure OutputTables where
  moduli : List Nat
  tOSHatInvModsDivsModo : List (List Nat)
  tOSHatInvModsDivsFrac : List Rat
  modoBarretMu : List Nat
deriving DecidableEq, Repr

/-- The tables of `PrecomputeCRTTables`; `modulusS` is the product of both bases. -/
def outputTables (fl : Rat -> Rat) (t : Nat) (input output : List Nat) : Option OutputTables := do
  let modulusO := output.prod
  let modulusS := input.prod * output.prod
  let inputInv <- input.mapM fun s => BigInteger.modInverse (modulusS / s) s
  let outputInv <- output.mapM fun o => BigInteger.modInverse (modulusS / o) o
  return {
    moduli := output
    tOSHatInvModsDivsModo := List.zipWith (fun o v =>
      List.zipWith (fun s w => t * modulusO * w / s % o) input inputInv ++
        [t * modulusO * v / o % o]) output outputInv
    tOSHatInvModsDivsFrac := List.zipWith (fun s w =>
      fl (fl ((w * modulusO * t % s : Nat) : Rat) / fl (s : Rat))) input inputInv
    modoBarretMu := output.map fun o => doubleWord ((1 <<< 128) / o) }

variable (fl : Rat -> Rat) (tables : OutputTables) (a : DCRTPoly)

/-- The greatest word that `isConvertableToNativeInt` admits is converted to a `double`. -/
def isConvertableToNativeInt (nu : Rat) : Bool := |nu| <= fl (2 ^ 63 - 2 ^ 9 - 1)

def fractionSum (inputIndex sizeI ri : Nat) : Option Rat :=
  (List.range sizeI).foldlM (fun nu i => do
    let v <- a[i + inputIndex]?
    let xi <- v.values[ri]?
    let frac <- tables.tOSHatInvModsDivsFrac[i]?
    return fl (nu + fl (frac * fl xi))) (1 / 2)

/-- The 128-bit sum of position `ri` for the output tower `j`. -/
def productSum (row : List Nat) (inputIndex outputIndex sizeI j ri : Nat) : Option Nat := do
  let curValue <- (List.range sizeI).foldlM (fun sum i => do
    let v <- a[i + inputIndex]?
    let xi <- v.values[ri]?
    let factor <- row[i]?
    return doubleWord (sum + xi * factor)) 0
  let v <- a[outputIndex + j]?
  let xi <- v.values[ri]?
  let factor <- row[sizeI]?
  return doubleWord (curValue + xi * factor)

/-- The floored sum modulo `oj`, from a word or a double word; other conversions are undefined. -/
def reducedAlpha (native : Bool) (nu : Rat) (oj mu barrettMu : Nat) : Option Nat :=
  if native then
    if nu < 0 ∨ 2 ^ 64 <= nu then none
    else
      let alpha := ⌊nu⌋.toNat
      some (if alpha >= oj then modWithMu alpha oj mu else alpha)
  else
    if nu < 0 ∨ 2 ^ 128 <= nu then none
    else barrettUint128ModUint64 ⌊nu⌋.toNat oj barrettMu

def scaledEntry (branch : Rat -> Bool) (inputIndex outputIndex sizeI j ri : Nat) :
    Option Nat := do
  let nu <- fractionSum fl tables a inputIndex sizeI ri
  let oj <- tables.moduli[j]?
  let mu <- computeMu oj
  let barrettMu <- tables.modoBarretMu[j]?
  let row <- tables.tOSHatInvModsDivsModo[j]?
  let curValue <- productSum a row inputIndex outputIndex sizeI j ri
  let curNativeValue <- barrettUint128ModUint64 curValue oj barrettMu
  let curAlpha <- reducedAlpha (branch nu) nu oj mu barrettMu
  return modAddFast curNativeValue curAlpha oj

/-- `ScaleAndRound` to the basis of the tables, with the choice of the branch as an argument. -/
def scaleToBasisBy (branch : Rat -> Bool) (ringDimension : Nat) (format : Format) :
    Option DCRTPoly := do
  let first <- a[0]?
  let o0 <- tables.moduli[0]?
  let sizeO := tables.moduli.length
  let sizeI := a.length - sizeO
  let inputIndex := if o0 = first.modulus then sizeO else 0
  let outputIndex := if o0 = first.modulus then 0 else sizeI
  (List.range sizeO).mapM fun j => do
    let oj <- tables.moduli[j]?
    let values <- (List.range ringDimension).mapM fun ri =>
      scaledEntry fl tables a branch inputIndex outputIndex sizeI j ri
    return { modulus := oj, format := format, values := values }

def scaleToBasis (ringDimension : Nat) (format : Format) : Option DCRTPoly :=
  scaleToBasisBy fl tables a (isConvertableToNativeInt fl) ringDimension format

/-- All sums take the branch for those that do not fit a word. -/
def scaleToBasisWide (ringDimension : Nat) (format : Format) : Option DCRTPoly :=
  scaleToBasisBy fl tables a (fun _ => false) ringDimension format

end Operations

/-! ## The scaled number -/

section Numbers

structure ScalingBases (input output : List Nat) : Prop where
  coprime : (input ++ output).Pairwise Nat.Coprime
  modulus : forall q, q ∈ input ++ output -> Poly.NttModulus q
  output_ne : output ≠ []
  size : (input ++ output).length < 2 ^ 32

variable {input output : List Nat} (h : ScalingBases input output)

include h

theorem ScalingBases.one_lt : forall q, q ∈ input ++ output -> 1 < q :=
  fun q hq => (h.modulus q hq).one_lt

omit h in
theorem input_get {i s : Nat} (hs : input[i]? = some s) : (input ++ output)[i]? = some s := by
  rw [List.getElem?_append_left (List.getElem?_eq_some_iff.mp hs).1, hs]

omit h in
theorem output_get {j o : Nat} (ho : output[j]? = some o) :
    (input ++ output)[input.length + j]? = some o := by
  rw [List.getElem?_append_right (Nat.le_add_right _ _), Nat.add_sub_cancel_left, ho]

theorem outputQuotient_mul (t : Nat) {k o : Nat} (ho : output[k]? = some o) :
    scaledQuotient (input ++ output) (t * output.prod) (input.length + k) =
      t * cofactorInverse (input ++ output) (input.length + k) * cofactor output k ∧
    scaledRemainder (input ++ output) (t * output.prod) (input.length + k) = 0 := by
  have hgetD : (input ++ output).getD (input.length + k) 1 = o := by
    rw [List.getD_eq_getElem?_getD, output_get ho, Option.getD_some]
  have hpos : 0 < o := by
    have hlt := h.one_lt o (List.mem_append_right _ (List.mem_of_getElem? ho))
    omega
  have hmul : t * output.prod * cofactorInverse (input ++ output) (input.length + k) =
      t * cofactorInverse (input ++ output) (input.length + k) * cofactor output k * o := by
    rw [<- cofactor_mul ho]
    ring
  unfold scaledQuotient scaledRemainder
  rw [hgetD, hmul]
  exact ⟨Nat.mul_div_cancel _ hpos, Nat.mul_mod_left _ _⟩

theorem dvd_outputQuotient (t : Nat) {j k o p : Nat} (ho : output[j]? = some o)
    (hp : output[k]? = some p) (hne : k ≠ j) :
    o ∣ scaledQuotient (input ++ output) (t * output.prod) (input.length + k) := by
  rw [(outputQuotient_mul h t hp).1]
  apply Dvd.dvd.mul_left
  exact dvd_cofactor (List.pairwise_append.mp h.coprime).2.1
    (fun q hq => h.one_lt q (List.mem_append_right _ hq)) ho hp hne

/-- The sum that an output tower accumulates, before it is a double word. -/
def outputAccumulator (input output : List Nat) (t o j : Nat) (x : Nat -> Nat) : Nat :=
  ∑ i ∈ range input.length,
      x i * (scaledQuotient (input ++ output) (t * output.prod) i % o) +
    x (input.length + j) *
      (scaledQuotient (input ++ output) (t * output.prod) (input.length + j) % o)

def exactNu (input output : List Nat) (t : Nat) (x : Nat -> Nat) : Rat :=
  1 / 2 + ∑ i ∈ range input.length, (x i : Rat) *
    ((scaledRemainder (input ++ output) (t * output.prod) i : Rat) / (input ++ output).getD i 1)

variable {X : Int} {x : Nat -> Nat}
  (hx : forall (i q : Nat), (input ++ output)[i]? = some q -> (x i : Int) ≡ X [ZMOD q])

include hx

theorem exists_roundedQuotient (t : Nat) : exists v : Int,
    ⌊(t * X : Rat) / input.prod + 1 / 2⌋ + (t * output.prod : Nat) * v =
      ((∑ i ∈ range input.length,
          x i * scaledQuotient (input ++ output) (t * output.prod) i : Nat) : Int) +
        ((∑ k ∈ range output.length, x (input.length + k) *
          scaledQuotient (input ++ output) (t * output.prod) (input.length + k) : Nat) : Int) +
        ⌊exactNu input output t x⌋ := by
  rcases exists_scaled h.coprime h.one_lt hx (t * output.prod) with ⟨v, hv⟩
  have hO : (output.prod : Rat) ≠ 0 := by
    have hpos := prod_pos_of_one_lt
      (fun q hq => h.one_lt q (List.mem_append_right input hq))
    exact_mod_cast hpos.ne'
  have hquot : ((t * output.prod : Nat) * X : Rat) / (input ++ output).prod =
      (t * X : Rat) / input.prod := by
    rw [List.prod_append, Nat.cast_mul, Nat.cast_mul, mul_right_comm,
      mul_div_mul_right _ _ hO]
  have hinput : ∑ i ∈ range input.length, (x i : Rat) *
      (((t * output.prod * cofactorInverse (input ++ output) i : Nat) : Rat) /
        (input ++ output).getD i 1) =
      ((∑ i ∈ range input.length,
          x i * scaledQuotient (input ++ output) (t * output.prod) i : Nat) : Rat) +
        (exactNu input output t x - 1 / 2) := by
    rw [exactNu, add_sub_cancel_left, Nat.cast_sum, <- sum_add_distrib]
    apply sum_congr rfl
    intro i _
    rw [scaled_split, mul_add, Nat.cast_mul]
  have houtput : ∑ k ∈ range output.length, (x (input.length + k) : Rat) *
      (((t * output.prod * cofactorInverse (input ++ output) (input.length + k) : Nat) : Rat) /
        (input ++ output).getD (input.length + k) 1) =
      ((∑ k ∈ range output.length, x (input.length + k) *
        scaledQuotient (input ++ output) (t * output.prod) (input.length + k) : Nat) : Rat) := by
    rw [Nat.cast_sum]
    apply sum_congr rfl
    intro k hk
    have ho := List.getElem?_eq_getElem (mem_range.mp hk)
    rw [scaled_split, (outputQuotient_mul h t ho).2, Nat.cast_zero, zero_div, add_zero,
      Nat.cast_mul]
  rw [hquot, List.length_append, sum_range_add, hinput, houtput] at hv
  refine ⟨v, ?_⟩
  have hrat : (t * X : Rat) / input.prod + 1 / 2 + ((t * output.prod : Nat) * v : Int) =
      exactNu input output t x +
        (((∑ i ∈ range input.length,
            x i * scaledQuotient (input ++ output) (t * output.prod) i : Nat) : Int) +
          ((∑ k ∈ range output.length, x (input.length + k) *
            scaledQuotient (input ++ output) (t * output.prod) (input.length + k) : Nat) : Int) :
          Int) := by
    rw [Int.cast_mul, Int.cast_add, Int.cast_natCast, Int.cast_natCast, Int.cast_natCast]
    linarith
  have hfloor := congrArg Int.floor hrat
  rw [Int.floor_add_intCast, Int.floor_add_intCast] at hfloor
  rw [hfloor]
  ring

theorem roundedQuotient_modEq (t : Nat) {j o : Nat} (ho : output[j]? = some o) :
    ⌊(t * X : Rat) / input.prod + 1 / 2⌋ ≡
      (outputAccumulator input output t o j x : Int) + ⌊exactNu input output t x⌋ [ZMOD o] := by
  rcases exists_roundedQuotient h hx t with ⟨v, hv⟩
  have hj := (List.getElem?_eq_some_iff.mp ho).1
  have hmultiple : ((t * output.prod : Nat) : Int) * v ≡ 0 [ZMOD o] := by
    apply Int.modEq_zero_iff_dvd.mpr
    apply Dvd.dvd.mul_right
    exact_mod_cast (List.dvd_prod (List.mem_of_getElem? ho)).mul_left t
  have hinput : ∑ i ∈ range input.length,
      x i * scaledQuotient (input ++ output) (t * output.prod) i ≡
      ∑ i ∈ range input.length,
        x i * (scaledQuotient (input ++ output) (t * output.prod) i % o) [MOD o] := by
    apply Nat.ModEq.sum
    intro i _
    exact ((Nat.mod_modEq _ o).mul_left _).symm
  have hother : forall k, k ∈ range output.length -> k ≠ j -> x (input.length + k) *
      scaledQuotient (input ++ output) (t * output.prod) (input.length + k) % o = 0 := by
    intro k hk hne
    have hp := List.getElem?_eq_getElem (mem_range.mp hk)
    exact Nat.mod_eq_zero_of_dvd ((dvd_outputQuotient h t ho hp hne).mul_left _)
  have houtput : ∑ k ∈ range output.length, x (input.length + k) *
      scaledQuotient (input ++ output) (t * output.prod) (input.length + k) ≡
      x (input.length + j) *
        (scaledQuotient (input ++ output) (t * output.prod) (input.length + j) % o)
      [MOD o] := by
    have hsingle : (∑ k ∈ range output.length, x (input.length + k) *
        scaledQuotient (input ++ output) (t * output.prod) (input.length + k)) % o =
        x (input.length + j) *
          scaledQuotient (input ++ output) (t * output.prod) (input.length + j) % o := by
      rw [sum_nat_mod, sum_eq_single_of_mem j (mem_range.mpr hj) hother, Nat.mod_mod]
    exact Nat.ModEq.trans hsingle ((Nat.mod_modEq _ o).mul_left _).symm
  have hsum := Int.natCast_modEq_iff.mpr (hinput.add houtput)
  rw [Nat.cast_add] at hsum
  calc
    ⌊(t * X : Rat) / input.prod + 1 / 2⌋ =
        ⌊(t * X : Rat) / input.prod + 1 / 2⌋ + 0 := (add_zero _).symm
    _ ≡ ⌊(t * X : Rat) / input.prod + 1 / 2⌋ + (t * output.prod : Nat) * v [ZMOD o] :=
      hmultiple.symm.add_left _
    _ = _ := hv
    _ ≡ _ [ZMOD o] := hsum.add_right _

end Numbers

/-! ## The tables -/

section Tables

def inputFraction (fl : Rat -> Rat) (input output : List Nat) (t i : Nat) : Rat :=
  fl (fl (scaledRemainder (input ++ output) (t * output.prod) i : Rat) /
    fl ((input ++ output).getD i 1 : Rat))

structure OutputTables.Exact (tables : OutputTables) (fl : Rat -> Rat) (t : Nat)
    (input output : List Nat) : Prop where
  moduli : tables.moduli = output
  frac : forall i, i < input.length ->
    tables.tOSHatInvModsDivsFrac[i]? = some (inputFraction fl input output t i)
  modo : forall (j o : Nat), output[j]? = some o -> exists row : List Nat,
    tables.tOSHatInvModsDivsModo[j]? = some row ∧
    (forall i, i < input.length ->
      row[i]? = some (scaledQuotient (input ++ output) (t * output.prod) i % o)) ∧
    row[input.length]? =
      some (scaledQuotient (input ++ output) (t * output.prod) (input.length + j) % o)
  barretMu : forall (j o : Nat), output[j]? = some o ->
    tables.modoBarretMu[j]? = some (doubleWord (2 ^ 128 / o))

variable {input output : List Nat} (h : ScalingBases input output)

include h

theorem inverses_spec (part : List Nat) (offset : Nat)
    (hpart : forall (i q : Nat), part[i]? = some q -> (input ++ output)[offset + i]? = some q) :
    exists inverses, part.mapM (fun s =>
        BigInteger.modInverse (input.prod * output.prod / s) s) = some inverses ∧
      inverses.length = part.length ∧ forall i, i < part.length ->
        inverses[i]? = some (cofactorInverse (input ++ output) (offset + i)) := by
  rcases mapM_spec (l := part)
    (f := fun s => BigInteger.modInverse (input.prod * output.prod / s) s)
    (fun s w => w < s ∧ (input ++ output).prod / s * w % s = 1) (by
      intro s hs
      rcases List.mem_iff_getElem?.mp hs with ⟨i, hi⟩
      have hmem := List.mem_of_getElem? (hpart i s hi)
      rcases BigInteger.modInverse_spec (h.one_lt s hmem)
        (coprime_prod_div h.coprime h.one_lt hmem) with ⟨w, hw, hlt, hmul⟩
      rw [List.prod_append] at hw hmul ⊢
      exact ⟨w, hw, hlt, hmul⟩) with ⟨inverses, hinverses, hlength, hget⟩
  refine ⟨inverses, hinverses, hlength, ?_⟩
  intro i hi
  have hw := List.getElem?_eq_getElem (show i < inverses.length by omega)
  have hs := List.getElem?_eq_getElem hi
  rcases hget i _ _ hs hw with ⟨hlt, hmul⟩
  rw [<- cofactor_eq (hpart i _ hs)] at hmul
  rw [hw, eq_cofactorInverse h.coprime h.one_lt (hpart i _ hs) hlt hmul]

theorem outputTables_exact (fl : Rat -> Rat) (t : Nat) : exists tables,
    outputTables fl t input output = some tables ∧ tables.Exact fl t input output := by
  rcases inverses_spec h input 0 (fun i q hq => by
    rw [Nat.zero_add]
    exact input_get hq) with ⟨inputInv, hinputInv, hinputLength, hinputGet⟩
  rcases inverses_spec h output input.length
    (fun j o ho => output_get ho) with ⟨outputInv, houtputInv, _, houtputGet⟩
  have hquotient : forall i, i < input.length -> exists s, input[i]? = some s ∧
      (input ++ output).getD i 1 = s ∧
      inputInv[i]? = some (cofactorInverse (input ++ output) i) := by
    intro i hi
    have hs := List.getElem?_eq_getElem hi
    have hinv := hinputGet i hi
    rw [Nat.zero_add] at hinv
    refine ⟨_, hs, ?_, hinv⟩
    rw [List.getD_eq_getElem?_getD, input_get hs, Option.getD_some]
  refine ⟨_, by rw [outputTables, hinputInv, houtputInv]; rfl, ?_⟩
  constructor
  · rfl
  · intro i hi
    rcases hquotient i hi with ⟨s, hs, hgetD, hinv⟩
    rw [List.getElem?_zipWith, hs, hinv, inputFraction, scaledRemainder, hgetD]
    show some (fl (fl ((cofactorInverse (input ++ output) i * output.prod * t % s : Nat) : Rat) /
      fl (s : Rat))) = _
    rw [show cofactorInverse (input ++ output) i * output.prod * t =
      t * output.prod * cofactorInverse (input ++ output) i by ring]
  · intro j o ho
    have hj := (List.getElem?_eq_some_iff.mp ho).1
    refine ⟨_, by rw [List.getElem?_zipWith, ho, houtputGet j hj], ?_, ?_⟩
    · intro i hi
      rcases hquotient i hi with ⟨s, hs, hgetD, hinv⟩
      rw [List.getElem?_append_left (by rw [List.length_zipWith, hinputLength]; omega),
        List.getElem?_zipWith, hs, hinv, scaledQuotient, hgetD]
    · have hlength : (List.zipWith (fun s w => t * output.prod * w / s % o) input
          inputInv).length = input.length := by
        rw [List.length_zipWith, hinputLength, Nat.min_self]
      have hgetD : (input ++ output).getD (input.length + j) 1 = o := by
        rw [List.getD_eq_getElem?_getD, output_get ho, Option.getD_some]
      rw [List.getElem?_append_right (by omega), hlength, Nat.sub_self, scaledQuotient, hgetD]
      rfl
  · intro j o ho
    rw [List.getElem?_map, ho]
    rfl

end Tables

/-! ## One coefficient -/

section Coefficients

/-- The residue of a number at a position of the joined bases. -/
def jointResidue (input output : List Nat) (X : Int) (i : Nat) : Nat :=
  (X % (input ++ output).getD i 1).toNat

def inputNu (fl : Rat -> Rat) (input output : List Nat) (t : Nat) (X : Int) : Rat :=
  roundedSum fl (1 / 2) (inputFraction fl input output t) (jointResidue input output X)
    input.length

/-- The towers from the offset on have the residues of the numbers. -/
def Located (a : DCRTPoly) (basis : List Nat) (offset n : Nat) (X : Nat -> Int) : Prop :=
  forall (i q : Nat), basis[i]? = some q -> forall r, r < n ->
    exists v, a[offset + i]? = some v ∧ v.values[r]? = some (X r % q).toNat

/-- The word that is added where it is not below the modulus. -/
def wordAlpha (o alpha : Nat) : Nat :=
  if alpha >= o then modWithMu alpha o (2 ^ (2 * getMSB o + 3) / o) else alpha

variable {input output : List Nat} (h : ScalingBases input output)

theorem jointResidue_input {X : Int} {i s : Nat} (hs : input[i]? = some s) :
    jointResidue input output X i = (X % s).toNat := by
  rw [jointResidue, List.getD_eq_getElem?_getD, input_get hs, Option.getD_some]

theorem jointResidue_output {X : Int} {j o : Nat} (ho : output[j]? = some o) :
    jointResidue input output X (input.length + j) = (X % o).toNat := by
  rw [jointResidue, List.getD_eq_getElem?_getD, output_get ho, Option.getD_some]

include h

theorem jointResidue_modEq (X : Int) (i q : Nat) (hq : (input ++ output)[i]? = some q) :
    (jointResidue input output X i : Int) ≡ X [ZMOD q] := by
  have hlt := h.one_lt q (List.mem_of_getElem? hq)
  rw [jointResidue, List.getD_eq_getElem?_getD, hq, Option.getD_some,
    Int.toNat_of_nonneg (Int.emod_nonneg _ (by omega))]
  exact Int.mod_modEq X q

theorem inputNu_between {fl : Rat -> Rat} (hfl : Rounding fl) (t : Nat) (X : Int) :
    0 <= inputNu fl input output t X ∧ inputNu fl input output t X < 2 ^ 128 := by
  have hsize : input.length + 1 <= 2 ^ 32 := by
    have hlength := h.size
    rw [List.length_append] at hlength
    omega
  have hmodulus : forall i, i < input.length -> exists s, input[i]? = some s ∧
      (input ++ output).getD i 1 = s ∧ 1 < s ∧ s < 2 ^ 60 := by
    intro i hi
    have hs := List.getElem?_eq_getElem hi
    have hq := h.modulus _ (List.mem_append_left output (List.mem_of_getElem? hs))
    refine ⟨_, hs, ?_, hq.one_lt, hq.lt⟩
    rw [List.getD_eq_getElem?_getD, input_get hs, Option.getD_some]
  have hbounds := roundedSum_between hfl (1 / 2) (inputFraction fl input output t)
    (jointResidue input output X) (n := input.length) (e := 60) (hsize.trans (by decide)) (by decide) (by norm_num)
    (by
      intro i hi
      rcases hmodulus i hi with ⟨s, _, hgetD, hone, _⟩
      apply hfl.quotient
      rw [scaledRemainder, hgetD]
      exact Nat.mod_lt _ (by omega))
    (by
      intro i hi
      rcases hmodulus i hi with ⟨s, hs, _, hone, hlt⟩
      rw [jointResidue_input hs]
      have hmod := Int.emod_lt_of_pos X (show (0 : Int) < s by omega)
      omega)
  constructor
  · exact hbounds.1
  · have hcount : ((input.length + 1 : Nat) : Rat) <= 2 ^ 32 := by exact_mod_cast hsize
    calc
      inputNu fl input output t X <= (input.length + 1 : Nat) * 2 ^ 60 := hbounds.2
      _ <= 2 ^ 32 * 2 ^ 60 := mul_le_mul_of_nonneg_right hcount (by norm_num)
      _ < 2 ^ 128 := by norm_num

variable {fl : Rat -> Rat} {t : Nat} {tables : OutputTables}
  (htables : tables.Exact fl t input output) {a : DCRTPoly} {n inputIndex outputIndex : Nat}
  {X : Nat -> Int} (hinput : Located a input inputIndex n X)
  (houtput : Located a output outputIndex n X)

include htables hinput

omit h in
theorem fractionSum_eq {r : Nat} (hr : r < n) :
    fractionSum fl tables a inputIndex input.length r =
      some (inputNu fl input output t (X r)) := by
  rcases foldlM_range_spec (n := input.length) (s := (1 / 2 : Rat))
    (f := fun nu i => do
      let v <- a[i + inputIndex]?
      let xi <- v.values[r]?
      let frac <- tables.tOSHatInvModsDivsFrac[i]?
      return fl (nu + fl (frac * fl xi)))
    (fun i nu => nu = roundedSum fl (1 / 2) (inputFraction fl input output t)
      (jointResidue input output (X r)) i) rfl (by
      intro i hi nu hnu
      have hs := List.getElem?_eq_getElem hi
      rcases hinput i _ hs r hr with ⟨v, hv, hvalue⟩
      refine ⟨_, ?_, rfl⟩
      rw [Nat.add_comm i inputIndex, hv, hnu]
      simp only [Option.bind_eq_bind, Option.bind_some, hvalue, htables.frac i hi]
      rw [roundedSum, jointResidue_input hs]
      rfl) with ⟨nu, hrun, hnu⟩
  rw [fractionSum, hrun, hnu, inputNu]

include houtput

omit h in
theorem productSum_eq {r j o : Nat} (hr : r < n) (ho : output[j]? = some o) {row : List Nat}
    (hrow : tables.tOSHatInvModsDivsModo[j]? = some row) :
    productSum a row inputIndex outputIndex input.length j r = some (doubleWord
      (outputAccumulator input output t o j (jointResidue input output (X r)))) := by
  rcases htables.modo j o ho with ⟨row', hrow', hget, hlast⟩
  cases hrow.symm.trans hrow'
  rcases foldlM_range_spec (n := input.length) (s := 0)
    (f := fun sum i => do
      let v <- a[i + inputIndex]?
      let xi <- v.values[r]?
      let factor <- row[i]?
      return doubleWord (sum + xi * factor))
    (fun k sum => sum = doubleWord (∑ i ∈ range k, jointResidue input output (X r) i *
      (scaledQuotient (input ++ output) (t * output.prod) i % o))) rfl (by
      intro i hi sum hsum
      have hs := List.getElem?_eq_getElem hi
      rcases hinput i _ hs r hr with ⟨v, hv, hvalue⟩
      refine ⟨_, ?_, rfl⟩
      rw [Nat.add_comm i inputIndex, hv, hsum]
      simp only [Option.bind_eq_bind, Option.bind_some, hvalue, hget i hi]
      rw [sum_range_succ, jointResidue_input hs, doubleWord, doubleWord, Nat.mod_add_mod]
      rfl) with ⟨sum, hrun, hsum⟩
  rcases houtput j o ho r hr with ⟨v, hv, hvalue⟩
  unfold productSum
  rw [hrun]
  simp only [Option.bind_eq_bind, Option.bind_some, hv, hvalue, hlast]
  rw [hsum, outputAccumulator, jointResidue_output ho, doubleWord, doubleWord, Nat.mod_add_mod]
  rfl

omit hinput houtput htables in
theorem modWithMu_computed {o : Nat} (ho : o ∈ input ++ output) :
    computeMu o = some (2 ^ (2 * getMSB o + 3) / o) := by
  have hq := h.modulus o ho
  have hodd := hq.odd
  exact computeMu_eq (by rintro rfl; exact absurd hodd (by decide)) hq.one_lt hq.lt

theorem scaledEntry_eq (hfl : Rounding fl) {branch : Rat -> Bool} {r j o : Nat} (hr : r < n)
    (ho : output[j]? = some o) (hnative : branch (inputNu fl input output t (X r)) = true ->
      inputNu fl input output t (X r) < 2 ^ 64) :
    scaledEntry fl tables a branch inputIndex outputIndex input.length j r = some (modAddFast
      (doubleWord (outputAccumulator input output t o j (jointResidue input output (X r))) % o)
      (if branch (inputNu fl input output t (X r)) then
        wordAlpha o ⌊inputNu fl input output t (X r)⌋.toNat
      else ⌊inputNu fl input output t (X r)⌋.toNat % o) o) := by
  have hmem := List.mem_append_right input (List.mem_of_getElem? ho)
  have hq := h.modulus o hmem
  have hpos : 0 < o := by
    have hone := hq.one_lt
    omega
  have ho62 : o < 2 ^ 62 := lt_trans hq.lt (by norm_num)
  rcases htables.modo j o ho with ⟨row, hrow, _⟩
  rcases inputNu_between h hfl t (X r) with ⟨hnonneg, hlt⟩
  have hword : doubleWord (outputAccumulator input output t o j
      (jointResidue input output (X r))) < 2 ^ 128 := Nat.mod_lt _ (by norm_num)
  have halpha : ⌊inputNu fl input output t (X r)⌋.toNat < 2 ^ 128 := by
    have hfloor : ⌊inputNu fl input output t (X r)⌋ < 2 ^ 128 := by
      rw [Int.floor_lt]
      exact_mod_cast hlt
    have hfloor0 := Int.floor_nonneg.mpr hnonneg
    omega
  have hreduced : reducedAlpha (branch (inputNu fl input output t (X r)))
      (inputNu fl input output t (X r)) o (2 ^ (2 * getMSB o + 3) / o)
      (doubleWord (2 ^ 128 / o)) = some (if branch (inputNu fl input output t (X r)) then
        wordAlpha o ⌊inputNu fl input output t (X r)⌋.toNat
      else ⌊inputNu fl input output t (X r)⌋.toNat % o) := by
    unfold reducedAlpha
    cases hbranch : branch (inputNu fl input output t (X r)) with
    | true =>
        rw [if_pos rfl, if_pos rfl,
          if_neg (not_or.mpr ⟨not_lt.mpr hnonneg, not_le.mpr (hnative hbranch)⟩)]
        rfl
    | false =>
        rw [if_neg Bool.false_ne_true, if_neg Bool.false_ne_true,
          if_neg (not_or.mpr ⟨not_lt.mpr hnonneg, not_le.mpr hlt⟩),
          barrettUint128ModUint64_eq halpha hpos ho62]
  unfold scaledEntry
  rw [fractionSum_eq htables hinput hr]
  have hmoduli : tables.moduli[j]? = some o := by rw [htables.moduli, ho]
  simp only [Option.bind_eq_bind, Option.bind_some, hmoduli, modWithMu_computed h hmem,
    htables.barretMu j o ho, hrow, productSum_eq htables hinput houtput hr ho hrow,
    barrettUint128ModUint64_eq hword hpos ho62, hreduced]
  rfl

end Coefficients

/-! ## All coefficients -/

section Towers

theorem mapM_entries {targets : List Nat} {n : Nat} {format : Format} {f : Nat -> Option Poly}
    {entry : Nat -> Nat -> Option Nat} {b : DCRTPoly}
    (hf : forall (j p : Nat), targets[j]? = some p ->
      f j = ((List.range n).mapM (entry j)).bind fun values => some ⟨p, format, values⟩)
    (hb : (List.range targets.length).mapM f = some b) {j p r : Nat} (hp : targets[j]? = some p)
    (hr : r < n) : entry j r = some (value b j r) := by
  have hj := (List.getElem?_eq_some_iff.mp hp).1
  rcases mapM_getElem? hb (List.getElem?_range hj) with ⟨v, hv, htower⟩
  rw [hf j p hp] at htower
  rcases Option.bind_eq_some_iff.mp htower with ⟨values, hvalues, heq⟩
  rcases mapM_getElem? hvalues (List.getElem?_range hr) with ⟨y, hy, hentry⟩
  cases heq
  rw [hentry, value_eq hv, Poly.value, List.getD_eq_getElem?_getD, hy, Option.getD_some]

theorem located_of_joined {joined basis : List Nat} {offset n : Nat} {format : Format}
    {a : DCRTPoly} (ha : WellFormed n format joined a) {X : Nat -> Int}
    (hX : forall r, r < n -> forall (i q : Nat), joined[i]? = some q ->
      (value a i r : Int) = X r % q)
    (hbasis : forall (i q : Nat), basis[i]? = some q -> joined[offset + i]? = some q) :
    Located a basis offset n X := by
  intro i q hq r hr
  have hjoined := hbasis i q hq
  rcases ha.exists_tower hjoined with ⟨v, hv, hwf⟩
  have hlength : r < v.values.length := by
    rw [hwf.2.2.1]
    exact hr
  have hvalue := hX r hr _ q hjoined
  rw [value_eq hv, Poly.value, List.getD_eq_getElem _ _ hlength] at hvalue
  refine ⟨v, hv, ?_⟩
  rw [List.getElem?_eq_getElem hlength, <- hvalue, Int.toNat_natCast]

theorem modAddFast_wordAlpha {o cur alpha : Nat} (ho : Poly.NttModulus o) (hcur : cur < o)
    (halpha : alpha <= 2 ^ 63) :
    modAddFast cur (wordAlpha o alpha) o = (cur + alpha) % o <->
      cur + wordAlpha o alpha < 2 * o := by
  have hlt := ho.lt
  have hodd := ho.odd
  have hclass : wordAlpha o alpha % o = alpha % o ∧ wordAlpha o alpha <= alpha := by
    unfold wordAlpha
    split
    · exact modMu_mod ho.one_lt hlt (by rintro rfl; exact absurd hodd (by decide))
        (lt_of_le_of_lt halpha (by decide))
    · exact ⟨rfl, le_refl alpha⟩
  rcases hclass with ⟨hmod, hle⟩
  have hsum : modAddFast cur (wordAlpha o alpha) o =
      if cur + wordAlpha o alpha >= o then cur + wordAlpha o alpha - o
      else cur + wordAlpha o alpha := by
    have hword : cur + wordAlpha o alpha < 2 ^ maxBits := by
      simp only [maxBits]
      omega
    unfold modAddFast
    rw [word_eq hword]
    dsimp only
    split
    next hge => exact subFast_eq hge hword
    next => rfl
  have hresidue : (cur + alpha) % o = (cur + wordAlpha o alpha) % o := by
    rw [Nat.add_mod, <- hmod, <- Nat.add_mod]
  rw [hsum, hresidue]
  generalize cur + wordAlpha o alpha = s
  have hslt := Nat.mod_lt s (show o > 0 by omega)
  split
  next hge =>
      constructor
      · intro heq
        omega
      · intro hsmall
        rw [Nat.mod_eq_sub_mod hge, Nat.mod_eq_of_lt (by omega)]
  next hless =>
      constructor
      · intro _
        omega
      · intro _
        rw [Nat.mod_eq_of_lt (by omega)]

variable {input output : List Nat} (h : ScalingBases input output)

theorem le_of_convertable {fl : Rat -> Rat} (hfl : Rounding fl) {nu : Rat}
    (hnu : isConvertableToNativeInt fl nu = true) : nu <= 2 ^ 63 := by
  have hle : |nu| <= fl (2 ^ 63 - 2 ^ 9 - 1) := of_decide_eq_true hnu
  have hbound := hfl.between (m := 1) (e := 63) (x := 2 ^ 63 - 2 ^ 9 - 1) (by decide) (by decide)
    (by norm_num) (by norm_num)
  have habs := le_abs_self nu
  calc
    nu <= |nu| := habs
    _ <= fl (2 ^ 63 - 2 ^ 9 - 1) := hle
    _ <= (1 : Nat) * 2 ^ 63 := hbound.2
    _ = 2 ^ 63 := by norm_num

/-- The integer that the towers stand for: the rounded quotient, and the rounding of the sum. -/
def scaledInteger (fl : Rat -> Rat) (t : Nat) (input output : List Nat) (X : Int) : Int :=
  ⌊(t * X : Rat) / input.prod + 1 / 2⌋ +
    (⌊inputNu fl input output t X⌋ - ⌊inputNu (fun y => y) input output t X⌋)

/-- The towers of the output basis are the residues of one integer. -/
def ScaledTowers (fl : Rat -> Rat) (t : Nat) (input output : List Nat) (n : Nat)
    (format : Format) (X : Nat -> Int) (b : DCRTPoly) : Prop :=
  WellFormed n format output b ∧ forall r, r < n -> forall (j o : Nat), output[j]? = some o ->
    (value b j r : Int) = scaledInteger fl t input output (X r) % o

/-- No carry is lost at the tower, and the native word is reduced far enough. -/
def KeepsTower (fl : Rat -> Rat) (t : Nat) (input output : List Nat) (j o : Nat) (X : Int) :
    Prop :=
  let T := outputAccumulator input output t o j (jointResidue input output X)
  o ∣ 2 ^ 128 * (T / 2 ^ 128) ∧
    (isConvertableToNativeInt fl (inputNu fl input output t X) = true ->
      T % o + wordAlpha o ⌊inputNu fl input output t X⌋.toNat < 2 * o)

include h

theorem scaledInteger_mod {fl : Rat -> Rat} (hfl : Rounding fl) (t : Nat) (X : Int) {j o : Nat}
    (ho : output[j]? = some o) : scaledInteger fl t input output X % o =
      ((outputAccumulator input output t o j (jointResidue input output X) +
        ⌊inputNu fl input output t X⌋.toNat : Nat) : Int) % o := by
  have hexact : inputNu (fun y => y) input output t X =
      exactNu input output t (jointResidue input output X) := by
    rw [inputNu, roundedSum_exact]
    rfl
  have hmod := roundedQuotient_modEq h (jointResidue_modEq h X) t ho
  rw [Nat.cast_add, Int.toNat_of_nonneg (Int.floor_nonneg.mpr (inputNu_between h hfl t X).1)]
  unfold scaledInteger
  rw [hexact]
  have hsum := hmod.add_right
    (⌊inputNu fl input output t X⌋ - ⌊exactNu input output t (jointResidue input output X)⌋)
  rw [add_assoc, add_sub_cancel] at hsum
  exact hsum

variable {fl : Rat -> Rat} {t : Nat} {tables : OutputTables} {joined : List Nat} {n : Nat}
  {format : Format} {a : DCRTPoly} {X : Nat -> Int}

omit h in
def towerEntries (fl : Rat -> Rat) (tables : OutputTables) (a : DCRTPoly)
    (branch : Rat -> Bool) (inputIndex outputIndex sizeI n : Nat) (format : Format) (j : Nat) :
    Option Poly := do
  let oj <- tables.moduli[j]?
  let values <- (List.range n).mapM fun ri =>
    scaledEntry fl tables a branch inputIndex outputIndex sizeI j ri
  return { modulus := oj, format := format, values := values }

theorem scaleToBasisBy_eq (htables : tables.Exact fl t input output)
    (hjoined : joined = input ++ output ∨ joined = output ++ input)
    (ha : WellFormed n format joined a)
    (hX : forall r, r < n -> forall (i q : Nat), joined[i]? = some q ->
      (value a i r : Int) = X r % q) :
    exists inputIndex outputIndex, Located a input inputIndex n X ∧
      Located a output outputIndex n X ∧ forall branch,
        scaleToBasisBy fl tables a branch n format = (List.range output.length).mapM
          (towerEntries fl tables a branch inputIndex outputIndex input.length n format) := by
  have hpos := List.length_pos_iff.mpr h.output_ne
  have ho := List.getElem?_eq_getElem hpos
  have hlength : a.length = input.length + output.length := by
    rw [ha.length_eq]
    rcases hjoined with rfl | rfl
    · rw [List.length_append]
    · rw [List.length_append, Nat.add_comm]
  have hfirst : joined = output ++ input ∨
      joined = input ++ output ∧ exists s, input[0]? = some s ∧ output[0] ≠ s := by
    rcases hjoined with rfl | rfl
    · cases hinput : input with
      | nil =>
          left
          rw [List.nil_append, List.append_nil]
      | cons s rest =>
          right
          refine ⟨rfl, s, rfl, ?_⟩
          intro heq
          have hcoprime := (List.pairwise_append.mp h.coprime).2.2 s
            (by rw [hinput]; exact List.mem_cons_self) _ (List.getElem_mem hpos)
          rw [heq, Nat.coprime_self] at hcoprime
          have hone := h.one_lt s (List.mem_append_left _ (by
            rw [hinput]
            exact List.mem_cons_self))
          omega
    · left
      rfl
  have hunfold : forall (first : Poly) branch, a[0]? = some first ->
      scaleToBasisBy fl tables a branch n format = (List.range output.length).mapM
        (towerEntries fl tables a branch
          (if output[0] = first.modulus then output.length else 0)
          (if output[0] = first.modulus then 0 else input.length) input.length n format) := by
    intro first branch hget
    unfold scaleToBasisBy
    simp only [hget, htables.moduli, ho, Option.bind_eq_bind, Option.bind_some, hlength,
      Nat.add_sub_cancel]
    congr 1
    funext j
    unfold towerEntries
    rw [htables.moduli]
    rfl
  rcases hfirst with rfl | ⟨rfl, s, hs, hne⟩
  · have hget : (output ++ input)[0]? = some output[0] := by
      rw [List.getElem?_append_left hpos, ho]
    rcases ha.exists_tower hget with ⟨first, hfirst, hwf⟩
    refine ⟨output.length, 0, located_of_joined ha hX ?_, located_of_joined ha hX ?_, ?_⟩
    · intro i q hq
      rw [List.getElem?_append_right (Nat.le_add_right _ _), Nat.add_sub_cancel_left, hq]
    · intro j o hj
      rw [Nat.zero_add, List.getElem?_append_left (List.getElem?_eq_some_iff.mp hj).1, hj]
    · intro branch
      have hrun := hunfold first branch hfirst
      rw [if_pos hwf.1.symm, if_pos hwf.1.symm] at hrun
      exact hrun
  · rcases ha.exists_tower (input_get hs) with ⟨first, hfirst, hwf⟩
    have hdiffer : ¬ output[0] = first.modulus := by
      rw [hwf.1]
      exact hne
    refine ⟨0, input.length, located_of_joined ha hX ?_, located_of_joined ha hX ?_, ?_⟩
    · intro i q hq
      rw [Nat.zero_add]
      exact input_get hq
    · intro j o hj
      exact output_get hj
    · intro branch
      have hrun := hunfold first branch hfirst
      rw [if_neg hdiffer, if_neg hdiffer] at hrun
      exact hrun

theorem outputResidue_iff (hfl : Rounding fl) {j o : Nat} (ho : output[j]? = some o) (Y : Int) :
    (((doubleWord (outputAccumulator input output t o j (jointResidue input output Y)) +
      ⌊inputNu fl input output t Y⌋.toNat) % o : Nat) : Int) =
        scaledInteger fl t input output Y % o <->
    o ∣ 2 ^ 128 *
      (outputAccumulator input output t o j (jointResidue input output Y) / 2 ^ 128) := by
  rw [scaledInteger_mod h hfl t Y ho, <- doubleWord_mod_eq_iff, Int.natCast_mod]
  constructor
  · intro heq
    exact Nat.ModEq.add_right_cancel' _ (Int.natCast_modEq_iff.mp heq)
  · intro heq
    exact Int.natCast_modEq_iff.mpr (Nat.ModEq.add_right _ heq)

section Entries

variable (hfl : Rounding fl) (hexact : tables.Exact fl t input output)
  {inputIndex outputIndex : Nat} (hinput : Located a input inputIndex n X)
  (houtput : Located a output outputIndex n X) {j o r : Nat} (ho : output[j]? = some o)
  (hr : r < n)

include hfl hexact hinput houtput ho hr

theorem wideEntry_eq :
    scaledEntry fl tables a (fun _ => false) inputIndex outputIndex input.length j r =
      some ((doubleWord (outputAccumulator input output t o j
        (jointResidue input output (X r))) +
          ⌊inputNu fl input output t (X r)⌋.toNat) % o) := by
  have hq := h.modulus o (List.mem_append_right input (List.mem_of_getElem? ho))
  have hpos : 0 < o := by
    have hone := hq.one_lt
    omega
  rw [scaledEntry_eq h hexact hinput houtput hfl hr ho (fun hfalse => by cases hfalse),
    if_neg Bool.false_ne_true, modAddFast_eq (lt_trans hq.lt (by norm_num))
      (Nat.mod_lt _ hpos) (Nat.mod_lt _ hpos), <- Nat.add_mod]

theorem nativeEntry_iff :
    scaledEntry fl tables a (isConvertableToNativeInt fl) inputIndex outputIndex input.length
      j r = scaledEntry fl tables a (fun _ => false) inputIndex outputIndex input.length j r <->
    (isConvertableToNativeInt fl (inputNu fl input output t (X r)) = true ->
      doubleWord (outputAccumulator input output t o j
        (jointResidue input output (X r))) % o +
          wordAlpha o ⌊inputNu fl input output t (X r)⌋.toNat < 2 * o) := by
  have hq := h.modulus o (List.mem_append_right input (List.mem_of_getElem? ho))
  have hpos : 0 < o := by
    have hone := hq.one_lt
    omega
  rw [wideEntry_eq h hfl hexact hinput houtput ho hr,
    scaledEntry_eq h hexact hinput houtput hfl hr ho
      (fun hnu => lt_of_le_of_lt (le_of_convertable hfl hnu) (by norm_num)), Option.some_inj]
  cases hnu : isConvertableToNativeInt fl (inputNu fl input output t (X r)) with
  | true =>
      have halpha : ⌊inputNu fl input output t (X r)⌋.toNat <= 2 ^ 63 := by
        have hle := Int.floor_le_floor (le_of_convertable hfl hnu)
        have hpow : ⌊(2 ^ 63 : Rat)⌋ = 2 ^ 63 := by
          rw [show (2 ^ 63 : Rat) = ((2 ^ 63 : Int) : Rat) by norm_num, Int.floor_intCast]
        omega
      rw [if_pos rfl, <- Nat.mod_add_mod, modAddFast_wordAlpha hq (Nat.mod_lt _ hpos) halpha]
      exact ⟨fun hlt _ => hlt, fun hlt => hlt rfl⟩
  | false =>
      rw [if_neg Bool.false_ne_true, modAddFast_eq (lt_trans hq.lt (by norm_num))
        (Nat.mod_lt _ hpos) (Nat.mod_lt _ hpos), <- Nat.add_mod]
      constructor
      · intro _ hfalse
        cases hfalse
      · intro _
        rfl

end Entries

omit h in
theorem towerEntries_eq (hexact : tables.Exact fl t input output) (branch : Rat -> Bool)
    (inputIndex outputIndex : Nat) (j o : Nat) (ho : output[j]? = some o) :
    towerEntries fl tables a branch inputIndex outputIndex input.length n format j =
      ((List.range n).mapM (scaledEntry fl tables a branch inputIndex outputIndex
        input.length j)).bind fun values => some ⟨o, format, values⟩ := by
  unfold towerEntries
  rw [hexact.moduli, ho]
  rfl

theorem exists_scaledTowers (format : Format) (branch : Rat -> Bool) (hfl : Rounding fl)
    (hexact : tables.Exact fl t input output)
    {inputIndex outputIndex : Nat} (hinput : Located a input inputIndex n X)
    (houtput : Located a output outputIndex n X)
    (hkeeps : forall r, r < n -> forall (j o : Nat), output[j]? = some o ->
      KeepsTower fl t input output j o (X r))
    (hbranch : forall (j o : Nat), output[j]? = some o -> forall r, r < n ->
      scaledEntry fl tables a branch inputIndex outputIndex input.length j r =
        scaledEntry fl tables a (fun _ => false) inputIndex outputIndex input.length j r) :
    exists b, (List.range output.length).mapM
        (towerEntries fl tables a branch inputIndex outputIndex input.length n format) = some b ∧
      ScaledTowers fl t input output n format X b := by
  rcases mapM_towers output n format
    (towerEntries fl tables a branch inputIndex outputIndex input.length n format)
    (scaledEntry fl tables a branch inputIndex outputIndex input.length)
    (fun j o r v => (v : Int) = scaledInteger fl t input output (X r) % o)
    (towerEntries_eq hexact branch inputIndex outputIndex) (by
      intro j o ho r hr
      have hq := h.modulus o (List.mem_append_right input (List.mem_of_getElem? ho))
      have hone := hq.one_lt
      refine ⟨_, (hbranch j o ho r hr).trans (wideEntry_eq h hfl hexact hinput houtput ho hr),
        Nat.mod_lt _ (by omega), ?_⟩
      exact (outputResidue_iff h hfl ho (X r)).mpr (hkeeps r hr j o ho).1) with
    ⟨b, hb, hwf, hvalues⟩
  exact ⟨b, hb, hwf, fun r hr j o ho => hvalues j o ho r hr⟩

theorem keepsTower_of_sizes (hfl : Rounding fl) {e : Nat} (he : e <= 60)
    (hlength : input.length + 1 <= 256) (hinput : forall s, s ∈ input -> s <= 2 ^ e)
    (houtput : forall o, o ∈ output -> (input.length + 1) * 2 ^ e <= 2 ^ (2 * getMSB o + 2))
    (Y : Int) {j o : Nat} (ho : output[j]? = some o) : KeepsTower fl t input output j o Y := by
  have hmem := List.mem_of_getElem? ho
  have hq := h.modulus o (List.mem_append_right input hmem)
  have hone := hq.one_lt
  have ho60 := hq.lt
  have hodd := hq.odd
  have hresidue : forall i q, (input ++ output)[i]? = some q ->
      jointResidue input output Y i < q := by
    intro i q hi
    have hlt := h.one_lt q (List.mem_of_getElem? hi)
    have hmod := Int.emod_lt_of_pos Y (show (0 : Int) < q by omega)
    rw [jointResidue, List.getD_eq_getElem?_getD, hi, Option.getD_some]
    omega
  have hproduct : forall i q c, (input ++ output)[i]? = some q ->
      jointResidue input output Y i * (c % o) <= 2 ^ 120 - 1 := by
    intro i q c hi
    have hlt := hresidue i q hi
    have hq60 := (h.modulus q (List.mem_of_getElem? hi)).lt
    have hmod : c % o < o := Nat.mod_lt _ (by omega)
    have hmul : jointResidue input output Y i * (c % o) < 2 ^ 60 * 2 ^ 60 :=
      Nat.mul_lt_mul'' (by omega) (by omega)
    omega
  have hsum : outputAccumulator input output t o j (jointResidue input output Y) < 2 ^ 128 := by
    have hterms := sum_le_card_nsmul (range input.length)
      (fun i => jointResidue input output Y i *
        (scaledQuotient (input ++ output) (t * output.prod) i % o)) (2 ^ 120 - 1) (by
        intro i hi
        exact hproduct i _ _ (input_get (List.getElem?_eq_getElem (mem_range.mp hi))))
    rw [card_range, smul_eq_mul] at hterms
    have hlast := hproduct (input.length + j) o
      (scaledQuotient (input ++ output) (t * output.prod) (input.length + j)) (output_get ho)
    have hcount : (input.length + 1) * (2 ^ 120 - 1) <= 256 * (2 ^ 120 - 1) :=
      Nat.mul_le_mul_right _ hlength
    unfold outputAccumulator
    omega
  constructor
  · rw [Nat.div_eq_of_lt hsum]
    exact dvd_zero o
  · intro hconvertable
    have hnu := roundedSum_between hfl (1 / 2) (inputFraction fl input output t)
      (jointResidue input output Y) (n := input.length) (e := e) (hlength.trans (by decide)) (he.trans (by decide)) (by norm_num)
      (by
        intro i hi
        have hs := List.getElem?_eq_getElem hi
        have hlt := h.one_lt _ (List.mem_of_getElem? (input_get hs))
        apply hfl.quotient
        rw [scaledRemainder, List.getD_eq_getElem?_getD, input_get hs, Option.getD_some]
        exact Nat.mod_lt _ (by omega))
      (by
        intro i hi
        have hs := List.getElem?_eq_getElem hi
        exact (hresidue i _ (input_get hs)).le.trans (hinput _ (List.getElem_mem hi)))
    have hbound : ⌊inputNu fl input output t Y⌋.toNat <= 2 ^ (2 * getMSB o + 2) := by
      have hfloor : ⌊inputNu fl input output t Y⌋ <= ((input.length + 1) * 2 ^ e : Nat) := by
        apply Int.floor_le_iff.mpr
        have hle := hnu.2
        rw [Int.cast_natCast, Nat.cast_mul, Nat.cast_pow, Nat.cast_ofNat]
        exact lt_of_le_of_lt hle (by linarith)
      have hroom := houtput o hmem
      omega
    have halpha : ⌊inputNu fl input output t Y⌋.toNat < 2 ^ maxBits := by
      have hle := Int.floor_le_floor (le_of_convertable hfl hconvertable)
      have hpow : ⌊(2 ^ 63 : Rat)⌋ = 2 ^ 63 := by
        rw [show (2 ^ 63 : Rat) = ((2 ^ 63 : Int) : Rat) by norm_num, Int.floor_intCast]
      simp only [maxBits]
      omega
    have hlt : wordAlpha o ⌊inputNu fl input output t Y⌋.toNat < o := by
      unfold wordAlpha
      split
      · rw [show modWithMu ⌊inputNu fl input output t Y⌋.toNat o (2 ^ (2 * getMSB o + 3) / o) =
          ⌊inputNu fl input output t Y⌋.toNat % o from
          (modMu_iff hone ho60 (by rintro rfl; exact absurd hodd (by decide)) halpha).mpr
            (modLoss_lt hone ho60 hbound)]
        exact Nat.mod_lt _ (by omega)
      · omega
    have hmod := Nat.mod_lt
      (outputAccumulator input output t o j (jointResidue input output Y)) (show o > 0 by omega)
    omega

end Towers

/-! ## Small bases -/

theorem smallScalingBases : ScalingBases [5, 13] [17, 29] := by
  constructor
  · decide
  · intro q hq
    fin_cases hq <;> exact ⟨by decide, by decide, by decide⟩
  · exact List.cons_ne_nil _ _
  · decide

end DCRTPoly
end Hal
end OpenFHE
