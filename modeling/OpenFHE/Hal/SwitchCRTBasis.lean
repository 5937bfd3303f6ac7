import OpenFHE.Hal.BaseConversion
import Mathlib.Algebra.Order.Floor.Ring
import Mathlib.Data.Rat.Floor

/-!
# Exact base conversion

`SwitchCRTBasis` counts how often the digit sum exceeds the source modulus with a running
quotient in floating point, and subtracts that multiple.  The quotient is an argument.
-/

namespace OpenFHE
namespace Hal
namespace DCRTPoly

open OpenFHE.Core Foundation NativeInteger Finset

def mulAccumulate (xs ys : List Nat) : Option Nat :=
  if ys.length < xs.length then none
  else some ((List.zipWith (fun x y => x * y) xs ys).foldl (fun sum term =>
    doubleWord (sum + term)) 0)

structure ExactTables where
  moduli : List Nat
  qHatInvModq : List Nat
  qHatInvModqPrecon : List Nat
  qHatModp : List (List Nat)
  alphaQModp : List (List Nat)
  modpBarrettMu : List Nat
deriving DecidableEq, Repr

/-- `[x_i (Q/q_i)^{-1}]_{q_i}` at one position for every tower. -/
def switchDigits (inverses precons : List Nat) (a : DCRTPoly) (ri : Nat) : Option (List Nat) :=
  (List.range a.length).mapM fun i => do
    let t <- a[i]?
    let x <- t.values[ri]?
    let inverse <- inverses[i]?
    let precon <- precons[i]?
    return modMulFastConst x inverse t.modulus precon

/-- The running quotient as an index; a negative one is undefined. -/
def alphaIndex (nu : Rat) : Option Nat := if nu < 0 then none else some ⌊nu⌋.toNat

/-- One entry of the result; `nu` is the floating-point quotient of the digits. -/
def switchEntry (tables : ExactTables) (nu : List Nat -> Rat) (a : DCRTPoly) (j ri : Nat) :
    Option Nat := do
  let xQHatInvModq <- switchDigits tables.qHatInvModq tables.qHatInvModqPrecon a ri
  let alpha <- alphaIndex (nu xQHatInvModq)
  let alphaQModpri <- tables.alphaQModp[alpha]?
  let pj <- tables.moduli[j]?
  let qHatModpj <- tables.qHatModp[j]?
  let curValue <- mulAccumulate xQHatInvModq qHatModpj
  let mu <- tables.modpBarrettMu[j]?
  let curNativeValue <- barrettUint128ModUint64 curValue pj mu
  let alphaQ <- alphaQModpri[j]?
  return modSubFast curNativeValue alphaQ pj

def switchCRTBasis (tables : ExactTables) (nu : List Nat -> Rat) (ringDimension : Nat)
    (format : Format) (a : DCRTPoly) : Option DCRTPoly :=
  (List.range tables.moduli.length).mapM fun j => do
    let pj <- tables.moduli[j]?
    let values <- (List.range ringDimension).mapM fun ri => switchEntry tables nu a j ri
    return { modulus := pj, format := format, values := values }

/-- The towers that `ExpandCRTBasis` keeps, and the new ones. -/
def expandParts (cache : Poly.TableCache) (tables : ExactTables) (nu : List Nat -> Rat)
    (ringDimension : Nat) (resultFormat format : Format) (a : DCRTPoly) :
    Option (DCRTPoly × DCRTPoly) := do
  let coefficients <- setFormat cache a .COEFFICIENT
  let partP <- switchCRTBasis tables nu ringDimension .COEFFICIENT coefficients
  -- a polynomial in the evaluation format was stored to reduce the number of transforms
  let vectors := if resultFormat = .EVALUATION ∧ format = .EVALUATION then a else coefficients
  return (vectors, partP)

def expandCRTBasis (cache : Poly.TableCache) (tables : ExactTables) (nu : List Nat -> Rat)
    (ringDimension : Nat) (resultFormat format : Format) (a : DCRTPoly) : Option DCRTPoly := do
  let parts <- expandParts cache tables nu ringDimension resultFormat format a
  setFormat cache (parts.1 ++ parts.2) resultFormat

def expandCRTBasisReverseOrder (cache : Poly.TableCache) (tables : ExactTables)
    (nu : List Nat -> Rat) (ringDimension : Nat) (resultFormat format : Format) (a : DCRTPoly) :
    Option DCRTPoly := do
  let parts <- expandParts cache tables nu ringDimension resultFormat format a
  setFormat cache (parts.2 ++ parts.1) resultFormat

/-- The tables that the crypto parameters precompute for an exact conversion. -/
def exactTables (source targets : List Nat) : Option ExactTables := do
  let inverses <- qHatInvModq source
  return {
    moduli := targets
    qHatInvModq := inverses.map Prod.fst
    qHatInvModqPrecon := inverses.map Prod.snd
    qHatModp := targets.map fun p => source.map fun q => source.prod / q % p
    alphaQModp := (List.range (source.length + 1)).map fun i =>
      targets.map fun p => modMul (source.prod % p) i p
    modpBarrettMu := targets.map fun p => doubleWord ((1 <<< 128) / p) }

/-!
## The accumulated products
-/

theorem foldl_doubleWord (terms : List Nat) (start : Nat) :
    terms.foldl (fun sum term => doubleWord (sum + term)) (doubleWord start) =
      doubleWord (start + terms.sum) := by
  induction terms generalizing start with
  | nil =>
      rfl
  | cons term terms ih =>
      have hstep : doubleWord (doubleWord start + term) = doubleWord (start + term) := by
        unfold doubleWord
        rw [Nat.mod_add_mod]
      rw [List.foldl_cons, hstep, ih, List.sum_cons, Nat.add_assoc]

theorem sum_map_range (f : Nat -> Nat) (n : Nat) :
    ((List.range n).map f).sum = ∑ i ∈ range n, f i := by
  induction n with
  | zero =>
      rfl
  | succ n ih =>
      rw [List.range_succ, List.map_append, List.sum_append, ih, sum_range_succ]
      simp

theorem mulAccumulate_eq {xs ys : List Nat} {n : Nat} {f g : Nat -> Nat} (hlength : xs.length = n)
    (hx : forall i, i < n -> xs[i]? = some (f i)) (hy : forall i, i < n -> ys[i]? = some (g i)) :
    mulAccumulate xs ys = some (doubleWord (∑ i ∈ range n, f i * g i)) := by
  have hys : n <= ys.length := by
    rcases Nat.eq_zero_or_pos n with hzero | hpos
    · omega
    · have hlast := (List.getElem?_eq_some_iff.mp (hy (n - 1) (by omega))).1
      omega
  have hzip : List.zipWith (fun x y => x * y) xs ys = (List.range n).map fun i => f i * g i := by
    apply List.ext_getElem?
    intro i
    rcases Nat.lt_or_ge i n with hi | hi
    · rw [List.getElem?_zipWith, hx i hi, hy i hi, List.getElem?_map, List.getElem?_range hi]
      rfl
    · rw [List.getElem?_eq_none (by rw [List.length_zipWith]; omega),
        List.getElem?_eq_none (by rw [List.length_map, List.length_range]; omega)]
  rw [mulAccumulate, if_neg (by omega), hzip, ← sum_map_range]
  congr 1
  have hfold := foldl_doubleWord ((List.range n).map fun i => f i * g i) 0
  rw [Nat.zero_add] at hfold
  exact hfold

/-!
## The running quotient
-/

section Quotient

variable {source : List Nat} (hcoprime : source.Pairwise Nat.Coprime)
  (hone : forall q, q ∈ source -> 1 < q)

def sourceResidue (source : List Nat) (x : Int) : Nat := (x % source.prod).toNat

/-- How often the source modulus is subtracted from the digit sum. -/
def overflowCount (source : List Nat) (x : Int) : Nat :=
  digitOverflow source (baseDigit source (sourceResidue source x)) + if x < 0 then 1 else 0

def runningQuotient (source digits : List Nat) : Rat :=
  1 / 2 + ∑ i ∈ range source.length, (digits.getD i 0 : Rat) / source.getD i 1

def NearQuotient (source : List Nat) (nu : List Nat -> Rat) : Prop :=
  forall digits : List Nat, digits.length = source.length ->
    (forall (i q y : Nat), source[i]? = some q -> digits[i]? = some y -> y < q) ->
    |nu digits - runningQuotient source digits| <= 1 / 4

include hone in
theorem sourceResidue_lt (x : Int) : sourceResidue source x < source.prod := by
  have hpos := prod_pos_of_one_lt hone
  have hlt := Int.emod_lt_of_pos x (by omega : (0 : Int) < source.prod)
  have hnonneg := Int.emod_nonneg x (by omega : (source.prod : Int) ≠ 0)
  unfold sourceResidue
  omega

include hone in
theorem sourceResidue_cast (x : Int) : (sourceResidue source x : Int) = x % source.prod := by
  have hpos := prod_pos_of_one_lt hone
  exact Int.toNat_of_nonneg (Int.emod_nonneg x (by omega))

include hone in
theorem sourceResidue_eq {x : Int} (hx : 4 * |x| <= source.prod) :
    x = sourceResidue source x - (if x < 0 then 1 else 0) * (source.prod : Int) := by
  have hpos := prod_pos_of_one_lt hone
  rw [sourceResidue_cast hone]
  rcases lt_or_ge x 0 with hneg | hneg
  · rw [if_pos hneg, abs_of_neg hneg] at *
    have hmod : (x + source.prod) % source.prod = x + source.prod :=
      Int.emod_eq_of_lt (by omega) (by omega)
    rw [Int.add_emod_right] at hmod
    omega
  · rw [if_neg (by omega)]
    rw [abs_of_nonneg hneg] at hx
    rw [Int.emod_eq_of_lt hneg (by omega)]
    omega

include hone in
theorem sum_fractions (y : Nat -> Nat) :
    ∑ i ∈ range source.length, (y i : Rat) / source.getD i 1 =
      (digitSum source y : Rat) / source.prod := by
  rw [digitSum, Nat.cast_sum, div_eq_mul_inv, sum_mul]
  apply sum_congr rfl
  intro i hi
  have hindex := mem_range.mp hi
  have hq := List.getElem?_eq_getElem hindex
  have hlt := hone _ (List.mem_of_getElem? hq)
  have hpos := prod_pos_of_one_lt hone
  have hmul := cofactor_mul hq
  rw [List.getD_eq_getElem?_getD, hq, Option.getD_some]
  rw [← div_eq_mul_inv, div_eq_div_iff (by exact_mod_cast (by omega : source[i] ≠ 0))
    (by exact_mod_cast hpos.ne'), ← hmul, Nat.cast_mul, Nat.cast_mul]
  ring

include hcoprime hone

/-- The rounded quotient counts the overflows, and the count stays in the table. -/
theorem alphaIndex_eq (hne : source ≠ []) (hodd : source.prod % 2 = 1) {x : Int}
    (hx : 4 * |x| <= source.prod) {nu : Rat}
    (hnu : |nu - (1 / 2 + (digitSum source (baseDigit source (sourceResidue source x)) : Rat) /
      source.prod)| <= 1 / 4) :
    alphaIndex nu = some (overflowCount source x) ∧ overflowCount source x <= source.length := by
  have hpos := prod_pos_of_one_lt hone
  have hQ : (0 : Rat) < source.prod := by exact_mod_cast hpos
  rcases digitSum_eq hcoprime hone (baseDigit_spec hcoprime hone)
    (sourceResidue_lt hone x) (List.length_pos_iff.mpr hne) with ⟨hsum, hlt⟩
  have heq := sourceResidue_eq hone hx
  unfold overflowCount
  generalize digitOverflow source (baseDigit source (sourceResidue source x)) = u at hsum hlt
  have hdiv : (digitSum source (baseDigit source (sourceResidue source x)) : Rat) / source.prod =
      (sourceResidue source x : Rat) / source.prod + u := by
    rw [hsum, Nat.cast_add, Nat.cast_mul, add_div, mul_div_cancel_right₀ _ hQ.ne']
  rw [hdiv] at hnu
  have habs := abs_le.mp hnu
  have hu : (0 : Rat) <= u := Nat.cast_nonneg u
  unfold alphaIndex
  rcases lt_or_ge x 0 with hneg | hneg
  · rw [if_pos hneg] at heq ⊢
    rw [one_mul] at heq
    rw [abs_of_neg hneg] at hx
    have hlow : (3 : Rat) / 4 <= (sourceResidue source x : Rat) / source.prod := by
      rw [div_le_div_iff₀ (by norm_num) hQ]
      exact_mod_cast (by omega : 3 * source.prod <= sourceResidue source x * 4)
    have hhigh : (sourceResidue source x : Rat) / source.prod < 1 := by
      rw [div_lt_one hQ]
      exact_mod_cast sourceResidue_lt hone x
    have hfloor : ⌊nu⌋ = ((u + 1 : Nat) : Int) := by
      rw [Int.floor_eq_iff]
      push_cast
      constructor <;> linarith
    rw [if_neg (by linarith), hfloor]
    exact ⟨rfl, by omega⟩
  · rw [if_neg (not_lt.mpr hneg)] at heq ⊢
    rw [zero_mul, sub_zero] at heq
    rw [abs_of_nonneg hneg] at hx
    have hlow : (0 : Rat) <= (sourceResidue source x : Rat) / source.prod := by positivity
    have hhigh : (sourceResidue source x : Rat) / source.prod < 1 / 4 := by
      rw [div_lt_div_iff₀ hQ (by norm_num)]
      exact_mod_cast (by omega : sourceResidue source x * 4 < 1 * source.prod)
    have hfloor : ⌊nu⌋ = ((u : Nat) : Int) := by
      rw [Int.floor_eq_iff]
      push_cast
      constructor <;> linarith
    rw [if_neg (by linarith), hfloor]
    exact ⟨rfl, by omega⟩

end Quotient

/-!
## The converted numbers
-/

structure ExactTables.Exact (tables : ExactTables) (source : List Nat) : Prop where
  inverse : forall (i q : Nat), source[i]? = some q ->
    exists w : Nat, tables.qHatInvModq[i]? = some w ∧
    w < q ∧ cofactor source i * w % q = 1 ∧ tables.qHatInvModqPrecon[i]? = some (precon w q)
  qHatModp : forall (j p : Nat), tables.moduli[j]? = some p ->
    exists row : List Nat, tables.qHatModp[j]? = some row ∧
    forall i, i < source.length -> row[i]? = some (cofactor source i % p)
  alphaQModp : forall i, i <= source.length ->
    exists row : List Nat, tables.alphaQModp[i]? = some row ∧
    forall (j p : Nat), tables.moduli[j]? = some p -> row[j]? = some (source.prod * i % p)
  modpBarrettMu : forall (j p : Nat), tables.moduli[j]? = some p ->
    tables.modpBarrettMu[j]? = some (doubleWord (2 ^ 128 / p))

theorem exactTables_exact {source targets : List Nat} (h : Convertible source targets) :
    exists tables, exactTables source targets = some tables ∧ tables.moduli = targets ∧
      tables.Exact source := by
  rcases qHatInvModq_spec h with ⟨inverses, hinverses, hinverse⟩
  refine ⟨_, by rw [exactTables, hinverses]; rfl, rfl, hinverse, ?_, ?_, ?_⟩
  · intro j p hp
    refine ⟨_, by rw [List.getElem?_map, hp]; rfl, ?_⟩
    intro i hi
    have hq := List.getElem?_eq_getElem hi
    rw [List.getElem?_map, hq, cofactor_eq hq]
    rfl
  · intro i hi
    refine ⟨_, by rw [List.getElem?_map, List.getElem?_range (by omega)]; rfl, ?_⟩
    intro j p hp
    have hpos := h.pos p (List.mem_of_getElem? hp)
    have hlt := h.target_lt p (List.mem_of_getElem? hp)
    rw [List.getElem?_map, hp, Option.map_some,
      modMul_eq hpos (by simp only [maxBits]; omega), Nat.mod_mul_mod]
  · intro j p hp
    rw [List.getElem?_map, hp]
    rfl

theorem modSubFast_emod {a b p : Nat} (hpos : 0 < p) (hlt : p < 2 ^ 63) :
    (modSubFast (a % p) (b % p) p : Int) = ((a : Int) - b) % p := by
  have hb : b % p < p := Nat.mod_lt _ hpos
  rw [modSubFast_eq hlt (Nat.mod_lt _ hpos) hb, Int.natCast_mod, Nat.cast_add,
    Nat.cast_sub hb.le, Int.natCast_mod, Int.natCast_mod, add_sub, Int.sub_emod,
    Int.add_emod_right, ← Int.sub_emod]
  simp

section Conversion

variable {source : List Nat} {tables : ExactTables} (h : Convertible source tables.moduli)
  (htables : tables.Exact source) {n : Nat} {format : Format} {a : DCRTPoly}
  (ha : WellFormed n format source a) {x : Nat -> Int}
  (hx : forall r, r < n -> forall (i q : Nat), source[i]? = some q ->
    (value a i r : Int) = x r % q)

include h

theorem value_sourceResidue {i q v : Nat} (hq : source[i]? = some q) {x : Int}
    (hv : (v : Int) = x % q) : v = sourceResidue source x % q := by
  have hdvd : (q : Int) ∣ source.prod := by
    exact_mod_cast List.dvd_prod (List.mem_of_getElem? hq)
  have hcast := sourceResidue_cast h.one_lt x
  zify
  rw [hcast, Int.emod_emod_of_dvd _ hdvd, hv]

include htables ha hx

theorem switchDigits_eq {r : Nat} (hr : r < n) :
    exists digits, switchDigits tables.qHatInvModq tables.qHatInvModqPrecon a r = some digits ∧
      digits.length = source.length ∧ forall i, i < source.length ->
        digits[i]? = some (baseDigit source (sourceResidue source (x r)) i) := by
  rcases mapM_range_spec (n := a.length)
    (f := fun i => do
      let t <- a[i]?
      let x <- t.values[r]?
      let inverse <- tables.qHatInvModq[i]?
      let precon <- tables.qHatInvModqPrecon[i]?
      return modMulFastConst x inverse t.modulus precon)
    (fun i y => y = baseDigit source (sourceResidue source (x r)) i) (by
      intro i hi
      rw [ha.length_eq] at hi
      have hq := List.getElem?_eq_getElem hi
      rcases ha.exists_tower hq with ⟨t, ht, hwf⟩
      rcases htables.inverse i _ hq with ⟨w, hw, hwlt, hmul, hprecon⟩
      have hlt := h.source_lt _ (List.mem_of_getElem? hq)
      have hread : t.values[r]? = some (sourceResidue source (x r) % source[i]) := by
        have hlen : r < t.values.length := by
          rw [hwf.2.2.1]
          exact hr
        have hvalue := value_sourceResidue h hq (hx r hr i _ hq)
        rw [value_eq ht, Poly.value, List.getD_eq_getElem _ _ hlen] at hvalue
        rw [List.getElem?_eq_getElem hlen, hvalue]
      have hmod : sourceResidue source (x r) % source[i] < source[i] := Nat.mod_lt _ (by omega)
      refine ⟨_, ?_, rfl⟩
      simp only [ht, hread, hw, hprecon, Option.bind_eq_bind, Option.bind_some]
      rw [hwf.1, modMulFastConst_eq (by omega) hwlt (by simp only [maxBits]; omega),
        mul_inverse_eq_baseDigit h hq hmul]
      rfl) with ⟨digits, hdigits, hlength, hget⟩
  rw [ha.length_eq] at hlength
  refine ⟨digits, hdigits, hlength, ?_⟩
  intro i hi
  have hread := List.getElem?_eq_getElem (show i < digits.length by omega)
  rw [hread, hget i _ hread]

variable (hne : source ≠ []) (hodd : source.prod % 2 = 1)
  (hsmall : forall r, r < n -> 4 * |x r| <= source.prod) {nu : List Nat -> Rat}
  (hnu : NearQuotient source nu)

include hne hodd hsmall hnu

omit htables ha hx in
theorem alphaIndex_digits {r : Nat} (hr : r < n) {digits : List Nat}
    (hlength : digits.length = source.length) (hdigits : forall i, i < source.length ->
      digits[i]? = some (baseDigit source (sourceResidue source (x r)) i)) :
    alphaIndex (nu digits) = some (overflowCount source (x r)) ∧
      overflowCount source (x r) <= source.length := by
  apply alphaIndex_eq h.coprime h.one_lt hne hodd (hsmall r hr)
  rw [← sum_fractions h.one_lt]
  have hnear := hnu digits hlength (by
    intro i q y hq hy
    have hi := (List.getElem?_eq_some_iff.mp hq).1
    cases hy.symm.trans (hdigits i hi)
    exact (baseDigit_spec h.coprime h.one_lt).lt i q hq)
  have hsum : ∑ i ∈ range source.length, (digits.getD i 0 : Rat) / source.getD i 1 =
      ∑ i ∈ range source.length,
        (baseDigit source (sourceResidue source (x r)) i : Rat) / source.getD i 1 := by
    apply sum_congr rfl
    intro i hi
    rw [List.getD_eq_getElem?_getD, hdigits i (mem_range.mp hi), Option.getD_some]
  rwa [runningQuotient, hsum] at hnear

omit htables ha hx hnu hodd in
/-- The overflows are what the digit sum exceeds the number by. -/
theorem digitSum_sub_overflow {r : Nat} (hr : r < n) :
    (digitSum source (baseDigit source (sourceResidue source (x r))) : Int) -
      source.prod * overflowCount source (x r) = x r := by
  have hsum := (digitSum_eq h.coprime h.one_lt (baseDigit_spec h.coprime h.one_lt)
    (sourceResidue_lt h.one_lt (x r)) (List.length_pos_iff.mpr hne)).1
  have heq := sourceResidue_eq h.one_lt (hsmall r hr)
  rw [overflowCount]
  generalize digitOverflow source (baseDigit source (sourceResidue source (x r))) = u at hsum
  rw [hsum, Nat.cast_add, Nat.cast_mul, Nat.cast_add, Nat.cast_ite, Nat.cast_one, Nat.cast_zero]
  linarith

theorem switchEntry_spec {r j p : Nat} (hr : r < n) (hp : tables.moduli[j]? = some p) :
    exists v, switchEntry tables nu a j r = some v ∧ v < p ∧
      ((v : Int) = x r % p <->
        p ∣ 2 ^ 128 * (accumulator source p (sourceResidue source (x r)) / 2 ^ 128)) := by
  have hpos := h.pos p (List.mem_of_getElem? hp)
  have hlt := h.target_lt p (List.mem_of_getElem? hp)
  rcases switchDigits_eq h htables ha hx hr with ⟨digits, hdigits, hlength, hget⟩
  rcases alphaIndex_digits h hne hodd hsmall hnu hr hlength hget with
    ⟨halpha, hle⟩
  rcases htables.alphaQModp _ hle with ⟨row, hrow, hrow_get⟩
  rcases htables.qHatModp j p hp with ⟨hats, hhats, hhats_get⟩
  have hproduct := mulAccumulate_eq hlength hget hhats_get
  have hsub : x r % p = ((digitSum source (baseDigit source (sourceResidue source (x r))) : Int) -
      source.prod * overflowCount source (x r)) % p := by
    rw [digitSum_sub_overflow h hne hsmall hr]
  have hacc := accumulator_mod source p (sourceResidue source (x r))
  rw [← accumulator] at hproduct
  generalize accumulator source p (sourceResidue source (x r)) = sum at hproduct hacc ⊢
  have hword : doubleWord sum < 2 ^ 128 := Nat.mod_lt _ (by norm_num)
  refine ⟨modSubFast (doubleWord sum % p) (source.prod * overflowCount source (x r) % p) p,
    ?_, ?_, ?_⟩
  · unfold switchEntry
    simp only [hdigits, halpha, hrow, hp, hhats, hproduct, htables.modpBarrettMu j p hp,
      hrow_get j p hp, Option.bind_eq_bind, Option.bind_some]
    rw [barrettUint128ModUint64_eq hword hpos (by omega)]
    rfl
  · rw [modSubFast_eq (by omega) (Nat.mod_lt _ hpos) (Nat.mod_lt _ hpos)]
    exact Nat.mod_lt _ hpos
  · rw [modSubFast_emod hpos (by omega), ← doubleWord_mod_eq_iff, hacc, hsub, Nat.cast_mul]
    constructor
    · intro heq
      exact (Int.natCast_modEq_iff).mp (Int.ModEq.add_right_cancel'
        (-((source.prod : Int) * overflowCount source (x r))) heq)
    · intro heq
      exact (Int.natCast_modEq_iff.mpr heq).sub_right _

theorem switchCRTBasis_value (target : Format) :
    exists b, switchCRTBasis tables nu n target a = some b ∧
      WellFormed n target tables.moduli b ∧ forall (j p : Nat), tables.moduli[j]? = some p ->
        forall r, r < n -> ((value b j r : Int) = x r % p <->
          p ∣ 2 ^ 128 * (accumulator source p (sourceResidue source (x r)) / 2 ^ 128)) :=
  mapM_towers _ _ _ _ (switchEntry tables nu a)
    (fun _ p r v => (v : Int) = x r % p <->
      p ∣ 2 ^ 128 * (accumulator source p (sourceResidue source (x r)) / 2 ^ 128))
    (fun j p hp => by
      simp only [hp, Option.bind_eq_bind, Option.bind_some]
      rfl)
    (fun j p hp r hr => switchEntry_spec h htables ha hx hne hodd hsmall hnu hr hp)

end Conversion

/-!
## The joined basis
-/

section Join

variable {cache : Poly.TableCache} {n : Nat} {format : Format} {source targets : List Nat}
  {a b : DCRTPoly}

theorem append_entry {α β : Type _} {xs xs' : List α} (ys ys' : List β)
    (hlength : ys.length = xs.length) {i : Nat} {x : α} (hx : (xs ++ xs')[i]? = some x) :
    (xs[i]? = some x ∧ (ys ++ ys')[i]? = ys[i]?) ∨
      xs'[i - xs.length]? = some x ∧ (ys ++ ys')[i]? = ys'[i - xs.length]? := by
  rcases Nat.lt_or_ge i xs.length with hi | hi
  · rw [List.getElem?_append_left hi] at hx
    exact Or.inl ⟨hx, List.getElem?_append_left (by omega)⟩
  · rw [List.getElem?_append_right hi] at hx
    rw [List.getElem?_append_right (by omega), hlength]
    exact Or.inr ⟨hx, rfl⟩

theorem WellFormed.append (ha : WellFormed n format source a)
    (hb : WellFormed n format targets b) : WellFormed n format (source ++ targets) (a ++ b) := by
  refine ⟨by rw [List.length_append, List.length_append, ha.length_eq, hb.length_eq], ?_⟩
  intro i q t hq ht
  rcases append_entry a b ha.length_eq hq with ⟨hq', heq⟩ | ⟨hq', heq⟩
  · exact ha.get i q t hq' (heq.symm.trans ht)
  · exact hb.get _ q t hq' (heq.symm.trans ht)

theorem value_append (ha : a.length = source.length) {f : Int} {r : Nat}
    (hx : forall (i q : Nat), source[i]? = some q -> (value a i r : Int) = f % q)
    (hy : forall (j p : Nat), targets[j]? = some p -> (value b j r : Int) = f % p) {i q : Nat}
    (hq : (source ++ targets)[i]? = some q) : (value (a ++ b) i r : Int) = f % q := by
  rcases append_entry a b ha hq with ⟨hq', heq⟩ | ⟨hq', heq⟩
  · rw [value, heq, ← value]
    exact hx i q hq'
  · rw [value, heq, ← value]
    exact hy _ q hq'

theorem setFormat_append {target : Format} {a' b' : DCRTPoly}
    (ha : setFormat cache a target = some a') (hb : setFormat cache b target = some b') :
    setFormat cache (a ++ b) target = some (a' ++ b') := by
  unfold setFormat at ha hb ⊢
  rw [List.mapM_append, ha, hb]
  rfl

theorem HasCoefficients.append {f : Nat -> Int} (ha : HasCoefficients cache n source a f)
    (hb : HasCoefficients cache n targets b f) :
    HasCoefficients cache n (source ++ targets) (a ++ b) f := by
  rcases ha with ⟨a', ha', hawf, hx⟩
  rcases hb with ⟨b', hb', hbwf, hy⟩
  refine ⟨a' ++ b', setFormat_append ha' hb', hawf.append hbwf, ?_⟩
  intro r hr i q hq
  exact value_append hawf.length_eq (hx r hr) (hy r hr) hq

theorem WellFormed.hasCoefficients (ha : WellFormed n .COEFFICIENT source a) {f : Nat -> Int}
    (hx : forall r, r < n -> forall (i q : Nat), source[i]? = some q ->
      (value a i r : Int) = f r % q) : HasCoefficients cache n source a f :=
  ⟨a, setFormat_self fun _ ht => ha.format_eq ht, ha, hx⟩

theorem setFormat_keeps {k : Nat} {psi : Nat -> Nat} (hk : 0 < k) (hk31 : k <= 31)
    (hready : ReadyChain cache k psi source) (ha : WellFormed (2 ^ k) format source a)
    {f : Nat -> Int} (hf : HasCoefficients cache (2 ^ k) source a f) (target : Format) :
    exists b, setFormat cache a target = some b ∧ WellFormed (2 ^ k) target source b ∧
      HasCoefficients cache (2 ^ k) source b f := by
  cases target with
  | COEFFICIENT =>
      rcases hf with ⟨b, hb, hbwf, hvalue⟩
      exact ⟨b, hb, hbwf, hbwf.hasCoefficients hvalue⟩
  | EVALUATION =>
      cases format with
      | EVALUATION =>
          exact ⟨a, setFormat_self fun _ ht => ha.format_eq ht, ha, hf⟩
      | COEFFICIENT =>
          rcases hf with ⟨b, hb, _, hvalue⟩
          cases hb.symm.trans (setFormat_self fun _ ht => ha.format_eq ht)
          have hdenotes : Denotes (2 ^ k) .COEFFICIENT source (fun _ q r => (f r : ZMod q)) a := by
            refine ⟨ha, ?_⟩
            intro i q hq r hr
            have hcast := congrArg (Int.cast (R := ZMod q)) (hvalue r hr i q hq)
            rw [Int.cast_natCast, ZMod.intCast_mod] at hcast
            exact hcast
          rcases setFormat_hasCoefficients hk hready hk31 (f := fun _ => f) hdenotes with
            ⟨b, hb, hbwf, hback⟩
          exact ⟨b, hb, hbwf, a, hback, ha, hvalue⟩

end Join

def integerPolynomial (moduli : List Nat) (n : Nat) (x : Nat -> Int) : DCRTPoly :=
  residuePolynomial moduli n fun r => sourceResidue moduli (x r)

/-- Every polynomial for `x` is converted exactly, with an index inside of the table. -/
def Switches (tables : ExactTables) (source : List Nat) (n : Nat) (nu : List Nat -> Rat)
    (x : Nat -> Int) : Prop :=
  forall a : DCRTPoly, WellFormed n .COEFFICIENT source a ->
    (forall r, r < n -> forall (i q : Nat), source[i]? = some q ->
      (value a i r : Int) = x r % q) ->
    (forall r, r < n -> exists digits alpha,
      switchDigits tables.qHatInvModq tables.qHatInvModqPrecon a r = some digits ∧
      alphaIndex (nu digits) = some alpha ∧ alpha <= source.length) ∧
    exists b, switchCRTBasis tables nu n .COEFFICIENT a = some b ∧
      WellFormed n .COEFFICIENT tables.moduli b ∧
      forall (j p : Nat), tables.moduli[j]? = some p -> forall r, r < n ->
        (value b j r : Int) = x r % p

/-- Every polynomial for `x` is expanded to the joined basis, in both orders. -/
def Expands (cache : Poly.TableCache) (tables : ExactTables) (source : List Nat) (n : Nat)
    (nu : List Nat -> Rat) (x : Nat -> Int) : Prop :=
  forall (format resultFormat : Format) (a : DCRTPoly), WellFormed n format source a ->
    HasCoefficients cache n source a x ->
    (exists b, expandCRTBasis cache tables nu n resultFormat format a = some b ∧
      WellFormed n resultFormat (source ++ tables.moduli) b ∧
      HasCoefficients cache n (source ++ tables.moduli) b x) ∧
    exists b, expandCRTBasisReverseOrder cache tables nu n resultFormat format a = some b ∧
      WellFormed n resultFormat (tables.moduli ++ source) b ∧
      HasCoefficients cache n (tables.moduli ++ source) b x

theorem integerPolynomial_value {moduli : List Nat} (hone : forall q, q ∈ moduli -> 1 < q)
    {n r i q : Nat} (x : Nat -> Int) (hr : r < n) (hq : moduli[i]? = some q) :
    (value (integerPolynomial moduli n x) i r : Int) = x r % q := by
  have hdvd : (q : Int) ∣ moduli.prod := by
    exact_mod_cast List.dvd_prod (List.mem_of_getElem? hq)
  rw [integerPolynomial, residuePolynomial_value _ hr hq, Int.natCast_mod, sourceResidue_cast hone,
    Int.emod_emod_of_dvd _ hdvd]

section Exact

variable {source : List Nat} {tables : ExactTables} (h : Convertible source tables.moduli)
  (htables : tables.Exact source) {n : Nat} {x : Nat -> Int} (hne : source ≠ [])
  (hodd : source.prod % 2 = 1) (hsmall : forall r, r < n -> 4 * |x r| <= source.prod)
  {nu : List Nat -> Rat} (hnu : NearQuotient source nu)

include h htables hne hodd hsmall hnu

theorem switches_iff : Switches tables source n nu x <->
    forall r, r < n -> KeepsCarries source tables.moduli (sourceResidue source (x r)) := by
  constructor
  · intro hswitches r hr p hp
    rcases List.mem_iff_getElem?.mp hp with ⟨j, hj⟩
    have ha := residuePolynomial_wellFormed h.source_pos n fun r => sourceResidue source (x r)
    have hx : forall r, r < n -> forall (i q : Nat), source[i]? = some q ->
        (value (integerPolynomial source n x) i r : Int) = x r % q :=
      fun r hr i q hq => integerPolynomial_value h.one_lt x hr hq
    rcases hswitches _ ha hx with ⟨_, b, hb, _, hvalue⟩
    rcases switchCRTBasis_value h htables ha hx hne hodd hsmall hnu .COEFFICIENT with
      ⟨b', hb', _, hvalue'⟩
    cases hb.symm.trans hb'
    exact (hvalue' j p hj r hr).mp (hvalue j p hj r hr)
  · intro hkeeps a ha hx
    constructor
    · intro r hr
      rcases switchDigits_eq h htables ha hx hr with ⟨digits, hdigits, hlength, hget⟩
      rcases alphaIndex_digits h hne hodd hsmall hnu hr hlength hget with ⟨halpha, hle⟩
      exact ⟨digits, _, hdigits, halpha, hle⟩
    · rcases switchCRTBasis_value h htables ha hx hne hodd hsmall hnu .COEFFICIENT with
        ⟨b, hb, hbwf, hvalue⟩
      exact ⟨b, hb, hbwf, fun j p hp r hr =>
        (hvalue j p hp r hr).mpr (hkeeps r hr p (List.mem_of_getElem? hp))⟩

end Exact

theorem Switches.expands {cache : Poly.TableCache} {k : Nat} {psi : Nat -> Nat} (hk : 0 < k)
    (hk31 : k <= 31) {source : List Nat} {tables : ExactTables} {nu : List Nat -> Rat}
    {x : Nat -> Int} (hready : ReadyChain cache k psi (source ++ tables.moduli))
    (h : Switches tables source (2 ^ k) nu x) :
    Expands cache tables source (2 ^ k) nu x := by
  have hsource : ReadyChain cache k psi source :=
    fun q hq => hready q (List.mem_append_left _ hq)
  have htargets : ReadyChain cache k psi tables.moduli :=
    fun q hq => hready q (List.mem_append_right _ hq)
  intro format resultFormat a ha hx
  rcases hx with ⟨coefficients, hcoefficients, hwf, hvalue⟩
  rcases (h coefficients hwf hvalue).2 with ⟨partP, hpartP, hpartP_wf, hpartP_value⟩
  have hpartP_has : HasCoefficients cache (2 ^ k) tables.moduli partP x :=
    hpartP_wf.hasCoefficients fun r hr j p hp => hpartP_value j p hp r hr
  -- the kept towers are the stored ones or the coefficients, and stand for `x` either way
  have hkept : exists vectors keptFormat,
      expandParts cache tables nu (2 ^ k) resultFormat format a = some (vectors, partP) ∧
      WellFormed (2 ^ k) keptFormat source vectors ∧
      HasCoefficients cache (2 ^ k) source vectors x := by
    unfold expandParts
    simp only [hcoefficients, hpartP, Option.bind_eq_bind, Option.bind_some]
    by_cases hstored : resultFormat = .EVALUATION ∧ format = .EVALUATION
    · rw [if_pos hstored]
      exact ⟨a, format, rfl, ha, coefficients, hcoefficients, hwf, hvalue⟩
    · rw [if_neg hstored]
      exact ⟨coefficients, .COEFFICIENT, rfl, hwf, hwf.hasCoefficients hvalue⟩
  rcases hkept with ⟨vectors, keptFormat, hparts, hvectors_wf, hvectors⟩
  rcases setFormat_keeps hk hk31 hsource hvectors_wf hvectors resultFormat with
    ⟨kept, hkept, hkept_wf, hkept_has⟩
  rcases setFormat_keeps hk hk31 htargets hpartP_wf hpartP_has resultFormat with
    ⟨added, hadded, hadded_wf, hadded_has⟩
  constructor
  · refine ⟨kept ++ added, ?_, hkept_wf.append hadded_wf, hkept_has.append hadded_has⟩
    rw [expandCRTBasis, hparts]
    exact setFormat_append hkept hadded
  · refine ⟨added ++ kept, ?_, hadded_wf.append hkept_wf, hadded_has.append hkept_has⟩
    rw [expandCRTBasisReverseOrder, hparts]
    exact setFormat_append hadded hkept

theorem odd_prod {moduli : List Nat} (h : forall q, q ∈ moduli -> q % 2 = 1) :
    moduli.prod % 2 = 1 := by
  induction moduli with
  | nil =>
      rfl
  | cons q moduli ih =>
      have htail := ih fun p hp => h p (List.mem_cons_of_mem q hp)
      rw [List.prod_cons, Nat.mul_mod, h q List.mem_cons_self, htail]

theorem convertible_of_ready {cache : Poly.TableCache} {k : Nat} {psi : Nat -> Nat}
    {source targets : List Nat} (hready : ReadyChain cache k psi (source ++ targets))
    (hcoprime : source.Pairwise Nat.Coprime) : Convertible source targets where
  coprime := hcoprime
  one_lt := fun q hq => (hready q (List.mem_append_left _ hq)).modulus.one_lt
  source_lt := fun q hq => (hready q (List.mem_append_left _ hq)).modulus.lt
  pos := fun p hp => by
    have hone := (hready p (List.mem_append_right _ hp)).modulus.one_lt
    omega
  target_lt := fun p hp => (hready p (List.mem_append_right _ hp)).modulus.lt

/-- Conversion and expansion are exact exactly when no target sees the lost carries. -/
theorem switchCRTBasis_exact_iff {cache : Poly.TableCache} {k : Nat} {psi : Nat -> Nat}
    (hk : 0 < k) (hk31 : k <= 31) {source targets : List Nat}
    (hready : ReadyChain cache k psi (source ++ targets))
    (hcoprime : source.Pairwise Nat.Coprime) (hne : source ≠ []) {tables : ExactTables}
    (htables : exactTables source targets = some tables) {nu : List Nat -> Rat}
    (hnu : NearQuotient source nu) {x : Nat -> Int}
    (hsmall : forall r, r < 2 ^ k -> 4 * |x r| <= source.prod) :
    (Switches tables source (2 ^ k) nu x ∧ Expands cache tables source (2 ^ k) nu x) <->
      forall r, r < 2 ^ k -> KeepsCarries source targets (sourceResidue source (x r)) := by
  have hodd : source.prod % 2 = 1 :=
    odd_prod fun q hq => (hready q (List.mem_append_left _ hq)).modulus.odd
  have h := convertible_of_ready hready hcoprime
  rcases exactTables_exact h with ⟨tables', htables', rfl, hexact⟩
  cases htables.symm.trans htables'
  have hiff := switches_iff h hexact hne hodd hsmall hnu
  constructor
  · rintro ⟨hswitches, _⟩
    exact hiff.mp hswitches
  · intro hkeeps
    have hswitches := hiff.mpr hkeeps
    exact ⟨hswitches, hswitches.expands hk hk31 hready⟩

theorem nearQuotient_runningQuotient (source : List Nat) :
    NearQuotient source (runningQuotient source) := by
  intro digits _ _
  rw [sub_self, abs_zero]
  norm_num

/-- Two towers, two targets, a negative and a positive number. -/
theorem switchCRTBasis_exact_small : exists tables,
    exactTables [13, 17] [5, 29] = some tables ∧
    Switches tables [13, 17] (2 ^ 1) (runningQuotient [13, 17]) (fun r => 50 * r - 20) ∧
    Expands Poly.smallCache tables [13, 17] (2 ^ 1) (runningQuotient [13, 17])
      (fun r => 50 * r - 20) := by
  have hready : ReadyChain Poly.smallCache 1 Poly.smallRoot ([13, 17] ++ [5, 29]) := by
    intro q hq
    exact Poly.smallReady (by
      have hsub : forall q, q ∈ [13, 17] ++ [5, 29] ->
          q ∈ [5, 13, 17, 29, 1152921504606846869] := by decide
      exact hsub q hq)
  have hcoprime : [13, 17].Pairwise Nat.Coprime := by decide
  have hconv := convertible_of_ready hready hcoprime
  rcases exactTables_exact hconv with ⟨tables, htables, _, _⟩
  refine ⟨tables, htables, ?_⟩
  exact (switchCRTBasis_exact_iff (by decide) (by decide) hready hcoprime (by decide) htables
    (nearQuotient_runningQuotient _) (by decide)).mpr
    fun r _ => keepsCarries_of_length hconv (by decide) _

/-!
## A basis that is too long
-/

/-- The small negative number with the residues of `wideNumber`. -/
def wideNegative (_ : Nat) : Int := wideNumber - wideBasis.prod

theorem digitSum_pred {moduli : List Nat} (hone : forall q, q ∈ moduli -> 1 < q) :
    digitSum moduli (fun i => moduli.getD i 1 - 1) + (moduli.map fun q => moduli.prod / q).sum =
      moduli.length * moduli.prod := by
  have hmap : (moduli.map fun q => moduli.prod / q).sum =
      ∑ i ∈ range moduli.length, cofactor moduli i := by
    rw [← Fin.sum_univ_fun_getElem, Finset.sum_range]
    apply Finset.sum_congr rfl
    intro i _
    rw [cofactor_eq (List.getElem?_eq_getElem i.isLt)]
  rw [hmap, digitSum, ← sum_add_distrib, Finset.sum_const_nat (m := moduli.prod), card_range]
  intro i hi
  have hindex := mem_range.mp hi
  have hq := List.getElem?_eq_getElem hindex
  have hlt := hone _ (List.mem_of_getElem? hq)
  have hmul := cofactor_mul hq
  rw [List.getD_eq_getElem?_getD, hq, Option.getD_some, ← hmul, Nat.sub_mul, one_mul,
    Nat.mul_comm]
  apply Nat.sub_add_cancel
  exact Nat.le_mul_of_pos_right _ (by omega)

/-- What the number of largest digits is less than the product. -/
def cofactorSum (moduli : List Nat) : Nat := (moduli.map fun q => moduli.prod / q).sum

theorem wideCofactors_small : 0 < cofactorSum wideBasis ∧
    4 * cofactorSum wideBasis <= wideBasis.prod := by
  unfold cofactorSum
  decide +kernel

theorem wideNumber_add : wideNumber + cofactorSum wideBasis = wideBasis.prod := by
  have hsum := digitSum_pred wideBasis_convertible.one_lt
  rw [← cofactorSum, wideBasis_length] at hsum
  rcases wideCofactors_small with ⟨hpos, hle⟩
  rw [wideNumber, digitNumber]
  generalize digitSum wideBasis (fun i => wideBasis.getD i 1 - 1) = sum at hsum
  generalize cofactorSum wideBasis = rest at hsum hpos hle ⊢
  generalize wideBasis.prod = Q at hsum hle ⊢
  have hsplit : sum = Q - rest + 499 * Q := by omega
  rw [hsplit, Nat.add_mul_mod_self_right, Nat.mod_eq_of_lt (by omega)]
  omega

theorem wideNegative_small (r : Nat) : 4 * |wideNegative r| <= wideBasis.prod := by
  have hadd := wideNumber_add
  have hsmall := wideCofactors_small.2
  rw [wideNegative, ← hadd, Nat.cast_add, sub_add_cancel_left, abs_neg, Nat.abs_cast]
  omega

theorem wideNegative_residue (r : Nat) : sourceResidue wideBasis (wideNegative r) = wideNumber := by
  have hlt := wideNumber_lt
  rw [sourceResidue, wideNegative, Int.sub_emod_right, Int.emod_eq_of_lt (by omega) (by omega),
    Int.toNat_natCast]

theorem wideBasis_odd : wideBasis.prod % 2 = 1 := odd_prod (by decide +kernel)

/-- Five hundred moduli lose a carry, and a small negative number is converted wrongly. -/
theorem switchCRTBasis_wraps : Convertible wideBasis [wideTarget] ∧ wideBasis.prod % 2 = 1 ∧
    NearQuotient wideBasis (runningQuotient wideBasis) ∧
    (forall r, 4 * |wideNegative r| <= wideBasis.prod) ∧
    exists tables b, exactTables wideBasis [wideTarget] = some tables ∧
    switchCRTBasis tables (runningQuotient wideBasis) (2 ^ 14) .COEFFICIENT
      (integerPolynomial wideBasis (2 ^ 14) wideNegative) = some b ∧
    (value b 0 0 : Int) ≠ wideNegative 0 % wideTarget := by
  have hconv := wideBasis_convertible
  have hnear := nearQuotient_runningQuotient wideBasis
  refine ⟨hconv, wideBasis_odd, hnear, wideNegative_small, ?_⟩
  rcases exactTables_exact hconv with ⟨tables, htables, hmoduli, hexact⟩
  rw [← hmoduli] at hconv
  have hne : wideBasis ≠ [] := by
    intro hnil
    have hlength := wideBasis_length
    rw [hnil, List.length_nil] at hlength
    omega
  rcases switchCRTBasis_value hconv hexact
    (residuePolynomial_wellFormed hconv.source_pos (2 ^ 14) fun r =>
      sourceResidue wideBasis (wideNegative r))
    (fun r hr i q hq => integerPolynomial_value hconv.one_lt wideNegative hr hq) hne
    wideBasis_odd (fun r _ => wideNegative_small r) hnear .COEFFICIENT with ⟨b, hb, _, hvalue⟩
  refine ⟨tables, b, htables, hb, ?_⟩
  have hp : tables.moduli[0]? = some wideTarget := by
    rw [hmoduli]
    exact List.getElem?_cons_zero
  rw [ne_eq, hvalue 0 wideTarget hp 0 (by norm_num), wideNegative_residue]
  exact wideNumber_loses

end DCRTPoly
end Hal
end OpenFHE
