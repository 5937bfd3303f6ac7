import OpenFHE.Hal.BaseConversion
import Mathlib.Algebra.Order.Round
import Mathlib.Data.Rat.Floor

/-!
# Scaling and rounding with a redundant modulus

The BEHZ `ScaleAndRound` computes the scaled coefficient modulo `t * gamma`, up to the
overflow of the base conversion, and rounds the division by `gamma`.
-/

namespace OpenFHE
namespace Hal
namespace DCRTPoly

open OpenFHE.Core Foundation NativeInteger Finset

/-- `m_gamma`. -/
def gamma : Nat := 1 <<< 26

structure ScaleTables where
  tgamma : Nat
  tgammaQHatModq : List Nat
  tgammaQHatModqPrecon : List Nat
  negInvqModtgamma : List Nat
  negInvqModtgammaPrecon : List Nat
deriving DecidableEq, Repr

/-- `[-1/q]_{t*gamma}` with the constant for the products by it. -/
def negInvqEntry (tgamma q : Nat) : Option (Nat × Nat) := do
  let inverse <- BigInteger.modInverse q tgamma
  let negInvq := (tgamma - 1) * inverse % tgamma
  let precon <- prepModMulConst negInvq tgamma
  return (negInvq, precon)

/-- `[t*gamma*(Q/q)^{-1}]_q` with the constant for the products by it. -/
def tgammaQHatEntry (source : List Nat) (t q : Nat) : Option (Nat × Nat) := do
  let inverse <- BigInteger.modInverse (source.prod / q) q
  let gammaQHat := inverse * gamma % q
  let tgammaQHat := gammaQHat * t % q
  let precon <- prepModMulConst tgammaQHat q
  return (tgammaQHat, precon)

def scaleTables (source : List Nat) (t : Nat) : Option ScaleTables := do
  let tgamma := word (t * gamma)
  let negInvq <- source.mapM (negInvqEntry tgamma)
  let tgammaQHat <- source.mapM (tgammaQHatEntry source t)
  return {
    tgamma := tgamma
    tgammaQHatModq := tgammaQHat.map Prod.fst
    tgammaQHatModqPrecon := tgammaQHat.map Prod.snd
    negInvqModtgamma := negInvq.map Prod.fst
    negInvqModtgammaPrecon := negInvq.map Prod.snd }

/-- `-tmp/q_i` modulo `t * gamma`, one summand of a coefficient. -/
def scaledTerm (moduliQ : List Nat) (tables : ScaleTables) (a : DCRTPoly) (k i : Nat) :
    Option Nat := do
  let qi <- moduliQ[i]?
  let tower <- a[i]?
  let x <- tower.values[k]?
  let factor <- tables.tgammaQHatModq[i]?
  let factorPrecon <- tables.tgammaQHatModqPrecon[i]?
  let negInvq <- tables.negInvqModtgamma[i]?
  let negInvqPrecon <- tables.negInvqModtgammaPrecon[i]?
  return modMulFastConst (modMulFastConst x factor qi factorPrecon) negInvq tables.tgamma
    negInvqPrecon

/-- The sum and its last 26 bits, shifted by the bits of `gamma`. -/
def roundShift (s : Nat) : Nat := word (s + (s &&& ((1 <<< 26) - 1))) >>> 26

def scaleAndRound (moduliQ : List Nat) (t : Nat) (tables : ScaleTables) (ringDimension : Nat)
    (a : DCRTPoly) : Option Poly := do
  let coefficients <- (List.range ringDimension).mapM fun k =>
    ((List.range a.length).foldlM
      (fun s i => (scaledTerm moduliQ tables a k i).map fun term =>
        modAddFast s term tables.tgamma) 0).map roundShift
  return { modulus := t, format := .COEFFICIENT, values := coefficients }

/-!
## The sum modulo `t * gamma`
-/

/-- The moduli of a rounding: below `2 ^ 60`, coprime, and coprime to `t * gamma`. -/
structure Scalable (source : List Nat) (t : Nat) : Prop where
  coprime : source.Pairwise Nat.Coprime
  one_lt : forall q, q ∈ source -> 1 < q
  lt : forall q, q ∈ source -> q < 2 ^ 60
  coprime_tgamma : forall q, q ∈ source -> Nat.Coprime q (t * gamma)
  pos : 0 < t
  tgamma_lt : t * gamma < 2 ^ 62

theorem gamma_eq : gamma = 67108864 := rfl

theorem Scalable.one_lt_tgamma {source : List Nat} {t : Nat} (h : Scalable source t) :
    1 < t * gamma := by
  have hpos := h.pos
  rw [gamma_eq]
  omega

structure ScaleTables.Exact (tables : ScaleTables) (source : List Nat) (t : Nat) : Prop where
  tgamma_eq : tables.tgamma = t * gamma
  tgammaQHat : forall (i q : Nat), source[i]? = some q ->
    exists c : Nat, tables.tgammaQHatModq[i]? = some c ∧ c < q ∧
    cofactor source i * c % q = t * gamma % q ∧ tables.tgammaQHatModqPrecon[i]? = some (precon c q)
  negInvq : forall (i q : Nat), source[i]? = some q ->
    exists w : Nat, tables.negInvqModtgamma[i]? = some w ∧ w < t * gamma ∧
    (q * w + 1) % (t * gamma) = 0 ∧ tables.negInvqModtgammaPrecon[i]? = some (precon w (t * gamma))

theorem mul_pred_inverse {m q w : Nat} (hm : 1 < m) (hw : q * w % m = 1) :
    (q * ((m - 1) * w % m) + 1) % m = 0 := by
  have hcast : ((q * w : Nat) : ZMod m) = 1 := by
    rw [← Nat.cast_one]
    exact (ZMod.natCast_eq_natCast_iff' _ _ m).mpr (by rw [hw, Nat.mod_eq_of_lt hm])
  apply Nat.mod_eq_zero_of_dvd
  apply (ZMod.natCast_eq_zero_iff _ m).mp
  rw [Nat.cast_add, Nat.cast_mul, ZMod.natCast_mod, Nat.cast_mul, Nat.cast_sub hm.le,
    ZMod.natCast_self, Nat.cast_one]
  rw [Nat.cast_mul] at hcast
  linear_combination -hcast

/-- Modulo a divisor of the number the negated sum is the quotient less the overflow. -/
theorem sum_negInverses {source : List Nat} (hcoprime : source.Pairwise Nat.Coprime)
    (hone : forall q, q ∈ source -> 1 < q) {m : Nat}
    (hm : forall q, q ∈ source -> Nat.Coprime q m) {w : Nat -> Nat}
    (hw : forall (i q : Nat), source[i]? = some q -> (q * w i + 1) % m = 0) {z : Nat}
    (hz : m ∣ z) : ((∑ i ∈ range source.length, baseDigit source z i * w i : Nat) : ZMod m) =
      ((z / source.prod : Nat) - digitOverflow source (baseDigit source z) : Int) := by
  have hinverse : forall (i q : Nat), source[i]? = some q ->
      (q : ZMod m) * (-(w i : ZMod m)) = 1 := by
    intro i q hq
    have hzero := (ZMod.natCast_eq_zero_iff (q * w i + 1) m).mpr
      (Nat.dvd_of_mod_eq_zero (hw i q hq))
    rw [Nat.cast_add, Nat.cast_mul, Nat.cast_one] at hzero
    linear_combination -hzero
  have hsum := prod_mul_sum_eq hinverse hcoprime hone (z := z) (Int.natCast_mod _ _)
    (baseDigit_spec hcoprime hone (x := z)).mod
  have hunit : IsUnit (source.prod : ZMod m) := by
    rw [ZMod.isUnit_iff_coprime]
    exact Nat.coprime_list_prod_left_iff.mpr hm
  apply hunit.mul_left_cancel
  rw [Int.cast_natCast, (ZMod.natCast_eq_zero_iff z m).mpr hz] at hsum
  rw [Nat.cast_sum]
  simp only [mul_neg, sum_neg_distrib, Nat.cast_mul, Int.natCast_ediv] at hsum ⊢
  linear_combination -hsum

section Scale

variable {source : List Nat} {t : Nat} (h : Scalable source t)

include h

theorem negInvqEntry_spec {q : Nat} (hq : q ∈ source) :
    exists w, negInvqEntry (t * gamma) q = some (w, precon w (t * gamma)) ∧ w < t * gamma ∧
      (q * w + 1) % (t * gamma) = 0 := by
  have hone := h.one_lt_tgamma
  have hlt := h.tgamma_lt
  rcases BigInteger.modInverse_spec hone (h.coprime_tgamma q hq) with ⟨w, hw, _, hmul⟩
  have hred : (t * gamma - 1) * w % (t * gamma) < t * gamma := Nat.mod_lt _ (by omega)
  refine ⟨(t * gamma - 1) * w % (t * gamma), ?_, hred, mul_pred_inverse hone hmul⟩
  rw [negInvqEntry, hw, Option.bind_eq_bind, Option.bind_some]
  dsimp only
  rw [prepModMulConst_eq (by simp only [maxBits]; omega) hred]
  rfl

theorem tgammaQHatEntry_spec {q : Nat} (hq : q ∈ source) :
    exists c, tgammaQHatEntry source t q = some (c, precon c q) ∧ c < q ∧
      source.prod / q * c % q = t * gamma % q := by
  have hone := h.one_lt q hq
  have hlt := h.lt q hq
  rcases BigInteger.modInverse_spec hone (coprime_prod_div h.coprime h.one_lt hq) with
    ⟨w, hw, _, hmul⟩
  have hred : w * gamma % q * t % q < q := Nat.mod_lt _ (by omega)
  refine ⟨w * gamma % q * t % q, ?_, hred, ?_⟩
  · rw [tgammaQHatEntry, hw, Option.bind_eq_bind, Option.bind_some]
    dsimp only
    rw [prepModMulConst_eq (by simp only [maxBits]; omega) hred]
    rfl
  · have hfactor : w * gamma % q * t % q ≡ w * gamma * t [MOD q] :=
      (Nat.mod_modEq _ q).trans ((Nat.mod_modEq _ q).mul_right t)
    calc source.prod / q * (w * gamma % q * t % q) % q
        = source.prod / q * (w * gamma * t) % q := hfactor.mul_left _
      _ = source.prod / q * w % q * (t * gamma) % q := by
          rw [Nat.mod_mul_mod]
          congr 1
          ring
      _ = t * gamma % q := by rw [hmul, Nat.one_mul]

theorem scaleTables_exact :
    exists tables, scaleTables source t = some tables ∧ tables.Exact source t := by
  have htgamma : word (t * gamma) = t * gamma :=
    word_eq (by have hlt := h.tgamma_lt; simp only [maxBits]; omega)
  rcases mapM_spec (l := source) (f := negInvqEntry (t * gamma))
    (fun q (e : Nat × Nat) => e.1 < t * gamma ∧ (q * e.1 + 1) % (t * gamma) = 0 ∧
      e.2 = precon e.1 (t * gamma)) (by
      intro q hq
      rcases negInvqEntry_spec h hq with ⟨w, hw, hlt, hmul⟩
      exact ⟨_, hw, hlt, hmul, rfl⟩) with ⟨negs, hnegs, hnegs_length, hnegs_get⟩
  rcases mapM_spec (l := source) (f := tgammaQHatEntry source t)
    (fun q (e : Nat × Nat) => e.1 < q ∧ source.prod / q * e.1 % q = t * gamma % q ∧
      e.2 = precon e.1 q) (by
      intro q hq
      rcases tgammaQHatEntry_spec h hq with ⟨c, hc, hlt, hmul⟩
      exact ⟨_, hc, hlt, hmul, rfl⟩) with ⟨hats, hhats, hhats_length, hhats_get⟩
  refine ⟨_, by rw [scaleTables, htgamma]; simp only [hnegs, hhats, Option.bind_eq_bind,
    Option.bind_some]; rfl, rfl, ?_, ?_⟩
  · intro i q hq
    have hi : i < hats.length := by
      rw [hhats_length]
      exact (List.getElem?_eq_some_iff.mp hq).1
    have he := List.getElem?_eq_getElem hi
    rcases hhats_get i q _ hq he with ⟨hlt, hmul, hprecon⟩
    refine ⟨hats[i].1, by rw [List.getElem?_map, he]; rfl, hlt, ?_, ?_⟩
    · rw [cofactor_eq hq]
      exact hmul
    · rw [List.getElem?_map, he, ← hprecon]
      rfl
  · intro i q hq
    have hi : i < negs.length := by
      rw [hnegs_length]
      exact (List.getElem?_eq_some_iff.mp hq).1
    have he := List.getElem?_eq_getElem hi
    rcases hnegs_get i q _ hq he with ⟨hlt, hmul, hprecon⟩
    refine ⟨negs[i].1, by rw [List.getElem?_map, he]; rfl, hlt, hmul, ?_⟩
    rw [List.getElem?_map, he, ← hprecon]
    rfl

theorem scaledDigit_eq {i q c : Nat} (hq : source[i]? = some q)
    (hc : cofactor source i * c % q = t * gamma % q) (x : Nat) :
    x % q * c % q = baseDigit source (t * gamma * x) i := by
  have hone := h.one_lt q (List.mem_of_getElem? hq)
  have hdigits := baseDigit_spec h.coprime h.one_lt (x := t * gamma * x)
  apply eq_of_mul_cofactor h.coprime h.one_lt hq (Nat.mod_lt _ (by omega)) (hdigits.lt i q hq)
  rw [hdigits.residue i q hq]
  have hmod : x % q * c % q ≡ x * c [MOD q] :=
    (Nat.mod_modEq _ q).trans ((Nat.mod_modEq x q).mul_right c)
  calc x % q * c % q * cofactor source i % q
      = x * c * cofactor source i % q := hmod.mul_right _
    _ = cofactor source i * c % q * x % q := by
        rw [Nat.mod_mul_mod]
        congr 1
        ring
    _ = t * gamma * x % q := by rw [hc, Nat.mod_mul_mod]

variable {tables : ScaleTables} (htables : tables.Exact source t) {n : Nat} {a : DCRTPoly}
  (ha : WellFormed n .COEFFICIENT source a) {x : Nat -> Nat}
  (hx : forall r, r < n -> forall (i q : Nat), source[i]? = some q -> value a i r = x r % q)

include htables ha hx

theorem scaledTerm_eq {r i : Nat} (hr : r < n) (hi : i < source.length) :
    scaledTerm source tables a r i = some (baseDigit source (t * gamma * x r) i *
      tables.negInvqModtgamma.getD i 0 % (t * gamma)) := by
  have hq := List.getElem?_eq_getElem hi
  rcases ha.exists_tower hq with ⟨tower, htower, hwf⟩
  rcases htables.tgammaQHat i _ hq with ⟨c, hc, hclt, hmul, hcprecon⟩
  rcases htables.negInvq i _ hq with ⟨w, hw, hwlt, _, hwprecon⟩
  have hlt := h.lt _ (List.mem_of_getElem? hq)
  have htgamma := h.tgamma_lt
  have hread : tower.values[r]? = some (x r % source[i]) := by
    have hlen : r < tower.values.length := by
      rw [hwf.2.2.1]
      exact hr
    have hvalue := hx r hr i _ hq
    rw [value_eq htower, Poly.value, List.getD_eq_getElem _ _ hlen] at hvalue
    rw [List.getElem?_eq_getElem hlen, hvalue]
  have hmod : x r % source[i] < source[i] := Nat.mod_lt _ (by omega)
  have hdigit : baseDigit source (t * gamma * x r) i < source[i] :=
    (baseDigit_spec h.coprime h.one_lt).lt i _ hq
  unfold scaledTerm
  simp only [hq, htower, hread, hc, hcprecon, hw, hwprecon, Option.bind_eq_bind,
    Option.bind_some, htables.tgamma_eq]
  rw [modMulFastConst_eq (by omega) hclt (by simp only [maxBits]; omega),
    scaledDigit_eq h hq hmul, modMulFastConst_eq htgamma hwlt (by simp only [maxBits]; omega),
    List.getD_eq_getElem?_getD, hw, Option.getD_some]
  rfl

theorem scaledSum_eq {r : Nat} (hr : r < n) : exists s,
    (List.range a.length).foldlM (fun s i => (scaledTerm source tables a r i).map fun term =>
      modAddFast s term tables.tgamma) 0 = some s ∧ s < t * gamma ∧
    (s : Int) = ((t * gamma * x r / source.prod : Nat) -
      digitOverflow source (baseDigit source (t * gamma * x r)) : Int) % (t * gamma : Nat) := by
  have hone := h.one_lt_tgamma
  have htgamma := h.tgamma_lt
  rw [ha.length_eq]
  rcases foldlM_range_spec (n := source.length) (s := 0)
    (f := fun s i => (scaledTerm source tables a r i).map fun term =>
      modAddFast s term tables.tgamma)
    (fun k s => s = (∑ i ∈ range k, baseDigit source (t * gamma * x r) i *
      tables.negInvqModtgamma.getD i 0) % (t * gamma)) (Nat.zero_mod _).symm (by
      intro i hi s hs
      refine ⟨_, by rw [scaledTerm_eq h htables ha hx hr hi]; rfl, ?_⟩
      dsimp only
      rw [htables.tgamma_eq, hs, modAddFast_eq (by omega) (Nat.mod_lt _ (by omega))
        (Nat.mod_lt _ (by omega)), sum_range_succ, ← Nat.add_mod]) with ⟨s, hrun, hs⟩
  have hsum := sum_negInverses h.coprime h.one_lt h.coprime_tgamma
    (w := fun i => tables.negInvqModtgamma.getD i 0) (by
      intro i q hq
      rcases htables.negInvq i q hq with ⟨w, hw, _, hzero, _⟩
      rw [List.getD_eq_getElem?_getD, hw, Option.getD_some]
      exact hzero) (z := t * gamma * x r) (dvd_mul_right _ _)
  refine ⟨s, hrun, ?_, ?_⟩
  · rw [hs]
    exact Nat.mod_lt _ (by omega)
  · rw [hs, Int.natCast_mod]
    apply (ZMod.intCast_eq_intCast_iff' _ _ _).mp
    rw [Int.cast_natCast, hsum]

end Scale

/-!
## The rounded division by `gamma`
-/

theorem roundShift_eq {s : Nat} (hs : 2 * s < 2 ^ 64) :
    roundShift s = (2 * s + gamma) / (2 * gamma) := by
  have hlow : s &&& ((1 <<< 26) - 1) = s % 2 ^ 26 := Nat.and_two_pow_sub_one_eq_mod s 26
  rw [roundShift, hlow, word_eq (by simp only [maxBits]; omega), Nat.shiftRight_eq_div_pow,
    gamma_eq]
  omega

/-- The integer nearest to `t * x / Q`. -/
def nearest (t Q x : Nat) : Int := round (((t * x : Nat) : Rat) / Q)

def WithinNoise (source : List Nat) (t x : Nat) : Prop :=
  2 * gamma * |(t * x : Int) - nearest t source.prod x * source.prod| <=
    (gamma - 2 * source.length) * source.prod

/-- Neither the plaintext nor the sum modulo `t * gamma` wraps around. -/
def Unwrapped (source : List Nat) (t x : Nat) : Prop :=
  nearest t source.prod x < t ∧
    digitOverflow source (baseDigit source (t * gamma * x)) * source.prod <= t * gamma * x

theorem quotient_near {source : List Nat} {t x : Nat} (hQ : 0 < source.prod)
    (hnoise : WithinNoise source t x) {distance : Int}
    (hF : ((t * gamma * x / source.prod : Nat) : Int) =
      distance + gamma * nearest t source.prod x) :
    2 * source.length <= gamma + 2 * distance ∧ 2 * distance <= gamma - 2 * source.length := by
  unfold WithinNoise at hnoise
  generalize nearest t source.prod x = m at *
  generalize source.length = k at *
  have hsplit := Nat.div_add_mod (t * gamma * x) source.prod
  have hmod := Nat.mod_lt (t * gamma * x) hQ
  generalize t * gamma * x % source.prod = rest at hsplit hmod
  generalize t * gamma * x / source.prod = F at hsplit hF
  generalize source.prod = Q at *
  -- `gamma` times the noise is the distance times `Q`, and the rest
  have hscaled : (gamma : Int) * ((t * x : Int) - m * Q) = Q * distance + rest := by
    have hcast := congrArg (Nat.cast (R := Int)) hsplit
    rw [Nat.cast_add, Nat.cast_mul, Nat.cast_mul, Nat.cast_mul, hF] at hcast
    linarith
  rw [gamma_eq] at *
  have hlow := neg_abs_le ((t * x : Int) - m * Q)
  have hhigh := le_abs_self ((t * x : Int) - m * Q)
  generalize |(t * x : Int) - m * Q| = bound at *
  generalize (t * x : Int) - m * Q = noise at *
  have hQ' : (0 : Int) < Q := by omega
  have hrest : (rest : Int) < Q := by omega
  constructor
  · have hprod : (Q : Int) * (2 * k) < Q * (67108864 + 2 * distance + 2) := by
      push_cast at hnoise hscaled
      linarith
    have hlt := lt_of_mul_lt_mul_left hprod hQ'.le
    omega
  · have hprod : (Q : Int) * (2 * distance) <= Q * (67108864 - 2 * k) := by
      push_cast at hnoise hscaled
      linarith
    exact le_of_mul_le_mul_left hprod hQ'

/-- A rounded coefficient is the canonical residue exactly when nothing wraps around. -/
theorem roundShift_nearest_iff {source : List Nat} {t x s : Nat} (ht : 0 < t)
    (htgamma : t * gamma < 2 ^ 62) (hQ : 0 < source.prod) (hx : x < source.prod)
    (hnoise : WithinNoise source t x) (hs : s < t * gamma) {u : Nat} (hu : u < source.length)
    (hsum : (s : Int) = ((t * gamma * x / source.prod : Nat) - u : Int) % (t * gamma : Nat)) :
    (roundShift s : Int) = nearest t source.prod x % t <->
      nearest t source.prod x < t ∧ u * source.prod <= t * gamma * x := by
  rcases quotient_near hQ hnoise (sub_add_cancel _ _).symm with ⟨hlow, hhigh⟩
  have hF : t * gamma * x / source.prod < t * gamma :=
    Nat.div_lt_of_lt_mul (by
      rw [Nat.mul_comm]
      exact Nat.mul_lt_mul_of_pos_right hx (by omega))
  have hle : u * source.prod <= t * gamma * x <-> u <= t * gamma * x / source.prod :=
    (Nat.le_div_iff_mul_le hQ).symm
  rw [roundShift_eq (by omega), hle]
  generalize nearest t source.prod x = m at *
  generalize t * gamma * x / source.prod = F at *
  rw [gamma_eq] at *
  rcases Nat.lt_or_ge F u with hwrap | hwrap
  · have hm : m = 0 := by omega
    have hround : (2 * s + 67108864) / (2 * 67108864) = t := by
      rw [← Int.add_emod_right, Int.emod_eq_of_lt (by omega) (by omega)] at hsum
      omega
    rw [hround, hm, Int.zero_emod]
    omega
  · have hround : (((2 * s + 67108864) / (2 * 67108864) : Nat) : Int) = m := by
      rw [Int.emod_eq_of_lt (by omega) (by omega)] at hsum
      omega
    rw [hround]
    constructor
    · intro hm
      have hlt := Int.emod_lt_of_pos m (show (0 : Int) < t by omega)
      exact ⟨by omega, hwrap⟩
    · rintro ⟨hm, _⟩
      rw [Int.emod_eq_of_lt (by omega) hm]

theorem scaleAndRound_value {source : List Nat} {t : Nat} (h : Scalable source t)
    {tables : ScaleTables} (htables : scaleTables source t = some tables) {n : Nat}
    {a : DCRTPoly} (ha : WellFormed n .COEFFICIENT source a) {x : Nat -> Nat}
    (hx : forall r, r < n -> forall (i q : Nat), source[i]? = some q ->
      value a i r = x r % q) :
    exists b, scaleAndRound source t tables n a = some b ∧ b.modulus = t ∧
      b.format = .COEFFICIENT ∧ b.values.length = n ∧
      forall r, r < n -> exists s, b.value r = roundShift s ∧ s < t * gamma ∧
        (s : Int) = ((t * gamma * x r / source.prod : Nat) -
          digitOverflow source (baseDigit source (t * gamma * x r)) : Int) % (t * gamma : Nat) := by
  rcases scaleTables_exact h with ⟨tables', htables', hexact⟩
  cases htables.symm.trans htables'
  rcases mapM_range_spec (n := n)
    (f := fun k => ((List.range a.length).foldlM
      (fun s i => (scaledTerm source tables a k i).map fun term =>
        modAddFast s term tables.tgamma) 0).map roundShift)
    (fun r v => exists s, v = roundShift s ∧ s < t * gamma ∧
      (s : Int) = ((t * gamma * x r / source.prod : Nat) -
        digitOverflow source (baseDigit source (t * gamma * x r)) : Int) % (t * gamma : Nat)) (by
      intro r hr
      rcases scaledSum_eq h hexact ha hx hr with ⟨s, hrun, hlt, hs⟩
      exact ⟨roundShift s, by rw [hrun]; rfl, s, rfl, hlt, hs⟩) with ⟨values, hvalues, hlength, hget⟩
  refine ⟨⟨t, .COEFFICIENT, values⟩, by rw [scaleAndRound, hvalues]; rfl, rfl, rfl, hlength, ?_⟩
  intro r hr
  have hread := List.getElem?_eq_getElem (show r < values.length by omega)
  rw [Poly.value, List.getD_eq_getElem?_getD, hread, Option.getD_some]
  exact hget r _ hread

/-- All coefficients are canonical residues exactly when none of them wraps around. -/
theorem scaleAndRound_rounds_iff {source : List Nat} {t : Nat} (h : Scalable source t)
    (hne : source ≠ []) {tables : ScaleTables} (htables : scaleTables source t = some tables)
    {n : Nat} {a : DCRTPoly} (ha : WellFormed n .COEFFICIENT source a) {x : Nat -> Nat}
    (hlt : forall r, r < n -> x r < source.prod)
    (hx : forall r, r < n -> forall (i q : Nat), source[i]? = some q -> value a i r = x r % q)
    (hnoise : forall r, r < n -> WithinNoise source t (x r)) :
    (exists b, scaleAndRound source t tables n a = some b ∧ b.modulus = t ∧
      b.format = .COEFFICIENT ∧ b.values.length = n ∧
      forall r, r < n -> (b.value r : Int) = nearest t source.prod (x r) % t) <->
      forall r, r < n -> Unwrapped source t (x r) := by
  rcases scaleAndRound_value h htables ha hx with ⟨b, hb, hmodulus, hformat, hlength, hvalue⟩
  have hiff : forall r, r < n ->
      ((b.value r : Int) = nearest t source.prod (x r) % t <-> Unwrapped source t (x r)) := by
    intro r hr
    rcases hvalue r hr with ⟨s, hs, hslt, hsum⟩
    have hoverflow := digitOverflow_lt h.one_lt
      (baseDigit_spec h.coprime h.one_lt (x := t * gamma * x r)) (List.length_pos_iff.mpr hne)
    rw [hs]
    exact roundShift_nearest_iff h.pos h.tgamma_lt (prod_pos_of_one_lt h.one_lt) (hlt r hr)
      (hnoise r hr) hslt hoverflow hsum
  constructor
  · rintro ⟨b', hb', _, _, _, hrounds⟩ r hr
    cases hb.symm.trans hb'
    exact (hiff r hr).mp (hrounds r hr)
  · intro hunwrapped
    exact ⟨b, hb, hmodulus, hformat, hlength, fun r hr => (hiff r hr).mpr (hunwrapped r hr)⟩

theorem smallScalable : Scalable [13, 17] 3 := by
  refine ⟨by decide, by decide, by decide, ?_, by decide, by decide⟩
  intro q hq
  rcases List.mem_cons.mp hq with rfl | hq
  · norm_num [gamma_eq]
  · cases List.mem_singleton.mp hq
    norm_num [gamma_eq]

theorem nearest_eq {t Q x : Nat} (hQ : 0 < Q) {m : Int} (hlow : (2 * m - 1) * Q <= 2 * (t * x))
    (hhigh : 2 * (t * x : Int) < (2 * m + 1) * Q) : nearest t Q x = m := by
  have hQ' : (0 : Rat) < Q := by exact_mod_cast hQ
  rw [nearest, round_eq, Int.floor_eq_iff]
  constructor
  · rw [div_add_div _ _ hQ'.ne' two_ne_zero, le_div_iff₀ (by positivity)]
    exact_mod_cast (by push_cast; linarith : m * (Q * 2) <= (t * x : Nat) * 2 + Q * 1)
  · rw [div_add_div _ _ hQ'.ne' two_ne_zero, div_lt_iff₀ (by positivity)]
    exact_mod_cast (by push_cast; linarith : (t * x : Nat) * 2 + Q * 1 < (m + 1) * (Q * 2))

/-- Two towers and the plaintext modulus 3: a multiple of the source modulus, and noise. -/
theorem scaleAndRound_rounds_small : exists tables b, scaleTables [13, 17] 3 = some tables ∧
    scaleAndRound [13, 17] 3 tables 2 (residuePolynomial [13, 17] 2 fun r => 74 * r + 74) =
      some b ∧
    forall r, r < 2 -> (b.value r : Int) = nearest 3 221 (74 * r + 74) % 3 := by
  rcases scaleTables_exact smallScalable with ⟨tables, htables, _⟩
  have hnear : forall r, r < 2 -> nearest 3 221 (74 * r + 74) = r + 1 := by
    intro r hr
    apply nearest_eq (by decide)
    · push_cast
      omega
    · push_cast
      omega
  rcases (scaleAndRound_rounds_iff smallScalable (by decide) htables
    (residuePolynomial_wellFormed (by decide) 2 fun r => 74 * r + 74) (by decide)
    (fun r hr i q hq => residuePolynomial_value _ hr hq) (by
      intro r hr
      have hprod : [13, 17].prod = 221 := by decide
      rw [WithinNoise, hprod, hnear r hr, gamma_eq]
      have hcases : r = 0 ∨ r = 1 := by omega
      rcases hcases with rfl | rfl <;> decide)).mpr (by
      intro r hr
      have hprod : [13, 17].prod = 221 := by decide
      have hoverflow := digitOverflow_lt smallScalable.one_lt (baseDigit_spec
        smallScalable.coprime smallScalable.one_lt (x := 3 * gamma * (74 * r + 74))) (by decide)
      rw [Unwrapped, hprod, hnear r hr]
      rw [List.length_cons, List.length_cons, List.length_nil] at hoverflow
      refine ⟨by omega, ?_⟩
      rw [gamma_eq] at hoverflow ⊢
      omega) with ⟨b, hb, _, _, _, hvalue⟩
  exact ⟨tables, b, htables, hb, hvalue⟩

/-- Zero with the noise `-1` is returned as the plaintext modulus. -/
theorem scaleAndRound_returns_modulus : exists tables b, scaleTables [13, 17] 3 = some tables ∧
    WithinNoise [13, 17] 3 220 ∧
    scaleAndRound [13, 17] 3 tables 2 (residuePolynomial [13, 17] 2 fun _ => 220) = some b ∧
    b.value 0 = 3 ∧ nearest 3 221 220 % 3 = 0 := by
  have hprod : [13, 17].prod = 221 := by decide
  have hnear : nearest 3 221 220 = 3 := nearest_eq (by decide) (by decide) (by decide)
  rcases scaleTables_exact smallScalable with ⟨tables, htables, _⟩
  rcases scaleAndRound_value smallScalable htables
    (residuePolynomial_wellFormed (by decide) 2 fun _ => 220)
    (fun r hr i q hq => residuePolynomial_value _ hr hq) with ⟨b, hb, _, _, _, hvalue⟩
  rcases hvalue 0 (by decide) with ⟨s, hs, _, hsum⟩
  have hoverflow := digitOverflow_lt smallScalable.one_lt (baseDigit_spec
    smallScalable.coprime smallScalable.one_lt (x := 3 * gamma * 220)) (by decide)
  refine ⟨tables, b, htables, ?_, hb, ?_, by rw [hnear]; rfl⟩
  · rw [WithinNoise, hprod, hnear, gamma_eq]
    decide
  · generalize digitOverflow [13, 17] (baseDigit [13, 17] (3 * gamma * 220)) = u at *
    rw [List.length_cons, List.length_cons, List.length_nil] at hoverflow
    rw [hprod, gamma_eq, Int.emod_eq_of_lt (by omega) (by omega)] at hsum
    rw [hs, roundShift_eq (by omega), gamma_eq]
    omega

end DCRTPoly
end Hal
end OpenFHE
