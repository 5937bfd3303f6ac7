import OpenFHE.Core.NativeVectorT
import OpenFHE.Core.NativeInteger.Digits
import OpenFHE.Foundation.SignedDigits

/-!
# Gadget decomposition of the accumulator

`SignedDigitDecompose` centers a coefficient and splits off signed digits of the gadget
base.  The first digit is dropped, and so is the carry out of the last one.
-/

namespace OpenFHE
namespace BinFHE

open Core Foundation NativeInteger

/-- The fields of `RingGSWCryptoParams` that the decomposition reads. -/
structure GadgetParams where
  Q : Nat
  N : Nat
  baseG : Nat
  digitsG : Nat
deriving DecidableEq, Repr

namespace RingGSWAccumulator

/-- `__builtin_ctz`, which is the logarithm of a power of two. -/
def gBits (params : GadgetParams) : Nat := Nat.log2 params.baseG

/-- `t < QHalf ? t : t - Q_int`; the difference is taken in an unsigned word. -/
def centeredWord (Q t : Nat) : Int := signedWord (if t < Q >>> 1 then t else subFast t Q : Nat)

/-- `(d << gBitsMaxBits) >> gBitsMaxBits`: the lowest bits of `d` with their sign. -/
def lowBits (bits : Nat) (d : Int) : Int :=
  signedWord (d * 2 ^ (maxBits - bits)) / 2 ^ (maxBits - bits)

def remaining (bits : Nat) (d : Int) : Nat -> Int
  | 0 => d
  | n + 1 => signedWord (remaining bits d n - lowBits bits (remaining bits d n)) / 2 ^ bits

/-- The word that is added to the output for digit `d + 1` of the coefficient `t`. -/
def outputDigit (params : GadgetParams) (t d : Nat) : Nat :=
  let r := lowBits (gBits params) (remaining (gBits params) (centeredWord params.Q t) (d + 1))
  ofSigned (if r < 0 then r + params.Q else r)

/-- The loops `output[e][k] += r`: every entry of the first `rows` rows is reached once. -/
def addDigits (N rows : Nat) (digit : Nat -> Nat -> Nat) (output : List (List Nat)) :
    Except Fault (List (List Nat)) :=
  if output.length < rows ∨ ∃ row ∈ output.take rows, row.length < N then throw .undefined
  else
    return output.zipIdx.map fun (row, e) =>
      if e < rows then row.zipIdx.map fun (x, k) => if k < N then addFast x (digit e k) else x
      else row

/-- The number of digits that are kept; a count of zero wraps around. -/
def keptDigits (params : GadgetParams) : Nat := usint ((params.digitsG : Int) - 1)

/-- `SignedDigitDecompose` of a ring element. -/
def signedDigitDecomposeElement (params : GadgetParams) (input : List Nat)
    (output : List (List Nat)) : Except Fault (List (List Nat)) :=
  if input.length < params.N then throw .undefined
  else
    addDigits params.N (keptDigits params)
      (fun d k => outputDigit params (input.getD k 0) d) output

/-- `SignedDigitDecompose` of a ciphertext: the digits of its two elements alternate. -/
def signedDigitDecompose (params : GadgetParams) (input : List Nat × List Nat)
    (output : List (List Nat)) : Except Fault (List (List Nat)) :=
  if input.1.length < params.N ∨ input.2.length < params.N then throw .undefined
  else
    addDigits params.N (usint (keptDigits params * 2 : Nat))
      (fun e k => outputDigit params ((if e % 2 = 0 then input.1 else input.2).getD k 0) (e / 2))
      output

/-- `m_Gpower` without sign evaluation, from the running value of the loop. -/
def powersG (Q baseG : Nat) : Nat -> Nat -> List Nat
  | 0, _ => []
  | count + 1, vTemp => vTemp :: powersG Q baseG count (modMulFastEq vTemp baseG Q)

/-!
## Signed words
-/

section Words

variable {g : Nat} (hg : 0 < g) (hg32 : g < 32)

include hg hg32

theorem lowBits_eq (d : Int) : lowBits g d = signedDigit (2 ^ (g - 1)) d := by
  have hsplit : 2 ^ maxBits = 2 ^ (maxBits - g) * 2 ^ g := by
    rw [← pow_add]
    congr 1
    simp only [maxBits]
    omega
  have hbase : 2 * 2 ^ (g - 1) = 2 ^ g := by
    rw [← pow_succ']
    congr 1
    omega
  have hscale := Int.mod_bmod_mul_of_pos (a := 2 ^ (maxBits - g)) d (2 ^ g) (by positivity)
    (dvd_pow_self 2 (by omega))
  rw [← hsplit, Nat.cast_pow, Nat.cast_ofNat, mul_comm _ d] at hscale
  rw [lowBits, signedWord, hscale, signedDigit, hbase,
    Int.mul_ediv_cancel_left _ (by positivity)]

theorem remaining_eq {d : Int} (hlo : -2 ^ 62 <= d) (hhi : d <= 2 ^ 62) (n : Nat) :
    remaining g d n = signedCarry (2 ^ (g - 1)) d n ∧
      -2 ^ 62 <= remaining g d n ∧ remaining g d n <= 2 ^ 62 := by
  have hH : 0 < 2 ^ (g - 1) := by positivity
  have hbase : (2 * (2 ^ (g - 1) : Nat) : Int) = 2 ^ g := by
    rw [Nat.cast_pow, Nat.cast_ofNat, ← pow_succ']
    congr 1
    omega
  have hsmall : (2 ^ (g - 1) : Nat) <= 2 ^ 30 := Nat.pow_le_pow_right (by decide) (by omega)
  have hbig : (2 : Int) <= 2 ^ g := by
    rw [← hbase]
    omega
  induction n with
  | zero =>
      exact ⟨rfl, hlo, hhi⟩
  | succ n ih =>
      rcases ih with ⟨heq, hlo', hhi'⟩
      have hdigit := signedDigit_bounds hH (remaining g d n)
      have hword : signedWord (remaining g d n - lowBits g (remaining g d n)) =
          remaining g d n - lowBits g (remaining g d n) := by
        rw [lowBits_eq hg hg32]
        exact signedWord_eq (by omega) (by omega)
      have hstep : remaining g d (n + 1) =
          (remaining g d n - signedDigit (2 ^ (g - 1)) (remaining g d n)) / 2 ^ g := by
        rw [remaining, hword, lowBits_eq hg hg32]
      rw [hstep]
      refine ⟨by rw [signedCarry, ← heq, hbase], ?_, ?_⟩
      · rw [Int.le_ediv_iff_mul_le (by omega)]
        nlinarith
      · refine Int.le_of_lt_add_one ((Int.ediv_lt_iff_lt_mul (by omega)).mpr ?_)
        nlinarith

end Words

/-!
## The digits of one coefficient
-/

/-- The representative that `t0 < QHalf` selects. -/
def centeredCoefficient (Q x : Nat) : Int := if x < Q / 2 then (x : Int) else x - Q

theorem centeredWord_eq {Q x : Nat} (hQ : Q < 2 ^ 63) (hx : x < Q) :
    centeredWord Q x = centeredCoefficient Q x := by
  unfold centeredWord centeredCoefficient
  rw [Nat.shiftRight_one]
  split
  next hlt =>
      exact signedWord_eq (by omega) (by omega)
  next hge =>
      have hword : ((subFast x Q : Nat) : Int) % (2 ^ maxBits : Nat) =
          ((x : Int) - Q) % (2 ^ maxBits : Nat) := by
        simp only [subFast, word, maxBits]
        omega
      unfold signedWord
      rw [← Int.emod_bmod, hword, Int.emod_bmod]
      exact signedWord_eq (by omega) (by omega)

theorem centeredCoefficient_bounds {Q x : Nat} (hx : x < Q) :
    -(Q : Int) <= 2 * centeredCoefficient Q x + 1 ∧ 2 * centeredCoefficient Q x < Q := by
  unfold centeredCoefficient
  constructor <;> split <;> omega

theorem centeredCoefficient_cast (Q x : Nat) :
    (centeredCoefficient Q x : ZMod Q) = x := by
  unfold centeredCoefficient
  split <;> simp

theorem powersG_getElem? {Q B : Nat} (hQ1 : 1 < Q) (hQ : Q < 2 ^ maxBits) (hB : B < 2 ^ maxBits)
    {count : Nat} : forall v k, k < count -> v < 2 ^ maxBits ->
      exists x, (powersG Q B count v)[k]? = some x ∧ (x : ZMod Q) = v * B ^ k := by
  induction count with
  | zero =>
      intro v k hk
      exact absurd hk (Nat.not_lt_zero k)
  | succ count ih =>
      intro v k hk hv
      cases k with
      | zero =>
          exact ⟨v, rfl, by simp⟩
      | succ k =>
          have hnext := modMulFastEq_eq (by omega) hQ hv hB
          have hlt : modMulFastEq v B Q < 2 ^ maxBits := by
            rw [hnext]
            exact lt_trans (Nat.mod_lt _ (by omega)) hQ
          rcases ih _ k (by omega) hlt with ⟨x, hx, hcast⟩
          refine ⟨x, hx, ?_⟩
          rw [hcast, hnext, ZMod.natCast_mod, Nat.cast_mul, pow_succ]
          ring

structure Decomposes (Q B count x : Nat) (power word : Nat -> Nat) : Prop where
  digits : forall i, i + 1 < count -> exists r : Int, -((B / 2 : Nat) : Int) <= r ∧
    r < (B / 2 : Nat) ∧ Represents Q r (word i)
  recomposes : exists r : Int, -((B / 2 : Nat) : Int) <= r ∧ r < (B / 2 : Nat) ∧
    (∑ i ∈ Finset.range (count - 1), (word i : ZMod Q) * (power (i + 1) : ZMod Q)) = x - r

/--
The representative is at most the largest number of `count` signed digits, or dropping the
carry `B ^ count` is made up for by another lowest digit.
-/
def FitsDigits (Q g count x : Nat) : Prop :=
  (2 ^ g - 1) * centeredCoefficient Q x <= (2 ^ (g - 1) - 1) * ((2 ^ g) ^ count - 1) ∨
    exists shift : Int, (Q : Int) ∣ (2 ^ g) ^ count - shift ∧
      -(2 ^ (g - 1)) <= (centeredCoefficient Q x).bmod (2 ^ g) + shift ∧
      (centeredCoefficient Q x).bmod (2 ^ g) + shift < 2 ^ (g - 1)

section Carry

variable {Q g : Nat} (hg : 0 < g) (hQ1 : 1 < Q) {x : Nat} (hx : x < Q)

include hg hQ1 hx

theorem carry_cases :
    (signedCarry (2 ^ (g - 1)) (centeredCoefficient Q x) (Nat.clog (2 ^ g) Q) = 0 ∧
      (2 ^ g - 1) * centeredCoefficient Q x <=
        (2 ^ (g - 1) - 1) * ((2 ^ g) ^ Nat.clog (2 ^ g) Q - 1)) ∨
    (signedCarry (2 ^ (g - 1)) (centeredCoefficient Q x) (Nat.clog (2 ^ g) Q) = 1 ∧
      ¬ (2 ^ g - 1) * centeredCoefficient Q x <=
        (2 ^ (g - 1) - 1) * ((2 ^ g) ^ Nat.clog (2 ^ g) Q - 1)) := by
  have hpos : 0 < Nat.clog (2 ^ g) Q := Nat.clog_pos (Nat.one_lt_two_pow (by omega)) hQ1
  have hH : 0 < 2 ^ (g - 1) := by positivity
  have hdouble : (2 * (2 ^ (g - 1) : Nat) : Int) = 2 ^ g := by
    rw [Nat.cast_pow, Nat.cast_ofNat, ← pow_succ']
    congr 1
    omega
  have hhalf : ((2 ^ (g - 1) : Nat) : Int) = 2 ^ (g - 1) := by
    rw [Nat.cast_pow, Nat.cast_ofNat]
  have hbounds := centeredCoefficient_bounds hx
  have hcover : (Q : Int) <= (2 ^ g) ^ Nat.clog (2 ^ g) Q := by
    exact_mod_cast Nat.le_pow_clog (Nat.one_lt_two_pow (by omega)) Q
  -- the last power is even, so that it bounds the representative on both sides
  have heven : (2 : Int) ∣ (2 ^ g) ^ Nat.clog (2 ^ g) Q :=
    dvd_pow (dvd_pow_self 2 (by omega)) (by omega)
  have hwidth := repunit_mul (2 ^ (g - 1)) (Nat.clog (2 ^ g) Q)
  have hlower := lower_end_le hH hpos
  rw [hdouble] at hwidth hlower
  rw [← hwidth, ← hhalf]
  have hscale : (0 : Int) < 2 ^ g - 1 := by
    have hone : (1 : Int) < 2 ^ g := one_lt_pow₀ (by decide) (by omega)
    omega
  have hiff : (2 ^ g - 1) * centeredCoefficient Q x <=
      ((2 ^ (g - 1) : Nat) - 1) * ((2 ^ g - 1) * repunit (2 ^ (g - 1)) (Nat.clog (2 ^ g) Q)) <->
        centeredCoefficient Q x <=
          ((2 ^ (g - 1) : Nat) - 1) * repunit (2 ^ (g - 1)) (Nat.clog (2 ^ g) Q) := by
    rw [mul_left_comm]
    exact mul_le_mul_iff_right₀ hscale
  rw [hiff]
  rcases le_or_gt (centeredCoefficient Q x)
    (((2 ^ (g - 1) : Nat) - 1) * repunit (2 ^ (g - 1)) (Nat.clog (2 ^ g) Q)) with hle | hgt
  · left
    refine ⟨(signedCarry_eq_zero_iff hH _ _).mpr ⟨?_, hle⟩, hle⟩
    omega
  · right
    refine ⟨signedCarry_eq_one hH hgt ?_, not_le.mpr hgt⟩
    rw [hdouble]
    omega

end Carry

section Coefficient

variable {params : GadgetParams} {g : Nat} (hg : 0 < g) (hg32 : g < 32)
  (hbase : params.baseG = 2 ^ g) (hQ1 : 1 < params.Q) (hQ : params.Q < 2 ^ 63)
  (hcount : params.digitsG = Nat.clog (2 ^ g) params.Q) {x : Nat} (hx : x < params.Q)

include hg hg32 hbase hQ hx

theorem outputDigit_cast (d : Nat) :
    outputDigit params x d =
      ofSigned (if signedDigit (2 ^ (g - 1))
          (signedCarry (2 ^ (g - 1)) (centeredCoefficient params.Q x) (d + 1)) < 0 then
        signedDigit (2 ^ (g - 1))
          (signedCarry (2 ^ (g - 1)) (centeredCoefficient params.Q x) (d + 1)) + params.Q
      else signedDigit (2 ^ (g - 1))
        (signedCarry (2 ^ (g - 1)) (centeredCoefficient params.Q x) (d + 1))) := by
  have hbits : gBits params = g := by
    rw [gBits, hbase, Nat.log2_two_pow]
  have hbounds := centeredCoefficient_bounds hx
  have hremaining := (remaining_eq hg hg32 (by omega : -2 ^ 62 <= centeredCoefficient params.Q x)
    (by omega) (d + 1)).1
  unfold outputDigit
  rw [hbits, centeredWord_eq hQ hx, hremaining, lowBits_eq hg hg32]

include hQ1 hcount

theorem outputDigit_represents {d : Nat} (hd : d + 1 < params.digitsG) :
    Represents params.Q (signedDigit (2 ^ (g - 1))
      (signedCarry (2 ^ (g - 1)) (centeredCoefficient params.Q x) (d + 1)))
      (outputDigit params x d) := by
  have hdigit := signedDigit_bounds (H := 2 ^ (g - 1)) (by positivity)
    (signedCarry (2 ^ (g - 1)) (centeredCoefficient params.Q x) (d + 1))
  have hbaseLt : 2 ^ g < params.Q := by
    have hone : 1 < 2 ^ g := Nat.one_lt_two_pow (by omega)
    have hpred := Nat.pow_pred_clog_lt_self hone hQ1
    rw [← hcount] at hpred
    refine lt_of_le_of_lt ?_ hpred
    exact Nat.le_self_pow (show params.digitsG - 1 ≠ 0 by omega) _
  have hhalf : 2 ^ (g - 1) < 2 ^ g := Nat.pow_lt_pow_right (by decide) (by omega)
  rw [outputDigit_cast hg hg32 hbase hQ hx]
  generalize signedDigit (2 ^ (g - 1))
    (signedCarry (2 ^ (g - 1)) (centeredCoefficient params.Q x) (d + 1)) = r at hdigit
  have hrange : ((2 ^ (g - 1) : Nat) : Int) < params.Q :=
    Int.ofNat_lt.mpr (lt_trans hhalf hbaseLt)
  split
  next hneg =>
      rw [ofSigned_eq (by omega) (by simp only [maxBits]; omega)]
      refine ⟨by omega, ?_⟩
      rw [← Int.cast_natCast, Int.toNat_of_nonneg (by omega)]
      simp
  next hnonneg =>
      rw [ofSigned_eq (by omega) (by simp only [maxBits]; omega)]
      refine ⟨by omega, ?_⟩
      rw [← Int.cast_natCast, Int.toNat_of_nonneg (by omega)]

theorem sum_outputDigits :
    (∑ i ∈ Finset.range (params.digitsG - 1), (outputDigit params x i : ZMod params.Q) *
      (((powersG params.Q params.baseG params.digitsG 1).getD (i + 1) 0 : Nat) : ZMod params.Q)) =
      x - ((signedDigit (2 ^ (g - 1)) (centeredCoefficient params.Q x) +
        signedCarry (2 ^ (g - 1)) (centeredCoefficient params.Q x) params.digitsG *
          (2 ^ g) ^ params.digitsG : Int) : ZMod params.Q) := by
  have hpos : 0 < params.digitsG := by
    rw [hcount]
    exact Nat.clog_pos (Nat.one_lt_two_pow (by omega)) hQ1
  have hdouble : (2 * (2 ^ (g - 1) : Nat) : Int) = 2 ^ g := by
    rw [Nat.cast_pow, Nat.cast_ofNat, ← pow_succ']
    congr 1
    omega
  have hvalue := signedValue_add_carry (2 ^ (g - 1)) (centeredCoefficient params.Q x)
    params.digitsG
  rw [hdouble, signedValue, hdouble] at hvalue
  obtain ⟨c, hc⟩ : exists c, params.digitsG = c + 1 := ⟨params.digitsG - 1, by omega⟩
  have hterm : forall i, i ∈ Finset.range (params.digitsG - 1) ->
      (outputDigit params x i : ZMod params.Q) *
        (((powersG params.Q params.baseG params.digitsG 1).getD (i + 1) 0 : Nat) :
          ZMod params.Q) =
      ((signedDigit (2 ^ (g - 1))
        (signedCarry (2 ^ (g - 1)) (centeredCoefficient params.Q x) (i + 1)) *
          (2 ^ g) ^ (i + 1) : Int) : ZMod params.Q) := by
    intro i hi
    have hik := Finset.mem_range.mp hi
    have hword := outputDigit_represents hg hg32 hbase hQ1 hQ hcount hx
      (by omega : i + 1 < params.digitsG)
    have hbaseLt : params.baseG < 2 ^ maxBits := by
      rw [hbase]
      exact Nat.pow_lt_pow_right (by decide) (by simp only [maxBits]; omega)
    rcases powersG_getElem? hQ1 (lt_trans hQ (by decide)) hbaseLt 1 (i + 1)
      (by omega : i + 1 < params.digitsG) (by decide) with ⟨y, hy, hcast⟩
    rw [hword.2, List.getD_eq_getElem?_getD, hy, Option.getD_some, hcast, hbase]
    push_cast
    ring
  rw [Finset.sum_congr rfl hterm, ← Int.cast_sum, ← centeredCoefficient_cast, ← Int.cast_sub]
  congr 1
  rw [hc, Nat.add_sub_cancel]
  rw [hc, Finset.sum_range_succ', signedCarry, pow_zero, mul_one] at hvalue
  omega

theorem decomposes_iff :
    Decomposes params.Q params.baseG params.digitsG x
        (fun k => (powersG params.Q params.baseG params.digitsG 1).getD k 0)
        (outputDigit params x) <->
      FitsDigits params.Q g params.digitsG x := by
  have hdouble : 2 * 2 ^ (g - 1) = 2 ^ g := by
    rw [← pow_succ']
    congr 1
    omega
  have hhalf : params.baseG / 2 = 2 ^ (g - 1) := by
    rw [hbase, ← hdouble]
    exact Nat.mul_div_cancel_left _ (by decide)
  have hsum := sum_outputDigits hg hg32 hbase hQ1 hQ hcount hx
  have hdigit0 : signedDigit (2 ^ (g - 1)) (centeredCoefficient params.Q x) =
      (centeredCoefficient params.Q x).bmod (2 ^ g) := by
    rw [signedDigit, hdouble]
  have hbounds0 := signedDigit_bounds (H := 2 ^ (g - 1)) (by positivity)
    (centeredCoefficient params.Q x)
  have hcases := carry_cases hg hQ1 hx
  rw [← hcount] at hcases
  have hcastHalf : ((2 ^ (g - 1) : Nat) : Int) = 2 ^ (g - 1) := by
    rw [Nat.cast_pow, Nat.cast_ofNat]
  rw [hcastHalf] at hbounds0
  constructor
  · rintro ⟨_, r, hlo, hhi, hr⟩
    rw [hhalf, hcastHalf] at hlo hhi
    rcases hcases with ⟨_, hfits⟩ | ⟨hcarry, _⟩
    · exact Or.inl hfits
    · right
      rw [hsum, hcarry, one_mul, sub_right_inj, ZMod.intCast_eq_intCast_iff_dvd_sub] at hr
      refine ⟨r - signedDigit (2 ^ (g - 1)) (centeredCoefficient params.Q x), ?_, ?_, ?_⟩
      · have hneg := dvd_neg.mpr hr
        rw [neg_sub, add_sub_right_comm, add_comm] at hneg
        rwa [sub_sub_eq_add_sub, add_sub_assoc]
      · rw [← hdigit0]
        omega
      · rw [← hdigit0]
        omega
  · intro hfits
    refine ⟨?_, ?_⟩
    · intro i hi
      have hdigit := signedDigit_bounds (H := 2 ^ (g - 1)) (by positivity)
        (signedCarry (2 ^ (g - 1)) (centeredCoefficient params.Q x) (i + 1))
      rw [hhalf]
      exact ⟨_, hdigit.1, hdigit.2,
        outputDigit_represents hg hg32 hbase hQ1 hQ hcount hx hi⟩
    · rw [hhalf, hcastHalf, hsum]
      rcases hcases with ⟨hcarry, _⟩ | ⟨hcarry, hnot⟩
      · refine ⟨_, hbounds0.1, hbounds0.2, ?_⟩
        rw [hcarry, zero_mul, add_zero]
      · rcases hfits with hle | ⟨shift, hdvd, hlo, hhi⟩
        · exact absurd hle hnot
        · rw [← hdigit0] at hlo hhi
          refine ⟨_, hlo, hhi, ?_⟩
          rw [hcarry, one_mul, sub_right_inj, ZMod.intCast_eq_intCast_iff_dvd_sub]
          have hneg := dvd_neg.mpr hdvd
          rwa [add_sub_add_left_eq_sub, ← neg_sub]

end Coefficient

/-!
## The whole decomposition
-/

def zeroOutput (rows N : Nat) : List (List Nat) :=
  List.replicate rows (List.replicate N 0)

/-- Coefficient `k` of the rows `start`, `start + stride`, `start + 2 * stride`, ... -/
def column (output : List (List Nat)) (start stride k i : Nat) : Nat :=
  (output.getD (start + stride * i) []).getD k 0

theorem addDigits_zero (N rows : Nat) (digit : Nat -> Nat -> Nat)
    (hdigit : forall e k, digit e k < 2 ^ maxBits) :
    exists out, addDigits N rows digit (zeroOutput rows N) = .ok out ∧
      forall e k, e < rows -> k < N -> (out.getD e []).getD k 0 = digit e k := by
  have hshape : ¬ ((zeroOutput rows N).length < rows ∨
      ∃ row ∈ (zeroOutput rows N).take rows, row.length < N) := by
    rintro (hlt | ⟨row, hrow, hlt⟩)
    · simp [zeroOutput] at hlt
    · rw [List.eq_of_mem_replicate (List.mem_of_mem_take hrow)] at hlt
      simp at hlt
  refine ⟨(zeroOutput rows N).zipIdx.map fun (row, e) =>
    if e < rows then row.zipIdx.map fun (x, k) => if k < N then addFast x (digit e k) else x
    else row, ?_, ?_⟩
  · rw [addDigits, if_neg hshape]
    rfl
  · intro e k he hk
    simp [zeroOutput, List.getD_eq_getElem?_getD, he, hk, addFast, word_eq (hdigit e k)]

theorem Decomposes.congr {Q B count x : Nat} {power word word' : Nat -> Nat}
    (h : forall i, i + 1 < count -> word i = word' i) :
    Decomposes Q B count x power word <-> Decomposes Q B count x power word' := by
  have himp : forall {v w : Nat -> Nat}, (forall i, i + 1 < count -> v i = w i) ->
      Decomposes Q B count x power v -> Decomposes Q B count x power w := by
    rintro v w heq ⟨hdigits, r, hlo, hhi, hr⟩
    constructor
    · intro i hi
      rw [← heq i hi]
      exact hdigits i hi
    · refine ⟨r, hlo, hhi, ?_⟩
      rw [← hr]
      exact Finset.sum_congr rfl fun i hi => by
        rw [heq i (by have := Finset.mem_range.mp hi; omega)]
  constructor
  · exact himp h
  · exact himp fun i hi => (h i hi).symm

theorem ofSigned_lt (x : Int) : ofSigned x < 2 ^ maxBits := by
  have hlt := Int.emod_lt_of_pos x (by decide : (0 : Int) < 2 ^ maxBits)
  unfold ofSigned
  simp only [maxBits] at hlt ⊢
  omega

section Run

variable {params : GadgetParams} {g : Nat} (hg : 0 < g) (hg32 : g < 32)
  (hbase : params.baseG = 2 ^ g) (hQ1 : 1 < params.Q) (hQ : params.Q < 2 ^ 63)
  (hcount : params.digitsG = Nat.clog (2 ^ g) params.Q)

include hg hQ1 hQ hcount

theorem keptDigits_eq : keptDigits params = params.digitsG - 1 ∧ params.digitsG <= 63 := by
  have hpos : 0 < params.digitsG := by
    rw [hcount]
    exact Nat.clog_pos (Nat.one_lt_two_pow (by omega)) hQ1
  have hle : params.digitsG <= 63 := by
    rw [hcount]
    refine Nat.clog_le_of_le_pow ?_
    rw [← pow_mul]
    exact hQ.le.trans (Nat.pow_le_pow_right (by decide) (by omega))
  refine ⟨?_, hle⟩
  unfold keptDigits usint
  omega

include hg32 hbase

theorem column_iff {input : List Nat} (hin : Residues params.N params.Q input)
    {out : List (List Nat)} {start stride k : Nat} (hk : k < params.N)
    (hentry : forall i, i + 1 < params.digitsG ->
      column out start stride k i = outputDigit params (input.getD k 0) i) :
    Decomposes params.Q params.baseG params.digitsG (input.getD k 0)
        (fun i => (powersG params.Q params.baseG params.digitsG 1).getD i 0)
        (column out start stride k) <->
      FitsDigits params.Q g params.digitsG (input.getD k 0) := by
  rcases hin.exists_entry hk with ⟨x, hx, hxlt⟩
  have hget : input.getD k 0 = x := by
    rw [List.getD_eq_getElem?_getD, hx]
    rfl
  rw [hget] at hentry ⊢
  rw [Decomposes.congr hentry]
  exact decomposes_iff hg hg32 hbase hQ1 hQ hcount hxlt

/--
Both decompositions write, for every coefficient, digits that recompose it exactly if it fits
into `digitsG` signed digits or can do without the carry.
-/
theorem signedDigitDecompose_iff {input : List Nat × List Nat}
    (h0 : Residues params.N params.Q input.1) (h1 : Residues params.N params.Q input.2) :
    exists out element,
      signedDigitDecompose params input (zeroOutput (2 * (params.digitsG - 1)) params.N) =
        .ok out ∧
      signedDigitDecomposeElement params input.1 (zeroOutput (params.digitsG - 1) params.N) =
        .ok element ∧
      forall k, k < params.N ->
        (Decomposes params.Q params.baseG params.digitsG (input.1.getD k 0)
            (fun i => (powersG params.Q params.baseG params.digitsG 1).getD i 0)
            (column out 0 2 k) <->
          FitsDigits params.Q g params.digitsG (input.1.getD k 0)) ∧
        (Decomposes params.Q params.baseG params.digitsG (input.2.getD k 0)
            (fun i => (powersG params.Q params.baseG params.digitsG 1).getD i 0)
            (column out 1 2 k) <->
          FitsDigits params.Q g params.digitsG (input.2.getD k 0)) ∧
        (Decomposes params.Q params.baseG params.digitsG (input.1.getD k 0)
            (fun i => (powersG params.Q params.baseG params.digitsG 1).getD i 0)
            (column element 0 1 k) <->
          FitsDigits params.Q g params.digitsG (input.1.getD k 0)) := by
  rcases keptDigits_eq hg hQ1 hQ hcount with ⟨hkept, hle⟩
  have hrows : usint (keptDigits params * 2 : Nat) = 2 * (params.digitsG - 1) := by
    rw [hkept]
    unfold usint
    omega
  rcases addDigits_zero params.N (2 * (params.digitsG - 1)) (fun e k => outputDigit params
    ((if e % 2 = 0 then input.1 else input.2).getD k 0) (e / 2)) (fun _ _ => ofSigned_lt _)
    with ⟨out, hout, hentry⟩
  rcases addDigits_zero params.N (params.digitsG - 1)
    (fun d k => outputDigit params (input.1.getD k 0) d) (fun _ _ => ofSigned_lt _)
    with ⟨element, helement, hentryElement⟩
  refine ⟨out, element, ?_, ?_, ?_⟩
  · rw [signedDigitDecompose, if_neg (by rw [h0.1, h1.1]; omega), hrows, hout]
  · rw [signedDigitDecomposeElement, if_neg (by rw [h0.1]; omega), hkept, helement]
  · intro k hk
    refine ⟨column_iff hg hg32 hbase hQ1 hQ hcount h0 hk fun i hi => ?_,
      column_iff hg hg32 hbase hQ1 hQ hcount h1 hk fun i hi => ?_,
      column_iff hg hg32 hbase hQ1 hQ hcount h0 hk fun i hi => ?_⟩
    · rw [column, hentry _ k (by omega) hk, if_pos (by omega), zero_add,
        Nat.mul_div_cancel_left _ (by decide)]
    · rw [column, hentry _ k (by omega) hk, if_neg (by omega),
        show (1 + 2 * i) / 2 = i by omega]
    · rw [column, hentryElement _ k (by omega) hk, zero_add, one_mul]

end Run

theorem signedDigitDecompose_iff_seventeen :
    exists out element,
      signedDigitDecompose { Q := 17, N := 1, baseG := 4, digitsG := 3 } ([5], [12])
        (zeroOutput (2 * (3 - 1)) 1) = .ok out ∧
      signedDigitDecomposeElement { Q := 17, N := 1, baseG := 4, digitsG := 3 } [5]
        (zeroOutput (3 - 1) 1) = .ok element ∧
      forall k, k < 1 ->
        (Decomposes 17 4 3 ([5].getD k 0) (fun i => (powersG 17 4 3 1).getD i 0)
          (column out 0 2 k) <-> FitsDigits 17 2 3 ([5].getD k 0)) ∧
        (Decomposes 17 4 3 ([12].getD k 0) (fun i => (powersG 17 4 3 1).getD i 0)
          (column out 1 2 k) <-> FitsDigits 17 2 3 ([12].getD k 0)) ∧
        (Decomposes 17 4 3 ([5].getD k 0) (fun i => (powersG 17 4 3 1).getD i 0)
          (column element 0 1 k) <-> FitsDigits 17 2 3 ([5].getD k 0)) := by
  have hcount : 3 = Nat.clog (2 ^ 2) 17 := by decide +kernel
  exact @signedDigitDecompose_iff { Q := 17, N := 1, baseG := 4, digitsG := 3 } 2
    (by decide) (by decide) rfl (by decide) (by decide) hcount ([5], [12]) ⟨rfl, by decide⟩
    ⟨rfl, by decide⟩

/--
The modulus is the largest prime below `2 ^ 27` that is one modulo `2048`, and the base is
`2 ^ 9`.  The coefficient is the largest one below half of the modulus.
-/
theorem not_decomposes :
    Nat.clog 512 134215681 = 3 ∧
      signedDigitDecomposeElement { Q := 134215681, N := 1, baseG := 512, digitsG := 3 }
        [67107839] (zeroOutput 2 1) = .ok [[134215679], [134215425]] ∧
      ¬ Decomposes 134215681 512 3 67107839
        (fun i => (powersG 134215681 512 3 1).getD i 0)
        (column [[134215679], [134215425]] 0 1 0) := by
  refine ⟨by decide +kernel, by decide +kernel, ?_⟩
  rintro ⟨_, r, hlo, hhi, hr⟩
  have hpowers : powersG 134215681 512 3 1 = [1, 512, 262144] := by decide +kernel
  rw [hpowers, Finset.sum_range_succ, Finset.sum_range_one] at hr
  have hsum : (((134215679 * 512 + 134215425 * 262144 : Nat) : Int) : ZMod 134215681) =
      (((67107839 : Nat) : Int) - r : Int) := by
    rw [Int.cast_natCast, Int.cast_sub, Int.cast_natCast, Nat.cast_add, Nat.cast_mul,
      Nat.cast_mul]
    exact hr
  rw [ZMod.intCast_eq_intCast_iff_dvd_sub] at hsum
  omega

end RingGSWAccumulator

end BinFHE
end OpenFHE
