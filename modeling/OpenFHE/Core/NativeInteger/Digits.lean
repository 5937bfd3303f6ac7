import OpenFHE.Core.NativeInteger.ModularArithmetic
import Mathlib.Algebra.BigOperators.Group.Finset.Basic
import Mathlib.Data.Nat.Log
import Mathlib.Data.ZMod.Basic

/-!
# Digits of native integers

`GetDigitAtIndexForBase` collects a digit bit by bit.  A shift by the word size
or more is undefined, and so is the `int` shift that builds a large base; both
are the value `none`.
-/

namespace OpenFHE
namespace Core
namespace NativeInteger

open Foundation

def getLengthForBase (m : Nat) : Nat := getMSB m

def getBitAtIndex (value index : Nat) : Option Nat :=
  if index = 0 then none
  else if index - 1 >= maxBits then none
  else some ((value >>> (index - 1)) &&& 1)

structure DigitState where
  i : Nat
  newIndex : Nat
  digit : Nat
deriving DecidableEq, Repr

def digitStep (value : Nat) (s : DigitState) : Option DigitState := do
  let bit <- getBitAtIndex value s.newIndex
  return { i := s.i <<< 1, newIndex := s.newIndex + 1, digit := s.digit + bit * s.i }

/-- `Nat.clog` is the ceiling of the logarithm. -/
def getDigitAtIndexForBase (value index base : Nat) : Option Nat :=
  let digitLen := Nat.clog 2 base
  (whileFuel (fun s => decide (s.i < base)) (digitStep value) 33
    { i := 1, newIndex := 1 + (index - 1) * digitLen, digit := 0 }).map DigitState.digit

/-- `1 << baseBits`, an `int` that becomes unsigned. -/
def shiftOne (baseBits : Nat) : Option Nat :=
  if baseBits < 32 then some (1 <<< baseBits) else none

/-!
## The loop over the bits of a digit
-/

/-- The state after `c` bits of the digit that starts at bit `start`. -/
def digitState (value start c : Nat) : DigitState where
  i := 2 ^ c
  newIndex := 1 + start + c
  digit := value / 2 ^ start % 2 ^ c

theorem digitStep_digitState {value start c : Nat} (hc : start + c < maxBits) :
    digitStep value (digitState value start c) = some (digitState value start (c + 1)) := by
  have hbit : getBitAtIndex value (1 + start + c) = some (value / 2 ^ start / 2 ^ c % 2) := by
    rw [getBitAtIndex, if_neg (by omega), if_neg (by omega), Nat.and_one_is_mod,
      Nat.shiftRight_eq_div_pow, Nat.div_div_eq_div_mul, ← pow_add]
    congr 4
    omega
  have hdigit : value / 2 ^ start % 2 ^ (c + 1) =
      value / 2 ^ start % 2 ^ c + value / 2 ^ start / 2 ^ c % 2 * 2 ^ c := by
    rw [Nat.mod_pow_succ, mul_comm]
  simp only [digitStep, digitState, hbit, Option.bind_eq_bind, Option.bind_some, hdigit,
    Nat.shiftLeft_eq, pow_one, ← pow_succ]
  rfl

theorem digitStep_eq_none {value start c : Nat} (hc : maxBits <= start + c) :
    digitStep value (digitState value start c) = none := by
  have hbit : getBitAtIndex value (1 + start + c) = none := by
    rw [getBitAtIndex, if_neg (by omega), if_pos (by omega)]
  simp [digitStep, digitState, hbit]

theorem digitState_test (value start c r : Nat) :
    decide ((digitState value start c).i < 2 ^ r) = decide (c < r) := by
  rw [decide_eq_decide]
  exact Nat.pow_lt_pow_iff_right (by decide)

theorem digitLoop_of_step {step : DigitState -> Option DigitState} {value start r : Nat}
    (hstep : forall c, c < r ->
      step (digitState value start c) = some (digitState value start (c + 1))) :
    forall d c fuel, c + d = r -> d < fuel ->
      whileFuel (fun s => decide (s.i < 2 ^ r)) step fuel (digitState value start c) =
        some (digitState value start r) := by
  intro d
  induction d with
  | zero =>
      intro c fuel hcr hfuel
      obtain ⟨fuel, rfl⟩ : exists m, fuel = m + 1 := ⟨fuel - 1, by omega⟩
      have hcr' : c = r := by omega
      rw [hcr']
      exact whileFuel_stop fuel (by rw [digitState_test]; simp)
  | succ d ih =>
      intro c fuel hcr hfuel
      obtain ⟨fuel, rfl⟩ : exists m, fuel = m + 1 := ⟨fuel - 1, by omega⟩
      rw [whileFuel_step fuel (by rw [digitState_test]; simp; omega) (hstep c (by omega))]
      exact ih (c + 1) fuel (by omega) (by omega)

theorem digitLoop_eq (value : Nat) {start r : Nat} (hr : start + r <= maxBits) :
    forall d c fuel, c + d = r -> d < fuel ->
      whileFuel (fun s => decide (s.i < 2 ^ r)) (digitStep value) fuel
        (digitState value start c) = some (digitState value start r) :=
  digitLoop_of_step fun _ hc => digitStep_digitState (by omega)

theorem digitLoop_eq_none (value : Nat) {start r : Nat} (hr : maxBits < start + r) :
    forall d c fuel, c + d + 1 = r ->
      whileFuel (fun s => decide (s.i < 2 ^ r)) (digitStep value) fuel
        (digitState value start c) = none := by
  intro d
  induction d with
  | zero =>
      intro c fuel hcr
      cases fuel with
      | zero => rfl
      | succ fuel =>
          have htest : decide ((digitState value start c).i < 2 ^ r) = true := by
            rw [digitState_test]
            simp
            omega
          rw [whileFuel, if_pos htest, digitStep_eq_none (by omega)]
          rfl
  | succ d ih =>
      intro c fuel hcr
      cases fuel with
      | zero => rfl
      | succ fuel =>
          have htest : decide ((digitState value start c).i < 2 ^ r) = true := by
            rw [digitState_test]
            simp
            omega
          rw [whileFuel, if_pos htest]
          rcases Nat.lt_or_ge (start + c) maxBits with hlt | hge
          · rw [digitStep_digitState hlt, Option.bind_some]
            exact ih (c + 1) fuel (by omega)
          · rw [digitStep_eq_none hge]
            rfl

theorem getDigitAtIndexForBase_eq (value i : Nat) {r : Nat} (hr : r <= 31)
    (hbits : i * r + r <= maxBits) :
    getDigitAtIndexForBase value (i + 1) (2 ^ r) =
      some (value / 2 ^ (i * r) % 2 ^ r) := by
  have hloop := digitLoop_eq value hbits r 0 33 (by omega) (by omega)
  unfold getDigitAtIndexForBase
  rw [Nat.clog_pow 2 r (by decide), Nat.add_sub_cancel]
  have hstart : digitState value (i * r) 0 =
      { i := 1, newIndex := 1 + i * r, digit := 0 } := by
    simp [digitState, Nat.mod_one]
  rw [hstart] at hloop
  dsimp only
  rw [hloop]
  rfl

theorem getDigitAtIndexForBase_eq_none (value i : Nat) {r : Nat} (hr : 0 < r)
    (hbits : maxBits < i * r + r) :
    getDigitAtIndexForBase value (i + 1) (2 ^ r) = none := by
  have hloop := digitLoop_eq_none value hbits (r - 1) 0 33 (by omega)
  unfold getDigitAtIndexForBase
  rw [Nat.clog_pow 2 r (by decide), Nat.add_sub_cancel]
  have hstart : digitState value (i * r) 0 =
      { i := 1, newIndex := 1 + i * r, digit := 0 } := by
    simp [digitState, Nat.mod_one]
  rw [hstart] at hloop
  dsimp only
  rw [hloop]
  rfl

theorem shiftOne_eq {r : Nat} (hr : r <= 31) : shiftOne r = some (2 ^ r) := by
  rw [shiftOne, if_pos (by omega), Nat.one_shiftLeft]

theorem getDigitAtIndexForBase_le {value index base d : Nat}
    (h : getDigitAtIndexForBase value index base = some d) : d <= value := by
  unfold getDigitAtIndexForBase at h
  rcases Option.map_eq_some_iff.mp h with ⟨s, hs, rfl⟩
  rcases whileFuel_invariant
    (fun s => exists c, s = digitState value ((index - 1) * Nat.clog 2 base) c)
    (by
      rintro s s' ⟨c, rfl⟩ _ hstep
      refine ⟨c + 1, ?_⟩
      rcases Nat.lt_or_ge ((index - 1) * Nat.clog 2 base + c) maxBits with hlt | hge
      · rw [digitStep_digitState hlt] at hstep
        exact (Option.some.inj hstep).symm
      · rw [digitStep_eq_none hge] at hstep
        cases hstep)
    ⟨0, by simp [digitState, Nat.mod_one]⟩ hs with ⟨⟨c, rfl⟩, _⟩
  exact (Nat.mod_le _ _).trans (Nat.div_le_self _ _)

theorem sum_digits (value r n : Nat) :
    (∑ i ∈ Finset.range n, value / 2 ^ (i * r) % 2 ^ r * 2 ^ (i * r)) =
      value % 2 ^ (n * r) := by
  induction n with
  | zero =>
      rw [zero_mul, pow_zero, Nat.mod_one, Finset.range_zero, Finset.sum_empty]
  | succ n ih =>
      have hpow : forall i : Nat, 2 ^ (i * r) = (2 ^ r) ^ i := by
        intro i
        rw [mul_comm, pow_mul]
      rw [Finset.sum_range_succ, ih, hpow (n + 1), Nat.mod_pow_succ, hpow n,
        mul_comm ((2 ^ r) ^ n)]

/-!
## Powers
-/

structure ModExpState where
  t : Nat
  p : Nat
  r : Nat
deriving DecidableEq, Repr

def modExpAccumulate (m : Nat) (s : ModExpState) : ModExpState :=
  if s.p &&& 1 ≠ 0 then
    let r := doubleWord (s.r * s.t)
    { s with r := if r >= m then r % m else r }
  else s

def modExpStep (m : Nat) (s : ModExpState) : Option ModExpState :=
  let t := doubleWord (s.t * s.t)
  some (modExpAccumulate m { s with t := if t >= m then t % m else t, p := s.p >>> 1 })

/-- The loop tests the exponent after it has been halved. -/
def modExp (value b m : Nat) : Option Nat :=
  if m = 0 ∧ b ≠ 0 then none
  else
    (whileFuel (fun s => decide (s.p >>> 1 ≠ 0)) (modExpStep m) (maxBits + 1)
      (modExpAccumulate m { t := value, p := b, r := 1 })).map fun s => word s.r

/-- The accumulated power and what is left of the exponent give the whole power. -/
structure ModExpInv (value b m : Nat) (s : ModExpState) : Prop where
  t_lt : s.t < 2 ^ maxBits
  r_lt : s.r < m
  power : (s.r : ZMod m) * (s.t : ZMod m) ^ (2 * (s.p / 2)) = (value : ZMod m) ^ b

theorem reduce_eq_mod (x m : Nat) : (if x >= m then x % m else x) = x % m := by
  split
  next hge => rfl
  next hlt => exact (Nat.mod_eq_of_lt (by omega)).symm

theorem modExpAccumulate_spec (value b : Nat) {m : Nat} (hm : 0 < m) (hmw : m < 2 ^ maxBits)
    {s : ModExpState} (ht : s.t < 2 ^ maxBits) (hr : s.r < m)
    (hpower : (s.r : ZMod m) * (s.t : ZMod m) ^ s.p = (value : ZMod m) ^ b) :
    ModExpInv value b m (modExpAccumulate m s) ∧ (modExpAccumulate m s).p = s.p := by
  have hdivmod := Nat.div_add_mod s.p 2
  unfold modExpAccumulate
  rw [Nat.and_one_is_mod]
  split
  next hodd =>
      have hproduct : s.r * s.t < 2 ^ (2 * maxBits) := by
        rw [two_mul, pow_add]
        exact Nat.mul_lt_mul'' (by omega) ht
      dsimp only
      rw [doubleWord_eq hproduct, reduce_eq_mod]
      refine ⟨⟨ht, Nat.mod_lt _ hm, ?_⟩, rfl⟩
      rw [ZMod.natCast_mod, Nat.cast_mul, ← hpower, mul_assoc, ← pow_succ']
      congr 2
      dsimp only
      omega
  next heven =>
      refine ⟨⟨ht, hr, ?_⟩, rfl⟩
      rw [← hpower]
      congr 2
      omega

theorem modExp_spec {value b m : Nat} (hm : 1 < m) (hmw : m < 2 ^ maxBits)
    (hvalue : value < 2 ^ maxBits) (hb : b < 2 ^ maxBits) :
    exists x, modExp value b m = some x ∧ x < m ∧ (x : ZMod m) = (value : ZMod m) ^ b := by
  have hinit := modExpAccumulate_spec value b
    (s := { t := value, p := b, r := 1 }) (by omega) hmw hvalue hm (by simp)
  have hlog : Nat.log 2 b < maxBits + 1 := by
    refine lt_of_le_of_lt ?_ (Nat.lt_succ_self maxBits)
    rcases Nat.eq_zero_or_pos b with hzero | hpos
    · rw [hzero, Nat.log_zero_right]
      exact Nat.zero_le _
    · exact (Nat.log_lt_of_lt_pow (by omega) hb).le
  rcases whileFuel_spec (c := fun s => decide (s.p >>> 1 ≠ 0)) (f := modExpStep m)
    (ModExpInv value b m) (fun s => Nat.log 2 s.p)
    (by
      intro s hs htest
      have hp : s.p / 2 ≠ 0 := by simpa [Nat.shiftRight_eq_div_pow] using htest
      have hsquare : s.t * s.t < 2 ^ (2 * maxBits) := by
        rw [two_mul, pow_add]
        exact Nat.mul_lt_mul'' hs.t_lt hs.t_lt
      have hreduced : s.t * s.t % m < 2 ^ maxBits :=
        lt_trans (Nat.mod_lt _ (by omega)) hmw
      have hstep := modExpAccumulate_spec value b
        (s := { s with t := s.t * s.t % m, p := s.p / 2 }) (by omega) hmw hreduced
        hs.r_lt
        (by
          rw [← hs.power]
          push_cast [ZMod.natCast_mod]
          rw [← pow_two, ← pow_mul])
      refine ⟨_, rfl, ?_, ?_⟩
      · rw [doubleWord_eq hsquare, reduce_eq_mod, Nat.shiftRight_eq_div_pow,
          pow_one]
        exact hstep.1
      · rw [doubleWord_eq hsquare, reduce_eq_mod, Nat.shiftRight_eq_div_pow,
          pow_one, hstep.2]
        dsimp only
        rw [Nat.log_div_base]
        have hpos := Nat.log_pos (b := 2) (by decide) (show 2 <= s.p by omega)
        omega)
    (maxBits + 1) _ hinit.1 (by rw [hinit.2]; exact hlog) with ⟨s, hrun, hinv, hdone⟩
  have hp : s.p / 2 = 0 := by simpa [Nat.shiftRight_eq_div_pow] using hdone
  have hpower := hinv.power
  rw [hp, mul_zero, pow_zero, mul_one] at hpower
  refine ⟨s.r, ?_, hinv.r_lt, hpower⟩
  rw [modExp, if_neg (by omega), hrun, Option.map_some,
    word_eq (lt_trans hinv.r_lt hmw)]

end NativeInteger
end Core
end OpenFHE
