import OpenFHE.Core.NativeInteger.Digits

/-!
# Digits of big integers

A bit above the most significant one is zero, so that every digit of a big integer can be
read.
-/

namespace OpenFHE
namespace Core
namespace BigInteger

open Foundation NativeInteger

def getBitAtIndex (value index : Nat) : Nat :=
  if index > getMSB value then 0 else (value >>> (index - 1)) &&& 1

def digitStep (value : Nat) (s : DigitState) : Option DigitState :=
  some { i := s.i <<< 1, newIndex := s.newIndex + 1,
         digit := s.digit + getBitAtIndex value s.newIndex * s.i }

def getDigitAtIndexForBase (value index base : Nat) : Option Nat :=
  let digitLen := Nat.clog 2 base
  (whileFuel (fun s => decide (s.i < base)) (digitStep value) 33
    { i := 1, newIndex := 1 + (index - 1) * digitLen, digit := 0 }).map DigitState.digit

theorem getBitAtIndex_eq (value j : Nat) : getBitAtIndex value (1 + j) = value / 2 ^ j % 2 := by
  unfold getBitAtIndex
  split
  next hover =>
      rcases Nat.eq_zero_or_pos value with hzero | hpos
      · rw [hzero, Nat.zero_div]
      · have hlt := (getMSB_bounds hpos).2
        have hle : 2 ^ getMSB value <= 2 ^ j := Nat.pow_le_pow_right (by decide) (by omega)
        rw [Nat.div_eq_of_lt (lt_of_lt_of_le hlt hle)]
  next hinside =>
      rw [Nat.and_one_is_mod, Nat.shiftRight_eq_div_pow, Nat.add_sub_cancel_left]

theorem digitStep_digitState (value start c : Nat) :
    digitStep value (digitState value start c) = some (digitState value start (c + 1)) := by
  have hbit : getBitAtIndex value (1 + start + c) = value / 2 ^ start / 2 ^ c % 2 := by
    rw [Nat.add_assoc, getBitAtIndex_eq, pow_add, Nat.div_div_eq_div_mul]
  have hdigit : value / 2 ^ start % 2 ^ (c + 1) =
      value / 2 ^ start % 2 ^ c + value / 2 ^ start / 2 ^ c % 2 * 2 ^ c := by
    rw [Nat.mod_pow_succ, mul_comm]
  simp only [digitStep, digitState, hbit, hdigit, Nat.shiftLeft_eq, pow_one, ← pow_succ]
  rfl

theorem getDigitAtIndexForBase_eq (value i : Nat) {r : Nat} (hr : r <= 31) :
    getDigitAtIndexForBase value (i + 1) (2 ^ r) = some (value / 2 ^ (i * r) % 2 ^ r) := by
  have hloop := digitLoop_of_step (r := r)
    (fun c _ => digitStep_digitState value (i * r) c) r 0 33 (by omega) (by omega)
  have hstart : digitState value (i * r) 0 =
      { i := 1, newIndex := 1 + i * r, digit := 0 } := by
    simp [digitState, Nat.mod_one]
  rw [hstart] at hloop
  unfold getDigitAtIndexForBase
  rw [Nat.clog_pow 2 r (by decide), Nat.add_sub_cancel]
  dsimp only
  rw [hloop]
  rfl

end BigInteger
end Core
end OpenFHE
