import OpenFHE.Foundation.BitReversal
import OpenFHE.Core.NativeInteger.Word
import Mathlib.Data.Nat.Bits
import Mathlib.Data.Nat.Bitwise
import Mathlib.Tactic.LinearCombination

/-!
# The byte-wise bit reversal of the code

`reverseBits` reverses whole bytes through a table and shifts the padding bits
out again.  The four-byte case is computed in a signed 32-bit `int`, so its
shift copies the sign bit; the other cases stay below that bit.
-/

namespace OpenFHE
namespace Core

open Foundation NativeInteger

def reverseByteTable : List Nat :=
  [
    0x00, 0x80, 0x40, 0xc0, 0x20, 0xa0, 0x60, 0xe0, 0x10, 0x90, 0x50, 0xd0,
    0x30, 0xb0, 0x70, 0xf0, 0x08, 0x88, 0x48, 0xc8, 0x28, 0xa8, 0x68, 0xe8,
    0x18, 0x98, 0x58, 0xd8, 0x38, 0xb8, 0x78, 0xf8, 0x04, 0x84, 0x44, 0xc4,
    0x24, 0xa4, 0x64, 0xe4, 0x14, 0x94, 0x54, 0xd4, 0x34, 0xb4, 0x74, 0xf4,
    0x0c, 0x8c, 0x4c, 0xcc, 0x2c, 0xac, 0x6c, 0xec, 0x1c, 0x9c, 0x5c, 0xdc,
    0x3c, 0xbc, 0x7c, 0xfc, 0x02, 0x82, 0x42, 0xc2, 0x22, 0xa2, 0x62, 0xe2,
    0x12, 0x92, 0x52, 0xd2, 0x32, 0xb2, 0x72, 0xf2, 0x0a, 0x8a, 0x4a, 0xca,
    0x2a, 0xaa, 0x6a, 0xea, 0x1a, 0x9a, 0x5a, 0xda, 0x3a, 0xba, 0x7a, 0xfa,
    0x06, 0x86, 0x46, 0xc6, 0x26, 0xa6, 0x66, 0xe6, 0x16, 0x96, 0x56, 0xd6,
    0x36, 0xb6, 0x76, 0xf6, 0x0e, 0x8e, 0x4e, 0xce, 0x2e, 0xae, 0x6e, 0xee,
    0x1e, 0x9e, 0x5e, 0xde, 0x3e, 0xbe, 0x7e, 0xfe, 0x01, 0x81, 0x41, 0xc1,
    0x21, 0xa1, 0x61, 0xe1, 0x11, 0x91, 0x51, 0xd1, 0x31, 0xb1, 0x71, 0xf1,
    0x09, 0x89, 0x49, 0xc9, 0x29, 0xa9, 0x69, 0xe9, 0x19, 0x99, 0x59, 0xd9,
    0x39, 0xb9, 0x79, 0xf9, 0x05, 0x85, 0x45, 0xc5, 0x25, 0xa5, 0x65, 0xe5,
    0x15, 0x95, 0x55, 0xd5, 0x35, 0xb5, 0x75, 0xf5, 0x0d, 0x8d, 0x4d, 0xcd,
    0x2d, 0xad, 0x6d, 0xed, 0x1d, 0x9d, 0x5d, 0xdd, 0x3d, 0xbd, 0x7d, 0xfd,
    0x03, 0x83, 0x43, 0xc3, 0x23, 0xa3, 0x63, 0xe3, 0x13, 0x93, 0x53, 0xd3,
    0x33, 0xb3, 0x73, 0xf3, 0x0b, 0x8b, 0x4b, 0xcb, 0x2b, 0xab, 0x6b, 0xeb,
    0x1b, 0x9b, 0x5b, 0xdb, 0x3b, 0xbb, 0x7b, 0xfb, 0x07, 0x87, 0x47, 0xc7,
    0x27, 0xa7, 0x67, 0xe7, 0x17, 0x97, 0x57, 0xd7, 0x37, 0xb7, 0x77, 0xf7,
    0x0f, 0x8f, 0x4f, 0xcf, 0x2f, 0xaf, 0x6f, 0xef, 0x1f, 0x9f, 0x5f, 0xdf,
    0x3f, 0xbf, 0x7f, 0xff
  ]

def reverseByte (x : Nat) : Nat := reverseByteTable.getD x 0

def shiftTrick (x : Nat) : Nat := [0, 7, 6, 5, 4, 3, 2, 1].getD x 0

def reverseBits (num msb : Nat) : Option Nat :=
  let msbb := msb >>> 3 + if msb &&& 0x7 = 0 then 0 else 1
  match msbb with
  | 1 => some (reverseByte (num &&& 0xff) >>> shiftTrick (msb &&& 0x7))
  | 2 =>
      some ((reverseByte (num &&& 0xff) <<< 8 |||
        reverseByte ((num >>> 8) &&& 0xff)) >>> shiftTrick (msb &&& 0x7))
  | 3 =>
      some ((reverseByte (num &&& 0xff) <<< 16 |||
        reverseByte ((num >>> 8) &&& 0xff) <<< 8 |||
        reverseByte ((num >>> 16) &&& 0xff)) >>> shiftTrick (msb &&& 0x7))
  | 4 =>
      some (usint (int32 (reverseByte (num &&& 0xff) <<< 24 |||
        reverseByte ((num >>> 8) &&& 0xff) <<< 16 |||
        reverseByte ((num >>> 16) &&& 0xff) <<< 8 |||
        reverseByte ((num >>> 24) &&& 0xff) : Nat) >>> shiftTrick (msb &&& 0x7)))
  | _ => none

/-!
## The bytes of the reversal
-/

theorem reverseByte_eq {x : Nat} (hx : x < 256) : reverseByte x = bitReverse 8 x := by
  have htable : forall x : Fin 256, reverseByte x = bitReverse 8 x := by
    decide +kernel
  exact htable ⟨x, hx⟩

theorem and_ff (x : Nat) : x &&& 0xff = x % 2 ^ 8 :=
  Nat.and_two_pow_sub_one_eq_mod x 8

theorem reverseByte_and_ff (x : Nat) : reverseByte (x &&& 0xff) = bitReverse 8 x := by
  rw [and_ff, reverseByte_eq (x := x % 2 ^ 8) (Nat.mod_lt _ (by decide)),
    bitReverse_mod]

theorem bitReverse_byte (b x : Nat) :
    bitReverse (8 + b) x = bitReverse 8 x <<< b ||| bitReverse b (x >>> 8) := by
  have hsplit := Nat.mod_add_div x (2 ^ 8)
  rw [← Nat.shiftLeft_add_eq_or_of_lt (bitReverse_lt b _), Nat.shiftLeft_eq,
    Nat.shiftRight_eq_div_pow]
  conv_lhs => rw [← hsplit]
  rw [bitReverse_add 8 b (Nat.mod_lt _ (by decide)), bitReverse_mod]

theorem bitReverse_sixteen (x : Nat) :
    reverseByte (x &&& 0xff) <<< 8 ||| reverseByte ((x >>> 8) &&& 0xff) =
      bitReverse 16 x := by
  rw [reverseByte_and_ff, reverseByte_and_ff]
  exact (bitReverse_byte 8 x).symm

theorem bitReverse_twentyFour (x : Nat) :
    reverseByte (x &&& 0xff) <<< 16 ||| reverseByte ((x >>> 8) &&& 0xff) <<< 8 |||
        reverseByte ((x >>> 16) &&& 0xff) = bitReverse 24 x := by
  rw [show x >>> 16 = x >>> 8 >>> 8 by rw [← Nat.shiftRight_add], Nat.or_assoc,
    bitReverse_sixteen, reverseByte_and_ff]
  exact (bitReverse_byte 16 x).symm

theorem bitReverse_thirtyTwo (x : Nat) :
    reverseByte (x &&& 0xff) <<< 24 ||| reverseByte ((x >>> 8) &&& 0xff) <<< 16 |||
        reverseByte ((x >>> 16) &&& 0xff) <<< 8 ||| reverseByte ((x >>> 24) &&& 0xff) =
      bitReverse 32 x := by
  rw [show x >>> 16 = x >>> 8 >>> 8 by rw [← Nat.shiftRight_add],
    show x >>> 24 = x >>> 8 >>> 16 by rw [← Nat.shiftRight_add],
    Nat.or_assoc, Nat.or_assoc, ← Nat.or_assoc (_ <<< 16), bitReverse_twentyFour,
    reverseByte_and_ff]
  exact (bitReverse_byte 24 x).symm

/-!
## What `reverseBits` returns
-/

theorem shiftTrick_eq {msb b : Nat} (hlo : 8 * b < msb) (hhi : msb <= 8 * (b + 1)) :
    msb >>> 3 + (if msb &&& 0x7 = 0 then 0 else 1) = b + 1 ∧
      shiftTrick (msb &&& 0x7) = 8 * (b + 1) - msb := by
  have htrick : forall r : Fin 8, shiftTrick r = (8 - r) % 8 := by decide
  have hand : msb &&& 0x7 = msb % 8 := Nat.and_two_pow_sub_one_eq_mod msb 3
  rw [hand, htrick ⟨msb % 8, Nat.mod_lt _ (by decide)⟩, Nat.shiftRight_eq_div_pow]
  dsimp only
  split <;> omega

theorem bitReverse_shiftRight {num msb w : Nat} (hw : msb <= w)
    (hnum : num < 2 ^ msb) :
    bitReverse w num >>> (w - msb) = bitReverse msb num := by
  have hwiden := bitReverse_widen msb (w - msb) hnum
  rw [show msb + (w - msb) = w by omega] at hwiden
  rw [hwiden, Nat.shiftRight_eq_div_pow, Nat.mul_div_cancel _ (Nat.two_pow_pos _)]

theorem reverseBits_low {num msb : Nat} (hlo : 0 < msb) (hhi : msb <= 24)
    (hnum : num < 2 ^ msb) : reverseBits num msb = some (bitReverse msb num) := by
  have hcases : msb <= 8 ∨ 8 < msb ∧ msb <= 16 ∨ 16 < msb := by omega
  unfold reverseBits
  rcases hcases with h | ⟨h, h'⟩ | h
  · rcases shiftTrick_eq (b := 0) (by omega) h with ⟨hb, hshift⟩
    simp only [hb, hshift, reverseByte_and_ff]
    rw [bitReverse_shiftRight h hnum]
  · rcases shiftTrick_eq (b := 1) h h' with ⟨hb, hshift⟩
    simp only [hb, hshift, bitReverse_sixteen]
    rw [bitReverse_shiftRight h' hnum]
  · rcases shiftTrick_eq (b := 2) h hhi with ⟨hb, hshift⟩
    simp only [hb, hshift, bitReverse_twentyFour]
    rw [bitReverse_shiftRight hhi hnum]

/-!
The arithmetic shift of the four-byte case divides by `S`; a reversal below `K`
has a clear top bit.
-/

section ArithmeticShift

variable {r K S : Nat} (hpow : K * S = 2 ^ 31)

include hpow

theorem usint_int32_div_low (hlow : r < K) :
    usint (int32 ((r * S : Nat) : Int) / S) = r := by
  have hS : 0 < S := Nat.pos_of_mul_pos_left (a := K) (by omega)
  have hK : K <= 2 ^ 31 := by
    rw [← hpow]
    exact Nat.le_mul_of_pos_right K hS
  have hsmall : r * S < 2 ^ 31 := by
    rw [← hpow]
    exact Nat.mul_lt_mul_of_pos_right hlow hS
  have hint : int32 ((r * S : Nat) : Int) = (r : Int) * S := by
    unfold int32
    rw [Int.bmod_eq_of_le (by omega) (by omega)]
    push_cast
    rfl
  rw [hint, Int.mul_ediv_cancel _ (by omega)]
  unfold usint
  omega

theorem usint_int32_div_high (hhigh : K <= r) (hr : r < K * 2) :
    usint (int32 ((r * S : Nat) : Int) / S) = 2 ^ 32 - K * 2 + r := by
  have hS : 0 < S := Nat.pos_of_mul_pos_left (a := K) (by omega)
  have hK : K <= 2 ^ 31 := by
    rw [← hpow]
    exact Nat.le_mul_of_pos_right K hS
  have hlarge : 2 ^ 31 <= r * S := by
    rw [← hpow]
    exact Nat.mul_le_mul_right S hhigh
  have hwrap : r * S < 2 ^ 32 := by
    calc
      r * S < K * 2 * S := Nat.mul_lt_mul_of_pos_right hr hS
      _ = 2 ^ 32 := by rw [mul_right_comm, hpow, ← pow_succ]
  have hint : int32 ((r * S : Nat) : Int) = ((r : Int) - K * 2) * S := by
    have hpowZ : (K : Int) * S = 2 ^ 31 := by exact_mod_cast hpow
    have hfull : ((r : Int) - K * 2) * S = (r * S : Nat) - 2 ^ 32 := by
      push_cast
      linear_combination -2 * hpowZ
    unfold int32
    rw [hfull, Int.bmod_def]
    omega
  rw [hint, Int.mul_ediv_cancel _ (by omega)]
  unfold usint
  omega

end ArithmeticShift

/--
In the four-byte case a reversal with its top bit set is negative as an `int`;
the shift fills the bits above the reversal with ones.
-/
theorem reverseBits_high {num msb : Nat} (hlo : 24 < msb) (hhi : msb < 32)
    (hnum : num < 2 ^ msb) :
    reverseBits num msb = some (if num % 2 = 0
      then bitReverse msb num else 2 ^ 32 - 2 ^ msb + bitReverse msb num) := by
  rcases shiftTrick_eq (b := 3) hlo (by omega) with ⟨hb, hshift⟩
  obtain ⟨k, rfl⟩ : exists k, msb = k + 1 := ⟨msb - 1, by omega⟩
  have hpow : 2 ^ k * 2 ^ (31 - k) = 2 ^ 31 := by
    rw [← pow_add, Nat.add_sub_cancel' (by omega)]
  have hwiden := bitReverse_widen (k + 1) (31 - k) hnum
  rw [show k + 1 + (31 - k) = 32 by omega] at hwiden
  have hlow := bitReverse_lt k (num / 2)
  unfold reverseBits
  simp only [hb, hshift, bitReverse_thirtyTwo, hwiden, Int.shiftRight_eq_div_pow]
  rw [show 8 * (3 + 1) - (k + 1) = 31 - k by omega, bitReverse_succ,
    Nat.pow_succ 2 k]
  rcases Nat.mod_two_eq_zero_or_one num with h | h
  · rw [h, if_pos rfl, zero_mul, zero_add, usint_int32_div_low hpow hlow]
  · rw [h, if_neg (by decide), one_mul,
      usint_int32_div_high hpow (Nat.le_add_right _ _) (by omega)]

theorem reverseBits_thirtyTwo (num : Nat) :
    reverseBits num 32 = some (bitReverse 32 num) := by
  rcases @shiftTrick_eq 32 3 (by decide) (by decide) with ⟨hb, hshift⟩
  have hlt := bitReverse_lt 32 num
  have hsigned : usint (int32 (bitReverse 32 num : Nat)) = bitReverse 32 num := by
    cases Nat.lt_or_ge (bitReverse 32 num) (2 ^ 31) with
    | inl hlow => rw [int32_natCast hlow, usint_eq hlt]
    | inr hhigh =>
        rw [int32_wraps (by omega) (by omega)]
        unfold usint
        omega
  unfold reverseBits
  simp only [hb, hshift, bitReverse_thirtyTwo, Int.shiftRight_zero, Nat.sub_self, hsigned]

/-!
## Where `reverseBits` reverses
-/

/-- The `msb` bits of `r` are those of `num` in the opposite order. -/
structure Reversal (msb num r : Nat) : Prop where
  lt : r < 2 ^ msb
  testBit : forall i, i < msb -> r.testBit i = num.testBit (msb - 1 - i)

theorem bitReverse_reversal (msb num : Nat) : Reversal msb num (bitReverse msb num) := by
  constructor
  case lt => exact bitReverse_lt msb num
  case testBit =>
    intro i hi
    exact bitReverse_testBit msb num hi

/-- The result is the reversal, and reversing it again gives the argument back. -/
structure ReversesBits (num msb : Nat) : Prop where
  reversal : exists r, reverseBits num msb = some r ∧ Reversal msb num r
  involutive : exists r, reverseBits num msb = some r ∧ reverseBits r msb = some num

section Reverses

variable {num msb : Nat} (hpos : 1 <= msb) (h32 : msb <= 32) (hnum : num < 2 ^ msb)

include hnum

theorem bitReverse_even_iff (hpos : 1 <= msb) :
    bitReverse msb num % 2 = 0 <-> num < 2 ^ (msb - 1) := by
  obtain ⟨k, rfl⟩ : exists k, msb = k + 1 := ⟨msb - 1, by omega⟩
  have hhigh := bitReverse_high k (Nat.mod_lt num (Nat.two_pow_pos k)) (num / 2 ^ k)
  rw [Nat.mod_add_div] at hhigh
  have htop : num / 2 ^ k < 2 := by
    apply Nat.div_lt_of_lt_mul
    rwa [← pow_succ]
  rw [hhigh, Nat.add_sub_cancel, ← Nat.div_eq_zero_iff_lt (Nat.two_pow_pos k)]
  generalize num / 2 ^ k = b at htop ⊢
  omega

theorem reverseBits_odd (hlo : 24 < msb) (hhi : msb < 32) (hodd : num % 2 ≠ 0) {r : Nat}
    (hr : reverseBits num msb = some r) : 2 ^ msb <= r := by
  have hpow : 2 ^ msb <= 2 ^ 31 := Nat.pow_le_pow_right (by decide) (by omega)
  rw [reverseBits_high hlo hhi hnum, if_neg hodd] at hr
  cases hr
  omega

include hpos h32

theorem reverseBits_of_even (heven : 24 < msb -> msb < 32 -> num % 2 = 0) :
    reverseBits num msb = some (bitReverse msb num) := by
  cases Nat.lt_or_ge 24 msb with
  | inr hle => exact reverseBits_low hpos hle hnum
  | inl hlo =>
      cases h32.lt_or_eq with
      | inl hhi => rw [reverseBits_high hlo hhi hnum, if_pos (heven hlo hhi)]
      | inr heq =>
          subst heq
          exact reverseBits_thirtyTwo num

/--
With 25 to 31 bits only even numbers are reversed, and only those without a top bit are found
again.
-/
theorem reversesBits_iff :
    ((exists r, reverseBits num msb = some r ∧ Reversal msb num r) <->
      (24 < msb -> msb < 32 -> num % 2 = 0)) ∧
    (ReversesBits num msb <->
      (24 < msb -> msb < 32 -> num % 2 = 0 ∧ num < 2 ^ (msb - 1))) := by
  have hreversal : (exists r, reverseBits num msb = some r ∧ Reversal msb num r) <->
      (24 < msb -> msb < 32 -> num % 2 = 0) := by
    constructor
    · rintro ⟨r, hr, hreversal⟩ hlo hhi
      by_contra hodd
      exact absurd hreversal.lt (not_lt.mpr (reverseBits_odd hnum hlo hhi hodd hr))
    · intro heven
      exact ⟨_, reverseBits_of_even hpos h32 hnum heven, bitReverse_reversal msb num⟩
  refine ⟨hreversal, ?_⟩
  constructor
  · intro h hlo hhi
    have heven := hreversal.mp h.reversal
    refine ⟨heven hlo hhi, ?_⟩
    rw [← bitReverse_even_iff hnum hpos]
    by_contra hodd
    rcases h.involutive with ⟨r, hr, hback⟩
    rw [reverseBits_of_even hpos h32 hnum heven] at hr
    cases hr
    have hge := reverseBits_odd (bitReverse_lt msb num) hlo hhi hodd hback
    exact absurd hnum (not_lt.mpr hge)
  · intro h
    have heven : 24 < msb -> msb < 32 -> num % 2 = 0 := fun hlo hhi => (h hlo hhi).1
    have hrun := reverseBits_of_even hpos h32 hnum heven
    constructor
    case reversal => exact hreversal.mpr heven
    case involutive =>
      have hback := reverseBits_of_even hpos h32 (bitReverse_lt msb num) fun hlo hhi =>
        (bitReverse_even_iff hnum hpos).mpr (h hlo hhi).2
      rw [bitReverse_bitReverse msb hnum] at hback
      exact ⟨_, hrun, hback⟩

end Reverses

theorem reversesBits_iff_six :
    ((exists r, reverseBits 6 28 = some r ∧ Reversal 28 6 r) <->
      (24 < 28 -> 28 < 32 -> 6 % 2 = 0)) ∧
    (ReversesBits 6 28 <-> (24 < 28 -> 28 < 32 -> 6 % 2 = 0 ∧ 6 < 2 ^ (28 - 1))) :=
  reversesBits_iff (by decide) (by decide) (by decide)

/-- One on 25 bits becomes a number with its seven highest bits set. -/
theorem not_reversesBits :
    reverseBits 1 25 = some (2 ^ 32 - 2 ^ 24) ∧
    ¬ (exists r, reverseBits 1 25 = some r ∧ Reversal 25 1 r) ∧ ¬ ReversesBits 1 25 := by
  have hrun : reverseBits 1 25 = some (2 ^ 32 - 2 ^ 24) := by decide +kernel
  have hreversal : ¬ exists r, reverseBits 1 25 = some r ∧ Reversal 25 1 r := by
    rintro ⟨r, hr, hreversal⟩
    rw [hrun] at hr
    cases hr
    exact absurd hreversal.lt (by decide)
  exact ⟨hrun, hreversal, fun h => hreversal h.reversal⟩

end Core
end OpenFHE
