import OpenFHE.Core.BigInteger.Shift

/-!
# Ring operations of big integers

The operations on valid integers are those of the natural numbers and keep the
invariant, as long as a `usint` can count the bits of the result.
-/

namespace OpenFHE
namespace Core
namespace BigInteger

open NativeInteger
open Foundation

namespace Ubint

/-- The result of an operation is valid and has the expected value. -/
def Denotes (l : Nat) (x : Ubint) (n : Nat) : Prop :=
  Valid l x ∧ x.toNat l = n

structure RingOperations (l : Nat) (a b : Ubint) (shift : Nat) : Prop where
  compare : compare a b = some (
    if a.toNat l < b.toNat l then -1 else if a.toNat l = b.toNat l then 0 else 1)
  sub : exists r, sub l a b = some r ∧ Denotes l r (a.toNat l - b.toNat l)
  rShift : exists r, rShift l a shift = some r ∧ Denotes l r (a.toNat l >>> shift)
  add : Nat.size (a.toNat l + b.toNat l) < maxMSB ->
    Denotes l (add l a b) (a.toNat l + b.toNat l)
  mul : Nat.size (a.toNat l * b.toNat l) < maxMSB ->
    Denotes l (mul l a b) (a.toNat l * b.toNat l)
  lShift : Nat.size (a.toNat l <<< shift) < maxMSB ->
    Denotes l (lShift l a shift) (a.toNat l <<< shift)

theorem ringOperations_spec (l : Nat) {a b : Ubint} (ha : Valid l a) (hb : Valid l b)
    (shift : Nat) : RingOperations l a b shift := by
  constructor
  · exact compare_spec ha hb
  · exact sub_spec ha hb
  · exact rShift_spec ha shift
  · exact add_spec ha hb
  · exact mul_spec ha hb
  · exact lShift_spec ha shift

theorem ofLimbs_two_valid {lo hi : Nat} (hlo : lo < base 5) (hhi : hi < base 5) :
    Valid 5 (ofLimbs 5 [lo, hi]) := by
  have hlimbs : IsLimbs (base 5) [lo, hi] := IsLimbs.cons hlo (IsLimbs.cons hhi IsLimbs.nil)
  apply (ofLimbs_spec hlimbs (List.cons_ne_nil _ _) _).1
  have hsize : Nat.size (Nat.ofDigits (base 5) [lo, hi]) <= limbBitLength 5 * 2 := by
    rw [Nat.size_le, <- base_pow]
    exact hlimbs.value_lt (one_lt_base 5)
  exact Nat.lt_of_le_of_lt hsize (by decide)

theorem ringOperations_two_limbs :
    Valid 5 (ofLimbs 5 [4294967295, 1]) ∧ Valid 5 (ofLimbs 5 [1, 4294967295]) ∧
      RingOperations 5 (ofLimbs 5 [4294967295, 1]) (ofLimbs 5 [1, 4294967295]) 33 :=
  ⟨ofLimbs_two_valid (by decide) (by decide), ofLimbs_two_valid (by decide) (by decide),
    ringOperations_spec 5 (ofLimbs_two_valid (by decide) (by decide))
      (ofLimbs_two_valid (by decide) (by decide)) 33⟩

/-!
## Longest values
-/

/-- One limb above `k` zero limbs. -/
def topLimb (l k top : Nat) : Ubint where
  msb := limbBitLength l * k + getMSB top
  value := List.replicate k 0 ++ [top]

theorem topLimb_valid {l k top : Nat} (htop : top < base l) (hne : top ≠ 0)
    (hfits : limbBitLength l * k + getMSB top < maxMSB) : Valid l (topLimb l k top) := by
  constructor
  · exact (IsLimbs.zeros (base_pos l) k).append (IsLimbs.cons htop IsLimbs.nil)
  · simp [topLimb]
  · intro _
    simpa [topLimb] using hne
  · have hsize := size_add_shiftLeft (Nat.two_pow_pos (limbBitLength l * k)) hne
    rw [Nat.zero_add] at hsize
    unfold toNat topLimb
    rw [ofDigits_replicate_zero_append, Nat.ofDigits_singleton, base_pow, hsize,
      getMSB_eq_size]
  · exact hfits

theorem lShift_not_valid {l : Nat} {x : Ubint} (hx : Valid l x) {shift : Nat}
    (hpos : 0 < x.msb) (hmsb : x.msb + shift = maxMSB) : ¬ Valid l (lShift l x shift) := by
  intro hvalid
  have hzero : (lShift l x shift).msb = 0 := by
    rw [lShift_of_pos hpos, hmsb]
    rfl
  have hvalue := hvalid.msb_eq_zero_iff.mp hzero
  rw [(lShift_value hx shift hpos).1, Nat.shiftLeft_eq, Nat.mul_eq_zero] at hvalue
  cases hvalue with
  | inl h => exact absurd (hx.msb_eq_zero_iff.mpr h) hpos.ne'
  | inr h => exact absurd h (Nat.two_pow_pos shift).ne'

/-- A value of `2 ^ 32 - 1` bits, shifted by one bit. -/
theorem lShift_longest_not_valid :
    Valid 6 (topLimb 6 67108863 (2 ^ 62)) ∧
      ¬ Valid 6 (lShift 6 (topLimb 6 67108863 (2 ^ 62)) 1) := by
  have hmsb : (topLimb 6 67108863 (2 ^ 62)).msb = 4294967295 := by
    show limbBitLength 6 * 67108863 + getMSB (2 ^ 62) = 4294967295
    decide
  have hvalid : Valid 6 (topLimb 6 67108863 (2 ^ 62)) := by
    apply topLimb_valid
    · decide
    · decide
    · exact hmsb.trans_lt (by decide)
  refine ⟨hvalid, lShift_not_valid hvalid ?_ ?_⟩
  · exact hmsb ▸ (by decide : 0 < 4294967295)
  · rw [hmsb]
    rfl

end Ubint

end BigInteger
end Core
end OpenFHE
