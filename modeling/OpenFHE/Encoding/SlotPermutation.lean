import OpenFHE.Core.AutomorphismMap
import OpenFHE.Scheme.EvalSum

/-!
# The permutation of the slots

`SetParams_2n` of the packed encoding tabulates, for each slot, the position of the
transform at which its value stands: the first row belongs to the powers of five, the
second one to their negatives.
-/

namespace OpenFHE
namespace Encoding

open OpenFHE.Core Foundation NativeInteger

/-- `m_toCRTPerm` and `m_fromCRTPerm` of one cyclotomic order. -/
structure CRTPerm where
  toCRTPerm : List Nat
  fromCRTPerm : List Nat
deriving DecidableEq, Repr

/-- One pass of the loop; a store past the end is out of bounds. -/
def crtPermStep (m logn phimBy2 : Nat) (s : Nat × CRTPerm) (i : Nat) : Option (Nat × CRTPerm) := do
  let currIndex := s.1
  let position <- reverseBits (usint ((currIndex : Int) - 1) / 2) logn
  let cofactorIndex := usint (currIndex * (m - 1) : Nat) % m
  let cofactor <- reverseBits (usint ((cofactorIndex : Int) - 1) / 2) logn
  if position < s.2.toCRTPerm.length ∧ cofactor < s.2.toCRTPerm.length then
    return (usint (currIndex * 5 : Nat) % m,
      ⟨(s.2.toCRTPerm.set position i).set cofactor (i + phimBy2),
        (s.2.fromCRTPerm.set i position).set (i + phimBy2) cofactor⟩)
  else none

/-- The tables of `SetParams_2n`. -/
def crtPerm (m : Nat) : Option CRTPerm :=
  let phim := m >>> 1
  let phimBy2 := m >>> 2
  let logn := roundLog2 (m >>> 1)
  ((List.range phimBy2).foldlM (crtPermStep m logn phimBy2)
    (1, ⟨List.replicate phim 0, List.replicate phim 0⟩)).map Prod.snd

/-!
## The exponents of the slots
-/

section Exponents

variable (d : Nat)

def fiveUnit : (ZMod (2 ^ (d + 2)))ˣ :=
  ZMod.unitOfCoprime 5 (Nat.Coprime.pow_right (d + 2) (by decide))

theorem coe_fiveUnit : (fiveUnit d : ZMod (2 ^ (d + 2))) = 5 := by
  rw [fiveUnit, ZMod.coe_unitOfCoprime, Nat.cast_ofNat]

/-- The exponent of the root for slot `i`. -/
def slotUnit (i : Nat) : (ZMod (2 ^ (d + 2)))ˣ :=
  (if i < 2 ^ d then 1 else -1) * fiveUnit d ^ (i % 2 ^ d)

/-- The position of the transform with this exponent. -/
def slotPosition (i : Nat) : Nat :=
  bitReverse (d + 1) ((slotUnit d i : ZMod (2 ^ (d + 2))).val / 2)

variable {d}

theorem fiveUnit_pow_half : fiveUnit d ^ 2 ^ d = 1 := by
  apply Units.ext
  rw [Units.val_pow_eq_pow_val, coe_fiveUnit, Scheme.EvalSum.five_pow_half, Units.val_one]

theorem val_odd (u : (ZMod (2 ^ (d + 2)))ˣ) : (u : ZMod (2 ^ (d + 2))).val % 2 = 1 := by
  have hcoprime := ZMod.val_coe_unit_coprime u
  rw [Nat.coprime_pow_right_iff (by omega)] at hcoprime
  exact Nat.odd_iff.mp (Nat.coprime_two_right.mp hcoprime)

theorem val_lt (x : ZMod (2 ^ (d + 2))) : x.val < 2 ^ (d + 2) := ZMod.val_lt x

theorem oddPoint_slotPosition (i : Nat) :
    oddPoint (d + 1) (slotPosition d i) = (slotUnit d i : ZMod (2 ^ (d + 2))).val := by
  have hodd := val_odd (slotUnit d i)
  have hlt := val_lt (slotUnit d i : ZMod (2 ^ (d + 2)))
  have hpow : 2 ^ (d + 2) = 2 ^ (d + 1) * 2 := pow_succ 2 (d + 1)
  rw [oddPoint, slotPosition, bitReverse_bitReverse _ (by omega)]
  omega

theorem slotPosition_lt (i : Nat) : slotPosition d i < 2 ^ (d + 1) := bitReverse_lt _ _

theorem fiveUnit_pow_injOn {a b : Nat} (ha : a < 2 ^ d) (hb : b < 2 ^ d)
    (h : fiveUnit d ^ a = fiveUnit d ^ b) : a = b := by
  have horder : orderOf (fiveUnit d) = 2 ^ d := by
    rw [← orderOf_units, coe_fiveUnit, ZMod.orderOf_five]
  apply pow_injOn_Iio_orderOf _ _ h
  · rwa [horder]
  · rwa [horder]

theorem fiveUnit_pow_ne_neg (a b : Nat) : fiveUnit d ^ a ≠ -fiveUnit d ^ b := by
  intro h
  have hdvd : 4 ∣ 2 ^ (d + 2) := ⟨2 ^ d, by rw [pow_add, mul_comm]; rfl⟩
  have hcast := congrArg (fun u : (ZMod (2 ^ (d + 2)))ˣ =>
    ZMod.castHom hdvd (ZMod 4) (u : ZMod (2 ^ (d + 2)))) h
  simp only [Units.val_neg, Units.val_pow_eq_pow_val, coe_fiveUnit, map_neg, map_pow,
    map_ofNat] at hcast
  rw [show (5 : ZMod 4) = 1 by decide, one_pow, one_pow] at hcast
  exact absurd hcast (by decide)

theorem slotUnit_injOn {i j : Nat} (hi : i < 2 ^ (d + 1)) (hj : j < 2 ^ (d + 1))
    (h : slotUnit d i = slotUnit d j) : i = j := by
  have hpos := Nat.two_pow_pos d
  rw [pow_succ] at hi hj
  have himod := Nat.mod_lt i hpos
  have hjmod := Nat.mod_lt j hpos
  have hidiv := Nat.div_add_mod i (2 ^ d)
  have hjdiv := Nat.div_add_mod j (2 ^ d)
  unfold slotUnit at h
  split_ifs at h with hilow hjlow hjlow
  · rw [one_mul, one_mul] at h
    have heq := fiveUnit_pow_injOn himod hjmod h
    rwa [Nat.mod_eq_of_lt hilow, Nat.mod_eq_of_lt hjlow] at heq
  · rw [one_mul, neg_one_mul] at h
    exact absurd h (fiveUnit_pow_ne_neg _ _)
  · rw [one_mul, neg_one_mul] at h
    exact absurd h.symm (fiveUnit_pow_ne_neg _ _)
  · have heq := fiveUnit_pow_injOn himod hjmod (mul_left_cancel h)
    have hiq : i / 2 ^ d = 1 := Nat.div_eq_of_lt_le (by omega) (by omega)
    have hjq : j / 2 ^ d = 1 := Nat.div_eq_of_lt_le (by omega) (by omega)
    rw [hiq] at hidiv
    rw [hjq] at hjdiv
    omega

theorem slotPosition_injOn {i j : Nat} (hi : i < 2 ^ (d + 1)) (hj : j < 2 ^ (d + 1))
    (h : slotPosition d i = slotPosition d j) : i = j := by
  apply slotUnit_injOn hi hj
  have hpoint := congrArg (oddPoint (d + 1)) h
  rw [oddPoint_slotPosition, oddPoint_slotPosition] at hpoint
  exact Units.ext (ZMod.val_injective _ hpoint)

theorem slotUnit_low {c : Nat} (hc : c < 2 ^ d) : slotUnit d c = fiveUnit d ^ c := by
  rw [slotUnit, if_pos hc, one_mul, Nat.mod_eq_of_lt hc]

theorem slotUnit_high {c : Nat} (hc : c < 2 ^ d) : slotUnit d (c + 2 ^ d) = -fiveUnit d ^ c := by
  rw [slotUnit, if_neg (by omega), Nat.add_mod_right, Nat.mod_eq_of_lt hc, neg_one_mul]

end Exponents

/-!
## The tables
-/

section Tables

variable {d : Nat} (hd : d + 1 <= 24)

include hd

theorem reverseBits_exponent (u : (ZMod (2 ^ (d + 2)))ˣ) :
    reverseBits (usint (((u : ZMod (2 ^ (d + 2))).val : Int) - 1) / 2) (d + 1) =
      some (bitReverse (d + 1) ((u : ZMod (2 ^ (d + 2))).val / 2)) := by
  have hodd := val_odd u
  have hlt := val_lt (u : ZMod (2 ^ (d + 2)))
  have hpow : 2 ^ (d + 2) = 2 ^ (d + 1) * 2 := pow_succ 2 (d + 1)
  have hsmall : 2 ^ (d + 1) <= 2 ^ 24 := Nat.pow_le_pow_right (by decide) hd
  generalize (u : ZMod (2 ^ (d + 2))).val = x at hodd hlt
  have hindex : usint ((x : Int) - 1) / 2 = x / 2 := by
    unfold usint
    omega
  rw [hindex]
  exact reverseBits_low (Nat.succ_pos d) hd (by omega)

theorem usint_mul_mod (x y : Nat) :
    usint (x * y : Nat) % 2 ^ (d + 2) = ((x : ZMod (2 ^ (d + 2))) * y).val := by
  rw [usint_natCast, Nat.mod_mod_of_dvd _ (pow_dvd_pow 2 (by omega)), ← Nat.cast_mul,
    ZMod.val_natCast]

omit hd in
structure PermInv (d c : Nat) (s : Nat × CRTPerm) : Prop where
  curr_eq : s.1 = ((fiveUnit d ^ c : (ZMod (2 ^ (d + 2)))ˣ) : ZMod (2 ^ (d + 2))).val
  to_length : s.2.toCRTPerm.length = 2 ^ (d + 1)
  from_length : s.2.fromCRTPerm.length = 2 ^ (d + 1)
  get : forall j, j < c ∨ 2 ^ d <= j ∧ j < c + 2 ^ d ->
    s.2.fromCRTPerm[j]? = some (slotPosition d j) ∧
      s.2.toCRTPerm[slotPosition d j]? = some j

theorem crtPermStep_spec {c : Nat} (hc : c < 2 ^ d) {s : Nat × CRTPerm} (h : PermInv d c s) :
    exists s', crtPermStep (2 ^ (d + 2)) (d + 1) (2 ^ d) s c = some s' ∧
      PermInv d (c + 1) s' := by
  have hdouble : 2 ^ (d + 1) = 2 ^ d + 2 ^ d := by
    rw [pow_succ]
    omega
  have hposition := reverseBits_exponent hd (fiveUnit d ^ c)
  have hcofactor := reverseBits_exponent hd (-fiveUnit d ^ c)
  have hlowEq : bitReverse (d + 1) (((fiveUnit d ^ c : (ZMod (2 ^ (d + 2)))ˣ) :
      ZMod (2 ^ (d + 2))).val / 2) = slotPosition d c := by
    rw [slotPosition, slotUnit_low hc]
  have hhighEq : bitReverse (d + 1) (((-fiveUnit d ^ c : (ZMod (2 ^ (d + 2)))ˣ) :
      ZMod (2 ^ (d + 2))).val / 2) = slotPosition d (c + 2 ^ d) := by
    rw [slotPosition, slotUnit_high hc]
  rw [hlowEq] at hposition
  rw [hhighEq] at hcofactor
  have hcofactorIndex : usint (s.1 * (2 ^ (d + 2) - 1) : Nat) % 2 ^ (d + 2) =
      ((-fiveUnit d ^ c : (ZMod (2 ^ (d + 2)))ˣ) : ZMod (2 ^ (d + 2))).val := by
    rw [usint_mul_mod hd, h.curr_eq, ZMod.natCast_rightInverse,
      Scheme.EvalSum.natCast_two_pow_sub_one, Units.val_neg, mul_neg_one]
  have hnext : usint (s.1 * 5 : Nat) % 2 ^ (d + 2) =
      ((fiveUnit d ^ (c + 1) : (ZMod (2 ^ (d + 2)))ˣ) : ZMod (2 ^ (d + 2))).val := by
    rw [usint_mul_mod hd, h.curr_eq, ZMod.natCast_rightInverse, pow_succ (fiveUnit d) c,
      Units.val_mul, coe_fiveUnit, Nat.cast_ofNat]
  have hlow := slotPosition_lt (d := d) c
  have hhigh := slotPosition_lt (d := d) (c + 2 ^ d)
  refine ⟨(usint (s.1 * 5 : Nat) % 2 ^ (d + 2),
    ⟨(s.2.toCRTPerm.set (slotPosition d c) c).set (slotPosition d (c + 2 ^ d)) (c + 2 ^ d),
      (s.2.fromCRTPerm.set c (slotPosition d c)).set (c + 2 ^ d)
        (slotPosition d (c + 2 ^ d))⟩), ?_, ?_⟩
  · unfold crtPermStep
    dsimp only
    rw [hcofactorIndex, h.curr_eq, hposition, hcofactor]
    simp only [Option.bind_eq_bind, Option.bind_some]
    rw [if_pos ⟨by rw [h.to_length]; exact hlow, by rw [h.to_length]; exact hhigh⟩]
    rfl
  · constructor
    case curr_eq => exact hnext
    case to_length => rw [List.length_set, List.length_set, h.to_length]
    case from_length => rw [List.length_set, List.length_set, h.from_length]
    case get =>
      intro j hj
      by_cases hlast : j = c + 2 ^ d
      · subst hlast
        constructor
        · rw [List.getElem?_set_self (by rw [List.length_set, h.from_length]; omega)]
        · rw [List.getElem?_set_self (by rw [List.length_set, h.to_length]; exact hhigh)]
      · have hneLast : slotPosition d (c + 2 ^ d) ≠ slotPosition d j := by
          intro heq
          exact hlast (slotPosition_injOn (by omega) (by omega) heq).symm
        dsimp only
        rw [List.getElem?_set_ne (Ne.symm hlast), List.getElem?_set_ne hneLast]
        by_cases hfirst : j = c
        · subst hfirst
          constructor
          · rw [List.getElem?_set_self (by rw [h.from_length]; omega)]
          · rw [List.getElem?_set_self (by rw [h.to_length]; exact hlow)]
        · have hneFirst : slotPosition d c ≠ slotPosition d j := by
            intro heq
            exact hfirst (slotPosition_injOn (by omega) (by omega) heq).symm
          rw [List.getElem?_set_ne (Ne.symm hfirst), List.getElem?_set_ne hneFirst]
          exact h.get j (by omega)

theorem crtPerm_spec :
    exists perm, crtPerm (2 ^ (d + 2)) = some perm ∧
      perm.toCRTPerm.length = 2 ^ (d + 1) ∧ perm.fromCRTPerm.length = 2 ^ (d + 1) ∧
      forall j, j < 2 ^ (d + 1) -> perm.fromCRTPerm[j]? = some (slotPosition d j) ∧
        perm.toCRTPerm[slotPosition d j]? = some j := by
  have hhalf : 2 ^ (d + 2) >>> 1 = 2 ^ (d + 1) := by
    rw [Nat.shiftRight_eq_div_pow, pow_one, pow_succ, Nat.mul_div_cancel _ (by decide)]
  have hquarter : 2 ^ (d + 2) >>> 2 = 2 ^ d := by
    rw [Nat.shiftRight_eq_div_pow, pow_add, Nat.mul_div_cancel _ (by decide)]
  rcases foldlM_range_spec (n := 2 ^ d) (f := crtPermStep (2 ^ (d + 2)) (d + 1) (2 ^ d))
    (PermInv d) (s := (1, ⟨List.replicate (2 ^ (d + 1)) 0, List.replicate (2 ^ (d + 1)) 0⟩))
    ⟨by
      have : Fact (1 < 2 ^ (d + 2)) := ⟨Nat.one_lt_two_pow (by omega)⟩
      rw [pow_zero, Units.val_one, ZMod.val_one], List.length_replicate,
      List.length_replicate, fun j hj => by omega⟩
    (fun c hc s hs => crtPermStep_spec hd hc hs) with ⟨s, hs, hinv⟩
  refine ⟨s.2, ?_, hinv.to_length, hinv.from_length, ?_⟩
  · unfold crtPerm roundLog2
    dsimp only
    rw [hhalf, hquarter, Nat.log2_two_pow, hs]
    rfl
  · intro j hj
    rw [pow_succ] at hj
    exact hinv.get j (by omega)

end Tables

end Encoding
end OpenFHE
