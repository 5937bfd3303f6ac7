import OpenFHE.Core.BigInteger.Arithmetic

/-!
# Shifts of big integers

Both shifts move the limbs by the loop `shiftLoop`.  The length of the result in
bits is computed from the length of the argument, in a `usint`.
-/

namespace OpenFHE
namespace Core
namespace BigInteger

open NativeInteger
open Foundation

namespace Ubint

variable {l : Nat}

theorem shiftLimb_spec {x shift ofl : Nat} (hx : x < base l) (hshift : shift <= limbBitLength l)
    (hofl : ofl < 2 ^ shift) :
    ofl ||| dlimb l (x <<< shift) = ofl + 2 ^ shift * x ∧
      (ofl + 2 ^ shift * x) >>> limbBitLength l < 2 ^ shift := by
  have hpow : 2 ^ shift <= base l := Nat.pow_le_pow_right (by decide) hshift
  have hle : 2 ^ shift * (x + 1) <= 2 ^ shift * base l := Nat.mul_le_mul_left _ hx
  have hbound : 2 ^ shift * base l <= base l * base l := Nat.mul_le_mul_right _ hpow
  rw [Nat.mul_succ] at hle
  constructor
  · have hdouble : dlimb l (x <<< shift) = x <<< shift := by
      apply dlimb_of_lt
      rw [Nat.shiftLeft_eq, Nat.mul_comm]
      omega
    rw [hdouble, Nat.or_comm, <- Nat.shiftLeft_add_eq_or_of_lt hofl, Nat.shiftLeft_eq]
    ring
  · apply shift_lt
    rw [Nat.mul_comm (base l)]
    omega

theorem shiftLoop_spec {v : List Nat} {shift ofl : Nat} (hv : IsLimbs (base l) v)
    (hshift : shift <= limbBitLength l) (hofl : ofl < 2 ^ shift) :
    Nat.ofDigits (base l) (shiftLoop l shift v ofl).1 +
        base l ^ v.length * (shiftLoop l shift v ofl).2 =
        ofl + 2 ^ shift * Nat.ofDigits (base l) v ∧
      (shiftLoop l shift v ofl).2 < 2 ^ shift ∧
      IsLimbs (base l) (shiftLoop l shift v ofl).1 ∧
      (shiftLoop l shift v ofl).1.length = v.length := by
  induction v generalizing ofl with
  | nil =>
      refine ⟨?_, hofl, IsLimbs.nil, rfl⟩
      simp [shiftLoop, Nat.ofDigits_nil]
  | cons x v ih =>
      rcases shiftLimb_spec hv.head hshift hofl with ⟨hor, hnext⟩
      rcases ih hv.tail hnext with ⟨hvalue, hcarry, hlimbs, hlen⟩
      simp only [shiftLoop, hor]
      refine ⟨?_, hcarry, IsLimbs.cons (limb_lt l _) hlimbs, by simp [hlen]⟩
      have hsplit := limb_add_shift l (ofl + 2 ^ shift * x)
      rw [Nat.ofDigits_cons, Nat.ofDigits_cons, List.length_cons, Nat.pow_succ]
      linear_combination hsplit + base l * hvalue

theorem shiftLoop_carry {v : List Nat} {x shift ofl : Nat}
    (hv : IsLimbs (base l) (v ++ [x])) (hshift : shift <= limbBitLength l)
    (hofl : ofl < 2 ^ shift) :
    (shiftLoop l shift (v ++ [x]) ofl).2 = x >>> (limbBitLength l - shift) := by
  induction v generalizing ofl with
  | nil =>
      rcases shiftLimb_spec hv.head hshift hofl with ⟨hor, -⟩
      have hpow : 2 ^ limbBitLength l = 2 ^ shift * 2 ^ (limbBitLength l - shift) := by
        rw [<- Nat.pow_add, Nat.add_sub_cancel' hshift]
      simp only [List.nil_append, shiftLoop, hor]
      rw [Nat.shiftRight_eq_div_pow, Nat.shiftRight_eq_div_pow, hpow,
        <- Nat.div_div_eq_div_mul, Nat.add_mul_div_left _ _ (Nat.two_pow_pos shift),
        Nat.div_eq_of_lt hofl, Nat.zero_add]
  | cons y v ih =>
      rcases shiftLimb_spec hv.head hshift hofl with ⟨hor, hnext⟩
      simp only [List.cons_append, shiftLoop, hor]
      exact ih hv.tail hnext

theorem pushCarry_spec {v : List Nat} {shift ofl : Nat} (hv : IsLimbs (base l) v)
    (hshift : shift <= limbBitLength l) (hofl : ofl < 2 ^ shift)
    (hfull : base l ^ (v.length - 1) <= ofl + 2 ^ shift * Nat.ofDigits (base l) v) :
    let r := pushCarry l (shiftLoop l shift v ofl)
    Nat.ofDigits (base l) r = ofl + 2 ^ shift * Nat.ofDigits (base l) v ∧
      IsLimbs (base l) r ∧ r ≠ [] ∧ (1 < r.length -> r.getLastD 0 ≠ 0) := by
  have hpow : 2 ^ shift <= base l := Nat.pow_le_pow_right (by decide) hshift
  rcases shiftLoop_spec hv hshift hofl with ⟨hvalue, hcarry, hlimbs, hlen⟩
  revert hvalue hcarry hlimbs hlen
  generalize shiftLoop l shift v ofl = shifted
  intro hvalue hcarry hlimbs hlen
  unfold pushCarry
  by_cases hzero : shifted.2 = 0
  · rw [hzero, Nat.mul_zero, Nat.add_zero] at hvalue
    have hne : shifted.1 ≠ [] := by
      intro hnil
      have hpos := Nat.pow_pos (n := v.length - 1) (base_pos l)
      rw [hnil, Nat.ofDigits_nil] at hvalue
      omega
    simp only [hzero, ne_eq, not_true_eq_false, if_false]
    refine ⟨hvalue, hlimbs, hne, fun _ => ?_⟩
    apply (getLastD_ne_zero_iff (one_lt_base l) hlimbs hne).mpr
    rwa [hlen, hvalue]
  · have hlimb : limb l shifted.2 = shifted.2 :=
      Nat.mod_eq_of_lt (Nat.lt_of_lt_of_le hcarry hpow)
    rw [if_pos hzero, hlimb]
    refine ⟨?_, hlimbs.append (IsLimbs.cons (Nat.lt_of_lt_of_le hcarry hpow) IsLimbs.nil),
      by simp, fun _ => by simpa using hzero⟩
    rw [Nat.ofDigits_append, Nat.ofDigits_singleton, hlen]
    exact hvalue

theorem shift_split (l shift : Nat) :
    limbBitLength l * (shift >>> l) + (shift &&& (limbBitLength l - 1)) = shift ∧
      (shift &&& (limbBitLength l - 1)) < limbBitLength l := by
  rw [limbBitLength, Nat.and_two_pow_sub_one_eq_mod, Nat.shiftRight_eq_div_pow]
  exact ⟨Nat.div_add_mod shift (2 ^ l), Nat.mod_lt _ (Nat.two_pow_pos l)⟩

theorem shiftWithin_spec {x : Ubint} (hx : Valid l x) (hpos : 0 < x.msb) {low : Nat}
    (hlow : low < limbBitLength l) :
    let value := if low ≠ 0 then pushCarry l (shiftLoop l low x.value 0) else x.value
    Nat.ofDigits (base l) value = 2 ^ low * x.toNat l ∧ IsLimbs (base l) value ∧
      value ≠ [] ∧ value.getLastD 0 ≠ 0 := by
  have hfull := hx.top_le hpos
  by_cases hzero : low = 0
  · simp only [hzero, ne_eq, not_true_eq_false, if_false, Nat.pow_zero, Nat.one_mul]
    exact ⟨rfl, hx.limbs, hx.nonempty,
      (getLastD_ne_zero_iff (one_lt_base l) hx.limbs hx.nonempty).mpr hfull⟩
  · rw [if_pos hzero]
    have hgrow : x.toNat l <= 2 ^ low * x.toNat l :=
      Nat.le_mul_of_pos_left _ (Nat.two_pow_pos low)
    have hpush := pushCarry_spec hx.limbs hlow.le (Nat.two_pow_pos low)
      (by rw [Nat.zero_add]; exact hfull.trans hgrow)
    rw [Nat.zero_add] at hpush
    rcases hpush with ⟨hvalue, hlimbs, hne, htop⟩
    refine ⟨hvalue, hlimbs, hne, ?_⟩
    by_cases hlen : 1 < (pushCarry l (shiftLoop l low x.value 0)).length
    · exact htop hlen
    · apply (getLastD_ne_zero_iff (one_lt_base l) hlimbs hne).mpr
      have hone := Nat.pow_pos (n := x.value.length - 1) (base_pos l)
      rw [hvalue, show (pushCarry l (shiftLoop l low x.value 0)).length - 1 = 0 by omega,
        Nat.pow_zero]
      exact hone.trans_le (hfull.trans hgrow)

theorem lShift_of_pos {x : Ubint} (hpos : 0 < x.msb) (shift : Nat) :
    lShift l x shift =
      { msb := usint (x.msb + shift : Nat)
        value := List.replicate (shift >>> l) 0 ++
          if shift &&& (limbBitLength l - 1) ≠ 0 then
            pushCarry l (shiftLoop l (shift &&& (limbBitLength l - 1)) x.value 0)
          else x.value } := by
  unfold lShift
  rw [if_neg (by omega)]
  by_cases hk : shift >>> l = 0
  · simp [hk]
  · simp only [ne_eq, hk, not_false_eq_true, if_true]

theorem lShift_value {x : Ubint} (hx : Valid l x) (shift : Nat) (hpos : 0 < x.msb) :
    (lShift l x shift).toNat l = x.toNat l <<< shift ∧
      IsLimbs (base l) (lShift l x shift).value ∧ (lShift l x shift).value ≠ [] ∧
      (lShift l x shift).value.getLastD 0 ≠ 0 := by
  rcases shift_split l shift with ⟨hsplit, hlow⟩
  rcases shiftWithin_spec hx hpos hlow with ⟨hvalue, hlimbs, hne, htop⟩
  rw [lShift_of_pos hpos shift]
  refine ⟨?_, (IsLimbs.zeros (base_pos l) _).append hlimbs, ?_, ?_⟩
  · conv_rhs => rw [Nat.shiftLeft_eq, <- hsplit, Nat.pow_add]
    rw [toNat, ofDigits_replicate_zero_append, hvalue, base_pow]
    ring
  · exact fun h => hne (List.append_eq_nil_iff.mp h).2
  · rw [List.getLastD_eq_getLast?, List.getLast?_append_of_ne_nil _ hne,
      <- List.getLastD_eq_getLast?]
    exact htop

theorem lShift_spec {x : Ubint} (hx : Valid l x) (shift : Nat)
    (hsize : Nat.size (x.toNat l <<< shift) < maxMSB) :
    Valid l (lShift l x shift) ∧ (lShift l x shift).toNat l = x.toNat l <<< shift := by
  by_cases hzero : x.msb = 0
  · have hvalue := hx.msb_eq_zero_iff.mp hzero
    have hshift : lShift l x shift = zero := by rw [lShift, if_pos hzero]
    rw [hshift, hvalue, Nat.zero_shiftLeft]
    exact ⟨zero_valid l, rfl⟩
  · rcases lShift_value hx shift (Nat.pos_of_ne_zero hzero) with ⟨hvalue, hlimbs, hne, htop⟩
    have hpos : x.toNat l ≠ 0 := fun h => hzero (hx.msb_eq_zero_iff.mpr h)
    have hmsb : (lShift l x shift).msb = Nat.size (x.toNat l <<< shift) := by
      have hexact : x.msb + shift = Nat.size (x.toNat l <<< shift) := by
        rw [Nat.size_shiftLeft hpos, hx.bitLength]
      unfold lShift
      rw [if_neg hzero, <- hexact]
      rw [<- hexact] at hsize
      exact Nat.mod_eq_of_lt hsize
    refine ⟨⟨hlimbs, hne, fun _ => htop, ?_, ?_⟩, hvalue⟩
    · rw [hmsb, hvalue]
    · rwa [hmsb]

theorem value_shiftRight {v : List Nat} (hv : IsLimbs (base l) v) {k low : Nat}
    (hk : k < v.length) (hlow : low <= limbBitLength l) :
    Nat.ofDigits (base l) v >>> (limbBitLength l * k + low) =
      v[k] >>> low + 2 ^ (limbBitLength l - low) * Nat.ofDigits (base l) (v.drop (k + 1)) := by
  have hdecomp : v = v.take k ++ v[k] :: v.drop (k + 1) := by
    rw [List.getElem_cons_drop, List.take_append_drop]
  have hbelow := (hv.take k).value_lt (one_lt_base l)
  rw [List.length_take, Nat.min_eq_left hk.le] at hbelow
  have hpow : base l = 2 ^ low * 2 ^ (limbBitLength l - low) := by
    rw [base, <- Nat.pow_add, Nat.add_sub_cancel' hlow]
  have hupper : Nat.ofDigits (base l) v / base l ^ k =
      v[k] + 2 ^ low * (2 ^ (limbBitLength l - low) *
        Nat.ofDigits (base l) (v.drop (k + 1))) := by
    conv_lhs => rw [hdecomp]
    rw [Nat.ofDigits_append, Nat.ofDigits_cons, List.length_take, Nat.min_eq_left hk.le,
      Nat.add_mul_div_left _ _ (Nat.pow_pos (base_pos l)), Nat.div_eq_of_lt hbelow,
      Nat.zero_add, <- Nat.mul_assoc, <- hpow]
  rw [Nat.shiftRight_eq_div_pow, Nat.pow_add, <- base_pow, <- Nat.div_div_eq_div_mul, hupper,
    Nat.add_mul_div_left _ _ (Nat.two_pow_pos low), Nat.shiftRight_eq_div_pow]

theorem Valid.drop_le {x : Ubint} (hx : Valid l x) {k : Nat} (hk : k + 1 < x.value.length) :
    base l ^ ((x.value.drop (k + 1)).length - 1) <=
      Nat.ofDigits (base l) (x.value.drop (k + 1)) := by
  have hne : x.value.drop (k + 1) ≠ [] := fun h => by
    have := List.drop_eq_nil_iff.mp h
    omega
  apply (getLastD_ne_zero_iff (one_lt_base l) (hx.limbs.drop _) hne).mp
  rw [List.getLastD_eq_getLast?, List.getLast?_drop, if_neg (by omega),
    <- List.getLastD_eq_getLast?]
  exact hx.top (by omega)

theorem rShift_spec {x : Ubint} (hx : Valid l x) (shift : Nat) :
    exists r, rShift l x shift = some r ∧ Valid l r ∧ r.toNat l = x.toNat l >>> shift := by
  unfold rShift
  have hmsb : x.msb - shift = Nat.size (x.toNat l >>> shift) := by
    rw [size_shiftRight, hx.bitLength]
  by_cases hle : x.msb <= shift
  · refine ⟨zero, if_pos hle, zero_valid l, ?_⟩
    rw [Nat.sub_eq_zero_of_le hle] at hmsb
    rw [Nat.size_eq_zero.mp hmsb.symm, toNat_zero]
  · rcases shift_split l shift with ⟨hsplit, hlow⟩
    have hk : shift >>> l < x.value.length := by
      have hbits := hx.msb_le
      apply Nat.lt_of_mul_lt_mul_left (a := limbBitLength l)
      omega
    have hvalue := value_shiftRight hx.limbs hk hlow.le
    rw [hsplit] at hvalue
    have hfirst : x.value[shift >>> l] >>> (shift &&& (limbBitLength l - 1)) <
        2 ^ (limbBitLength l - (shift &&& (limbBitLength l - 1))) := by
      rw [Nat.shiftRight_eq_div_pow]
      apply Nat.div_lt_of_lt_mul
      rw [<- Nat.pow_add, Nat.add_sub_cancel' hlow.le]
      exact hx.limbs _ (List.getElem_mem hk)
    have hfull : base l ^ ((x.value.drop (shift >>> l + 1)).length - 1) <=
        x.value[shift >>> l] >>> (shift &&& (limbBitLength l - 1)) +
          2 ^ (limbBitLength l - (shift &&& (limbBitLength l - 1))) *
            Nat.ofDigits (base l) (x.value.drop (shift >>> l + 1)) := by
      by_cases hlast : shift >>> l + 1 < x.value.length
      · calc
          _ <= Nat.ofDigits (base l) (x.value.drop (shift >>> l + 1)) := hx.drop_le hlast
          _ <= 2 ^ (limbBitLength l - (shift &&& (limbBitLength l - 1))) *
              Nat.ofDigits (base l) (x.value.drop (shift >>> l + 1)) :=
            Nat.le_mul_of_pos_left _ (Nat.two_pow_pos _)
          _ <= _ := Nat.le_add_left _ _
      · have hsize : 0 < Nat.size (x.toNat l >>> shift) := by omega
        rw [<- hvalue, List.length_drop, show x.value.length - (shift >>> l + 1) - 1 = 0 by omega,
          Nat.pow_zero]
        exact Nat.size_pos.mp hsize
    rcases pushCarry_spec (hx.limbs.drop _) (Nat.sub_le _ _) hfirst hfull with
      ⟨hpush, hlimbs, hne, htop⟩
    rw [<- hvalue] at hpush
    simp only [if_neg hle, List.getElem?_eq_getElem hk]
    refine ⟨_, rfl, ⟨hlimbs, hne, htop, ?_, ?_⟩, hpush⟩
    · exact hmsb.trans (congrArg Nat.size hpush.symm)
    · exact Nat.lt_of_le_of_lt (Nat.sub_le _ _) hx.fits

end Ubint

end BigInteger
end Core
end OpenFHE
