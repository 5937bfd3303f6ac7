import OpenFHE.Core.BigInteger.DivisionRoutines

/-!
# Quotients, remainders and rounded quotients

The operations decide some cases by the bit lengths and the top limbs of the operands
and leave the others to the long division.  `DividedBy` takes a common bit length and
top limb for a quotient of one, also when the dividend is the smaller operand.
-/

namespace OpenFHE
namespace Core
namespace BigInteger

open NativeInteger
open Foundation

namespace Ubint

variable {l : Nat}

/-- The quotient rounded to the nearest integer, and down from the middle. -/
def roundedDiv (a b : Nat) : Nat :=
  if 2 * (a % b) = b then a / b else (a + b / 2) / b

theorem roundedDiv_eq {a b : Nat} (hb : 0 < b) :
    roundedDiv a b = a / b + if b / 2 < a % b then 1 else 0 := by
  have hmod := Nat.mod_lt a hb
  have hsplit : (a + b / 2) / b = a / b + (a % b + b / 2) / b := by
    conv_lhs => rw [<- Nat.div_add_mod a b]
    rw [Nat.add_assoc, Nat.mul_add_div hb]
  unfold roundedDiv
  rw [hsplit]
  by_cases htie : 2 * (a % b) = b
  · rw [if_pos htie, if_neg (by omega), Nat.add_zero]
  · rw [if_neg htie]
    by_cases hup : b / 2 < a % b
    · have hone : (a % b + b / 2) / b = 1 := Nat.div_eq_of_lt_le (by omega) (by omega)
      rw [if_pos hup, hone]
    · have hzero : (a % b + b / 2) / b = 0 := Nat.div_eq_of_lt (by omega)
      rw [if_neg hup, hzero]

/-!
## Top limbs
-/

theorem Valid.length_le_of_msb_le {x y : Ubint} (hx : Valid l x) (hy : Valid l y)
    (hle : x.msb <= y.msb) : x.value.length <= y.value.length := by
  by_contra hlt
  exact absurd (hy.msb_lt_of_length_lt hx (not_le.mp hlt)) (not_lt.mpr hle)

theorem Valid.top_bounds {x : Ubint} (hx : Valid l x) :
    base l ^ (x.value.length - 1) * x.value.getLastD 0 <= x.toNat l ∧
      x.toNat l < base l ^ (x.value.length - 1) * (x.value.getLastD 0 + 1) := by
  have hlimbs := hx.limbs
  have hne := hx.nonempty
  unfold toNat
  revert hlimbs hne
  generalize x.value = v
  intro hlimbs hne
  rcases List.eq_nil_or_concat' v with rfl | ⟨low, top, rfl⟩
  · exact absurd rfl hne
  · have hlow := IsLimbs.value_lt (one_lt_base l) hlimbs.left
    have hlast : (low ++ [top]).getLastD 0 = top := by simp
    have hlen : (low ++ [top]).length - 1 = low.length := by simp
    rw [hlast, hlen, Nat.ofDigits_append, Nat.ofDigits_singleton, Nat.mul_succ]
    constructor <;> omega

theorem Valid.toNat_lt_of_top_lt {x y : Ubint} (hx : Valid l x) (hy : Valid l y)
    (hmsb : x.msb = y.msb) (htop : x.value.getLastD 0 < y.value.getLastD 0) :
    x.toNat l < y.toNat l := by
  calc
    x.toNat l < base l ^ (x.value.length - 1) * (x.value.getLastD 0 + 1) := hx.top_bounds.2
    _ <= base l ^ (x.value.length - 1) * y.value.getLastD 0 := Nat.mul_le_mul_left _ htop
    _ = base l ^ (y.value.length - 1) * y.value.getLastD 0 := by
      rw [hx.length_eq_of_msb_eq hy hmsb]
    _ <= y.toNat l := hy.top_bounds.1

theorem Valid.toNat_lt_two_mul {x y : Ubint} (hx : Valid l x) (hy : Valid l y)
    (hmsb : x.msb = y.msb) (hpos : 0 < y.msb) (htop : x.value.getLast? = y.value.getLast?) :
    x.toNat l < 2 * y.toNat l := by
  have hlast : x.value.getLastD 0 = y.value.getLastD 0 := by
    rw [List.getLastD_eq_getLast?, List.getLastD_eq_getLast?, htop]
  have hlow := hy.top_bounds.1
  have hhigh := hx.top_bounds.2
  have hfull := hy.top_le hpos
  rw [hx.length_eq_of_msb_eq hy hmsb, hlast, Nat.mul_succ] at hhigh
  omega

/-!
## Operations
-/

theorem mod_two {v : List Nat} {x0 : Nat} (hfirst : v[0]? = some x0) :
    Nat.ofDigits (base l) v % 2 = x0 &&& 1 := by
  cases v with
  | nil => cases hfirst
  | cons x v =>
      cases hfirst
      have heven : base l = 2 * 2 ^ (limbBitLength l - 1) := by
        rw [base, <- Nat.pow_succ', Nat.succ_eq_add_one,
          Nat.sub_add_cancel (limbBitLength_pos l)]
      rw [Nat.ofDigits_cons, heven, Nat.mul_assoc, Nat.add_mul_mod_self_left, Nat.and_one_is_mod]

theorem toNat_eq_two {b : Ubint} (hl : 0 < l) (hb : Valid l b) (hmsb : b.msb = 2)
    (hfirst : b.value[0]? = some 2) : b.toNat l = 2 := by
  have hbits : 2 ^ 1 <= limbBitLength l := Nat.pow_le_pow_right (by decide) hl
  have hone : b.value.length = 1 := by
    by_contra hne
    have hlong := hb.lt_msb (by have := hb.length_pos; omega)
    have hmul := Nat.mul_le_mul hbits (show 1 <= b.value.length - 1 by
      have := hb.length_pos
      omega)
    omega
  rcases List.length_eq_one_iff.mp hone with ⟨x, hvalue⟩
  rw [hvalue] at hfirst
  cases hfirst
  rw [toNat, hvalue, Nat.ofDigits_singleton]

theorem compare_sign {x a : Ubint} (hx : Valid l x) (ha : Valid l a) :
    exists c, compare x a = some c ∧ (c < 0 <-> x.toNat l < a.toNat l) ∧
      (c <= 0 <-> x.toNat l <= a.toNat l) := by
  rw [compare_spec hx ha]
  refine ⟨_, rfl, ?_⟩
  rcases Nat.lt_trichotomy (x.toNat l) (a.toNat l) with hlt | heq | hgt
  · simp [hlt, hlt.le]
  · simp [heq]
  · simp [not_lt.mpr hgt.le, hgt.ne', hgt]

theorem mod_spec {a b : Ubint} (hl : 0 < l) (ha : Valid l a) (hb : Valid l b)
    (hpos : 0 < b.toNat l) :
    exists r, mod l a b = some (.ok r) ∧ Denotes l r (a.toNat l % b.toNat l) := by
  have hmsb : b.msb ≠ 0 := fun h => hpos.ne' (hb.msb_eq_zero_iff.mp h)
  rcases compare_sign ha hb with ⟨c, hc, hneg, -⟩
  unfold mod
  rw [if_neg hmsb, hc]
  simp only [Option.bind_eq_bind, Option.bind_some, Option.pure_def]
  by_cases hlt : a.toNat l < b.toNat l
  · rw [if_pos (hneg.mpr hlt), Nat.mod_eq_of_lt hlt]
    exact ⟨a, rfl, ha, rfl⟩
  · rw [if_neg (mt hneg.mp hlt)]
    by_cases htwo : b.msb = 2 ∧ b.value[0]? = some 2
    · obtain ⟨x0, hx⟩ : exists x0, a.value[0]? = some x0 :=
        ⟨_, List.getElem?_eq_getElem ha.length_pos⟩
      have hsmall : x0 &&& 1 <= 1 := Nat.and_le_right
      have hbits : Nat.size (x0 &&& 1) < maxMSB :=
        Nat.lt_of_le_of_lt (Nat.size_le_size hsmall) (by decide)
      rw [if_pos htwo, hx, toNat_eq_two hl hb htwo.1 htwo.2, toNat, mod_two hx]
      exact ⟨ofLimb (x0 &&& 1), rfl,
        ofLimb_valid (Nat.lt_of_le_of_lt hsmall (one_lt_base l)) hbits, toNat_ofLimb l _⟩
    · have hle : b.msb <= a.msb := by
        by_contra h
        exact hlt (ha.toNat_lt_of_msb_lt hb (not_le.mp h))
      rcases routines_spec hl ha hb hpos (hb.length_le_of_msb_le ha hle) with ⟨q, r, h⟩
      rw [if_neg htwo, h.divr]
      exact ⟨r, rfl, h.remainder⟩

theorem roundedDiv_eq_one {t q : Nat} (hlow : q / 2 < t) (hhigh : t < q) :
    roundedDiv t q = 1 := by
  rw [roundedDiv_eq (by omega), Nat.div_eq_of_lt hhigh, Nat.mod_eq_of_lt hhigh, if_pos hlow]

theorem one_denotes (l : Nat) : Denotes l (ofLimb 1) 1 :=
  ⟨ofLimb_valid (one_lt_base l) (by decide), toNat_ofLimb l 1⟩

theorem roundedQuotient_spec {t q : Ubint} (hl : 0 < l) (ht : Valid l t) (hq : Valid l q)
    (hpos : 0 < q.toNat l) :
    exists r, roundedQuotient l t q = some r ∧
      Denotes l r (roundedDiv (t.toNat l) (q.toNat l)) := by
  rcases rShift_spec hq 1 with ⟨halfQ, hhalf, hhalfvalid, hvalue⟩
  rw [Nat.shiftRight_eq_div_pow, Nat.pow_one] at hvalue
  rcases compare_sign ht hhalfvalid with ⟨c, hc, -, hnonpos⟩
  unfold roundedQuotient
  rw [hhalf]
  simp only [Option.bind_eq_bind, Option.bind_some, Option.pure_def, hc]
  have hhalfmsb : halfQ.msb = q.msb - 1 := by
    rw [hhalfvalid.bitLength, hvalue, hq.bitLength, <- size_shiftRight,
      Nat.shiftRight_eq_div_pow, Nat.pow_one]
  have hqmsb : 0 < q.msb := by
    rw [hq.bitLength]
    exact Nat.size_pos.mpr hpos
  by_cases hle : t.toNat l <= halfQ.toNat l
  · rw [if_pos (hnonpos.mpr hle)]
    rw [hvalue] at hle
    refine ⟨zero, rfl, zero_valid l, ?_⟩
    have hlt : t.toNat l < q.toNat l := by omega
    rw [roundedDiv_eq hpos, Nat.div_eq_of_lt hlt, Nat.mod_eq_of_lt hlt, if_neg (by omega),
      toNat_zero]
  · rw [if_neg (mt hnonpos.mp hle)]
    have habove := not_le.mp hle
    by_cases hone : t.msb = halfQ.msb ∨ t.msb = q.msb ∧ t.value.getLastD 0 < q.value.getLastD 0
    · have hlt : t.toNat l < q.toNat l := by
        cases hone with
        | inl h => exact ht.toNat_lt_of_msb_lt hq (by omega)
        | inr h => exact ht.toNat_lt_of_top_lt hq h.1 h.2
      rw [if_pos hone, roundedDiv_eq_one (hvalue ▸ habove) hlt]
      exact ⟨ofLimb 1, rfl, one_denotes l⟩
    · have hmsb : q.msb <= t.msb := by
        have hge : halfQ.msb <= t.msb := by
          by_contra h
          exact absurd (ht.toNat_lt_of_msb_lt hhalfvalid (not_le.mp h)) (by omega)
        have hne : t.msb ≠ halfQ.msb := fun h => hone (Or.inl h)
        omega
      rcases routines_spec hl ht hq hpos (hq.length_le_of_msb_le ht hmsb) with ⟨ans, rv, h⟩
      rcases compare_sign h.remainder.1 hhalfvalid with ⟨d, hd, -, hdnonpos⟩
      rw [if_neg hone, h.divqr]
      simp only [Option.bind_some, hd]
      rw [h.remainder.2, hvalue] at hdnonpos
      rw [roundedDiv_eq hpos]
      by_cases hup : q.toNat l / 2 < t.toNat l % q.toNat l
      · have hpositive : d > 0 := by
          by_contra hd0
          exact absurd (hdnonpos.mp (not_lt.mp hd0)) (not_le.mpr hup)
        have hfits : t.toNat l / q.toNat l + 1 <= t.toNat l := by
          have hsplit := Nat.div_add_mod (t.toNat l) (q.toNat l)
          have hgrow := Nat.le_mul_of_pos_left (t.toNat l / q.toNat l) hpos
          omega
        rw [if_pos hpositive, if_pos hup]
        have hadd := add_spec h.quotient.1 (one_denotes l).1
          (by rw [h.quotient.2, (one_denotes l).2]; exact ht.fits_of_le hfits)
        rw [h.quotient.2, (one_denotes l).2] at hadd
        exact ⟨_, rfl, hadd⟩
      · have hnotpos : ¬ d > 0 := not_lt.mpr (hdnonpos.mpr (not_lt.mp hup))
        rw [if_neg hnotpos, if_neg hup, Nat.add_zero]
        exact ⟨ans, rfl, h.quotient⟩

theorem dividedBy_of_top {a b : Ubint} (hpos : b.msb ≠ 0) (hmsb : a.msb = b.msb)
    (htop : a.value.getLast? = b.value.getLast?) :
    dividedBy l a b = some (.ok (ofLimb 1)) := by
  rw [dividedBy, if_neg hpos, if_neg (by omega), if_pos ⟨hmsb.symm, htop.symm⟩]

theorem dividedBy_spec {a b : Ubint} (hl : 0 < l) (ha : Valid l a) (hb : Valid l b)
    (hpos : 0 < b.toNat l)
    (hdiffer : a.msb = b.msb -> a.value.getLast? = b.value.getLast? -> b.toNat l <= a.toNat l) :
    exists r, dividedBy l a b = some (.ok r) ∧ Denotes l r (a.toNat l / b.toNat l) := by
  have hmsb : b.msb ≠ 0 := fun h => hpos.ne' (hb.msb_eq_zero_iff.mp h)
  by_cases hlong : b.msb > a.msb
  · refine ⟨zero, ?_, zero_valid l, ?_⟩
    · rw [dividedBy, if_neg hmsb, if_pos hlong]
    · rw [toNat_zero, Nat.div_eq_of_lt (ha.toNat_lt_of_msb_lt hb hlong)]
  · by_cases htop : a.msb = b.msb ∧ a.value.getLast? = b.value.getLast?
    · have hge := hdiffer htop.1 htop.2
      have hlt := ha.toNat_lt_two_mul hb htop.1 (Nat.pos_of_ne_zero hmsb) htop.2
      have hone : a.toNat l / b.toNat l = 1 := Nat.div_eq_of_lt_le (by omega) (by omega)
      rw [dividedBy_of_top hmsb htop.1 htop.2, hone]
      exact ⟨ofLimb 1, rfl, one_denotes l⟩
    · have hdiv : dividedBy l a b = (divqVect l a b).map .ok := by
        rw [dividedBy, if_neg hmsb, if_neg hlong,
          if_neg fun h => htop ⟨h.1.symm, h.2.symm⟩]
      rcases routines_spec hl ha hb hpos (hb.length_le_of_msb_le ha (not_lt.mp hlong)) with
        ⟨q, r, h⟩
      rw [hdiv, h.divq]
      exact ⟨q, rfl, h.quotient⟩

/-!
## Contract
-/

/-- What the operations compute from the dividend `a`, the divisor `b` and the factor `p`. -/
structure Division (l : Nat) (a b p : Ubint) : Prop where
  dividedBy : exists r, dividedBy l a b = some (.ok r) ∧ Denotes l r (a.toNat l / b.toNat l)
  mod : exists r, mod l a b = some (.ok r) ∧ Denotes l r (a.toNat l % b.toNat l)
  divideAndRound : exists r, divideAndRound l a b = some (.ok r) ∧
    Denotes l r (roundedDiv (a.toNat l) (b.toNat l))
  multiplyAndRound : Nat.size (a.toNat l * p.toNat l) < maxMSB ->
    exists r, multiplyAndRound l a p b = some (.ok r) ∧
      Denotes l r (roundedDiv (a.toNat l * p.toNat l) (b.toNat l))
  routines : b.value.length <= a.value.length -> exists q r, Routines l a b q r
  rounds : 1 < b.value.length -> b.value.length <= a.value.length ->
    ExactRounds l (normalDivisor l b.value) (a.value.length - b.value.length + 1)
      (normalDividend l a.value b.value)

/-- The operands that `DividedBy` takes for equal although the dividend is smaller. -/
def SmallerWithEqualTop (l : Nat) (a b : Ubint) : Prop :=
  a.toNat l < b.toNat l ∧ a.msb = b.msb ∧ a.value.getLast? = b.value.getLast?

theorem division_iff {a b p : Ubint} (hl : 0 < l) (ha : Valid l a) (hb : Valid l b)
    (hp : Valid l p) (hpos : 0 < b.toNat l) :
    Division l a b p <-> ¬ SmallerWithEqualTop l a b := by
  have hmsb : b.msb ≠ 0 := fun h => hpos.ne' (hb.msb_eq_zero_iff.mp h)
  constructor
  · rintro h ⟨hlt, hbits, htop⟩
    rcases h.dividedBy with ⟨r, hr, hdenotes⟩
    rw [dividedBy_of_top hmsb hbits htop] at hr
    cases hr
    have hvalue := hdenotes.2
    rw [toNat_ofLimb, Nat.div_eq_of_lt hlt] at hvalue
    exact absurd hvalue (by decide)
  · intro hdiffer
    constructor
    · apply dividedBy_spec hl ha hb hpos
      intro hbits htop
      exact not_lt.mp fun hlt => hdiffer ⟨hlt, hbits, htop⟩
    · exact mod_spec hl ha hb hpos
    · rcases roundedQuotient_spec hl ha hb hpos with ⟨r, hr, hdenotes⟩
      refine ⟨r, ?_, hdenotes⟩
      rw [divideAndRound, if_neg hmsb, hr]
      rfl
    · intro hfits
      rcases mul_spec ha hp hfits with ⟨hproduct, hvalue⟩
      rcases roundedQuotient_spec hl hproduct hb hpos with ⟨r, hr, hdenotes⟩
      rw [hvalue] at hdenotes
      refine ⟨r, ?_, hdenotes⟩
      rw [multiplyAndRound, if_neg hmsb, hr]
      rfl
    · exact routines_spec hl ha hb hpos
    · intro hlen hle
      exact (rounds_spec hl ha hb hlen hle).1

/-- Operands with the top limb 1 above the limbs 0 and 1. -/
theorem division_equal_top :
    Valid 5 (ofLimbs 5 [0, 1]) ∧ Valid 5 (ofLimbs 5 [1, 1]) ∧
      (ofLimbs 5 [0, 1]).toNat 5 = 4294967296 ∧ (ofLimbs 5 [1, 1]).toNat 5 = 4294967297 ∧
      dividedBy 5 (ofLimbs 5 [0, 1]) (ofLimbs 5 [1, 1]) = some (.ok (ofLimb 1)) ∧
      ¬ Division 5 (ofLimbs 5 [0, 1]) (ofLimbs 5 [1, 1]) (ofLimb 1) := by
  have hdivided : dividedBy 5 (ofLimbs 5 [0, 1]) (ofLimbs 5 [1, 1]) = some (.ok (ofLimb 1)) := by
    decide
  refine ⟨ofLimbs_two_valid (by decide) (by decide), ofLimbs_two_valid (by decide) (by decide),
    by decide, by decide, hdivided, ?_⟩
  intro h
  rcases h.dividedBy with ⟨r, hr, hdenotes⟩
  rw [hdivided] at hr
  cases hr
  exact absurd hdenotes.2 (by decide)

theorem division_two_limbs :
    0 < 5 ∧ Valid 5 (ofLimbs 5 [7, 3]) ∧ Valid 5 (ofLimbs 5 [4294967295, 1]) ∧
      0 < (ofLimbs 5 [4294967295, 1]).toNat 5 ∧
      (Division 5 (ofLimbs 5 [7, 3]) (ofLimbs 5 [4294967295, 1]) (ofLimbs 5 [7, 3]) <->
        ¬ SmallerWithEqualTop 5 (ofLimbs 5 [7, 3]) (ofLimbs 5 [4294967295, 1])) :=
  ⟨by decide, ofLimbs_two_valid (by decide) (by decide),
    ofLimbs_two_valid (by decide) (by decide), by decide,
    division_iff (by decide) (ofLimbs_two_valid (by decide) (by decide))
      (ofLimbs_two_valid (by decide) (by decide)) (ofLimbs_two_valid (by decide) (by decide))
      (by decide)⟩

end Ubint

end BigInteger
end Core
end OpenFHE
