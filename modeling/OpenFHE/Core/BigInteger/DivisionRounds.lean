import OpenFHE.Core.BigInteger.DivisionEstimate

/-!
# Rounds of the long division

A round subtracts the divisor times the estimate from the window and adds the divisor
back when that was too much.  It leaves the digit and the remainder of the window.
-/

namespace OpenFHE
namespace Core
namespace BigInteger

open NativeInteger
open Foundation

namespace Ubint

variable {l : Nat}

theorem subtractTop_spec {k : Int} {u : Nat} (hl : 0 < l) (hu : u < base l) (hk : 0 <= k)
    (hkB : k < base l) :
    sdlimb l (u - k) = u - k ∧
      ((limbOfInt l (u - k) : Nat) : Int) =
        u - k + (if (u - k : Int) < 0 then (base l : Int) else 0) := by
  have hB : (4 : Int) <= base l := by exact_mod_cast four_le_base hl
  have hsquare : (base l : Int) * 4 <= base l * base l :=
    Int.mul_le_mul_of_nonneg_left hB (by omega)
  have huB : (u : Int) < base l := by exact_mod_cast hu
  constructor
  · exact sdlimb_of_le (by omega) (by omega)
  · rw [cast_limbOfInt]
    by_cases hneg : (u - k : Int) < 0
    · rw [if_pos hneg, <- Int.add_emod_right]
      exact Int.emod_eq_of_lt (by omega) (by omega)
    · rw [if_neg hneg, Int.add_zero]
      exact Int.emod_eq_of_lt (by omega) (by omega)

theorem subtractLimb_spec {u p : Nat} {k t k' : Int} (hl : 0 < l) (hu : u < base l)
    (hp : p + 2 * base l <= base l * base l + 1) (hk : 0 <= k) (hkB : k < base l)
    (ht : t = u - k - (limb l p : Nat))
    (hk' : k' = (p >>> limbBitLength l : Nat) - t >>> limbBitLength l) :
    sdlimb l t = t ∧ sdlimb l k' = k' ∧ 0 <= k' ∧ k' < base l ∧
      ((limbOfInt l t : Nat) : Int) = u - k - p + base l * k' := by
  have hB : (4 : Int) <= base l := by exact_mod_cast four_le_base hl
  have hsquare : (base l : Int) * 4 <= base l * base l :=
    Int.mul_le_mul_of_nonneg_left hB (by omega)
  have huB : (u : Int) < base l := by exact_mod_cast hu
  have hlimb : ((limb l p : Nat) : Int) < base l := by exact_mod_cast limb_lt l p
  have hcut : ((limbOfInt l t : Nat) : Int) < base l := by exact_mod_cast limbOfInt_lt l t
  have hpB : (p : Int) + 2 * base l <= base l * base l + 1 := by exact_mod_cast hp
  have hsplit : ((limb l p : Nat) : Int) + base l * (p >>> limbBitLength l : Nat) = p := by
    exact_mod_cast limb_add_shift l p
  have heq : ((limbOfInt l t : Nat) : Int) = u - k - p + base l * k' := by
    rw [hk']
    linear_combination limbOfInt_add l t - hsplit + ht
  have hlow : 0 <= k' := by
    by_contra hneg
    have := Int.mul_le_mul_of_nonneg_left (show k' <= -1 by omega)
      (show (0 : Int) <= base l by omega)
    omega
  have hhigh : k' < base l := by
    by_contra hge
    have := Int.mul_le_mul_of_nonneg_left (not_lt.mp hge) (show (0 : Int) <= base l by omega)
    omega
  exact ⟨sdlimb_of_le (by omega) (by omega), sdlimb_of_le (by omega) (by omega), hlow, hhigh,
    heq⟩

theorem subtractLoop_spec {vn un : List Nat} {qhat : Nat} {k : Int} (hl : 0 < l)
    (hqhat : qhat < base l) (hvn : IsLimbs (base l) vn) (hun : IsLimbs (base l) un)
    (hlen : vn.length < un.length) (hk : 0 <= k) (hkB : k < base l) :
    exists r t, subtractLoop l qhat un vn k = some (r, t) ∧
      ((Nat.ofDigits (base l) r : Nat) : Int) =
        (Nat.ofDigits (base l) un : Nat) - qhat * (Nat.ofDigits (base l) vn : Nat) - k +
          (if t < 0 then (base l : Int) ^ (vn.length + 1) else 0) ∧
      IsLimbs (base l) r ∧ r.length = un.length ∧
      r.drop (vn.length + 1) = un.drop (vn.length + 1) := by
  induction vn generalizing un k with
  | nil =>
      cases un with
      | nil => exact absurd hlen (Nat.lt_irrefl 0)
      | cons u un =>
          rcases subtractTop_spec hl hun.head hk hkB with ⟨hsd, hlimb⟩
          refine ⟨_, _, rfl, ?_, IsLimbs.cons (limbOfInt_lt l _) hun.tail, rfl, rfl⟩
          rw [hsd, Nat.ofDigits_cons, Nat.ofDigits_cons, Nat.ofDigits_nil, Nat.cast_add, hlimb,
            List.length_nil, Nat.zero_add, pow_one]
          push_cast
          ring
  | cons v vn ih =>
      cases un with
      | nil => exact absurd hlen (Nat.not_lt_zero _)
      | cons u un =>
          have hp : dlimb l (qhat * v) = qhat * v :=
            dlimb_of_lt (Nat.mul_lt_mul'' hqhat hvn.head)
          have hlow : qhat * v &&& maxLimb l = limb l (qhat * v) :=
            Nat.and_two_pow_sub_one_eq_mod _ _
          have hprod : qhat * v + 2 * base l <= base l * base l + 1 := by
            have := hvn.head
            nlinarith
          rcases subtractLimb_spec hl hun.head hprod hk hkB rfl rfl with
            ⟨hsdt, hsdk, hk', hk'B, hlimb⟩
          rcases ih hvn.tail hun.tail (by simpa using hlen) hk' hk'B with
            ⟨r, t, hr, hvalue, hlimbs, hrlen, hdrop⟩
          simp only [subtractLoop, hp, hlow, hsdt, hsdk, hr, Option.bind_eq_bind,
            Option.bind_some, Option.pure_def]
          refine ⟨_, t, rfl, ?_, IsLimbs.cons (limbOfInt_lt l _) hlimbs, by simp [hrlen],
            hdrop⟩
          rw [Nat.ofDigits_cons, Nat.ofDigits_cons, Nat.ofDigits_cons, List.length_cons]
          simp only [Nat.cast_add, Nat.cast_mul] at hlimb ⊢
          by_cases hneg : t < 0
          · rw [if_pos hneg] at hvalue ⊢
            linear_combination hlimb + base l * hvalue
          · rw [if_neg hneg] at hvalue ⊢
            linear_combination hlimb + base l * hvalue

theorem addBackLoop_spec {vn un : List Nat} {k : Nat} (hl : 0 < l)
    (hvn : IsLimbs (base l) vn) (hun : IsLimbs (base l) un) (hlen : vn.length < un.length)
    (hk : k <= 1) :
    exists r c, addBackLoop l un vn (k : Int) = some r ∧
      Nat.ofDigits (base l) r + base l ^ (vn.length + 1) * c =
        Nat.ofDigits (base l) un + Nat.ofDigits (base l) vn + k ∧
      c <= 1 ∧ IsLimbs (base l) r ∧ r.length = un.length ∧
      r.drop (vn.length + 1) = un.drop (vn.length + 1) := by
  have hcut : forall x : Nat, limbOfInt l (x : Int) = limb l x := by
    intro x
    have h := cast_limbOfInt l x
    exact_mod_cast h
  induction vn generalizing un k with
  | nil =>
      cases un with
      | nil => exact absurd hlen (Nat.lt_irrefl 0)
      | cons u un =>
          have hu := hun.head
          have hB := one_lt_base l
          refine ⟨limb l (u + k) :: un, (u + k) >>> limbBitLength l, ?_, ?_, ?_,
            IsLimbs.cons (limb_lt l _) hun.tail, rfl, rfl⟩
          · rw [addBackLoop, <- Nat.cast_add, hcut]
          · have hsplit := limb_add_shift l (u + k)
            rw [Nat.ofDigits_cons, Nat.ofDigits_cons, Nat.ofDigits_nil, List.length_nil,
              Nat.zero_add, Nat.pow_one]
            omega
          · exact Nat.le_of_lt_succ (shift_lt (by omega))
  | cons v vn ih =>
      cases un with
      | nil => exact absurd hlen (Nat.not_lt_zero _)
      | cons u un =>
          have hu := hun.head
          have hv := hvn.head
          have hB : (4 : Int) <= base l := by exact_mod_cast four_le_base hl
          have hsquare : (base l : Int) * 4 <= base l * base l :=
            Int.mul_le_mul_of_nonneg_left hB (by omega)
          have hcast : (u : Int) + v + k = ((u + v + k : Nat) : Int) := by push_cast; ring
          have hsd : sdlimb l (u + v + k) = ((u + v + k : Nat) : Int) := by
            rw [hcast]
            exact sdlimb_of_le (by omega) (by omega)
          have hshift : ((u + v + k : Nat) : Int) >>> limbBitLength l =
              (((u + v + k) >>> limbBitLength l : Nat) : Int) := rfl
          have hcarry : (u + v + k) >>> limbBitLength l <= 1 :=
            Nat.le_of_lt_succ (shift_lt (by omega))
          rcases ih hvn.tail hun.tail (by simpa using hlen) hcarry with
            ⟨r, c, hr, hvalue, hc, hlimbs, hrlen, hdrop⟩
          refine ⟨limb l (u + v + k) :: r, c, ?_, ?_, hc, IsLimbs.cons (limb_lt l _) hlimbs,
            by simp [hrlen], hdrop⟩
          · rw [addBackLoop, hsd, hshift, hr, hcut]
            rfl
          · have hsplit := limb_add_shift l (u + v + k)
            rw [Nat.ofDigits_cons, Nat.ofDigits_cons, Nat.ofDigits_cons, List.length_cons,
              Nat.pow_succ]
            linear_combination hsplit + base l * hvalue

theorem divideRound_spec {vn un : List Nat} {j : Nat} (hl : 0 < l) (hvn : IsDivisor l vn)
    (hun : BeforeRound l vn un j) :
    exists r, divideRound l vn un j =
        some (Nat.ofDigits (base l) (un.drop j) / Nat.ofDigits (base l) vn, un.take j ++ r) ∧
      Nat.ofDigits (base l) r =
        Nat.ofDigits (base l) (un.drop j) % Nat.ofDigits (base l) vn ∧
      IsLimbs (base l) r ∧ r.length = un.length - j := by
  rcases leadingQuotient_spec hvn hun with ⟨hge, hle, hqhat⟩
  have hdiv := Nat.div_add_mod (Nat.ofDigits (base l) (un.drop j)) (Nat.ofDigits (base l) vn)
  have hdigitlt : Nat.ofDigits (base l) (un.drop j) / Nat.ofDigits (base l) vn < base l :=
    Nat.lt_of_le_of_lt hge hqhat
  have hlen : vn.length < (un.drop j).length := by
    have := hun.length
    rw [List.length_drop]
    omega
  have hsmall : forall {r : List Nat}, IsLimbs (base l) r ->
      r.drop (vn.length + 1) = (un.drop j).drop (vn.length + 1) ->
      Nat.ofDigits (base l) r < base l ^ (vn.length + 1) := by
    intro r hr hdrop
    have hvalue := value_drop hr (vn.length + 1)
    rw [hdrop, List.drop_drop, <- Nat.add_assoc, hun.beyond hvn.limbs] at hvalue
    exact (Nat.div_eq_zero_iff_lt (Nat.pow_pos (base_pos l))).mp hvalue.symm
  rcases subtractLoop_spec hl hqhat hvn.limbs (hun.limbs.drop j) hlen (le_refl 0)
    (by exact_mod_cast base_pos l) with ⟨r, t, hr, hvalue, hlimbs, hrlen, hdrop⟩
  have hrsmall := hsmall hlimbs hdrop
  rw [List.length_drop] at hrlen
  have hVpos := hvn.value_pos
  have hmod := Nat.mod_lt (Nat.ofDigits (base l) (un.drop j)) hVpos
  unfold divideRound
  rw [estimate_spec hvn hun]
  revert hge hle hqhat hdiv hdigitlt hmod hr hvalue
  generalize leadingQuotient l vn un j = qhat
  generalize Nat.ofDigits (base l) (un.drop j) / Nat.ofDigits (base l) vn = digit
  generalize Nat.ofDigits (base l) (un.drop j) % Nat.ofDigits (base l) vn = rest
  intro hge hle hqhat hdiv hdigitlt hr hvalue hmod
  have hdivInt : ((Nat.ofDigits (base l) vn : Nat) : Int) * digit + rest =
      (Nat.ofDigits (base l) (un.drop j) : Nat) := by exact_mod_cast hdiv
  have hlimb : limb l digit = digit := Nat.mod_eq_of_lt hdigitlt
  simp only [Option.bind_eq_bind, Option.bind_some, hr]
  cases Nat.eq_or_lt_of_le hge with
  | inl hexact =>
      subst hexact
      have hnonneg : ¬ t < 0 := by
        intro hneg
        rw [if_pos hneg] at hvalue
        have hover : ((Nat.ofDigits (base l) r : Nat) : Int) =
            rest + ((base l ^ (vn.length + 1) : Nat) : Int) := by
          rw [hvalue, Nat.cast_pow]
          linear_combination -hdivInt
        omega
      rw [if_neg hnonneg] at hvalue ⊢
      refine ⟨r, by rw [hlimb]; rfl, ?_, hlimbs, hrlen⟩
      have hrest : ((Nat.ofDigits (base l) r : Nat) : Int) = rest := by
        rw [hvalue]
        linear_combination -hdivInt
      exact_mod_cast hrest
  | inr hover =>
      obtain rfl : qhat = digit + 1 := Nat.le_antisymm hle hover
      have hneg : t < 0 := by
        by_contra hnonneg
        rw [if_neg hnonneg] at hvalue
        have hunder : ((Nat.ofDigits (base l) r : Nat) : Int) =
            rest - (Nat.ofDigits (base l) vn : Nat) := by
          rw [hvalue, Nat.cast_succ]
          linear_combination -hdivInt
        omega
      rw [if_pos hneg] at hvalue ⊢
      rcases addBackLoop_spec hl hvn.limbs hlimbs
        (by rw [hrlen, <- List.length_drop]; exact hlen) (Nat.zero_le 1) with
        ⟨sum, c, hsum, hsumvalue, hc, hsumlimbs, hsumlen, hsumdrop⟩
      have hsumsmall := hsmall hsumlimbs (hsumdrop.trans hdrop)
      have htotal : Nat.ofDigits (base l) sum + base l ^ (vn.length + 1) * c =
          rest + base l ^ (vn.length + 1) := by
        have hcast : ((Nat.ofDigits (base l) sum + base l ^ (vn.length + 1) * c : Nat) : Int) =
            ((rest + base l ^ (vn.length + 1) : Nat) : Int) := by
          rw [hsumvalue]
          simp only [Nat.cast_add, hvalue, Nat.cast_pow]
          linear_combination -hdivInt
        exact_mod_cast hcast
      have hlower : limb l (limb l (digit + 1) + maxLimb l) = digit := by
        have hmax : digit + 1 + maxLimb l = digit + base l := by
          have := base_pos l
          show digit + 1 + (base l - 1) = digit + base l
          omega
        rw [limb_eq, limb_eq, Nat.mod_add_mod, hmax, Nat.add_mod_right]
        exact hlimb
      have hcarry : c = 1 := by
        interval_cases c
        · rw [Nat.mul_zero, Nat.add_zero] at htotal
          omega
        · rfl
      rw [hcarry, Nat.mul_one] at htotal
      refine ⟨sum, ?_, Nat.add_right_cancel htotal, hsumlimbs, hsumlen.trans hrlen⟩
      rw [hlower]
      rw [Nat.cast_zero] at hsum
      rw [hsum]
      rfl

end Ubint

end BigInteger
end Core
end OpenFHE
