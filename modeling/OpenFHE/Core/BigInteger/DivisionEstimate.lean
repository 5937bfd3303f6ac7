import OpenFHE.Core.BigInteger.Division
import OpenFHE.Core.BigInteger.Normalize
import OpenFHE.Foundation.LeadingQuotient

/-!
# Estimates of the quotient digits

Before the round `j` of the long division the limbs above `j` are smaller than the
divisor.  The estimate from three leading limbs is then the digit or one more, and
nothing wraps on the way.
-/

namespace OpenFHE
namespace Core
namespace BigInteger

open NativeInteger
open Foundation

/-!
## Double limbs
-/

theorem four_le_base {l : Nat} (hl : 0 < l) : 4 <= base l := by
  have hbits : 2 ^ 1 <= limbBitLength l := Nat.pow_le_pow_right (by decide) hl
  calc
    4 = 2 ^ 2 := rfl
    _ <= base l := Nat.pow_le_pow_right (by decide) hbits

theorem dlimb_shift_or {l x y : Nat} (hx : x < base l) (hy : y < base l) :
    dlimb l (x <<< limbBitLength l) ||| y = y + base l * x := by
  have hdlimb : dlimb l (x <<< limbBitLength l) = x <<< limbBitLength l := by
    apply dlimb_of_lt
    rw [Nat.shiftLeft_eq]
    exact Nat.mul_lt_mul_of_pos_right hx (base_pos l)
  rw [hdlimb, <- Nat.shiftLeft_add_eq_or_of_lt hy, Nat.shiftLeft_eq, base]
  ring

theorem shiftRight_ne_zero_iff {l x : Nat} : x >>> limbBitLength l ≠ 0 <-> base l <= x := by
  rw [Nat.shiftRight_eq_div_pow, <- base, ne_eq, Nat.div_eq_zero_iff_lt (base_pos l), not_lt]

theorem sdlimb_of_le {l : Nat} {x : Int} (hlow : -(base l * base l : Int) <= x * 2)
    (hhigh : x * 2 < base l * base l) : sdlimb l x = x := by
  have hpow : 2 ^ (2 * limbBitLength l) = base l * base l := by
    rw [Nat.two_mul, Nat.pow_add, base]
  unfold sdlimb
  rw [hpow]
  apply Int.bmod_eq_of_le_mul_two
  · exact_mod_cast hlow
  · exact_mod_cast hhigh

theorem cast_limbOfInt (l : Nat) (t : Int) : (limbOfInt l t : Int) = t % base l := by
  unfold limbOfInt
  rw [<- base]
  exact Int.toNat_of_nonneg (Int.emod_nonneg t (by exact_mod_cast (base_pos l).ne'))

theorem limbOfInt_lt (l : Nat) (t : Int) : limbOfInt l t < base l := by
  have h := Int.emod_lt_of_pos t (show (0 : Int) < base l by exact_mod_cast base_pos l)
  rw [<- cast_limbOfInt] at h
  exact_mod_cast h

theorem limbOfInt_add (l : Nat) (t : Int) :
    (limbOfInt l t : Int) + base l * (t >>> limbBitLength l) = t := by
  rw [cast_limbOfInt, Int.shiftRight_eq_div_pow, <- base]
  exact Int.emod_add_mul_ediv t (base l)

namespace Ubint

variable {l : Nat}

/-!
## Estimate
-/

theorem tooLarge_iff {vn2 un2 qhat rhat : Nat} (hvn2 : vn2 < base l) (hun2 : un2 < base l)
    (hrhat : rhat < base l) :
    tooLarge l vn2 un2 qhat rhat = true <->
      base l <= qhat ∨ rhat * base l + un2 < qhat * vn2 := by
  unfold tooLarge
  rw [Bool.or_eq_true, decide_eq_true_iff, decide_eq_true_iff, shiftRight_ne_zero_iff,
    dlimb_shift_or hrhat hun2]
  by_cases hqhat : base l <= qhat
  · simp [hqhat]
  · have hprod : qhat * vn2 < base l * base l := Nat.mul_lt_mul'' (not_le.mp hqhat) hvn2
    rw [dlimb_of_lt hprod, Nat.add_comm, Nat.mul_comm (base l)]

theorem lowerLoop_spec {vn1 vn2 un2 N qhat rhat : Nat} (hvn1 : vn1 < base l)
    (hvn2 : vn2 < base l) (hun2 : un2 < base l) (hpos : 0 < vn1)
    (hN : N < base l * (vn1 + 1)) (hrhat : rhat < base l)
    (hsplit : qhat * vn1 + rhat = N)
    (hle : min ((un2 + base l * N) / (vn2 + base l * vn1)) (maxLimb l) <= qhat) :
    lowerLoop l vn1 vn2 un2 qhat rhat =
      min ((un2 + base l * N) / (vn2 + base l * vn1)) (maxLimb l) := by
  have hV : 0 < vn2 + base l * vn1 :=
    Nat.add_pos_right _ (Nat.mul_pos (base_pos l) hpos)
  have hmax : maxLimb l + 1 = base l := Nat.sub_add_cancel (base_pos l)
  induction qhat generalizing rhat with
  | zero => rw [lowerLoop, Nat.le_zero.mp hle]
  | succ qhat ih =>
      have hiff := le_leading_iff (u := un2) (v := vn2) hV hsplit
      have htest : tooLarge l vn2 un2 (qhat + 1) rhat = true <->
          base l <= qhat + 1 ∨ rhat * base l + un2 < (qhat + 1) * vn2 :=
        tooLarge_iff hvn2 hun2 hrhat
      rw [lowerLoop]
      by_cases hlarge : tooLarge l vn2 un2 (qhat + 1) rhat = true
      · have hlower : min ((un2 + base l * N) / (vn2 + base l * vn1)) (maxLimb l) <= qhat := by
          cases htest.mp hlarge with
          | inl h => omega
          | inr h =>
              have hnot := mt hiff.mp (not_le.mpr h)
              omega
        have hsum : rhat + vn1 < base l * base l := by
          have := Nat.mul_le_mul_right (base l) (one_lt_base l)
          omega
        have hnext : qhat * vn1 + (rhat + vn1) = N := by
          rw [<- hsplit]
          ring
        rw [if_pos hlarge, dlimb_of_lt hsum]
        by_cases hbreak : (rhat + vn1) >>> limbBitLength l ≠ 0
        · have hbase := shiftRight_ne_zero_iff.mp hbreak
          have hlimb : qhat < base l := by
            apply Nat.lt_of_mul_lt_mul_right (a := vn1)
            rw [Nat.mul_succ] at hN
            omega
          have hreach : qhat <= (un2 + base l * N) / (vn2 + base l * vn1) := by
            apply (le_leading_iff hV hnext).mpr
            calc
              qhat * vn2 <= base l * base l := Nat.mul_le_mul hlimb.le hvn2.le
              _ <= (rhat + vn1) * base l := Nat.mul_le_mul_right _ hbase
              _ <= _ := Nat.le_add_right _ _
          rw [if_pos hbreak]
          omega
        · have hrest : rhat + vn1 < base l :=
            not_le.mp fun h => hbreak (shiftRight_ne_zero_iff.mpr h)
          rw [if_neg hbreak]
          exact ih hrest hnext hlower
      · have hsmall := mt htest.mpr hlarge
        have hreach := hiff.mpr (by omega)
        rw [if_neg hlarge]
        omega

structure IsDivisor (l : Nat) (vn : List Nat) : Prop where
  limbs : IsLimbs (base l) vn
  two_le : 2 <= vn.length
  top : vn.getLastD 0 ≠ 0

/-- Before the round `j`, the limbs above `j` are smaller than the divisor. -/
structure BeforeRound (l : Nat) (vn un : List Nat) (j : Nat) : Prop where
  limbs : IsLimbs (base l) un
  length : j + vn.length < un.length
  above : Nat.ofDigits (base l) (un.drop (j + 1)) < Nat.ofDigits (base l) vn

theorem value_drop {v : List Nat} (hv : IsLimbs (base l) v) (k : Nat) :
    Nat.ofDigits (base l) (v.drop k) = Nat.ofDigits (base l) v / base l ^ k :=
  (Nat.ofDigits_div_pow_eq_ofDigits_drop k (base_pos l) v hv).symm

namespace IsDivisor

variable {vn : List Nat}

theorem nonempty (h : IsDivisor l vn) : vn ≠ [] := by
  rintro rfl
  exact absurd h.two_le (by decide)

theorem value_ge (h : IsDivisor l vn) :
    base l ^ (vn.length - 1) <= Nat.ofDigits (base l) vn :=
  (getLastD_ne_zero_iff (one_lt_base l) h.limbs h.nonempty).mp h.top

theorem value_pos (h : IsDivisor l vn) : 0 < Nat.ofDigits (base l) vn :=
  Nat.lt_of_lt_of_le (Nat.pow_pos (base_pos l)) h.value_ge

theorem leading (h : IsDivisor l vn) :
    exists vn1 vn2, vn[vn.length - 1]? = some vn1 ∧ vn[vn.length - 2]? = some vn2 ∧
      vn1 < base l ∧ vn2 < base l ∧ 0 < vn1 ∧ vn.drop (vn.length - 1) = [vn1] ∧
      vn.drop (vn.length - 2) = [vn2, vn1] := by
  have htwo := h.two_le
  have hlast : vn.length - 1 < vn.length := by omega
  have hnext : vn.length - 2 < vn.length := by omega
  have hone : vn.drop (vn.length - 1) = [vn[vn.length - 1]] := by
    rw [List.drop_eq_getElem_cons hlast, List.drop_eq_nil_of_le (by omega)]
  refine ⟨vn[vn.length - 1], vn[vn.length - 2], List.getElem?_eq_getElem hlast,
    List.getElem?_eq_getElem hnext, h.limbs _ (List.getElem_mem hlast),
    h.limbs _ (List.getElem_mem hnext), ?_, hone, ?_⟩
  · have htop := h.top
    rw [List.getLastD_eq_getLast?, List.getLast?_eq_getElem?, List.getElem?_eq_getElem hlast]
      at htop
    exact Nat.pos_of_ne_zero htop
  · rw [List.drop_eq_getElem_cons hnext, show vn.length - 2 + 1 = vn.length - 1 by omega,
      hone]

end IsDivisor

namespace BeforeRound

variable {vn un : List Nat} {j : Nat}

theorem window_lt (h : BeforeRound l vn un j) :
    Nat.ofDigits (base l) (un.drop j) < base l * Nat.ofDigits (base l) vn := by
  have hj : j < un.length := by
    have := h.length
    omega
  have hlimb := h.limbs _ (List.getElem_mem hj)
  have hmul := Nat.mul_le_mul_left (base l) h.above
  rw [List.drop_eq_getElem_cons hj, Nat.ofDigits_cons]
  rw [Nat.mul_succ] at hmul
  omega

theorem beyond (h : BeforeRound l vn un j) (hvn : IsLimbs (base l) vn) :
    Nat.ofDigits (base l) (un.drop (j + vn.length + 1)) = 0 := by
  have hlt := h.above.trans (hvn.value_lt (one_lt_base l))
  have hdrop := value_drop (h.limbs.drop (j + 1)) vn.length
  rw [List.drop_drop, Nat.div_eq_of_lt hlt] at hdrop
  rw [<- hdrop]
  congr 2
  omega

theorem leading (h : BeforeRound l vn un j) (hvn : IsDivisor l vn) :
    exists un0 un1 un2, un[j + vn.length]? = some un0 ∧
      un[j + vn.length - 1]? = some un1 ∧ un[j + vn.length - 2]? = some un2 ∧
      un1 < base l ∧ un2 < base l ∧
      Nat.ofDigits (base l) (un.drop (j + vn.length)) = un0 ∧
      Nat.ofDigits (base l) (un.drop (j + vn.length - 2)) =
        un2 + base l * (un1 + base l * un0) := by
  have htwo := hvn.two_le
  have h0 : j + vn.length < un.length := h.length
  have h1 : j + vn.length - 1 < un.length := by omega
  have h2 : j + vn.length - 2 < un.length := by omega
  have htop : Nat.ofDigits (base l) (un.drop (j + vn.length)) = un[j + vn.length] := by
    rw [List.drop_eq_getElem_cons h0, Nat.ofDigits_cons, h.beyond hvn.limbs, Nat.mul_zero,
      Nat.add_zero]
  refine ⟨un[j + vn.length], un[j + vn.length - 1], un[j + vn.length - 2],
    List.getElem?_eq_getElem h0, List.getElem?_eq_getElem h1, List.getElem?_eq_getElem h2,
    h.limbs _ (List.getElem_mem h1), h.limbs _ (List.getElem_mem h2), htop, ?_⟩
  rw [List.drop_eq_getElem_cons h2, Nat.ofDigits_cons,
    show j + vn.length - 2 + 1 = j + vn.length - 1 by omega,
    List.drop_eq_getElem_cons h1, Nat.ofDigits_cons,
    show j + vn.length - 1 + 1 = j + vn.length by omega, htop]

end BeforeRound

/-- The quotient of the leading limbs, if it is a limb. -/
def leadingQuotient (l : Nat) (vn un : List Nat) (j : Nat) : Nat :=
  min (Nat.ofDigits (base l) (un.drop (j + vn.length - 2)) /
    Nat.ofDigits (base l) (vn.drop (vn.length - 2))) (maxLimb l)

theorem estimate_spec {vn un : List Nat} {j : Nat} (hvn : IsDivisor l vn)
    (hun : BeforeRound l vn un j) :
    estimate l vn un j = some (leadingQuotient l vn un j) := by
  rcases hvn.leading with ⟨vn1, vn2, hvn1, hvn2, hvn1lt, hvn2lt, hpos, htop, htwo⟩
  rcases hun.leading hvn with ⟨un0, un1, un2, hun0, hun1, hun2, hun1lt, hun2lt, habove, hthree⟩
  have hun0le : un0 <= vn1 := by
    have hdiv := Nat.div_le_div_right (c := base l ^ (vn.length - 1)) hun.above.le
    rw [<- value_drop (hun.limbs.drop (j + 1)), <- value_drop hvn.limbs,
      List.drop_drop, htop, Nat.ofDigits_singleton,
      show j + 1 + (vn.length - 1) = j + vn.length by have := hvn.two_le; omega,
      habove] at hdiv
    exact hdiv
  have hN : un1 + base l * un0 < base l * (vn1 + 1) := by
    have := Nat.mul_le_mul_left (base l) hun0le
    rw [Nat.mul_succ]
    omega
  have hofl : dlimb l (un0 <<< limbBitLength l) ||| un1 = un1 + base l * un0 :=
    dlimb_shift_or (Nat.lt_of_le_of_lt hun0le hvn1lt) hun1lt
  have hle : (un2 + base l * (un1 + base l * un0)) / (vn2 + base l * vn1) <=
      (un1 + base l * un0) / vn1 := by
    have hdiv : (vn2 + base l * vn1) / base l = vn1 := by
      rw [Nat.add_mul_div_left _ _ (base_pos l), Nat.div_eq_of_lt hvn2lt, Nat.zero_add]
    have h := div_le_leading (P := base l) (V := vn2 + base l * vn1)
      (W := un2 + base l * (un1 + base l * un0)) (by rw [hdiv]; exact hpos)
    rw [hdiv, Nat.add_mul_div_left _ _ (base_pos l), Nat.div_eq_of_lt hun2lt, Nat.zero_add] at h
    exact h
  unfold leadingQuotient
  rw [htwo, hthree, Nat.ofDigits_cons, Nat.ofDigits_singleton,
    <- lowerLoop_spec hvn1lt hvn2lt hun2lt hpos hN ((Nat.mod_lt _ hpos).trans hvn1lt)
      (Nat.div_add_mod' _ _) ((Nat.min_le_left _ _).trans hle)]
  simp only [estimate, hvn1, hvn2, hun0, hun1, hun2, hofl, Option.bind_eq_bind,
    Option.bind_some, if_neg hpos.ne', Option.pure_def]

theorem leadingQuotient_spec {vn un : List Nat} {j : Nat} (hvn : IsDivisor l vn)
    (hun : BeforeRound l vn un j) :
    let digit := Nat.ofDigits (base l) (un.drop j) / Nat.ofDigits (base l) vn
    digit <= leadingQuotient l vn un j ∧ leadingQuotient l vn un j <= digit + 1 ∧
      leadingQuotient l vn un j < base l := by
  intro digit
  have htwo := hvn.two_le
  have hP : 0 < base l ^ (vn.length - 2) := Nat.pow_pos (base_pos l)
  have hmax : maxLimb l + 1 = base l := Nat.sub_add_cancel (base_pos l)
  have hV : base l * base l ^ (vn.length - 2) <= Nat.ofDigits (base l) vn := by
    rw [<- Nat.pow_succ', show (vn.length - 2).succ = vn.length - 1 by omega]
    exact hvn.value_ge
  have hlead : 0 < Nat.ofDigits (base l) vn / base l ^ (vn.length - 2) :=
    Nat.div_pos ((Nat.le_mul_of_pos_left _ (base_pos l)).trans hV) hP
  have hdigit : digit < base l := Nat.div_lt_of_lt_mul (by
    rw [Nat.mul_comm]
    exact hun.window_lt)
  have hwindow : Nat.ofDigits (base l) (un.drop (j + vn.length - 2)) =
      Nat.ofDigits (base l) (un.drop j) / base l ^ (vn.length - 2) := by
    rw [<- value_drop (hun.limbs.drop j), List.drop_drop,
      show j + (vn.length - 2) = j + vn.length - 2 by omega]
  have hbound : leadingQuotient l vn un j < base l := by
    unfold leadingQuotient
    omega
  refine ⟨?_, ?_, hbound⟩
  · unfold leadingQuotient
    rw [hwindow, value_drop hvn.limbs]
    have hle := div_le_leading (W := Nat.ofDigits (base l) (un.drop j)) hlead
    exact Nat.le_min.mpr ⟨hle, by omega⟩
  · apply leading_le_succ hP hbound hV
    apply (Nat.le_div_iff_mul_le hlead).mp
    rw [<- hwindow, <- value_drop hvn.limbs]
    exact Nat.min_le_left _ _

end Ubint

end BigInteger
end Core
end OpenFHE
