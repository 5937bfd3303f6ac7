import OpenFHE.Core.BigInteger.DivisionRounds
import OpenFHE.Core.BigInteger.RingOperations

/-!
# Long division of big integers

The rounds divide the shifted dividend by the shifted divisor.  The quotient is that
of the operands, and the remainder is shifted by as much as they are.
-/

namespace OpenFHE
namespace Core
namespace BigInteger

open NativeInteger
open Foundation

namespace Ubint

variable {l : Nat}

/-!
## Rounds
-/

/-- The round computes the digit, by an estimate that fits in a limb. -/
structure ExactRound (l : Nat) (vn un : List Nat) (j : Nat) : Prop where
  estimate : estimate l vn un j = some (leadingQuotient l vn un j)
  fits : leadingQuotient l vn un j < base l
  digit : exists rest, divideRound l vn un j =
    some (Nat.ofDigits (base l) (un.drop j) / Nat.ofDigits (base l) vn, rest)

/-- Every round from `j - 1` down is exact. -/
def ExactRounds (l : Nat) (vn : List Nat) : Nat -> List Nat -> Prop
  | 0, _ => True
  | j + 1, un => ExactRound l vn un j ∧
      forall round, divideRound l vn un j = some round -> ExactRounds l vn j round.2

theorem quotientLoop_spec {vn un : List Nat} {j : Nat} (hl : 0 < l) (hvn : IsDivisor l vn)
    (hun : IsLimbs (base l) un) (hlen : j + vn.length <= un.length)
    (habove : Nat.ofDigits (base l) (un.drop j) < Nat.ofDigits (base l) vn) (q : List Nat) :
    ExactRounds l vn j un ∧
      exists digits r, quotientLoop l vn j un q = some (digits ++ q, r) ∧
        Nat.ofDigits (base l) un =
          Nat.ofDigits (base l) vn * Nat.ofDigits (base l) digits + Nat.ofDigits (base l) r ∧
        Nat.ofDigits (base l) r < Nat.ofDigits (base l) vn ∧
        IsLimbs (base l) digits ∧ digits.length = j ∧
        IsLimbs (base l) r ∧ r.length = un.length := by
  induction j generalizing un q with
  | zero =>
      refine ⟨trivial, [], un, rfl, ?_, habove, IsLimbs.nil, rfl, hun, rfl⟩
      rw [Nat.ofDigits_nil, Nat.mul_zero, Nat.zero_add]
  | succ j ih =>
      have hround : BeforeRound l vn un j := ⟨hun, by omega, habove⟩
      rcases leadingQuotient_spec hvn hround with ⟨hge, -, hfits⟩
      rcases divideRound_spec hl hvn hround with ⟨w, hw, hwvalue, hwlimbs, hwlen⟩
      have hdrop : (un.take j ++ w).drop j = w := by
        rw [List.drop_append_of_le_length (by rw [List.length_take]; omega),
          List.drop_eq_nil_of_le (List.length_take_le j un), List.nil_append]
      have hnextlen : (un.take j ++ w).length = un.length := by
        rw [List.length_append, List.length_take, hwlen]
        omega
      rcases ih ((hun.take j).append hwlimbs) (by rw [hnextlen]; omega)
        (by rw [hdrop, hwvalue]; exact Nat.mod_lt _ hvn.value_pos)
        (Nat.ofDigits (base l) (un.drop j) / Nat.ofDigits (base l) vn :: q) with
        ⟨hrounds, digits, r, hloop, hvalue, hlt, hdigits, hdigitslen, hr, hrlen⟩
      constructor
      · refine ⟨⟨estimate_spec hvn hround, hfits, _, hw⟩, fun round hsome => ?_⟩
        rw [hw] at hsome
        cases hsome
        exact hrounds
      · refine ⟨digits ++ [Nat.ofDigits (base l) (un.drop j) / Nat.ofDigits (base l) vn], r, ?_,
          ?_, hlt, hdigits.append (IsLimbs.cons (Nat.lt_of_le_of_lt hge hfits) IsLimbs.nil),
          by simp [hdigitslen], hr, hrlen.trans hnextlen⟩
        · rw [quotientLoop, hw]
          simp only [Option.bind_eq_bind, Option.bind_some, hloop]
          rw [List.append_assoc, List.singleton_append]
        · have hwindow := Nat.div_add_mod (Nat.ofDigits (base l) (un.drop j))
            (Nat.ofDigits (base l) vn)
          have hlow : (un.take j).length = j := by
            rw [List.length_take]
            omega
          have hsplit : Nat.ofDigits (base l) un = Nat.ofDigits (base l) (un.take j) +
              base l ^ j * Nat.ofDigits (base l) (un.drop j) := by
            conv_lhs => rw [<- List.take_append_drop j un]
            rw [Nat.ofDigits_append, hlow]
          rw [Nat.ofDigits_append, hlow, hwvalue] at hvalue
          rw [hsplit, Nat.ofDigits_append, Nat.ofDigits_singleton, hdigitslen]
          linear_combination hvalue - base l ^ j * hwindow

theorem remainderLoop_eq (vn : List Nat) (j : Nat) (un q : List Nat) :
    remainderLoop l vn j un = (quotientLoop l vn j un q).map Prod.snd := by
  induction j generalizing un q with
  | zero => rfl
  | succ j ih =>
      rw [remainderLoop, quotientLoop]
      cases divideRound l vn un j with
      | none => rfl
      | some round => exact ih round.2 (round.1 :: q)

/-!
## Normalization
-/

theorem shortLoop_spec {u : List Nat} {v : Nat} (hu : IsLimbs (base l) u) (hpos : 0 < v)
    (hv : v < base l) :
    Nat.ofDigits (base l) u =
        v * Nat.ofDigits (base l) (shortLoop l v u).1 + (shortLoop l v u).2 ∧
      (shortLoop l v u).2 < v ∧ IsLimbs (base l) (shortLoop l v u).1 ∧
      (shortLoop l v u).1.length = u.length := by
  induction u with
  | nil => exact ⟨rfl, hpos, IsLimbs.nil, rfl⟩
  | cons x u ih =>
      rcases ih hu.tail with ⟨hvalue, hlt, hlimbs, hlen⟩
      have hofl : dlimb l ((shortLoop l v u).2 <<< limbBitLength l) ||| x =
          x + base l * (shortLoop l v u).2 := dlimb_shift_or (hlt.trans hv) hu.head
      have hdigit : (x + base l * (shortLoop l v u).2) / v < base l := by
        have hx := hu.head
        have hmul := Nat.mul_le_mul_left (base l) hlt
        rw [Nat.mul_succ] at hmul
        apply Nat.div_lt_of_lt_mul
        rw [Nat.mul_comm v]
        omega
      have hlimb : limb l ((x + base l * (shortLoop l v u).2) / v) =
          (x + base l * (shortLoop l v u).2) / v := Nat.mod_eq_of_lt hdigit
      have hdiv := Nat.div_add_mod (x + base l * (shortLoop l v u).2) v
      simp only [shortLoop, hofl, hlimb]
      refine ⟨?_, Nat.mod_lt _ hpos, IsLimbs.cons hdigit hlimbs, by simp [hlen]⟩
      rw [Nat.ofDigits_cons, Nat.ofDigits_cons]
      linear_combination base l * hvalue - hdiv

theorem getMSB_le {x : Nat} (hx : x < base l) : getMSB x <= limbBitLength l := by
  rw [getMSB_eq_size]
  exact Nat.size_le.mpr hx

theorem normalShift_le (v : List Nat) : normalShift l v <= limbBitLength l :=
  Nat.sub_le _ _

theorem normalDivisor_spec {v : List Nat} (hv : IsDivisor l v) :
    Nat.ofDigits (base l) (normalDivisor l v) =
        2 ^ normalShift l v * Nat.ofDigits (base l) v ∧
      IsDivisor l (normalDivisor l v) ∧ (normalDivisor l v).length = v.length := by
  rcases shiftLoop_spec hv.limbs (normalShift_le v) (Nat.two_pow_pos _) with
    ⟨hvalue, -, hlimbs, hlen⟩
  have hbits : normalShift l v + Nat.size (Nat.ofDigits (base l) v) =
      limbBitLength l * v.length := by
    have hlast : v.getLastD 0 < base l := by
      rw [List.getLastD_eq_getLast?, List.getLast?_eq_some_getLast hv.nonempty]
      exact hv.limbs _ (List.getLast_mem hv.nonempty)
    have htwo := hv.two_le
    have hmsb := getMSB_le hlast
    rw [<- bitLength_eq hv.limbs hv.nonempty fun _ => hv.top, normalShift,
      show v.length = v.length - 1 + 1 by omega, Nat.mul_succ]
    simp only [Nat.add_sub_cancel]
    omega
  have hfits : 2 ^ normalShift l v * Nat.ofDigits (base l) v < base l ^ v.length := by
    rw [base_pow, <- hbits, Nat.pow_add]
    exact Nat.mul_lt_mul_of_pos_left (Nat.lt_size_self _) (Nat.two_pow_pos _)
  have hcarry : (shiftLoop l (normalShift l v) v 0).2 = 0 := by
    by_contra hne
    have hle := Nat.le_mul_of_pos_right (base l ^ v.length) (Nat.pos_of_ne_zero hne)
    omega
  rw [hcarry, Nat.mul_zero, Nat.add_zero, Nat.zero_add] at hvalue
  have htwo := hv.two_le
  refine ⟨hvalue, ⟨hlimbs, hlen ▸ htwo, ?_⟩, hlen⟩
  have hne : (shiftLoop l (normalShift l v) v 0).1 ≠ [] := fun h => by
    rw [h, List.length_nil] at hlen
    omega
  apply (getLastD_ne_zero_iff (one_lt_base l) hlimbs hne).mpr
  rw [hlen, hvalue]
  exact hv.value_ge.trans (Nat.le_mul_of_pos_left _ (Nat.two_pow_pos _))

theorem normalDividend_spec {u : List Nat} (hu : IsLimbs (base l) u) (v : List Nat) :
    Nat.ofDigits (base l) (normalDividend l u v) =
        2 ^ normalShift l v * Nat.ofDigits (base l) u ∧
      IsLimbs (base l) (normalDividend l u v) ∧
      (normalDividend l u v).length = u.length + 1 := by
  rcases shiftLoop_spec hu (normalShift_le v) (Nat.two_pow_pos _) with
    ⟨hvalue, hcarry, hlimbs, hlen⟩
  have hlimb : (shiftLoop l (normalShift l v) u 0).2 < base l :=
    hcarry.trans_le (Nat.pow_le_pow_right (by decide) (normalShift_le v))
  have hlast : limb l (shiftLoop l (normalShift l v) u 0).2 =
      (shiftLoop l (normalShift l v) u 0).2 := Nat.mod_eq_of_lt hlimb
  simp only [normalDividend, hlast]
  refine ⟨?_, hlimbs.append (IsLimbs.cons hlimb IsLimbs.nil), by simp [hlen]⟩
  rw [Nat.ofDigits_append, Nat.ofDigits_singleton, hlen, hvalue, Nat.zero_add]

theorem shiftBack_spec {un : List Nat} {sl n : Nat} (hsl : sl <= limbBitLength l)
    (hun : IsLimbs (base l) un) (hn : 2 <= n) (hlen : n <= un.length)
    (hlt : Nat.ofDigits (base l) un < base l ^ n) :
    exists r, shiftBack l sl n un = some r ∧ IsLimbs (base l) r ∧ r ≠ [] ∧
      Nat.ofDigits (base l) r = Nat.ofDigits (base l) un >>> sl := by
  have hvlimbs := hun.take n
  have hvlen : (un.take n).length = n := by
    rw [List.length_take]
    omega
  have hvalue : Nat.ofDigits (base l) (un.take n) = Nat.ofDigits (base l) un := by
    rw [<- Nat.ofDigits_mod_pow_eq_ofDigits_take n (base_pos l) un hun, Nat.mod_eq_of_lt hlt]
  have hfirst : un[0]? = (un.take n)[0]? := by
    rw [List.getElem?_take, if_pos (by omega)]
  have hlast : un[n - 1]? = (un.take n)[n - 1]? := by
    rw [List.getElem?_take, if_pos (by omega)]
  have hrest : (un.drop 1).take (n - 1) = (un.take n).drop 1 := by
    rw [List.drop_take]
  unfold shiftBack
  rw [hfirst, hlast, hrest, <- hvalue]
  revert hvlimbs hvlen
  generalize un.take n = v
  intro hvlimbs hvlen
  rcases List.eq_nil_or_concat' v with rfl | ⟨low, top, rfl⟩
  · exact absurd hvlen (by simp; omega)
  cases low with
  | nil => exact absurd hvlen (by simp; omega)
  | cons first low =>
      have hmid : first >>> sl < 2 ^ (limbBitLength l - sl) := by
        rw [Nat.shiftRight_eq_div_pow]
        apply Nat.div_lt_of_lt_mul
        rw [<- Nat.pow_add, Nat.add_sub_cancel' hsl]
        exact hvlimbs.head
      have htop : top >>> sl < base l :=
        Nat.lt_of_le_of_lt (Nat.shiftRight_le top sl) (hvlimbs _ (by simp))
      have htail : IsLimbs (base l) (low ++ [top]) := hvlimbs.tail
      have hdrop : (first :: low ++ [top]).drop 1 = low ++ [top] := rfl
      have hshift := value_shiftRight (k := 0) hvlimbs (by simp) hsl
      have hcarry := shiftLoop_carry htail (Nat.sub_le _ sl) hmid
      rcases shiftLoop_spec htail (Nat.sub_le _ sl) hmid with
        ⟨hloop, -, hlimbs, hlooplen⟩
      have hindex : n - 1 = (first :: low).length := by
        rw [List.length_append, List.length_singleton] at hvlen
        omega
      have hfirst : (first :: low ++ [top])[0]? = some first := rfl
      have hlast : (first :: low ++ [top])[n - 1]? = some top := by
        rw [hindex, List.getElem?_concat_length]
      have hsub : limbBitLength l - (limbBitLength l - sl) = sl := Nat.sub_sub_self hsl
      simp only [hfirst, hlast, hdrop, Option.bind_eq_bind, Option.bind_some, Option.pure_def]
      refine ⟨_, rfl, hlimbs.append (IsLimbs.cons htop IsLimbs.nil), by simp, ?_⟩
      rw [hsub] at hcarry
      rw [Nat.mul_zero, Nat.zero_add] at hshift
      rw [Nat.ofDigits_append, Nat.ofDigits_singleton, hlooplen, <- hcarry, hshift]
      exact hloop

/-!
## Routines
-/

theorem Valid.isDivisor {v : Ubint} (hv : Valid l v) (hlen : 1 < v.value.length) :
    IsDivisor l v.value :=
  ⟨hv.limbs, hlen, hv.top hlen⟩

theorem Valid.fits_of_le {u : Ubint} (hu : Valid l u) {n : Nat} (hle : n <= u.toNat l) :
    Nat.size n < maxMSB := by
  have hfits := hu.fits
  rw [hu.bitLength] at hfits
  exact Nat.lt_of_le_of_lt (Nat.size_le_size hle) hfits

theorem rounds_spec {u v : Ubint} (hl : 0 < l) (hu : Valid l u) (hv : Valid l v)
    (hlen : 1 < v.value.length) (hle : v.value.length <= u.value.length) :
    ExactRounds l (normalDivisor l v.value) (u.value.length - v.value.length + 1)
        (normalDividend l u.value v.value) ∧
      exists digits un r,
        quotientLoop l (normalDivisor l v.value) (u.value.length - v.value.length + 1)
            (normalDividend l u.value v.value) [] = some (digits, un) ∧
          shiftBack l (normalShift l v.value) v.value.length un = some r ∧
          IsLimbs (base l) digits ∧ digits ≠ [] ∧
          Nat.ofDigits (base l) digits = u.toNat l / v.toNat l ∧
          IsLimbs (base l) r ∧ r ≠ [] ∧ Nat.ofDigits (base l) r = u.toNat l % v.toNat l := by
  rcases normalDivisor_spec (hv.isDivisor hlen) with ⟨hvn, hdivisor, hvnlen⟩
  rcases normalDividend_spec hu.limbs v.value with ⟨hun, hunlimbs, hunlen⟩
  have hscale : 0 < 2 ^ normalShift l v.value := Nat.two_pow_pos _
  have habove : Nat.ofDigits (base l) ((normalDividend l u.value v.value).drop
      (u.value.length - v.value.length + 1)) <
      Nat.ofDigits (base l) (normalDivisor l v.value) := by
    rw [value_drop hunlimbs, hun, hvn]
    apply Nat.div_lt_of_lt_mul
    have hbound := hu.limbs.value_lt (one_lt_base l)
    have htop := (hv.isDivisor hlen).value_ge
    calc
      2 ^ normalShift l v.value * Nat.ofDigits (base l) u.value <
          2 ^ normalShift l v.value * base l ^ u.value.length :=
        Nat.mul_lt_mul_of_pos_left hbound hscale
      _ = 2 ^ normalShift l v.value * (base l ^ (u.value.length - v.value.length + 1) *
          base l ^ (v.value.length - 1)) := by
        rw [<- Nat.pow_add]
        congr 2
        omega
      _ <= 2 ^ normalShift l v.value * (base l ^ (u.value.length - v.value.length + 1) *
          Nat.ofDigits (base l) v.value) :=
        Nat.mul_le_mul_left _ (Nat.mul_le_mul_left _ htop)
      _ = _ := by ring
  rcases quotientLoop_spec hl hdivisor hunlimbs (by rw [hunlen, hvnlen]; omega) habove [] with
    ⟨hrounds, digits, un, hloop, hvalue, hlt, hdigits, hdigitslen, hunlast, hunlastlen⟩
  have hmodEq : Nat.ofDigits (base l) un =
      2 ^ normalShift l v.value * (u.toNat l % v.toNat l) := by
    rw [hun, hvn] at hvalue
    rw [hvn] at hlt
    rw [<- Nat.mul_mod_mul_left]
    have h := congrArg (· % (2 ^ normalShift l v.value * v.toNat l)) hvalue
    simp only [toNat] at h ⊢
    rw [h, Nat.mul_add_mod, Nat.mod_eq_of_lt hlt]
  have hdivEq : Nat.ofDigits (base l) digits = u.toNat l / v.toNat l := by
    rw [hun, hvn] at hvalue
    rw [hvn] at hlt
    rw [<- Nat.mul_div_mul_left (u.toNat l) (v.toNat l) hscale]
    have h := congrArg (· / (2 ^ normalShift l v.value * v.toNat l)) hvalue
    simp only [toNat] at h ⊢
    rw [h, Nat.mul_add_div (Nat.pos_of_ne_zero fun hz => by omega), Nat.div_eq_of_lt hlt,
      Nat.add_zero]
  have hunfits : Nat.ofDigits (base l) un < base l ^ v.value.length :=
    hlt.trans (hvnlen ▸ hdivisor.limbs.value_lt (one_lt_base l))
  rcases shiftBack_spec (normalShift_le v.value) hunlast hlen
    (by rw [hunlastlen, hunlen]; omega) hunfits with ⟨r, hr, hrlimbs, hrne, hrvalue⟩
  refine ⟨hrounds, digits, un, r, ?_, hr, hdigits, ?_, hdivEq, hrlimbs, hrne, ?_⟩
  · rw [hloop, List.append_nil]
  · intro hnil
    rw [hnil] at hdigitslen
    exact absurd hdigitslen (by simp)
  · rw [hrvalue, hmodEq, Nat.shiftRight_eq_div_pow, Nat.mul_div_cancel_left _ hscale]

/-- What the three routines return, together and apart. -/
structure Routines (l : Nat) (u v : Ubint) (q r : Ubint) : Prop where
  divqr : divqrVect l u v = some (q, r)
  divq : divqVect l u v = some q
  divr : divrVect l u v = some r
  quotient : Denotes l q (u.toNat l / v.toNat l)
  remainder : Denotes l r (u.toNat l % v.toNat l)

theorem routines_short {u v : Ubint} {v0 : Nat} (hu : Valid l u) (hv : Valid l v)
    (hvalue : v.value = [v0]) (hpos : v0 ≠ 0) :
    exists q r, Routines l u v q r := by
  have hv0 : v.toNat l = v0 := by
    rw [toNat, hvalue, Nat.ofDigits_singleton]
  have hlimb : v0 < base l := hv.limbs v0 (hvalue ▸ List.mem_singleton_self v0)
  rcases shortLoop_spec hu.limbs (Nat.pos_of_ne_zero hpos) hlimb with
    ⟨hshort, hlt, hlimbs, hlen⟩
  have hrest : limb l (shortLoop l v0 u.value).2 = (shortLoop l v0 u.value).2 :=
    Nat.mod_eq_of_lt (hlt.trans hlimb)
  have hdiv : Nat.ofDigits (base l) (shortLoop l v0 u.value).1 = u.toNat l / v0 := by
    rw [toNat, hshort, Nat.mul_add_div (Nat.pos_of_ne_zero hpos), Nat.div_eq_of_lt hlt,
      Nat.add_zero]
  have hmod : (shortLoop l v0 u.value).2 = u.toNat l % v0 := by
    rw [toNat, hshort, Nat.mul_add_mod, Nat.mod_eq_of_lt hlt]
  have hne : (shortLoop l v0 u.value).1 ≠ [] := by
    have := hu.length_pos
    intro hnil
    rw [hnil, List.length_nil] at hlen
    omega
  have hq := ofLimbs_spec hlimbs hne (by rw [hdiv]; exact hu.fits_of_le (Nat.div_le_self _ _))
  have hr := ofLimb_valid (hlt.trans hlimb)
    (by rw [hmod]; exact hu.fits_of_le (Nat.mod_le _ _))
  refine ⟨ofLimbs l (shortLoop l v0 u.value).1, ofLimb (shortLoop l v0 u.value).2, ?_, ?_, ?_,
    ⟨hq.1, ?_⟩, ⟨hr, ?_⟩⟩
  · simp only [divqrVect, hvalue, if_neg hpos, hrest]
  · simp only [divqVect, hvalue, if_neg hpos]
  · simp only [divrVect, hvalue, if_neg hpos, hrest]
  · rw [hq.2, hv0, hdiv]
  · rw [toNat_ofLimb, hv0, hmod]

theorem routines_long {u v : Ubint} (hl : 0 < l) (hu : Valid l u) (hv : Valid l v)
    (hlen : 1 < v.value.length) (hle : v.value.length <= u.value.length) :
    exists q r, Routines l u v q r := by
  rcases rounds_spec hl hu hv hlen hle with
    ⟨-, digits, un, r, hloop, hback, hdigits, hdigitsne, hq, hr, hrne, hrvalue⟩
  have hremainder := remainderLoop_eq (l := l) (normalDivisor l v.value)
    (u.value.length - v.value.length + 1) (normalDividend l u.value v.value) []
  rw [hloop] at hremainder
  have hqspec := ofLimbs_spec hdigits hdigitsne
    (by rw [hq]; exact hu.fits_of_le (Nat.div_le_self _ _))
  have hrspec := ofLimbs_spec hr hrne
    (by rw [hrvalue]; exact hu.fits_of_le (Nat.mod_le _ _))
  have hsplit : exists v0 v1 rest, v.value = v0 :: v1 :: rest := by
    rcases hcases : v.value with _ | ⟨v0, _ | ⟨v1, rest⟩⟩
    · exact absurd hlen (by simp [hcases])
    · exact absurd hlen (by simp [hcases])
    · exact ⟨v0, v1, rest, rfl⟩
  rcases hsplit with ⟨v0, v1, rest, hvalue⟩
  rw [hvalue] at hloop hback hremainder hle
  have hnot := not_lt.mpr hle
  refine ⟨ofLimbs l digits, ofLimbs l r, ?_, ?_, ?_, ⟨hqspec.1, hqspec.2.trans hq⟩,
    ⟨hrspec.1, hrspec.2.trans hrvalue⟩⟩
  · simp only [divqrVect, hvalue, if_neg hnot, hloop, hback, Option.bind_eq_bind,
      Option.bind_some, Option.pure_def]
  · simp only [divqVect, hvalue, if_neg hnot, hloop, Option.bind_eq_bind, Option.bind_some,
      Option.pure_def]
  · simp only [divrVect, hvalue, if_neg hnot, hremainder, hback, Option.map_some,
      Option.bind_eq_bind, Option.bind_some, Option.pure_def]

theorem routines_spec {u v : Ubint} (hl : 0 < l) (hu : Valid l u) (hv : Valid l v)
    (hpos : 0 < v.toNat l) (hle : v.value.length <= u.value.length) :
    exists q r, Routines l u v q r := by
  by_cases hlen : 1 < v.value.length
  · exact routines_long hl hu hv hlen hle
  · have hone : v.value.length = 1 := by
      have := hv.length_pos
      omega
    rcases List.length_eq_one_iff.mp hone with ⟨v0, hvalue⟩
    apply routines_short hu hv hvalue
    rintro rfl
    rw [toNat, hvalue, Nat.ofDigits_singleton] at hpos
    exact Nat.lt_irrefl 0 hpos

end Ubint

end BigInteger
end Core
end OpenFHE
