import OpenFHE.Core.BigInteger.Ubint
import OpenFHE.Foundation.Limbs

/-!
# Normalized big integers

The value of a `ubint` and its representation invariant.  The constructor from a
vector of limbs establishes the invariant, and `Compare` decides the order of the
values by it.
-/

namespace OpenFHE
namespace Core
namespace BigInteger

open NativeInteger
open Foundation

def base (l : Nat) : Nat := 2 ^ limbBitLength l

/-- The bits that a `usint` can count. -/
def maxMSB : Nat := 2 ^ 32

theorem limbBitLength_pos (l : Nat) : 0 < limbBitLength l :=
  Nat.two_pow_pos l

theorem one_lt_base (l : Nat) : 1 < base l :=
  Nat.one_lt_two_pow (limbBitLength_pos l).ne'

theorem base_pos (l : Nat) : 0 < base l :=
  Nat.two_pow_pos _

theorem base_pow (l k : Nat) : base l ^ k = 2 ^ (limbBitLength l * k) := by
  rw [base, Nat.pow_mul]

theorem limb_eq (l x : Nat) : limb l x = x % base l := rfl

theorem limb_lt (l x : Nat) : limb l x < base l :=
  Nat.mod_lt _ (base_pos l)

theorem dlimb_of_lt {l x : Nat} (h : x < base l * base l) : dlimb l x = x := by
  apply Nat.mod_eq_of_lt
  rwa [Nat.two_mul, Nat.pow_add]

theorem limb_add_shift (l x : Nat) : limb l x + base l * (x >>> limbBitLength l) = x := by
  rw [limb_eq, Nat.shiftRight_eq_div_pow]
  exact Nat.mod_add_div x (base l)

theorem shift_lt {l x k : Nat} (h : x < base l * k) : x >>> limbBitLength l < k := by
  rw [Nat.shiftRight_eq_div_pow]
  exact Nat.div_lt_of_lt_mul h

theorem getMSB_eq_size (x : Nat) : getMSB x = Nat.size x := by
  unfold getMSB
  by_cases hx : x = 0
  · rw [if_pos hx, hx, Nat.size_zero]
  · rw [if_neg hx]
    apply Nat.le_antisymm
    · exact Nat.lt_size.mpr (Nat.log2_self_le hx)
    · exact Nat.size_le.mpr Nat.lt_log2_self

namespace Ubint

variable {l : Nat}

def toNat (l : Nat) (x : Ubint) : Nat := Nat.ofDigits (base l) x.value

/-- The representation invariant. -/
structure Valid (l : Nat) (x : Ubint) : Prop where
  limbs : IsLimbs (base l) x.value
  nonempty : x.value ≠ []
  top : 1 < x.value.length -> x.value.getLastD 0 ≠ 0
  bitLength : x.msb = Nat.size (x.toNat l)
  fits : x.msb < maxMSB

namespace Valid

variable {x y : Ubint}

theorem length_pos (h : Valid l x) : 0 < x.value.length :=
  List.length_pos_of_ne_nil h.nonempty

theorem msb_le (h : Valid l x) : x.msb <= limbBitLength l * x.value.length := by
  rw [h.bitLength, Nat.size_le, <- base_pow]
  exact h.limbs.value_lt (one_lt_base l)

theorem top_le (h : Valid l x) (hpos : 0 < x.msb) :
    base l ^ (x.value.length - 1) <= x.toNat l := by
  by_cases hlen : 1 < x.value.length
  · exact (getLastD_ne_zero_iff (one_lt_base l) h.limbs h.nonempty).mp (h.top hlen)
  · rw [h.bitLength] at hpos
    have hzero : x.value.length - 1 = 0 := by omega
    rw [hzero, Nat.pow_zero]
    exact Nat.size_pos.mp hpos

theorem msb_pos (h : Valid l x) (hlen : 1 < x.value.length) : 0 < x.msb := by
  rw [h.bitLength, Nat.size_pos]
  have hle := (getLastD_ne_zero_iff (one_lt_base l) h.limbs h.nonempty).mp (h.top hlen)
  exact Nat.lt_of_lt_of_le (Nat.pow_pos (base_pos l)) hle

theorem lt_msb (h : Valid l x) (hlen : 1 < x.value.length) :
    limbBitLength l * (x.value.length - 1) < x.msb := by
  rw [h.bitLength, Nat.lt_size, <- base_pow]
  exact h.top_le (h.msb_pos hlen)

theorem msb_lt_of_length_lt (hx : Valid l x) (hy : Valid l y)
    (hlt : x.value.length < y.value.length) : x.msb < y.msb := by
  have hpos := hx.length_pos
  calc
    x.msb <= limbBitLength l * x.value.length := hx.msb_le
    _ <= limbBitLength l * (y.value.length - 1) := Nat.mul_le_mul_left _ (by omega)
    _ < y.msb := hy.lt_msb (by omega)

theorem length_eq_of_msb_eq (hx : Valid l x) (hy : Valid l y) (heq : x.msb = y.msb) :
    x.value.length = y.value.length := by
  rcases Nat.lt_trichotomy x.value.length y.value.length with hlt | hsame | hgt
  · exact absurd (hx.msb_lt_of_length_lt hy hlt) (by omega)
  · exact hsame
  · exact absurd (hy.msb_lt_of_length_lt hx hgt) (by omega)

theorem toNat_lt_of_msb_lt (hx : Valid l x) (hy : Valid l y) (hlt : x.msb < y.msb) :
    x.toNat l < y.toNat l := by
  rw [hx.bitLength, hy.bitLength] at hlt
  by_contra hge
  exact absurd (Nat.size_le_size (not_lt.mp hge)) (by omega)

theorem msb_eq_zero_iff (h : Valid l x) : x.msb = 0 <-> x.toNat l = 0 := by
  rw [h.bitLength, Nat.size_eq_zero]

end Valid

theorem zero_valid (l : Nat) : Valid l zero := by
  constructor
  · exact IsLimbs.cons (base_pos l) IsLimbs.nil
  · exact List.cons_ne_nil 0 []
  · intro h
    exact absurd h (by decide)
  · rfl
  · exact Nat.two_pow_pos 32

@[simp] theorem toNat_zero (l : Nat) : zero.toNat l = 0 := rfl

theorem ofLimb_valid {v : Nat} (hv : v < base l) (hsize : Nat.size v < maxMSB) :
    Valid l (ofLimb v) := by
  have hvalue : (ofLimb v).toNat l = v := Nat.ofDigits_singleton
  constructor
  · exact IsLimbs.cons hv IsLimbs.nil
  · exact List.cons_ne_nil v []
  · intro h
    exact absurd h (by simp [ofLimb])
  · rw [hvalue]
    exact getMSB_eq_size v
  · exact (getMSB_eq_size v).trans_lt hsize

@[simp] theorem toNat_ofLimb (l v : Nat) : (ofLimb v).toNat l = v :=
  Nat.ofDigits_singleton

/-!
## Normalization
-/

theorem popZeros_spec {v : List Nat} (hv : v ≠ []) :
    exists k, v = List.replicate k 0 ++ popZeros v ∧ popZeros v ≠ [] ∧
      (1 < (popZeros v).length -> (popZeros v).headD 0 ≠ 0) := by
  induction v with
  | nil => exact absurd rfl hv
  | cons x v ih =>
      cases v with
      | nil => exact ⟨0, rfl, List.cons_ne_nil x [], fun h => absurd h (by simp [popZeros])⟩
      | cons y xs =>
          by_cases hx : x = 0
          · rcases ih (List.cons_ne_nil y xs) with ⟨k, hsplit, hne, htop⟩
            have hpop : popZeros (x :: y :: xs) = popZeros (y :: xs) := by
              rw [popZeros, if_pos hx]
            rw [hpop]
            refine ⟨k + 1, ?_, hne, htop⟩
            rw [hx, List.replicate_succ, List.cons_append, <- hsplit]
          · have hpop : popZeros (x :: y :: xs) = x :: y :: xs := by
              rw [popZeros, if_neg hx]
            rw [hpop]
            exact ⟨0, rfl, List.cons_ne_nil _ _, fun _ => hx⟩

theorem bitLength_eq {v : List Nat} (hlimbs : IsLimbs (base l) v) (hv : v ≠ [])
    (htop : 1 < v.length -> v.getLastD 0 ≠ 0) :
    limbBitLength l * (v.length - 1) + getMSB (v.getLastD 0) =
      Nat.size (Nat.ofDigits (base l) v) := by
  rcases List.eq_nil_or_concat' v with rfl | ⟨low, top, rfl⟩
  · exact absurd rfl hv
  · have hlast : (low ++ [top]).getLastD 0 = top := by simp
    have hlen : (low ++ [top]).length = low.length + 1 := by simp
    rw [hlast, hlen] at htop
    rw [hlast, hlen, Nat.add_sub_cancel, getMSB_eq_size, Nat.ofDigits_append,
      Nat.ofDigits_singleton, base_pow]
    by_cases hzero : top = 0
    · have hnil : low = [] := by
        apply List.eq_nil_of_length_eq_zero
        by_contra hne
        exact htop (by omega) hzero
      rw [hnil, hzero]
      simp [Nat.ofDigits_nil]
    · have hlow := IsLimbs.value_lt (one_lt_base l) hlimbs.left
      rw [base_pow] at hlow
      exact (size_add_shiftLeft hlow hzero).symm

theorem msbOf_eq {v : List Nat} (hlimbs : IsLimbs (base l) v) (hv : v ≠ [])
    (htop : 1 < v.length -> v.getLastD 0 ≠ 0)
    (hsize : Nat.size (Nat.ofDigits (base l) v) < maxMSB) :
    msbOf l v = Nat.size (Nat.ofDigits (base l) v) := by
  rw [msbOf, bitLength_eq hlimbs hv htop]
  unfold usint
  exact Nat.mod_eq_of_lt hsize

/-- The limbs of the invariant: nonempty and without a zero on top of others. -/
structure Normalized (l : Nat) (v : List Nat) : Prop where
  limbs : IsLimbs (base l) v
  nonempty : v ≠ []
  top : 1 < v.length -> v.getLastD 0 ≠ 0

theorem ofLimbs_normalized {v : List Nat} (hlimbs : IsLimbs (base l) v) (hv : v ≠ []) :
    Normalized l (ofLimbs l v).value ∧ (ofLimbs l v).toNat l = Nat.ofDigits (base l) v ∧
      (ofLimbs l v).msb = msbOf l (ofLimbs l v).value := by
  rcases popZeros_spec (fun h => hv (List.reverse_eq_nil_iff.mp h)) with ⟨k, hsplit, hne, htop⟩
  have hback : v = (popZeros v.reverse).reverse ++ List.replicate k 0 := by
    calc
      v = v.reverse.reverse := (List.reverse_reverse v).symm
      _ = (List.replicate k 0 ++ popZeros v.reverse).reverse := by rw [<- hsplit]
      _ = _ := by rw [List.reverse_append, List.reverse_replicate]
  generalize hr : (popZeros v.reverse).reverse = r at hback
  have hof : ofLimbs l v = ⟨msbOf l r, r⟩ := by rw [ofLimbs, hr]
  rw [hof]
  refine ⟨⟨(hback ▸ hlimbs).left, ?_, ?_⟩, ?_, rfl⟩
  · exact hr ▸ fun h => hne (List.reverse_eq_nil_iff.mp h)
  · intro hlen
    dsimp only at hlen ⊢
    rw [<- hr, List.length_reverse] at hlen
    rw [<- hr, List.getLastD_eq_getLast?, List.getLast?_reverse, <- List.headD_eq_head?_getD]
    exact htop hlen
  · rw [hback, Nat.ofDigits_append_replicate_zero]
    rfl

theorem ofLimbs_spec {v : List Nat} (hlimbs : IsLimbs (base l) v) (hv : v ≠ [])
    (hsize : Nat.size (Nat.ofDigits (base l) v) < maxMSB) :
    Valid l (ofLimbs l v) ∧ (ofLimbs l v).toNat l = Nat.ofDigits (base l) v := by
  rcases ofLimbs_normalized hlimbs hv with ⟨hnormal, hvalue, hmsb⟩
  rw [<- hvalue] at hsize
  have hsize' := msbOf_eq hnormal.limbs hnormal.nonempty hnormal.top hsize
  rw [<- hmsb] at hsize'
  exact ⟨⟨hnormal.limbs, hnormal.nonempty, hnormal.top, hsize', hsize' ▸ hsize⟩, hvalue⟩

/-!
## Comparison
-/

theorem compareLoop_spec {x a : List Nat} (hx : IsLimbs (base l) x)
    (ha : IsLimbs (base l) a) (n : Nat) (hxn : n <= x.length) (han : n <= a.length) :
    compareLoop x a n = some (
      if Nat.ofDigits (base l) (x.take n) < Nat.ofDigits (base l) (a.take n) then -1
      else if Nat.ofDigits (base l) (x.take n) = Nat.ofDigits (base l) (a.take n) then 0
      else 1) := by
  induction n with
  | zero => simp [compareLoop, Nat.ofDigits_nil]
  | succ n ih =>
      have hxlow := (hx.take n).value_lt (one_lt_base l)
      have halow := (ha.take n).value_lt (one_lt_base l)
      rw [List.length_take, Nat.min_eq_left (by omega)] at hxlow halow
      have hsucc : forall {v : List Nat} (h : n < v.length),
          Nat.ofDigits (base l) (v.take (n + 1)) =
            Nat.ofDigits (base l) (v.take n) + base l ^ n * v[n] := by
        intro v h
        rw [List.take_succ_eq_append_getElem h, Nat.ofDigits_append, Nat.ofDigits_singleton,
          List.length_take, Nat.min_eq_left h.le]
      rw [compareLoop, hsucc (show n < x.length by omega), hsucc (show n < a.length by omega),
        List.getElem?_eq_getElem (show n < x.length by omega),
        List.getElem?_eq_getElem (show n < a.length by omega)]
      simp only [Option.bind_eq_bind, Option.bind_some, Option.pure_def]
      rcases Nat.lt_trichotomy x[n] a[n] with hlt | heq | hgt
      · have hmul := Nat.mul_le_mul_left (base l ^ n) hlt
        rw [Nat.mul_succ] at hmul
        rw [if_pos hlt, if_pos (by omega)]
      · rw [if_neg (by omega), if_neg (by omega), ih (by omega) (by omega), heq]
        simp only [Nat.add_lt_add_iff_right, Nat.add_right_cancel_iff]
      · have hmul := Nat.mul_le_mul_left (base l ^ n) hgt
        rw [Nat.mul_succ] at hmul
        rw [if_neg (by omega), if_pos hgt, if_neg (by omega), if_neg (by omega)]

theorem compare_spec {x a : Ubint} (hx : Valid l x) (ha : Valid l a) :
    compare x a = some (
      if x.toNat l < a.toNat l then -1 else if x.toNat l = a.toNat l then 0 else 1) := by
  unfold compare
  rcases Nat.lt_trichotomy x.msb a.msb with hlt | heq | hgt
  · rw [if_pos hlt, if_pos (hx.toNat_lt_of_msb_lt ha hlt)]
  · have hlen := hx.length_eq_of_msb_eq ha heq
    rw [if_neg (by omega), if_neg (by omega),
      compareLoop_spec hx.limbs ha.limbs _ le_rfl hlen.le, List.take_length, hlen,
      List.take_length]
    rfl
  · have hvalue := ha.toNat_lt_of_msb_lt hx hgt
    rw [if_neg (by omega), if_pos hgt, if_neg (by omega), if_neg (by omega)]

end Ubint

end BigInteger
end Core
end OpenFHE
