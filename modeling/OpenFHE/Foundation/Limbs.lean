import Mathlib.Data.Nat.Digits.Lemmas
import Mathlib.Data.Nat.Size
import Mathlib.Tactic.Ring
import Mathlib.Tactic.Linarith
import Mathlib.Tactic.LinearCombination

/-!
# Limbs

Numbers as lists of limbs below a base, from the least significant one on.  The
value of such a list is `Nat.ofDigits`; unlike digits, a list of limbs may end in
zeros.
-/

namespace OpenFHE
namespace Foundation

def IsLimbs (B : Nat) (v : List Nat) : Prop :=
  forall x, x ∈ v -> x < B

namespace IsLimbs

variable {B : Nat} {v w : List Nat}

theorem nil : IsLimbs B [] := by
  intro x hx
  cases hx

theorem cons {x : Nat} (hx : x < B) (hv : IsLimbs B v) : IsLimbs B (x :: v) := by
  intro y hy
  cases List.mem_cons.mp hy with
  | inl h => exact h ▸ hx
  | inr h => exact hv y h

theorem head {x : Nat} (h : IsLimbs B (x :: v)) : x < B :=
  h x List.mem_cons_self

theorem tail {x : Nat} (h : IsLimbs B (x :: v)) : IsLimbs B v :=
  fun y hy => h y (List.mem_cons_of_mem x hy)

theorem append (hv : IsLimbs B v) (hw : IsLimbs B w) : IsLimbs B (v ++ w) := by
  intro x hx
  cases List.mem_append.mp hx with
  | inl h => exact hv x h
  | inr h => exact hw x h

theorem left (h : IsLimbs B (v ++ w)) : IsLimbs B v :=
  fun x hx => h x (List.mem_append_left w hx)

theorem zeros (hB : 0 < B) (k : Nat) : IsLimbs B (List.replicate k 0) := by
  intro x hx
  rw [List.eq_of_mem_replicate hx]
  exact hB

theorem drop (h : IsLimbs B v) (k : Nat) : IsLimbs B (v.drop k) :=
  fun x hx => h x (List.mem_of_mem_drop hx)

theorem take (h : IsLimbs B v) (k : Nat) : IsLimbs B (v.take k) :=
  fun x hx => h x (List.mem_of_mem_take hx)

theorem value_lt (hB : 1 < B) (h : IsLimbs B v) : Nat.ofDigits B v < B ^ v.length :=
  Nat.ofDigits_lt_base_pow_length hB h

end IsLimbs

theorem ofDigits_replicate_zero_append (B k : Nat) (v : List Nat) :
    Nat.ofDigits B (List.replicate k 0 ++ v) = B ^ k * Nat.ofDigits B v := by
  rw [Nat.ofDigits_append, Nat.ofDigits_replicate_zero, List.length_replicate, Nat.zero_add]

theorem ofDigits_quotients (B N n : Nat) :
    Nat.ofDigits B ((List.range n).map fun i => N / B ^ i % B) = N % B ^ n := by
  induction n with
  | zero => rw [List.range_zero, List.map_nil, Nat.ofDigits_nil, Nat.pow_zero, Nat.mod_one]
  | succ n ih =>
      rw [List.range_succ, List.map_append, Nat.ofDigits_append, ih, List.length_map,
        List.length_range, List.map_singleton, Nat.ofDigits_singleton, Nat.mod_pow_succ]

theorem ofDigits_headD_tail (B : Nat) (v : List Nat) :
    Nat.ofDigits B v = v.headD 0 + B * Nat.ofDigits B v.tail := by
  cases v with
  | nil => simp [Nat.ofDigits_nil]
  | cons x v => exact Nat.ofDigits_cons

theorem getLastD_ne_zero_iff {B : Nat} {v : List Nat} (hB : 1 < B) (hlimbs : IsLimbs B v)
    (hv : v ≠ []) : v.getLastD 0 ≠ 0 <-> B ^ (v.length - 1) <= Nat.ofDigits B v := by
  rcases List.eq_nil_or_concat' v with rfl | ⟨low, top, rfl⟩
  · exact absurd rfl hv
  · have hlow := IsLimbs.value_lt hB hlimbs.left
    have htop : (low ++ [top]).getLastD 0 = top := by simp
    have hlen : (low ++ [top]).length - 1 = low.length := by simp
    rw [htop, hlen, Nat.ofDigits_append, Nat.ofDigits_singleton]
    constructor
    · intro hne
      calc
        B ^ low.length <= B ^ low.length * top :=
          Nat.le_mul_of_pos_right _ (Nat.pos_of_ne_zero hne)
        _ <= _ := Nat.le_add_left _ _
    · rintro hle rfl
      omega

theorem size_add_shiftLeft {lo top k : Nat} (hlo : lo < 2 ^ k) (htop : top ≠ 0) :
    Nat.size (lo + 2 ^ k * top) = k + Nat.size top := by
  apply Nat.le_antisymm
  · rw [Nat.size_le, Nat.pow_add]
    have hle : 2 ^ k * (top + 1) <= 2 ^ k * 2 ^ Nat.size top :=
      Nat.mul_le_mul_left _ (Nat.lt_size_self top)
    rw [Nat.mul_succ] at hle
    omega
  · have hpos : 0 < Nat.size top := Nat.size_pos.mpr (Nat.pos_of_ne_zero htop)
    have hle : 2 ^ (Nat.size top - 1) <= top := Nat.lt_size.mp (by omega)
    have hlt : k + (Nat.size top - 1) < Nat.size (lo + 2 ^ k * top) := by
      rw [Nat.lt_size, Nat.pow_add]
      have := Nat.mul_le_mul_left (2 ^ k) hle
      omega
    omega

theorem size_shiftRight (x k : Nat) : Nat.size (x >>> k) = Nat.size x - k := by
  rw [Nat.shiftRight_eq_div_pow]
  by_cases hzero : x / 2 ^ k = 0
  · have hlt : x < 2 ^ k := (Nat.div_eq_zero_iff_lt (Nat.two_pow_pos k)).mp hzero
    have hsize := Nat.size_le.mpr hlt
    rw [hzero, Nat.size_zero]
    omega
  · have hsplit := Nat.mod_add_div x (2 ^ k)
    have hsize := size_add_shiftLeft (Nat.mod_lt x (Nat.two_pow_pos k)) hzero
    rw [hsplit] at hsize
    omega

end Foundation
end OpenFHE
