import Mathlib.Data.Nat.Basic
import Mathlib.Tactic.Ring

/-!
# Carries

A sum of two digits wraps exactly when it comes out below one of them.  The product of two
numbers of two digits each is found from four products of digits: the sum of the mixed ones
and the low digit may each carry once.
-/

namespace OpenFHE
namespace Foundation

section Sum

variable {B x y : Nat} (hx : x < B) (hy : y < B)

include hx hy

theorem sum_mod_lt_iff : (x + y) % B < x <-> B <= x + y := by
  cases Nat.lt_or_ge (x + y) B with
  | inl hlt =>
      rw [Nat.mod_eq_of_lt hlt]
      constructor
      · intro h
        exact absurd h (not_lt.mpr (Nat.le_add_right x y))
      · intro h
        exact absurd hlt (not_lt.mpr h)
  | inr hge =>
      rw [Nat.mod_eq_sub_mod hge, Nat.mod_eq_of_lt (by omega)]
      constructor
      · intro _
        exact hge
      · intro _
        omega

theorem sum_mod_lt_comm : (x + y) % B < y <-> (x + y) % B < x := by
  rw [sum_mod_lt_iff hx hy, Nat.add_comm x y, sum_mod_lt_iff hy hx, Nat.add_comm]

theorem sum_carry {c : Nat} (hc : c = if (x + y) % B < x then 1 else 0) :
    x + y = c * B + (x + y) % B := by
  rw [hc]
  split
  next hlt =>
      have hge := (sum_mod_lt_iff hx hy).mp hlt
      rw [Nat.mod_eq_sub_mod hge, Nat.mod_eq_of_lt (by omega)]
      omega
  next hge =>
      have hlt := mt (sum_mod_lt_iff hx hy).mpr hge
      rw [Nat.mod_eq_of_lt (by omega), Nat.zero_mul, Nat.zero_add]

end Sum

theorem add_mod_lt_iff {B a : Nat} (ha : a < B) (x : Nat) :
    (x + a) % B < a <-> x / B < (x + a) / B := by
  have hB : 0 < B := Nat.zero_lt_of_lt ha
  have hr := Nat.mod_lt x hB
  have hsplit : x + a = B * (x / B) + (x % B + a) := by
    rw [← Nat.add_assoc, Nat.div_add_mod]
  rw [hsplit, Nat.mul_add_mod, Nat.mul_add_div hB, Nat.add_comm (x % B), sum_mod_lt_iff ha hr]
  cases Nat.lt_or_ge (a + x % B) B with
  | inl hlt =>
      rw [Nat.div_eq_of_lt hlt]
      omega
  | inr hge =>
      have hone : 0 < (a + x % B) / B := Nat.div_pos hge hB
      omega

theorem schoolbook_product {H a₁ a₂ b₁ b₂ t l c₁ c₂ : Nat}
    (hmixed : a₂ * b₁ + a₁ * b₂ = c₁ * (H * H) + t)
    (hlow : a₂ * b₂ + t % H * H = c₂ * (H * H) + l) :
    (a₁ * H + a₂) * (b₁ * H + b₂) = (a₁ * b₁ + t / H + c₁ * H + c₂) * (H * H) + l := by
  have hsplit := Nat.div_add_mod t H
  generalize t / H = q at hsplit ⊢
  generalize t % H = r at hlow hsplit
  calc
    (a₁ * H + a₂) * (b₁ * H + b₂) =
        a₁ * b₁ * (H * H) + (a₂ * b₁ + a₁ * b₂) * H + a₂ * b₂ := by ring
    _ = a₁ * b₁ * (H * H) + c₁ * H * (H * H) + q * (H * H) + (a₂ * b₂ + r * H) := by
      rw [hmixed, ← hsplit]
      ring
    _ = (a₁ * b₁ + q + c₁ * H + c₂) * (H * H) + l := by
      rw [hlow]
      ring

theorem schoolbook_div_mod {H a b t l : Nat} (ha : a < H * H) (hb : b < H * H)
    (ht : t = (a % H * (b / H) + a / H * (b % H)) % (H * H))
    (hl : l = (a % H * (b % H) + t % H * H) % (H * H)) :
    a * b / (H * H) = a / H * (b / H) + t / H + (if t < a % H * (b / H) then 1 else 0) * H +
        (if l < a % H * (b % H) then 1 else 0) ∧
      a * b % (H * H) = l := by
  have hH : 0 < H := Nat.pos_of_mul_pos_left (Nat.zero_lt_of_lt ha)
  have hdigit {x y : Nat} (hx : x < H) (hy : y < H) : x * y < H * H := Nat.mul_lt_mul'' hx hy
  have halow := Nat.mod_lt a hH
  have hblow := Nat.mod_lt b hH
  have hahigh := Nat.div_lt_of_lt_mul ha
  have hbhigh := Nat.div_lt_of_lt_mul hb
  have hshift : t % H * H < H * H := Nat.mul_lt_mul_of_pos_right (Nat.mod_lt t hH) hH
  have hmixed := sum_carry (hdigit halow hbhigh) (hdigit hahigh hblow) rfl
  have hlow := sum_carry (hdigit halow hblow) hshift rfl
  rw [← ht] at hmixed
  rw [← hl] at hlow
  have hproduct := schoolbook_product hmixed hlow
  rw [Nat.mul_comm (a / H) H, Nat.mul_comm (b / H) H, Nat.div_add_mod, Nat.div_add_mod] at hproduct
  have hllt : l < H * H := by
    rw [hl]
    exact Nat.mod_lt _ (Nat.mul_pos hH hH)
  rw [hproduct, Nat.mul_comm _ (H * H)]
  constructor
  · rw [Nat.mul_add_div (Nat.mul_pos hH hH), Nat.div_eq_of_lt hllt, Nat.add_zero]
  · rw [Nat.mul_add_mod, Nat.mod_eq_of_lt hllt]

end Foundation
end OpenFHE
