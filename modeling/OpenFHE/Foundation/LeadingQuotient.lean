import Mathlib.Tactic.Ring
import Mathlib.Tactic.Linarith

/-!
# Quotients of leading parts

The quotient of two numbers without their parts below `P` estimates their quotient.
It never falls short, and a quotient of the leading parts below `B` exceeds the
quotient by at most one as soon as the divisor has another digit above `P`.
-/

namespace OpenFHE
namespace Foundation

variable {B P V W : Nat}

theorem div_le_leading (hV : 0 < V / P) : W / V <= W / P / (V / P) := by
  have hP : P ≠ 0 := by
    rintro rfl
    rw [Nat.div_zero] at hV
    exact Nat.lt_irrefl 0 hV
  rw [Nat.div_div_eq_div_mul]
  exact Nat.div_le_div_left (Nat.mul_div_le V P) (Nat.mul_pos (Nat.pos_of_ne_zero hP) hV)

theorem leading_le_succ {e : Nat} (hP : 0 < P) (he : e < B) (hV : B * P <= V)
    (hle : e * (V / P) <= W / P) : e <= W / V + 1 := by
  rcases Nat.eq_zero_or_pos e with rfl | hpos
  · exact Nat.zero_le _
  have hVpos : 0 < V := Nat.lt_of_lt_of_le (Nat.mul_pos (by omega) hP) hV
  have hlt : e * V < W + V := by
    calc
      e * V = P * (e * (V / P)) + e * (V % P) := by
        conv_lhs => rw [<- Nat.div_add_mod V P]
        ring
      _ <= P * (W / P) + e * P :=
        Nat.add_le_add (Nat.mul_le_mul_left P hle)
          (Nat.mul_le_mul_left e (Nat.mod_lt V hP).le)
      _ <= W + e * P := Nat.add_le_add_right (Nat.mul_div_le W P) _
      _ < W + B * P := Nat.add_lt_add_left (Nat.mul_lt_mul_of_pos_right he hP) W
      _ <= W + V := Nat.add_le_add_left hV W
  have hpred : (e - 1) * V <= W := by
    rw [Nat.sub_mul, Nat.one_mul]
    omega
  have hdigit := (Nat.le_div_iff_mul_le hVpos).mpr hpred
  omega

theorem le_leading_iff {N e r u v v' : Nat} (hV : 0 < v + B * v') (hsplit : e * v' + r = N) :
    e <= (u + B * N) / (v + B * v') <-> e * v <= r * B + u := by
  have hprod : e * (v + B * v') + r * B = e * v + B * N := by
    rw [<- hsplit]
    ring
  rw [Nat.le_div_iff_mul_le hV]
  omega

end Foundation
end OpenFHE
