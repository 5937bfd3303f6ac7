import Mathlib.Tactic.Ring
import Mathlib.Tactic.Linarith

/-!
# Quotient estimates

Two ways to replace a division by a fixed modulus with a multiplication and a
shift.  Both estimates never exceed the true quotient and miss it by at most
one, so that one conditional subtraction completes the reduction.
-/

namespace OpenFHE
namespace Foundation

/--
Shoup's estimate: with the constant `b` scaled by the word size `B` and divided
by `m` in advance, the high word of `a * (b * B / m)` estimates `a * b / m`.
-/
theorem shoup_estimate {B m a b : Nat} (hm : 0 < m) (ha : a < B) :
    (a * (b * B / m) / B) * m <= a * b ∧
      a * b < (a * (b * B / m) / B) * m + 2 * m := by
  have hB : 0 < B := by omega
  have hconst := Nat.div_add_mod (b * B) m
  have hhigh := Nat.div_add_mod (a * (b * B / m)) B
  have hr : b * B % m < m := Nat.mod_lt _ hm
  have hs : a * (b * B / m) % B < B := Nat.mod_lt _ hB
  revert hconst hhigh hr hs
  generalize b * B / m = c
  generalize b * B % m = r
  generalize a * c / B = est
  generalize a * c % B = s
  intro hconst hhigh hr hs
  have hscaled : a * b * B = est * m * B + (s * m + a * r) := by
    calc
      a * b * B = a * (m * c + r) := by rw [hconst]; ring
      _ = (B * est + s) * m + a * r := by rw [hhigh]; ring
      _ = est * m * B + (s * m + a * r) := by ring
  have hrest : s * m + a * r < 2 * m * B := by nlinarith
  constructor
  · exact Nat.le_of_mul_le_mul_right (by omega) hB
  · have hlt : a * b * B < (est * m + 2 * m) * B := by
      rw [hscaled]
      nlinarith
    exact Nat.lt_of_mul_lt_mul_right hlt

/--
What the three roundings of Barrett's reduction lose: the bits dropped before the
multiplication, the rounding of the constant and the bits dropped afterwards.
-/
def barrettLoss (I J m x : Nat) : Nat :=
  x % I * J + x / I * (I * J % m) + x / I * (I * J / m) % J * m

theorem barrett_split (I J m x : Nat) :
    x * J = x / I * (I * J / m) / J * m * J + barrettLoss I J m x := by
  have hlow := Nat.div_add_mod x I
  have hmu := Nat.div_add_mod (I * J) m
  have hest := Nat.div_add_mod (x / I * (I * J / m)) J
  unfold barrettLoss
  revert hlow hmu hest
  generalize x / I = x₁
  generalize x % I = r
  generalize I * J / m = mu
  generalize I * J % m = s
  generalize x₁ * mu / J = est
  generalize x₁ * mu % J = t
  intro hlow hmu hest
  calc
    x * J = x₁ * (I * J) + r * J := by rw [← hlow]; ring
    _ = x₁ * mu * m + (x₁ * s + r * J) := by rw [← hmu]; ring
    _ = est * m * J + (r * J + x₁ * s + t * m) := by rw [← hest]; ring

theorem barrett_estimate_le {I J m x : Nat} (hJ : 0 < J) :
    x / I * (I * J / m) / J * m <= x := by
  have hsplit := barrett_split I J m x
  exact Nat.le_of_mul_le_mul_right (by omega) hJ

theorem barrett_estimate_iff {I J m x : Nat} (hJ : 0 < J) :
    x < x / I * (I * J / m) / J * m + 2 * m <-> barrettLoss I J m x < 2 * m * J := by
  have hsplit := barrett_split I J m x
  rw [← Nat.mul_lt_mul_right hJ, Nat.add_mul, hsplit]
  omega

theorem barrettLoss_lt {I J m x : Nat} (hI : 0 < I) (hJ : 0 < J) (hm : 2 * I <= m)
    (hx : 2 * x <= I * J) : barrettLoss I J m x < 2 * m * J := by
  have hm0 : 0 < m := by omega
  have hr := Nat.mod_lt x hI
  have hs := Nat.mod_lt (I * J) hm0
  have ht := Nat.mod_lt (x / I * (I * J / m)) hJ
  have hx₁ : 2 * (x / I) <= J := by
    have hle := Nat.mul_div_le x I
    refine Nat.le_of_mul_le_mul_left ?_ hI
    calc
      I * (2 * (x / I)) = 2 * (I * (x / I)) := by ring
      _ <= I * J := by omega
  have hfirst : 2 * (x % I * J) <= m * J := by
    calc
      2 * (x % I * J) = 2 * (x % I) * J := by ring
      _ <= m * J := Nat.mul_le_mul_right J (by omega)
  have hsecond : 2 * (x / I * (I * J % m)) <= J * m := by
    calc
      2 * (x / I * (I * J % m)) = 2 * (x / I) * (I * J % m) := by ring
      _ <= J * m := Nat.mul_le_mul hx₁ (by omega)
  have hthird : x / I * (I * J / m) % J * m < J * m :=
    Nat.mul_lt_mul_of_pos_right ht hm0
  unfold barrettLoss
  rw [mul_comm J m] at hsecond hthird
  rw [mul_assoc]
  omega

theorem barrettLoss_lt_of_dvd {I J m x : Nat} (hI : 0 < I) (hJ : 0 < J) (hm : I <= m)
    (hdvd : m ∣ I * J) : barrettLoss I J m x < 2 * m * J := by
  have hfirst : x % I * J < m * J :=
    Nat.mul_lt_mul_of_pos_right ((Nat.mod_lt x hI).trans_le hm) hJ
  have hthird : x / I * (I * J / m) % J * m <= m * J := by
    rw [mul_comm m]
    exact Nat.mul_le_mul_right m (Nat.mod_lt _ hJ).le
  unfold barrettLoss
  rw [Nat.mod_eq_zero_of_dvd hdvd, Nat.mul_zero, Nat.add_zero, mul_assoc, two_mul]
  exact Nat.add_lt_add_of_lt_of_le hfirst hthird

/--
Barrett's estimate from the `i` low bits dropped before and the `j` low bits
dropped after the multiplication by `2 ^ (i + j) / m`.
-/
theorem barrett_estimate {i j m x : Nat} (hm : 2 ^ (i + 1) <= m)
    (hj : 0 < j) (hx : x <= 2 ^ (i + j - 1)) :
    (x / 2 ^ i * (2 ^ (i + j) / m) / 2 ^ j) * m <= x ∧
      x < (x / 2 ^ i * (2 ^ (i + j) / m) / 2 ^ j) * m + 2 * m := by
  have hJ : 0 < 2 ^ j := by positivity
  have hx2 : 2 * x <= 2 ^ i * 2 ^ j := by
    calc
      2 * x <= 2 * 2 ^ (i + j - 1) := by omega
      _ = 2 ^ i * 2 ^ j := by
        rw [← pow_succ', ← pow_add]
        congr 1
        omega
  rw [pow_add]
  refine ⟨barrett_estimate_le hJ, (barrett_estimate_iff hJ).mpr ?_⟩
  exact barrettLoss_lt (by positivity) hJ (by rwa [← pow_succ']) hx2

/--
The high half of a product of double words, from the high words of the partial products and
the carries of the two sums in the middle column.
-/
theorem high_product {B al ah ml mh l0 l1 r1 m1 t1 c1 r2 m2 t2 c2 : Nat}
    (hlow : al * ml = l1 * B + l0) (hl0 : l0 < B) (hfirst : al * mh = m1 * B + r1)
    (hcarry1 : r1 + l1 = c1 * B + t1) (hsecond : ah * ml = m2 * B + r2)
    (hcarry2 : r2 + t1 = c2 * B + t2) (ht2 : t2 < B) :
    (ah * B + al) * (mh * B + ml) / (B * B) = ah * mh + (m1 + c1) + (m2 + c2) := by
  have hsplit : (ah * B + al) * (mh * B + ml) =
      B * B * (ah * mh + (m1 + c1) + (m2 + c2)) + (t2 * B + l0) := by
    calc
      (ah * B + al) * (mh * B + ml) =
          ah * mh * (B * B) + (al * mh + ah * ml) * B + al * ml := by ring
      _ = ah * mh * (B * B) + (m1 + m2) * (B * B) + (r2 + (r1 + l1)) * B + l0 := by
        rw [hlow, hfirst, hsecond]
        ring
      _ = ah * mh * (B * B) + (m1 + m2 + c1) * (B * B) + (r2 + t1) * B + l0 := by
        rw [hcarry1]
        ring
      _ = B * B * (ah * mh + (m1 + c1) + (m2 + c2)) + (t2 * B + l0) := by
        rw [hcarry2]
        ring
  have hrest : t2 * B + l0 < B * B := by
    calc
      t2 * B + l0 < t2 * B + B := by omega
      _ = (t2 + 1) * B := by ring
      _ <= B * B := Nat.mul_le_mul_right B ht2
  rw [hsplit, Nat.mul_add_div (by omega), Nat.div_eq_of_lt hrest, Nat.add_zero]

end Foundation
end OpenFHE
