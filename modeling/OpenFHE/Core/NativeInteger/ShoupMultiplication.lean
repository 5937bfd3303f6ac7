import OpenFHE.Core.NativeInteger.ModularArithmetic

/-!
# Multiplication by a constant

The high word of the product with the scaled constant is the quotient or one less.  One is
added, so that the difference is the remainder or below zero; its sign shows in the top bit.
-/

namespace OpenFHE
namespace Core
namespace NativeInteger

/-- `ModMulFastConstEq`: `ModMulFastConst` in place. -/
def modMulFastConstEq (a b modulus bInv : Nat) : Nat :=
  let q := word (multDHi a bInv + 1)
  let yprime := signedWord (subFast (word (a * b)) (word (q * modulus)))
  if yprime >= 0 then ofSigned yprime else word (ofSigned yprime + modulus)

/-- The estimate, the sign and the results of a multiplication by `b`. -/
structure ShoupExact (a b m bInv : Nat) : Prop where
  quotient : word (multDHi a bInv + 1) = a * b / m ∨ word (multDHi a bInv + 1) = a * b / m + 1
  difference : signedWord (subFast (word (a * b)) (word (word (multDHi a bInv + 1) * m))) =
    (a * b : Int) - (word (multDHi a bInv + 1) : Nat) * m
  modMulFastConst : modMulFastConst a b m bInv = a * b % m
  modMulFastConstEq : modMulFastConstEq a b m bInv = a * b % m
  reduced : a * b % m < m

theorem modMulFastConst_exact {a b m : Nat} (ha : a < 2 ^ maxBits) (hb : b < m)
    (hm : m < 2 ^ 63) : exists bInv, prepModMulConst b m = some bInv ∧ ShoupExact a b m bInv := by
  have hm64 : m < 2 ^ maxBits := hm.trans (by decide)
  have hpos : 0 < m := Nat.zero_lt_of_lt hb
  rcases shoup_quotient hb ha with ⟨est, hhi, hword, hlow, hhigh⟩
  have hdifference := shoup_difference hm hlow hhigh
  refine ⟨precon b m, prepModMulConst_eq hm64 hb, ?_⟩
  constructor
  case quotient =>
    have hle : est <= a * b / m := (Nat.le_div_iff_mul_le hpos).mpr hlow
    have hlt : a * b / m < est + 2 := by
      rw [Nat.div_lt_iff_lt_mul hpos, Nat.add_mul]
      exact hhigh
    rw [hhi, hword]
    omega
  case difference =>
    rw [hhi, hword, hdifference, Nat.cast_sub hlow]
    push_cast
    ring
  case modMulFastConst => exact modMulFastConst_precon hm hb ha
  case modMulFastConstEq => exact modMulFastConst_precon hm hb ha
  case reduced => exact Nat.mod_lt _ hpos

theorem modMulFastConst_exact_largest : exists bInv,
    prepModMulConst (2 ^ 63 - 2) (2 ^ 63 - 1) = some bInv ∧
      ShoupExact (2 ^ 64 - 1) (2 ^ 63 - 2) (2 ^ 63 - 1) bInv :=
  modMulFastConst_exact (by decide) (by decide) (by decide)

end NativeInteger
end Core
end OpenFHE
