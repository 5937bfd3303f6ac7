import Mathlib.NumberTheory.LucasPrimality
import Mathlib.Tactic.ReduceModChar

/-!
# Primality of `k * 2 ^ n + 1`

Lucas' test needs a base and two powers of it when `k` is prime.
-/

namespace OpenFHE
namespace Foundation

/-- Lucas' test for a prime `k`: the only prime factors of `k * 2 ^ n` are `k` and two. -/
theorem prime_of_base {p k n : Nat} (hk : k.Prime) (hp : p - 1 = k * 2 ^ n) (a : ZMod p)
    (hone : a ^ (p - 1) = 1) (htwo : a ^ ((p - 1) / 2) ≠ 1) (hkth : a ^ ((p - 1) / k) ≠ 1) :
    p.Prime := by
  apply lucas_primality p a hone
  intro r hr hdvd
  rw [hp, hr.dvd_mul] at hdvd
  rcases hdvd with hdvd | hdvd
  · rw [(Nat.prime_dvd_prime_iff_eq hr hk).mp hdvd]
    exact hkth
  · rw [(Nat.prime_dvd_prime_iff_eq hr Nat.prime_two).mp (hr.dvd_of_dvd_pow hdvd)]
    exact htwo

theorem prime_6597069766657 : Nat.Prime 6597069766657 := by
  apply prime_of_base (k := 3) (n := 41) Nat.prime_three (by norm_num)
    (5 : ZMod 6597069766657)
  · norm_num
    reduce_mod_char
  · norm_num
    reduce_mod_char
    decide
  · norm_num
    reduce_mod_char
    decide

theorem prime_180143985094819841 : Nat.Prime 180143985094819841 := by
  apply prime_of_base (k := 5) (n := 55) Nat.prime_five (by norm_num)
    (6 : ZMod 180143985094819841)
  · norm_num
    reduce_mod_char
  · norm_num
    reduce_mod_char
    decide
  · norm_num
    reduce_mod_char
    decide

theorem prime_2748779069441 : Nat.Prime 2748779069441 := by
  apply prime_of_base (k := 5) (n := 39) Nat.prime_five (by norm_num)
    (3 : ZMod 2748779069441)
  · norm_num
    reduce_mod_char
  · norm_num
    reduce_mod_char
    decide
  · norm_num
    reduce_mod_char
    decide

end Foundation
end OpenFHE
