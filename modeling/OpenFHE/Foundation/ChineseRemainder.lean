import Mathlib.Algebra.BigOperators.Ring.Finset
import Mathlib.Algebra.Order.BigOperators.Group.Finset
import Mathlib.Data.Nat.ChineseRemainder

/-!
# Chinese remainders over a list of moduli

Pairwise coprime moduli above one: every modulus divides their product with a coprime
quotient, residues determine a number below the product, and the sum of residues times
multipliers has these residues.
-/

namespace OpenFHE
namespace Foundation

open Finset

section Coprime

variable {moduli : List Nat} (hcoprime : moduli.Pairwise Nat.Coprime)
  (hone : forall q, q ∈ moduli -> 1 < q)

include hone in
theorem prod_div_eq_erase {q : Nat} (hq : q ∈ moduli) :
    moduli.prod / q = (moduli.erase q).prod := by
  have hpos : 0 < q := by
    have hlt := hone q hq
    omega
  rw [← List.prod_erase hq, Nat.mul_div_cancel_left _ hpos]

include hcoprime

theorem eq_of_residues {a b : Nat} (ha : a < moduli.prod) (hb : b < moduli.prod)
    (hresidues : forall q, q ∈ moduli -> a % q = b % q) : a = b := by
  have hmod : a ≡ b [MOD moduli.prod] := by
    apply (Nat.modEq_list_prod_iff hcoprime).mpr
    intro i
    exact hresidues _ (List.get_mem moduli i)
  exact Nat.ModEq.eq_of_lt_of_lt hmod ha hb

include hone

theorem nodup_of_coprime : moduli.Nodup := by
  apply hcoprime.imp_of_mem
  intro x y hx hy hxy heq
  rw [← heq, Nat.coprime_self] at hxy
  have hlt := hone x hx
  omega

theorem coprime_prod_div {q : Nat} (hq : q ∈ moduli) : Nat.gcd (moduli.prod / q) q = 1 := by
  rw [prod_div_eq_erase hone hq]
  apply Nat.coprime_list_prod_left_iff.mpr
  intro p hp
  rcases (nodup_of_coprime hcoprime hone).mem_erase_iff.mp hp with ⟨hne, hmem⟩
  have : Std.Symm Nat.Coprime := ⟨fun _ _ hxy => hxy.symm⟩
  exact hcoprime.forall hmem hq hne

theorem dvd_prod_div {p q : Nat} (hp : p ∈ moduli) (hq : q ∈ moduli) (hne : p ≠ q) :
    p ∣ moduli.prod / q := by
  rw [prod_div_eq_erase hone hq]
  exact List.dvd_prod ((nodup_of_coprime hcoprime hone).mem_erase_iff.mpr ⟨hne, hp⟩)

theorem sum_multipliers_mod {multiplier : Nat -> Nat}
    (hmultiplier : forall i q, moduli[i]? = some q -> exists inverse,
      multiplier i = inverse * (moduli.prod / q) ∧ moduli.prod / q * inverse % q = 1)
    (x : Nat -> Nat) {k q : Nat} (hk : moduli[k]? = some q) :
    (∑ i ∈ range moduli.length, x i * multiplier i) % q = x k % q := by
  have hq := List.mem_of_getElem? hk
  have hklt : k < moduli.length := (List.getElem?_eq_some_iff.mp hk).1
  have hown : multiplier k % q = 1 := by
    rcases hmultiplier k q hk with ⟨inverse, heq, hinv⟩
    rw [heq, Nat.mul_comm]
    exact hinv
  have hother : forall i, i ∈ range moduli.length -> i ≠ k -> x i * multiplier i % q = 0 := by
    intro i hi hne
    have hi' := mem_range.mp hi
    have hp : exists p, moduli[i]? = some p := ⟨_, List.getElem?_eq_getElem hi'⟩
    rcases hp with ⟨p, hp⟩
    rcases hmultiplier i p hp with ⟨inverse, heq, _⟩
    have hdiff : q ≠ p := by
      intro hsame
      rw [← hsame, ← hk] at hp
      exact hne ((List.getElem?_inj hi' (nodup_of_coprime hcoprime hone)).mp hp)
    have hdvd := dvd_prod_div hcoprime hone hq (List.mem_of_getElem? hp) hdiff
    rw [heq]
    exact Nat.mod_eq_zero_of_dvd ((hdvd.mul_left inverse).mul_left (x i))
  rw [sum_nat_mod, sum_eq_single k hother, Nat.mod_mod, Nat.mul_mod, hown, Nat.mul_one,
    Nat.mod_mod]
  intro hnot
  exact absurd (mem_range.mpr hklt) hnot

end Coprime

end Foundation
end OpenFHE
