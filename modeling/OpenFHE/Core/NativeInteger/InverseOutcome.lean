import OpenFHE.Core.NativeInteger.ModInverse
import OpenFHE.Foundation.DigitText
import OpenFHE.Foundation.Outcome

/-!
# Missing inverses of native integers

`ModInverse` throws when the value is zero modulo the modulus.  Any other value without an
inverse leads the Euclidean loop to the remainder zero, by which the next step divides.
-/

namespace OpenFHE
namespace Core

open Foundation

/-- What a modular inverse owes its caller: the inverse, or an exception without one. -/
def InverseOrThrow {α : Type} (denotes : α -> Nat -> Prop) (a m : Nat) (r : Outcome α) : Prop :=
  if Nat.gcd a m = 1 then
    exists x n, r = .ok x ∧ denotes x n ∧ n < m ∧ a * n % m = 1 ∧
      forall y, y < m -> a * y % m = 1 -> y = n
  else exists message, r = .error (.thrown message)

def noInverse (a m : Bytes) : RuntimeFault :=
  .thrown (textOf a ++ " does not have a ModInverse using " ++ textOf m)

theorem inverse_unique {a m x y : Nat} (hx : x < m) (hy : y < m) (hax : a * x % m = 1)
    (hay : a * y % m = 1) : y = x := by
  have hm : 1 < m := by
    have hlt := Nat.mod_lt (a * x) (Nat.zero_lt_of_lt hx)
    omega
  have hcop : Nat.gcd m a = 1 := by
    have hdvd : Nat.gcd m a ∣ a * x % m :=
      (Nat.dvd_mod_iff (Nat.gcd_dvd_left m a)).mpr ((Nat.gcd_dvd_right m a).mul_right x)
    rw [hax] at hdvd
    exact Nat.dvd_one.mp hdvd
  have hcong : a * y ≡ a * x [MOD m] := hay.trans hax.symm
  exact (hcong.cancel_left_of_coprime hcop).eq_of_lt_of_lt hy hx

section Spec

variable {α : Type} {denotes : α -> Nat -> Prop} {a m : Nat} {r : Outcome α}

theorem inverseOrThrow_ok {x : α} {n : Nat} (hgcd : Nat.gcd a m = 1) (hr : r = .ok x)
    (hx : denotes x n) (hn : n < m) (han : a * n % m = 1) : InverseOrThrow denotes a m r := by
  unfold InverseOrThrow
  rw [if_pos hgcd]
  exact ⟨x, n, hr, hx, hn, han, fun y hy hay => inverse_unique hn hy han hay⟩

theorem inverseOrThrow_thrown {message : String} (hgcd : Nat.gcd a m ≠ 1)
    (hr : r = .error (.thrown message)) : InverseOrThrow denotes a m r := by
  unfold InverseOrThrow
  rw [if_neg hgcd]
  exact ⟨message, hr⟩

theorem not_inverseOrThrow_undefined (hr : r = .error .undefined) :
    ¬ InverseOrThrow denotes a m r := by
  unfold InverseOrThrow
  rw [hr]
  split
  next =>
      rintro ⟨x, n, hok, _⟩
      cases hok
  next =>
      rintro ⟨message, hthrown⟩
      cases hthrown

end Spec

namespace NativeInteger

/-- `ModInverse`, with the exception and the division by zero apart. -/
def modInverseCall (m_value mod : Nat) : Outcome Nat :=
  if mod = 0 then .error .undefined
  else
    let modulus := signedWord mod
    let a := signedWord (m_value % mod : Nat)
    if a = 0 then .error (noInverse (numeral m_value) (numeral mod))
    else if modulus = 1 then .ok 0
    else do
      let s <- whileLoop (fun s => decide (1 < s.a)) (fun s => orUndefined (modInverseStep s))
        (2 ^ maxBits) { a := a, modulus := modulus, x := 1, y := 0 }
      return if s.x < 0 then ofSigned (signedWord (s.x + mod)) else ofSigned s.x

theorem modInverseCall_ok {m_value mod w : Nat} (h : modInverse m_value mod = some w) :
    modInverseCall m_value mod = .ok w := by
  unfold modInverse at h
  unfold modInverseCall
  split at h
  next => cases h
  next hmod =>
      rw [if_neg hmod]
      dsimp only at h ⊢
      split at h
      next => cases h
      next ha =>
          rw [if_neg ha]
          split at h
          next hone =>
              cases h
              exact if_pos hone
          next hone =>
              rcases Option.map_eq_some_iff.mp h with ⟨s, hs, hw⟩
              rw [if_neg hone, whileLoop_orUndefined hs, ok_bind, hw]
              rfl

section Failure

variable {value mod : Nat} (hmod : 2 <= mod) (hlt : mod < 2 ^ 63)

include hmod hlt

theorem modInverseCall_reduced (hpos : 0 < value % mod) :
    modInverseCall value mod = (do
      let s <- whileLoop (fun s => decide (1 < s.a)) (fun s => orUndefined (modInverseStep s))
        (2 ^ maxBits) { a := (value % mod : Nat), modulus := mod, x := 1, y := 0 }
      return if s.x < 0 then ofSigned (signedWord (s.x + mod)) else ofSigned s.x) := by
  have hrem := Nat.mod_lt value (show 0 < mod by omega)
  unfold modInverseCall
  rw [if_neg (by omega), signedWord_eq (x := mod) (by omega) (by omega),
    signedWord_eq (by omega) (by omega)]
  dsimp only
  rw [if_neg (by omega), if_neg (by omega)]

theorem modInverseCall_multiple (hzero : value % mod = 0) :
    modInverseCall value mod = .error (noInverse (numeral value) (numeral mod)) := by
  unfold modInverseCall
  rw [if_neg (by omega), hzero]
  exact if_pos rfl

omit hmod in
theorem divisorInv_body {g : Nat} (hg : 1 < g) {s : InverseState} (hs : DivisorInv mod g s) :
    decide (1 < s.a) = true ∧ (orUndefined (modInverseStep s) = .error .undefined ∨
      exists s', orUndefined (modInverseStep s) = .ok s' ∧ DivisorInv mod g s' ∧
        s'.modulus.toNat < s.modulus.toNat) := by
  have hpos := hs.a_pos
  have hge : (g : Int) <= s.a := by
    have hdvd : (g : Int) ∣ s.a := by
      rw [← hs.gcd_eq]
      exact Int.gcd_dvd_left _ _
    exact Int.le_of_dvd hpos hdvd
  constructor
  · exact decide_eq_true (by omega)
  · cases hstep : modInverseStep s with
    | none => exact Or.inl rfl
    | some s' =>
        rcases hs.next hlt hstep with ⟨hmodulus, -, hrem⟩
        have hremlt := Int.emod_lt_of_pos s.a hmodulus
        refine Or.inr ⟨s', rfl, hs.step hlt hstep, ?_⟩
        rw [hrem]
        omega

theorem modInverseCall_undefined (hgcd : Nat.gcd value mod ≠ 1) (hpos : 0 < value % mod) :
    modInverseCall value mod = .error .undefined := by
  have hg : 1 < Nat.gcd value mod := by
    have hgpos := Nat.gcd_pos_of_pos_right value (show 0 < mod by omega)
    omega
  rw [modInverseCall_reduced hmod hlt hpos,
    whileLoop_fails (DivisorInv mod (Nat.gcd value mod)) (fun s => s.modulus.toNat)
      (fun s hs => divisorInv_body hlt hg hs) (2 ^ maxBits) _
      (DivisorInv.initial (by omega) hpos)]
  · rfl
  · show ((mod : Int)).toNat < 2 ^ maxBits
    have hword : (2 : Nat) ^ 63 < 2 ^ maxBits := by decide
    omega

theorem modInverseCall_iff : InverseOrThrow Eq value mod (modInverseCall value mod) <->
    Nat.gcd value mod = 1 ∨ mod ∣ value := by
  by_cases hgcd : Nat.gcd value mod = 1
  · rcases modInverse_spec (by omega) hlt hgcd with ⟨w, hw, hwlt, hproduct⟩
    exact ⟨fun _ => Or.inl hgcd,
      fun _ => inverseOrThrow_ok hgcd (modInverseCall_ok hw) rfl hwlt hproduct⟩
  · constructor
    · intro hright
      refine Or.inr (Nat.dvd_of_mod_eq_zero ?_)
      by_contra hne
      have hundefined := modInverseCall_undefined hmod hlt hgcd (Nat.pos_of_ne_zero hne)
      exact not_inverseOrThrow_undefined hundefined hright
    · intro hcond
      have hzero := Nat.mod_eq_zero_of_dvd (hcond.resolve_left hgcd)
      exact inverseOrThrow_thrown hgcd (modInverseCall_multiple hmod hlt hzero)

end Failure

end NativeInteger
end Core
end OpenFHE
