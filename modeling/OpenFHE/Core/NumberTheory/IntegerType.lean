import OpenFHE.Core.BigInteger.ModularPower
import OpenFHE.Core.NumberTheory.Prng
import OpenFHE.Foundation.Outcome

/-!
# Integer types

The templates of number theory are compiled for native integers and for big ones.  What they
use of the type are its operations; a value of either type is the natural number it stands for.
Native operations wrap at the word, a big difference stops at zero, and both types take the
amount of a shift as a `usshort`.
-/

namespace OpenFHE
namespace Core

open Foundation NativeInteger

/-- The operations of `IntType` that the templates use. -/
structure IntType where
  add : Nat -> Nat -> Nat
  sub : Nat -> Nat -> Nat
  lShift : Nat -> Nat -> Nat
  rShift : Nat -> Nat -> Nat
  getMSB : Nat -> Nat
  convertToInt : Nat -> Nat
  modAdd : Nat -> Nat -> Nat -> Nat
  modMulFastEq : Nat -> Nat -> Nat -> Nat
  modExp : Nat -> Nat -> Nat -> Option Nat
  mod : Nat -> Nat -> Outcome Nat
  /-- `MAX_MODULUS_SIZE`, where it is checked. -/
  maxModulusSize : Option Nat

/-- The conversion of a shift to `usshort`. -/
def usshort (shift : Nat) : Nat := shift % 2 ^ 16

namespace IntType

namespace Big

def modAdd (a b modulus : Nat) : Nat :=
  let bv := if b >= modulus then b % modulus else b
  let av := if a >= modulus then a % modulus else a
  if av + bv >= modulus then av + bv - modulus else av + bv

def modMulFast (a b modulus : Nat) : Nat :=
  if a = 0 ∨ b = 0 then 0
  else if b = 1 then a
  else if a = 1 then b
  else if a * b >= modulus then a * b % modulus else a * b

/-- The base, the rest of the exponent and the power of `ModExp`. -/
structure PowerState where
  t : Nat
  p : Nat
  r : Nat
deriving DecidableEq, Repr

/-- The multiplication for an odd exponent, and the shift. -/
def accumulate (modulus : Nat) (s : PowerState) : PowerState where
  t := s.t
  p := s.p >>> 1
  r := if s.p &&& 1 ≠ 0 then modMulFast s.r s.t modulus else s.r

def modExp (a b modulus : Nat) : Option Nat :=
  if modulus = 0 then none
  else
    (whileFuel (fun s => decide (s.p ≠ 0))
      (fun s => some (accumulate modulus { s with t := modMulFast s.t s.t modulus }))
      (b + 1) (accumulate modulus { t := a % modulus, p := b, r := 1 })).map PowerState.r

end Big

def native : IntType where
  add := addFast
  sub := subFast
  lShift a shift := NativeInteger.lShift a (usshort shift)
  rShift a shift := NativeInteger.rShift a (usshort shift)
  getMSB := NativeInteger.getMSB
  convertToInt a := a
  modAdd := NativeInteger.modAdd
  modMulFastEq := NativeInteger.modMulFastEq
  modExp := NativeInteger.modExp
  mod a modulus := if modulus = 0 then .error .undefined else .ok (a % modulus)
  maxModulusSize := some 60

/-- `BigInteger`, whose subtraction returns zero when the result is negative. -/
def big : IntType where
  add a b := a + b
  sub a b := a - b
  lShift a shift := a <<< usshort shift
  rShift a shift := a >>> usshort shift
  getMSB := NativeInteger.getMSB
  convertToInt a := a % 2 ^ maxBits
  modAdd := Big.modAdd
  modMulFastEq := Big.modMulFast
  modExp := Big.modExp
  mod a modulus :=
    if modulus = 0 then .error (.thrown "Mod() using zero modulus") else .ok (a % modulus)
  maxModulusSize := none

/-! ## Powers of big integers -/

namespace Big

section Power

variable {m : Nat} (hm : 1 < m)

include hm

omit hm in
theorem modMulFast_eq {a b : Nat} (ha : a < m) (hb : b < m) : modMulFast a b m = a * b % m := by
  unfold modMulFast
  split
  next hzero =>
      cases hzero with
      | inl h => rw [h, Nat.zero_mul, Nat.zero_mod]
      | inr h => rw [h, Nat.mul_zero, Nat.zero_mod]
  next =>
      split
      next hone => rw [hone, Nat.mul_one, Nat.mod_eq_of_lt ha]
      next =>
          split
          next hone => rw [hone, Nat.one_mul, Nat.mod_eq_of_lt hb]
          next =>
              split
              next => rfl
              next hlt => rw [Nat.mod_eq_of_lt (not_le.mp hlt)]

/-- The power `n` is that of the number so far and of the square that is still to be raised. -/
structure PowerInv (m n : Nat) (s : PowerState) : Prop where
  t_lt : s.t < m
  r_lt : s.r < m
  power : s.r * (s.t * s.t) ^ s.p ≡ n [MOD m]

omit hm in
theorem pow_parity (t p : Nat) : t ^ p = t ^ (p % 2) * (t * t) ^ (p >>> 1) := by
  rw [← pow_two, ← pow_mul, ← pow_add, Nat.shiftRight_eq_div_pow, pow_one, Nat.mod_add_div]

theorem accumulate_spec {n : Nat} {s : PowerState} (ht : s.t < m) (hr : s.r < m)
    (hpower : s.r * s.t ^ s.p ≡ n [MOD m]) : PowerInv m n (accumulate m s) := by
  have hparity : (accumulate m s).r ≡ s.r * s.t ^ (s.p % 2) [MOD m] := by
    unfold accumulate
    dsimp only
    rw [Nat.and_one_is_mod]
    split
    next hodd =>
        rw [show s.p % 2 = 1 by omega, pow_one, modMulFast_eq hr ht]
        exact Nat.mod_modEq _ m
    next heven =>
        rw [not_not.mp heven, pow_zero, Nat.mul_one]
  constructor
  case t_lt => exact ht
  case r_lt =>
    unfold accumulate
    dsimp only
    split
    next =>
        rw [modMulFast_eq hr ht]
        exact Nat.mod_lt _ (Nat.zero_lt_of_lt hm)
    next => exact hr
  case power =>
    have hnext := hparity.mul_right ((s.t * s.t) ^ (s.p >>> 1))
    rw [Nat.mul_assoc, ← pow_parity] at hnext
    exact hnext.trans hpower

theorem modExp_eq (a b : Nat) : modExp a b m = some (a ^ b % m) := by
  have hpos : 0 < m := Nat.zero_lt_of_lt hm
  have hinit : PowerInv m (a ^ b) (accumulate m { t := a % m, p := b, r := 1 }) := by
    apply accumulate_spec hm (Nat.mod_lt a hpos) hm
    rw [Nat.one_mul]
    exact (Nat.mod_modEq a m).pow b
  have hbody (s : PowerState) (hs : PowerInv m (a ^ b) s) (hc : decide (s.p ≠ 0) = true) :
      exists s', some (accumulate m { s with t := modMulFast s.t s.t m }) = some s' ∧
        PowerInv m (a ^ b) s' ∧ s'.p < s.p := by
    refine ⟨_, rfl, ?_, ?_⟩
    · apply accumulate_spec hm
      · dsimp only
        rw [modMulFast_eq hs.t_lt hs.t_lt]
        exact Nat.mod_lt _ hpos
      · exact hs.r_lt
      · dsimp only
        rw [modMulFast_eq hs.t_lt hs.t_lt]
        exact (((Nat.mod_modEq (s.t * s.t) m).pow s.p).mul_left s.r).trans hs.power
    · have hne := of_decide_eq_true hc
      show s.p >>> 1 < s.p
      rw [Nat.shiftRight_eq_div_pow, pow_one]
      exact Nat.div_lt_self (Nat.pos_of_ne_zero hne) (by decide)
  have hfuel : (accumulate m { t := a % m, p := b, r := 1 }).p < b + 1 := by
    show b >>> 1 < b + 1
    rw [Nat.shiftRight_eq_div_pow]
    exact Nat.lt_succ_of_le (Nat.div_le_self b _)
  rcases whileFuel_spec (PowerInv m (a ^ b)) PowerState.p hbody (b + 1) _ hinit hfuel with
    ⟨s, hrun, hs, hstop⟩
  have hzero : s.p = 0 := not_not.mp (of_decide_eq_false hstop)
  have hpower := hs.power
  rw [hzero, pow_zero, Nat.mul_one] at hpower
  unfold modExp
  rw [if_neg hpos.ne', hrun, Option.map_some, ← hpower, Nat.mod_eq_of_lt hs.r_lt]

end Power

end Big

/-! ## Exact operations -/

/-- The operations on residues of `p` are exact. -/
structure ExactAt (T : IntType) (p : Nat) : Prop where
  sub {b : Nat} (hb : b <= p) : T.sub p b = p - b
  modAdd {a b : Nat} (h : a + b < p) : T.modAdd a b p = a + b
  modMulFastEq {a b : Nat} (ha : a < p) (hb : b < p) : T.modMulFastEq a b p = a * b % p
  modExp {a b : Nat} (ha : a < p) (hb : b < p) : T.modExp a b p = some (a ^ b % p)
  rShift_one (a : Nat) : T.rShift a 1 = a / 2
  getMSB (a : Nat) : T.getMSB a = Nat.size a

theorem native_exactAt {p : Nat} (hone : 1 < p) (hp : p < 2 ^ maxBits) : ExactAt native p := by
  constructor
  case sub =>
    intro b hb
    exact subFast_eq hb hp
  case modAdd =>
    intro a b h
    show NativeInteger.modAdd a b p = a + b
    unfold NativeInteger.modAdd modAddFast
    rw [if_neg (show ¬ a >= p by omega), if_neg (show ¬ b >= p by omega),
      word_eq (show a + b < 2 ^ maxBits by omega)]
    exact if_neg (not_le.mpr h)
  case modMulFastEq =>
    intro a b ha hb
    exact modMulFastEq_eq (by omega) hp (ha.trans hp) (hb.trans hp)
  case modExp =>
    intro a b ha hb
    exact BigInteger.Ubint.nativeModExp_eq (ha.trans hp) (hb.trans hp) hone hp
  case rShift_one =>
    intro a
    exact Nat.shiftRight_eq_div_pow a 1
  case getMSB => exact BigInteger.getMSB_eq_size

theorem big_exactAt {p : Nat} (hone : 1 < p) : ExactAt big p := by
  constructor
  case sub =>
    intro b _
    rfl
  case modAdd =>
    intro a b h
    show Big.modAdd a b p = a + b
    unfold Big.modAdd
    rw [if_neg (show ¬ a >= p by omega), if_neg (show ¬ b >= p by omega)]
    exact if_neg (not_le.mpr h)
  case modMulFastEq =>
    intro a b ha hb
    exact Big.modMulFast_eq ha hb
  case modExp =>
    intro a b _ _
    exact Big.modExp_eq hone a b
  case rShift_one =>
    intro a
    exact Nat.shiftRight_eq_div_pow a 1
  case getMSB => exact BigInteger.getMSB_eq_size

/-! ## Big integers on limbs -/

section Limbs

open BigInteger BigInteger.Ubint

/-- The operations on limbs denote those on values, as long as a `usint` counts the bits. -/
structure LimbOperations (l : Nat) (x y modulus : Ubint) (shift : Nat) : Prop where
  add : Nat.size (x.toNat l + y.toNat l) < maxMSB ->
    Denotes l (Ubint.add l x y) (big.add (x.toNat l) (y.toNat l))
  sub : exists r, Ubint.sub l x y = some r ∧ Denotes l r (big.sub (x.toNat l) (y.toNat l))
  lShift : Nat.size (big.lShift (x.toNat l) shift) < maxMSB ->
    Denotes l (Ubint.lShift l x (usshort shift)) (big.lShift (x.toNat l) shift)
  rShift : exists r, Ubint.rShift l x (usshort shift) = some r ∧
    Denotes l r (big.rShift (x.toNat l) shift)
  modMulFastEq : x.toNat l < modulus.toNat l -> y.toNat l < modulus.toNat l ->
    exists r, Ubint.modMulFast l x y modulus = .ok r ∧
      Denotes l r (big.modMulFastEq (x.toNat l) (y.toNat l) (modulus.toNat l))
  modExp : exists r w, Ubint.modExp l x y modulus = .ok r ∧
    big.modExp (x.toNat l) (y.toNat l) (modulus.toNat l) = some w ∧ Denotes l r w

theorem big_onLimbs {l : Nat} (hl : 0 < l) {x y modulus : Ubint} (hx : Valid l x)
    (hy : Valid l y) (hmodulus : Valid l modulus) (hm : 1 < modulus.toNat l)
    (hfits : Nat.size ((modulus.toNat l - 1) * (modulus.toNat l - 1)) < maxMSB) (shift : Nat) :
    LimbOperations l x y modulus shift := by
  have hring := ringOperations_spec l hx hy (usshort shift)
  constructor
  case add => exact hring.add
  case sub => exact hring.sub
  case lShift => exact hring.lShift
  case rShift => exact hring.rShift
  case modMulFastEq =>
    intro hxlt hylt
    rcases modMulFast_spec hl hmodulus hm hfits hx hy hxlt hylt with ⟨r, hr, hdenotes⟩
    refine ⟨r, hr, ?_⟩
    rw [← Big.modMulFast_eq hxlt hylt] at hdenotes
    exact hdenotes
  case modExp =>
    rcases modExp_spec hl hmodulus hm hfits hx hy with ⟨r, hr, hdenotes⟩
    exact ⟨r, _, hr, Big.modExp_eq hm _ _, hdenotes⟩

end Limbs

end IntType
end Core
end OpenFHE
