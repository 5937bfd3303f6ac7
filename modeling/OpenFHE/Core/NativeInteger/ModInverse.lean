import OpenFHE.Core.NativeInteger.ModularArithmetic
import Mathlib.Data.Int.ModEq
import Mathlib.Data.Int.GCD
import Mathlib.Algebra.Order.Group.Unbundled.Abs
import Mathlib.Algebra.Order.Ring.Abs

/-!
# The modular inverse loop

The extended Euclidean loop keeps one Bezout coefficient for each remainder.
The coefficients alternate in sign, and weighted by the other remainder they
add up to the modulus, so that no signed word overflows.
-/

namespace OpenFHE
namespace Core
namespace NativeInteger

open Foundation

structure InverseInv (value mod : Nat) (s : InverseState) : Prop where
  a_pos : 0 < s.a
  modulus_nonneg : 0 <= s.modulus
  a_le : s.a <= mod
  modulus_le : s.modulus <= mod
  gcd_eq : Int.gcd s.a s.modulus = 1
  x_cong : s.a ≡ s.x * value [ZMOD mod]
  y_cong : s.modulus ≡ s.y * value [ZMOD mod]
  weight : |s.x| * s.modulus + |s.y| * s.a = mod
  opposite : s.x * s.y <= 0
  x_le : |s.x| <= mod

theorem InverseInv.initial {value mod : Nat} (hmod : 0 < mod)
    (hpos : 0 < value % mod) (hgcd : Nat.gcd value mod = 1) :
    InverseInv value mod
      { a := (value % mod : Nat), modulus := mod, x := 1, y := 0 } where
  a_pos := Int.natCast_pos.mpr hpos
  modulus_nonneg := by positivity
  a_le := Int.ofNat_le.mpr (Nat.mod_lt _ hmod).le
  modulus_le := le_refl _
  gcd_eq := by
    rw [Int.gcd_natCast_natCast, ← Nat.gcd_rec, Nat.gcd_comm]
    exact hgcd
  x_cong := by
    rw [one_mul]
    exact Int.natCast_modEq_iff.mpr (Nat.mod_modEq value mod)
  y_cong := by
    simp
  weight := by simp
  opposite := by simp
  x_le := by
    rw [abs_one]
    exact_mod_cast hmod

theorem abs_sub_mul_of_opposite {x y q : Int} (hq : 0 <= q) (hxy : x * y <= 0) :
    |x - q * y| = |x| + q * |y| := by
  rcases lt_trichotomy y 0 with hy | hy | hy
  · have hx : 0 <= x := by nlinarith
    rw [abs_of_nonneg (by nlinarith), abs_of_nonneg hx, abs_of_neg hy]
    ring
  · simp [hy]
  · have hx : x <= 0 := by nlinarith
    rw [abs_of_nonpos (by nlinarith), abs_of_nonpos hx, abs_of_pos hy]
    ring

theorem InverseInv.modulus_pos {value mod : Nat} {s : InverseState}
    (h : InverseInv value mod s) (hs : 1 < s.a) : 0 < s.modulus := by
  have hnonneg := h.modulus_nonneg
  have hgcd := h.gcd_eq
  rcases eq_or_lt_of_le hnonneg with h0 | hpos
  · rw [← h0, Int.gcd_zero_right] at hgcd
    omega
  · exact hpos

theorem InverseInv.quotient_nonneg {value mod : Nat} {s : InverseState}
    (h : InverseInv value mod s) (hs : 1 < s.a) : 0 <= s.a / s.modulus :=
  Int.ediv_nonneg (by omega) (h.modulus_pos hs).le

theorem InverseInv.y_le {value mod : Nat} {s : InverseState}
    (h : InverseInv value mod s) : |s.y| <= mod := by
  have hweight := h.weight
  have ha := h.a_pos
  have hx := mul_nonneg (abs_nonneg s.x) h.modulus_nonneg
  nlinarith [abs_nonneg s.y]

theorem InverseInv.step {value mod : Nat} {s : InverseState}
    (h : InverseInv value mod s) (hs : 1 < s.a) :
    InverseInv value mod
      { a := s.modulus
        modulus := s.a % s.modulus
        x := s.y
        y := s.x - s.a / s.modulus * s.y } where
  a_pos := h.modulus_pos hs
  modulus_nonneg := Int.emod_nonneg _ (h.modulus_pos hs).ne'
  a_le := h.modulus_le
  modulus_le :=
    le_trans (Int.emod_lt_of_pos _ (h.modulus_pos hs)).le h.modulus_le
  gcd_eq := by
    dsimp only
    rw [Int.gcd_comm, Int.gcd_emod]
    exact h.gcd_eq
  x_cong := h.y_cong
  y_cong := by
    dsimp only
    rw [Int.emod_def, sub_mul, mul_comm s.modulus, mul_assoc]
    exact h.x_cong.sub (h.y_cong.mul_left _)
  weight := by
    dsimp only
    rw [abs_sub_mul_of_opposite (h.quotient_nonneg hs) h.opposite, Int.emod_def]
    have hweight := h.weight
    linarith
  opposite := by
    dsimp only
    have hopposite := h.opposite
    have hq := h.quotient_nonneg hs
    nlinarith [mul_nonneg hq (mul_self_nonneg s.y)]
  x_le := h.y_le

theorem modInverseStep_eq {value mod : Nat} {s : InverseState}
    (h : InverseInv value mod s) (hs : 1 < s.a) (hmod : mod < 2 ^ 63) :
    modInverseStep s = some
      { a := s.modulus
        modulus := s.a % s.modulus
        x := s.y
        y := s.x - s.a / s.modulus * s.y } := by
  have hpos := h.modulus_pos hs
  have hq := h.quotient_nonneg hs
  have hale := h.a_le
  have hmle := h.modulus_le
  have hmodZ : (mod : Int) < 2 ^ 63 := by exact_mod_cast hmod
  have hqa : s.a / s.modulus <= s.a := Int.ediv_le_self _ (by omega)
  have hrem := Int.emod_nonneg s.a hpos.ne'
  have hremLt := Int.emod_lt_of_pos s.a hpos
  have hy := (h.step hs).y_le
  dsimp only at hy
  have hyabs := abs_le.mp hy
  have hqy : |s.a / s.modulus * s.y| <= mod := by
    rw [abs_sub_mul_of_opposite hq h.opposite] at hy
    rw [abs_mul, abs_of_nonneg hq]
    have hx := abs_nonneg s.x
    omega
  have hqyabs := abs_le.mp hqy
  unfold modInverseStep
  rw [if_neg hpos.ne', Int.tdiv_eq_ediv_of_nonneg (by omega),
    Int.tmod_eq_emod_of_nonneg (by omega)]
  dsimp only
  rw [signedWord_eq (x := s.a / s.modulus) (by omega) (by omega),
    signedWord_eq (x := s.a % s.modulus) (by omega) (by omega),
    signedWord_eq (x := s.a / s.modulus * s.y) (by omega) (by omega),
    signedWord_eq (by omega) (by omega)]

theorem modInverseLoop_spec {value mod : Nat} {s : InverseState}
    (h : InverseInv value mod s) (hmod : mod < 2 ^ 63) :
    exists s', modInverseLoop s = some s' ∧ InverseInv value mod s' ∧ s'.a = 1 := by
  have hrun := whileFuel_spec (c := fun s : InverseState => decide (1 < s.a))
    (f := modInverseStep) (InverseInv value mod) (fun s => s.modulus.toNat)
    (by
      intro s hinv hcond
      have hs : 1 < s.a := by simpa using hcond
      have hpos := hinv.modulus_pos hs
      refine ⟨_, modInverseStep_eq hinv hs hmod, hinv.step hs, ?_⟩
      have hlt := Int.emod_lt_of_pos s.a hpos
      have hnonneg := Int.emod_nonneg s.a hpos.ne'
      dsimp only
      omega)
    (2 ^ maxBits) s h (by
      have hle := h.modulus_le
      simp only [maxBits]
      omega)
  rcases hrun with ⟨s', hs', hinv, hcond⟩
  refine ⟨s', hs', hinv, ?_⟩
  have hpos := hinv.a_pos
  have hstop : ¬ 1 < s'.a := by simpa using hcond
  omega

theorem modInverse_spec {value mod : Nat} (hmod : 1 < mod) (hlt : mod < 2 ^ 63)
    (hgcd : Nat.gcd value mod = 1) :
    exists w, modInverse value mod = some w ∧ w < mod ∧ value * w % mod = 1 := by
  have hrem : value % mod < mod := Nat.mod_lt _ (by omega)
  have hpos : 0 < value % mod := by
    rcases Nat.eq_zero_or_pos (value % mod) with h0 | h0
    · have hdvd := Nat.gcd_eq_right (Nat.dvd_of_mod_eq_zero h0)
      omega
    · exact h0
  have hinit := InverseInv.initial (by omega) hpos hgcd
  rcases modInverseLoop_spec hinit hlt with ⟨s', hrun, hinv, ha⟩
  have hx := abs_le.mp hinv.x_le
  have hcong : (s'.x * value) % mod = 1 := by
    have hmodeq := hinv.x_cong.symm
    rw [ha] at hmodeq
    rw [hmodeq, Int.emod_eq_of_lt (by omega) (by omega)]
  have hprod (w : Nat) (k : Int) (hw : (w : Int) = s'.x + mod * k) :
      value * w % mod = 1 := by
    zify
    rw [hw, mul_comm, add_mul, mul_assoc, Int.add_mul_emod_self_left, hcong]
  unfold modInverse
  rw [if_neg (by omega), signedWord_eq (x := mod) (by omega) (by omega),
    signedWord_eq (by omega) (by omega)]
  dsimp only
  rw [if_neg (by omega), if_neg (by omega), hrun, Option.map_some]
  split
  next hneg =>
      rw [signedWord_eq (by omega) (by omega),
        ofSigned_eq (by omega) (by simp only [maxBits]; omega)]
      exact ⟨_, rfl, by omega, hprod _ 1 (by omega)⟩
  next hnonneg =>
      rw [ofSigned_eq (by omega) (by simp only [maxBits]; omega)]
      refine ⟨_, rfl, ?_, hprod _ 0 (by omega)⟩
      have hne : s'.x ≠ mod := by
        intro heq
        rw [heq, Int.mul_emod_right] at hcong
        omega
      omega

/-- What the loop keeps for any value: bounds and the greatest common divisor. -/
structure DivisorInv (mod g : Nat) (s : InverseState) : Prop where
  a_pos : 0 < s.a
  a_le : s.a <= mod
  modulus_nonneg : 0 <= s.modulus
  modulus_le : s.modulus <= mod
  gcd_eq : Int.gcd s.a s.modulus = g

theorem DivisorInv.next {mod g : Nat} {s s' : InverseState} (h : DivisorInv mod g s)
    (hmod : mod < 2 ^ 63) (hstep : modInverseStep s = some s') :
    0 < s.modulus ∧ s'.a = s.modulus ∧ s'.modulus = s.a % s.modulus := by
  unfold modInverseStep at hstep
  split at hstep
  · cases hstep
  · rename_i hne
    have hnonneg := h.modulus_nonneg
    have hpos : 0 < s.modulus := by omega
    have ha := h.a_pos
    have hle := h.modulus_le
    have hmodZ : (mod : Int) < 2 ^ 63 := by exact_mod_cast hmod
    have hrem := Int.emod_nonneg s.a hne
    have hremLt := Int.emod_lt_of_pos s.a hpos
    cases hstep
    rw [Int.tmod_eq_emod_of_nonneg (by omega),
      signedWord_eq (x := s.a % s.modulus) (by omega) (by omega)]
    exact ⟨hpos, rfl, rfl⟩

theorem DivisorInv.step {mod g : Nat} {s s' : InverseState} (h : DivisorInv mod g s)
    (hmod : mod < 2 ^ 63) (hstep : modInverseStep s = some s') : DivisorInv mod g s' := by
  rcases h.next hmod hstep with ⟨hpos, ha, hmodulus⟩
  have hle := h.modulus_le
  have hremLt := Int.emod_lt_of_pos s.a hpos
  constructor
  · rw [ha]
    exact hpos
  · rw [ha]
    exact hle
  · rw [hmodulus]
    exact Int.emod_nonneg s.a hpos.ne'
  · rw [hmodulus]
    omega
  · rw [ha, hmodulus, Int.gcd_comm, Int.gcd_emod]
    exact h.gcd_eq

theorem DivisorInv.initial {value mod : Nat} (hmod : 0 < mod) (hpos : 0 < value % mod) :
    DivisorInv mod (Nat.gcd value mod)
      { a := (value % mod : Nat), modulus := mod, x := 1, y := 0 } := by
  have hlt := Nat.mod_lt value hmod
  constructor
  · exact Int.natCast_pos.mpr hpos
  · exact Int.ofNat_le.mpr hlt.le
  · exact Int.natCast_nonneg mod
  · exact le_refl _
  · rw [Int.gcd_natCast_natCast, ← Nat.gcd_rec, Nat.gcd_comm]

theorem modInverse_coprime {value mod w : Nat} (hlt : mod < 2 ^ 63)
    (h : modInverse value mod = some w) : 1 < mod ∧ Nat.gcd value mod = 1 := by
  unfold modInverse at h
  split at h
  · cases h
  · rename_i hne
    have hrem : value % mod < mod := Nat.mod_lt _ (by omega)
    rw [signedWord_eq (x := mod) (by omega) (by omega), signedWord_eq (by omega) (by omega)] at h
    dsimp only at h
    split at h
    · cases h
    · rename_i hzero
      split at h
      · rename_i hone
        have hone' : mod = 1 := by exact_mod_cast hone
        rw [hone', Nat.mod_one] at hzero
        exact absurd rfl hzero
      · rename_i hone
        rcases Option.map_eq_some_iff.mp h with ⟨s, hs, _⟩
        have hinit := DivisorInv.initial (show 0 < mod by omega) (show 0 < value % mod by omega)
        rcases whileFuel_invariant (DivisorInv mod (Nat.gcd value mod))
          (fun s s' hinv _ hstep => hinv.step hlt hstep) hinit hs with ⟨hinv, hstop⟩
        have ha : s.a = 1 := by
          have hpos := hinv.a_pos
          have hle : ¬ 1 < s.a := by simpa using hstop
          omega
        have hgcd := hinv.gcd_eq
        rw [ha, Int.one_gcd] at hgcd
        constructor
        · have hone' : mod ≠ 1 := fun heq => hone (by exact_mod_cast heq)
          omega
        · exact hgcd.symm

theorem modInverse_lt {value mod w : Nat} (hlt : mod < 2 ^ 63)
    (h : modInverse value mod = some w) : w < mod := by
  rcases modInverse_coprime hlt h with ⟨hmod, hgcd⟩
  rcases modInverse_spec hmod hlt hgcd with ⟨w', hw', hlt', _⟩
  cases h.symm.trans hw'
  exact hlt'

end NativeInteger
end Core
end OpenFHE
