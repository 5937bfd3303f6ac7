import OpenFHE.Foundation.Carry
import OpenFHE.Foundation.Outcome

/-!
# Checked arithmetic

A native word has 32, 64 or 128 bits.  The checked operations compute the wrapped result and
compare it with the operands afterwards.  This finds every overflow of a sum, but a product with
zero comes out below its other operand, and a product that wraps may come out above both.
-/

namespace OpenFHE
namespace Core
namespace NativeInteger

open Foundation

def wrapAdd (w a b : Nat) : Nat := (a + b) % 2 ^ w

def wrapSub (w a b : Nat) : Nat := (a + (2 ^ w - b % 2 ^ w)) % 2 ^ w

def wrapMul (w a b : Nat) : Nat := a * b % 2 ^ w

def addCheck (w a b : Nat) : Outcome Nat :=
  let r := wrapAdd w a b
  if r < a ∨ r < b then .error (.thrown "NativeIntegerT AddCheck: Overflow") else .ok r

def mulCheck (w a b : Nat) : Outcome Nat :=
  let p := wrapMul w b a
  if p < a ∨ p < b then .error (.thrown "NativeIntegerT MulCheck: Overflow") else .ok p

/-- A call in place: the word stored in the object afterwards, and what the call returns. -/
structure InPlace where
  stored : Nat
  result : Outcome Nat
deriving DecidableEq

def addEqCheck (w a b : Nat) : InPlace :=
  let stored := wrapAdd w a b
  if stored < a then ⟨stored, .error (.thrown "NativeIntegerT AddEqCheck: Overflow")⟩
  else ⟨stored, .ok stored⟩

def mulEqCheck (w a b : Nat) : InPlace :=
  let stored := wrapMul w a b
  if stored < a then ⟨stored, .error (.thrown "NativeIntegerT MulEqCheck: Overflow")⟩
  else ⟨stored, .ok stored⟩

/-- The call throws exactly when the value does not fit in the word, and returns it otherwise. -/
structure Checked (w exact : Nat) (o : Outcome Nat) : Prop where
  throws : (exists message, o = .error (.thrown message)) <-> 2 ^ w <= exact
  returns : exact < 2 ^ w -> o = .ok exact

/-- A checked call in place that stores what it returns. -/
structure CheckedInPlace (w exact : Nat) (s : InPlace) : Prop extends
    Checked w exact s.result where
  stores : exact < 2 ^ w -> s.stored = exact

/-- A test after the fact is right exactly when it finds every overflow and nothing else. -/
theorem checked_iff {w exact : Nat} {c : Prop} [Decidable c] {message : String} :
    Checked w exact (if c then .error (.thrown message) else .ok (exact % 2 ^ w)) <->
      (c <-> 2 ^ w <= exact) := by
  constructor
  · intro h
    rw [← h.throws]
    constructor
    · intro hc
      exact ⟨message, if_pos hc⟩
    · rintro ⟨text, hthrown⟩
      by_contra hc
      rw [if_neg hc] at hthrown
      cases hthrown
  · intro h
    constructor
    case throws =>
      rw [← h]
      constructor
      · rintro ⟨text, hthrown⟩
        by_contra hc
        rw [if_neg hc] at hthrown
        cases hthrown
      · intro hc
        exact ⟨message, if_pos hc⟩
    case returns =>
      intro hfits
      rw [if_neg (mt h.mp (not_le.mpr hfits)), Nat.mod_eq_of_lt hfits]

theorem checkedInPlace_iff {w exact : Nat} {s : InPlace} (hstored : s.stored = exact % 2 ^ w) :
    CheckedInPlace w exact s <-> Checked w exact s.result := by
  constructor
  · intro h
    exact h.toChecked
  · intro h
    constructor
    case toChecked => exact h
    case stores =>
      intro hfits
      rw [hstored, Nat.mod_eq_of_lt hfits]

section Words

variable {w a b : Nat} (ha : a < 2 ^ w) (hb : b < 2 ^ w)

include ha hb

theorem addCheck_checked : Checked w (a + b) (addCheck w a b) := by
  apply checked_iff.mpr
  show ((a + b) % 2 ^ w < a ∨ (a + b) % 2 ^ w < b) <-> 2 ^ w <= a + b
  rw [sum_mod_lt_comm ha hb, or_self, sum_mod_lt_iff ha hb]

theorem addEqCheck_checked : CheckedInPlace w (a + b) (addEqCheck w a b) := by
  have hresult : (addEqCheck w a b).result =
      if (a + b) % 2 ^ w < a then .error (.thrown "NativeIntegerT AddEqCheck: Overflow")
      else .ok ((a + b) % 2 ^ w) := by
    unfold addEqCheck wrapAdd
    dsimp only
    split <;> rfl
  have hstored : (addEqCheck w a b).stored = (a + b) % 2 ^ w := by
    unfold addEqCheck wrapAdd
    dsimp only
    split <;> rfl
  rw [checkedInPlace_iff hstored, hresult, checked_iff]
  exact sum_mod_lt_iff ha hb

omit hb in
/-- Above the word, the last of `b` additions of `a` has to pass a multiple of the scale. -/
theorem mul_mod_lt_iff (hpos : 0 < b) :
    a * b % 2 ^ w < a <-> a * (b - 1) / 2 ^ w < a * b / 2 ^ w := by
  have hlast : a * b = a * (b - 1) + a := by
    rw [← Nat.mul_succ]
    congr 1
    omega
  rw [hlast]
  exact add_mod_lt_iff ha _

omit ha hb in
theorem mul_lt_self_iff : a * b < a <-> 0 < a ∧ b = 0 := by
  cases b with
  | zero => rw [Nat.mul_zero, and_iff_left rfl]
  | succ b =>
      constructor
      · intro hlt
        exact absurd hlt (not_lt.mpr (Nat.le_mul_of_pos_right a (Nat.succ_pos b)))
      · rintro ⟨_, hzero⟩
        cases hzero

/-- The inputs on which `MulEqCheck` does what its name says. -/
def MulEqCheckExact (w a b : Nat) : Prop :=
  a * b < 2 ^ w ∧ (b = 0 -> a = 0) ∨
    2 ^ w <= a * b ∧ a * (b - 1) / 2 ^ w < a * b / 2 ^ w

/-- The inputs on which `MulCheck` does, which tests the other operand as well. -/
def MulCheckExact (w a b : Nat) : Prop :=
  a * b < 2 ^ w ∧ (a = 0 <-> b = 0) ∨
    2 ^ w <= a * b ∧ (a * (b - 1) / 2 ^ w < a * b / 2 ^ w ∨ (a - 1) * b / 2 ^ w < a * b / 2 ^ w)

omit hb in
theorem mulEqCheck_checked_iff :
    CheckedInPlace w (a * b) (mulEqCheck w a b) <-> MulEqCheckExact w a b := by
  have hresult : (mulEqCheck w a b).result =
      if a * b % 2 ^ w < a then .error (.thrown "NativeIntegerT MulEqCheck: Overflow")
      else .ok (a * b % 2 ^ w) := by
    unfold mulEqCheck wrapMul
    dsimp only
    split <;> rfl
  have hstored : (mulEqCheck w a b).stored = a * b % 2 ^ w := by
    unfold mulEqCheck wrapMul
    dsimp only
    split <;> rfl
  rw [checkedInPlace_iff hstored, hresult, checked_iff]
  unfold MulEqCheckExact
  cases Nat.lt_or_ge (a * b) (2 ^ w) with
  | inl hfits =>
      rw [Nat.mod_eq_of_lt hfits, mul_lt_self_iff]
      simp only [hfits, not_le.mpr hfits, true_and, false_and, or_false, iff_false, not_and]
      constructor
      · intro h hzero
        by_contra hne
        exact h (Nat.pos_of_ne_zero hne) hzero
      · intro h hpos hzero
        exact hpos.ne' (h hzero)
  | inr hge =>
      have hb : 0 < b := by
        apply Nat.pos_of_ne_zero
        intro hzero
        rw [hzero, Nat.mul_zero] at hge
        exact absurd hge (not_le.mpr (Nat.two_pow_pos w))
      simp only [hge, not_lt.mpr hge, iff_true, true_and, false_and, false_or]
      exact mul_mod_lt_iff ha hb

theorem mulCheck_checked_iff :
    Checked w (a * b) (mulCheck w a b) <-> MulCheckExact w a b := by
  have hresult : mulCheck w a b =
      if a * b % 2 ^ w < a ∨ a * b % 2 ^ w < b
      then .error (.thrown "NativeIntegerT MulCheck: Overflow") else .ok (a * b % 2 ^ w) := by
    unfold mulCheck wrapMul
    rw [Nat.mul_comm b a]
  rw [hresult, checked_iff]
  unfold MulCheckExact
  cases Nat.lt_or_ge (a * b) (2 ^ w) with
  | inl hfits =>
      have hother : a * b < b <-> 0 < b ∧ a = 0 := by
        rw [Nat.mul_comm]
        exact mul_lt_self_iff
      rw [Nat.mod_eq_of_lt hfits, mul_lt_self_iff, hother]
      simp only [hfits, not_le.mpr hfits, true_and, false_and, or_false, iff_false]
      omega
  | inr hge =>
      have hpos : 0 < a * b := (Nat.two_pow_pos w).trans_le hge
      have hapos : 0 < a := Nat.pos_of_mul_pos_right hpos
      have hbpos : 0 < b := Nat.pos_of_mul_pos_left hpos
      have hother := mul_mod_lt_iff hb hapos
      rw [Nat.mul_comm b a, Nat.mul_comm b (a - 1)] at hother
      simp only [hge, not_lt.mpr hge, iff_true, true_and, false_and, false_or]
      rw [mul_mod_lt_iff ha hbpos, hother]

end Words

structure CheckedArithmetic (w a b : Nat) : Prop where
  addCheck : Checked w (a + b) (addCheck w a b)
  addEqCheck : CheckedInPlace w (a + b) (addEqCheck w a b)
  mulCheck : Checked w (a * b) (mulCheck w a b)
  mulEqCheck : CheckedInPlace w (a * b) (mulEqCheck w a b)

/-- Sums are always checked right; products are on the inputs of both conditions. -/
theorem checkedArithmetic_iff {w a b : Nat} (ha : a < 2 ^ w) (hb : b < 2 ^ w) :
    (Checked w (a + b) (addCheck w a b) ∧ CheckedInPlace w (a + b) (addEqCheck w a b)) ∧
    (Checked w (a * b) (mulCheck w a b) <-> MulCheckExact w a b) ∧
    (CheckedInPlace w (a * b) (mulEqCheck w a b) <-> MulEqCheckExact w a b) ∧
    (CheckedArithmetic w a b <-> MulCheckExact w a b ∧ MulEqCheckExact w a b) := by
  have hadd := addCheck_checked ha hb
  have haddEq := addEqCheck_checked ha hb
  have hmul := mulCheck_checked_iff ha hb
  have hmulEq := mulEqCheck_checked_iff (b := b) ha
  refine ⟨⟨hadd, haddEq⟩, hmul, hmulEq, ?_⟩
  constructor
  · intro h
    exact ⟨hmul.mp h.mulCheck, hmulEq.mp h.mulEqCheck⟩
  · rintro ⟨hexact, hexactEq⟩
    exact ⟨hadd, haddEq, hmul.mpr hexact, hmulEq.mpr hexactEq⟩

theorem checkedArithmetic_iff_six :
    (Checked 64 (6 + 7) (addCheck 64 6 7) ∧ CheckedInPlace 64 (6 + 7) (addEqCheck 64 6 7)) ∧
    (Checked 64 (6 * 7) (mulCheck 64 6 7) <-> MulCheckExact 64 6 7) ∧
    (CheckedInPlace 64 (6 * 7) (mulEqCheck 64 6 7) <-> MulEqCheckExact 64 6 7) ∧
    (CheckedArithmetic 64 6 7 <-> MulCheckExact 64 6 7 ∧ MulEqCheckExact 64 6 7) :=
  checkedArithmetic_iff (by decide) (by decide)

/-- A product with zero is refused, and a square that wraps above its root is not. -/
theorem not_checkedArithmetic :
    ¬ Checked 64 (0 * 5) (mulCheck 64 0 5) ∧
    ¬ CheckedInPlace 64 (5 * 0) (mulEqCheck 64 5 0) ∧
    ¬ Checked 64 ((2 ^ 32 + 1) * (2 ^ 32 + 1)) (mulCheck 64 (2 ^ 32 + 1) (2 ^ 32 + 1)) ∧
    ¬ CheckedArithmetic 64 0 5 := by
  have hzero : ¬ Checked 64 (0 * 5) (mulCheck 64 0 5) := by
    intro h
    exact absurd (h.returns (by decide)) (by decide)
  refine ⟨hzero, ?_, ?_, fun h => hzero h.mulCheck⟩
  · intro h
    exact absurd (h.returns (by decide)) (by decide)
  · intro h
    rcases h.throws.mpr (by decide) with ⟨message, hthrown⟩
    have hrun : mulCheck 64 (2 ^ 32 + 1) (2 ^ 32 + 1) = .ok (2 ^ 33 + 1) := by
      decide +kernel
    rw [hrun] at hthrown
    cases hthrown

end NativeInteger
end Core
end OpenFHE
