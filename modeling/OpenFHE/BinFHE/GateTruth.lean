import OpenFHE.BinFHE.Bootstrap
import OpenFHE.BinFHE.PlaintextModulus
import Mathlib.Tactic.IntervalCases

/-!
# Truth tables of the gates

A gate adds its inputs, twice for an exclusive or, and the sign that the bootstrapping reads from
its table tells on which side of the gate constant the sum lies.  This is the truth table of the
gate as long as the error stays below half of the distance between two sums.
-/

namespace OpenFHE
namespace BinFHE

open Core Foundation NativeInteger Hal LWEEncryptionScheme

/-! ## The gates -/

def gateModulus : BINGATE -> Nat
  | .AND3 | .OR3 => 6
  | .AND4 | .OR4 => 8
  | _ => 4

def gateInputs : BINGATE -> Nat
  | .MAJORITY | .AND3 | .OR3 => 3
  | .AND4 | .OR4 => 4
  | _ => 2

def doubles (gate : BINGATE) : Bool :=
  gate = .XOR || gate = .XNOR || gate = .XOR_FAST || gate = .XNOR_FAST

def gateFactor (gate : BINGATE) : Nat := if doubles gate then 2 else 1

def gateTruth (gate : BINGATE) (bits : List Bool) : Bool :=
  match gate with
  | .OR | .OR3 | .OR4 => bits.any id
  | .AND | .AND3 | .AND4 => bits.all id
  | .NOR => !bits.any id
  | .NAND => !bits.all id
  | .XOR | .XOR_FAST => bits.foldr xor false
  | .XNOR | .XNOR_FAST => !bits.foldr xor false
  | .MAJORITY => 2 <= bits.count true

def countTruth : BINGATE -> Nat -> Bool
  | .OR, c | .OR3, c | .OR4, c => 0 < c
  | .AND, c | .MAJORITY, c => 1 < c
  | .AND3, c => 2 < c
  | .AND4, c => 3 < c
  | .NOR, c => !decide (0 < c)
  | .NAND, c => !decide (1 < c)
  | .XOR, c | .XOR_FAST, c => c = 1
  | .XNOR, c | .XNOR_FAST, c => c ≠ 1

def ErrorBound (gate : BINGATE) (q : Nat) (e : Int) : Prop :=
  match gate with
  | .AND3 | .OR3 => 12 * (|e| + 11) < q
  | .AND4 | .OR4 => 16 * |e| < q
  | .XOR | .XNOR | .XOR_FAST | .XNOR_FAST => 4 * |e| < q
  | _ => 8 * |e| < q

theorem any_eq_count (bits : List Bool) : bits.any id = decide (0 < bits.count true) := by
  induction bits with
  | nil => rfl
  | cons b bits ih =>
      cases b with
      | true =>
          rw [List.count_cons_self]
          simp
      | false =>
          rw [List.count_cons_of_ne (by decide), List.any_cons, ih]
          rfl

theorem all_eq_count {n : Nat} (bits : List Bool) (h : bits.length = n + 1) :
    bits.all id = decide (n < bits.count true) := by
  induction bits generalizing n with
  | nil => cases h
  | cons b bits ih =>
      cases b with
      | true =>
          rw [List.count_cons_self, List.all_cons]
          cases n with
          | zero =>
              cases List.eq_nil_of_length_eq_zero (Nat.succ.inj h)
              rfl
          | succ n =>
              rw [ih (Nat.succ.inj h)]
              simp
      | false =>
          have hle := List.count_le_length (a := true) (l := bits)
          rw [List.length_cons] at h
          rw [List.count_cons_of_ne (by decide), decide_eq_false (by omega)]
          rfl

theorem xor_eq_count {bits : List Bool} (h : bits.length = 2) :
    bits.foldr xor false = decide (bits.count true = 1) := by
  rcases List.length_eq_two.mp h with ⟨a, b, rfl⟩
  cases a with
  | true => cases b <;> rfl
  | false => cases b <;> rfl

theorem gateTruth_eq_count {gate : BINGATE} {bits : List Bool}
    (h : bits.length = gateInputs gate) :
    gateTruth gate bits = countTruth gate (bits.count true) := by
  cases gate with
  | OR | OR3 | OR4 => exact any_eq_count bits
  | NOR => exact congrArg (!·) (any_eq_count bits)
  | AND | AND3 | AND4 => exact all_eq_count bits h
  | NAND => exact congrArg (!·) (all_eq_count bits h)
  | XOR | XOR_FAST => exact xor_eq_count h
  | XNOR | XNOR_FAST =>
      show (!bits.foldr xor false) = decide (bits.count true ≠ 1)
      rw [xor_eq_count h, decide_not]
  | MAJORITY => rfl

/-! ## The side of the gate constant -/

section Table

variable {q1 h Q amplitude : Nat} (hh : 2 * h < 2 ^ 32) (hq1 : q1 < 2 * h)

include hh hq1

theorem gateTable_low (hlow : q1 < h) : gateTable q1 (2 * h) Q amplitude =
    { lb := q1, ub := q1 + h, lv := subFast Q amplitude, uv := amplitude } := by
  have hhalf : usint (2 * h : Nat) >>> 1 = h := by
    rw [usint_natCast, Nat.mod_eq_of_lt hh, Nat.shiftRight_eq_div_pow]
    omega
  have hq2 : modAddFast q1 h (2 * h) = q1 + h := by
    rw [modAddFast_eq (by omega) hq1 (by omega), Nat.mod_eq_of_lt (by omega)]
  have hswap : ¬q1 >= q1 + h := by omega
  unfold gateTable
  dsimp only
  rw [hhalf, hq2, if_neg hswap, if_neg hswap, if_neg hswap, if_neg hswap]

theorem gateTable_high (hhigh : h <= q1) : gateTable q1 (2 * h) Q amplitude =
    { lb := q1 - h, ub := q1, lv := amplitude, uv := subFast Q amplitude } := by
  have hhalf : usint (2 * h : Nat) >>> 1 = h := by
    rw [usint_natCast, Nat.mod_eq_of_lt hh, Nat.shiftRight_eq_div_pow]
    omega
  have hq2 : modAddFast q1 h (2 * h) = q1 - h := by
    rw [modAddFast_eq (by omega) hq1 (by omega), Nat.mod_eq_sub_mod (by omega),
      Nat.mod_eq_of_lt (by omega)]
    omega
  have hswap : q1 >= q1 - h := Nat.sub_le q1 h
  unfold gateTable
  dsimp only
  rw [hhalf, hq2, if_pos hswap, if_pos hswap, if_pos hswap, if_pos hswap]

theorem gateTable_read {x : Nat} (hx : x < 2 * h) : (gateTable q1 (2 * h) Q amplitude).read x =
    if h <= (x + 2 * h - q1) % (2 * h) then amplitude else subFast Q amplitude := by
  have hturn : (x + 2 * h - q1) % (2 * h) = if q1 <= x then x - q1 else x + 2 * h - q1 := by
    split
    next hle =>
        rw [Nat.mod_eq_sub_mod (by omega), Nat.mod_eq_of_lt (by omega)]
        omega
    next hgt => exact Nat.mod_eq_of_lt (by omega)
  rw [hturn]
  cases Nat.lt_or_ge q1 h with
  | inl hlow =>
      rw [gateTable_low hh hq1 hlow, GateTable.read]
      dsimp only
      by_cases hin : x >= q1 ∧ x < q1 + h
      · rw [if_pos hin, if_pos hin.1, if_neg (by omega)]
      · rw [if_neg hin, if_pos (by split <;> omega)]
  | inr hhigh =>
      rw [gateTable_high hh hq1 hhigh, GateTable.read]
      dsimp only
      by_cases hin : x >= q1 - h ∧ x < q1
      · rw [if_pos hin, if_pos (by split <;> omega)]
      · rw [if_neg hin, if_neg (by split <;> omega)]

end Table

theorem turn_eq {x q1 q : Nat} {y : Int} (hq1 : q1 < q) (hx : (x : ZMod q) = y) :
    (((x + q - q1) % q : Nat) : Int) = (y - q1) % q := by
  have hcast : ((x + q - q1 : Nat) : Int) = x + q - q1 := by omega
  rw [Int.natCast_mod, hcast]
  have hmod : (x : Int) ≡ y [ZMOD q] := by
    apply (ZMod.intCast_eq_intCast_iff _ _ _).mp
    rw [Int.cast_natCast]
    exact hx
  have hturn : (x : Int) + q - q1 = (x - q1) + q * 1 := by ring
  rw [hturn, Int.add_mul_emod_self_left]
  exact (hmod.sub_right q1)

theorem half_of_range {h : Nat} {y : Int} (s : Int) :
    (2 * h * s <= y -> y < 2 * h * s + h -> ¬ (h : Int) <= y % (2 * h : Nat)) ∧
    (2 * h * s + h <= y -> y < 2 * h * s + 2 * h -> (h : Int) <= y % (2 * h : Nat)) := by
  have hsplit (r : Int) (hlo : 0 <= r) (hhi : r < 2 * h) :
      (2 * h * s + r) % (2 * h : Nat) = r := by
    have hcast : ((2 * h : Nat) : Int) = 2 * h := by push_cast; ring
    rw [hcast, add_comm, Int.add_mul_emod_self_left, Int.emod_eq_of_lt hlo hhi]
  constructor
  · intro hlo hhi
    have hr := hsplit (y - 2 * h * s) (by omega) (by omega)
    rw [add_sub_cancel] at hr
    omega
  · intro hlo hhi
    have hr := hsplit (y - 2 * h * s) (by omega) (by omega)
    rw [add_sub_cancel] at hr
    omega

theorem lower_half {h : Nat} {y : Int} (s : Int) (hlo : 2 * h * s <= y)
    (hhi : y < 2 * h * s + h) : decide ((h : Int) <= y % (2 * h : Nat)) = false :=
  decide_eq_false ((half_of_range s).1 hlo hhi)

theorem upper_half {h : Nat} {y : Int} (s : Int) (hlo : 2 * h * s + h <= y)
    (hhi : y < 2 * h * s + 2 * h) : decide ((h : Int) <= y % (2 * h : Nat)) = true :=
  decide_eq_true ((half_of_range s).2 hlo hhi)

theorem mulFast_gate {c x : Nat} (hc : c <= 16) (hx : x < 2 ^ 60) : mulFast c x = c * x := by
  have hle : c * x <= 16 * x := Nat.mul_le_mul_right x hc
  rw [mulFast, word_eq (by simp only [maxBits]; rw [Nat.mul_comm]; omega), Nat.mul_comm]

def gateSum (gate : BINGATE) (q c : Nat) : Nat := c * (gateFactor gate * (q / gateModulus gate))

section Sides

variable {u : Nat}

theorem gateSum_eq (gate : BINGATE) (c : Nat) :
    gateSum gate (16 * u) c =
      match gate with
      | .AND3 | .OR3 => c * (16 * u / 6)
      | .AND4 | .OR4 => c * (2 * u)
      | .XOR | .XNOR | .XOR_FAST | .XNOR_FAST => c * (8 * u)
      | _ => c * (4 * u) := by
  have h4 : 16 * u / 4 = 4 * u := by omega
  have h8 : 16 * u / 8 = 2 * u := by omega
  cases gate with
  | OR | AND | NOR | NAND | MAJORITY =>
      show c * (1 * (16 * u / 4)) = c * (4 * u)
      rw [h4, Nat.one_mul]
  | XOR | XNOR | XOR_FAST | XNOR_FAST =>
      show c * (2 * (16 * u / 4)) = c * (8 * u)
      rw [h4, <- Nat.mul_assoc 2]
  | AND3 | OR3 =>
      show c * (1 * (16 * u / 6)) = c * (16 * u / 6)
      rw [Nat.one_mul]
  | AND4 | OR4 =>
      show c * (1 * (16 * u / 8)) = c * (2 * u)
      rw [h8, Nat.one_mul]

theorem gateConst_eq (hu : 16 * u < 2 ^ 60) (gate : BINGATE) :
    gateConst (16 * u) gate =
      match gate with
      | .OR => 10 * u
      | .AND | .MAJORITY => 14 * u
      | .NOR => 2 * u
      | .NAND => 6 * u
      | .XOR | .XOR_FAST => 12 * u
      | .XNOR | .XNOR_FAST => 4 * u
      | .AND3 => 11 * (16 * u / 12)
      | .OR3 => 7 * (16 * u / 12)
      | .AND4 => 15 * u
      | .OR4 => 9 * u := by
  have h3 : (16 * u) >>> 3 = 2 * u := by
    rw [Nat.shiftRight_eq_div_pow]
    omega
  have h4 : (16 * u) >>> 4 = u := by
    rw [Nat.shiftRight_eq_div_pow]
    omega
  cases gate with
  | OR | AND | NOR | NAND | XOR | XNOR | MAJORITY | XOR_FAST | XNOR_FAST =>
      rw [gateConst, h3, mulFast_gate (by decide) (by omega), <- Nat.mul_assoc]
  | AND3 | OR3 => rw [gateConst, mulFast_gate (by decide) (by omega)]
  | AND4 | OR4 => rw [gateConst, h4, mulFast_gate (by decide) (by omega)]

theorem threshold_side {h step const n T c : Nat} {e : Int} (hc : c <= n)
    (hfirst : (const : Int) <= 2 * h + e) (hbelow : (T * step : Nat) + e + h < const)
    (habove : (const : Int) <= ((T + 1) * step : Nat) + e + h)
    (hlast : (n * step : Nat) + e < const) :
    decide ((h : Int) <= ((c * step : Nat) + e - const) % (2 * h : Nat)) = decide (T < c) := by
  cases Nat.lt_or_ge T c with
  | inl hlt =>
      have hlow : (T + 1) * step <= c * step := Nat.mul_le_mul_right step hlt
      have hhigh : c * step <= n * step := Nat.mul_le_mul_right step hc
      generalize (T + 1) * step = first at *
      rw [decide_eq_true hlt]
      exact upper_half (-1) (by omega) (by omega)
  | inr hge =>
      have hhigh : c * step <= T * step := Nat.mul_le_mul_right step hge
      rw [decide_eq_false (Nat.not_lt.mpr hge)]
      exact lower_half (-1) (by omega) (by omega)

theorem reversed_side {h step const n T c : Nat} {e : Int} (hc : c <= n)
    (hfirst : (const : Int) <= h + e) (hbelow : (T * step : Nat) + e < const)
    (habove : (const : Int) <= ((T + 1) * step : Nat) + e)
    (hlast : (n * step : Nat) + e < const + h) :
    decide ((h : Int) <= ((c * step : Nat) + e - const) % (2 * h : Nat)) = !decide (T < c) := by
  cases Nat.lt_or_ge T c with
  | inl hlt =>
      have hlow : (T + 1) * step <= c * step := Nat.mul_le_mul_right step hlt
      have hhigh : c * step <= n * step := Nat.mul_le_mul_right step hc
      generalize (T + 1) * step = first at *
      rw [decide_eq_true hlt]
      exact lower_half 0 (by omega) (by omega)
  | inr hge =>
      have hhigh : c * step <= T * step := Nat.mul_le_mul_right step hge
      rw [decide_eq_false (Nat.not_lt.mpr hge)]
      exact upper_half (-1) (by omega) (by omega)

theorem gate_side (hu : 16 * u < 2 ^ 60) {gate : BINGATE} {c : Nat} (hc : c <= gateInputs gate)
    {e : Int} (he : ErrorBound gate (16 * u : Nat) e) :
    decide (((8 * u : Nat) : Int) <= ((gateSum gate (16 * u) c : Nat) + e -
      (gateConst (16 * u) gate : Nat)) % (2 * (8 * u) : Nat)) = countTruth gate c := by
  have hneg := neg_abs_le e
  have hpos := le_abs_self e
  rw [gateConst_eq hu, gateSum_eq]
  cases gate with
  | OR | AND =>
      dsimp only
      have hsmall : 8 * |e| < (16 * u : Nat) := he
      have hc : c <= 2 := hc
      exact threshold_side hc (by omega) (by omega) (by omega) (by omega)
  | MAJORITY =>
      dsimp only
      have hsmall : 8 * |e| < (16 * u : Nat) := he
      have hc : c <= 3 := hc
      exact threshold_side hc (by omega) (by omega) (by omega) (by omega)
  | AND3 | OR3 =>
      dsimp only
      have hsmall : 12 * (|e| + 11) < (16 * u : Nat) := he
      have hc : c <= 3 := hc
      exact threshold_side hc (by omega) (by omega) (by omega) (by omega)
  | AND4 | OR4 =>
      dsimp only
      have hsmall : 16 * |e| < (16 * u : Nat) := he
      have hc : c <= 4 := hc
      exact threshold_side hc (by omega) (by omega) (by omega) (by omega)
  | NOR | NAND =>
      dsimp only
      have hsmall : 8 * |e| < (16 * u : Nat) := he
      have hc : c <= 2 := hc
      exact reversed_side hc (by omega) (by omega) (by omega) (by omega)
  | XOR | XOR_FAST =>
      dsimp only
      have hsmall : 4 * |e| < (16 * u : Nat) := he
      have hc : c <= 2 := hc
      interval_cases c
      · exact lower_half (-1) (by omega) (by omega)
      · exact upper_half (-1) (by omega) (by omega)
      · exact lower_half 0 (by omega) (by omega)
  | XNOR | XNOR_FAST =>
      dsimp only
      have hsmall : 4 * |e| < (16 * u : Nat) := he
      have hc : c <= 2 := hc
      interval_cases c
      · exact upper_half (-1) (by omega) (by omega)
      · exact lower_half 0 (by omega) (by omega)
      · exact upper_half 0 (by omega) (by omega)

end Sides

end BinFHE
end OpenFHE
