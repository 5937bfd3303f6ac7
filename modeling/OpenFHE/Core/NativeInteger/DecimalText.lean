import OpenFHE.Core.NativeInteger.Word
import OpenFHE.Foundation.DigitText
import OpenFHE.Foundation.Outcome
import Mathlib.Data.Int.ModEq
import Mathlib.Tactic.Linarith

/-!
# Decimal texts of native integers

`SetValue` reads a text into a word of `w` bits.  Its tests are on each character, from
above only, and on the order of two partial values.  `toString` of a double word joins three
groups of 15 digits.
-/

namespace OpenFHE
namespace Core
namespace NativeInteger

open Foundation

/-- The value of a `char` as a digit, which may be negative. -/
def charDigit (c : UInt8) : Int := Int.bmod c.toNat (2 ^ 8) - 48

/-- The loop of `SetValue`, with the partial value `acc` and the one before it. -/
def setValueLoop (w : Nat) (str : Bytes) : Bytes -> Nat -> Nat -> Outcome Nat
  | [], acc, _ => .ok acc
  | c :: rest, acc, tst =>
      if charDigit c > 9 then .error (.thrown "String contains a non-digit")
      else
        let acc := ((10 * acc + charDigit c) % 2 ^ w).toNat
        if acc < tst then
          .error (.thrown (textOf str ++ " is too large to fit in this native integer object"))
        else setValueLoop w str rest acc acc

/-- `SetValue` of an object with the value `m_value`: the outcome and the value after it. -/
def setValue (w : Nat) (str : Bytes) (m_value : Nat) : Outcome Unit × Nat :=
  match setValueLoop w str str 0 0 with
  | .ok acc => (.ok (), acc)
  | .error e => (.error e, m_value)

structure PrinterState where
  value : Nat
  tmp : Bytes
  msd : Nat
  it : Nat
deriving DecidableEq, Repr

def maxChars : Nat := 15

def printGroup (s : PrinterState) : PrinterState :=
  let part := s.value % 10 ^ maxChars % 2 ^ 64
  let value := s.value / 10 ^ maxChars
  if part ≠ 0 then
    let text := numeral part
    { value := value
      tmp := s.tmp.take (s.it - text.length) ++ text ++ s.tmp.drop s.it
      msd := s.it - text.length
      it := s.it - maxChars }
  else { s with value := value, it := s.it - maxChars }

/-- `toString` of a value of 128 bits. -/
def toString128 (value : Nat) : Bytes :=
  let s := printGroup (printGroup (printGroup
    { value := value, tmp := List.replicate 46 48, msd := 45, it := 46 }))
  s.tmp.drop s.msd

/-! ## Input -/

def signedDigits (s : Bytes) : Int := s.foldl (fun n c => 10 * n + charDigit c) 0

theorem signedDigits_concat (s : Bytes) (c : UInt8) :
    signedDigits (s ++ [c]) = 10 * signedDigits s + charDigit c := by
  unfold signedDigits
  rw [List.foldl_append]
  rfl

theorem charDigit_eq {c : UInt8} (hc : IsDigit 10 c) : charDigit c = digitValue c := by
  rcases hc with ⟨hlow, hhigh⟩
  unfold charDigit digitValue
  rw [Int.bmod_eq_of_le (by omega) (by omega)]
  omega

theorem signedDigits_eq {s : Bytes} (hs : IsNumeral 10 s) : signedDigits s = numeralValue 10 s := by
  induction s using List.reverseRecOn with
  | nil => rfl
  | append_singleton s c ih =>
      have hc := hs c (List.mem_append_right s List.mem_cons_self)
      rw [signedDigits_concat, numeralValue_concat, charDigit_eq hc,
        ih fun d hd => hs d (List.mem_append_left [c] hd)]
      push_cast
      ring

/-- The partial value after a prefix, when the loop has come so far. -/
def prefixWord (w : Nat) (s : Bytes) : Nat := (signedDigits s % 2 ^ w).toNat

/-- The character after the prefix `p` makes the loop throw. -/
def RejectsAfter (w : Nat) (p : Bytes) (c : UInt8) : Prop :=
  charDigit c > 9 ∨ prefixWord w (p ++ [c]) < prefixWord w p

instance (w : Nat) (p : Bytes) (c : UInt8) : Decidable (RejectsAfter w p c) :=
  inferInstanceAs (Decidable (charDigit c > 9 ∨ prefixWord w (p ++ [c]) < prefixWord w p))

theorem prefixWord_concat (w : Nat) (p : Bytes) (c : UInt8) :
    ((10 * (prefixWord w p : Int) + charDigit c) % 2 ^ w).toNat = prefixWord w (p ++ [c]) := by
  have hpos : (0 : Int) < 2 ^ w := by positivity
  unfold prefixWord
  rw [signedDigits_concat, Int.toNat_of_nonneg (Int.emod_nonneg _ hpos.ne'), Int.add_emod,
    Int.mul_emod, Int.emod_emod, ← Int.mul_emod, ← Int.add_emod]

/-- The loop from a prefix on: it throws at the first rejected character. -/
theorem setValueLoop_spec (w : Nat) (str p rest : Bytes) :
    (setValueLoop w str rest (prefixWord w p) (prefixWord w p) =
        .ok (prefixWord w (p ++ rest)) ∧
      forall q c t, rest = q ++ c :: t -> ¬ RejectsAfter w (p ++ q) c) ∨
    (exists message, setValueLoop w str rest (prefixWord w p) (prefixWord w p) =
        .error (.thrown message) ∧
      exists q c t, rest = q ++ c :: t ∧ RejectsAfter w (p ++ q) c) := by
  induction rest generalizing p with
  | nil =>
      refine Or.inl ⟨?_, ?_⟩
      · rw [List.append_nil]
        rfl
      · intro q c t h
        exact absurd h.symm (List.append_ne_nil_of_right_ne_nil q (List.cons_ne_nil c t))
  | cons c rest ih =>
      unfold setValueLoop
      by_cases hchar : charDigit c > 9
      · refine Or.inr ⟨_, if_pos hchar, [], c, rest, rfl, ?_⟩
        rw [List.append_nil]
        exact Or.inl hchar
      · rw [if_neg hchar]
        dsimp only
        rw [prefixWord_concat]
        by_cases hwrap : prefixWord w (p ++ [c]) < prefixWord w p
        · refine Or.inr ⟨_, if_pos hwrap, [], c, rest, rfl, ?_⟩
          rw [List.append_nil]
          exact Or.inr hwrap
        · rw [if_neg hwrap]
          have happend : p ++ [c] ++ rest = p ++ c :: rest := by simp
          rcases ih (p ++ [c]) with ⟨hrun, hnone⟩ | ⟨message, hrun, q, d, t, hsplit, hreject⟩
          · refine Or.inl ⟨happend ▸ hrun, ?_⟩
            intro q d t hsplit
            cases q with
            | nil =>
                cases hsplit
                rw [List.append_nil]
                intro hreject
                cases hreject with
                | inl h => exact hchar h
                | inr h => exact hwrap h
            | cons x q =>
                cases hsplit
                have hsame : p ++ c :: q = p ++ [c] ++ q := by simp
                rw [hsame]
                exact hnone q d t rfl
          · refine Or.inr ⟨message, hrun, c :: q, d, t, by rw [hsplit]; rfl, ?_⟩
            have hsame : p ++ c :: q = p ++ [c] ++ q := by simp
            rw [hsame]
            exact hreject

theorem prefixWord_eq {w : Nat} {s : Bytes} (hs : IsNumeral 10 s)
    (hfits : numeralValue 10 s < 2 ^ w) : prefixWord w s = numeralValue 10 s := by
  unfold prefixWord
  rw [signedDigits_eq hs, Int.emod_eq_of_lt (by positivity) (by exact_mod_cast hfits)]
  rfl

theorem not_rejectsAfter {w : Nat} {p t : Bytes} {c : UInt8} (hs : IsNumeral 10 (p ++ c :: t))
    (hfits : numeralValue 10 (p ++ c :: t) < 2 ^ w) : ¬ RejectsAfter w p c := by
  have hp : IsNumeral 10 p := fun d hd => hs d (List.mem_append_left _ hd)
  have hc : IsDigit 10 c := hs c (List.mem_append_right p List.mem_cons_self)
  have hpc : IsNumeral 10 (p ++ [c]) := by
    intro d hd
    rcases List.mem_append.mp hd with hmem | hmem
    · exact hp d hmem
    · rw [List.mem_singleton.mp hmem]
      exact hc
  have hpos := Nat.pow_pos (n := t.length) (show 0 < 10 by decide)
  have hstep := numeralValue_concat 10 p c
  have hwhole : numeralValue 10 (p ++ [c]) <= numeralValue 10 (p ++ c :: t) := by
    rw [show p ++ c :: t = p ++ [c] ++ t by simp, numeralValue_append 10 (p ++ [c]) t]
    exact (Nat.le_mul_of_pos_left _ hpos).trans (Nat.le_add_right _ _)
  intro hreject
  cases hreject with
  | inl hchar =>
      have hlt := digitValue_lt hc
      rw [charDigit_eq hc] at hchar
      omega
  | inr hwrap =>
      rw [prefixWord_eq hpc (by omega), prefixWord_eq hp (by omega)] at hwrap
      omega

def Fits (w : Nat) (str : Bytes) : Prop := IsNumeral 10 str ∧ numeralValue 10 str < 2 ^ w

/-- A number of the word is stored, and any other text throws and leaves the old value. -/
def SetsValue (w : Nat) (str : Bytes) (m_value : Nat) : Prop :=
  (Fits w str -> setValue w str m_value = (.ok (), numeralValue 10 str)) ∧
    (¬ Fits w str -> exists message, setValue w str m_value = (.error (.thrown message), m_value))

theorem setValue_fits {w : Nat} {str : Bytes} (h : Fits w str) (m_value : Nat) :
    setValue w str m_value = (.ok (), numeralValue 10 str) := by
  unfold setValue
  rcases setValueLoop_spec w str [] str with ⟨hrun, _⟩ | ⟨_, _, q, c, t, hsplit, hreject⟩
  · rw [List.nil_append, prefixWord_eq h.left h.right] at hrun
    rw [show setValueLoop w str str 0 0 = .ok (numeralValue 10 str) from hrun]
  · rw [List.nil_append] at hreject
    rcases h with ⟨hdigits, hlt⟩
    rw [hsplit] at hdigits hlt
    exact absurd hreject (not_rejectsAfter hdigits hlt)

theorem setsValue_iff (w : Nat) (str : Bytes) (m_value : Nat) : SetsValue w str m_value <->
    Fits w str ∨ exists p c t, str = p ++ c :: t ∧ RejectsAfter w p c := by
  constructor
  · rintro ⟨_, hthrows⟩
    by_cases hfits : Fits w str
    · exact Or.inl hfits
    · refine Or.inr ?_
      rcases hthrows hfits with ⟨message, hset⟩
      unfold setValue at hset
      rcases setValueLoop_spec w str [] str with ⟨hrun, _⟩ | ⟨_, _, q, c, t, hsplit, hreject⟩
      · rw [show setValueLoop w str str 0 0 = .ok (prefixWord w ([] ++ str)) from hrun] at hset
        cases hset
      · exact ⟨q, c, t, hsplit, hreject⟩
  · intro h
    refine ⟨fun hfits => setValue_fits hfits m_value, ?_⟩
    intro hfits
    rcases h.resolve_left hfits with ⟨p, c, t, hsplit, hreject⟩
    unfold setValue
    rcases setValueLoop_spec w str [] str with ⟨_, hnone⟩ | ⟨message, hrun, _⟩
    · exact absurd hreject (hnone p c t hsplit)
    · rw [show setValueLoop w str str 0 0 = .error (.thrown message) from hrun]
      exact ⟨message, rfl⟩

/-! ## Output -/

structure PrinterInv (x k : Nat) (s : PrinterState) : Prop where
  value : s.value = x / 10 ^ (15 * k)
  it : s.it = 46 - 15 * k
  tmp : exists text, s.tmp = List.replicate (46 - 15 * k) 48 ++ text ∧
    text.length = 15 * k ∧ IsNumeral 10 text ∧ numeralValue 10 text = x % 10 ^ (15 * k)
  msd : s.tmp.drop s.msd = numeral (x % 10 ^ (15 * k))

theorem numeral_length_le {x n : Nat} (hx : x ≠ 0) (h : x < 10 ^ n) : (numeral x).length <= n := by
  unfold numeral
  rw [if_neg hx, List.length_map, List.length_reverse]
  exact (Nat.digits_length_le_iff (by decide) x).mpr h

theorem zeros_split {k n : Nat} (hk : k < 3) (hn : n <= 15) (text : Bytes) :
    List.replicate (46 - 15 * k - n) 48 ++ text =
      List.replicate (46 - 15 * (k + 1)) 48 ++ (List.replicate (15 - n) 48 ++ text) := by
  have hlength : 46 - 15 * k - n = 46 - 15 * (k + 1) + (15 - n) := by omega
  rw [hlength, ← List.replicate_append_replicate, List.append_assoc]

theorem printGroup_spec {x k : Nat} {s : PrinterState} (hs : PrinterInv x k s) (hk : k < 3) :
    PrinterInv x (k + 1) (printGroup s) := by
  rcases hs.tmp with ⟨text, htmp, hlength, hdigits, hvalue⟩
  have hpow : 10 ^ (15 * (k + 1)) = 10 ^ (15 * k) * 10 ^ 15 := by
    rw [Nat.mul_succ, pow_add]
  have hpart : s.value % 10 ^ maxChars % 2 ^ 64 = x / 10 ^ (15 * k) % 10 ^ 15 := by
    rw [hs.value]
    exact Nat.mod_eq_of_lt ((Nat.mod_lt _ (by decide)).trans (by decide))
  have hnext : s.value / 10 ^ maxChars = x / 10 ^ (15 * (k + 1)) := by
    rw [hs.value, hpow, Nat.div_div_eq_div_mul]
    rfl
  have hmod : x % 10 ^ (15 * (k + 1)) =
      x % 10 ^ (15 * k) + 10 ^ (15 * k) * (x / 10 ^ (15 * k) % 10 ^ 15) := by
    rw [hpow, Nat.mod_mul]
  have hit : s.it - maxChars = 46 - 15 * (k + 1) := by
    rw [hs.it]
    show 46 - 15 * k - 15 = 46 - 15 * (k + 1)
    omega
  unfold printGroup
  dsimp only
  rw [hpart, hnext, hit]
  split
  next hne =>
      generalize hg : x / 10 ^ (15 * k) % 10 ^ 15 = part at *
      have hlen : (numeral part).length <= 15 := by
        apply numeral_length_le hne
        rw [← hg]
        exact Nat.mod_lt _ (by decide)
      have htake : s.tmp.take (s.it - (numeral part).length) =
          List.replicate (46 - 15 * k - (numeral part).length) 48 := by
        rw [htmp, hs.it, List.take_append_of_le_length (by
          rw [List.length_replicate]
          omega), List.take_replicate, Nat.min_eq_left (Nat.sub_le _ _)]
      have hdrop : s.tmp.drop s.it = text := by
        rw [htmp, hs.it, List.drop_left' List.length_replicate]
      have hjoined : numeralValue 10 (numeral part ++ text) = x % 10 ^ (15 * (k + 1)) := by
        rw [numeralValue_append, numeralValue_numeral, hvalue, hlength, hmod]
        omega
      have hnumeral : IsNumeral 10 (numeral part ++ text) := by
        intro c hc
        rcases List.mem_append.mp hc with hmem | hmem
        · exact isNumeral_numeral part c hmem
        · exact hdigits c hmem
      rw [htake, hdrop]
      constructor
      case value => rfl
      case it => rfl
      case tmp =>
        refine ⟨List.replicate (15 - (numeral part).length) 48 ++ (numeral part ++ text),
          ?_, ?_, ?_, ?_⟩
        · dsimp only
          rw [List.append_assoc, zeros_split hk hlen]
        · rw [List.length_append, List.length_append, List.length_replicate, hlength]
          omega
        · exact hnumeral.zeros_append (by decide) _
        · rw [numeralValue_append, numeralValue_replicate_zero, hjoined]
          omega
      case msd =>
        dsimp only
        rw [hs.it, List.append_assoc, List.drop_left' List.length_replicate, ← hjoined]
        apply (numeral_numeralValue hnumeral _ _).symm
        · exact List.append_ne_nil_of_left_ne_nil (numeral_ne_nil part) text
        · rw [List.head?_append_of_ne_nil _ (numeral_ne_nil part)]
          exact numeral_head hne
  next heq =>
      have hzero : x / 10 ^ (15 * k) % 10 ^ 15 = 0 := not_not.mp heq
      rw [hzero, Nat.mul_zero, Nat.add_zero] at hmod
      constructor
      case value => rfl
      case it => rfl
      case tmp =>
        refine ⟨List.replicate 15 48 ++ text, ?_, ?_, ?_, ?_⟩
        · dsimp only
          rw [htmp]
          exact zeros_split hk (Nat.zero_le 15) text
        · rw [List.length_append, List.length_replicate, hlength]
          omega
        · exact hdigits.zeros_append (by decide) _
        · rw [numeralValue_append, numeralValue_replicate_zero, hvalue, hmod]
          omega
      case msd =>
        dsimp only
        rw [hmod]
        exact hs.msd

theorem toString128_eq {x : Nat} (hx : x < 2 ^ 128) : toString128 x = numeral x := by
  have hinit : PrinterInv x 0
      { value := x, tmp := List.replicate 46 48, msd := 45, it := 46 } := by
    constructor
    case value => rw [Nat.mul_zero, pow_zero, Nat.div_one]
    case it => rfl
    case tmp =>
      refine ⟨[], rfl, rfl, ?_, ?_⟩
      · intro c hc
        cases hc
      · rw [Nat.mul_zero, pow_zero, Nat.mod_one]
        rfl
    case msd =>
      rw [Nat.mul_zero, pow_zero, Nat.mod_one]
      rfl
  have h1 := printGroup_spec hinit (by decide)
  have h2 := printGroup_spec h1 (by decide)
  have h3 := printGroup_spec h2 (by decide)
  have hmsd := h3.msd
  rw [Nat.mod_eq_of_lt (hx.trans (by decide))] at hmsd
  exact hmsd

/-! ## Contract -/

/-- Which texts a word of `w` bits is set from, and that its own texts are among them. -/
structure NativeDecimal (w : Nat) : Prop where
  sets (str : Bytes) (m_value : Nat) : SetsValue w str m_value <->
    Fits w str ∨ exists p c t, str = p ++ c :: t ∧ RejectsAfter w p c
  roundTrip {x : Nat} (hx : x < 2 ^ w) (m_value : Nat) :
    setValue w (numeral x) m_value = (.ok (), x)
  roundTrip128 {x : Nat} (hx : x < 2 ^ w) (hw : w = 128) (m_value : Nat) :
    toString128 x = numeral x ∧ setValue w (toString128 x) m_value = (.ok (), x)

end NativeInteger
end Core
end OpenFHE
