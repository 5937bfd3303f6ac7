import Mathlib.Data.Nat.Digits.Lemmas

/-!
# Numerals

A text is a list of bytes.  The number that a text of digits denotes in some base, and the
decimal numeral of a number, which has no leading zeros.
-/

namespace OpenFHE
namespace Foundation

abbrev Bytes := List UInt8

def digitByte (d : Nat) : UInt8 := UInt8.ofNat (48 + d)

def digitValue (c : UInt8) : Nat := c.toNat - 48

def IsDigit (b : Nat) (c : UInt8) : Prop := 48 <= c.toNat ∧ c.toNat < 48 + b

instance (b : Nat) (c : UInt8) : Decidable (IsDigit b c) :=
  inferInstanceAs (Decidable (48 <= c.toNat ∧ c.toNat < 48 + b))

def IsNumeral (b : Nat) (s : Bytes) : Prop := forall c, c ∈ s -> IsDigit b c

instance (b : Nat) (s : Bytes) : Decidable (IsNumeral b s) :=
  inferInstanceAs (Decidable (forall c, c ∈ s -> IsDigit b c))

def numeralValue (b : Nat) (s : Bytes) : Nat :=
  s.foldl (fun n c => b * n + digitValue c) 0

def numeral (x : Nat) : Bytes :=
  if x = 0 then [digitByte 0] else (Nat.digits 10 x).reverse.map digitByte

def textOf (s : Bytes) : String := String.ofList (s.map fun c => Char.ofNat c.toNat)

/-! ## Digits -/

theorem digitByte_toNat {d : Nat} (h : d < 10) : (digitByte d).toNat = 48 + d := by
  unfold digitByte
  rw [UInt8.toNat_ofNat']
  omega

theorem digitValue_digitByte {d : Nat} (h : d < 10) : digitValue (digitByte d) = d := by
  unfold digitValue
  rw [digitByte_toNat h]
  omega

theorem isDigit_digitByte {d : Nat} (h : d < 10) : IsDigit 10 (digitByte d) := by
  constructor
  · rw [digitByte_toNat h]
    omega
  · rw [digitByte_toNat h]
    omega

theorem digitByte_digitValue {c : UInt8} (h : IsDigit 10 c) : digitByte (digitValue c) = c := by
  rcases h with ⟨hlow, hhigh⟩
  apply UInt8.toNat_inj.mp
  unfold digitValue
  rw [digitByte_toNat (by omega)]
  omega

theorem digitValue_lt {b : Nat} {c : UInt8} (h : IsDigit b c) : digitValue c < b := by
  rcases h with ⟨hlow, hhigh⟩
  unfold digitValue
  omega

theorem IsNumeral.tail {b : Nat} {c : UInt8} {s : Bytes} (h : IsNumeral b (c :: s)) :
    IsNumeral b s :=
  fun d hd => h d (List.mem_cons_of_mem c hd)

theorem IsNumeral.head {b : Nat} {c : UInt8} {s : Bytes} (h : IsNumeral b (c :: s)) :
    IsDigit b c :=
  h c List.mem_cons_self

theorem IsNumeral.cons {b : Nat} {c : UInt8} {s : Bytes} (hc : IsDigit b c)
    (h : IsNumeral b s) : IsNumeral b (c :: s) := by
  intro d hd
  cases List.mem_cons.mp hd with
  | inl heq =>
      rw [heq]
      exact hc
  | inr hmem => exact h d hmem

theorem IsNumeral.zeros_append {b : Nat} {s : Bytes} (h : IsNumeral b s) (hb : 0 < b) (n : Nat) :
    IsNumeral b (List.replicate n 48 ++ s) := by
  induction n with
  | zero => exact h
  | succ n ih =>
      rw [List.replicate_succ, List.cons_append]
      exact ih.cons ⟨Nat.le_refl 48, Nat.lt_add_of_pos_right hb⟩

theorem isNumeral_zeros {b : Nat} (hb : 0 < b) (n : Nat) : IsNumeral b (List.replicate n 48) := by
  have h := IsNumeral.zeros_append (s := []) (fun c hc => by cases hc) hb n
  rwa [List.append_nil] at h

/-! ## Values -/

@[simp] theorem numeralValue_nil (b : Nat) : numeralValue b [] = 0 := rfl

theorem numeralValue_concat (b : Nat) (s : Bytes) (c : UInt8) :
    numeralValue b (s ++ [c]) = b * numeralValue b s + digitValue c := by
  unfold numeralValue
  rw [List.foldl_append]
  rfl

theorem numeralValue_eq_ofDigits (b : Nat) (s : Bytes) :
    numeralValue b s = Nat.ofDigits b (s.reverse.map digitValue) := by
  induction s using List.reverseRecOn with
  | nil => rfl
  | append_singleton s c ih =>
      rw [numeralValue_concat, ih, List.reverse_append, List.reverse_singleton,
        List.singleton_append, List.map_cons, Nat.ofDigits_cons, Nat.add_comm]

theorem numeralValue_append (b : Nat) (s t : Bytes) :
    numeralValue b (s ++ t) = b ^ t.length * numeralValue b s + numeralValue b t := by
  rw [numeralValue_eq_ofDigits, numeralValue_eq_ofDigits, numeralValue_eq_ofDigits,
    List.reverse_append, List.map_append, Nat.ofDigits_append, List.length_map,
    List.length_reverse, Nat.add_comm]

theorem numeralValue_cons (b : Nat) (c : UInt8) (s : Bytes) :
    numeralValue b (c :: s) = b ^ s.length * digitValue c + numeralValue b s := by
  have h := numeralValue_append b [c] s
  rw [List.singleton_append] at h
  rw [h, show numeralValue b [c] = digitValue c by simp [numeralValue]]

theorem numeralValue_lt {b : Nat} (hb : 1 < b) {s : Bytes} (h : IsNumeral b s) :
    numeralValue b s < b ^ s.length := by
  rw [numeralValue_eq_ofDigits]
  have hlt := Nat.ofDigits_lt_base_pow_length hb (l := s.reverse.map digitValue)
    (by
      intro d hd
      rcases List.mem_map.mp hd with ⟨c, hc, rfl⟩
      exact digitValue_lt (h c (List.mem_reverse.mp hc)))
  rw [List.length_map, List.length_reverse] at hlt
  exact hlt

theorem numeralValue_div {b : Nat} (hb : 1 < b) (s : Bytes) {t : Bytes} (ht : IsNumeral b t) :
    numeralValue b (s ++ t) / b ^ t.length = numeralValue b s := by
  have hpos : 0 < b ^ t.length := Nat.pow_pos (by omega)
  rw [numeralValue_append, Nat.mul_add_div hpos, Nat.div_eq_of_lt (numeralValue_lt hb ht),
    Nat.add_zero]

theorem numeralValue_mod {b : Nat} (hb : 1 < b) (s : Bytes) {t : Bytes} (ht : IsNumeral b t) :
    numeralValue b (s ++ t) % b ^ t.length = numeralValue b t := by
  rw [numeralValue_append, Nat.mul_add_mod, Nat.mod_eq_of_lt (numeralValue_lt hb ht)]

theorem IsNumeral.take {b : Nat} {s : Bytes} (h : IsNumeral b s) (k : Nat) :
    IsNumeral b (s.take k) :=
  fun c hc => h c (List.mem_of_mem_take hc)

theorem IsNumeral.drop {b : Nat} {s : Bytes} (h : IsNumeral b s) (k : Nat) :
    IsNumeral b (s.drop k) :=
  fun c hc => h c (List.mem_of_mem_drop hc)

theorem numeralValue_replicate_zero (b n : Nat) :
    numeralValue b (List.replicate n 48) = 0 := by
  induction n with
  | zero => rfl
  | succ n ih =>
      rw [List.replicate_succ, numeralValue_cons, ih]
      rfl

theorem numeralValue_dropWhile (b : Nat) (s : Bytes) :
    numeralValue b (s.dropWhile fun c => decide (c = 48)) = numeralValue b s := by
  induction s with
  | nil => rfl
  | cons c s ih =>
      by_cases hc : c = 48
      · rw [List.dropWhile_cons_of_pos (by simpa using hc), ih, numeralValue_cons, hc]
        simp [digitValue]
      · rw [List.dropWhile_cons_of_neg (by simpa using hc)]

theorem IsNumeral.dropWhile {b : Nat} {s : Bytes} (h : IsNumeral b s) (p : UInt8 -> Bool) :
    IsNumeral b (s.dropWhile p) :=
  fun c hc => h c ((List.dropWhile_sublist p).subset hc)

/-! ## Numerals -/

theorem isNumeral_numeral (x : Nat) : IsNumeral 10 (numeral x) := by
  intro c hc
  unfold numeral at hc
  split at hc
  next =>
      rw [List.mem_singleton.mp hc]
      exact isDigit_digitByte (by decide)
  next =>
      rcases List.mem_map.mp hc with ⟨d, hd, rfl⟩
      exact isDigit_digitByte (Nat.digits_lt_base (by decide) (List.mem_reverse.mp hd))

theorem numeralValue_numeral (x : Nat) : numeralValue 10 (numeral x) = x := by
  unfold numeral
  split
  next hzero =>
      rw [hzero]
      rfl
  next =>
      have hid : (Nat.digits 10 x).map (digitValue ∘ digitByte) = Nat.digits 10 x := by
        conv_rhs => rw [← List.map_id (Nat.digits 10 x)]
        apply List.map_congr_left
        intro d hd
        exact digitValue_digitByte (Nat.digits_lt_base (by decide) hd)
      rw [numeralValue_eq_ofDigits, ← List.map_reverse, List.reverse_reverse, List.map_map, hid,
        Nat.ofDigits_digits]

theorem numeral_ne_nil (x : Nat) : numeral x ≠ [] := by
  unfold numeral
  split
  next => exact List.cons_ne_nil _ _
  next hx =>
      intro h
      rw [List.map_eq_nil_iff, List.reverse_eq_nil_iff] at h
      exact hx (Nat.digits_eq_nil_iff_eq_zero.mp h)

theorem numeral_head {x : Nat} (hx : x ≠ 0) : (numeral x).head? ≠ some 48 := by
  unfold numeral
  rw [if_neg hx, List.head?_map, List.head?_reverse]
  have hne : Nat.digits 10 x ≠ [] := Nat.digits_ne_nil_iff_ne_zero.mpr hx
  have hlast := Nat.getLast_digit_ne_zero 10 hx
  have hlt := Nat.digits_lt_base (by decide : 1 < 10) (List.getLast_mem hne)
  rw [List.getLast?_eq_some_getLast hne, Option.map_some]
  intro h
  have hbyte := congrArg UInt8.toNat (Option.some.inj h)
  rw [digitByte_toNat hlt] at hbyte
  exact hlast (Nat.add_left_cancel hbyte)

theorem numeral_numeralValue {s : Bytes} (h : IsNumeral 10 s) (hne : s ≠ [])
    (hhead : s.head? ≠ some 48) : numeral (numeralValue 10 s) = s := by
  have hdigits : Nat.digits 10 (numeralValue 10 s) = s.reverse.map digitValue := by
    rw [numeralValue_eq_ofDigits]
    apply Nat.digits_ofDigits 10 (by decide)
    · intro d hd
      rcases List.mem_map.mp hd with ⟨c, hc, rfl⟩
      exact digitValue_lt (h c (List.mem_reverse.mp hc))
    · intro hlist
      cases s with
      | nil => exact absurd rfl hne
      | cons c s =>
          have hdigit := h.head
          have hfirst : c ≠ 48 := fun heq => hhead (by rw [heq, List.head?_cons])
          have hbyte : c.toNat ≠ 48 := fun heq => hfirst (UInt8.toNat_inj.mp heq)
          simp only [List.reverse_cons, List.map_append, List.map_cons, List.map_nil,
            List.getLast_append_singleton]
          unfold digitValue
          have hlow := hdigit.left
          omega
  have hzero : numeralValue 10 s ≠ 0 := by
    intro hzero
    rw [hzero, Nat.digits_zero] at hdigits
    exact hne (List.reverse_eq_nil_iff.mp (List.map_eq_nil_iff.mp hdigits.symm))
  unfold numeral
  rw [if_neg hzero, hdigits, ← List.map_reverse, List.reverse_reverse, List.map_map]
  conv_rhs => rw [← List.map_id s]
  apply List.map_congr_left
  intro c hc
  exact digitByte_digitValue (h c hc)

end Foundation
end OpenFHE
