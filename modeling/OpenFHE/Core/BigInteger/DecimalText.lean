import OpenFHE.Core.BigInteger.ModularPower
import OpenFHE.Foundation.DigitText

/-!
# Decimal texts of big integers

`ToString` doubles a vector of decimal digits for each bit, from the most significant one
down.  `SetValue` halves a text of digits in place and collects the bits that fall out; the
digits before its start pointer are zero.
-/

namespace OpenFHE
namespace Core
namespace BigInteger

open NativeInteger
open Foundation

/-- The value left in a `uschar`. -/
def uschar (x : Nat) : Nat := x % 2 ^ 8

/-- The value left in a `char`, which is signed. -/
def schar (x : Int) : Int := Int.bmod x (2 ^ 8)

namespace Ubint

variable (l : Nat)

/-- The number of limbs for `msb` bits. -/
def msbToLimbs (msb : Nat) : Nat :=
  let mask := limbBitLength l - 1
  if msb = 0 then 1 else (msb >>> l) + if msb &&& mask ≠ 0 then 1 else 0

/-- The bit with the given index, counted from one. -/
def getBitAtIndex (x : Ubint) (index : Nat) : Outcome Nat :=
  let mask := limbBitLength l - 1
  if index > x.msb then .ok 0
  else do
    let idx := msbToLimbs l index - 1
    let index := index &&& mask
    let v <- entry x.value idx
    return (v >>> (if index ≠ 0 then index - 1 else mask)) &&& 1

/-- The inner loop of `ToString`: twice the digits, with the carry `ofl`. -/
def doubleDigits : List Nat -> Nat -> List Nat × Nat
  | [], ofl => ([], ofl)
  | a :: val, ofl =>
      let a := uschar ((a <<< 1) + ofl)
      let ofl := if a > 9 then 1 else 0
      let rest := doubleDigits val ofl
      ((if a > 9 then a - 10 else a) :: rest.1, rest.2)

/-- The loop of `ToString` over the bits from `i` down. -/
def toStringLoop (x : Ubint) : Nat -> List Nat -> Outcome (List Nat)
  | 0, val => .ok val
  | i + 1, val => do
      let bit <- getBitAtIndex l x (i + 1)
      let doubled := doubleDigits val bit
      toStringLoop x i (if doubled.2 ≠ 0 then doubled.1 ++ [1] else doubled.1)

def toString (x : Ubint) : Outcome Bytes := do
  let val <- toStringLoop l x x.msb [0]
  return (val.map digitByte).reverse

/-- The digits from the start pointer on, halved in place: an odd one adds ten to the next. -/
def halveDigits : Int -> List Int -> List Int
  | _, [] => []
  | ten, a :: v =>
      let a := schar (a + ten)
      (a >>> (1 : Nat)) :: halveDigits (a % 2 * 10) v

structure SetValueState where
  v : List Int
  zptr : Nat
  cnt : Nat
  val : Nat
  value : List Nat
deriving DecidableEq, Repr

def setValueStep (s : SetValueState) : Outcome SetValueState := do
  let arrSize := s.v.length - 1
  let last <- entry s.v arrSize
  let val := s.val ||| limb l ((last % 2).toNat <<< s.cnt)
  let cnt := s.cnt + 1
  let v := s.v.take s.zptr ++ halveDigits 0 (s.v.drop s.zptr)
  let first <- entry v s.zptr
  let zptr := if first = 0 then s.zptr + 1 else s.zptr
  if cnt = limbBitLength l ∨ zptr > arrSize then
    return { v := v, zptr := zptr, cnt := 0, val := 0, value := s.value ++ [val] }
  else
    return { v := v, zptr := zptr, cnt := cnt, val := val, value := s.value }

/-- The characters without leading zeros, and one zero when there are no others. -/
def strippedText (vin : Bytes) : Bytes :=
  let v := vin.dropWhile fun c => decide (c = 48)
  if v.length = 0 then [48] else v

/-- `SetValue`, with at most `fuel` tests of its loop. -/
def setValue (fuel : Nat) (vin : Bytes) : Outcome Ubint := do
  let v := (strippedText vin).map fun c => schar (schar c.toNat - 48)
  let s <- whileLoop (fun s => decide (s.zptr <= s.v.length - 1)) (setValueStep l) fuel
    { v := v, zptr := 0, cnt := 0, val := 0, value := [] }
  return ofLimbs l s.value

variable {l}

/-! ## Bits -/

theorem msbToLimbs_eq {index : Nat} (hpos : 0 < index) :
    limbBitLength l * (msbToLimbs l index - 1) +
        (if index &&& (limbBitLength l - 1) ≠ 0 then (index &&& (limbBitLength l - 1)) - 1
          else limbBitLength l - 1) = index - 1 ∧
      (if index &&& (limbBitLength l - 1) ≠ 0 then (index &&& (limbBitLength l - 1)) - 1
          else limbBitLength l - 1) < limbBitLength l := by
  rcases shift_split l index with ⟨hsplit, hlow⟩
  have hbits := limbBitLength_pos l
  unfold msbToLimbs
  rw [if_neg (by omega)]
  by_cases hlimb : index &&& (limbBitLength l - 1) ≠ 0
  · rw [if_pos hlimb, if_pos hlimb, Nat.add_sub_cancel]
    omega
  · rw [if_neg hlimb, if_neg hlimb, Nat.add_zero]
    have hzero : index &&& (limbBitLength l - 1) = 0 := not_not.mp hlimb
    rw [hzero, Nat.add_zero] at hsplit
    have hshift : 0 < index >>> l := by
      apply Nat.pos_of_ne_zero
      intro h
      rw [h, Nat.mul_zero] at hsplit
      omega
    rw [Nat.mul_sub_one, hsplit]
    have hle : limbBitLength l <= index := by
      rw [← hsplit]
      exact Nat.le_mul_of_pos_right _ hshift
    omega

theorem getBitAtIndex_spec {x : Ubint} (hx : Valid l x) {i : Nat} (hi : i < x.msb) :
    getBitAtIndex l x (i + 1) = .ok ((x.toNat l >>> i) % 2) := by
  rcases msbToLimbs_eq (l := l) (show 0 < i + 1 by omega) with ⟨hsplit, hlow⟩
  rw [Nat.add_sub_cancel] at hsplit
  have hk : msbToLimbs l (i + 1) - 1 < x.value.length := by
    have hbits := hx.msb_le
    apply Nat.lt_of_mul_lt_mul_left (a := limbBitLength l)
    omega
  unfold getBitAtIndex
  dsimp only
  rw [if_neg (by omega), entry_ok (List.getElem?_eq_getElem hk), ok_bind]
  have hvalue := value_shiftRight hx.limbs hk hlow.le
  rw [hsplit] at hvalue
  have heven : 2 ∣ 2 ^ (limbBitLength l -
      if (i + 1) &&& (limbBitLength l - 1) ≠ 0 then ((i + 1) &&& (limbBitLength l - 1)) - 1
      else limbBitLength l - 1) :=
    dvd_pow_self 2 (by omega)
  rcases heven with ⟨half, hhalf⟩
  rw [hhalf, Nat.mul_assoc] at hvalue
  show Except.ok _ = Except.ok _
  rw [toNat, hvalue, Nat.add_mul_mod_self_left, Nat.and_one_is_mod]

/-! ## Output -/

/-- The decimal digits of a number, from the least significant one on. -/
structure DecimalDigits (n : Nat) (val : List Nat) : Prop where
  digits : forall d, d ∈ val -> d < 10
  value : Nat.ofDigits 10 val = n
  nonempty : val ≠ []
  top : 1 < val.length -> val.getLastD 0 ≠ 0

theorem doubleDigits_spec {val : List Nat} (hval : forall d, d ∈ val -> d < 10) {ofl : Nat}
    (hofl : ofl <= 1) :
    (forall d, d ∈ (doubleDigits val ofl).1 -> d < 10) ∧ (doubleDigits val ofl).2 <= 1 ∧
      (doubleDigits val ofl).1.length = val.length ∧
      Nat.ofDigits 10 (doubleDigits val ofl).1 + 10 ^ val.length * (doubleDigits val ofl).2 =
        2 * Nat.ofDigits 10 val + ofl ∧
      (val.getLastD 0 ≠ 0 ->
        (doubleDigits val ofl).2 ≠ 0 ∨ (doubleDigits val ofl).1.getLastD 0 ≠ 0) := by
  induction val generalizing ofl with
  | nil =>
      refine ⟨hval, hofl, rfl, ?_, fun h => absurd rfl h⟩
      simp [doubleDigits]
  | cons a val ih =>
      have ha := hval a List.mem_cons_self
      have htwice : uschar ((a <<< 1) + ofl) = 2 * a + ofl := by
        rw [uschar, Nat.shiftLeft_eq, pow_one, Nat.mul_comm a 2]
        exact Nat.mod_eq_of_lt (by omega)
      have hcarry : (if 2 * a + ofl > 9 then 1 else 0) <= 1 := by
        split
        · exact Nat.le_refl 1
        · exact Nat.zero_le 1
      rcases ih (fun d hd => hval d (List.mem_cons_of_mem a hd)) hcarry with
        ⟨hdigits, hrest, hlength, hvalue, htop⟩
      simp only [doubleDigits, htwice]
      refine ⟨?_, hrest, by rw [List.length_cons, List.length_cons, hlength], ?_, ?_⟩
      · intro d hd
        rcases List.mem_cons.mp hd with rfl | hmem
        · split <;> omega
        · exact hdigits d hmem
      · rw [List.length_cons, pow_succ, Nat.ofDigits_cons, Nat.ofDigits_cons]
        split at hvalue
        next hover =>
            rw [if_pos hover, if_pos hover]
            have hten : 2 * a + ofl - 10 + 10 = 2 * a + ofl := by omega
            linear_combination 10 * hvalue + hten
        next hsmall =>
            rw [if_neg hsmall, if_neg hsmall]
            linear_combination 10 * hvalue
      · intro hlast
        cases val with
        | nil =>
            have hne : a ≠ 0 := hlast
            by_cases hover : 2 * a + ofl > 9
            · rw [if_pos hover]
              exact Or.inl (by decide)
            · rw [if_neg hover, if_neg hover]
              refine Or.inr ?_
              show 2 * a + ofl ≠ 0
              omega
        | cons b val =>
            cases htop hlast with
            | inl hcarried => exact Or.inl hcarried
            | inr hkept => exact Or.inr hkept

theorem DecimalDigits.double {n bit : Nat} {val : List Nat} (h : DecimalDigits n val)
    (hbit : bit <= 1) :
    DecimalDigits (2 * n + bit) (if (doubleDigits val bit).2 ≠ 0
      then (doubleDigits val bit).1 ++ [1] else (doubleDigits val bit).1) := by
  rcases doubleDigits_spec h.digits hbit with ⟨hdigits, hcarry, hlength, hvalue, htop⟩
  rw [h.value] at hvalue
  have hpos := List.length_pos_of_ne_nil h.nonempty
  split
  next hne =>
      have hone : (doubleDigits val bit).2 = 1 := by omega
      constructor
      case digits =>
        intro d hd
        rcases List.mem_append.mp hd with hmem | hmem
        · exact hdigits d hmem
        · rw [List.mem_singleton.mp hmem]
          decide
      case value =>
        rw [Nat.ofDigits_append, Nat.ofDigits_singleton, hlength, ← hvalue, hone]
      case nonempty => exact List.append_ne_nil_of_right_ne_nil _ (List.cons_ne_nil 1 [])
      case top => simp
  next heq =>
      have hzero : (doubleDigits val bit).2 = 0 := not_not.mp heq
      rw [hzero, Nat.mul_zero, Nat.add_zero] at hvalue
      constructor
      case digits => exact hdigits
      case value => exact hvalue
      case nonempty =>
        apply List.ne_nil_of_length_pos
        omega
      case top =>
        intro hlong
        exact (htop (h.top (by omega))).resolve_left (not_not.mpr hzero)

theorem toStringLoop_spec {x : Ubint} (hx : Valid l x) {i : Nat} (hi : i <= x.msb)
    {val : List Nat} (hval : DecimalDigits (x.toNat l >>> i) val) :
    exists val', toStringLoop l x i val = .ok val' ∧ DecimalDigits (x.toNat l) val' := by
  induction i generalizing val with
  | zero => exact ⟨val, rfl, hval⟩
  | succ i ih =>
      have hbit := getBitAtIndex_spec hx (Nat.lt_of_succ_le hi)
      have hparity : (x.toNat l >>> i) % 2 <= 1 := by omega
      have hnext := hval.double hparity
      have hshift : 2 * (x.toNat l >>> (i + 1)) + (x.toNat l >>> i) % 2 = x.toNat l >>> i := by
        rw [Nat.shiftRight_succ]
        omega
      rw [hshift] at hnext
      rcases ih (by omega) hnext with ⟨val', hrun, hdigits⟩
      refine ⟨val', ?_, hdigits⟩
      rw [toStringLoop, hbit, ok_bind]
      exact hrun

theorem DecimalDigits.numeral_eq {n : Nat} {val : List Nat} (h : DecimalDigits n val) :
    (val.map digitByte).reverse = numeral n := by
  have hpos := List.length_pos_of_ne_nil h.nonempty
  have hlong : 1 < val.length -> 10 ^ (val.length - 1) <= n := by
    intro hlen
    rw [← h.value]
    exact (getLastD_ne_zero_iff (by decide) h.digits h.nonempty).mp (h.top hlen)
  unfold numeral
  split
  next hzero =>
      have hlen : val.length = 1 := by
        by_contra hne
        have hle := hlong (by omega)
        have hten := Nat.pow_pos (n := val.length - 1) (show 0 < 10 by decide)
        omega
      rcases List.length_eq_one_iff.mp hlen with ⟨d, rfl⟩
      have hvalue := h.value
      rw [Nat.ofDigits_singleton, hzero] at hvalue
      rw [hvalue]
      rfl
  next hne =>
      have hdigits : Nat.digits 10 n = val := by
        rw [← h.value]
        apply Nat.digits_ofDigits 10 (by decide) val h.digits
        intro hnil hlast
        by_cases hlen : 1 < val.length
        · apply h.top hlen
          rw [List.getLastD_eq_getLast?, List.getLast?_eq_some_getLast hnil, hlast]
          rfl
        · rcases List.length_eq_one_iff.mp (show val.length = 1 by omega) with ⟨d, rfl⟩
          have hvalue := h.value
          rw [Nat.ofDigits_singleton] at hvalue
          exact hne (hvalue.symm.trans hlast)
      rw [hdigits, List.map_reverse]

theorem toString_spec {x : Ubint} (hx : Valid l x) :
    toString l x = .ok (numeral (x.toNat l)) := by
  have hinit : DecimalDigits (x.toNat l >>> x.msb) [0] := by
    have hzero : x.toNat l >>> x.msb = 0 := by
      rw [Nat.shiftRight_eq_div_pow, hx.bitLength]
      exact Nat.div_eq_of_lt (Nat.lt_size_self _)
    constructor
    case digits => simp
    case value =>
      rw [hzero]
      rfl
    case nonempty => exact List.cons_ne_nil 0 []
    case top => simp
  rcases toStringLoop_spec hx (Nat.le_refl _) hinit with ⟨val, hrun, hdigits⟩
  unfold toString
  rw [hrun, ok_bind, hdigits.numeral_eq]
  rfl

/-! ## Input -/

/-- The number that a vector of digits denotes, the most significant digit first. -/
def textValue (v : List Int) : Int := v.foldl (fun n d => 10 * n + d) 0

theorem textValue_concat (v : List Int) (d : Int) :
    textValue (v ++ [d]) = 10 * textValue v + d := by
  unfold textValue
  rw [List.foldl_append]
  rfl

theorem textValue_append (v w : List Int) :
    textValue (v ++ w) = 10 ^ w.length * textValue v + textValue w := by
  induction w using List.reverseRecOn with
  | nil => simp [textValue]
  | append_singleton w d ih =>
      rw [← List.append_assoc, textValue_concat, textValue_concat, ih, List.length_append,
        List.length_singleton, pow_succ]
      ring

theorem textValue_cons (d : Int) (v : List Int) :
    textValue (d :: v) = 10 ^ v.length * d + textValue v := by
  have h := textValue_append [d] v
  rw [List.singleton_append] at h
  rw [h, show textValue [d] = d by simp [textValue]]

theorem textValue_zeros (k : Nat) : textValue (List.replicate k 0) = 0 := by
  induction k with
  | zero => rfl
  | succ k ih => rw [List.replicate_succ, textValue_cons, ih, mul_zero, add_zero]

theorem textValue_nonneg {v : List Int} (hv : forall d, d ∈ v -> 0 <= d ∧ d <= 9) :
    0 <= textValue v := by
  induction v with
  | nil => exact le_refl _
  | cons d v ih =>
      have hd := (hv d List.mem_cons_self).1
      have hrest := ih fun x hx => hv x (List.mem_cons_of_mem d hx)
      rw [textValue_cons]
      positivity

theorem eq_zero_of_textValue {v : List Int} (hv : forall d, d ∈ v -> 0 <= d ∧ d <= 9)
    (hzero : textValue v = 0) : forall d, d ∈ v -> d = 0 := by
  induction v with
  | nil =>
      intro d hd
      cases hd
  | cons a v ih =>
      have ha := (hv a List.mem_cons_self).1
      have hdigits := fun x hx => hv x (List.mem_cons_of_mem a hx)
      have hrest := textValue_nonneg hdigits
      have hpow : (0 : Int) < 10 ^ v.length := by positivity
      rw [textValue_cons] at hzero
      have hproduct : 0 <= 10 ^ v.length * a := by positivity
      intro d hd
      rcases List.mem_cons.mp hd with rfl | hmem
      · have hfirst : 10 ^ v.length * d = 0 := by omega
        exact (mul_eq_zero.mp hfirst).resolve_left hpow.ne'
      · exact ih hdigits (by omega) d hmem

theorem schar_eq {x : Int} (hlow : -128 <= x) (hhigh : x <= 127) : schar x = x :=
  Int.bmod_eq_of_le (by omega) (by omega)

theorem halveDigits_spec {v : List Int} (hv : forall d, d ∈ v -> 0 <= d ∧ d <= 9) {carry : Int}
    (hcarry : 0 <= carry ∧ carry <= 1) :
    (forall d, d ∈ halveDigits (carry * 10) v -> 0 <= d ∧ d <= 9) ∧
      (halveDigits (carry * 10) v).length = v.length ∧
      textValue (halveDigits (carry * 10) v) = (10 ^ v.length * carry + textValue v) / 2 := by
  induction v generalizing carry with
  | nil =>
      refine ⟨hv, rfl, ?_⟩
      show (0 : Int) = (1 * carry + 0) / 2
      omega
  | cons a v ih =>
      have ha := hv a List.mem_cons_self
      have hchar : schar (a + carry * 10) = a + carry * 10 := schar_eq (by omega) (by omega)
      have hrest : 0 <= (a + carry * 10) % 2 ∧ (a + carry * 10) % 2 <= 1 := by omega
      rcases ih (fun d hd => hv d (List.mem_cons_of_mem a hd)) hrest with
        ⟨hdigits, hlength, hvalue⟩
      simp only [halveDigits, hchar]
      have hhalf : (a + carry * 10) >>> (1 : Nat) = (a + carry * 10) / 2 := by
        rw [Int.shiftRight_eq_div_pow, pow_one]
        rfl
      refine ⟨?_, by rw [List.length_cons, List.length_cons, hlength], ?_⟩
      · intro d hd
        rcases List.mem_cons.mp hd with rfl | hmem
        · rw [hhalf]
          omega
        · exact hdigits d hmem
      · have hsplit : 10 ^ (a :: v).length * carry + textValue (a :: v) =
            (10 ^ v.length * ((a + carry * 10) % 2) + textValue v) +
              2 * (10 ^ v.length * ((a + carry * 10) / 2)) := by
          have hdivmod := Int.emod_add_mul_ediv (a + carry * 10) 2
          rw [textValue_cons, List.length_cons, pow_succ]
          linear_combination -(10 ^ v.length) * hdivmod
        rw [hsplit, Int.add_mul_ediv_left _ _ (by decide), textValue_cons, hlength, hvalue, hhalf]
        ring

structure SetValueInv (l n : Nat) (s : SetValueState) : Prop where
  digits : forall d, d ∈ s.v -> 0 <= d ∧ d <= 9
  nonempty : s.v ≠ []
  zeros : exists rest, s.v = List.replicate s.zptr 0 ++ rest
  cnt_lt : s.cnt < limbBitLength l
  val_lt : s.val < 2 ^ s.cnt
  limbs : IsLimbs (base l) s.value
  sum : (n : Int) = 2 ^ (limbBitLength l * s.value.length + s.cnt) * textValue s.v +
    ((Nat.ofDigits (base l) s.value + base l ^ s.value.length * s.val : Nat) : Int)
  flushed : s.v.length <= s.zptr -> s.cnt = 0 ∧ s.value ≠ []

theorem collect_bit {val cnt bit : Nat} (hval : val < 2 ^ cnt) (hcnt : cnt < limbBitLength l)
    (hbit : bit <= 1) :
    val ||| limb l (bit <<< cnt) = val + 2 ^ cnt * bit ∧ val + 2 ^ cnt * bit < 2 ^ (cnt + 1) := by
  have hle : 2 ^ cnt * bit <= 2 ^ cnt := by
    have hmul := Nat.mul_le_mul_left (2 ^ cnt) hbit
    rwa [Nat.mul_one] at hmul
  have hbase : 2 ^ cnt < base l := Nat.pow_lt_pow_right (by decide) hcnt
  have hlimb : limb l (bit <<< cnt) = bit <<< cnt := by
    rw [limb_eq, Nat.shiftLeft_eq, Nat.mul_comm]
    exact Nat.mod_eq_of_lt (by omega)
  constructor
  · rw [hlimb, Nat.or_comm, ← Nat.shiftLeft_add_eq_or_of_lt hval, Nat.shiftLeft_eq,
      Nat.mul_comm bit, Nat.add_comm]
  · rw [pow_succ]
    omega

structure Halved (s : SetValueState) (v : List Int) (zptr : Nat) : Prop where
  digits : forall d, d ∈ v -> 0 <= d ∧ d <= 9
  length : v.length = s.v.length
  value : textValue v = textValue s.v / 2
  zeros : exists rest, v = List.replicate zptr 0 ++ rest
  ahead : s.zptr <= zptr
  moved : textValue s.v = 0 -> zptr = s.zptr + 1

section Pass

variable {n : Nat} {s : SetValueState} (hs : SetValueInv l n s)

include hs

theorem SetValueInv.last : exists d, entry s.v (s.v.length - 1) = .ok d ∧
    (d % 2).toNat <= 1 ∧ (((d % 2).toNat : Nat) : Int) = textValue s.v % 2 := by
  rcases List.eq_nil_or_concat' s.v with hnil | ⟨low, d, hsplit⟩
  · exact absurd hnil hs.nonempty
  · refine ⟨d, ?_, by omega, ?_⟩
    · apply entry_ok
      rw [hsplit, List.length_append, List.length_singleton, Nat.add_sub_cancel]
      exact List.getElem?_concat_length
    · rw [hsplit, textValue_concat]
      omega

theorem SetValueInv.halved (hinside : s.zptr <= s.v.length - 1) : exists first,
    entry (s.v.take s.zptr ++ halveDigits 0 (s.v.drop s.zptr)) s.zptr = .ok first ∧
      Halved s (s.v.take s.zptr ++ halveDigits 0 (s.v.drop s.zptr))
        (if first = 0 then s.zptr + 1 else s.zptr) := by
  have hpos := List.length_pos_of_ne_nil hs.nonempty
  rcases hs.zeros with ⟨rest, hrest⟩
  have hlength : s.v.length = s.zptr + rest.length := by
    rw [hrest, List.length_append, List.length_replicate]
  have htake : s.v.take s.zptr = List.replicate s.zptr 0 := by
    rw [hrest, List.take_left' (by rw [List.length_replicate])]
  have hdrop : s.v.drop s.zptr = rest := by
    rw [hrest, List.drop_left' (by rw [List.length_replicate])]
  have hrestvalue : textValue s.v = textValue rest := by
    rw [hrest, textValue_append, textValue_zeros, mul_zero, zero_add]
  have hdigit : forall d, d ∈ rest -> 0 <= d ∧ d <= 9 := by
    intro d hd
    refine hs.digits d ?_
    rw [hrest]
    exact List.mem_append_right _ hd
  have hpass := halveDigits_spec hdigit (show (0 : Int) <= 0 ∧ (0 : Int) <= 1 by decide)
  rw [zero_mul, mul_zero, zero_add] at hpass
  rcases hpass with ⟨hdigits, hlen, hvalue⟩
  rw [htake, hdrop]
  revert hdigits hlen hvalue
  generalize halveDigits 0 rest = halves
  intro hdigits hlen hvalue
  cases halves with
  | nil =>
      rw [List.length_nil] at hlen
      omega
  | cons first tail =>
      have hdigits' : forall d, d ∈ List.replicate s.zptr 0 ++ first :: tail -> 0 <= d ∧ d <= 9 := by
        intro d hd
        rcases List.mem_append.mp hd with hmem | hmem
        · rw [List.eq_of_mem_replicate hmem]
          decide
        · exact hdigits d hmem
      have hvalue' : textValue (List.replicate s.zptr 0 ++ first :: tail) =
          textValue s.v / 2 := by
        rw [textValue_append, textValue_zeros, mul_zero, zero_add, hvalue, hrestvalue]
      refine ⟨first, ?_, ?_⟩
      · apply entry_ok
        rw [List.getElem?_append_right (by rw [List.length_replicate]), List.length_replicate,
          Nat.sub_self]
        rfl
      · constructor
        case digits => exact hdigits'
        case length =>
          rw [List.length_append, List.length_replicate, hlen, hlength]
        case value => exact hvalue'
        case zeros =>
          split
          next hzero =>
              refine ⟨tail, ?_⟩
              rw [hzero, List.replicate_succ', List.append_assoc]
              rfl
          next => exact ⟨first :: tail, rfl⟩
        case ahead =>
          split
          · exact Nat.le_succ _
          · exact Nat.le_refl _
        case moved =>
          intro hzero
          rw [hzero] at hvalue'
          have hfirst := eq_zero_of_textValue hdigits' hvalue' first
            (List.mem_append_right _ List.mem_cons_self)
          exact if_pos hfirst

theorem SetValueInv.sum_next {V bit : Int} (hbit : textValue s.v % 2 = bit)
    (hV : V = textValue s.v / 2) :
    (n : Int) = 2 ^ (limbBitLength l * s.value.length + (s.cnt + 1)) * V +
      (Nat.ofDigits (base l) s.value + base l ^ s.value.length * (s.val + 2 ^ s.cnt * bit)) := by
  have hsplit : textValue s.v = 2 * V + bit := by omega
  have hsum := hs.sum
  have hpow : (base l : Int) ^ s.value.length = 2 ^ (limbBitLength l * s.value.length) := by
    exact_mod_cast base_pow l s.value.length
  revert hsum
  generalize Nat.ofDigits (base l) s.value = low
  intro hsum
  rw [hsplit] at hsum
  push_cast at hsum
  rw [hsum, hpow, pow_add, pow_add, pow_succ]
  ring

theorem setValueStep_spec (hinside : s.zptr <= s.v.length - 1) :
    exists s', setValueStep l s = .ok s' ∧ SetValueInv l n s' ∧
      (textValue s'.v).toNat + (s'.v.length - s'.zptr) <
        (textValue s.v).toNat + (s.v.length - s.zptr) := by
  have hpos := List.length_pos_of_ne_nil hs.nonempty
  rcases hs.last with ⟨d, hlast, hbitle, hbit⟩
  rcases hs.halved hinside with ⟨first, hfirst, hhalved⟩
  rcases collect_bit hs.val_lt hs.cnt_lt hbitle with ⟨hval, hvallt⟩
  have hV := textValue_nonneg hs.digits
  unfold setValueStep
  dsimp only
  rw [hlast, ok_bind, hfirst, ok_bind, hval]
  revert hhalved
  generalize s.v.take s.zptr ++ halveDigits 0 (s.v.drop s.zptr) = v
  generalize (if first = 0 then s.zptr + 1 else s.zptr) = zptr
  intro hhalved
  have hsum := hs.sum_next hbit.symm hhalved.value
  have hnonempty : v ≠ [] := by
    apply List.ne_nil_of_length_pos
    rw [hhalved.length]
    exact hpos
  have hmeasure : (textValue v).toNat + (v.length - zptr) <
      (textValue s.v).toNat + (s.v.length - s.zptr) := by
    have hahead := hhalved.ahead
    have hmoved := hhalved.moved
    rw [hhalved.length, hhalved.value]
    by_cases hzero : textValue s.v = 0
    · have hnext := hmoved hzero
      rw [hzero]
      omega
    · omega
  by_cases hflush : s.cnt + 1 = limbBitLength l ∨ zptr > s.v.length - 1
  · rw [if_pos hflush]
    refine ⟨_, rfl, ?_, hmeasure⟩
    constructor
    case digits => exact hhalved.digits
    case nonempty => exact hnonempty
    case zeros => exact hhalved.zeros
    case cnt_lt => exact limbBitLength_pos l
    case val_lt => exact Nat.one_pos
    case limbs =>
      refine hs.limbs.append (IsLimbs.cons (hvallt.trans_le ?_) IsLimbs.nil)
      exact Nat.pow_le_pow_right (by decide) hs.cnt_lt
    case sum =>
      have hexponent : (2 : Int) ^ (limbBitLength l * (s.value.length + 1)) * textValue v =
          2 ^ (limbBitLength l * s.value.length + (s.cnt + 1)) * textValue v := by
        cases hflush with
        | inl hfull => rw [hfull, Nat.mul_succ]
        | inr hend =>
            rcases hhalved.zeros with ⟨rest, hrest⟩
            have hlength := hhalved.length
            rw [hrest, List.length_append, List.length_replicate] at hlength
            have hnil : rest = [] := List.eq_nil_of_length_eq_zero (by omega)
            rw [hrest, hnil, List.append_nil, textValue_zeros, mul_zero, mul_zero]
      rw [List.length_append, List.length_singleton, Nat.add_zero, hexponent, hsum,
        Nat.ofDigits_append, Nat.ofDigits_singleton]
      generalize Nat.ofDigits (base l) s.value = low
      push_cast
      ring
    case flushed =>
      intro _
      exact ⟨rfl, List.append_ne_nil_of_right_ne_nil _ (List.cons_ne_nil _ [])⟩
  · rw [if_neg hflush]
    have hcnt := hs.cnt_lt
    refine ⟨_, rfl, ?_, hmeasure⟩
    constructor
    case digits => exact hhalved.digits
    case nonempty => exact hnonempty
    case zeros => exact hhalved.zeros
    case cnt_lt =>
      show s.cnt + 1 < limbBitLength l
      omega
    case val_lt => exact hvallt
    case limbs => exact hs.limbs
    case sum =>
      rw [hsum]
      dsimp only
      generalize Nat.ofDigits (base l) s.value = low
      push_cast
      ring
    case flushed =>
      intro hend
      rw [hhalved.length] at hend
      dsimp only at hend
      omega

end Pass

theorem strippedText_spec {vin : Bytes} (hvin : IsNumeral 10 vin) :
    IsNumeral 10 (strippedText vin) ∧ strippedText vin ≠ [] ∧
      numeralValue 10 (strippedText vin) = numeralValue 10 vin := by
  have hvalue := numeralValue_dropWhile 10 vin
  have hdigits := hvin.dropWhile fun c => decide (c = 48)
  unfold strippedText
  dsimp only
  split
  next hempty =>
      rw [List.length_eq_zero_iff.mp hempty] at hvalue
      refine ⟨?_, List.cons_ne_nil 48 [], hvalue⟩
      intro c hc
      rw [List.mem_singleton.mp hc]
      decide
  next hne =>
      exact ⟨hdigits, fun h => hne (List.length_eq_zero_iff.mpr h), hvalue⟩

theorem textDigits_spec {v : Bytes} (hv : IsNumeral 10 v) :
    (forall d, d ∈ v.map (fun c => schar (schar c.toNat - 48)) -> 0 <= d ∧ d <= 9) ∧
      textValue (v.map fun c => schar (schar c.toNat - 48)) = numeralValue 10 v := by
  have hchar (c : UInt8) (hc : IsDigit 10 c) :
      schar (schar c.toNat - 48) = (digitValue c : Nat) := by
    rcases hc with ⟨hlow, hhigh⟩
    rw [schar_eq (x := c.toNat) (by omega) (by omega), schar_eq (by omega) (by omega)]
    unfold digitValue
    omega
  constructor
  · intro d hd
    rcases List.mem_map.mp hd with ⟨c, hc, rfl⟩
    have hlt := digitValue_lt (hv c hc)
    rw [hchar c (hv c hc)]
    omega
  · induction v with
    | nil => rfl
    | cons c v ih =>
        rw [List.map_cons, textValue_cons, ih hv.tail, numeralValue_cons, hchar c hv.head,
          List.length_map]
        push_cast
        ring

theorem setValue_spec {vin : Bytes} (hvin : IsNumeral 10 vin) {fuel : Nat}
    (hfuel : numeralValue 10 vin + vin.length + 1 < fuel) :
    exists r, setValue l fuel vin = .ok r ∧ Normalized l r.value ∧
      r.toNat l = numeralValue 10 vin ∧ r.msb = msbOf l r.value := by
  rcases strippedText_spec hvin with ⟨hdigits, hne, hvalue⟩
  rcases textDigits_spec hdigits with ⟨hv, hv_value⟩
  have hlength : (strippedText vin).length <= vin.length + 1 := by
    unfold strippedText
    dsimp only
    split
    · exact Nat.succ_le_succ (Nat.zero_le _)
    · exact (List.dropWhile_sublist _).length_le.trans (Nat.le_succ _)
  rw [hvalue] at hv_value
  unfold setValue
  dsimp only
  generalize hw : (strippedText vin).map (fun c => schar (schar c.toNat - 48)) = v at hv hv_value
  have hvlen : v.length = (strippedText vin).length := by rw [← hw, List.length_map]
  have hvne : v ≠ [] := by
    apply List.ne_nil_of_length_pos
    rw [hvlen]
    exact List.length_pos_of_ne_nil hne
  have hvpos := List.length_pos_of_ne_nil hvne
  have hinit : SetValueInv l (numeralValue 10 vin)
      { v := v, zptr := 0, cnt := 0, val := 0, value := [] } := by
    constructor
    case digits => exact hv
    case nonempty => exact hvne
    case zeros => exact ⟨v, rfl⟩
    case cnt_lt => exact limbBitLength_pos l
    case val_lt => exact Nat.one_pos
    case limbs => exact IsLimbs.nil
    case sum => simp [hv_value]
    case flushed =>
      intro hend
      dsimp only at hend
      omega
  rcases whileLoop_spec (c := fun s : SetValueState => decide (s.zptr <= s.v.length - 1))
    (f := setValueStep l) (SetValueInv l (numeralValue 10 vin))
    (fun s => (textValue s.v).toNat + (s.v.length - s.zptr))
    (fun s hs htest => setValueStep_spec hs (of_decide_eq_true htest))
    fuel { v := v, zptr := 0, cnt := 0, val := 0, value := [] } hinit
    (by
      dsimp only
      rw [hv_value, hvlen]
      omega) with ⟨s, hrun, hinv, hstop⟩
  have hend : ¬ s.zptr <= s.v.length - 1 := of_decide_eq_false hstop
  have hlen := List.length_pos_of_ne_nil hinv.nonempty
  rcases hinv.flushed (by omega) with ⟨hcnt, hlimbs⟩
  have hzero : textValue s.v = 0 := by
    rcases hinv.zeros with ⟨rest, hrest⟩
    have hsplit := congrArg List.length hrest
    rw [List.length_append, List.length_replicate] at hsplit
    have hnil : rest = [] := List.eq_nil_of_length_eq_zero (by omega)
    rw [hrest, hnil, List.append_nil, textValue_zeros]
  have hval : s.val = 0 := by
    have hlt := hinv.val_lt
    rw [hcnt, pow_zero] at hlt
    omega
  have hsum := hinv.sum
  rw [hzero, mul_zero, zero_add, hval, Nat.mul_zero, Nat.add_zero] at hsum
  rcases ofLimbs_normalized hinv.limbs hlimbs with ⟨hnormal, hof, hmsb⟩
  refine ⟨ofLimbs l s.value, ?_, hnormal, ?_, hmsb⟩
  · rw [hrun]
    rfl
  · rw [hof]
    exact_mod_cast hsum.symm

/-! ## Round trip -/

theorem Valid.ext {x y : Ubint} (hx : Valid l x) (hy : Valid l y)
    (hvalue : x.toNat l = y.toNat l) : x = y := by
  have hmsb : x.msb = y.msb := by rw [hx.bitLength, hy.bitLength, hvalue]
  have hlimbs : x.value = y.value :=
    Nat.ofDigits_inj_of_len_eq (one_lt_base l) (hx.length_eq_of_msb_eq hy hmsb) hx.limbs
      hy.limbs hvalue
  cases x with
  | mk msb value =>
      cases y with
      | mk msb' value' =>
          cases hmsb
          cases hlimbs
          rfl

theorem Normalized.valid {x : Ubint} (h : Normalized l x.value) (hmsb : x.msb = msbOf l x.value)
    (hsize : Nat.size (x.toNat l) < maxMSB) : Valid l x := by
  have hexact := msbOf_eq h.limbs h.nonempty h.top hsize
  rw [← hmsb] at hexact
  exact ⟨h.limbs, h.nonempty, h.top, hexact, hexact ▸ hsize⟩

structure DecimalConversion (l : Nat) : Prop where
  /-- The output is the numeral, which has no leading zero. -/
  output {x : Ubint} (hx : Valid l x) : toString l x = .ok (numeral (x.toNat l)) ∧
    IsNumeral 10 (numeral (x.toNat l)) ∧ numeralValue 10 (numeral (x.toNat l)) = x.toNat l ∧
    (x.toNat l = 0 -> numeral (x.toNat l) = [48]) ∧
    (x.toNat l ≠ 0 -> (numeral (x.toNat l)).head? ≠ some 48)
  /-- A text of digits gives its number in normalized limbs. -/
  input {vin : Bytes} (hne : vin ≠ []) (hvin : IsNumeral 10 vin) : exists enough r,
    (forall fuel, enough <= fuel -> setValue l fuel vin = .ok r) ∧ Normalized l r.value ∧
      r.toNat l = numeralValue 10 vin ∧ (Nat.size (numeralValue 10 vin) < maxMSB -> Valid l r)
  roundTrip {x : Ubint} (hx : Valid l x) : exists text enough, toString l x = .ok text ∧
    forall fuel, enough <= fuel -> setValue l fuel text = .ok x

theorem setValue_fuel {vin : Bytes} {fuel more : Nat} {r : Ubint}
    (h : setValue l fuel vin = .ok r) (hmore : fuel <= more) : setValue l more vin = .ok r := by
  rcases bind_eq_ok h with ⟨s, hs, hrest⟩
  have hmost := whileLoop_fuel (by
    rw [hs]
    intro herror
    cases herror) hmore
  unfold setValue
  dsimp only
  rw [hmost, hs]
  exact hrest

theorem decimalConversion (l : Nat) : DecimalConversion l := by
  have hinput {vin : Bytes} (hvin : IsNumeral 10 vin) : exists enough r,
      (forall fuel, enough <= fuel -> setValue l fuel vin = .ok r) ∧ Normalized l r.value ∧
        r.toNat l = numeralValue 10 vin ∧
        (Nat.size (numeralValue 10 vin) < maxMSB -> Valid l r) := by
    rcases setValue_spec (l := l) hvin (Nat.lt_succ_self _) with ⟨r, hr, hnormal, hvalue, hmsb⟩
    refine ⟨_, r, fun fuel hfuel => setValue_fuel hr hfuel, hnormal, hvalue, ?_⟩
    intro hsize
    rw [← hvalue] at hsize
    exact hnormal.valid hmsb hsize
  constructor
  case output =>
    intro x hx
    refine ⟨toString_spec hx, isNumeral_numeral _, numeralValue_numeral _, ?_, numeral_head⟩
    intro hzero
    rw [hzero]
    rfl
  case input =>
    intro vin _ hvin
    exact hinput hvin
  case roundTrip =>
    intro x hx
    rcases hinput (isNumeral_numeral (x.toNat l)) with ⟨enough, r, hr, _, hvalue, hvalid⟩
    rw [numeralValue_numeral] at hvalue hvalid
    have hsize : Nat.size (x.toNat l) < maxMSB := by
      rw [← hx.bitLength]
      exact hx.fits
    rw [(hvalid hsize).ext hx hvalue] at hr
    exact ⟨_, enough, toString_spec hx, hr⟩

end Ubint

end BigInteger
end Core
end OpenFHE
