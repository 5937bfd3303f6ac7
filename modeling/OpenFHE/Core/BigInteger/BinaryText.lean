import OpenFHE.Core.BigInteger.DecimalText

/-!
# Binary texts of big integers

`FromBinaryString` cuts the text into chunks of one limb from the right.  The leftmost
chunk has the characters that are left over, and none when the limbs divide the length.
-/

namespace OpenFHE
namespace Core
namespace BigInteger

open NativeInteger
open Foundation

/-- `std::stoi` of one character. -/
def stoi (c : UInt8) : Outcome Nat :=
  if IsDigit 10 c then .ok (digitValue c) else .error (.thrown "stoi")

/-- `substr` from a position that is not past the end. -/
def substr (v : Bytes) (pos n : Nat) : Bytes := (v.drop pos).take n

namespace Ubint

variable (l : Nat)

/-- One more character of a chunk, with room for the next. -/
def chunkStep (partialValue : Nat) (c : UInt8) : Outcome Nat := do
  let d <- stoi c
  return dlimb l (dlimb l (partialValue + d) <<< 1)

/-- The characters of the limb `i`. -/
def chunkText (v : Bytes) (i : Nat) : Bytes :=
  let len := usint v.length
  let passed := usint ((i + 1) * limbBitLength l : Nat)
  if len > passed then substr v (len - passed) (limbBitLength l)
  else substr v 0 (len % limbBitLength l)

def chunkLimb (val : Bytes) : Outcome Nat := do
  let partialValue <- val.foldlM (chunkStep l) 0
  return limb l (partialValue >>> 1)

def fromBinaryString (vin : Bytes) : Outcome Ubint :=
  let v := vin.dropWhile fun c => decide (c = 48)
  if v.length = 0 then .ok zero
  else do
    let value <- (List.range (msbToLimbs l (usint v.length))).mapM fun i =>
      chunkLimb l (chunkText l v i)
    return { msb := msbOf l value, value := value }

variable {l}

/-! ## Chunks -/

theorem chunkFold_spec {val : Bytes} (hval : IsNumeral 2 val)
    (hlen : val.length <= limbBitLength l) :
    val.foldlM (chunkStep l) 0 = .ok (2 * numeralValue 2 val) := by
  induction val using List.reverseRecOn with
  | nil => rfl
  | append_singleton val c ih =>
      have hlen' : val.length + 1 <= limbBitLength l := by
        rw [← List.length_singleton (a := c), ← List.length_append]
        exact hlen
      have hc := hval c (List.mem_append_right val List.mem_cons_self)
      have hpre : IsNumeral 2 val := fun d hd => hval d (List.mem_append_left [c] hd)
      have hlt := numeralValue_lt (by decide) hval
      rw [numeralValue_concat, List.length_append, List.length_singleton] at hlt
      have hpow : 2 ^ (val.length + 1) <= base l := Nat.pow_le_pow_right (by decide) hlen'
      have hbase : 2 * base l <= base l * base l := Nat.mul_le_mul_right _ (one_lt_base l)
      have hstoi : stoi c = .ok (digitValue c) := if_pos ⟨hc.left, by
        have hhigh := hc.right
        omega⟩
      rw [List.foldlM_append, ih hpre (by omega)]
      show (chunkStep l (2 * numeralValue 2 val) c >>= pure) = _
      have hsum : dlimb l (2 * numeralValue 2 val + digitValue c) =
          2 * numeralValue 2 val + digitValue c := dlimb_of_lt (by omega)
      have hshift : dlimb l ((2 * numeralValue 2 val + digitValue c) * 2) =
          (2 * numeralValue 2 val + digitValue c) * 2 := dlimb_of_lt (by omega)
      unfold chunkStep
      rw [hstoi, ok_bind, hsum, Nat.shiftLeft_eq, pow_one, hshift, numeralValue_concat,
        Nat.mul_comm _ 2]
      rfl

theorem chunkLimb_spec {val : Bytes} (hval : IsNumeral 2 val)
    (hlen : val.length <= limbBitLength l) : chunkLimb l val = .ok (numeralValue 2 val) := by
  have hlt := numeralValue_lt (by decide) hval
  have hpow : 2 ^ val.length <= base l := Nat.pow_le_pow_right (by decide) hlen
  unfold chunkLimb
  rw [chunkFold_spec hval hlen, ok_bind, Nat.shiftRight_eq_div_pow, pow_one,
    Nat.mul_div_cancel_left _ (by decide), limb_eq, Nat.mod_eq_of_lt (by omega)]
  rfl

theorem chunkText_length (v : Bytes) (i : Nat) :
    (chunkText l v i).length <= limbBitLength l := by
  unfold chunkText substr
  dsimp only
  split
  · exact List.length_take_le _ _
  · exact (List.length_take_le _ _).trans (Nat.mod_lt _ (limbBitLength_pos l)).le

theorem isNumeral_chunkText {b : Nat} {v : Bytes} (hv : IsNumeral b v) (i : Nat) :
    IsNumeral b (chunkText l v i) := by
  intro c hc
  apply hv
  unfold chunkText substr at hc
  dsimp only at hc
  split at hc
  · exact List.mem_of_mem_drop (List.mem_of_mem_take hc)
  · exact List.mem_of_mem_drop (List.mem_of_mem_take hc)

theorem chunkLimbs_spec {v : Bytes} (hv : IsNumeral 2 v) (cntr : Nat) :
    (List.range cntr).mapM (fun i => chunkLimb l (chunkText l v i)) =
      .ok ((List.range cntr).map fun i => numeralValue 2 (chunkText l v i)) := by
  induction cntr with
  | zero => rfl
  | succ cntr ih =>
      rw [List.range_succ, List.mapM_append, ih, ok_bind, List.mapM_cons,
        chunkLimb_spec (isNumeral_chunkText hv cntr) (chunkText_length v cntr), List.map_append]
      rfl

/-! ## Lengths that are cut right -/

section Lengths

variable {v : Bytes} (hfits : v.length + limbBitLength l < 2 ^ 32)

include hfits

/-- The limb `i` of the value, while the counters do not wrap. -/
theorem chunkText_value (hv : IsNumeral 2 v) (hrest : v.length % limbBitLength l ≠ 0) {i : Nat}
    (hi : limbBitLength l * i < v.length) :
    numeralValue 2 (chunkText l v i) = numeralValue 2 v / base l ^ i % base l := by
  have hbits := limbBitLength_pos l
  have hmul : (i + 1) * limbBitLength l = limbBitLength l * i + limbBitLength l := by
    rw [Nat.mul_comm, Nat.mul_succ]
  have hlen : usint v.length = v.length := usint_eq (by omega)
  have hpassed : usint ((i + 1) * limbBitLength l : Nat) = (i + 1) * limbBitLength l :=
    usint_eq (by omega)
  have htail (k : Nat) (hk : k <= v.length) (hki : v.length - k = limbBitLength l * i) :
      numeralValue 2 v / base l ^ i = numeralValue 2 (v.take k) := by
    have hdiv := numeralValue_div (by decide) (v.take k) (hv.drop k)
    rw [List.take_append_drop, List.length_drop, hki] at hdiv
    rw [base_pow]
    exact hdiv
  unfold chunkText substr
  rw [hlen, hpassed]
  dsimp only
  by_cases hlong : v.length > (i + 1) * limbBitLength l
  · have hpos : v.length - (i + 1) * limbBitLength l + limbBitLength l <= v.length := by omega
    rw [if_pos hlong, htail (v.length - (i + 1) * limbBitLength l + limbBitLength l) hpos
      (by omega)]
    have hsplit : v.take (v.length - (i + 1) * limbBitLength l + limbBitLength l) =
        v.take (v.length - (i + 1) * limbBitLength l) ++
          (v.drop (v.length - (i + 1) * limbBitLength l)).take (limbBitLength l) :=
      List.take_add
    have hlength : ((v.drop (v.length - (i + 1) * limbBitLength l)).take
        (limbBitLength l)).length = limbBitLength l := by
      rw [List.length_take, List.length_drop]
      omega
    have hmod := numeralValue_mod (by decide)
      (v.take (v.length - (i + 1) * limbBitLength l)) ((hv.drop
        (v.length - (i + 1) * limbBitLength l)).take (limbBitLength l))
    rw [hlength, ← hsplit] at hmod
    exact hmod.symm
  · have hmod : v.length % limbBitLength l = v.length - limbBitLength l * i := by
      have hquot : v.length / limbBitLength l = i :=
        Nat.div_eq_of_lt_le (by rw [Nat.mul_comm]; exact hi.le) (by
          rw [hmul]
          rcases Nat.lt_or_ge v.length (limbBitLength l * i + limbBitLength l) with hlt | hge
          · exact hlt
          · have hmultiple : v.length = limbBitLength l * (i + 1) := by
              rw [Nat.mul_succ]
              omega
            exact absurd (by rw [hmultiple, Nat.mul_mod_right]) hrest)
      have hdivmod := Nat.div_add_mod v.length (limbBitLength l)
      rw [hquot] at hdivmod
      omega
    have hshort := Nat.mod_lt v.length hbits
    rw [if_neg hlong, List.drop_zero, htail (v.length % limbBitLength l) (by omega) (by omega)]
    have hlt := numeralValue_lt (by decide) (hv.take (v.length % limbBitLength l))
    have hpow : 2 ^ (v.take (v.length % limbBitLength l)).length <= base l :=
      Nat.pow_le_pow_right (by decide) (by
        rw [List.length_take]
        omega)
    exact (Nat.mod_eq_of_lt (by omega)).symm

end Lengths

/-! ## Limbs of a length -/

theorem msbToLimbs_bounds {len : Nat} (hpos : 0 < len) :
    0 < msbToLimbs l len ∧ limbBitLength l * (msbToLimbs l len - 1) < len ∧
      len <= limbBitLength l * msbToLimbs l len := by
  rcases msbToLimbs_eq (l := l) hpos with ⟨hsplit, hlow⟩
  have hlimbs : 0 < msbToLimbs l len := by
    by_contra hzero
    have hnone : msbToLimbs l len = 0 := by omega
    unfold msbToLimbs at hnone
    dsimp only at hnone
    rw [if_neg (by omega)] at hnone
    rcases shift_split l len with ⟨hshift, _⟩
    by_cases hmask : len &&& (limbBitLength l - 1) ≠ 0
    · rw [if_pos hmask] at hnone
      exact absurd hnone (Nat.succ_ne_zero _)
    · rw [if_neg hmask] at hnone
      rw [not_not.mp hmask, Nat.add_zero] at hshift
      rw [show len >>> l = 0 by omega, Nat.mul_zero] at hshift
      omega
  have hsucc := Nat.mul_succ (limbBitLength l) (msbToLimbs l len - 1)
  rw [Nat.succ_eq_add_one, Nat.sub_add_cancel hlimbs] at hsucc
  refine ⟨hlimbs, ?_, ?_⟩
  · omega
  · omega

theorem size_numeralValue {v : Bytes} (hv : IsNumeral 2 v) (hne : v ≠ [])
    (hhead : v.head? ≠ some 48) : Nat.size (numeralValue 2 v) = v.length := by
  cases v with
  | nil => exact absurd rfl hne
  | cons c v =>
      have hc : digitValue c = 1 := by
        rcases hv.head with ⟨hlow, hhigh⟩
        have hbyte : c.toNat ≠ 48 := by
          intro heq
          apply hhead
          rw [List.head?_cons, show c = 48 from UInt8.toNat_inj.mp heq]
        unfold digitValue
        omega
      have hlt := numeralValue_lt (by decide) hv
      apply Nat.le_antisymm
      · exact Nat.size_le.mpr hlt
      · apply Nat.lt_size.mpr
        rw [numeralValue_cons, hc, Nat.mul_one]
        exact Nat.le_add_right _ _

theorem head?_dropWhile (vin : Bytes) :
    (vin.dropWhile fun c => decide (c = 48)).head? ≠ some 48 := by
  induction vin with
  | nil => exact fun h => nomatch h
  | cons c vin ih =>
      by_cases hc : c = 48
      · rw [List.dropWhile_cons_of_pos (by simpa using hc)]
        exact ih
      · rw [List.dropWhile_cons_of_neg (by simpa using hc), List.head?_cons]
        exact fun h => hc (Option.some.inj h)

/-! ## Contract -/

def strippedLength (vin : Bytes) : Nat := (vin.dropWhile fun c => decide (c = 48)).length

/-- The text gives its number, in normalized limbs and with the exact bit length. -/
def ReadsBinary (l : Nat) (vin : Bytes) : Prop :=
  exists r, fromBinaryString l vin = .ok r ∧ Denotes l r (numeralValue 2 vin)

section Contract

variable {vin : Bytes} (hvin : IsNumeral 2 vin)

include hvin

theorem fromBinaryString_limbs (hpos : strippedLength vin ≠ 0) :
    exists value, fromBinaryString l vin = .ok { msb := msbOf l value, value := value } ∧
      value = (List.range (msbToLimbs l (usint (strippedLength vin)))).map fun i =>
        numeralValue 2 (chunkText l (vin.dropWhile fun c => decide (c = 48)) i) := by
  refine ⟨_, ?_, rfl⟩
  unfold fromBinaryString strippedLength at *
  dsimp only
  rw [if_neg hpos, chunkLimbs_spec (hvin.dropWhile _)]
  rfl

theorem readsBinary_of_length (hrest : strippedLength vin % limbBitLength l ≠ 0)
    (hfits : strippedLength vin + limbBitLength l < 2 ^ 32) : ReadsBinary l vin := by
  have hpos : strippedLength vin ≠ 0 := by
    intro hzero
    rw [hzero, Nat.zero_mod] at hrest
    exact hrest rfl
  rcases fromBinaryString_limbs (l := l) hvin hpos with ⟨value, hrun, hvalue⟩
  have hv := hvin.dropWhile fun c => decide (c = 48)
  have hne : (vin.dropWhile fun c => decide (c = 48)) ≠ [] := by
    intro hnil
    apply hpos
    unfold strippedLength
    rw [hnil]
    rfl
  have hsize := size_numeralValue hv hne (head?_dropWhile vin)
  have hsame := numeralValue_dropWhile 2 vin
  rw [hsame] at hsize
  rw [usint_eq (by omega)] at hvalue
  rcases msbToLimbs_bounds (l := l) (Nat.pos_of_ne_zero hpos) with ⟨hlimbs, hbelow, habove⟩
  have hquotients : value = (List.range (msbToLimbs l (strippedLength vin))).map fun i =>
      numeralValue 2 vin / base l ^ i % base l := by
    rw [hvalue]
    apply List.map_congr_left
    intro i hi
    have hlt := List.mem_range.mp hi
    have hle := Nat.mul_le_mul_left (limbBitLength l)
      (show i <= msbToLimbs l (strippedLength vin) - 1 by omega)
    rw [chunkText_value hfits hv hrest (hle.trans_lt hbelow), hsame]
  have hlength : value.length = msbToLimbs l (strippedLength vin) := by
    rw [hquotients, List.length_map, List.length_range]
  have hnumber : Nat.ofDigits (base l) value = numeralValue 2 vin := by
    rw [hquotients, ofDigits_quotients]
    apply Nat.mod_eq_of_lt
    rw [base_pow]
    apply (Nat.size_le.mp hsize.le).trans_le
    exact Nat.pow_le_pow_right (by decide) habove
  have hnormal : Normalized l value := by
    have hdigits : IsLimbs (base l) value := by
      intro x hx
      rw [hquotients] at hx
      rcases List.mem_map.mp hx with ⟨i, _, rfl⟩
      exact Nat.mod_lt _ (base_pos l)
    have hnil : value ≠ [] := by
      apply List.ne_nil_of_length_pos
      omega
    refine ⟨hdigits, hnil, fun _ => ?_⟩
    apply (getLastD_ne_zero_iff (one_lt_base l) hdigits hnil).mpr
    rw [hnumber, base_pow, hlength]
    apply Nat.lt_size.mp
    rw [hsize]
    exact hbelow
  refine ⟨_, hrun, ?_, hnumber⟩
  apply Normalized.valid (x := { msb := msbOf l value, value := value }) hnormal rfl
  rw [toNat, hnumber, hsize]
  show strippedLength vin < maxMSB
  unfold maxMSB
  omega

omit hvin in
/-- The chunk on top is empty when the limbs divide the length, or the end of it wraps. -/
theorem chunkText_top (hl : l <= 31) (hlen : strippedLength vin < 2 ^ 32)
    (hpos : strippedLength vin ≠ 0)
    (hwrong : ¬ (strippedLength vin % limbBitLength l ≠ 0 ∧
      strippedLength vin + limbBitLength l < 2 ^ 32)) :
    chunkText l (vin.dropWhile fun c => decide (c = 48))
      (msbToLimbs l (strippedLength vin) - 1) = [] := by
  have hbits := limbBitLength_pos l
  rcases msbToLimbs_bounds (l := l) (Nat.pos_of_ne_zero hpos) with ⟨hlimbs, hbelow, habove⟩
  unfold chunkText substr
  rw [show (vin.dropWhile fun c => decide (c = 48)).length = strippedLength vin from rfl,
    usint_eq hlen, Nat.sub_add_cancel hlimbs, Nat.mul_comm]
  dsimp only
  by_cases hrest : strippedLength vin % limbBitLength l = 0
  · have hfull : limbBitLength l * msbToLimbs l (strippedLength vin) = strippedLength vin := by
      have hdivmod := Nat.div_add_mod (strippedLength vin) (limbBitLength l)
      rw [hrest, Nat.add_zero] at hdivmod
      rw [← hdivmod] at hbelow habove
      have hlow := Nat.lt_of_mul_lt_mul_left hbelow
      have hhigh := Nat.le_of_mul_le_mul_left habove hbits
      have hquot : strippedLength vin / limbBitLength l = msbToLimbs l (strippedLength vin) := by
        rw [hdivmod] at hlow hhigh
        omega
      rw [← hquot]
      exact hdivmod
    rw [hfull, usint_eq hlen, if_neg (Nat.lt_irrefl _), hrest, List.take_zero]
  · have hword : 2 ^ 32 = limbBitLength l * 2 ^ (32 - l) := by
      rw [limbBitLength, ← pow_add, Nat.add_sub_cancel' (by omega)]
    have hlong : 2 ^ 32 <= strippedLength vin + limbBitLength l := by
      by_contra hshort
      exact hwrong ⟨hrest, not_le.mp hshort⟩
    have hlow : 2 ^ (32 - l) <= msbToLimbs l (strippedLength vin) := by
      have hstrict : strippedLength vin ≠ limbBitLength l * msbToLimbs l (strippedLength vin) := by
        intro heq
        apply hrest
        rw [heq, Nat.mul_mod_right]
      have hmul : limbBitLength l * 2 ^ (32 - l) <
          limbBitLength l * (msbToLimbs l (strippedLength vin) + 1) := by
        rw [← hword, Nat.mul_succ]
        omega
      exact Nat.le_of_lt_succ (Nat.lt_of_mul_lt_mul_left hmul)
    have hhigh : msbToLimbs l (strippedLength vin) <= 2 ^ (32 - l) := by
      have hmul : limbBitLength l * (msbToLimbs l (strippedLength vin) - 1) <
          limbBitLength l * 2 ^ (32 - l) := by
        rw [← hword]
        exact hbelow.trans hlen
      have hlt := Nat.lt_of_mul_lt_mul_left hmul
      omega
    have hwrap : usint (limbBitLength l * msbToLimbs l (strippedLength vin) : Nat) = 0 := by
      rw [Nat.le_antisymm hhigh hlow, ← hword]
      rfl
    rw [hwrap, if_pos (Nat.pos_of_ne_zero hpos), Nat.sub_zero]
    unfold strippedLength
    rw [List.drop_length, List.take_nil]

/-- The text is read right exactly when no chunk on top is lost. -/
theorem readsBinary_iff (hl : l <= 31) : ReadsBinary l vin <->
    strippedLength vin = 0 ∨ strippedLength vin % limbBitLength l ≠ 0 ∧
      strippedLength vin + limbBitLength l < 2 ^ 32 := by
  constructor
  · rintro ⟨r, hr, hvalid, hvalue⟩
    by_cases hpos : strippedLength vin = 0
    · exact Or.inl hpos
    · refine Or.inr ?_
      by_contra hwrong
      rcases fromBinaryString_limbs (l := l) hvin hpos with ⟨value, hrun, hlimbs⟩
      have hv := hvin.dropWhile fun c => decide (c = 48)
      have hne : (vin.dropWhile fun c => decide (c = 48)) ≠ [] := by
        intro hnil
        apply hpos
        unfold strippedLength
        rw [hnil]
        rfl
      have hsize := size_numeralValue hv hne (head?_dropWhile vin)
      rw [numeralValue_dropWhile, ← hvalue, ← hvalid.bitLength] at hsize
      have hlen : strippedLength vin < 2 ^ 32 := by
        show (vin.dropWhile fun c => decide (c = 48)).length < maxMSB
        rw [← hsize]
        exact hvalid.fits
      have htop := chunkText_top hl hlen hpos hwrong
      rw [usint_eq hlen] at hlimbs
      rcases msbToLimbs_bounds (l := l) (Nat.pos_of_ne_zero hpos) with ⟨hcount, _, _⟩
      have hlast : value.getLastD 0 = 0 := by
        obtain ⟨m, hm⟩ : exists m, msbToLimbs l (strippedLength vin) = m + 1 :=
          ⟨msbToLimbs l (strippedLength vin) - 1, by omega⟩
        rw [hm, Nat.add_sub_cancel] at htop
        rw [hlimbs, hm, List.range_succ, List.map_append, List.map_singleton, htop,
          List.getLastD_eq_getLast?, List.getLast?_append]
        rfl
      cases hrun.symm.trans hr
      have hzero : Nat.ofDigits (base l) value = 0 := by
        by_contra hnonzero
        have htopone := hvalid.top_le (by
          rw [hvalid.bitLength]
          exact Nat.size_pos.mpr (Nat.pos_of_ne_zero hnonzero))
        exact (getLastD_ne_zero_iff (one_lt_base l) hvalid.limbs hvalid.nonempty).mpr
          htopone hlast
      rw [hvalid.bitLength, toNat, hzero, Nat.size_zero] at hsize
      exact hpos hsize.symm
  · intro h
    cases h with
    | inl hzero =>
        refine ⟨zero, if_pos hzero, zero_valid l, ?_⟩
        have hnil : (vin.dropWhile fun c => decide (c = 48)) = [] :=
          List.length_eq_zero_iff.mp hzero
        rw [toNat_zero, ← numeralValue_dropWhile, hnil]
        rfl
    | inr hcut => exact readsBinary_of_length hvin hcut.left hcut.right

end Contract

theorem isNumeral_five : IsNumeral 2 [48, 49, 48, 49] := by
  have hzero : IsDigit 2 48 := ⟨Nat.le_refl 48, by decide⟩
  have hone : IsDigit 2 49 := ⟨by decide, by decide⟩
  exact (((isNumeral_zeros (by decide) 0).cons hone).cons hzero).cons hone |>.cons hzero

/-- The number 5 in limbs of 64 bits. -/
theorem readsBinary_five : IsNumeral 2 [48, 49, 48, 49] ∧ (6 : Nat) <= 31 ∧
    (ReadsBinary 6 [48, 49, 48, 49] <->
      strippedLength [48, 49, 48, 49] = 0 ∨
        strippedLength [48, 49, 48, 49] % limbBitLength 6 ≠ 0 ∧
          strippedLength [48, 49, 48, 49] + limbBitLength 6 < 2 ^ 32) :=
  ⟨isNumeral_five, by decide, readsBinary_iff isNumeral_five (by decide)⟩

/-- A one and 63 zeros are read as zero. -/
theorem readsBinary_full_limb :
    IsNumeral 2 (49 :: List.replicate 63 48) ∧
      fromBinaryString 6 (49 :: List.replicate 63 48) = .ok { msb := 0, value := [0] } ∧
      numeralValue 2 (49 :: List.replicate 63 48) = 2 ^ 63 ∧
      ¬ ReadsBinary 6 (49 :: List.replicate 63 48) := by
  have hrun : fromBinaryString 6 (49 :: List.replicate 63 48) =
      .ok { msb := 0, value := [0] } := by decide +kernel
  have hvalue : numeralValue 2 (49 :: List.replicate 63 48) = 2 ^ 63 := by
    rw [numeralValue_cons, numeralValue_replicate_zero, List.length_replicate]
    rfl
  refine ⟨(isNumeral_zeros (by decide) 63).cons (by decide), hrun, hvalue, ?_⟩
  rintro ⟨r, hr, hdenotes⟩
  rw [hrun] at hr
  cases hr
  have hzero := hdenotes.value
  rw [hvalue] at hzero
  exact absurd hzero (by decide)

end Ubint

end BigInteger
end Core
end OpenFHE
