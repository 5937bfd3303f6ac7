import OpenFHE.Core.NativeInteger.Word
import OpenFHE.Foundation.Loop
import Mathlib.Data.Int.ModEq
import Mathlib.Data.List.Rotate
import Mathlib.Data.ZMod.Basic

/-!
# Rotations of vectors of slots

`ReduceRotation` brings a rotation index into the range of the slots, `Rotate`
rotates a vector.
-/

namespace OpenFHE
namespace Scheme
namespace Ckksrns

open OpenFHE.Core Foundation NativeInteger

def IsPowerOfTwo (x : Nat) : Prop := x ≠ 0 ∧ x &&& (x - 1) = 0

instance (x : Nat) : Decidable (IsPowerOfTwo x) :=
  inferInstanceAs (Decidable (x ≠ 0 ∧ x &&& (x - 1) = 0))

theorem IsPowerOfTwo.eq_two_pow {x : Nat} (h : IsPowerOfTwo x) : x = 2 ^ Nat.log2 x := by
  rcases h with ⟨hne, hand⟩
  have hle := Nat.log2_self_le hne
  have hlt : x < 2 ^ (Nat.log2 x + 1) := Nat.lt_log2_self
  by_contra hgt
  -- both `x` and `x - 1` have the leading bit of `x`
  have hbit : (x &&& (x - 1)).testBit (Nat.log2 x) = true := by
    rw [Nat.testBit_and,
      Nat.testBit_of_two_pow_le_and_two_pow_add_one_gt hle hlt,
      Nat.testBit_of_two_pow_le_and_two_pow_add_one_gt (by omega) (by omega)]
    rfl
  rw [hand, Nat.zero_testBit] at hbit
  cases hbit

def reduceRotation (index : Int) (slots : Nat) : Nat :=
  if IsPowerOfTwo slots then
    let n := Nat.log2 slots
    if index >= 0 then usint (index - ((index.toNat >>> n) <<< n : Nat))
    else usint (index + slots + ((index.natAbs >>> n) <<< n : Nat))
  else usint (Int.tmod (slots + Int.tmod index slots) slots)

/-- The generic path of `ReduceRotation`. -/
def genericRotation (index : Int) (slots : Nat) : Nat :=
  usint (Int.tmod (slots + Int.tmod index slots) slots)

theorem genericRotation_eq (index : Int) {slots : Nat} (hpos : 0 < slots)
    (hslots : slots < 2 ^ 31) : (genericRotation index slots : Int) = index % slots := by
  have hposZ : (0 : Int) < slots := by exact_mod_cast hpos
  have hlow := Int.lt_tmod_of_pos index hposZ
  have hnonneg : 0 <= (slots : Int) + Int.tmod index slots := by omega
  have hmod : ((slots : Int) + Int.tmod index slots) % slots = index % slots := by
    have hquot := Int.mul_tdiv_add_tmod index slots
    rw [Int.add_emod_left]
    conv_rhs => rw [← hquot]
    rw [Int.add_comm, Int.add_mul_emod_self_left]
  unfold genericRotation
  rw [Int.tmod_eq_emod_of_nonneg hnonneg, hmod]
  have hlt := Int.emod_lt_of_pos index hposZ
  exact usint_of_bounds (Int.emod_nonneg _ hposZ.ne') (by omega)

theorem reduceRotation_of_isPowerOfTwo (index : Int) {slots : Nat} (hpow : IsPowerOfTwo slots)
    (hslots : slots < 2 ^ 31) :
    (reduceRotation index slots : Int) =
      if index >= 0 then index % slots else slots - (index.natAbs % slots : Nat) := by
  have hpos := Nat.pos_of_ne_zero hpow.left
  have hshift (y : Nat) : (y >>> Nat.log2 slots) <<< Nat.log2 slots = slots * (y / slots) := by
    rw [Nat.shiftLeft_eq, Nat.shiftRight_eq_div_pow, ← hpow.eq_two_pow, Nat.mul_comm]
  unfold reduceRotation
  rw [if_pos hpow]
  dsimp only
  by_cases hsign : index >= 0
  · rw [if_pos hsign, if_pos hsign, hshift]
    have hmod := Nat.mod_lt index.toNat hpos
    have hdiv := Nat.div_add_mod index.toNat slots
    have heq : index % slots = (index.toNat % slots : Nat) := by
      rw [Int.natCast_mod, Int.toNat_of_nonneg hsign]
    rw [heq, usint_of_bounds (by omega) (by omega)]
    omega
  · rw [if_neg hsign, if_neg hsign, hshift]
    have hmod := Nat.mod_lt index.natAbs hpos
    have hdiv := Nat.div_add_mod index.natAbs slots
    rw [usint_of_bounds (by omega) (by omega)]
    omega

theorem reduceRotation_eq (index : Int) {slots : Nat} (hpos : 0 < slots)
    (hslots : slots < 2 ^ 31) :
    (reduceRotation index slots : Int) =
      if IsPowerOfTwo slots ∧ index < 0 ∧ (slots : Int) ∣ index then (slots : Int)
      else index % slots := by
  by_cases hpow : IsPowerOfTwo slots
  · rw [reduceRotation_of_isPowerOfTwo index hpow hslots]
    by_cases hsign : index >= 0
    · rw [if_pos hsign, if_neg (by omega)]
    · have hneg : index = -(index.natAbs : Int) := by omega
      have hmod := Nat.mod_lt index.natAbs hpos
      rw [if_neg hsign]
      by_cases hdvd : (slots : Int) ∣ index
      · have hzero := Nat.mod_eq_zero_of_dvd (Int.natCast_dvd.mp hdvd)
        rw [if_pos ⟨hpow, by omega, hdvd⟩, hzero]
        exact Int.sub_zero _
      · rw [if_neg (fun h => hdvd h.right.right)]
        have hne : index.natAbs % slots ≠ 0 := by
          intro hzero
          exact hdvd (Int.natCast_dvd.mpr (Nat.dvd_of_mod_eq_zero hzero))
        have hquot : index =
            slots * (-(index.natAbs / slots : Nat) - 1) + (slots - (index.natAbs % slots : Nat)) := by
          have hdiv : (slots : Int) * (index.natAbs / slots : Nat) +
              (index.natAbs % slots : Nat) = index.natAbs := by
            exact_mod_cast Nat.div_add_mod index.natAbs slots
          rw [Int.mul_sub, Int.mul_neg]
          omega
        conv_rhs => rw [hquot]
        rw [Int.add_comm, Int.add_mul_emod_self_left, Int.emod_eq_of_lt (by omega) (by omega)]
  · rw [if_neg (fun h => hpow h.left), ← genericRotation_eq index hpos hslots]
    unfold reduceRotation
    rw [if_neg hpow]
    rfl

theorem reduceRotation_spec (index : Int) {slots : Nat} (hpos : 0 < slots)
    (hslots : slots < 2 ^ 31) :
    reduceRotation index slots <= slots ∧
      (reduceRotation index slots : Int) % slots = index % slots := by
  have heq := reduceRotation_eq index hpos hslots
  split at heq
  next hmultiple =>
      constructor
      · omega
      · rw [heq, Int.emod_self, Int.emod_eq_zero_of_dvd hmultiple.right.right]
  next =>
      have hlt := Int.emod_lt_of_pos index (show (0 : Int) < slots by exact_mod_cast hpos)
      constructor
      · omega
      · rw [heq, Int.emod_emod_of_dvd _ (dvd_refl _)]

def rotate {R : Type _} (a : List R) (index : Int) : List R :=
  let slots := a.length
  let index :=
    if index < 0 ∨ index > slots then reduceRotation index slots else index.toNat
  if index = 0 then a else a.drop index ++ a.take index

theorem rotate_eq_rotate {R : Type _} {a : List R} (hpos : 0 < a.length)
    (hlen : a.length < 2 ^ 31) (index : Int) :
    exists k : Nat, (k : Int) % a.length = index % a.length ∧ rotate a index = a.rotate k := by
  unfold rotate
  dsimp only
  split
  next hreduce =>
      rcases reduceRotation_spec index hpos hlen with ⟨hle, hmod⟩
      refine ⟨reduceRotation index a.length, hmod, ?_⟩
      rw [List.rotate_eq_drop_append_take hle]
      split
      next hzero => simp [hzero]
      next => rfl
  next hkeep =>
      refine ⟨index.toNat, by congr 1; omega, ?_⟩
      rw [List.rotate_eq_drop_append_take (by omega)]
      split
      next hzero => simp [hzero]
      next => rfl

theorem rotate_length {R : Type _} {a : List R} (hpos : 0 < a.length)
    (hlen : a.length < 2 ^ 31) (index : Int) : (rotate a index).length = a.length := by
  rcases rotate_eq_rotate hpos hlen index with ⟨k, _, heq⟩
  rw [heq, List.length_rotate]

theorem rotate_getElem? {R : Type _} {a : List R} (hlen : a.length < 2 ^ 31) (index : Int)
    {i : Nat} (hi : i < a.length) :
    (rotate a index)[i]? = a[((i + index) % a.length).toNat]? := by
  rcases rotate_eq_rotate (by omega) hlen index with ⟨k, hk, heq⟩
  have hindex : ((i + index) % a.length).toNat = (i + k) % a.length := by
    rw [Int.add_emod, ← hk, ← Int.add_emod]
    exact_mod_cast Int.toNat_natCast _
  rw [heq, hindex, List.getElem?_rotate hi]

theorem rotate_rotate {R : Type _} {a : List R} (hpos : 0 < a.length)
    (hlen : a.length < 2 ^ 31) (i j : Int) : rotate (rotate a i) j = rotate a (i + j) := by
  have hlength := rotate_length hpos hlen i
  rcases rotate_eq_rotate hpos hlen i with ⟨k, hk, hrotate⟩
  rcases rotate_eq_rotate (a := rotate a i) (by omega) (by omega) j with ⟨l, hl, hagain⟩
  rcases rotate_eq_rotate hpos hlen (i + j) with ⟨s, hs, hsum⟩
  rw [hlength] at hl
  rw [hagain, hrotate, List.rotate_rotate, hsum, ← List.rotate_mod a (k + l),
    ← List.rotate_mod a s]
  congr 1
  have hmod : ((k + l : Nat) : Int) % a.length = (s : Int) % a.length := by
    rw [Nat.cast_add, Int.add_emod, hk, hl, hs, ← Int.add_emod]
  exact_mod_cast hmod

/-! ## Both halves -/

/-- `RotateTwoHalves`; a read past the end is out of bounds. -/
def rotateTwoHalves {R : Type _} (a : List R) (index : Int) : Option (List R) :=
  let slots := a.length
  let slotsHalf := slots >>> 1
  let index :=
    if index < 0 ∨ index > slotsHalf then reduceRotation index slotsHalf else index.toNat
  if index = 0 then some a
  else
    (List.range slots).mapM fun i =>
      if i < slotsHalf - index then a[i + index]?
      else if i < slotsHalf then a[i + index - slotsHalf]?
      else if i < slots - index then a[i + index]?
      else a[i + index - slotsHalf]?

theorem getElem?_drop_append_take {R : Type _} {a : List R} {r i : Nat} (hr : r <= a.length)
    (hi : i < a.length) :
    (a.drop r ++ a.take r)[i]? =
      if i < a.length - r then a[i + r]? else a[i + r - a.length]? := by
  split
  next hlow =>
      rw [List.getElem?_append_left (by rw [List.length_drop]; exact hlow), List.getElem?_drop,
        Nat.add_comm]
  next hhigh =>
      rw [List.getElem?_append_right (by rw [List.length_drop]; omega), List.length_drop,
        List.getElem?_take_of_lt (by omega)]
      congr 1
      omega

theorem rotateTwoHalves_append {R : Type _} {a b : List R} (hpos : 0 < a.length)
    (hlen : a.length < 2 ^ 31) (hb : b.length = a.length) (index : Int) :
    rotateTwoHalves (a ++ b) index = some (rotate a index ++ rotate b index) := by
  have hslots : (a ++ b).length = a.length + a.length := by rw [List.length_append, hb]
  have hhalf : (a.length + a.length) >>> 1 = a.length := by
    rw [Nat.shiftRight_eq_div_pow]
    omega
  unfold rotateTwoHalves rotate
  dsimp only
  rw [hslots, hhalf, hb]
  have hindex : (if index < 0 ∨ index > a.length then reduceRotation index a.length
      else index.toNat) <= a.length := by
    split
    next => exact (reduceRotation_spec index hpos hlen).left
    next hkeep => omega
  revert hindex
  generalize (if index < 0 ∨ index > a.length then reduceRotation index a.length
    else index.toNat) = r
  intro hr
  by_cases hzero : r = 0
  · rw [if_pos hzero, if_pos hzero, if_pos hzero]
  · rw [if_neg hzero, if_neg hzero, if_neg hzero]
    have hfirst : (a.drop r ++ a.take r).length = a.length := by
      rw [List.length_append, List.length_drop, List.length_take]
      omega
    have hcount : (a.drop r ++ a.take r ++ (b.drop r ++ b.take r)).length =
        a.length + a.length := by
      rw [List.length_append, hfirst, List.length_append, List.length_drop, List.length_take]
      omega
    have hleft {x : Nat} (hx : x < a.length) : (a ++ b)[x]? = a[x]? :=
      List.getElem?_append_left hx
    have hright {x : Nat} (hx : a.length <= x) : (a ++ b)[x]? = b[x - a.length]? :=
      List.getElem?_append_right hx
    rw [← hcount]
    apply mapM_range_eq_some
    intro i hi
    rw [hcount] at hi ⊢
    rcases Nat.lt_or_ge i a.length with hlow | hhigh
    · rw [List.getElem?_append_left (show i < (a.drop r ++ a.take r).length by omega),
        getElem?_drop_append_take hr hlow, if_pos hlow]
      split
      next => exact hleft (by omega)
      next => exact hleft (by omega)
    · rw [List.getElem?_append_right (show (a.drop r ++ a.take r).length <= i by omega), hfirst,
        getElem?_drop_append_take (by omega) (by omega), hb, if_neg (by omega),
        if_neg (by omega)]
      by_cases hwrap : i < a.length + a.length - r
      · rw [if_pos hwrap, if_pos (by omega), hright (by omega)]
        congr 1
        omega
      · rw [if_neg hwrap, if_neg (by omega), hright (by omega)]
        congr 1
        omega

/-! ## Reduction in range -/

/-- The reduced index is in range and congruent to the index, as the generic path gives it. -/
def ReducesInRange (index : Int) (slots : Nat) : Prop :=
  reduceRotation index slots < slots ∧
    (reduceRotation index slots : Int) % slots = index % slots ∧
    reduceRotation index slots = genericRotation index slots

/-- What rotations of vectors with `slots` entries do, whatever the index is reduced to. -/
structure RotationLaws (R : Type) (slots : Nat) : Prop where
  left_rotation (a : List R) (ha : a.length = slots) (index : Int) :
    (rotate a index).length = slots ∧
      forall i, i < slots -> (rotate a index)[i]? = a[((i + index) % slots).toNat]?
  add (a : List R) (ha : a.length = slots) (i j : Int) :
    rotate (rotate a i) j = rotate a (i + j)
  halves (a b : List R) (ha : a.length = slots) (hb : b.length = slots) (index : Int) :
    rotateTwoHalves (a ++ b) index = some (rotate a index ++ rotate b index)

theorem rotationLaws (R : Type) {slots : Nat} (hpos : 0 < slots) (hslots : slots < 2 ^ 31) :
    RotationLaws R slots := by
  constructor
  case left_rotation =>
    intro a ha index
    subst ha
    constructor
    · exact rotate_length hpos hslots index
    · intro i hi
      exact rotate_getElem? hslots index hi
  case add =>
    intro a ha i j
    subst ha
    exact rotate_rotate hpos hslots i j
  case halves =>
    intro a b ha hb index
    subst ha
    exact rotateTwoHalves_append hpos hslots hb index

/--
The index is reduced into range unless it is a negative multiple of a power of two, where
the result is the number of slots.  Rotations are the same either way.
-/
theorem reducesInRange_iff {slots : Nat} (hpos : 1 <= slots) (hslots : slots < 2 ^ 30)
    (index : Int) :
    (ReducesInRange index slots <->
        ¬(IsPowerOfTwo slots ∧ index < 0 ∧ (slots : Int) ∣ index)) ∧
      forall R : Type, RotationLaws R slots := by
  have heq := reduceRotation_eq index hpos (by omega)
  have hgeneric := genericRotation_eq index hpos (by omega)
  constructor
  · constructor
    · intro h hmultiple
      rw [if_pos hmultiple] at heq
      have hlt := h.left
      omega
    · intro hother
      rw [if_neg hother] at heq
      have hlt := Int.emod_lt_of_pos index (show (0 : Int) < slots by exact_mod_cast hpos)
      refine ⟨by omega, ?_, by omega⟩
      rw [heq, Int.emod_emod_of_dvd _ (dvd_refl _)]
  · intro R
    exact rotationLaws R hpos (by omega)

theorem reducesInRange_iff_five :
    (ReducesInRange (-10) 5 <->
        ¬(IsPowerOfTwo 5 ∧ (-10 : Int) < 0 ∧ ((5 : Nat) : Int) ∣ -10)) ∧
      forall R : Type, RotationLaws R 5 :=
  reducesInRange_iff (by decide) (by decide) (-10)

/-- Four slots and index `-4`: one path gives four, the generic path zero. -/
theorem reduceRotation_four :
    reduceRotation (-4) 4 = 4 ∧ genericRotation (-4) 4 = 0 ∧ ¬ReducesInRange (-4) 4 := by
  refine ⟨by decide, by decide, ?_⟩
  intro h
  exact absurd h.left (by decide)

/-! ## Vectors as functions of the slot -/

/-- The vector of slots with the entries of a list. -/
def ofList {R : Type _} [Zero R] {n : Nat} (a : List R) : ZMod n -> R :=
  fun i => (a[i.val]?).getD 0

def rotateSlots {R : Type _} {n : Nat} (index : ZMod n) (x : ZMod n -> R) : ZMod n -> R :=
  fun i => x (i + index)

@[simp] theorem rotateSlots_zero {R : Type _} {n : Nat} (x : ZMod n -> R) :
    rotateSlots 0 x = x := by
  funext i
  rw [rotateSlots, add_zero]

theorem ofList_rotate {R : Type _} [Zero R] {n : Nat} [NeZero n] {a : List R}
    (ha : a.length = n) (hn : n < 2 ^ 31) (index : Int) :
    (ofList (rotate a index) : ZMod n -> R) = rotateSlots (index : ZMod n) (ofList a) := by
  have hpos : 0 < a.length := by
    rw [ha]
    exact Nat.pos_of_neZero n
  rcases rotate_eq_rotate hpos (by omega) index with ⟨k, hk, hrotate⟩
  rw [ha] at hk
  have hcast : (index : ZMod n) = (k : ZMod n) := by
    simpa using (ZMod.intCast_eq_intCast_iff' index k n).mpr hk.symm
  funext i
  have hi : i.val < a.length := by
    rw [ha]
    exact ZMod.val_lt i
  unfold rotateSlots ofList
  rw [hrotate, List.getElem?_rotate hi, hcast, ZMod.val_add, ZMod.val_natCast, ha,
    Nat.add_mod_mod]

end Ckksrns
end Scheme
end OpenFHE
