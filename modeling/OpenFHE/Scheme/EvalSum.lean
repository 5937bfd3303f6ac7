import OpenFHE.Core.NativeInteger.Digits
import OpenFHE.Core.NativeInteger.ModInverse
import OpenFHE.Core.AutomorphismMap
import OpenFHE.Foundation.OrbitSum
import Mathlib.RingTheory.ZMod.UnitsCyclic

/-!
# Sums of slots

`EvalSumKeyGen` and its variants generate keys for lists of automorphism indices
made by repeated squaring, `EvalSum` and its variants ask for indices of lists
made again.  A ciphertext is taken for the values of its polynomial at the powers
of a primitive root of order `m`, on which the automorphism of index `g` acts
exactly, and slot `i` is the value at exponent `5 ^ i`.
-/

namespace OpenFHE
namespace Scheme
namespace EvalSum

open OpenFHE.Core Foundation NativeInteger Finset

/-- `(g * g) % m` on unsigned words. -/
def squareMod (m g : Nat) : Nat := usint (g * g : Nat) % m

/-- `std::ceil(std::log2(x))`. -/
def ceilLog2 (x : Nat) : Nat := Nat.clog 2 x

/-! ## Indices of the keys -/

def squares (m g isize : Nat) : List Nat := List.iterate (squareMod m) g isize

def generateIndices2n (batchSize m : Nat) : List Nat :=
  if batchSize > 1 then
    let isize := ceilLog2 batchSize - 1
    let g := (squareMod m)^[isize] 5
    squares m 5 isize ++ [if usint (2 * batchSize : Nat) < m then g else m - 1]
  else []

def generateIndices2nComplex (batchSize m : Nat) : List Nat :=
  squares m 5 (ceilLog2 batchSize)

def colSize (rowSize m : Nat) : Nat := m / usint (4 * rowSize : Nat)

/-- A quotient of zero has no logarithm to round. -/
def generateIndices2nComplexRows (rowSize m : Nat) : Option (List Nat) :=
  if colSize rowSize m = 0 then none
  else (modExp 5 rowSize m).map fun g => squares m g (ceilLog2 (colSize rowSize m))

def generateIndices2nComplexCols (batchSize m : Nat) : Option (List Nat) :=
  (modInverse 5 m).map fun g => squares m g (ceilLog2 batchSize)

/-- The indices of `EvalSumColsKeyGen`: those of the columns and those of `EvalSum`. -/
def evalSumColsIndices (batchSize m : Nat) : Option (List Nat) :=
  (generateIndices2nComplexCols batchSize m).map (· ++ generateIndices2nComplex batchSize m)

/-- The indices of `MultiEvalSumKeyGen`, for every scheme. -/
def multiEvalSumIndices (batchSize m : Nat) : List Nat :=
  if batchSize > 1 then
    let isize := ceilLog2 batchSize - 1
    let g := (squareMod m)^[isize] 5
    if usint (2 * batchSize : Nat) < m then squares m 5 isize ++ [g]
    else squares m 5 isize ++ [m - 1]
  else []

/-! ## Sums -/

section Evaluation

variable {R : Type _} [AddCommMonoid R] {m : Nat}

/-- `EvalAutomorphism`, which throws when the index has no key. -/
def evalAutomorphism (evalKeys : List Nat) (v : ZMod m -> R) (g : Nat) :
    Option (ZMod m -> R) :=
  if g ∈ evalKeys then some (substitute (g : ZMod m) v) else none

/-- Add the image under the automorphism of index `g`. -/
def addAutomorphism (evalKeys : List Nat) (v : ZMod m -> R) (g : Nat) :
    Option (ZMod m -> R) :=
  (evalAutomorphism evalKeys v g).map fun image => v + image

/-- The loop of the four sums: the sum so far and the next index. -/
def evalSumLoop (evalKeys : List Nat) :
    Nat -> Nat -> (ZMod m -> R) -> Option ((ZMod m -> R) × Nat)
  | 0, g, v => some (v, g)
  | count + 1, g, v =>
      match addAutomorphism evalKeys v g with
      | none => none
      | some v => evalSumLoop evalKeys count (squareMod m g) v

def evalSum2n (evalKeys : List Nat) (batchSize : Nat) (v : ZMod m -> R) :
    Option (ZMod m -> R) :=
  if batchSize > 1 then
    match evalSumLoop evalKeys (ceilLog2 batchSize - 1) 5 v with
    | none => none
    | some (v, g) =>
        if usint (2 * batchSize : Nat) < m then addAutomorphism evalKeys v g
        else addAutomorphism evalKeys v (m - 1)
  else some v

def evalSum2nComplex (evalKeys : List Nat) (batchSize : Nat) (v : ZMod m -> R) :
    Option (ZMod m -> R) :=
  (evalSumLoop evalKeys (ceilLog2 batchSize) 5 v).map Prod.fst

def evalSum2nComplexRows (evalKeys : List Nat) (rowSize : Nat) (v : ZMod m -> R) :
    Option (ZMod m -> R) :=
  if colSize rowSize m = 0 then none
  else
    match modExp 5 rowSize m with
    | none => none
    | some g => (evalSumLoop evalKeys (ceilLog2 (colSize rowSize m)) g v).map Prod.fst

def evalSum2nComplexCols (evalKeys : List Nat) (batchSize : Nat) (v : ZMod m -> R) :
    Option (ZMod m -> R) :=
  match modInverse 5 m with
  | none => none
  | some g => (evalSumLoop evalKeys (ceilLog2 batchSize) g v).map Prod.fst

/-- `EvalSumCols` with the plaintext of its mask. -/
def evalSumCols {R : Type _} [CommRing R] (evalSumKeys evalSumColsKeys : List Nat)
    (numCols : Nat) (mask v : ZMod m -> R) : Option (ZMod m -> R) :=
  (evalSum2nComplex evalSumKeys numCols v).bind fun sum =>
    evalSum2nComplexCols evalSumColsKeys numCols (sum * mask)

/-- Slot `i` of the row of the root, or of the row of its inverse. -/
def slot (v : ZMod m -> R) (second : Bool) (i : Nat) : R :=
  v ((if second then -1 else 1) * 5 ^ i)

/-- Slot `i` of both rows one after the other, continued with the period `n`. -/
def packedSlot (n : Nat) (v : ZMod m -> R) (i : Nat) : R :=
  slot v (decide (n / 2 <= i % n)) (i % n % (n / 2))

end Evaluation

/-! ## Squarings -/

section Squares

variable {k : Nat} (hk : k <= 31)

include hk

theorem squareMod_eq (g : Nat) : squareMod (2 ^ k) g = g ^ 2 % 2 ^ k := by
  unfold squareMod
  rw [usint_natCast, Nat.mod_mod_of_dvd _ (pow_dvd_pow 2 (by omega)), pow_two]

theorem squareMod_iterate_cast (g i : Nat) :
    (((squareMod (2 ^ k))^[i] g : Nat) : ZMod (2 ^ k)) = (g : ZMod (2 ^ k)) ^ 2 ^ i := by
  induction i with
  | zero =>
      simp
  | succ i ih =>
      rw [Function.iterate_succ_apply', squareMod_eq hk, ZMod.natCast_mod, Nat.cast_pow, ih,
        ← pow_mul, ← pow_succ]

end Squares

theorem mem_squares {m g isize i : Nat} (hi : i < isize) :
    (squareMod m)^[i] g ∈ squares m g isize :=
  List.mem_iterate.mpr ⟨i, hi, rfl⟩

/-! ## Loops -/

section Loops

variable {R : Type _} [AddCommMonoid R] {k : Nat} (hk : k <= 31)

theorem addAutomorphism_of_mem {m : Nat} {evalKeys : List Nat} {g : Nat}
    (hg : g ∈ evalKeys) (v : ZMod m -> R) :
    addAutomorphism evalKeys v g = some (v + substitute (g : ZMod m) v) := by
  simp [addAutomorphism, evalAutomorphism, hg]

include hk

theorem evalSumLoop_spec {evalKeys : List Nat} {count i g : Nat} {h : ZMod (2 ^ k)}
    (v : ZMod (2 ^ k) -> R) (hg : (g : ZMod (2 ^ k)) = h ^ 2 ^ i)
    (hkeys : forall c, c < count -> (squareMod (2 ^ k))^[c] g ∈ evalKeys) :
    evalSumLoop evalKeys count g (orbitSum v h (2 ^ i)) =
      some (orbitSum v h (2 ^ (i + count)), (squareMod (2 ^ k))^[count] g) := by
  induction count generalizing i g with
  | zero =>
      rfl
  | succ count ih =>
      have hfirst : g ∈ evalKeys := hkeys 0 (Nat.succ_pos count)
      have hsquare : ((squareMod (2 ^ k) g : Nat) : ZMod (2 ^ k)) = h ^ 2 ^ (i + 1) := by
        rw [squareMod_eq hk, ZMod.natCast_mod, Nat.cast_pow, hg, ← pow_mul, ← pow_succ]
      have hrest : forall c, c < count ->
          (squareMod (2 ^ k))^[c] (squareMod (2 ^ k) g) ∈ evalKeys := by
        intro c hc
        rw [← Function.iterate_succ_apply]
        exact hkeys (c + 1) (by omega)
      simp only [evalSumLoop]
      rw [addAutomorphism_of_mem hfirst, hg, orbitSum_double, ← pow_succ']
      simp only
      rw [ih hsquare hrest, Function.iterate_succ_apply]
      congr 4
      omega

theorem evalSumLoop_squares {count isize g : Nat} {h : ZMod (2 ^ k)} {evalKeys : List Nat}
    (v : ZMod (2 ^ k) -> R) (hg : (g : ZMod (2 ^ k)) = h)
    (hkeys : squares (2 ^ k) g isize ⊆ evalKeys) (hcount : count <= isize) :
    evalSumLoop evalKeys count g v =
      some (orbitSum v h (2 ^ count), (squareMod (2 ^ k))^[count] g) := by
  have hfirst : forall c, c < count -> (squareMod (2 ^ k))^[c] g ∈ evalKeys := by
    intro c hc
    exact hkeys (mem_squares (by omega))
  have hloop := evalSumLoop_spec hk (i := 0) (h := h) v (by rw [hg, pow_zero, pow_one]) hfirst
  rwa [pow_zero, orbitSum_one, Nat.zero_add] at hloop

end Loops

/-! ## Coverage of the 2n indices -/

theorem ceilLog2_two_pow (c : Nat) : ceilLog2 (2 ^ c) = c := Nat.clog_pow 2 c one_lt_two

theorem le_ceilLog2 {B c : Nat} (h : 2 ^ c <= B) : c <= ceilLog2 B := by
  rw [← ceilLog2_two_pow c]
  exact Nat.clog_mono_right 2 h

theorem multiEvalSumIndices_eq (batchSize m : Nat) :
    multiEvalSumIndices batchSize m = generateIndices2n batchSize m := by
  unfold multiEvalSumIndices generateIndices2n
  dsimp only
  by_cases hwrap : usint (2 * batchSize : Nat) < m
  · rw [if_pos hwrap, if_pos hwrap]
  · rw [if_neg hwrap, if_neg hwrap]

theorem squares_subset {m g isize isize' : Nat} (h : isize <= isize') :
    squares m g isize ⊆ squares m g isize' := by
  intro x hx
  rcases List.mem_iterate.mp hx with ⟨i, hi, rfl⟩
  exact mem_squares (by omega)

theorem usint_double {k B : Nat} (hk : k <= 31) (hB : 2 * B <= 2 ^ k) :
    usint (2 * B : Nat) = 2 * B := by
  have hword : (2 : Nat) ^ k <= 2 ^ 31 := Nat.pow_le_pow_right (by decide) hk
  rw [usint_natCast, Nat.mod_eq_of_lt (by omega)]

theorem complex_subset_multi {B m : Nat} (hB : 2 * B < m) (hm : m < 2 ^ 32) :
    generateIndices2nComplex B m ⊆ multiEvalSumIndices B m := by
  intro x hx
  rcases List.mem_iterate.mp hx with ⟨i, hi, rfl⟩
  have hone : 1 < B := by
    by_contra hle
    have hzero : ceilLog2 B = 0 := Nat.clog_of_right_le_one (by omega) 2
    omega
  unfold multiEvalSumIndices
  rw [if_pos hone, usint_natCast, Nat.mod_eq_of_lt (by omega), if_pos hB]
  by_cases heq : i = ceilLog2 B - 1
  · subst heq
    simp
  · exact List.mem_append_left _ (mem_squares (by omega))

theorem squares_subset_generateIndices2n {m B c : Nat} (hc : 0 < c) (hcB : 2 ^ c <= B) :
    squares m 5 (c - 1) ⊆ generateIndices2n B m := by
  have hlog := le_ceilLog2 hcB
  have hone : 1 < B := lt_of_lt_of_le (Nat.one_lt_two_pow (by omega)) hcB
  unfold generateIndices2n
  rw [if_pos hone]
  intro x hx
  exact List.mem_append_left _ (squares_subset (by omega) hx)

section Coverage

variable {k B c : Nat} (hk : k <= 31) (hB : 2 * B <= 2 ^ k) (hc : 0 < c) (hcB : 2 ^ c <= B)

include hk hB hc hcB

/-- The index of the last step of a sum over `2 ^ c` slots. -/
theorem last_mem_generateIndices2n :
    (if 2 * 2 ^ c < 2 ^ k then (squareMod (2 ^ k))^[c - 1] 5 else 2 ^ k - 1) ∈
      generateIndices2n B (2 ^ k) := by
  have hlog := le_ceilLog2 hcB
  have hone : 1 < B := lt_of_lt_of_le (Nat.one_lt_two_pow (by omega)) hcB
  unfold generateIndices2n
  rw [if_pos hone, usint_double hk hB]
  dsimp only
  by_cases hlast : 2 * 2 ^ c < 2 ^ k
  · rw [if_pos hlast]
    by_cases heq : c = ceilLog2 B
    · -- the same exponent: the doubled batch size of the keys is below the order too
      have hBle : B <= 2 ^ c := by
        rw [heq]
        exact Nat.le_pow_clog one_lt_two B
      rw [if_pos (by omega), heq]
      simp
    · apply List.mem_append_left
      exact mem_squares (by omega)
  · rw [if_neg hlast, if_neg (by omega)]
    simp

end Coverage

/-! ## Sums over the slots -/

section Sums

variable {R : Type _} [AddCommMonoid R] {k : Nat} (hk : k <= 31)

theorem natCast_two_pow_sub_one : ((2 ^ k - 1 : Nat) : ZMod (2 ^ k)) = -1 := by
  rw [Nat.cast_sub Nat.one_le_two_pow, ZMod.natCast_self, Nat.cast_one, zero_sub]

include hk

theorem evalSum2n_eq {B c : Nat} (hB : 2 * B <= 2 ^ k) (hcB : 2 ^ c <= B)
    (v : ZMod (2 ^ k) -> R) :
    evalSum2n (generateIndices2n B (2 ^ k)) (2 ^ c) v =
      some (if c = 0 ∨ 2 * 2 ^ c < 2 ^ k then orbitSum v 5 (2 ^ c)
        else orbitSum v 5 (2 ^ (c - 1)) + substitute (-1) (orbitSum v 5 (2 ^ (c - 1)))) := by
  unfold evalSum2n
  cases Nat.eq_zero_or_pos c with
  | inl hzero =>
      subst hzero
      simp [orbitSum_one]
  | inr hpos =>
      have hone : 1 < 2 ^ c := Nat.one_lt_two_pow (by omega)
      have hlast := last_mem_generateIndices2n hk hB hpos hcB
      have hloop := evalSumLoop_squares hk (h := 5) v (by simp)
        (squares_subset_generateIndices2n hpos hcB) (le_refl (c - 1))
      rw [if_pos hone, ceilLog2_two_pow, hloop, usint_double hk (by omega)]
      simp only
      by_cases hrow : 2 * 2 ^ c < 2 ^ k
      · rw [if_pos hrow] at hlast
        rw [if_pos hrow, addAutomorphism_of_mem hlast, squareMod_iterate_cast hk,
          if_pos (Or.inr hrow), Nat.cast_ofNat, orbitSum_double, ← pow_succ',
          Nat.sub_add_cancel hpos]
      · rw [if_neg hrow] at hlast
        rw [if_neg hrow, addAutomorphism_of_mem hlast, natCast_two_pow_sub_one,
          if_neg (not_or.mpr ⟨by omega, hrow⟩)]

theorem evalSum2nComplex_eq {B c : Nat} {evalKeys : List Nat} (hcB : 2 ^ c <= B)
    (hkeys : generateIndices2nComplex B (2 ^ k) ⊆ evalKeys) (v : ZMod (2 ^ k) -> R) :
    evalSum2nComplex evalKeys (2 ^ c) v = some (orbitSum v 5 (2 ^ c)) := by
  unfold evalSum2nComplex
  rw [ceilLog2_two_pow, evalSumLoop_squares hk (h := 5) v (by simp) hkeys (le_ceilLog2 hcB)]
  rfl

theorem colSize_eq {rowSize : Nat} (hrow : 4 * rowSize <= 2 ^ k) :
    colSize rowSize (2 ^ k) = 2 ^ k / (4 * rowSize) := by
  have hword : (2 : Nat) ^ k <= 2 ^ 31 := Nat.pow_le_pow_right (by decide) hk
  unfold colSize
  rw [usint_natCast, Nat.mod_eq_of_lt (by omega)]

theorem evalSum2nComplexRows_eq {rowSize : Nat} (hpos : 0 < rowSize)
    (hrow : 4 * rowSize <= 2 ^ k) (v : ZMod (2 ^ k) -> R) :
    exists evalKeys, generateIndices2nComplexRows rowSize (2 ^ k) = some evalKeys ∧
      evalSum2nComplexRows evalKeys rowSize v =
        some (orbitSum v (5 ^ rowSize) (2 ^ ceilLog2 (2 ^ k / (4 * rowSize)))) := by
  have hword : (2 : Nat) ^ k <= 2 ^ 31 := Nat.pow_le_pow_right (by decide) hk
  have hcol : 2 ^ k / (4 * rowSize) ≠ 0 := (Nat.div_pos hrow (by omega)).ne'
  rcases modExp_spec (b := rowSize) (m := 2 ^ k) (by omega) (by simp only [maxBits]; omega)
    (show 5 < 2 ^ maxBits by decide) (by simp only [maxBits]; omega) with
    ⟨g, hg, -, hpower⟩
  unfold generateIndices2nComplexRows
  rw [colSize_eq hk hrow, if_neg hcol, hg]
  refine ⟨_, rfl, ?_⟩
  unfold evalSum2nComplexRows
  rw [colSize_eq hk hrow, if_neg hcol, hg]
  simp only
  rw [evalSumLoop_squares hk (h := 5 ^ rowSize) v (by simpa using hpower)
    (List.Subset.refl _) le_rfl]
  rfl

theorem evalSum2nComplexCols_eq {B c : Nat} (hk1 : 0 < k) (hcB : 2 ^ c <= B)
    (v : ZMod (2 ^ k) -> R) :
    exists (evalKeys : List Nat) (h : ZMod (2 ^ k)),
      evalSumColsIndices B (2 ^ k) = some evalKeys ∧ 5 * h = 1 ∧
        evalSum2nComplexCols evalKeys (2 ^ c) v = some (orbitSum v h (2 ^ c)) := by
  have hword : (2 : Nat) ^ k <= 2 ^ 31 := Nat.pow_le_pow_right (by decide) hk
  have hgcd : Nat.gcd 5 (2 ^ k) = 1 := Nat.Coprime.pow_right k (by decide)
  rcases modInverse_spec (Nat.one_lt_two_pow hk1.ne') (by omega) hgcd with
    ⟨g, hg, -, hinverse⟩
  have hcast : (5 : ZMod (2 ^ k)) * (g : ZMod (2 ^ k)) = 1 := by
    have hmod := congrArg (fun x : Nat => (x : ZMod (2 ^ k))) hinverse
    simpa [ZMod.natCast_mod] using hmod
  unfold evalSumColsIndices generateIndices2nComplexCols evalSum2nComplexCols
  rw [hg]
  refine ⟨_, (g : ZMod (2 ^ k)), rfl, hcast, ?_⟩
  simp only
  rw [ceilLog2_two_pow, evalSumLoop_squares hk (h := (g : ZMod (2 ^ k))) v rfl
    (List.subset_append_left _ _) (le_ceilLog2 hcB)]
  rfl

end Sums

/-! ## Slots of the sums -/

section Slots

variable {R : Type _} [AddCommMonoid R] {m : Nat}

theorem slot_orbitSum (v : ZMod m -> R) (second : Bool) (rowSize n i : Nat) :
    slot (orbitSum v (5 ^ rowSize) n) second i =
      ∑ j ∈ range n, slot v second (i + j * rowSize) := by
  unfold slot orbitSum
  apply sum_congr rfl
  intro j hj
  rw [mul_assoc, ← pow_mul, ← pow_add, mul_comm rowSize]

theorem slot_orbitSum_inverse (v : ZMod m -> R) (second : Bool) {h : ZMod m}
    (hinverse : 5 * h = 1) (n i : Nat) :
    slot (orbitSum v h (n + 1)) second (i + n) =
      ∑ j ∈ range (n + 1), slot v second (i + j) := by
  rw [← sum_range_reflect]
  unfold slot orbitSum
  apply sum_congr rfl
  intro j hj
  have hjn : j <= n := by
    have hlt := mem_range.mp hj
    omega
  have hsplit : i + n = i + (n + 1 - 1 - j) + j := by omega
  rw [hsplit, pow_add (5 : ZMod m) _ j, mul_assoc, mul_assoc, ← mul_pow, hinverse, one_pow,
    mul_one]

end Slots

theorem five_pow_half {d : Nat} : (5 : ZMod (2 ^ (d + 2))) ^ 2 ^ d = 1 := by
  rw [← ZMod.orderOf_five d, pow_orderOf_eq_one]

theorem slot_add_period {R : Type _} {d : Nat} (v : ZMod (2 ^ (d + 2)) -> R) (second : Bool)
    (i t : Nat) : slot v second (i + 2 ^ d * t) = slot v second i := by
  unfold slot
  rw [pow_add (5 : ZMod (2 ^ (d + 2))), pow_mul (5 : ZMod (2 ^ (d + 2))), five_pow_half,
    one_pow, mul_one]

section Packed

variable {R : Type _} [AddCommMonoid R] {d : Nat}

theorem sum_packedSlot (v : ZMod (2 ^ (d + 2)) -> R) (i : Nat) :
    ∑ j ∈ range (2 ^ (d + 1)), packedSlot (2 ^ (d + 1)) v (i + j) =
      ∑ j ∈ range (2 ^ d), slot v false j + ∑ j ∈ range (2 ^ d), slot v true j := by
  have hpos := Nat.two_pow_pos d
  have hhalf : 2 ^ (d + 1) / 2 = 2 ^ d := by
    rw [pow_succ, Nat.mul_div_cancel _ (by decide)]
  have hsum : 2 ^ (d + 1) = 2 ^ d + 2 ^ d := by
    rw [pow_succ]
    omega
  rw [sum_range_of_periodic (f := packedSlot (2 ^ (d + 1)) v) (by simp [packedSlot])]
  rw [show range (2 ^ (d + 1)) = range (2 ^ d + 2 ^ d) by rw [hsum], sum_range_add]
  congr 1
  · apply sum_congr rfl
    intro j hj
    have hlt := mem_range.mp hj
    unfold packedSlot
    rw [hhalf, Nat.mod_eq_of_lt (a := j) (by omega), Nat.mod_eq_of_lt hlt,
      decide_eq_false (by omega)]
  · apply sum_congr rfl
    intro j hj
    have hlt := mem_range.mp hj
    unfold packedSlot
    rw [hhalf, Nat.mod_eq_of_lt (a := 2 ^ d + j) (by omega), Nat.add_mod_left,
      Nat.mod_eq_of_lt hlt, decide_eq_true (by omega)]

theorem orbitSum_row (v : ZMod (2 ^ (d + 2)) -> R) (second : Bool) (i : Nat) :
    orbitSum v 5 (2 ^ d) ((if second then -1 else 1) * 5 ^ i) =
      ∑ j ∈ range (2 ^ d), slot v second j := by
  rw [orbitSum_mul_of_pow_eq_one v five_pow_half]
  rfl

theorem packedSlot_both_rows (v : ZMod (2 ^ (d + 2)) -> R) (i : Nat) :
    packedSlot (2 ^ (d + 1)) (orbitSum v 5 (2 ^ d) + substitute (-1) (orbitSum v 5 (2 ^ d)))
        i =
      ∑ j ∈ range (2 ^ (d + 1)), packedSlot (2 ^ (d + 1)) v (i + j) := by
  rw [sum_packedSlot]
  unfold packedSlot
  generalize decide (2 ^ (d + 1) / 2 <= i % 2 ^ (d + 1)) = second
  generalize i % 2 ^ (d + 1) % (2 ^ (d + 1) / 2) = x
  have hreflect : (if second then -1 else 1) * 5 ^ x * (-1 : ZMod (2 ^ (d + 2))) =
      (if !second then -1 else 1) * 5 ^ x := by
    cases second <;> simp
  simp only [slot, Pi.add_apply, substitute]
  rw [hreflect, orbitSum_row, orbitSum_row]
  cases second with
  | false =>
      rfl
  | true =>
      exact add_comm _ _

end Packed

section Columns

variable {R : Type _} [CommRing R] {d : Nat}

theorem inverse_eq_pow {h : ZMod (2 ^ (d + 2))} (hinverse : 5 * h = 1) :
    h = 5 ^ (2 ^ d - 1) := by
  have hpos := Nat.two_pow_pos d
  calc
    h = 5 ^ (2 ^ d - 1 + 1) * h := by
      rw [Nat.sub_add_cancel hpos, five_pow_half, one_mul]
    _ = 5 ^ (2 ^ d - 1) := by
      rw [pow_succ (5 : ZMod (2 ^ (d + 2))), mul_assoc, hinverse, mul_one]

theorem mask_index_iff {b u i j : Nat} (hb : 0 < b) (hu : 0 < u) (hj : j < b) :
    (i + (b * u - 1) * j) % b = 0 <-> j = i % b := by
  have hpos : 0 < b * u := Nat.mul_pos hb hu
  have hback : i + (b * u - 1) * j + j = i + b * (u * j) := by
    rw [Nat.sub_mul, one_mul, ← mul_assoc]
    have hle : j <= b * u * j := Nat.le_mul_of_pos_left j hpos
    omega
  have hmod : (i + (b * u - 1) * j + j) % b = i % b := by
    rw [hback, Nat.add_mul_mod_self_left]
  constructor
  · intro hzero
    rw [Nat.add_mod, hzero, Nat.zero_add, Nat.mod_mod, Nat.mod_eq_of_lt hj] at hmod
    exact hmod
  · rintro rfl
    have hdvd : (i + (b * u - 1) * (i % b) + i % b) % b = (0 + i % b) % b := by
      rw [hmod, Nat.zero_add, Nat.mod_mod]
    exact Nat.ModEq.add_right_cancel' (i % b) hdvd

theorem evalSumCols_slot {B c s : Nat} (hd : d + 2 <= 31) (hcB : 2 ^ c <= B) (hcs : c <= s)
    (hsd : s <= d) {mask : ZMod (2 ^ (d + 2)) -> R}
    (hmask : forall i, slot mask false i = if i % 2 ^ s % 2 ^ c = 0 then 1 else 0)
    (v : ZMod (2 ^ (d + 2)) -> R) :
    exists evalSumColsKeys w, evalSumColsIndices B (2 ^ (d + 2)) = some evalSumColsKeys ∧
      evalSumCols (generateIndices2nComplex B (2 ^ (d + 2))) evalSumColsKeys (2 ^ c) mask v =
        some w ∧
      forall i, slot w false i =
        ∑ t ∈ range (2 ^ c), slot v false (2 ^ c * (i / 2 ^ c) + t) := by
  rcases evalSum2nComplexCols_eq hd (Nat.succ_pos _) hcB (orbitSum v 5 (2 ^ c) * mask) with
    ⟨evalSumColsKeys, h, hkeys, hinverse, hcols⟩
  refine ⟨evalSumColsKeys, orbitSum (orbitSum v 5 (2 ^ c) * mask) h (2 ^ c), hkeys, ?_,
    fun i => ?_⟩
  · unfold evalSumCols
    rw [evalSum2nComplex_eq hd hcB (List.Subset.refl _), Option.bind_some]
    exact hcols
  · have hb := Nat.two_pow_pos c
    have hperiod : 2 ^ d = 2 ^ c * 2 ^ (d - c) := by
      rw [← pow_add, Nat.add_sub_cancel' (by omega)]
    have hterm (j : Nat) : (orbitSum v 5 (2 ^ c) * mask) (1 * 5 ^ i * h ^ j) =
        slot (orbitSum v 5 (2 ^ c)) false (i + (2 ^ d - 1) * j) *
          slot mask false (i + (2 ^ d - 1) * j) := by
      rw [inverse_eq_pow hinverse, ← pow_mul, one_mul, ← pow_add]
      simp [slot]
    have hread (j : Nat) (hj : j < 2 ^ c) :
        slot mask false (i + (2 ^ d - 1) * j) = if j = i % 2 ^ c then 1 else 0 := by
      rw [hmask, Nat.mod_mod_of_dvd _ (pow_dvd_pow 2 hcs), hperiod,
        if_congr (mask_index_iff hb (Nat.two_pow_pos _) hj) rfl rfl]
    have hindex : i + (2 ^ d - 1) * (i % 2 ^ c) =
        2 ^ c * (i / 2 ^ c) + 2 ^ d * (i % 2 ^ c) := by
      have hdiv := Nat.div_add_mod i (2 ^ c)
      have hle : i % 2 ^ c <= 2 ^ d * (i % 2 ^ c) :=
        Nat.le_mul_of_pos_left _ (Nat.two_pow_pos d)
      rw [Nat.sub_mul, one_mul]
      omega
    calc
      slot (orbitSum (orbitSum v 5 (2 ^ c) * mask) h (2 ^ c)) false i =
          ∑ j ∈ range (2 ^ c), (orbitSum v 5 (2 ^ c) * mask) (1 * 5 ^ i * h ^ j) := rfl
      _ = ∑ j ∈ range (2 ^ c), if j = i % 2 ^ c then
            slot (orbitSum v 5 (2 ^ c)) false (i + (2 ^ d - 1) * j) else 0 := by
        apply sum_congr rfl
        intro j hj
        rw [hterm, hread j (mem_range.mp hj), mul_ite, mul_one, mul_zero]
      _ = slot (orbitSum v 5 (2 ^ c)) false (2 ^ c * (i / 2 ^ c)) := by
        rw [sum_ite_eq' (range (2 ^ c)), if_pos (mem_range.mpr (Nat.mod_lt i hb)), hindex,
          slot_add_period]
      _ = ∑ t ∈ range (2 ^ c), slot v false (2 ^ c * (i / 2 ^ c) + t) := by
        have hsum := slot_orbitSum v false 1 (2 ^ c) (2 ^ c * (i / 2 ^ c))
        simpa using hsum

end Columns

/--
Every sum finds its keys, those of one party and those of joint keys, and adds
the slots it should: `2 ^ c` consecutive slots of a row, or all `n` slots, the
slots of a column, and the slots of a row for the columns.
-/
theorem evalSum_exact {R : Type _} [CommRing R] {k B c : Nat} (hk : 0 < k) (hk31 : k <= 31)
    (hcB : 2 ^ c <= B) (v : ZMod (2 ^ k) -> R) :
    (2 * B <= 2 ^ k -> exists w,
      evalSum2n (generateIndices2n B (2 ^ k)) (2 ^ c) v = some w ∧
        evalSum2n (multiEvalSumIndices B (2 ^ k)) (2 ^ c) v = some w ∧
        (2 * 2 ^ c < 2 ^ k -> forall second i,
          slot w second i = ∑ j ∈ range (2 ^ c), slot v second (i + j)) ∧
        (2 * 2 ^ c = 2 ^ k -> forall i, packedSlot (2 ^ (k - 1)) w i =
          ∑ j ∈ range (2 ^ c), packedSlot (2 ^ (k - 1)) v (i + j))) ∧
      (4 * B <= 2 ^ k -> exists w,
        evalSum2nComplex (generateIndices2nComplex B (2 ^ k)) (2 ^ c) v = some w ∧
          evalSum2nComplex (multiEvalSumIndices B (2 ^ k)) (2 ^ c) v = some w ∧
          forall second i, slot w second i = ∑ j ∈ range (2 ^ c), slot v second (i + j)) ∧
      (forall rowSize, 0 < rowSize -> 4 * rowSize <= 2 ^ k -> exists evalKeys w,
        generateIndices2nComplexRows rowSize (2 ^ k) = some evalKeys ∧
          evalSum2nComplexRows evalKeys rowSize v = some w ∧
          forall second i, slot w second i =
            ∑ j ∈ range (2 ^ ceilLog2 (2 ^ k / (4 * rowSize))), slot v second (i + j * rowSize)) ∧
      (exists evalKeys w, evalSumColsIndices B (2 ^ k) = some evalKeys ∧
        evalSum2nComplexCols evalKeys (2 ^ c) v = some w ∧
        forall second i, slot w second (i + (2 ^ c - 1)) =
          ∑ j ∈ range (2 ^ c), slot v second (i + j)) ∧
      (forall s mask, c <= s -> 4 * 2 ^ s <= 2 ^ k ->
        (forall i, slot mask false i = if i % 2 ^ s % 2 ^ c = 0 then 1 else 0) ->
        exists evalSumColsKeys w, evalSumColsIndices B (2 ^ k) = some evalSumColsKeys ∧
          evalSumCols (generateIndices2nComplex B (2 ^ k)) evalSumColsKeys (2 ^ c) mask v =
            some w ∧
          forall i, slot w false i =
            ∑ t ∈ range (2 ^ c), slot v false (2 ^ c * (i / 2 ^ c) + t)) := by
  have hrowSum (second : Bool) (i : Nat) :
      slot (orbitSum v 5 (2 ^ c)) second i = ∑ j ∈ range (2 ^ c), slot v second (i + j) := by
    simpa using slot_orbitSum v second 1 (2 ^ c) i
  refine ⟨fun hB => ?_, fun hB => ?_, fun rowSize hpos hrow => ?_, ?_, ?_⟩
  · have hsum := evalSum2n_eq hk31 hB hcB v
    refine ⟨_, hsum, by rw [multiEvalSumIndices_eq, hsum], fun hlt second i => ?_,
      fun heq i => ?_⟩
    · rw [if_pos (Or.inr hlt)]
      exact hrowSum second i
    · have hck : c + 1 = k := by
        apply Nat.pow_right_injective le_rfl
        simpa [pow_succ, mul_comm] using heq
      subst hck
      cases c with
      | zero =>
          simp [orbitSum_one]
      | succ d =>
          rw [if_neg (by omega)]
          exact packedSlot_both_rows v i
  · have hpos := Nat.two_pow_pos c
    have hword : (2 : Nat) ^ k <= 2 ^ 31 := Nat.pow_le_pow_right (by decide) hk31
    refine ⟨_, evalSum2nComplex_eq hk31 hcB (List.Subset.refl _) v, ?_, hrowSum⟩
    exact evalSum2nComplex_eq hk31 hcB (complex_subset_multi (by omega) (by omega)) v
  · rcases evalSum2nComplexRows_eq hk31 hpos hrow v with ⟨evalKeys, hkeys, hsum⟩
    exact ⟨evalKeys, _, hkeys, hsum, fun second i => slot_orbitSum v second rowSize _ i⟩
  · rcases evalSum2nComplexCols_eq hk31 hk hcB v with ⟨evalKeys, h, hkeys, hinverse, hsum⟩
    refine ⟨evalKeys, _, hkeys, hsum, fun second i => ?_⟩
    have hslots := slot_orbitSum_inverse v second hinverse (2 ^ c - 1) i
    rwa [Nat.sub_add_cancel (Nat.two_pow_pos c)] at hslots
  · intro s mask hcs hsk hmask
    have hsk' : s + 2 <= k := by
      apply (Nat.pow_le_pow_iff_right (a := 2) (by decide)).mp
      rw [pow_add]
      omega
    have hsplit : exists d, k = d + 2 := ⟨k - 2, by omega⟩
    rcases hsplit with ⟨d, rfl⟩
    exact evalSumCols_slot hk31 hcB hcs (by omega) hmask v

/-- Order 16 with a batch of four: sums of two slots. -/
theorem evalSum_exact_sixteen : exists w : ZMod (2 ^ 4) -> Int,
    evalSum2n (generateIndices2n 4 (2 ^ 4)) (2 ^ 1) (fun e => (e.val : Int)) = some w ∧
      evalSum2n (multiEvalSumIndices 4 (2 ^ 4)) (2 ^ 1) (fun e => (e.val : Int)) = some w ∧
      (2 * 2 ^ 1 < 2 ^ 4 -> forall second i, slot w second i =
        ∑ j ∈ range (2 ^ 1), slot (fun e : ZMod (2 ^ 4) => (e.val : Int)) second (i + j)) ∧
      (2 * 2 ^ 1 = 2 ^ 4 -> forall i, packedSlot (2 ^ 3) w i =
        ∑ j ∈ range (2 ^ 1),
          packedSlot (2 ^ 3) (fun e : ZMod (2 ^ 4) => (e.val : Int)) (i + j)) :=
  (evalSum_exact (k := 4) (B := 4) (c := 1) (by decide) (by decide) (by decide) _).1
    (by decide)

end EvalSum
end Scheme
end OpenFHE
