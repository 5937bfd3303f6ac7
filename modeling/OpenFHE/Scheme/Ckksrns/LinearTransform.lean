import OpenFHE.Foundation.Blocks
import OpenFHE.Foundation.Loop
import OpenFHE.KeySwitch.Gadget
import OpenFHE.Scheme.Ckksrns.Rotation
import Mathlib.Data.Matrix.Mul

/-!
# Linear transforms by baby steps and giant steps

`EvalLinearTransformPrecompute` stores the diagonals of a matrix, each rotated back
by its giant step.  `EvalLinearTransform` multiplies them with hoisted rotations of
the ciphertext and rotates the inner sums forward, their first elements apart from
the rest.  Slots are exact here: a ciphertext is the pair of what its first element
and its second element contribute to the slots.
-/

namespace OpenFHE
namespace Scheme
namespace Ckksrns

open OpenFHE.Core Foundation NativeInteger KeySwitch Finset

/-- `std::ceil(std::sqrt(x))`. -/
def ceilSqrt (x : Nat) : Nat := if x = 0 then 0 else Nat.sqrt (x - 1) + 1

/-- The baby step: the stored one, or the automatic one when zero is stored. -/
def babyStep (g slots : Nat) : Nat := if g = 0 then ceilSqrt slots else g

/-- `FindLinearTransformRotationIndices` for the stored baby step `g`. -/
def findLinearTransformRotationIndices (g slots M : Nat) : Option (List Nat) :=
  let g := babyStep g slots
  let h := ceilDiv slots g
  let indexListSz := int32 (int32 g + h + M - 2)
  if indexListSz < 0 then none
  else
    let babies := List.range' 1 g
    let giants := (List.range' 2 (h - 2)).map fun i => usint (i * g : Nat)
    let m := usint (slots * 4 : Nat)
    let sparse :=
      if m ≠ M then
        (List.iterate (2 * ·) 1 (Nat.clog 2 (M / m))).map fun j => usint (j * slots : Nat)
      else []
    some (babies ++ giants ++ sparse)

section Precompute

variable {R : Type _} [CommRing R]

def extractShiftedDiagonal (A : List (List R)) (index : Nat) : Option (List R) := do
  let rows := A.length
  let first <- A[0]?
  let cols := first.length
  (List.range cols).mapM fun k => do
    let row <- A[k % rows]?
    row[(k + index) % cols]?

/-- `EvalLinearTransformPrecompute`, the values of its plaintexts. -/
def evalLinearTransformPrecompute (A : List (List R)) (g : Nat) (scale : R) :
    Option (List (List R)) := do
  let slots := A.length
  let first <- A[0]?
  if slots ≠ first.length then none
  let step : Int := if g = 0 then ceilSqrt slots else int32 g
  (List.range slots).mapM fun ji => do
    let diag <- extractShiftedDiagonal A ji
    return rotate (diag.map (· * scale)) (-step * Int.tdiv ji step)

end Precompute

section Evaluation

variable {R : Type _} [CommRing R] {n : Nat}

/-- What the two elements of a ciphertext contribute to its slots. -/
structure SlotCiphertext (R : Type _) (n : Nat) where
  first : ZMod n -> R
  second : ZMod n -> R

namespace SlotCiphertext

def value (c : SlotCiphertext R n) : ZMod n -> R := c.first + c.second

/-- `EvalMultExt` with a plaintext. -/
def evalMultExt (c : SlotCiphertext R n) (plaintext : List R) : SlotCiphertext R n where
  first := c.first * ofList plaintext
  second := c.second * ofList plaintext

/-- `EvalAddExtInPlace`. -/
def evalAddExt (c c' : SlotCiphertext R n) : SlotCiphertext R n where
  first := c.first + c'.first
  second := c.second + c'.second

/--
`EvalFastRotationExt`, which throws without the key of its index.  An exact key
switching may move any `mask` from the second element to the first.
-/
def evalFastRotationExt (mask : Nat -> (ZMod n -> R) -> ZMod n -> R) (evalKeys : List Nat)
    (c : SlotCiphertext R n) (index : Nat) (addFirst : Bool) : Option (SlotCiphertext R n) :=
  if index ∈ evalKeys then
    some
      { first := (if addFirst then rotateSlots (index : ZMod n) c.first else 0) +
          mask index c.second
        second := rotateSlots (index : ZMod n) c.second - mask index c.second }
  else none

end SlotCiphertext

open SlotCiphertext

/-- The baby steps behind the first one whose diagonals exist for giant step `j`. -/
def babySteps (slots bStep j : Nat) : List Nat :=
  (List.range' 1 (bStep - 1)).filter fun i => usint (bStep * j + i : Nat) < slots

/-- The diagonals that the loops read, in their order. -/
def usedDiagonals (slots bStep : Nat) : List Nat :=
  (List.range (ceilDiv slots bStep)).flatMap fun j =>
    bStep * j :: (babySteps slots bStep j).map fun i => bStep * j + i

def innerSum (A : List (List R)) (bStep : Nat) (ct : SlotCiphertext R n)
    (fastRotation : List (SlotCiphertext R n)) (j : Nat) : Option (SlotCiphertext R n) := do
  let diagonal <- A[bStep * j]?
  (babySteps A.length bStep j).foldlM (fun inner i => do
    let rotated <- fastRotation[i - 1]?
    let diagonal <- A[bStep * j + i]?
    return evalAddExt inner (evalMultExt rotated diagonal)) (evalMultExt ct diagonal)

/-- One giant step on the result and on the first elements kept apart. -/
def giantStep (mask : Nat -> (ZMod n -> R) -> ZMod n -> R) (evalKeys : List Nat)
    (bStep j : Nat) (inner : SlotCiphertext R n)
    (s : SlotCiphertext R n × (ZMod n -> R)) :
    Option (SlotCiphertext R n × (ZMod n -> R)) :=
  if j = 0 then some ({ inner with first := 0 }, inner.first)
  else do
    let first := s.2 + rotateSlots ((bStep * j : Nat) : ZMod n) inner.first
    let rotated <- evalFastRotationExt mask evalKeys inner (bStep * j) false
    return (evalAddExt s.1 rotated, first)

/-- `EvalLinearTransform` on the diagonals `A`. -/
def evalLinearTransform (mask : Nat -> (ZMod n -> R) -> ZMod n -> R) (evalKeys : List Nat)
    (g : Nat) (A : List (List R)) (ct : SlotCiphertext R n) : Option (SlotCiphertext R n) := do
  let slots := A.length
  let bStep := babyStep g slots
  let gStep := ceilDiv slots bStep
  let fastRotation <- (List.range (bStep - 1)).mapM fun j =>
    evalFastRotationExt mask evalKeys ct (j + 1) true
  let (result, first) <- (List.range gStep).foldlM (fun s j => do
    let inner <- innerSum A bStep ct fastRotation j
    giantStep mask evalKeys bStep j inner s) ({ first := 0, second := 0 }, 0)
  return { result with first := result.first + first }

def matrixOfRows (A : List (List R)) : Matrix (ZMod n) (ZMod n) R :=
  Matrix.of fun r => ofList ((A[r.val]?).getD [])

end Evaluation

/-! ## Steps and diagonals -/

theorem ceilSqrt_pos {x : Nat} (hx : 0 < x) : 0 < ceilSqrt x := by
  unfold ceilSqrt
  rw [if_neg hx.ne']
  exact Nat.succ_pos _

theorem ceilSqrt_le {x : Nat} (hx : 0 < x) : ceilSqrt x <= x := by
  unfold ceilSqrt
  rw [if_neg hx.ne']
  have hle := Nat.sqrt_le_self (x - 1)
  omega

theorem babyStep_pos {g n : Nat} (hn : 0 < n) : 0 < babyStep g n := by
  unfold babyStep
  split
  · exact ceilSqrt_pos hn
  · omega

theorem babyStep_add_le {g n : Nat} (hn : 0 < n) (hn31 : n < 2 ^ 31) (hg : g + n <= 2 ^ 32) :
    babyStep g n + n <= 2 ^ 32 := by
  have hle := ceilSqrt_le hn
  unfold babyStep
  split <;> omega

section Steps

variable {b n : Nat} (hb : 0 < b) (hbn : b + n <= 2 ^ 32)

include hb

theorem giant_lt {j : Nat} (hj : j < ceilDiv n b) : b * j < n := by
  have hbounds := ceilDiv_bounds (a := n) hb
  have hmul : (j + 1) * b <= ceilDiv n b * b := Nat.mul_le_mul_right b hj
  rw [Nat.add_mul, one_mul, Nat.mul_comm j b] at hmul
  omega

theorem min_giants : min (b * ceilDiv n b) n = n := by
  have hbounds := ceilDiv_bounds (a := n) hb
  rw [Nat.mul_comm]
  omega

include hbn

theorem babySteps_eq {j : Nat} (hj : j < ceilDiv n b) :
    babySteps n b j = List.range' 1 (blockLength b n j - 1) := by
  have hgiant := giant_lt hb hj
  have hroom : b * j + b <= 2 ^ 32 := by
    cases j with
    | zero => omega
    | succ j =>
        have hfirst : b * 1 <= b * (j + 1) := Nat.mul_le_mul_left b (by omega)
        omega
  have hsplit : List.range' 1 (b - 1) =
      List.range' 1 (blockLength b n j - 1) ++
        List.range' (1 + (blockLength b n j - 1)) (b - blockLength b n j) := by
    rw [List.range'_append_1]
    congr 1
    unfold blockLength
    omega
  have hwrap {i : Nat} (hi : i < b) : usint ((b * j + i : Nat) : Int) = b * j + i := by
    unfold usint
    omega
  have hlen : blockLength b n j <= b := Nat.min_le_left _ _
  have hpos := (blockLength_pos_iff (n := n) (j := j) hb).mpr hgiant
  unfold babySteps
  rw [hsplit, List.filter_append, List.filter_eq_self.mpr, List.filter_eq_nil_iff.mpr,
    List.append_nil]
  · intro i hi
    rw [List.mem_range'_1] at hi
    rw [hwrap (by omega), decide_eq_true_eq]
    unfold blockLength at hi
    omega
  · intro i hi
    rw [List.mem_range'_1] at hi
    rw [hwrap (by omega), decide_eq_true_eq]
    unfold blockLength at hi
    omega

theorem usedDiagonals_eq : usedDiagonals n b = List.range n := by
  have hblocks := flatMap_blocks b n (ceilDiv n b)
  rw [min_giants hb] at hblocks
  rw [← hblocks]
  unfold usedDiagonals
  apply List.flatMap_congr
  intro j hj
  have hj' := List.mem_range.mp hj
  have hpos := (blockLength_pos_iff (n := n) (j := j) hb).mpr (giant_lt hb hj')
  rw [babySteps_eq hb hbn hj', List.map_add_range', ← List.range'_succ,
    Nat.sub_add_cancel hpos]

end Steps

/-! ## Precomputation -/

theorem exists_row {R : Type _} {n : Nat} {A : List (List R)} (hA : A.length = n)
    (hrows : forall row, row ∈ A -> row.length = n) {r : Nat} (hr : r < n) :
    exists row, A[r]? = some row ∧ row.length = n := by
  have hr' : r < A.length := by omega
  exact ⟨A[r], List.getElem?_eq_getElem hr', hrows _ (List.getElem_mem hr')⟩

theorem giant_rotation {n g d : Nat} (hg : g + n <= 2 ^ 32) (hn31 : n < 2 ^ 31) (hd : d < n) :
    -(if g = 0 then (ceilSqrt n : Int) else int32 g) *
        Int.tdiv d (if g = 0 then (ceilSqrt n : Int) else int32 g) =
      -((babyStep g n * (d / babyStep g n) : Nat) : Int) := by
  have hnat (b : Nat) : -(b : Int) * Int.tdiv d b = -((b * (d / b) : Nat) : Int) := by
    rw [Int.tdiv_eq_ediv_of_nonneg (by omega)]
    push_cast
    rw [neg_mul]
  unfold babyStep
  by_cases hzero : g = 0
  · simp only [if_pos hzero]
    exact hnat _
  · simp only [if_neg hzero]
    by_cases hsmall : g < 2 ^ 31
    · have hint : int32 g = g := by
        unfold int32
        rw [Int.bmod_eq_of_le (by omega) (by omega)]
      rw [hint]
      exact hnat g
    · -- a step beyond the signed range: every diagonal belongs to the first giant step
      have hint : int32 g = g - 2 ^ 32 := by
        unfold int32
        rw [Int.bmod_def]
        omega
      have hneg : -(int32 g) = ((2 ^ 32 - g : Nat) : Int) := by
        rw [hint]
        omega
      have hquot : Int.tdiv d (int32 g) = 0 := by
        rw [← neg_neg (int32 g), hneg, Int.tdiv_neg, Int.tdiv_eq_ediv_of_nonneg (by omega),
          Int.ediv_eq_zero_of_lt (by omega) (by omega), neg_zero]
      rw [hquot, Nat.div_eq_of_lt (by omega)]
      simp

section PrecomputeSpec

variable {R : Type _} [CommRing R] {n : Nat} [NeZero n] {A : List (List R)}
  (hA : A.length = n) (hrows : forall row, row ∈ A -> row.length = n)

def diagonal (A : List (List R)) (d : Nat) : ZMod n -> R :=
  fun i => matrixOfRows A i (i + d)

include hA hrows

theorem extractShiftedDiagonal_spec (d : Nat) :
    exists diag, extractShiftedDiagonal A d = some diag ∧ diag.length = n ∧
      (ofList diag : ZMod n -> R) = diagonal A d := by
  have hn : 0 < n := Nat.pos_of_neZero n
  rcases exists_row hA hrows hn with ⟨first, hfirst, hcols⟩
  rcases mapM_range_spec (f := fun k => (A[k % n]?).bind fun row => row[(k + d) % n]?)
    (fun k y => y = (((A[k]?).getD [])[(k + d) % n]?).getD 0) (n := n) (by
      intro k hk
      rcases exists_row hA hrows hk with ⟨row, hrow, hlen⟩
      have hcol : (k + d) % n < row.length := by
        rw [hlen]
        exact Nat.mod_lt _ hn
      refine ⟨row[(k + d) % n], ?_, ?_⟩
      · rw [Nat.mod_eq_of_lt hk, hrow, Option.bind_some, List.getElem?_eq_getElem hcol]
      · simp [hrow, hcol]) with ⟨diag, hdiag, hlen, hentries⟩
  refine ⟨diag, ?_, hlen, ?_⟩
  · unfold extractShiftedDiagonal
    rw [hfirst, hA]
    simp only [Option.bind_eq_bind, Option.bind_some, hcols]
    exact hdiag
  · funext i
    have hi : i.val < diag.length := by
      rw [hlen]
      exact ZMod.val_lt i
    have hread := List.getElem?_eq_getElem hi
    unfold diagonal matrixOfRows ofList
    rw [hread, hentries i.val _ hread, Matrix.of_apply, ZMod.val_add, ZMod.val_natCast,
      Nat.add_mod_mod]
    rfl

theorem evalLinearTransformPrecompute_spec {g : Nat} (hg : g + n <= 2 ^ 32)
    (hn31 : n < 2 ^ 31) :
    exists D, evalLinearTransformPrecompute A g 1 = some D ∧ D.length = n ∧
      forall d plaintext, D[d]? = some plaintext ->
        (ofList plaintext : ZMod n -> R) =
          rotateSlots (-((babyStep g n * (d / babyStep g n) : Nat) : ZMod n)) (diagonal A d) := by
  rcases exists_row hA hrows (Nat.pos_of_neZero n) with ⟨first, hfirst, hcols⟩
  rcases mapM_range_spec (n := n) (f := fun ji => (extractShiftedDiagonal A ji).bind fun diag =>
      some (rotate (diag.map (· * (1 : R)))
        (-(if g = 0 then (ceilSqrt n : Int) else int32 g) *
          Int.tdiv ji (if g = 0 then (ceilSqrt n : Int) else int32 g))))
    (fun d plaintext => (ofList plaintext : ZMod n -> R) =
      rotateSlots (-((babyStep g n * (d / babyStep g n) : Nat) : ZMod n)) (diagonal A d)) (by
      intro d hd
      rcases extractShiftedDiagonal_spec hA hrows d with ⟨diag, hdiag, hlen, hslots⟩
      refine ⟨_, by rw [hdiag]; rfl, ?_⟩
      simp only [mul_one, List.map_id']
      rw [giant_rotation hg hn31 hd, ofList_rotate hlen hn31, hslots]
      rw [Int.cast_neg, Int.cast_natCast]) with ⟨D, hD, hlen, hentries⟩
  refine ⟨D, ?_, hlen, hentries⟩
  unfold evalLinearTransformPrecompute
  rw [hfirst, hA]
  simp only [Option.bind_eq_bind, Option.bind_some, hcols, ne_eq, not_true_eq_false, if_false]
  exact hD

end PrecomputeSpec

/-! ## Evaluation -/

section EvaluationSpec

variable {R : Type _} [CommRing R] {n : Nat}

namespace SlotCiphertext

theorem value_evalMultExt (c : SlotCiphertext R n) (plaintext : List R) :
    (evalMultExt c plaintext).value = c.value * ofList plaintext :=
  (add_mul _ _ _).symm

theorem value_evalAddExt (c c' : SlotCiphertext R n) :
    (evalAddExt c c').value = c.value + c'.value :=
  add_add_add_comm _ _ _ _

theorem evalFastRotationExt_spec (mask : Nat -> (ZMod n -> R) -> ZMod n -> R)
    {evalKeys : List Nat} {index : Nat} (hindex : index ∈ evalKeys) (c : SlotCiphertext R n)
    (addFirst : Bool) :
    exists c', evalFastRotationExt mask evalKeys c index addFirst = some c' ∧
      c'.value = rotateSlots (index : ZMod n) (if addFirst then c.value else c.second) := by
  refine ⟨_, if_pos hindex, ?_⟩
  cases addFirst with
  | true =>
      funext i
      simp only [value, if_true, Pi.add_apply, Pi.sub_apply, rotateSlots]
      ring
  | false =>
      funext i
      simp only [value, Bool.false_eq_true, if_false, Pi.add_apply, Pi.sub_apply, Pi.zero_apply,
        rotateSlots]
      ring

end SlotCiphertext

open SlotCiphertext

/-- What giant step `j` sums up when the plaintexts have the slots `P`. -/
def innerSlots (b : Nat) (P : Nat -> ZMod n -> R) (x : ZMod n -> R) (j : Nat) : ZMod n -> R :=
  ∑ i ∈ range (blockLength b n j), rotateSlots (i : ZMod n) x * P (b * j + i)

variable {b : Nat} (hb : 0 < b) (hbn : b + n <= 2 ^ 32) {D : List (List R)}
  (hD : D.length = n) {P : Nat -> ZMod n -> R}
  (hP : forall d plaintext, D[d]? = some plaintext -> ofList plaintext = P d)
  {ct : SlotCiphertext R n}

include hb hbn hD hP

theorem innerSum_spec {fastRotation : List (SlotCiphertext R n)}
    (hfast : forall i, i < b - 1 -> exists c, fastRotation[i]? = some c ∧
      c.value = rotateSlots ((i + 1 : Nat) : ZMod n) ct.value)
    {j : Nat} (hj : j < ceilDiv n b) :
    exists inner, innerSum D b ct fastRotation j = some inner ∧
      inner.value = innerSlots b P ct.value j := by
  have hgiant := giant_lt hb hj
  have hlen := (blockLength_pos_iff (n := n) (j := j) hb).mpr hgiant
  have hle : blockLength b n j <= b := Nat.min_le_left _ _
  have hread {d : Nat} (hd : d < n) : exists plaintext, D[d]? = some plaintext :=
    ⟨D[d], List.getElem?_eq_getElem (by omega)⟩
  rcases hread hgiant with ⟨plaintext, hplaintext⟩
  rcases foldlM_range'_spec
    (f := fun inner i => (fastRotation[i - 1]?).bind fun rotated =>
      (D[b * j + i]?).bind fun diagonal => some (evalAddExt inner (evalMultExt rotated diagonal)))
    1
    (fun i inner => inner.value =
      ∑ t ∈ range (i + 1), rotateSlots (t : ZMod n) ct.value * P (b * j + t))
    (n := blockLength b n j - 1) (s := evalMultExt ct plaintext) (by
      rw [value_evalMultExt, hP _ _ hplaintext]
      simp) (by
      intro i hi inner hinner
      have hblock : b * j + (1 + i) < n := by
        unfold blockLength at hi
        omega
      rcases hfast i (by omega) with ⟨rotated, hrotated, hvalue⟩
      rcases hread hblock with ⟨plaintext, hplaintext⟩
      refine ⟨evalAddExt inner (evalMultExt rotated plaintext), ?_, ?_⟩
      · rw [Nat.add_sub_cancel_left, hrotated, Option.bind_some, hplaintext, Option.bind_some]
      · rw [value_evalAddExt, value_evalMultExt, hinner, hvalue, hP _ _ hplaintext,
          sum_range_succ _ (i + 1), Nat.add_comm 1 i]) with ⟨inner, hrun, hvalue⟩
  refine ⟨inner, ?_, ?_⟩
  · unfold innerSum
    rw [hplaintext, hD, babySteps_eq hb hbn hj]
    exact hrun
  · rw [hvalue, Nat.sub_add_cancel hlen]
    rfl

theorem giantSteps_spec (mask : Nat -> (ZMod n -> R) -> ZMod n -> R) {evalKeys : List Nat}
    (hkeys : forall j, 0 < j -> j < ceilDiv n b -> b * j ∈ evalKeys)
    {fastRotation : List (SlotCiphertext R n)}
    (hfast : forall i, i < b - 1 -> exists c, fastRotation[i]? = some c ∧
      c.value = rotateSlots ((i + 1 : Nat) : ZMod n) ct.value) :
    exists s, (List.range (ceilDiv n b)).foldlM (fun s j =>
        (innerSum D b ct fastRotation j).bind fun inner =>
          giantStep mask evalKeys b j inner s)
        (({ first := 0, second := 0 } : SlotCiphertext R n), (0 : ZMod n -> R)) = some s ∧
      s.1.value + s.2 = ∑ j ∈ range (ceilDiv n b),
        rotateSlots ((b * j : Nat) : ZMod n) (innerSlots b P ct.value j) := by
  apply foldlM_range_spec (fun j (s : SlotCiphertext R n × (ZMod n -> R)) =>
    s.1.value + s.2 = ∑ j' ∈ range j, rotateSlots ((b * j' : Nat) : ZMod n) (innerSlots b P ct.value j'))
  · simp [value]
  · intro j hj s hs
    rcases innerSum_spec hb hbn hD hP hfast hj with ⟨inner, hinner, hvalue⟩
    rw [hinner, Option.bind_some, sum_range_succ]
    unfold giantStep
    cases Nat.eq_zero_or_pos j with
    | inl hzero =>
        subst hzero
        refine ⟨_, if_pos rfl, ?_⟩
        rw [← hvalue]
        funext i
        simp [value, add_comm]
    | inr hpos =>
        rcases evalFastRotationExt_spec mask (hkeys j hpos hj) inner false with
          ⟨rotated, hrotated, hrotation⟩
        rw [if_neg hpos.ne', hrotated]
        refine ⟨_, rfl, ?_⟩
        rw [← hs, ← hvalue, value_evalAddExt, hrotation]
        funext i
        simp only [value, rotateSlots, Pi.add_apply, Bool.false_eq_true, if_false]
        ring

end EvaluationSpec

/-! ## The product with the matrix -/

section Product

variable {R : Type _} [CommRing R] {n : Nat} [NeZero n]

theorem sum_range_natCast (f : ZMod n -> R) : ∑ d ∈ range n, f (d : ZMod n) = ∑ c, f c := by
  apply sum_nbij' (fun d : Nat => (d : ZMod n)) fun c : ZMod n => c.val
  · intro d hd
    exact mem_univ _
  · intro c hc
    exact mem_range.mpr (ZMod.val_lt c)
  · intro d hd
    exact ZMod.val_cast_of_lt (mem_range.mp hd)
  · intro c hc
    exact ZMod.natCast_zmod_val c
  · intro d hd
    rfl

theorem sum_giantSteps {b : Nat} (hb : 0 < b) (A : List (List R)) (x : ZMod n -> R) :
    ∑ j ∈ range (ceilDiv n b), rotateSlots ((b * j : Nat) : ZMod n)
        (innerSlots b (fun d => rotateSlots (-((b * (d / b) : Nat) : ZMod n)) (diagonal A d))
          x j) =
      (matrixOfRows A).mulVec x := by
  funext r
  have hterm (j i : Nat) (hi : i < b) :
      rotateSlots ((b * j : Nat) : ZMod n) (rotateSlots (i : ZMod n) x *
          rotateSlots (-((b * ((b * j + i) / b) : Nat) : ZMod n)) (diagonal A (b * j + i))) r =
        matrixOfRows A r (r + ((b * j + i : Nat) : ZMod n)) *
          x (r + ((b * j + i : Nat) : ZMod n)) := by
    have hdiv : (b * j + i) / b = j := by
      rw [Nat.mul_add_div hb, Nat.div_eq_of_lt hi, Nat.add_zero]
    simp only [rotateSlots, Pi.mul_apply, diagonal, hdiv, add_neg_cancel_right, Nat.cast_add,
      ← add_assoc]
    exact mul_comm _ _
  calc
    (∑ j ∈ range (ceilDiv n b), rotateSlots ((b * j : Nat) : ZMod n)
        (innerSlots b (fun d => rotateSlots (-((b * (d / b) : Nat) : ZMod n)) (diagonal A d))
          x j)) r =
        ∑ j ∈ range (ceilDiv n b), ∑ i ∈ range (blockLength b n j),
          matrixOfRows A r (r + ((b * j + i : Nat) : ZMod n)) *
            x (r + ((b * j + i : Nat) : ZMod n)) := by
      rw [Finset.sum_apply]
      apply sum_congr rfl
      intro j hj
      unfold innerSlots
      simp only [rotateSlots, Finset.sum_apply]
      apply sum_congr rfl
      intro i hi
      have hib : i < b := lt_of_lt_of_le (mem_range.mp hi) (Nat.min_le_left _ _)
      exact hterm j i hib
    _ = ∑ d ∈ range n, matrixOfRows A r (r + (d : ZMod n)) * x (r + (d : ZMod n)) := by
      rw [sum_blocks (fun d : Nat => matrixOfRows A r (r + (d : ZMod n)) * x (r + (d : ZMod n))),
        min_giants hb]
    _ = ∑ c, matrixOfRows A r (r + c) * x (r + c) :=
      sum_range_natCast fun c => matrixOfRows A r (r + c) * x (r + c)
    _ = ∑ c, matrixOfRows A r c * x c :=
      Equiv.sum_comp (Equiv.addLeft r) fun c => matrixOfRows A r c * x c
    _ = (matrixOfRows A).mulVec x r := rfl

end Product

theorem rotations_subset {g n M : Nat} {indices : List Nat} (hn : 0 < n)
    (hn31 : n < 2 ^ 31) (hfind : findLinearTransformRotationIndices g n M = some indices) :
    (forall i, i < babyStep g n - 1 -> i + 1 ∈ indices) ∧
      forall j, 0 < j -> j < ceilDiv n (babyStep g n) -> babyStep g n * j ∈ indices := by
  have hb := babyStep_pos (g := g) hn
  unfold findLinearTransformRotationIndices at hfind
  dsimp only at hfind
  split at hfind
  next => cases hfind
  next =>
      cases hfind
      constructor
      · intro i hi
        apply List.mem_append_left
        apply List.mem_append_left
        rw [List.mem_range'_1]
        omega
      · intro j hpos hj
        have hlt := giant_lt hb hj
        apply List.mem_append_left
        by_cases hone : j = 1
        · subst hone
          apply List.mem_append_left
          rw [List.mem_range'_1]
          omega
        · apply List.mem_append_right
          rw [List.mem_map]
          refine ⟨j, by rw [List.mem_range'_1]; omega, ?_⟩
          rw [Nat.mul_comm j]
          unfold usint
          omega

/--
With the keys of `FindLinearTransformRotationIndices` the transform of the
precomputed diagonals is the product with the matrix, each diagonal read once.
-/
theorem evalLinearTransform_eq_mulVec {R : Type _} [CommRing R] {n : Nat} [NeZero n]
    (hn31 : n < 2 ^ 31) {g : Nat} (hg : g + n <= 2 ^ 32) {A : List (List R)}
    (hA : A.length = n) (hrows : forall row, row ∈ A -> row.length = n) {M : Nat}
    {indices evalKeys : List Nat}
    (hfind : findLinearTransformRotationIndices g n M = some indices)
    (hkeys : indices ⊆ evalKeys) (mask : Nat -> (ZMod n -> R) -> ZMod n -> R)
    (ct : SlotCiphertext R n) :
    exists D result, evalLinearTransformPrecompute A g 1 = some D ∧
      evalLinearTransform mask evalKeys g D ct = some result ∧
      result.value = (matrixOfRows A).mulVec ct.value ∧
      usedDiagonals n (babyStep g n) = List.range n := by
  have hn : 0 < n := Nat.pos_of_neZero n
  have hb := babyStep_pos (g := g) hn
  have hbn := babyStep_add_le hn hn31 hg
  rcases rotations_subset hn hn31 hfind with ⟨hbabies, hgiants⟩
  rcases evalLinearTransformPrecompute_spec hA hrows hg hn31 with ⟨D, hD, hlen, hP⟩
  rcases mapM_range_spec (n := babyStep g n - 1)
    (f := fun j => SlotCiphertext.evalFastRotationExt mask evalKeys ct (j + 1) true)
    (fun j c => c.value = rotateSlots ((j + 1 : Nat) : ZMod n) ct.value)
    (fun j hj => SlotCiphertext.evalFastRotationExt_spec mask (hkeys (hbabies j hj)) ct true) with
    ⟨fastRotation, hfast, hfastLen, hfastValue⟩
  rcases giantSteps_spec hb hbn hlen hP mask
    (fun j hpos hj => hkeys (hgiants j hpos hj))
    (fun i hi => ⟨_, List.getElem?_eq_getElem (by omega),
      hfastValue i _ (List.getElem?_eq_getElem (by omega))⟩) with ⟨s, hrun, hvalue⟩
  refine ⟨D, { s.1 with first := s.1.first + s.2 }, hD, ?_, ?_, usedDiagonals_eq hb hbn⟩
  · unfold evalLinearTransform
    simp only [hlen, Option.bind_eq_bind]
    rw [hfast, Option.bind_some, hrun]
    rfl
  · rw [sum_giantSteps hb] at hvalue
    rw [← hvalue]
    exact add_right_comm _ _ _

/-- Two slots with an automatic baby step, under order 8. -/
theorem evalLinearTransform_eq_mulVec_two :
    exists D result,
      evalLinearTransformPrecompute [[1, 2], [3, 4]] 0 (1 : Int) = some D ∧
        evalLinearTransform (fun _ _ => 0) [1, 2] 0 D
          ({ first := fun i => i.val, second := 1 } : SlotCiphertext Int 2) = some result ∧
        result.value = (matrixOfRows [[1, 2], [3, 4]]).mulVec
          ({ first := fun i => i.val, second := 1 } : SlotCiphertext Int 2).value ∧
        usedDiagonals 2 (babyStep 0 2) = List.range 2 :=
  evalLinearTransform_eq_mulVec (n := 2) (g := 0) (M := 8) (A := [[1, 2], [3, 4]]) (by decide)
    (by decide) rfl (by decide) (show findLinearTransformRotationIndices 0 2 8 = some [1, 2] by
      decide +kernel) (List.Subset.refl _) _ _

end Ckksrns
end Scheme
end OpenFHE
