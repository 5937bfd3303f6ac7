import OpenFHE.Core.NativeVector
import OpenFHE.Foundation.PairFold
import OpenFHE.Foundation.CooleyTukey
import Mathlib.Algebra.BigOperators.Intervals

/-!
# Butterfly networks

The in-place transforms of `NumberTheoreticTransformNat` walk over butterflies
in the order of their nested loops.  A schedule lists these butterflies, so
that an intermediate state of a transform is the state after a prefix of its
schedule.
-/

namespace OpenFHE
namespace Core
namespace Transform

open Foundation NativeInteger

/-- One iteration of an inner loop: two entries and the index of the root. -/
structure Butterfly where
  lo : Nat
  hi : Nat
  root : Nat
deriving DecidableEq, Repr

/-- The two inner loops of a stage: `i < m` and `j1` from `i << logt`. -/
def stageButterflies (m t logt : Nat) : List Butterfly :=
  (List.range m).flatMap fun i =>
    (List.range t).map fun d =>
      { lo := (i <<< logt) + d, hi := (i <<< logt) + d + t, root := i + m }

/-- `for (m, t, logt; m < n; m <<= 1, t >>= 1, --logt)`. -/
def forwardStages (n : Nat) : Nat -> Nat -> Nat -> Nat -> List Butterfly
  | 0, _, _, _ => []
  | fuel + 1, m, t, logt =>
      if m < n then
        stageButterflies m t logt ++
          forwardStages n fuel (m <<< 1) (t >>> 1) (logt - 1)
      else []

/-- The peeled last stage: `for (i = 0; i < (n << 1); i += 2)`. -/
def forwardLastStage (n : Nat) : List Butterfly :=
  (List.range n).map fun k =>
    { lo := 2 * k, hi := 2 * k + 1, root := ((2 * k) >>> 1) + n }

def forwardSchedule (length : Nat) : List Butterfly :=
  let n := length >>> 1
  forwardStages n n 1 n (getMSB n) ++ forwardLastStage n

def inverseFirstStage (n : Nat) : List Butterfly :=
  if 2 < n then
    (List.range (n >>> 1)).map fun k =>
      { lo := 2 * k, hi := 2 * k + 1, root := (2 * k + n) >>> 1 }
  else []

/-- `for (m, t, logt; m > 1; m >>= 1, t <<= 1, ++logt)`. -/
def inverseStages : Nat -> Nat -> Nat -> Nat -> List Butterfly
  | 0, _, _, _ => []
  | fuel + 1, m, t, logt =>
      if 1 < m then
        stageButterflies m t logt ++ inverseStages fuel (m >>> 1) (t <<< 1) (logt + 1)
      else []

def inverseSchedule (n : Nat) : List Butterfly :=
  inverseFirstStage n ++ inverseStages n (n >>> 2) 2 2

/-!
## The butterflies
-/

def forwardButterfly (modulus : Nat) (rootOfUnityTable preconRootOfUnityTable : List Nat)
    (element : List Nat) (b : Butterfly) : Option (List Nat) := do
  let omega <- rootOfUnityTable[b.root]?
  let preconOmega <- preconRootOfUnityTable[b.root]?
  let factor <- element[b.hi]?
  let omegaFactor := modMulFastConst factor omega modulus preconOmega
  let loVal <- element[b.lo]?
  let hiVal := addFast loVal omegaFactor
  let hiVal := if hiVal >= modulus then subFast hiVal modulus else hiVal
  let loVal := if loVal < omegaFactor then addFast loVal modulus else loVal
  let loVal := subFast loVal omegaFactor
  return (element.set b.lo hiVal).set b.hi loVal

def inverseButterflyWith (modulus omega preconOmega lo hi : Nat)
    (element : List Nat) : Option (List Nat) := do
  let loVal <- element[lo]?
  let hiVal <- element[hi]?
  let omegaFactor := if loVal < hiVal then addFast loVal modulus else loVal
  let omegaFactor := subFast omegaFactor hiVal
  let loVal := addFast loVal hiVal
  let loVal := if loVal >= modulus then subFast loVal modulus else loVal
  let omegaFactor := modMulFastConst omegaFactor omega modulus preconOmega
  return (element.set lo loVal).set hi omegaFactor

def inverseButterfly (modulus : Nat)
    (rootOfUnityInverseTable preconRootOfUnityInverseTable : List Nat)
    (element : List Nat) (b : Butterfly) : Option (List Nat) := do
  let omega <- rootOfUnityInverseTable[b.root]?
  let preconOmega <- preconRootOfUnityInverseTable[b.root]?
  inverseButterflyWith modulus omega preconOmega b.lo b.hi element

/-!
## The schedules of a power of two

Stage `s` of a transform of length `2 ^ k` has `2 ^ s` blocks; both schedules
run through whole stages.
-/

def stage (k s : Nat) : List Butterfly :=
  stageButterflies (2 ^ s) (2 ^ (k - 1 - s)) (k - s)

/-- The loop up to `2 ^ e` blocks runs through the stages below `e`. -/
theorem forwardStages_eq {k e : Nat} (he : e <= k) (c : Nat) {s fuel t logt : Nat}
    (hs : s + c = e) (hfuel : c < fuel)
    (ht : 0 < c -> t = 2 ^ (k - 1 - s) ∧ logt = k - s) :
    forwardStages (2 ^ e) fuel (2 ^ s) t logt = (List.range' s c).flatMap (stage k) := by
  induction c generalizing s fuel t logt with
  | zero =>
      obtain ⟨fuel, rfl⟩ : exists f, fuel = f + 1 := ⟨fuel - 1, by omega⟩
      rw [forwardStages, if_neg (by rw [show s = e by omega]; exact Nat.lt_irrefl _)]
      rfl
  | succ c ih =>
      obtain ⟨fuel, rfl⟩ : exists f, fuel = f + 1 := ⟨fuel - 1, by omega⟩
      have hgo : 2 ^ s < 2 ^ e := Nat.pow_lt_pow_right (by decide) (by omega)
      rcases ht (Nat.succ_pos c) with ⟨rfl, rfl⟩
      have hnext : 0 < c -> 2 ^ (k - 1 - s) >>> 1 = 2 ^ (k - 1 - (s + 1)) ∧
          k - s - 1 = k - (s + 1) := by
        intro hc
        rw [Nat.shiftRight_eq_div_pow, Nat.pow_div (by omega) (by decide)]
        exact ⟨by congr 1, by omega⟩
      rw [forwardStages, if_pos hgo, Nat.shiftLeft_eq, pow_one, ← pow_succ,
        ih (by omega) (by omega) hnext, List.range'_succ, List.flatMap_cons]
      rfl

theorem stage_pairs {k : Nat} (hk : 0 < k) :
    stage k (k - 1) = (List.range (2 ^ (k - 1))).map fun i =>
      { lo := 2 * i, hi := 2 * i + 1, root := i + 2 ^ (k - 1) } := by
  unfold stage stageButterflies
  rw [Nat.sub_self, pow_zero, show k - (k - 1) = 1 by omega]
  simp [Nat.shiftLeft_eq, mul_comm, List.map_eq_flatMap]

theorem shiftRight_two_pow {k c : Nat} (hc : c <= k) : 2 ^ k >>> c = 2 ^ (k - c) := by
  rw [Nat.shiftRight_eq_div_pow, Nat.pow_div hc (by decide)]

theorem forwardSchedule_eq {k : Nat} (hk : 0 < k) :
    forwardSchedule (2 ^ k) = (List.range k).flatMap (stage k) := by
  have hlast : forwardLastStage (2 ^ (k - 1)) = stage k (k - 1) := by
    rw [stage_pairs hk, forwardLastStage]
    refine List.map_congr_left fun i _ => ?_
    rw [Nat.shiftRight_eq_div_pow, pow_one, Nat.mul_div_cancel_left _ (by decide)]
  have hfuel : k - 1 < 2 ^ (k - 1) := Nat.lt_two_pow_self
  have hstages := forwardStages_eq (Nat.sub_le k 1) (k - 1) (s := 0) (Nat.zero_add _) hfuel
    (fun _ => ⟨rfl, rfl⟩)
  rw [pow_zero, Nat.sub_zero, Nat.sub_zero] at hstages
  unfold forwardSchedule
  dsimp only
  rw [shiftRight_two_pow hk, getMSB_two_pow, Nat.sub_add_cancel hk, hstages, hlast,
    ← List.range_eq_range']
  conv_rhs => rw [← Nat.sub_add_cancel hk, List.range_succ, List.flatMap_append]
  rw [Nat.sub_add_cancel hk]
  simp

theorem inverseStages_eq {k : Nat} (s : Nat) {fuel : Nat} (hs : s < k) (hfuel : s < fuel) :
    inverseStages fuel (2 ^ s) (2 ^ (k - 1 - s)) (k - s) =
      (List.range s).flatMap fun c => stage k (s - c) := by
  induction s generalizing fuel with
  | zero =>
      obtain ⟨fuel, rfl⟩ : exists f, fuel = f + 1 := ⟨fuel - 1, by omega⟩
      rfl
  | succ s ih =>
      obtain ⟨fuel, rfl⟩ : exists f, fuel = f + 1 := ⟨fuel - 1, by omega⟩
      have ht : 2 ^ (k - 1 - (s + 1)) <<< 1 = 2 ^ (k - 1 - s) := by
        rw [Nat.shiftLeft_eq, pow_one, ← pow_succ]
        congr 1
        omega
      rw [inverseStages, if_pos (Nat.one_lt_two_pow (by omega)),
        shiftRight_two_pow (by omega), ht, Nat.add_sub_cancel,
        show k - (s + 1) + 1 = k - s by omega, ih (by omega) (by omega),
        List.range_succ_eq_map, List.flatMap_cons, List.flatMap_map]
      simp [stage]

theorem inverseSchedule_eq {k : Nat} (hk : 0 < k) :
    inverseSchedule (2 ^ k) =
      (List.range (k - 1)).flatMap fun c => stage k (k - 1 - c) := by
  unfold inverseSchedule inverseFirstStage
  rcases Nat.lt_or_ge k 2 with h1 | h2
  · have hk1 : k = 1 := by omega
    subst hk1
    rfl
  · have hfirst : (List.range (2 ^ k >>> 1)).map (fun i =>
        ({ lo := 2 * i, hi := 2 * i + 1, root := (2 * i + 2 ^ k) >>> 1 } : Butterfly)) =
        stage k (k - 1) := by
      rw [stage_pairs hk, shiftRight_two_pow hk]
      refine List.map_congr_left fun i _ => ?_
      have hpow : 2 ^ k = 2 * 2 ^ (k - 1) := by
        rw [← pow_succ', Nat.sub_add_cancel hk]
      rw [hpow, ← Nat.mul_add, Nat.shiftRight_eq_div_pow, pow_one,
        Nat.mul_div_cancel_left _ (by decide)]
    have hgt : 2 < 2 ^ k := by
      calc
        2 = 2 ^ 1 := rfl
        _ < 2 ^ k := Nat.pow_lt_pow_right (by decide) h2
    have hstages := inverseStages_eq (k - 2) (show k - 2 < k by omega)
      (lt_of_le_of_lt (Nat.sub_le k 2) Nat.lt_two_pow_self)
    rw [show k - 1 - (k - 2) = 1 by omega, show k - (k - 2) = 2 by omega,
      pow_one] at hstages
    rw [if_pos hgt, hfirst, shiftRight_two_pow h2, hstages,
      show k - 1 = k - 2 + 1 by omega, List.range_succ_eq_map, List.flatMap_cons,
      List.flatMap_map]
    simp

/-!
## One butterfly

Sums are brought back below the modulus by one conditional subtraction,
differences are kept non-negative by one conditional addition.
-/

section Butterfly

variable {q : Nat} {v w : ZMod q} {x y : Nat} (hq : q < 2 ^ 60)
  (hx : Represents q v x) (hy : Represents q w y)

include hq hx hy

theorem represents_add :
    Represents q (v + w)
      (if addFast x y >= q then subFast (addFast x y) q else addFast x y) := by
  have hsum : addFast x y = x + y := by
    rw [addFast, word_eq (by have := hx.1; have := hy.1; simp only [maxBits]; omega), add_comm]
  have hxq := hx.1
  have hyq := hy.1
  rw [hsum, ← hx.2, ← hy.2, ← Nat.cast_add]
  split
  next hge =>
      rw [subFast_eq hge (by simp only [maxBits]; omega)]
      refine ⟨by omega, ?_⟩
      rw [Nat.cast_sub hge, ZMod.natCast_self, sub_zero]
  next hlt =>
      exact ⟨by omega, rfl⟩

theorem represents_sub :
    Represents q (v - w) (subFast (if x < y then addFast x q else x) y) := by
  have hxq := hx.1
  have hyq := hy.1
  rw [← hx.2, ← hy.2]
  split
  next hlt =>
      rw [addFast, word_eq (by simp only [maxBits]; omega),
        subFast_eq (by omega) (by simp only [maxBits]; omega)]
      refine ⟨by omega, ?_⟩
      rw [Nat.cast_sub (by omega), Nat.cast_add, ZMod.natCast_self, zero_add]
  next hge =>
      rw [subFast_eq (by omega) (by simp only [maxBits]; omega)]
      exact ⟨by omega, Nat.cast_sub (by omega)⟩

theorem represents_mulConst :
    Represents q (v * w) (modMulFastConst x y q (precon y q)) := by
  have hxq := hx.1
  have hyq := hy.1
  rw [modMulFastConst_eq (by omega) hyq (by simp only [maxBits]; omega),
    ← hx.2, ← hy.2, ← Nat.cast_mul]
  exact represents_mod (by omega) _

end Butterfly

theorem inverseButterflyWith_spec {q : Nat} (hq : q < 2 ^ 60) {omega : Nat}
    {root : ZMod q} (hroot : Represents q root omega) {lo hi : Nat}
    {element : List Nat} {x y : Nat} {v w : ZMod q}
    (hlo : element[lo]? = some x) (hhi : element[hi]? = some y)
    (hx : Represents q v x) (hy : Represents q w y) :
    exists x' y', inverseButterflyWith q omega (precon omega q) lo hi element =
        some ((element.set lo x').set hi y') ∧
      Represents q (v + w) x' ∧ Represents q ((v - w) * root) y' := by
  refine ⟨_, _, ?_, represents_add hq hx hy,
    represents_mulConst hq (represents_sub hq hx hy) hroot⟩
  unfold inverseButterflyWith
  rw [hlo, hhi]
  rfl

section Tables

variable {q : Nat} (hq : q < 2 ^ 60) {table preconTable : List Nat} {b : Butterfly}
  {omega : Nat} {root : ZMod q} (hroot : Represents q root omega)
  (htable : table[b.root]? = some omega)
  (hprecon : preconTable[b.root]? = some (precon omega q))
  {element : List Nat} {x y : Nat} {v w : ZMod q}
  (hlo : element[b.lo]? = some x) (hhi : element[b.hi]? = some y)
  (hx : Represents q v x) (hy : Represents q w y)

include hq hroot htable hprecon hlo hhi hx hy

theorem forwardButterfly_spec :
    exists x' y', forwardButterfly q table preconTable element b =
        some ((element.set b.lo x').set b.hi y') ∧
      Represents q (v + root * w) x' ∧ Represents q (v - root * w) y' := by
  have hfactor := represents_mulConst hq hy hroot
  rw [mul_comm w root] at hfactor
  refine ⟨_, _, ?_, represents_add hq hx hfactor, represents_sub hq hx hfactor⟩
  unfold forwardButterfly
  rw [htable, hprecon, hlo, hhi]
  rfl

theorem inverseButterfly_spec :
    exists x' y', inverseButterfly q table preconTable element b =
        some ((element.set b.lo x').set b.hi y') ∧
      Represents q (v + w) x' ∧ Represents q ((v - w) * root) y' := by
  unfold inverseButterfly
  rw [htable, hprecon]
  exact inverseButterflyWith_spec hq hroot hlo hhi hx hy

end Tables

end Transform
end Core
end OpenFHE
