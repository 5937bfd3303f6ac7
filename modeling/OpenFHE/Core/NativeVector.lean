import OpenFHE.Core.NativeInteger.ModularArithmetic
import Mathlib.Data.ZMod.Basic
import Mathlib.Data.List.GetD

/-!
# Native vectors

`NativeVectorT` stores residues of one modulus.  A list of words stands for a
function to `ZMod q`; each vector operation is exact on reduced words.
-/

namespace OpenFHE
namespace Core

open NativeInteger

/-- The reduced word `x` stands for the residue `v`. -/
def Represents (q : Nat) (v : ZMod q) (x : Nat) : Prop :=
  x < q ∧ (x : ZMod q) = v

theorem Represents.eq {q x : Nat} {v : ZMod q} (h : Represents q v x) {y : Nat}
    (hy : Represents q v y) : x = y := by
  have hmod : x % q = y % q :=
    (ZMod.natCast_eq_natCast_iff' x y q).mp (h.2.trans hy.2.symm)
  rwa [Nat.mod_eq_of_lt h.1, Nat.mod_eq_of_lt hy.1] at hmod

theorem represents_mod {q : Nat} (hq : 0 < q) (x : Nat) : Represents q x (x % q) :=
  ⟨Nat.mod_lt _ hq, ZMod.natCast_mod x q⟩

/-- The reduced words of a vector of length `n` stand for the residues of `f`. -/
structure Holds (q n : Nat) (f : Nat -> ZMod q) (element : List Nat) : Prop where
  length_eq : element.length = n
  get : forall i x, element[i]? = some x -> Represents q (f i) x

/-- The vectors of `n` residues. -/
def Residues (n q : Nat) (a : List Nat) : Prop :=
  a.length = n ∧ forall x, x ∈ a -> x < q

def coefficient (q : Nat) (a : List Nat) (i : Nat) : ZMod q := (a.getD i 0 : ZMod q)

theorem Residues.holds {n q : Nat} {a : List Nat} (h : Residues n q a) :
    Holds q n (coefficient q a) a where
  length_eq := h.1
  get := by
    intro i x hix
    refine ⟨h.2 x (List.mem_of_getElem? hix), ?_⟩
    rw [coefficient, List.getD_eq_getElem?_getD, hix]
    rfl

theorem Residues.set {n q : Nat} {a : List Nat} (h : Residues n q a) {i v : Nat}
    (hv : v < q) : Residues n q (a.set i v) := by
  refine ⟨by rw [List.length_set, h.1], ?_⟩
  intro x hx
  rcases List.mem_or_eq_of_mem_set hx with hmem | rfl
  · exact h.2 x hmem
  · exact hv

theorem Residues.exists_entry {n q : Nat} {a : List Nat} (h : Residues n q a) {i : Nat}
    (hi : i < n) : exists x, a[i]? = some x ∧ x < q := by
  rw [← h.1] at hi
  exact ⟨a[i], List.getElem?_eq_getElem hi, h.2 _ (List.getElem_mem hi)⟩

section Holds

variable {q n : Nat} {f : Nat -> ZMod q} {a : List Nat} (h : Holds q n f a)

include h

theorem Holds.lt {x : Nat} (hx : x ∈ a) : x < q := by
  rcases List.mem_iff_getElem?.mp hx with ⟨i, hi⟩
  exact (h.get i x hi).1

theorem Holds.residues : Residues n q a :=
  ⟨h.length_eq, fun _ hx => h.lt hx⟩

theorem Holds.unique {b : List Nat} (hb : Holds q n f b) : a = b := by
  refine List.ext_getElem (h.length_eq.trans hb.length_eq.symm) fun i h₁ h₂ => ?_
  exact (h.get i _ (List.getElem?_eq_getElem h₁)).eq
    (hb.get i _ (List.getElem?_eq_getElem h₂))

theorem Holds.congr {g : Nat -> ZMod q} (hfg : forall i, i < n -> f i = g i) :
    Holds q n g a := by
  refine ⟨h.length_eq, ?_⟩
  intro i x hix
  have hi : i < n := by
    rw [← h.length_eq]
    exact (List.getElem?_eq_some_iff.mp hix).1
  rw [← hfg i hi]
  exact h.get i x hix

theorem Holds.getElem? {i v : Nat} (hi : i < n) (hv : Represents q (f i) v) :
    a[i]? = some v := by
  have hrange : i < a.length := by
    rw [h.length_eq]
    exact hi
  have hentry := List.getElem?_eq_getElem hrange
  rw [hentry, (h.get i _ hentry).eq hv]

theorem Holds.coefficient_eq {i : Nat} (hi : i < n) : coefficient q a i = f i := by
  have hrange : i < a.length := by
    rw [h.length_eq]
    exact hi
  have hentry := List.getElem?_eq_getElem hrange
  rw [coefficient, List.getD_eq_getElem?_getD, hentry]
  exact (h.get i _ hentry).2

end Holds

def residueVector (q n : Nat) (f : Nat -> ZMod q) : List Nat :=
  (List.range n).map fun i => (f i).val

theorem residueVector_holds {q : Nat} [NeZero q] (n : Nat) (f : Nat -> ZMod q) :
    Holds q n f (residueVector q n f) := by
  refine ⟨by simp [residueVector], ?_⟩
  intro i x hix
  unfold residueVector at hix
  rw [List.getElem?_map, Option.map_eq_some_iff] at hix
  rcases hix with ⟨j, hj, rfl⟩
  rcases List.getElem?_eq_some_iff.mp hj with ⟨_, hij⟩
  rw [List.getElem_range] at hij
  subst hij
  exact ⟨ZMod.val_lt _, ZMod.natCast_zmod_val _⟩

theorem residueVector_congr {q n : Nat} {f g : Nat -> ZMod q}
    (h : forall i, i < n -> f i = g i) : residueVector q n f = residueVector q n g :=
  List.map_congr_left fun i hi => congrArg ZMod.val (h i (List.mem_range.mp hi))

namespace NativeVector

/-!
## Operations
-/

def modAddNoCheckEq (modulus : Nat) (a b : List Nat) : List Nat :=
  List.zipWith (fun x y => modAddFast x y modulus) a b

def modMulNoCheckEq (modulus : Nat) (a b : List Nat) : Option (List Nat) := do
  let mu <- computeMu modulus
  return List.zipWith (fun x y => modMulFastMu x y modulus mu) a b

/-- A different length is an exception. -/
def modMul (modulus : Nat) (a b : List Nat) : Option (List Nat) :=
  if a.length ≠ b.length then none else modMulNoCheckEq modulus a b

def modSubEq (modulus : Nat) (a b : List Nat) : Option (List Nat) :=
  if a.length ≠ b.length then none
  else some (List.zipWith (fun x y => modSubFast x y modulus) a b)

def modMulScalar (modulus : Nat) (a : List Nat) (b : Nat) : Option (List Nat) := do
  let bv := if b >= modulus then b % modulus else b
  let bconst <- prepModMulConst bv modulus
  return a.map fun x => modMulFastConst x bv modulus bconst

/-- Values above half of the old modulus keep their distance below it. -/
def switchModulus (old modulus : Nat) (a : List Nat) : List Nat :=
  let halfQ := old >>> 1
  let diff := if old > modulus then subFast old modulus else subFast modulus old
  if modulus > old then a.map fun v => addFast v (if v > halfQ then diff else 0)
  else a.map fun v => modSub v (if v > halfQ then diff else 0) modulus

/-!
## What the operations compute
-/

theorem represents_sub_fast {q x y : Nat} (h60 : q < 2 ^ 60) (hx : x < q) (hy : y < q) :
    Represents q ((x : ZMod q) - y) (modSubFast x y q) := by
  have hcast : ((x + (q - y) : Nat) : ZMod q) = (x : ZMod q) - y := by
    rw [Nat.cast_add, Nat.cast_sub hy.le, ZMod.natCast_self]
    ring
  rw [modSubFast_eq (by omega) hx hy, ← hcast]
  exact represents_mod (by omega) _

section Spec

variable {q n : Nat} (h60 : q < 2 ^ 60) {f g : Nat -> ZMod q} {a b : List Nat}
  (ha : Holds q n f a) (hb : Holds q n g b)

theorem holds_zipWith {op : Nat -> Nat -> Nat} {r : Nat -> ZMod q}
    (hop : forall i x y, Represents q (f i) x -> Represents q (g i) y ->
      Represents q (r i) (op x y)) (ha : Holds q n f a) (hb : Holds q n g b) :
    Holds q n r (List.zipWith op a b) := by
  refine ⟨?_, ?_⟩
  · rw [List.length_zipWith, ha.length_eq, hb.length_eq, Nat.min_self]
  · intro i z hz
    rcases List.getElem?_zipWith_eq_some.mp hz with ⟨x, y, hx, hy, rfl⟩
    exact hop i x y (ha.get i x hx) (hb.get i y hy)

theorem holds_map {op : Nat -> Nat} {r : Nat -> ZMod q}
    (hop : forall i x, Represents q (f i) x -> Represents q (r i) (op x))
    (ha : Holds q n f a) : Holds q n r (a.map op) := by
  refine ⟨?_, ?_⟩
  · rw [List.length_map, ha.length_eq]
  · intro i z hz
    rw [List.getElem?_map, Option.map_eq_some_iff] at hz
    rcases hz with ⟨x, hx, rfl⟩
    exact hop i x (ha.get i x hx)

include h60

theorem modAddNoCheckEq_spec (ha : Holds q n f a) (hb : Holds q n g b) :
    Holds q n (fun i => f i + g i) (modAddNoCheckEq q a b) := by
  refine holds_zipWith (fun i x y hx hy => ?_) ha hb
  rw [modAddFast_eq (by omega) hx.1 hy.1, ← hx.2, ← hy.2, ← Nat.cast_add]
  exact represents_mod (by have := hx.1; omega) _

theorem modSubEq_spec (ha : Holds q n f a) (hb : Holds q n g b) :
    exists r, modSubEq q a b = some r ∧ Holds q n (fun i => f i - g i) r := by
  refine ⟨_, by rw [modSubEq, if_neg (by simp [ha.length_eq, hb.length_eq])], ?_⟩
  refine holds_zipWith (fun i x y hx hy => ?_) ha hb
  rw [← hx.2, ← hy.2]
  exact represents_sub_fast h60 hx.1 hy.1

theorem modMulScalar_spec (hq : 0 < q) (c : Nat) (ha : Holds q n f a) :
    exists r, modMulScalar q a c = some r ∧ Holds q n (fun i => f i * c) r := by
  have hcLt : (if c >= q then c % q else c) < q := by
    split
    · exact Nat.mod_lt _ hq
    · omega
  have hcCast : (((if c >= q then c % q else c) : Nat) : ZMod q) = c := by
    split
    · exact ZMod.natCast_mod c q
    · rfl
  unfold modMulScalar
  dsimp only
  generalize (if c >= q then c % q else c) = bv at hcLt hcCast
  refine ⟨a.map fun x => modMulFastConst x bv q (precon bv q), ?_, ?_⟩
  · rw [prepModMulConst_eq (by simp only [maxBits]; omega) hcLt]
    rfl
  · refine holds_map (fun i x hx => ?_) ha
    have hxq := hx.1
    rw [modMulFastConst_eq (by omega) hcLt (by simp only [maxBits]; omega), ← hx.2,
      ← hcCast, ← Nat.cast_mul]
    exact represents_mod hq _

theorem modMulNoCheckEq_spec (hodd : q % 2 = 1) (h1 : 1 < q) (ha : Holds q n f a)
    (hb : Holds q n g b) :
    exists r, modMulNoCheckEq q a b = some r ∧ Holds q n (fun i => f i * g i) r := by
  obtain ⟨mu, hmu⟩ : exists mu, computeMu q = some mu := ⟨_, computeMu_eq (by omega) h1 h60⟩
  refine ⟨List.zipWith (fun x y => modMulFastMu x y q mu) a b, ?_, ?_⟩
  · unfold modMulNoCheckEq
    rw [hmu]
    rfl
  · refine holds_zipWith (fun i x y hx hy => ?_) ha hb
    rw [modMulFastMu_eq (by omega) h1 h60 hx.1 hy.1 hmu, ← hx.2, ← hy.2, ← Nat.cast_mul]
    exact represents_mod (by omega) _

theorem modMul_spec (hodd : q % 2 = 1) (h1 : 1 < q) (ha : Holds q n f a)
    (hb : Holds q n g b) :
    exists r, modMul q a b = some r ∧ Holds q n (fun i => f i * g i) r := by
  rw [modMul, if_neg (by simp [ha.length_eq, hb.length_eq])]
  exact modMulNoCheckEq_spec h60 hodd h1 ha hb

end Spec

/-!
## Switching the modulus
-/

/-- The representative of a residue between `-q / 2` and `q / 2`. -/
def centered (q v : Nat) : Int := if v > q >>> 1 then (v : Int) - q else v

theorem centered_natCast (q v : Nat) : ((centered q v : Int) : ZMod q) = v := by
  unfold centered
  split
  next =>
      rw [Int.cast_sub, Int.cast_natCast, Int.cast_natCast, ZMod.natCast_self, sub_zero]
  next => rw [Int.cast_natCast]

theorem represents_modSub {q : Nat} (h60 : q < 2 ^ 60) (hq : 0 < q) (x y : Nat) :
    Represents q ((x : ZMod q) - y) (modSub x y q) := by
  have hreduce (z : Nat) : (if z >= q then z % q else z) = z % q := by
    split
    · rfl
    · exact (Nat.mod_eq_of_lt (by omega)).symm
  have hsub := represents_sub_fast h60 (Nat.mod_lt x hq) (Nat.mod_lt y hq)
  rw [ZMod.natCast_mod, ZMod.natCast_mod] at hsub
  rw [modSub, hreduce, hreduce]
  exact hsub

theorem switchModulus_spec {old modulus n : Nat} (hold : old < 2 ^ maxBits)
    (hmodulus : modulus < 2 ^ 60) (hpos : 0 < modulus) {a : List Nat}
    (ha : Residues n old a) :
    Holds modulus n (fun i => (centered old (a.getD i 0) : ZMod modulus))
      (switchModulus old modulus a) := by
  have hcast (h : modulus <= old) :
      ((old - modulus : Nat) : ZMod modulus) = (old : ZMod modulus) := by
    rw [Nat.cast_sub h, ZMod.natCast_self, sub_zero]
  have hcast' (h : old <= modulus) :
      ((modulus - old : Nat) : ZMod modulus) = -(old : ZMod modulus) := by
    rw [Nat.cast_sub h, ZMod.natCast_self, zero_sub]
  have hentry (op : Nat -> Nat)
      (hop : forall v, v < old -> Represents modulus (centered old v) (op v)) :
      Holds modulus n (fun i => (centered old (a.getD i 0) : ZMod modulus)) (a.map op) := by
    refine ⟨by rw [List.length_map, ha.1], ?_⟩
    intro i z hz
    rw [List.getElem?_map, Option.map_eq_some_iff] at hz
    rcases hz with ⟨x, hx, rfl⟩
    rw [List.getD_eq_getElem?_getD, hx]
    exact hop x (ha.2 x (List.mem_of_getElem? hx))
  unfold switchModulus
  dsimp only
  split
  next hgt =>
      rw [if_neg (by omega), subFast_eq (by omega) (by simp only [maxBits]; omega)]
      refine hentry _ fun v hv => ?_
      unfold centered
      split
      next hhalf =>
          rw [addFast, word_eq (by simp only [maxBits]; omega)]
          refine ⟨by omega, ?_⟩
          push_cast
          rw [hcast' (by omega)]
          ring
      next hhalf =>
          rw [addFast, word_eq (by simp only [maxBits]; omega)]
          exact ⟨by omega, by simp⟩
  next hle =>
      refine hentry _ fun v hv => ?_
      have hdiff : (if old > modulus then subFast old modulus else subFast modulus old) =
          old - modulus := by
        split
        · exact subFast_eq (by omega) hold
        · rw [subFast_eq (by omega) (by simp only [maxBits]; omega)]
          omega
      rw [hdiff]
      unfold centered
      split
      next hhalf =>
          have hsub := represents_modSub hmodulus hpos v (old - modulus)
          rw [hcast (by omega)] at hsub
          push_cast
          exact hsub
      next hhalf =>
          have hsub := represents_modSub hmodulus hpos v 0
          simpa using hsub

end NativeVector

end Core
end OpenFHE
