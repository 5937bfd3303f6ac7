import OpenFHE.Core.NativeInteger.Digits
import OpenFHE.Core.NativeInteger.ModInverse
import OpenFHE.Core.NativeVectorT

/-!
# Canonical residues of native vectors

The remaining operations of `NativeVectorT`, and for every operation when its result has
entries below its modulus.  The fast operations rely on such entries, but rounding,
a change of the modulus and the unreduced products need not produce them.
-/

namespace OpenFHE
namespace Core

open Foundation NativeInteger

namespace NativeInteger

def divideAndRound (x q : Nat) : Nat :=
  if x % q > q >>> 1 then x / q + 1 else x / q

end NativeInteger

namespace NativeVectorT

/-! ## Operations -/

/-- A scalar operand, reduced where it is not below the modulus. -/
def reduceScalar (v : NativeVectorT) (b : Nat) : Except Fault Nat :=
  if b >= v.modulus then
    if v.modulus = 0 then .error .undefined else .ok (b % v.modulus)
  else .ok b

def modAddInteger (v : NativeVectorT) (b : Nat) : Except Fault NativeVectorT := do
  let bv <- v.reduceScalar b
  return { v with data := v.data.map fun x => modAddFast x bv v.modulus }

def modAddAtIndex (v : NativeVectorT) (i b : Nat) : Except Fault NativeVectorT :=
  match v.data[i]? with
  | none => .error (.thrown "NativeVectorT index out of range")
  | some x =>
      if v.modulus = 0 then .error .undefined
      else .ok { v with data := v.data.set i (modAdd x b v.modulus) }

def modAddNoCheckEq (v b : NativeVectorT) : Except Fault NativeVectorT :=
  if b.data.length < v.data.length then .error .undefined
  else .ok { v with data := NativeVector.modAddNoCheckEq v.modulus v.data b.data }

def modSubInteger (v : NativeVectorT) (b : Nat) : Except Fault NativeVectorT := do
  let bv <- v.reduceScalar b
  return { v with data := v.data.map fun x => modSubFast x bv v.modulus }

def modMul (v b : NativeVectorT) : Except Fault NativeVectorT :=
  if v.data.length ≠ b.data.length ∨ v.modulus ≠ b.modulus then
    .error (.thrown parametersMessage)
  else do
    let data <- Fault.access (NativeVector.modMulNoCheckEq v.modulus v.data b.data)
    return { v with data := data }

def multAccEqNoCheck (v b : NativeVectorT) (i : Nat) : Except Fault NativeVectorT := do
  let iv <- v.reduceScalar i
  let iinv <- Fault.access (prepModMulConst iv v.modulus)
  if b.data.length < v.data.length then .error .undefined
  else return { v with
    data := List.zipWith
      (fun x y => modAddFast x (modMulFastConst y iv v.modulus iinv) v.modulus) v.data b.data }

def modExp (v : NativeVectorT) (b : Nat) : Except Fault NativeVectorT := do
  let bv <- v.reduceScalar b
  let data <- Fault.access (v.data.mapM fun x => NativeInteger.modExp x bv v.modulus)
  return { v with data := data }

/-- `ModInverse`: the first entry without an inverse throws. -/
def modInverse (v : NativeVectorT) : Except Fault NativeVectorT := do
  let data <- Fault.access (v.data.mapM fun x => NativeInteger.modInverse x v.modulus)
  return { v with data := data }

def multWithOutMod (v b : NativeVectorT) : Except Fault NativeVectorT :=
  if v.data.length ≠ b.data.length ∨ v.modulus ≠ b.modulus then
    .error (.thrown parametersMessage)
  else .ok { v with data := List.zipWith (fun x y => mulFast x y) v.data b.data }

/-- An entry above the half is rounded by its distance to the modulus. -/
def roundEntry (modulus : Nat) (low high : Nat -> Nat) (x : Nat) : Nat :=
  if x > modulus >>> 1 then subFast modulus (high (subFast modulus x)) else low x

/-- `MultiplyAndRound`, with the rounded quotient of floating point numbers. -/
def multiplyAndRound (rounded : Nat -> Nat -> Nat -> Nat) (v : NativeVectorT) (p q : Nat) :
    Except Fault NativeVectorT :=
  if q = 0 ∧ v.data ≠ [] then
    .error (.thrown "NativeIntegerT MultiplyAndRound: Divide by zero")
  else .ok { v with
    data := v.data.map (roundEntry v.modulus (fun x => rounded x p q % v.modulus)
      fun x => rounded x p q) }

def divideAndRound (v : NativeVectorT) (q : Nat) : Except Fault NativeVectorT :=
  if q = 0 ∧ v.data ≠ [] then .error (.thrown "NativeIntegerT DivideAndRound: zero")
  else .ok { v with
    data := v.data.map (roundEntry v.modulus (fun x => NativeInteger.divideAndRound x q)
      fun x => NativeInteger.divideAndRound x q) }

/-- The bits of index zero are far outside of the word, and a larger base never ends the loop. -/
def getDigitAtIndexForBase (v : NativeVectorT) (index base : Nat) : Except Fault NativeVectorT :=
  if index = 0 ∨ base = 0 ∨ 2 ^ 31 < base then .error .undefined
  else do
    let data <- Fault.access
      (v.data.mapM fun x => NativeInteger.getDigitAtIndexForBase x index base)
    return { v with data := data }

def lazyData (v : NativeVectorT) (modulus : Nat) : List Nat := v.data.map fun x => x % modulus

def lazySwitchModulus (v : NativeVectorT) (modulus : Nat) : Except Fault NativeVectorT :=
  if modulus = 0 ∧ v.data ≠ [] then .error .undefined
  else setModulus { v with data := v.lazyData modulus } modulus

/-! ## Canonical entries -/

def Canonical (v : NativeVectorT) : Prop := forall x, x ∈ v.data -> x < v.modulus

theorem canonical_map {v : NativeVectorT} {f : Nat -> Nat} :
    Canonical { v with data := v.data.map f } <-> forall x, x ∈ v.data -> f x < v.modulus := by
  constructor
  · intro h x hx
    exact h (f x) (List.mem_map_of_mem hx)
  · intro h y hy
    rcases List.mem_map.mp hy with ⟨x, hx, rfl⟩
    exact h x hx

theorem canonical_zipWith {v : NativeVectorT} {b : List Nat} {f : Nat -> Nat -> Nat} :
    Canonical { v with data := List.zipWith f v.data b } <->
      forall (i : Nat) x y, v.data[i]? = some x -> b[i]? = some y -> f x y < v.modulus := by
  constructor
  · intro h i x y hx hy
    apply h
    exact List.mem_of_getElem? (List.getElem?_zipWith_eq_some.mpr ⟨x, y, hx, hy, rfl⟩)
  · intro h z hz
    rcases List.mem_iff_getElem?.mp hz with ⟨i, hi⟩
    rcases List.getElem?_zipWith_eq_some.mp hi with ⟨x, y, hx, hy, rfl⟩
    exact h i x y hx hy

theorem canonical_mapM {v : NativeVectorT} {f : Nat -> Option Nat} {data : List Nat}
    (hdata : v.data.mapM f = some data)
    (h : forall x y, x ∈ v.data -> f x = some y -> y < v.modulus) :
    Canonical { v with data := data } := by
  intro y hy
  rcases mapM_mem hdata hy with ⟨x, hx, hxy⟩
  exact h x y hx hxy

/-! ## Addition and subtraction -/

section Entries

variable {v w : NativeVectorT} (hv : v.Canonical) (hq : v.modulus < 2 ^ 60)

theorem reduceScalar_lt {b bv : Nat} (h : v.reduceScalar b = .ok bv) : bv < v.modulus := by
  unfold reduceScalar at h
  split at h
  · split at h
    · cases h
    · rename_i hne
      cases h
      exact Nat.mod_lt _ (Nat.pos_of_ne_zero hne)
  · rename_i hlt
    cases h
    exact Nat.not_le.mp hlt

theorem modAddFast_lt {x y q : Nat} (hq : q < 2 ^ 60) (hx : x < q) (hy : y < q) :
    modAddFast x y q < q := by
  rw [modAddFast_eq (by omega) hx hy]
  exact Nat.mod_lt _ (by omega)

theorem modSubFast_lt {x y q : Nat} (hq : q < 2 ^ 60) (hx : x < q) (hy : y < q) :
    modSubFast x y q < q := by
  rw [modSubFast_eq (by omega) hx hy]
  exact Nat.mod_lt _ (by omega)

include hv hq

theorem modAddInteger_canonical {b : Nat} (h : v.modAddInteger b = .ok w) : w.Canonical := by
  unfold modAddInteger at h
  cases hb : v.reduceScalar b with
  | error e =>
      rw [hb] at h
      cases h
  | ok bv =>
      rw [hb] at h
      cases h
      apply canonical_map.mpr
      intro x hx
      exact modAddFast_lt hq (hv x hx) (reduceScalar_lt hb)

theorem modSubInteger_canonical {b : Nat} (h : v.modSubInteger b = .ok w) : w.Canonical := by
  unfold modSubInteger at h
  cases hb : v.reduceScalar b with
  | error e =>
      rw [hb] at h
      cases h
  | ok bv =>
      rw [hb] at h
      cases h
      apply canonical_map.mpr
      intro x hx
      exact modSubFast_lt hq (hv x hx) (reduceScalar_lt hb)

theorem modAddAtIndex_canonical {i b : Nat} (h : v.modAddAtIndex i b = .ok w) :
    w.Canonical := by
  unfold modAddAtIndex at h
  split at h
  · cases h
  · rename_i x hx
    split at h
    · cases h
    · rename_i hne
      cases h
      intro y hy
      rcases List.mem_or_eq_of_mem_set hy with hold | rfl
      · exact hv y hold
      · have hpos : 0 < v.modulus := Nat.pos_of_ne_zero hne
        unfold modAdd
        apply modAddFast_lt hq
        · rw [reduce_eq_mod]
          exact Nat.mod_lt _ hpos
        · rw [reduce_eq_mod]
          exact Nat.mod_lt _ hpos

theorem modAddEq_canonical {b : NativeVectorT} (hb : b.Canonical) (h : v.modAddEq b = .ok w) :
    w.Canonical := by
  unfold modAddEq at h
  split at h
  · cases h
  · rename_i hsame
    cases h
    apply canonical_zipWith.mpr
    intro i x y hx hy
    have hmod : v.modulus = b.modulus := by tauto
    apply modAddFast_lt hq (hv x (List.mem_of_getElem? hx))
    rw [hmod]
    exact hb y (List.mem_of_getElem? hy)

theorem modSubEq_canonical {b : NativeVectorT} (hb : b.Canonical) (h : v.modSubEq b = .ok w) :
    w.Canonical := by
  unfold modSubEq at h
  split at h
  · cases h
  · rename_i hsame
    cases h
    apply canonical_zipWith.mpr
    intro i x y hx hy
    have hmod : v.modulus = b.modulus := by tauto
    apply modSubFast_lt hq (hv x (List.mem_of_getElem? hx))
    rw [hmod]
    exact hb y (List.mem_of_getElem? hy)

theorem modAddNoCheckEq_canonical_iff {b : NativeVectorT} (hb : b.Canonical)
    (hbq : b.modulus < 2 ^ 60) (h : v.modAddNoCheckEq b = .ok w) :
    w.Canonical <-> forall (i : Nat) x y, v.data[i]? = some x -> b.data[i]? = some y ->
      x + y < 2 * v.modulus := by
  unfold modAddNoCheckEq at h
  split at h
  · cases h
  · cases h
    unfold NativeVector.modAddNoCheckEq
    rw [canonical_zipWith]
    have hentry (i x y : Nat) (hx : v.data[i]? = some x) (hy : b.data[i]? = some y) :
        modAddFast x y v.modulus < v.modulus <-> x + y < 2 * v.modulus := by
      have hxlt := hv x (List.mem_of_getElem? hx)
      have hylt := hb y (List.mem_of_getElem? hy)
      unfold modAddFast
      dsimp only
      rw [word_eq (by simp only [maxBits]; omega)]
      split
      · rename_i hge
        rw [subFast_eq hge (by simp only [maxBits]; omega)]
        omega
      · omega
    constructor
    · intro hall i x y hx hy
      exact (hentry i x y hx hy).mp (hall i x y hx hy)
    · intro hall i x y hx hy
      exact (hentry i x y hx hy).mpr (hall i x y hx hy)

end Entries

end NativeVectorT

end Core
end OpenFHE
