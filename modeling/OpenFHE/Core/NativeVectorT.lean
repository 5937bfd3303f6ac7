import OpenFHE.Core.NativeVector

/-!
# Native vectors with their modulus

`NativeVectorT` stores its modulus beside the words.  Its operations refuse moduli
that are too large and operands with other parameters.
-/

namespace OpenFHE
namespace Core

open NativeInteger

/-- A thrown exception with its text, or behaviour that the language leaves undefined. -/
inductive Fault where
  | thrown (message : String)
  | undefined
deriving DecidableEq, Repr

namespace Fault

def access {α : Type _} : Option α -> Except Fault α
  | none => .error .undefined
  | some x => .ok x

@[simp] theorem access_some {α : Type _} (x : α) : access (some x) = .ok x :=
  rfl

@[simp] theorem ok_bind {α β : Type _} (x : α) (f : α -> Except Fault β) :
    ((.ok x : Except Fault α) >>= f) = f x :=
  rfl

@[simp] theorem error_bind {α β : Type _} (e : Fault) (f : α -> Except Fault β) :
    ((.error e : Except Fault α) >>= f) = .error e :=
  rfl

end Fault

structure NativeVectorT where
  modulus : Nat
  data : List Nat
deriving DecidableEq, Repr

namespace NativeVectorT

def maxModulusSize : Nat := 60

/-- The vector of the constructor with a length and a modulus. -/
def zeros (length modulus : Nat) : NativeVectorT where
  modulus := modulus
  data := List.replicate length 0

def sizeMessage (value : Nat) : String :=
  "Requested modulus' size " ++ toString (getMSB value) ++ " is not supported." ++
    " NativeVectorT supports only modulus size <=  " ++ toString maxModulusSize

def parametersMessage : String :=
  "Called on NativeVectorT's with different parameters."

def setModulus (v : NativeVectorT) (value : Nat) : Except Fault NativeVectorT :=
  if getMSB value > maxModulusSize then .error (.thrown (sizeMessage value))
  else .ok { v with modulus := value }

/-- An entry is reduced by the modulus zero only if there is one. -/
def switchModulus (v : NativeVectorT) (modulus : Nat) : Except Fault NativeVectorT :=
  if modulus = 0 ∧ v.data ≠ [] then .error .undefined
  else
    setModulus { v with data := NativeVector.switchModulus v.modulus modulus v.data } modulus

def modMulInteger (v : NativeVectorT) (b : Nat) : Except Fault NativeVectorT := do
  let data <- Fault.access (NativeVector.modMulScalar v.modulus v.data b)
  return { v with data := data }

def modAddEq (v b : NativeVectorT) : Except Fault NativeVectorT :=
  if v.data.length ≠ b.data.length ∨ v.modulus ≠ b.modulus then
    .error (.thrown parametersMessage)
  else .ok { v with data := NativeVector.modAddNoCheckEq v.modulus v.data b.data }

def modSubEq (v b : NativeVectorT) : Except Fault NativeVectorT :=
  if v.data.length ≠ b.data.length ∨ v.modulus ≠ b.modulus then
    .error (.thrown parametersMessage)
  else .ok { v with data := List.zipWith (fun x y => modSubFast x y v.modulus) v.data b.data }

def modByTwoEq (v : NativeVectorT) : NativeVectorT :=
  { v with data := v.data.map fun x => 1 &&& (x ^^^ (if x > v.modulus >>> 1 then 1 else 0)) }

/-- `ModEq`: the entries are those of `SwitchModulus`, but the vector keeps its modulus. -/
def modEq (v : NativeVectorT) (modulus : Nat) : Except Fault NativeVectorT :=
  if modulus = 2 then .ok v.modByTwoEq
  else if modulus = 0 ∧ v.data ≠ [] then .error .undefined
  else .ok { v with data := NativeVector.switchModulus v.modulus modulus v.data }

/-- The vectors of `n` residues of the modulus `q`. -/
structure Valid (n q : Nat) (v : NativeVectorT) : Prop where
  modulus_eq : v.modulus = q
  residues : Residues n q v.data

structure Stands (n q : Nat) (f : Nat -> ZMod q) (v : NativeVectorT) : Prop where
  modulus_eq : v.modulus = q
  holds : Holds q n f v.data

theorem Valid.stands {n q : Nat} {v : NativeVectorT} (h : Valid n q v) :
    Stands n q (coefficient q v.data) v :=
  ⟨h.modulus_eq, h.residues.holds⟩

theorem Stands.valid {n q : Nat} {f : Nat -> ZMod q} {v : NativeVectorT}
    (h : Stands n q f v) : Valid n q v :=
  ⟨h.modulus_eq, h.holds.residues⟩

theorem zeros_valid {n q : Nat} (hq : 0 < q) : Valid n q (zeros n q) := by
  refine ⟨rfl, by simp [zeros], ?_⟩
  intro x hx
  rw [List.eq_of_mem_replicate hx]
  exact hq

/-!
## What the operations return
-/

theorem getMSB_gt_iff {value k : Nat} : getMSB value > k <-> 2 ^ k <= value := by
  constructor
  · intro h
    by_contra hlt
    exact absurd (getMSB_le (not_le.mp hlt)) (by omega)
  · intro h
    by_contra hle
    have hpos : 0 < value := lt_of_lt_of_le (by positivity) h
    have hhi := (getMSB_bounds hpos).2
    have hpow : 2 ^ getMSB value <= 2 ^ k := Nat.pow_le_pow_right (by decide) (by omega)
    omega

theorem setModulus_ok (v : NativeVectorT) {value : Nat} (h : value < 2 ^ maxModulusSize) :
    setModulus v value = .ok { v with modulus := value } := by
  rw [setModulus, if_neg]
  rw [getMSB_gt_iff]
  omega

theorem setModulus_throws (v : NativeVectorT) {value : Nat} (h : 2 ^ maxModulusSize <= value) :
    setModulus v value = .error (.thrown (sizeMessage value)) := by
  rw [setModulus, if_pos (getMSB_gt_iff.mpr h)]

theorem switchModulus_ok {v : NativeVectorT} {n old modulus : Nat} (hv : Valid n old v)
    (hold : old < 2 ^ maxBits) (hpos : 0 < modulus) (hlt : modulus < 2 ^ maxModulusSize) :
    exists w, switchModulus v modulus = .ok w ∧
      Stands n modulus
        (fun i => (NativeVector.centered old (v.data.getD i 0) : ZMod modulus)) w := by
  have hholds := NativeVector.switchModulus_spec hold hlt hpos hv.residues
  refine ⟨{ modulus := modulus, data := NativeVector.switchModulus old modulus v.data }, ?_,
    rfl, hholds⟩
  rw [switchModulus, if_neg (by omega), setModulus_ok _ hlt, hv.modulus_eq]

theorem switchModulus_throws {v : NativeVectorT} {modulus : Nat}
    (h : 2 ^ maxModulusSize <= modulus) :
    switchModulus v modulus = .error (.thrown (sizeMessage modulus)) := by
  have hpos : 0 < modulus := lt_of_lt_of_le (by decide) h
  rw [switchModulus, if_neg (by omega), setModulus_throws _ h]

theorem switchModulus_self {v : NativeVectorT} {n q : Nat} (hv : Valid n q v) (hpos : 0 < q)
    (hlt : q < 2 ^ maxModulusSize) : switchModulus v q = .ok v := by
  have hentry : forall x, x ∈ v.data -> modSub x 0 q = x := by
    intro x hx
    have hxq := hv.residues.2 x hx
    simp only [maxModulusSize] at hlt
    rw [modSub, if_neg (by omega), if_neg (by omega), modSubFast_eq (by omega) hxq hpos,
      Nat.sub_zero, Nat.add_mod_right, Nat.mod_eq_of_lt hxq]
  have hsame : NativeVector.switchModulus q q v.data = v.data := by
    unfold NativeVector.switchModulus
    have hdiff : subFast q q = 0 := by
      rw [subFast_eq le_rfl (by simp only [maxModulusSize, maxBits] at *; omega), Nat.sub_self]
    simp only [lt_irrefl, gt_iff_lt, if_false, hdiff, ite_self]
    exact (List.map_congr_left hentry).trans (List.map_id _)
  rw [switchModulus, if_neg (by omega), setModulus_ok _ hlt, hv.modulus_eq, hsame]
  cases hv.modulus_eq
  rfl

theorem modMulInteger_ok {v : NativeVectorT} {n q : Nat} {f : Nat -> ZMod q}
    (hv : Stands n q f v) (hpos : 0 < q) (hlt : q < 2 ^ maxModulusSize) (c : Nat) :
    exists w, modMulInteger v c = .ok w ∧ Stands n q (fun i => f i * c) w := by
  rcases NativeVector.modMulScalar_spec hlt hpos c hv.holds with ⟨data, hdata, hholds⟩
  refine ⟨{ v with data := data }, ?_, hv.modulus_eq, hholds⟩
  rw [modMulInteger, hv.modulus_eq, hdata]
  rfl

theorem modAddEq_ok {v b : NativeVectorT} {n q : Nat} {f g : Nat -> ZMod q}
    (hv : Stands n q f v) (hb : Stands n q g b) (hlt : q < 2 ^ maxModulusSize) :
    exists w, modAddEq v b = .ok w ∧ Stands n q (fun i => f i + g i) w := by
  have hholds := NativeVector.modAddNoCheckEq_spec hlt hv.holds hb.holds
  refine ⟨{ v with data := NativeVector.modAddNoCheckEq q v.data b.data }, ?_,
    hv.modulus_eq, hholds⟩
  have hsame : ¬ (v.data.length ≠ b.data.length ∨ v.modulus ≠ b.modulus) := by
    rw [hv.holds.length_eq, hb.holds.length_eq, hv.modulus_eq, hb.modulus_eq]
    simp
  rw [modAddEq, if_neg hsame, hv.modulus_eq]

end NativeVectorT

end Core
end OpenFHE
