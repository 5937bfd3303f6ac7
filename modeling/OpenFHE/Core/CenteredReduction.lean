import OpenFHE.Core.NativeVectorT
import Mathlib.Data.Nat.Bitwise
import Mathlib.Data.ZMod.ValMinAbs

/-!
# Centered reduction

`SwitchModulus`, `Mod` and `ModEq` reduce the centered lift of every entry.  The modulus
two has a parity rule of its own, `ModByTwo`, which assumes that the old modulus is odd.
-/

namespace OpenFHE
namespace Core

open NativeInteger

namespace NativeVector

/-- The representative below `modulus` of the centered lift of a residue of `old`. -/
def centeredResidue (old modulus x : Nat) : Nat :=
  (centered old x % (modulus : Int)).toNat

section Lift

variable (old : Nat) {modulus : Nat} (x : Nat)

theorem centered_eq_valMinAbs {old x : Nat} [NeZero old] (hx : x < old) :
    centered old x = (x : ZMod old).valMinAbs := by
  unfold centered
  rw [Nat.shiftRight_one]
  split
  next hhalf => exact (ZMod.valMinAbs_natCast_of_half_lt hhalf hx).symm
  next hhalf => exact (ZMod.valMinAbs_natCast_of_le_half (by omega)).symm

theorem centeredResidue_cast (hpos : 0 < modulus) :
    (centeredResidue old modulus x : Int) = centered old x % modulus :=
  Int.toNat_of_nonneg (Int.emod_nonneg _ (by omega))

theorem represents_centeredResidue (hpos : 0 < modulus) :
    Represents modulus (centered old x) (centeredResidue old modulus x) := by
  constructor
  · have hlt := Int.emod_lt_of_pos (centered old x) (by omega : (0 : Int) < modulus)
    have hcast := centeredResidue_cast old x hpos
    omega
  · have hcast := congrArg (Int.cast : Int -> ZMod modulus)
      (centeredResidue_cast old x hpos)
    rw [Int.cast_natCast] at hcast
    rw [hcast, ZMod.intCast_mod]

end Lift

theorem switchModulus_eq_map {old modulus n : Nat} (hold : old < 2 ^ maxBits)
    (hmodulus : modulus < 2 ^ 60) (hpos : 0 < modulus) {a : List Nat}
    (ha : Residues n old a) :
    switchModulus old modulus a = a.map (centeredResidue old modulus) := by
  apply (switchModulus_spec hold hmodulus hpos ha).unique
  constructor
  · rw [List.length_map, ha.1]
  · intro i z hz
    rw [List.getElem?_map, Option.map_eq_some_iff] at hz
    rcases hz with ⟨x, hx, rfl⟩
    rw [List.getD_eq_getElem?_getD, hx]
    exact represents_centeredResidue old x hpos

end NativeVector

namespace NativeVectorT

/-- `Mod`, the variant of `ModEq` that works on a copy. -/
def mod (v : NativeVectorT) (modulus : Nat) : Except Fault NativeVectorT :=
  v.modEq modulus

def modByTwo (v : NativeVectorT) : NativeVectorT :=
  v.modByTwoEq

def centeredData (v : NativeVectorT) (modulus : Nat) : List Nat :=
  v.data.map (NativeVector.centeredResidue v.modulus modulus)

structure ReducesCentered (v : NativeVectorT) (modulus : Nat) : Prop where
  switchModulus_eq :
    v.switchModulus modulus = .ok { modulus := modulus, data := v.centeredData modulus }
  mod_eq : v.mod modulus = .ok { v with data := v.centeredData modulus }
  modEq_eq : v.modEq modulus = .ok { v with data := v.centeredData modulus }
  modByTwo_data : modulus = 2 -> v.modByTwo.data = v.centeredData modulus
  modByTwoEq_data : modulus = 2 -> v.modByTwoEq.data = v.centeredData modulus

/-!
## The parity rule
-/

/-- One entry of `ModByTwoEq`. -/
def parity (old x : Nat) : Nat :=
  1 &&& (x ^^^ (if x > old >>> 1 then 1 else 0))

theorem modByTwoEq_data_eq (v : NativeVectorT) :
    v.modByTwoEq.data = v.data.map (parity v.modulus) :=
  rfl

theorem parity_eq (old x : Nat) : parity old x = (x + if x > old / 2 then 1 else 0) % 2 := by
  rw [parity, Nat.one_and_eq_mod_two, Nat.xor_mod_two_eq, Nat.shiftRight_one]

theorem parity_eq_centeredResidue_iff (old x : Nat) :
    parity old x = NativeVector.centeredResidue old 2 x <-> old % 2 = 1 ∨ x <= old / 2 := by
  have hcast := NativeVector.centeredResidue_cast old x (by decide : 0 < 2)
  rw [NativeVector.centered, Nat.shiftRight_one] at hcast
  rw [parity_eq]
  split at hcast
  next hhalf =>
      rw [if_pos hhalf]
      omega
  next hhalf =>
      rw [if_neg hhalf]
      omega

theorem modByTwoEq_data_iff (v : NativeVectorT) :
    v.modByTwoEq.data = v.centeredData 2 <->
      v.modulus % 2 = 1 ∨ forall x, x ∈ v.data -> x <= v.modulus / 2 := by
  rw [modByTwoEq_data_eq, centeredData, List.map_inj_left]
  constructor
  · intro hall
    rcases Nat.mod_two_eq_zero_or_one v.modulus with heven | hodd
    · apply Or.inr
      intro x hx
      cases (parity_eq_centeredResidue_iff v.modulus x).mp (hall x hx) with
      | inl hodd => omega
      | inr hle => exact hle
    · exact Or.inl hodd
  · intro hcases x hx
    apply (parity_eq_centeredResidue_iff v.modulus x).mpr
    cases hcases with
    | inl hodd => exact Or.inl hodd
    | inr hle => exact Or.inr (hle x hx)

/-!
## The generic rule
-/

section Generic

variable {v : NativeVectorT} {n old modulus : Nat} (hv : Valid n old v)
  (hold : old < 2 ^ maxModulusSize) (hpos : 0 < modulus) (hlt : modulus < 2 ^ maxModulusSize)

include hv hold hpos hlt

theorem switchModulus_data_eq :
    NativeVector.switchModulus v.modulus modulus v.data = v.centeredData modulus := by
  cases hv.modulus_eq
  exact NativeVector.switchModulus_eq_map
    (by simp only [maxModulusSize, maxBits] at *; omega) hlt hpos hv.residues

theorem switchModulus_centered :
    v.switchModulus modulus = .ok { modulus := modulus, data := v.centeredData modulus } := by
  rw [switchModulus, if_neg (by omega), setModulus_ok _ hlt,
    switchModulus_data_eq hv hold hpos hlt]

theorem modEq_centered (hne : modulus ≠ 2) :
    v.modEq modulus = .ok { v with data := v.centeredData modulus } := by
  rw [modEq, if_neg hne, if_neg (by omega), switchModulus_data_eq hv hold hpos hlt]

end Generic

/--
All variants reduce the centered lifts, except that the modulus two needs an odd old modulus
or entries of its lower half.
-/
theorem reducesCentered_iff {v : NativeVectorT} {n old modulus : Nat} (hv : Valid n old v)
    (hold : old < 2 ^ maxModulusSize) (hmodulus : 2 <= modulus)
    (hlt : modulus < 2 ^ maxModulusSize) :
    v.ReducesCentered modulus <->
      (modulus = 2 -> old % 2 = 1 ∨ forall x, x ∈ v.data -> x <= old / 2) := by
  have hswitch := switchModulus_centered hv hold (by omega) hlt
  constructor
  · intro h htwo
    cases htwo
    cases hv.modulus_eq
    exact (modByTwoEq_data_iff v).mp (h.modByTwoEq_data rfl)
  · intro hcases
    rcases eq_or_ne modulus 2 with htwo | hne
    · cases htwo
      cases hv.modulus_eq
      have hdata := (modByTwoEq_data_iff v).mpr (hcases rfl)
      have hmod : v.modEq 2 = .ok { v with data := v.centeredData 2 } := by
        rw [← hdata]
        rfl
      exact ⟨hswitch, hmod, hmod, fun _ => hdata, fun _ => hdata⟩
    · have hmod := modEq_centered hv hold (by omega) hlt hne
      exact ⟨hswitch, hmod, hmod, fun h => absurd h hne, fun h => absurd h hne⟩

theorem reducesCentered_odd :
    ({ modulus := 7, data := [0, 3, 4, 6] } : NativeVectorT).ReducesCentered 2 :=
  (reducesCentered_iff (n := 4) ⟨rfl, rfl, by decide⟩ (by decide) (by decide)
    (by decide)).mpr (fun _ => Or.inl rfl)

/-- The centered lift of `3` modulo `4` is `-1`, which is odd. -/
theorem modByTwo_even_modulus :
    Valid 1 4 { modulus := 4, data := [3] } ∧
      ¬ ({ modulus := 4, data := [3] } : NativeVectorT).ReducesCentered 2 := by
  constructor
  · exact ⟨rfl, rfl, by decide⟩
  · intro h
    exact absurd (h.modByTwo_data rfl) (by decide)

end NativeVectorT

end Core
end OpenFHE
