import OpenFHE.Core.ReverseBits
import OpenFHE.Core.NativeInteger.ModInverse
import OpenFHE.Foundation.Automorphism
import Mathlib.Data.Nat.Totient

/-!
# Automorphism indices

The rotation generators of `FindAutomorphismIndex2n` and
`FindAutomorphismIndex2nComplex`, and the permutation of the values in the
evaluation format that `PrecomputeAutoMap` tabulates.
-/

namespace OpenFHE
namespace Core

open Foundation NativeInteger

/-- `round(log2(x))` of a power of two. -/
def roundLog2 (x : Nat) : Nat := Nat.log2 x

/-- One entry of the map; a store past its end is out of bounds. -/
def autoMapStep (n k logm logn : Nat) (precomp : List Nat) (j : Nat) : Option (List Nat) := do
  let jTmp := usint ((j <<< 1 : Nat) + 1)
  let product := usint (jTmp * k : Nat)
  let idx := usint ((product : Int) - usint (product >>> logm <<< logm : Nat)) >>> 1
  let jrev <- reverseBits j logn
  let idxrev <- reverseBits idx logn
  if jrev < n then some (precomp.set jrev idxrev) else none

def precomputeAutoMap (n k : Nat) : Option (List Nat) :=
  let m := usint (n <<< 1 : Nat)
  let logm := roundLog2 m
  let logn := roundLog2 n
  (List.range n).foldlM (autoMapStep n k logm logn) (List.replicate n 0)

/-- The product `(g * g0) % m` of the rotation loops, in `uint32_t`. -/
def generatorStep (m g0 g : Nat) : Nat := usint (g * g0 : Nat) % m

def findAutomorphismIndex2n (i : Int) (m : Nat) : Option Nat :=
  if i = 0 then some 1
  else if m = 0 then none
  else do
    let n := Nat.totient m
    let f1 <- (if i < 0 then modInverse 5 m else some 5)
    let f2 <- (if i < 0 then modInverse (m - 1) m else some (m - 1))
    let iUnsigned := i.natAbs
    if iUnsigned < n / 2 then
      return (generatorStep m f1)^[iUnsigned - 1] f1
    else return (generatorStep m f1)^[iUnsigned - n / 2] f2

/-- The product of the 64-bit loop, reduced by a mask. -/
def generatorMask (m g0 g : Nat) : Nat := word (g * g0) &&& (m - 1)

def findAutomorphismIndex2nComplex (i : Int) (m : Nat) : Option Nat :=
  if i = 0 then some 1
  else if i = int32 m - 1 then some (usint i)
  else if ¬ m.isPowerOfTwo then none
  else do
    let g0 <- (if i < 0 then modInverse 5 m else some 5)
    return usint ((generatorMask m g0)^[i.natAbs - 1] g0)

/-!
## Rotation indices are odd

The order is a power of two above two, so every generator and every product of
generators stays odd.
-/

theorem iterate_odd {f : Nat -> Nat} (hf : forall g, g % 2 = 1 -> f g % 2 = 1) (c : Nat)
    {g : Nat} (hg : g % 2 = 1) : f^[c] g % 2 = 1 := by
  induction c generalizing g with
  | zero => exact hg
  | succ c ih => exact ih (hf g hg)

theorem mul_odd {g g0 : Nat} (hg : g % 2 = 1) (hg0 : g0 % 2 = 1) : g * g0 % 2 = 1 := by
  rw [Nat.mul_mod, hg, hg0]

theorem usint_natCast (x : Nat) : usint (x : Int) = x % 2 ^ 32 := by
  unfold usint
  omega

section Rotation

variable {k : Nat} (hk : 1 < k) (hk32 : k < 32)

include hk hk32

theorem modInverse_odd {x : Nat} (hx : x % 2 = 1) :
    exists inv, modInverse x (2 ^ k) = some inv ∧ inv % 2 = 1 := by
  have hone : 1 < 2 ^ k := Nat.one_lt_two_pow (by omega)
  have hsmall : 2 ^ k < 2 ^ 62 := Nat.pow_lt_pow_right (by decide) (by omega)
  have hgcd : Nat.gcd x (2 ^ k) = 1 :=
    Nat.Coprime.pow_right k (Nat.coprime_two_right.mpr (Nat.odd_iff.mpr hx))
  cases modInverse_spec hone (by omega) hgcd with
  | intro inv hinv =>
      refine ⟨inv, hinv.1, ?_⟩
      have hparity := congrArg (· % 2) hinv.2.2
      simp only [Nat.mod_mod_of_dvd _ (dvd_pow_self 2 (show k ≠ 0 by omega))] at hparity
      rw [Nat.mul_mod, hx, one_mul, Nat.mod_mod] at hparity
      exact hparity

theorem generatorStep_odd {g0 : Nat} (hg0 : g0 % 2 = 1) :
    forall g, g % 2 = 1 -> generatorStep (2 ^ k) g0 g % 2 = 1 := by
  intro g hg
  rw [generatorStep, Nat.mod_mod_of_dvd _ (dvd_pow_self 2 (show k ≠ 0 by omega)),
    usint_natCast, Nat.mod_mod_of_dvd _ (by decide)]
  exact mul_odd hg hg0

theorem findAutomorphismIndex2n_odd (i : Int) :
    exists g, findAutomorphismIndex2n i (2 ^ k) = some g ∧ g % 2 = 1 := by
  have heven : 2 ^ k % 2 = 0 := Nat.mod_eq_zero_of_dvd (dvd_pow_self 2 (by omega))
  have hpos := Nat.two_pow_pos k
  unfold findAutomorphismIndex2n
  by_cases hzero : i = 0
  · rw [if_pos hzero]
    exact ⟨1, rfl, rfl⟩
  · rw [if_neg hzero, if_neg hpos.ne']
    have hgenerators : exists f1 f2,
        (if i < 0 then modInverse 5 (2 ^ k) else some 5) = some f1 ∧
        (if i < 0 then modInverse (2 ^ k - 1) (2 ^ k) else some (2 ^ k - 1)) = some f2 ∧
        f1 % 2 = 1 ∧ f2 % 2 = 1 := by
      split
      next hneg =>
          rcases modInverse_odd hk hk32 (x := 5) rfl with ⟨f1, hf1, hodd1⟩
          rcases modInverse_odd hk hk32 (x := 2 ^ k - 1) (by omega) with ⟨f2, hf2, hodd2⟩
          exact ⟨f1, f2, hf1, hf2, hodd1, hodd2⟩
      next hpos' =>
          exact ⟨5, 2 ^ k - 1, rfl, rfl, rfl, by omega⟩
    rcases hgenerators with ⟨f1, f2, hf1, hf2, hodd1, hodd2⟩
    dsimp only
    rw [hf1, hf2]
    simp only [Option.bind_eq_bind, Option.bind_some]
    split
    next hlow =>
        exact ⟨_, rfl, iterate_odd (generatorStep_odd hk hk32 hodd1) _ hodd1⟩
    next hhigh =>
        exact ⟨_, rfl, iterate_odd (generatorStep_odd hk hk32 hodd1) _ hodd2⟩

end Rotation

/-!
## The map
-/

section Map

variable {k i : Nat} (hk31 : k < 31)

include hk31

theorem autoMap_index {j : Nat} (hj : j < 2 ^ k) :
    usint ((usint (usint ((j <<< 1 : Nat) + 1) * i : Nat) : Int) -
        usint (usint (usint ((j <<< 1 : Nat) + 1) * i : Nat) >>> (k + 1) <<< (k + 1) : Nat))
      >>> 1 = (2 * j + 1) * i % 2 ^ (k + 1) / 2 := by
  have hsmall : 2 ^ (k + 1) <= 2 ^ 31 := Nat.pow_le_pow_right (by decide) (by omega)
  have hdvd : 2 ^ (k + 1) ∣ 2 ^ 32 := pow_dvd_pow 2 (by omega)
  have hjTmp : usint ((j <<< 1 : Nat) + 1) = 2 * j + 1 := by
    rw [Nat.shiftLeft_eq, pow_one, ← Nat.cast_add_one, usint_natCast,
      Nat.mod_eq_of_lt (by rw [pow_succ] at hsmall; omega)]
    omega
  rw [hjTmp, usint_natCast ((2 * j + 1) * i), usint_natCast (_ <<< (k + 1)),
    Nat.shiftRight_eq_div_pow, Nat.shiftRight_eq_div_pow _ (k + 1), Nat.shiftLeft_eq]
  generalize hproduct : (2 * j + 1) * i % 2 ^ 32 = product
  have hlt : product < 2 ^ 32 := by
    rw [← hproduct]
    exact Nat.mod_lt _ (by decide)
  have hmod : (2 * j + 1) * i % 2 ^ (k + 1) = product % 2 ^ (k + 1) := by
    rw [← hproduct, Nat.mod_mod_of_dvd _ hdvd]
  have hsplit := Nat.div_add_mod' product (2 ^ (k + 1))
  have hle : product / 2 ^ (k + 1) * 2 ^ (k + 1) <= product := Nat.div_mul_le_self _ _
  rw [Nat.mod_eq_of_lt (by omega), ← Nat.cast_sub hle, usint_natCast,
    Nat.mod_eq_of_lt (by omega), pow_one, hmod]
  congr 1
  omega

theorem precomputeAutoMap_unfold :
    precomputeAutoMap (2 ^ k) i = (List.range (2 ^ k)).foldlM
      (autoMapStep (2 ^ k) i (k + 1) k) (List.replicate (2 ^ k) 0) := by
  have hsmall : 2 ^ k * 2 < 2 ^ 32 := by
    rw [← pow_succ]
    exact Nat.pow_lt_pow_right (by decide) (by omega)
  unfold precomputeAutoMap roundLog2
  dsimp only
  rw [Nat.shiftLeft_eq, pow_one, usint_natCast, Nat.mod_eq_of_lt hsmall, ← pow_succ,
    Nat.log2_two_pow, Nat.log2_two_pow]

theorem precomputeAutoMap_spec (hk : 0 < k) (hk24 : k <= 24) :
    exists vec, precomputeAutoMap (2 ^ k) i = some vec ∧ vec.length = 2 ^ k ∧
      forall r, r < 2 ^ k -> vec[r]? = some (autoPosition k i r) := by
  rw [precomputeAutoMap_unfold hk31]
  have hrun := foldlM_range_spec (n := 2 ^ k) (f := autoMapStep (2 ^ k) i (k + 1) k)
    (fun c vec => vec.length = 2 ^ k ∧
      forall j, j < c -> vec[bitReverse k j]? =
        some (bitReverse k ((2 * j + 1) * i % 2 ^ (k + 1) / 2)))
    (s := List.replicate (2 ^ k) 0)
    ⟨List.length_replicate, fun j hj => absurd hj (Nat.not_lt_zero j)⟩
    (by
      intro c hc vec hvec
      have hidx : (2 * c + 1) * i % 2 ^ (k + 1) / 2 < 2 ^ k := by
        rw [Nat.div_lt_iff_lt_mul (by decide), ← pow_succ]
        exact Nat.mod_lt _ (Nat.two_pow_pos _)
      have hjrev := reverseBits_low hk hk24 hc
      have hidxrev := reverseBits_low hk hk24 hidx
      have hlt := bitReverse_lt k c
      refine ⟨vec.set (bitReverse k c)
        (bitReverse k ((2 * c + 1) * i % 2 ^ (k + 1) / 2)), ?_, ?_, ?_⟩
      · unfold autoMapStep
        dsimp only
        rw [autoMap_index hk31 hc, hjrev, hidxrev]
        exact if_pos hlt
      · rw [List.length_set, hvec.1]
      · intro j hj
        rcases Nat.lt_or_ge j c with hbelow | hge
        · rw [List.getElem?_set_ne]
          · exact hvec.2 j hbelow
          · intro heq
            have hsame := bitReverse_injOn k hc (by omega) heq
            omega
        · have heq : j = c := by omega
          rw [heq, List.getElem?_set_self (by rw [hvec.1]; exact hlt)])
  cases hrun with
  | intro vec hvec =>
      refine ⟨vec, hvec.1, hvec.2.1, ?_⟩
      intro r hr
      have hentry := hvec.2.2 (bitReverse k r) (bitReverse_lt k r)
      rwa [bitReverse_bitReverse k hr] at hentry

theorem precomputeAutoMap_eq_none (hk : k = 0 ∨ 24 < k) :
    precomputeAutoMap (2 ^ k) i = none := by
  rw [precomputeAutoMap_unfold hk31]
  cases hk with
  | inl hzero =>
      refine foldlM_eq_none (x := 0) (List.mem_range.mpr (Nat.two_pow_pos k)) ?_ _
      intro s
      rw [hzero]
      rfl
  | inr hlarge =>
      have hone : 1 < 2 ^ k := Nat.one_lt_two_pow (by omega)
      have hhalf : 2 ^ k * 2 <= 2 ^ 32 := by
        rw [← pow_succ]
        exact Nat.pow_le_pow_right (by decide) (by omega)
      refine foldlM_eq_none (x := 1) (List.mem_range.mpr hone) ?_ _
      intro s
      have hjrev := reverseBits_high hlarge (by omega) hone
      rw [if_neg (by decide)] at hjrev
      unfold autoMapStep
      dsimp only
      rw [hjrev]
      cases reverseBits _ k with
      | none => rfl
      | some idxrev => exact if_neg (by omega)

end Map

end Core
end OpenFHE
