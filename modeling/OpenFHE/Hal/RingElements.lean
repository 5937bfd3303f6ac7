import OpenFHE.Foundation.NegacyclicRing
import OpenFHE.Hal.AutomorphismTransform

/-!
# Polynomials as ring elements

A polynomial in the evaluation format stands for the ring element whose transform are its values.
The operations of the polynomials are those of the ring.
-/

namespace OpenFHE
namespace Hal

open OpenFHE.Core Foundation NegacyclicRing

namespace Poly

/-- The values are the transform of the coefficients of `x`. -/
def StandsFor (k q psi : Nat) (x : NegacyclicRing (2 ^ k) (ZMod q)) (a : Poly) : Prop :=
  exists f, element (2 ^ k) f = x ∧
    Denotes q (2 ^ k) .EVALUATION (stageArray f (psi : ZMod q) 1 k) a

section Elements

variable {cache : TableCache} {k q psi : Nat} {x y : NegacyclicRing (2 ^ k) (ZMod q)} {a b : Poly}

theorem StandsFor.wellFormed (ha : StandsFor k q psi x a) :
    WellFormed q (2 ^ k) .EVALUATION a := by
  rcases ha with ⟨f, _, hf⟩
  exact hf.wellFormed

theorem zero_standsFor (hq : 0 < q) (psi : Nat) :
    StandsFor k q psi 0 (zero q (2 ^ k) .EVALUATION) := by
  refine ⟨fun _ => 0, element_zero, (zero_denotes hq (2 ^ k) .EVALUATION).congr fun i _ => ?_⟩
  rw [stageArray_last]
  simp

section Operations

variable (hq : NttModulus q) (ha : StandsFor k q psi x a) (hb : StandsFor k q psi y b)

include hq ha

theorem StandsFor.timesInteger (c : Nat) : exists r, a.timesInteger c = some r ∧
    StandsFor k q psi (constant (2 ^ k) (c : ZMod q) * x) r := by
  rcases ha with ⟨f, rfl, hf⟩
  rcases timesInteger_denotes hq c hf with ⟨r, hr, hden⟩
  refine ⟨r, hr, fun i => c * f i, element_scale _ f, hden.congr fun i _ => ?_⟩
  rw [stageArray_last, stageArray_last, Finset.sum_mul]
  apply Finset.sum_congr rfl
  intro j _
  ring

theorem StandsFor.negate : exists r, a.negate = some r ∧ StandsFor k q psi (-x) r := by
  rcases ha with ⟨f, rfl, hf⟩
  rcases negate_denotes hq hf with ⟨r, hr, hden⟩
  refine ⟨r, hr, fun i => -f i, element_neg f, hden.congr fun i _ => ?_⟩
  rw [stageArray_last, stageArray_last, <- Finset.sum_neg_distrib]
  apply Finset.sum_congr rfl
  intro j _
  ring

include hb

theorem StandsFor.plusEq : exists r, a.plusEq b = some r ∧ StandsFor k q psi (x + y) r := by
  rcases ha with ⟨f, rfl, hf⟩
  rcases hb with ⟨g, rfl, hg⟩
  rcases plusEq_denotes hq hf hg with ⟨r, hr, hden⟩
  refine ⟨r, hr, fun i => f i + g i, element_add f g, hden.congr fun i _ => ?_⟩
  rw [stageArray_last, stageArray_last, stageArray_last, <- Finset.sum_add_distrib]
  apply Finset.sum_congr rfl
  intro j _
  ring

theorem StandsFor.minusEq : exists r, a.minusEq b = some r ∧ StandsFor k q psi (x - y) r := by
  rcases ha with ⟨f, rfl, hf⟩
  rcases hb with ⟨g, rfl, hg⟩
  rcases minusEq_denotes hq hf hg with ⟨r, hr, hden⟩
  refine ⟨r, hr, fun i => f i - g i, element_sub f g, hden.congr fun i _ => ?_⟩
  rw [stageArray_last, stageArray_last, stageArray_last, <- Finset.sum_sub_distrib]
  apply Finset.sum_congr rfl
  intro j _
  ring

theorem StandsFor.times (hroot : (psi : ZMod q) ^ 2 ^ k = -1) :
    exists r, a.times b = some r ∧ StandsFor k q psi (x * y) r := by
  have : Fact (1 < q) := ⟨hq.one_lt⟩
  rcases ha with ⟨f, rfl, hf⟩
  rcases hb with ⟨g, rfl, hg⟩
  rcases times_denotes hq hf hg with ⟨r, hr, hden⟩
  refine ⟨r, hr, negacyclicMul (2 ^ k) f g, element_mul (Nat.two_pow_pos k) f g,
    hden.congr fun i _ => ?_⟩
  exact Transform.stageArray_negacyclicMul hroot f g i

end Operations

section Formats

variable (hk : 0 < k) (hready : Ready cache k q psi)

include hk hready

theorem Denotes.standsFor {f : Nat -> ZMod q} (ha : Denotes q (2 ^ k) .COEFFICIENT f a) :
    exists r, a.setFormat cache .EVALUATION = some r ∧
      StandsFor k q psi (element (2 ^ k) f) r := by
  rcases switchFormat_evaluation hk hready ha with ⟨r, hr, hden⟩
  refine ⟨r, ?_, f, rfl, hden⟩
  rw [setFormat, if_neg (by rw [ha.format_eq]; decide), hr]

theorem StandsFor.coefficients (hk31 : k <= 31) (ha : StandsFor k q psi x a) :
    exists r, a.setFormat cache .COEFFICIENT = some r ∧ WellFormed q (2 ^ k) .COEFFICIENT r ∧
      element (2 ^ k) (fun i => (r.value i : ZMod q)) = x := by
  rcases ha with ⟨f, rfl, hf⟩
  rcases switchFormat_coefficient hk hready hk31 hf with ⟨r, hr, hden⟩
  refine ⟨r, ?_, hden.wellFormed, ?_⟩
  · rw [setFormat, if_neg (by rw [hf.format_eq]; decide), hr]
  · exact element_congr fun i hi => hden.value_eq hi

theorem WellFormed.exists_standsFor (hk31 : k <= 31) (ha : WellFormed q (2 ^ k) .EVALUATION a) :
    exists x, StandsFor k q psi x a := by
  rcases switchFormat_transforms hk hready hk31 ha with ⟨b, _, htransforms⟩
  exact ⟨_, _, rfl, htransforms.eval_denotes⟩

theorem StandsFor.automorphism (hk24 : k <= 24) {i : Nat} (hi : i % 2 = 1) (hi32 : i < 2 ^ 32)
    (ha : StandsFor k q psi x a) : exists r, a.automorphismTransform i = some r ∧
      StandsFor k q psi (NegacyclicRing.automorphism (2 ^ k) (ZMod q) i hi x) r := by
  have : Fact (1 < q) := ⟨hready.modulus.one_lt⟩
  rcases ha with ⟨f, rfl, hf⟩
  rcases automorphismTransform_denotes hk hk24 hi hi32 hf with ⟨r, hr, hden⟩
  refine ⟨r, hr, negacyclicAutomorphism (2 ^ k) i f,
    (automorphism_element hi (Nat.two_pow_pos k) f).symm, hden.congr fun j _ => ?_⟩
  exact stageArray_autoPosition hready.root hi f j

theorem StandsFor.automorphismMap (hk24 : k <= 24) {i : Nat} (hi : i % 2 = 1)
    (ha : StandsFor k q psi x a) : exists vec r, precomputeAutoMap (2 ^ k) i = some vec ∧
      a.automorphismTransformMap i vec = some r ∧
      StandsFor k q psi (NegacyclicRing.automorphism (2 ^ k) (ZMod q) i hi x) r := by
  have : Fact (1 < q) := ⟨hready.modulus.one_lt⟩
  rcases ha with ⟨f, rfl, hf⟩
  rcases precomputeAutoMap_spec (by omega) hk hk24 (i := i) with ⟨vec, hvec, _, hentries⟩
  rcases automorphismTransformMap_denotes hf hi hentries (fun j _ => autoPosition_lt k i j) with
    ⟨r, hr, hden⟩
  refine ⟨vec, r, hvec, hr, negacyclicAutomorphism (2 ^ k) i f,
    (automorphism_element hi (Nat.two_pow_pos k) f).symm, hden.congr fun j _ => ?_⟩
  exact stageArray_autoPosition hready.root hi f j

end Formats

theorem StandsFor.unique (hk : 0 < k) (hready : Ready cache k q psi) (hk31 : k <= 31)
    (hx : StandsFor k q psi x a) (hy : StandsFor k q psi y a) : x = y := by
  rcases hx.coefficients hk hready hk31 with ⟨r, hr, _, hrx⟩
  rcases hy.coefficients hk hready hk31 with ⟨r', hr', _, hry⟩
  rw [hr] at hr'
  cases hr'
  rw [<- hrx, hry]

end Elements

end Poly

end Hal
end OpenFHE
