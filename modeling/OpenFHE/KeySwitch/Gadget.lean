import OpenFHE.Hal.DCRTPoly
import Mathlib.Algebra.BigOperators.Ring.Finset
import Mathlib.Tactic.LinearCombination

/-!
# Gadget key switching

The algebra behind key switching, over any commutative ring: a key encrypts the
old secret times a gadget, and digits that recompose through the gadget turn the
key into an encryption of the product.
-/

namespace OpenFHE
namespace KeySwitch

structure EvalKey where
  av : List Hal.DCRTPoly
  bv : List Hal.DCRTPoly
deriving DecidableEq, Repr

def ceilDiv (a b : Nat) : Nat := (a + b - 1) / b

theorem ceilDiv_bounds {a b : Nat} (hb : 0 < b) :
    a <= ceilDiv a b * b ∧ ceilDiv a b * b < a + b := by
  have hdiv := Nat.div_add_mod' (a + b - 1) b
  have hmod := Nat.mod_lt (a + b - 1) hb
  unfold ceilDiv
  omega

section Gadget

variable {R ι : Type _} [CommRing R] (digits : Finset ι) (gadget noise a b : ι -> R)
  (sNew sOld ns : R)

/-- Every component has the phase of its gadget element, up to scaled noise. -/
def IsGadgetKey : Prop :=
  forall j, j ∈ digits -> b j + a j * sNew = gadget j * sOld + ns * noise j

variable {digits gadget noise a b sNew sOld ns}

theorem IsGadgetKey.switch (h : IsGadgetKey digits gadget noise a b sNew sOld ns)
    {d : ι -> R} {c : R} (hc : ∑ j ∈ digits, d j * gadget j = c) :
    (∑ j ∈ digits, d j * b j) + (∑ j ∈ digits, d j * a j) * sNew =
      c * sOld + ns * ∑ j ∈ digits, d j * noise j := by
  rw [← hc, Finset.sum_mul, Finset.sum_mul, Finset.mul_sum, ← Finset.sum_add_distrib,
    ← Finset.sum_add_distrib]
  refine Finset.sum_congr rfl fun j hj => ?_
  linear_combination d j * h j hj

theorem joint_key (n : Nat) (a g ns : R) (b s e ea eb : Nat -> R)
    (h : forall i, i < n -> b i + a * s i = g * s i + ns * e i) :
    (∑ i ∈ Finset.range n, ((∑ i ∈ Finset.range n, b i) * s i + ns * eb i)) +
        (∑ i ∈ Finset.range n, (a * s i + ns * ea i)) * ∑ i ∈ Finset.range n, s i =
      g * (∑ i ∈ Finset.range n, s i) ^ 2 +
        ns * ((∑ i ∈ Finset.range n, s i) * ∑ i ∈ Finset.range n, e i +
          ∑ i ∈ Finset.range n, eb i +
          (∑ i ∈ Finset.range n, s i) * ∑ i ∈ Finset.range n, ea i) := by
  have hsum : ∑ i ∈ Finset.range n, b i + a * ∑ i ∈ Finset.range n, s i =
      g * ∑ i ∈ Finset.range n, s i + ns * ∑ i ∈ Finset.range n, e i := by
    rw [Finset.mul_sum, Finset.mul_sum, Finset.mul_sum, ← Finset.sum_add_distrib,
      ← Finset.sum_add_distrib]
    exact Finset.sum_congr rfl fun i hi => h i (Finset.mem_range.mp hi)
  rw [Finset.sum_add_distrib, Finset.sum_add_distrib, ← Finset.mul_sum, ← Finset.mul_sum,
    ← Finset.mul_sum, ← Finset.mul_sum]
  linear_combination (∑ i ∈ Finset.range n, s i) * hsum

end Gadget

end KeySwitch
end OpenFHE
