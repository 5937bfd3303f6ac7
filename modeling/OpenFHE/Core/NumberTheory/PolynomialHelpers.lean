import OpenFHE.Core.NumberTheory.PolynomialProducts
import OpenFHE.Core.NumberTheory.PolynomialRemainder
import OpenFHE.Core.NumberTheory.SyntheticDivision

/-!
# Polynomial helpers over vectors

The four helpers are right for the lengths that their counters count and for the moduli whose
products of residues the integers of the vector keep.
-/

namespace OpenFHE
namespace Core

open Foundation NativeInteger Polynomial

namespace IntVectorType

/-- What the helpers are for, with vectors of `T` and the moduli that it admits. -/
structure PolynomialHelpers (T : IntVectorType) (Admits : Nat -> Prop) : Prop where
  multiplication {m la lb : Nat} : Admits m -> 1 <= la -> 1 <= lb -> la < 2 ^ 32 -> lb < 2 ^ 32 ->
    MultiplicationRight T m la lb
  polyMod {m lf lg : Nat} : Admits m -> 1 <= lg -> lg <= lf -> lf < 2 ^ 32 ->
    PolyModRight T m lf lg
  remainder {m L : Nat} : Admits m -> 1 <= L -> L < 2 ^ 32 -> RemainderRight T m L
  quotient {m L : Nat} : Admits m -> 1 <= L -> L < 2 ^ 32 -> QuotientRight T m L

/-- The helpers are right under conditions on products, on differences and on reductions. -/
structure HelpersExact (T : IntVectorType) (m : Nat) (products differences reductions : Prop) :
    Prop where
  multiplication {la lb : Nat} : 1 <= la -> 1 <= lb -> la < 2 ^ 32 -> lb < 2 ^ 32 ->
    (MultiplicationRight T m la lb <-> la + lb <= 2 ^ 32 ∧ products)
  polyMod {lf lg : Nat} : 1 <= lg -> lg <= lf -> lf < 2 ^ 32 ->
    (PolyModRight T m lf lg <-> lg = 1 ∨ differences)
  remainder {L : Nat} : 1 <= L -> L < 2 ^ 32 ->
    (RemainderRight T m L <->
      L = 1 ∨ (L <= 2 ^ 31 + 1 ∧ reductions) ∨ (2 ^ 31 + 1 < L ∧ m = 1))
  quotient {L : Nat} : 1 <= L -> L < 2 ^ 32 ->
    (QuotientRight T m L <->
      2 <= L ∧ (L = 2 ∨ (L <= 2 ^ 31 + 1 ∧ reductions) ∨ (2 ^ 31 + 1 < L ∧ m = 1)))

variable {T : IntVectorType} {m mu : Nat}

theorem helpersExact (hm : 0 < m) (hmu : T.computeMu m = .ok mu) (hsums : SumsProducts T m)
    (hcomm : Commutes T) (hkeep : KeepsResidues T m mu) (hzero : SubtractsZero T m mu) :
    HelpersExact T m (ProductsRight T m) (DifferencesRight T m mu) (ReductionsRight T m mu) := by
  constructor
  case multiplication =>
    intro la lb hla hlb halt hblt
    exact multiplicationRight_iff hm hsums hla hlb halt hblt
  case polyMod =>
    intro lf lg hone hle hlt
    exact polyModRight_iff hm hmu hzero hone hle hlt
  case remainder =>
    intro L hpos hlt
    exact remainderRight_iff hm hmu hkeep hpos hlt
  case quotient =>
    intro L hpos hlt
    exact quotientRight_iff hm hmu hkeep hcomm hpos hlt

theorem big_subtractsZero (hm : 0 < m) : SubtractsZero big m mu := by
  intro r a hr _
  show (Except.ok (Big.modSubEq r (a * 0) m) : Outcome Nat) = .ok r
  unfold Big.modSubEq
  rw [Nat.mul_zero, if_neg (not_le.mpr hm), if_neg (not_le.mpr hr)]
  dsimp only
  rw [if_neg (Nat.not_lt_zero r), Nat.sub_zero]

theorem native_subtractsZero (h60 : m < 2 ^ 60) : SubtractsZero native m mu := by
  intro r a hr _
  have hm : 0 < m := Nat.zero_lt_of_lt hr
  have hword : r < 2 ^ maxBits := (hr.trans h60).trans (by decide)
  have hmul : native.mul a 0 = 0 := by
    show word (0 * a) = 0
    rw [Nat.zero_mul]
    rfl
  show Native.modSubEqMu r (native.mul a 0) m mu = .ok r
  unfold Native.modSubEqMu
  rw [hmul, if_neg (not_le.mpr hr), ok_bind]
  dsimp only
  rw [if_neg (not_le.mpr hm), ok_bind, if_neg (Nat.not_lt_zero r),
    subFast_eq (Nat.zero_le r) hword, Nat.sub_zero]

theorem native_helpersExact (hm : 0 < m) (h60 : m < 2 ^ 60) :
    HelpersExact native m (FitsWord m) (FitsReciprocal m) (1 < m ∧ FitsReciprocal m) := by
  rcases native_computeMu hm with ⟨mu, hmu, hsome⟩
  have hexact := helpersExact hm hmu (native_sumsProducts h60) native_commutes
    (native_keepsResidues h60 hsome) (native_subtractsZero h60)
  rw [native_productsRight_iff (h60.trans (by decide)), native_differencesRight_iff hm h60 hsome,
    native_reductionsRight_iff hm h60 hsome] at hexact
  exact hexact

theorem big_helpersExact (hm : 0 < m) : HelpersExact big m True True True := by
  rcases big_computeMu hm with ⟨mu, hmu⟩
  have hexact := helpersExact hm hmu (big_sumsProducts hm) big_commutes
    (big_keepsResidues m mu) (big_subtractsZero hm)
  rw [iff_true_intro (big_productsRight m), iff_true_intro (big_differencesRight m mu),
    iff_true_intro (big_reductionsRight hm mu)] at hexact
  exact hexact

/-- Native vectors keep the products of small moduli, big ones all products. -/
theorem polynomialHelpers_exact {m : Nat} (hm : 0 < m) :
    (m < 2 ^ 60 ->
      HelpersExact native m (FitsWord m) (FitsReciprocal m) (1 < m ∧ FitsReciprocal m)) ∧
    HelpersExact big m True True True :=
  ⟨fun h60 => native_helpersExact hm h60, big_helpersExact hm⟩

theorem polynomialHelpers_exact_seventeen :
    (17 < 2 ^ 60 ->
      HelpersExact native 17 (FitsWord 17) (FitsReciprocal 17) (1 < 17 ∧ FitsReciprocal 17)) ∧
    HelpersExact big 17 True True True :=
  polynomialHelpers_exact (by decide)

/-- The square of `2 ^ 32` is cut off to zero, where it should be one modulo `2 ^ 32 + 1`; and a
constant has no place for the first entry of its quotient. -/
theorem not_polynomialHelpers :
    native.polynomialMultiplication ⟨[2 ^ 32], 2 ^ 32 + 1⟩ ⟨[2 ^ 32], 2 ^ 32 + 1⟩ =
      .ok ⟨[0], 2 ^ 32 + 1⟩ ∧
    native.syntheticPolynomialDivision ⟨[5], 17⟩ 3 17 = .error .undefined ∧
    ¬ PolynomialHelpers native (fun m => 0 < m ∧ m < 2 ^ 60) := by
  have hrun : native.polynomialMultiplication ⟨[2 ^ 32], 2 ^ 32 + 1⟩ ⟨[2 ^ 32], 2 ^ 32 + 1⟩ =
      .ok ⟨[0], 2 ^ 32 + 1⟩ := by
    decide +kernel
  refine ⟨hrun, by decide +kernel, ?_⟩
  intro h
  have hright : MultiplicationRight native (2 ^ 32 + 1) 1 1 :=
    h.multiplication ⟨by decide, by decide⟩ le_rfl le_rfl (by decide) (by decide)
  have hcoeffs := @constant_coefficients (2 ^ 32 + 1) (2 ^ 32) (by decide) 0
  rcases hright _ _ ⟨_, _⟩ ⟨_, _⟩ rfl rfl rfl hcoeffs hcoeffs with ⟨r, hr, _, _, hproduct⟩
  cases hrun.symm.trans hr
  have hcast := (hproduct.get 0 0 rfl).cast
  rw [mul_coeff_zero, coeff_C_zero, ← Nat.cast_mul, ZMod.natCast_eq_natCast_iff] at hcast
  exact absurd hcast (by decide)

end IntVectorType
end Core
end OpenFHE
