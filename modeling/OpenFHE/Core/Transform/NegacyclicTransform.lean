import OpenFHE.Core.Transform.Inverse
import OpenFHE.Foundation.Negacyclic
import Mathlib.RingTheory.RootsOfUnity.PrimitiveRoots
import Mathlib.FieldTheory.Finite.Basic
import Mathlib.NumberTheory.LucasPrimality

/-!
# The negacyclic transform

Forward transform, pointwise product and inverse transform with the tables of
one `preCompute` call.  The contract of the three holds exactly up to the ring
dimension `2 ^ 24`: beyond it the bit reversal of an odd index leaves the table.
-/

namespace OpenFHE
namespace Core
namespace Transform

open Foundation NativeInteger

/-- `ForwardTransformToBitReverseInPlace` of `ChineseRemainderTransformFTTNat`. -/
def forwardTransform (modulus : Nat) (tables : TransformTables) (element : List Nat) :
    Option (List Nat) :=
  forwardTransformToBitReverseInPlace modulus tables.rootOfUnityReverseTable
    tables.rootOfUnityPreconReverseTable element

/-- `InverseTransformFromBitReverseInPlace` of `ChineseRemainderTransformFTTNat`. -/
def inverseTransform (modulus cycloOrder : Nat) (tables : TransformTables)
    (element : List Nat) : Option (List Nat) := do
  let msb := getMSB (usint (((cycloOrder >>> 1 : Nat) : Int) - 1))
  let cycloOrderInv <- tables.cycloOrderInverseTable[msb]?
  let preconCycloOrderInv <- tables.cycloOrderInversePreconTable[msb]?
  inverseTransformFromBitReverseInPlace modulus tables.rootOfUnityInverseReverseTable
    tables.rootOfUnityInversePreconReverseTable cycloOrderInv preconCycloOrderInv element

/-- The sum that the forward transform leaves at the reversed position of `i`. -/
def evaluation (psi : Nat) (a : List Nat) (i : Nat) : Nat :=
  ∑ j ∈ Finset.range a.length, a.getD j 0 * psi ^ ((2 * i + 1) * j)

/--
The contract of the transforms for the ring dimension `n`, the modulus `q` and
the root `psi`, with the tables that `preCompute` builds.
-/
def TransformContract (n q psi : Nat) : Prop :=
  exists tables, preCompute psi (2 * n) q = some tables ∧
    (forall a, Residues n q a -> exists r, forwardTransform q tables a = some r ∧
      Residues n q r ∧
      (forall i, i < n ->
        r[bitReverse (Nat.log2 n) i]? = some (evaluation psi a i % q)) ∧
      (forall done rest, forwardSchedule n = done ++ rest ->
        exists s, done.foldlM (forwardButterfly q tables.rootOfUnityReverseTable
          tables.rootOfUnityPreconReverseTable) a = some s ∧ Residues n q s) ∧
      inverseTransform q (2 * n) tables r = some a) ∧
    forall a b, Residues n q a -> Residues n q b ->
      exists ra rb p c, forwardTransform q tables a = some ra ∧
        forwardTransform q tables b = some rb ∧ NativeVector.modMul q ra rb = some p ∧
        inverseTransform q (2 * n) tables p = some c ∧ Residues n q c ∧
        forall i, i < n ->
          coefficient q c i = negacyclicMul n (coefficient q a) (coefficient q b) i

section Contract

variable {k q psi : Nat} (hk : 0 < k) (hq : q < 2 ^ 60) (hq0 : 0 < q)
  {tables : TransformTables} (htables : TablesSpec k psi q tables)
  (hpsi : (psi : ZMod q) ^ 2 ^ k = -1)

include hk hq hq0 htables hpsi

theorem forwardTransform_spec {f : Nat -> ZMod q} {a : List Nat} (ha : Holds q (2 ^ k) f a) :
    exists r, forwardTransform q tables a = some r ∧
      Holds q (2 ^ k) (stageArray f psi 1 k) r := by
  rcases forwardStages_spec hq htables hpsi f hq0 ha k (le_refl k) with ⟨r, hr, hHolds⟩
  rw [Nat.sub_self, pow_zero] at hHolds
  refine ⟨r, ?_, hHolds⟩
  unfold forwardTransform forwardTransformToBitReverseInPlace
  rw [ha.length_eq, forwardSchedule_eq hk, hr]

theorem inverseTransform_eq (hk31 : k <= 31) {f : Nat -> ZMod q} {a : List Nat}
    (ha : Holds q (2 ^ k) (stageArray f psi 1 k) a) :
    exists r, inverseTransform q (2 * 2 ^ k) tables a = some r ∧ Holds q (2 ^ k) f r := by
  rcases inverseTransform_spec hq hq0 htables hpsi f hk ha with
    ⟨order, preconOrder, r, horder, hprecon, hr, hHolds⟩
  refine ⟨r, ?_, hHolds⟩
  unfold inverseTransform
  rw [Nat.shiftRight_eq_div_pow, pow_one, Nat.mul_div_cancel_left _ (by decide),
    getMSB_pred_two_pow hk hk31]
  dsimp only
  rw [horder, hprecon]
  exact hr

theorem exists_coefficients (hk31 : k <= 31) {a : List Nat} (ha : Residues (2 ^ k) q a) :
    exists f, Holds q (2 ^ k) (stageArray f psi 1 k) a := by
  have : NeZero q := ⟨hq0.ne'⟩
  let extend : (Fin (2 ^ k) -> ZMod q) -> Nat -> ZMod q := fun v j =>
    if h : j < 2 ^ k then v ⟨j, h⟩ else 0
  let transform : (Fin (2 ^ k) -> ZMod q) -> Fin (2 ^ k) -> ZMod q := fun v i =>
    stageArray (extend v) psi 1 k i
  have hinjective : Function.Injective transform := by
    intro v w hvw
    have hsame : Holds q (2 ^ k) (stageArray (extend w) psi 1 k)
        (residueVector q (2 ^ k) (stageArray (extend v) psi 1 k)) := by
      rw [residueVector_congr (g := stageArray (extend w) psi 1 k)
        fun i hi => congrFun hvw ⟨i, hi⟩]
      exact residueVector_holds _ _
    rcases inverseTransform_eq hk hq hq0 htables hpsi hk31 (residueVector_holds _ _) with
      ⟨r, hr, hv⟩
    rcases inverseTransform_eq hk hq hq0 htables hpsi hk31 hsame with ⟨r', hr', hw⟩
    rw [hr, Option.some.injEq] at hr'
    subst hr'
    funext i
    have heq := (hv.coefficient_eq i.isLt).symm.trans (hw.coefficient_eq i.isLt)
    simpa [extend] using heq
  have hsurjective : Function.Surjective transform :=
    Finite.injective_iff_surjective.mp hinjective
  rcases hsurjective (fun i => coefficient q a i) with ⟨v, hv⟩
  refine ⟨extend v, ha.1, ?_⟩
  intro i x hix
  have hi : i < 2 ^ k := by
    rw [← ha.1]
    exact (List.getElem?_eq_some_iff.mp hix).1
  rw [show stageArray (extend v) psi 1 k i = coefficient q a i from congrFun hv ⟨i, hi⟩]
  exact ha.holds.get i x hix

omit hk hpsi in
theorem forwardButterfly_residues {s : Nat} (hs : s < k) {b : Butterfly}
    (hb : b ∈ stage k s) {xs ys : List Nat} (hxs : Residues (2 ^ k) q xs)
    (hrun : forwardButterfly q tables.rootOfUnityReverseTable
      tables.rootOfUnityPreconReverseTable xs b = some ys) : Residues (2 ^ k) q ys := by
  rcases mem_stage hs hb with ⟨i, _, hi, _, _, _, hindex⟩
  have hentry := htables.root _ (stage_root_lt hs hi)
  have hprecon := htables.preconRoot _ (stage_root_lt hs hi)
  rw [← hindex] at hentry hprecon
  have hparts := hrun
  unfold forwardButterfly at hparts
  simp only [Option.bind_eq_bind, Option.bind_eq_some_iff] at hparts
  rcases hparts with ⟨_, _, _, _, y, hy, x, hx, _⟩
  rcases forwardButterfly_spec hq (represents_mod hq0 _) hentry hprecon hx hy
    ⟨hxs.2 x (List.mem_of_getElem? hx), rfl⟩ ⟨hxs.2 y (List.mem_of_getElem? hy), rfl⟩
    with ⟨x', y', hrun', hx', hy'⟩
  rw [hrun'] at hrun
  rw [← Option.some.inj hrun]
  refine ⟨by simpa using hxs.1, ?_⟩
  intro z hz
  rcases List.mem_or_eq_of_mem_set hz with hz | rfl
  · rcases List.mem_or_eq_of_mem_set hz with hz | rfl
    · exact hxs.2 z hz
    · exact hx'.1
  · exact hy'.1

theorem forwardPrefix_spec {a : List Nat} (ha : Residues (2 ^ k) q a)
    {done rest : List Butterfly} (hsplit : forwardSchedule (2 ^ k) = done ++ rest) :
    exists s, done.foldlM (forwardButterfly q tables.rootOfUnityReverseTable
        tables.rootOfUnityPreconReverseTable) a = some s ∧ Residues (2 ^ k) q s := by
  rcases forwardTransform_spec hk hq hq0 htables hpsi ha.holds with ⟨r, hr, _⟩
  unfold forwardTransform forwardTransformToBitReverseInPlace at hr
  rw [ha.1, hsplit, List.foldlM_append] at hr
  rcases Option.bind_eq_some_iff.mp hr with ⟨s, hs, _⟩
  refine ⟨s, hs, foldlM_invariant (Residues (2 ^ k) q) ?_ ha hs⟩
  intro b hb xs ys hxs hrun
  have hmem : b ∈ forwardSchedule (2 ^ k) := by
    rw [hsplit]
    exact List.mem_append_left _ hb
  rw [forwardSchedule_eq hk, List.mem_flatMap] at hmem
  rcases hmem with ⟨c, hc, hbc⟩
  exact forwardButterfly_residues hq hq0 htables (List.mem_range.mp hc) hbc hxs hrun

omit hk hq htables hpsi in
theorem represents_evaluation {a : List Nat} (ha : Residues (2 ^ k) q a) {i : Nat}
    (hi : i < 2 ^ k) :
    Represents q (stageArray (coefficient q a) psi 1 k (bitReverse k i))
      (evaluation psi a i % q) := by
  rw [stageArray_last, bitReverse_bitReverse k hi]
  have hsum : (∑ c ∈ Finset.range (2 ^ k),
      coefficient q a c * (psi : ZMod q) ^ ((2 * i + 1) * c)) =
      ((evaluation psi a i : Nat) : ZMod q) := by
    unfold evaluation coefficient
    rw [ha.1]
    push_cast
    rfl
  rw [hsum]
  exact represents_mod hq0 _

omit hk hq hq0 htables in
theorem stageArray_negacyclicMul [Nontrivial (ZMod q)] (f g : Nat -> ZMod q) (i : Nat) :
    stageArray f psi 1 k i * stageArray g psi 1 k i =
      stageArray (negacyclicMul (2 ^ k) f g) (psi : ZMod q) 1 k i := by
  have hpoint : ((psi : ZMod q) ^ (2 * bitReverse k i + 1)) ^ 2 ^ k = -1 := by
    rw [← pow_mul, mul_comm, pow_mul, hpsi]
    exact Odd.neg_one_pow ⟨_, rfl⟩
  have hproduct := eval_negacyclicMul (Nat.two_pow_pos k) f g hpoint
  simp only [← pow_mul] at hproduct
  rw [stageArray_last, stageArray_last, stageArray_last, hproduct]

theorem transformContract_of_tables (hodd : q % 2 = 1) (h1 : 1 < q) (hk31 : k <= 31)
    (hpre : preCompute psi (2 * 2 ^ k) q = some tables) :
    TransformContract (2 ^ k) q psi := by
  have : Fact (1 < q) := ⟨h1⟩
  refine ⟨tables, hpre, ?_, ?_⟩
  · intro a ha
    rcases forwardTransform_spec hk hq hq0 htables hpsi ha.holds with ⟨r, hr, hHolds⟩
    rcases inverseTransform_eq hk hq hq0 htables hpsi hk31 hHolds with ⟨a', ha', hHolds'⟩
    refine ⟨r, hr, hHolds.residues, ?_, ?_, ?_⟩
    · intro i hi
      rw [Nat.log2_two_pow]
      exact hHolds.getElem? (bitReverse_lt k i) (represents_evaluation hq0 ha hi)
    · intro done rest hsplit
      exact forwardPrefix_spec hk hq hq0 htables hpsi ha hsplit
    · rw [ha', hHolds'.unique ha.holds]
  · intro a b ha hb
    rcases forwardTransform_spec hk hq hq0 htables hpsi ha.holds with ⟨ra, hra, hHoldsA⟩
    rcases forwardTransform_spec hk hq hq0 htables hpsi hb.holds with ⟨rb, hrb, hHoldsB⟩
    rcases NativeVector.modMul_spec hq hodd h1 hHoldsA hHoldsB with ⟨p, hp, hHoldsP⟩
    simp only [stageArray_negacyclicMul hpsi] at hHoldsP
    rcases inverseTransform_eq hk hq hq0 htables hpsi hk31 hHoldsP with ⟨c, hc, hHoldsC⟩
    exact ⟨ra, rb, p, c, hra, hrb, hp, hc, hHoldsC.residues,
      fun i hi => hHoldsC.coefficient_eq hi⟩

end Contract

theorem IsPrimitiveRoot.pow_half_eq_neg_one {F : Type _} [CommRing F] [IsDomain F]
    {x : F} {n : Nat} (hn : 0 < n) (h : IsPrimitiveRoot x (2 * n)) : x ^ n = -1 := by
  have hsq : x ^ n * x ^ n = 1 := by
    rw [← pow_add, ← two_mul, h.pow_eq_one]
  rcases mul_self_eq_one_iff.mp hsq with hone | hneg
  · exact absurd hone (h.pow_ne_one_of_pos_of_lt hn.ne' (by omega))
  · exact hneg

theorem isPrimitiveRoot_of_pow_eq_neg_one {F : Type _} [CommRing F] (k : Nat) {x : F}
    (h : x ^ 2 ^ k = -1) (hne : (-1 : F) ≠ 1) : IsPrimitiveRoot x (2 * 2 ^ k) := by
  have horder : orderOf x = 2 ^ (k + 1) := by
    refine orderOf_eq_prime_pow ?_ ?_
    · rw [h]
      exact hne
    · rw [pow_succ, pow_mul, h, neg_one_sq]
  rw [← pow_succ', ← horder]
  exact IsPrimitiveRoot.orderOf x

/--
The transforms meet their contract exactly up to the ring dimension `2 ^ 24`.
-/
theorem transformContract_iff {k q psi : Nat} (hk : 0 < k) (hcyclo : 2 * 2 ^ k < 2 ^ 32)
    (hprime : Nat.Prime q) (hq : q < 2 ^ 60) (hmod : q % (2 * 2 ^ k) = 1)
    (hpsi : psi < q) (hroot : IsPrimitiveRoot (psi : ZMod q) (2 * 2 ^ k)) :
    TransformContract (2 ^ k) q psi <-> 2 ^ k <= 2 ^ 24 := by
  have : Fact (Nat.Prime q) := ⟨hprime⟩
  have hk31 : k <= 31 := by
    by_contra hlt
    have hpow : 2 ^ 32 <= 2 ^ k := Nat.pow_le_pow_right (by decide) (by omega)
    omega
  constructor
  · rintro ⟨tables, hpre, _⟩
    by_contra hlarge
    have hk24 : 24 < k := by
      by_contra hle
      exact hlarge (Nat.pow_le_pow_right (by decide) (by omega))
    rw [preCompute_eq_none psi q hk24 hk31] at hpre
    cases hpre
  · intro hsmall
    have hk24 : k <= 24 := (Nat.pow_le_pow_iff_right (by decide)).mp hsmall
    have hodd : q % 2 = 1 := by
      rw [← Nat.mod_mod_of_dvd q (Dvd.intro _ rfl : 2 ∣ 2 * 2 ^ k), hmod]
    have h1 := hprime.one_lt
    have hneg := IsPrimitiveRoot.pow_half_eq_neg_one (Nat.two_pow_pos k) hroot
    have hunit : IsUnit (psi : ZMod q) := hroot.isUnit (by positivity)
    have hgcd : Nat.gcd psi q = 1 := (ZMod.isUnit_iff_coprime psi q).mp hunit
    rcases preCompute_spec hodd h1 hq hk hk24 hpsi hgcd with ⟨tables, hpre, htables⟩
    exact transformContract_of_tables hk hq (by omega) htables hneg hodd h1 hk31 hpre

theorem transformContract_iff_two_five :
    TransformContract (2 ^ 1) 5 2 <-> 2 ^ 1 <= 2 ^ 24 :=
  transformContract_iff (by decide) (by decide) (by decide) (by decide) (by decide)
    (by decide)
    (isPrimitiveRoot_of_pow_eq_neg_one 1 (by decide) (by decide))

/-- The power with exponent `2 ^ k`, by repeated squaring. -/
def squarings (q x : Nat) : Nat -> Nat
  | 0 => x % q
  | k + 1 => squarings q x k ^ 2 % q

theorem squarings_eq (q x k : Nat) : x ^ 2 ^ k % q = squarings q x k := by
  induction k with
  | zero =>
      rw [pow_zero, pow_one]
      rfl
  | succ k ih =>
      rw [pow_succ, pow_mul, Nat.pow_mod, ih]
      rfl

theorem pow_two_pow_25 : ((2187 : Nat) : ZMod 469762049) ^ 2 ^ 25 = -1 := by
  have hsquarings : squarings 469762049 2187 25 = 469762048 := by decide +kernel
  rw [← Nat.cast_pow, ← ZMod.natCast_mod, squarings_eq, hsquarings]
  decide

theorem prime_469762049 : Nat.Prime 469762049 := by
  have hbase : ((3 : Nat) : ZMod 469762049) ^ 7 = ((2187 : Nat) : ZMod 469762049) := by
    rw [← Nat.cast_pow]
    rfl
  have hsplit : (469762049 - 1 : Nat) = 7 * 2 ^ 25 * 2 := by decide
  have hhalf : ((3 : Nat) : ZMod 469762049) ^ (7 * 2 ^ 25) = -1 := by
    rw [pow_mul, hbase, pow_two_pow_25]
  refine lucas_primality 469762049 ((3 : Nat) : ZMod 469762049) ?_ ?_
  · rw [hsplit, pow_mul, hhalf, neg_one_sq]
  · intro r hr hdvd
    have hcases : r = 2 ∨ r = 7 := by
      rw [hsplit, mul_assoc, ← pow_succ, hr.dvd_mul] at hdvd
      rcases hdvd with h7 | h2
      · exact Or.inr ((Nat.prime_dvd_prime_iff_eq hr (by decide)).mp h7)
      · exact Or.inl ((Nat.prime_dvd_prime_iff_eq hr Nat.prime_two).mp (hr.dvd_of_dvd_pow h2))
    rcases hcases with rfl | rfl
    · rw [show (469762049 - 1) / 2 = 7 * 2 ^ 25 by decide, hhalf]
      decide
    · have hsquarings : squarings 469762049 3 26 = 132422475 := by decide +kernel
      rw [show (469762049 - 1) / 7 = 2 ^ 26 by decide, ← Nat.cast_pow,
        ← ZMod.natCast_mod, squarings_eq, hsquarings]
      decide

/--
The prime `7 * 2 ^ 26 + 1` with the root `3 ^ 7` of order `2 ^ 26` is an input
of dimension `2 ^ 25` on which the tables are not built.
-/
theorem not_transformContract_two_pow_25 :
    Nat.Prime 469762049 ∧ 469762049 % (2 * 2 ^ 25) = 1 ∧
      IsPrimitiveRoot ((2187 : Nat) : ZMod 469762049) (2 * 2 ^ 25) ∧
      ¬ TransformContract (2 ^ 25) 469762049 2187 := by
  refine ⟨prime_469762049, by decide,
    isPrimitiveRoot_of_pow_eq_neg_one 25 pow_two_pow_25 (by decide), ?_⟩
  rintro ⟨tables, hpre, _⟩
  rw [preCompute_eq_none _ _ (by decide) (by decide)] at hpre
  cases hpre

end Transform
end Core
end OpenFHE
