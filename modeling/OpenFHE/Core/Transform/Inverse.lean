import OpenFHE.Core.Transform.Forward

/-!
# The inverse transform

Each inverse stage undoes a forward stage up to a factor of two.  The last
stage multiplies the upper half by the inverse of the length together with its
root; a loop of scalar multiplications does the same for the lower half.
-/

namespace OpenFHE
namespace Core
namespace Transform

open Foundation NativeInteger

/-- `(*element)[i].ModMulFastConstEq(c, modulus, preconC)`. -/
def scaleEntry (modulus c preconC : Nat) (element : List Nat) (i : Nat) :
    Option (List Nat) := do
  let x <- element[i]?
  return element.set i (modMulFastConst x c modulus preconC)

def inverseTransformFromBitReverseInPlace (modulus : Nat)
    (rootOfUnityInverseTable preconRootOfUnityInverseTable : List Nat)
    (cycloOrderInv preconCycloOrderInv : Nat) (element : List Nat) :
    Option (List Nat) := do
  let n := element.length
  let root <- rootOfUnityInverseTable[1]?
  let omega1Inv := modMulFastConst root cycloOrderInv modulus preconCycloOrderInv
  let preconOmega1Inv <- prepModMulConst omega1Inv modulus
  let element <- (inverseSchedule n).foldlM
    (inverseButterfly modulus rootOfUnityInverseTable preconRootOfUnityInverseTable)
    element
  let j2 := n >>> 1
  let element <- (List.range j2).foldlM
    (fun element j1 =>
      inverseButterflyWith modulus omega1Inv preconOmega1Inv j1 (j1 + j2) element)
    element
  (List.range j2).foldlM (scaleEntry modulus cycloOrderInv preconCycloOrderInv) element

theorem scaleRange_holds {q n : Nat} (hq0 : 0 < q) {f : Nat -> ZMod q}
    {element : List Nat} (h : Holds q n f element) {c : Nat} {times : Nat -> Nat}
    (htimes : forall x, x < q -> times x = x * c % q) {m : Nat} (hm : m <= n) :
    exists r, (List.range m).foldlM
        (fun xs i => (xs[i]?).bind fun x => some (xs.set i (times x))) element = some r ∧
      Holds q n (fun i => if i < m then f i * c else f i) r := by
  have hrun := foldlM_range_spec
    (f := fun (xs : List Nat) i => (xs[i]?).bind fun x => some (xs.set i (times x)))
    (fun j => Holds q n (fun i => if i < j then f i * c else f i))
    (n := m) (s := element) (by simpa using h)
    (by
      intro j hj xs hxs
      have hrange : j < xs.length := by
        rw [hxs.length_eq]
        omega
      have hentry : xs[j]? = some xs[j] := List.getElem?_eq_getElem hrange
      have hvalue := hxs.get j _ hentry
      rw [if_neg (Nat.lt_irrefl j)] at hvalue
      refine ⟨xs.set j (times xs[j]), by rw [hentry]; rfl, ?_, ?_⟩
      · rw [List.length_set, hxs.length_eq]
      · intro i x hix
        by_cases heq : j = i
        · subst heq
          rw [List.getElem?_set_self hrange] at hix
          rw [← Option.some.inj hix, if_pos (Nat.lt_succ_self j), htimes _ hvalue.1,
            ← hvalue.2, ← Nat.cast_mul]
          exact represents_mod hq0 _
        · rw [List.getElem?_set_ne heq] at hix
          have hother := hxs.get i x hix
          have hiff : (i < j + 1) = (i < j) := by
            rw [eq_iff_iff]
            omega
          simpa only [hiff] using hother)
  exact hrun

section Stages

variable {k q rootOfUnity : Nat} (hq : q < 2 ^ 60) (hq0 : 0 < q)
  {tables : TransformTables} (htables : TablesSpec k rootOfUnity q tables)
  (hroot : (rootOfUnity : ZMod q) ^ 2 ^ k = -1) (a : Nat -> ZMod q)

theorem stage_inverse_root {inv : Nat} (hinv : rootOfUnity * inv % q = 1)
    (u s i : Nat) :
    stageRoot (rootOfUnity : ZMod q) u s i * stageRoot (inv : ZMod q) u s i = 1 := by
  have hone : (rootOfUnity : ZMod q) * inv = 1 := by
    rw [← Nat.cast_mul, ← ZMod.natCast_mod, hinv, Nat.cast_one]
  rw [stageRoot, stageRoot, ← mul_pow, hone, one_pow]

include hq hq0 htables hroot

theorem inverseStage_spec {s : Nat} (hs : s < k) (c : ZMod q) {element : List Nat}
    (h : Holds q (2 ^ k)
      (fun i => c * stageArray a rootOfUnity (2 ^ (k - (s + 1))) (s + 1) i) element) :
    exists r, (stage k s).foldlM (inverseButterfly q tables.rootOfUnityInverseReverseTable
        tables.rootOfUnityInversePreconReverseTable) element = some r ∧
      Holds q (2 ^ k) (fun i => 2 * c * stageArray a rootOfUnity (2 ^ (k - s)) s i) r := by
  rcases htables.inverse with ⟨inv, _, hinv, htableI, hpreconI⟩
  have hlogt : 2 ^ (k - s) = 2 * 2 ^ (k - 1 - s) := by
    rw [← pow_succ']
    congr 1
    omega
  have hhalf : k - (s + 1) = k - 1 - s := by omega
  have hneg : (rootOfUnity : ZMod q) ^ (2 ^ (k - 1 - s) * 2 ^ (s + 1)) = -1 := by
    rw [← hroot, ← pow_add]
    congr 2
    omega
  have hlen := stage_length hs
  rcases foldlM_pairs_all Butterfly.lo Butterfly.hi
    (inverseButterfly q tables.rootOfUnityInverseReverseTable
      tables.rootOfUnityInversePreconReverseTable)
    (fun i => Represents q
      (c * stageArray a rootOfUnity (2 ^ (k - (s + 1))) (s + 1) i))
    (fun i => Represents q (2 * c * stageArray a rootOfUnity (2 ^ (k - s)) s i))
    (stage k s)
    (fun i hi => stage_cover hs (h.length_eq ▸ hi)) (by rw [h.length_eq, hlen])
    (by
      intro b hb ys x y hx hy hPx hPy
      rcases mem_stage hs hb with ⟨i, d, hi, hd, hlo, hhi, hindex⟩
      have hrange := stage_root_lt hs hi
      have hentry := htableI _ hrange
      have hprecon := hpreconI _ hrange
      rw [← hindex] at hentry hprecon
      rcases inverseButterfly_spec hq (hindex ▸ stage_root hq0 hs hi inv)
        hentry hprecon hx hy hPx hPy with ⟨x', y', hrun, hx', hy'⟩
      rw [hlo, hhi, hhalf] at hx' hy'
      refine ⟨x', y', hrun, ?_, ?_⟩
      · rw [hlo, hlogt, mul_comm 2 c, mul_assoc,
          ← stageArray_inverse_lo a i hd hneg, mul_add]
        exact hx'
      · rw [hhi, hlogt, mul_comm 2 c, mul_assoc,
          ← stageArray_inverse_hi a i hd hneg (stage_inverse_root hinv _ s i),
          ← mul_assoc, mul_sub]
        exact hy')
    h.get with ⟨r, hr, hrlen, hget⟩
  exact ⟨r, hr, hrlen.trans h.length_eq, hget⟩

theorem inverseStages_spec {element : List Nat}
    (h : Holds q (2 ^ k) (stageArray a rootOfUnity 1 k) element) (c : Nat) (hc : c <= k) :
    exists r, ((List.range c).flatMap fun c => stage k (k - 1 - c)).foldlM
        (inverseButterfly q tables.rootOfUnityInverseReverseTable
          tables.rootOfUnityInversePreconReverseTable) element = some r ∧
      Holds q (2 ^ k) (fun i => 2 ^ c * stageArray a rootOfUnity (2 ^ c) (k - c) i) r := by
  induction c with
  | zero =>
      refine ⟨element, rfl, ?_⟩
      simpa using h
  | succ c ih =>
      rcases ih (by omega) with ⟨r, hr, hHolds⟩
      have hexp : k - (k - 1 - c + 1) = c := by omega
      have hnext : k - 1 - c + 1 = k - c := by omega
      have hinput : Holds q (2 ^ k) (fun i => 2 ^ c *
          stageArray a rootOfUnity (2 ^ (k - (k - 1 - c + 1))) (k - 1 - c + 1) i) r := by
        rw [hexp, hnext]
        exact hHolds
      have hstage := inverseStage_spec hq hq0 htables hroot a (by omega) (2 ^ c) hinput
      rw [show k - (k - 1 - c) = c + 1 by omega,
        show k - 1 - c = k - (c + 1) by omega, ← pow_succ'] at hstage
      rcases hstage with ⟨r', hr', hHolds'⟩
      refine ⟨r', ?_, hHolds'⟩
      rw [List.range_succ, List.flatMap_append, List.foldlM_append, hr]
      simpa [show k - 1 - c = k - (c + 1) by omega] using hr'

omit hq0 htables in
/--
The last stage: the lower half is still scaled by the length, the upper half
holds coefficients.
-/
theorem inverseLastStage_spec (hk : 0 < k) {inv cycloOrderInv omega1Inv : Nat}
    (hinv : rootOfUnity * inv % q = 1) (horder : 2 ^ k * cycloOrderInv % q = 1)
    (homega : Represents q
      (stageRoot (inv : ZMod q) (2 ^ (k - 1)) 0 0 * cycloOrderInv) omega1Inv)
    {element : List Nat}
    (h : Holds q (2 ^ k)
      (fun i => 2 ^ (k - 1) * stageArray a rootOfUnity (2 ^ (k - 1)) 1 i) element) :
    exists r, (List.range (2 ^ (k - 1))).foldlM
        (fun element j1 => inverseButterflyWith q omega1Inv (precon omega1Inv q) j1
          (j1 + 2 ^ (k - 1)) element) element = some r ∧
      Holds q (2 ^ k) (fun i => if i < 2 ^ (k - 1) then 2 ^ k * a i else a i) r := by
  have hfull : 2 ^ k = 2 * 2 ^ (k - 1) := by
    rw [← pow_succ', Nat.sub_add_cancel hk]
  have hneg : (rootOfUnity : ZMod q) ^ (2 ^ (k - 1) * 2 ^ (0 + 1)) = -1 := by
    rw [← hroot, zero_add, pow_one, mul_comm, ← hfull]
  have hscale : (2 : ZMod q) ^ k * cycloOrderInv = 1 := by
    have hcast := congrArg (Nat.cast : Nat -> ZMod q) horder
    rw [ZMod.natCast_mod] at hcast
    push_cast at hcast
    exact hcast
  have hpow : (2 : ZMod q) ^ k = 2 ^ (k - 1) * 2 := by
    rw [← pow_succ, Nat.sub_add_cancel hk]
  rcases foldlM_pairs_all (fun j1 => j1) (fun j1 => j1 + 2 ^ (k - 1))
    (fun element j1 => inverseButterflyWith q omega1Inv (precon omega1Inv q) j1
      (j1 + 2 ^ (k - 1)) element)
    (fun i => Represents q (2 ^ (k - 1) * stageArray a rootOfUnity (2 ^ (k - 1)) 1 i))
    (fun i => Represents q (if i < 2 ^ (k - 1) then 2 ^ k * a i else a i))
    (List.range (2 ^ (k - 1)))
    (by
      intro i hi
      rw [h.length_eq, hfull] at hi
      rw [mem_pairPositions]
      rcases Nat.lt_or_ge i (2 ^ (k - 1)) with hlt | hge
      · exact ⟨i, List.mem_range.mpr hlt, Or.inl rfl⟩
      · exact ⟨i - 2 ^ (k - 1), List.mem_range.mpr (by omega), Or.inr (by omega)⟩)
    (by rw [h.length_eq, List.length_range, hfull])
    (by
      intro d hd ys x y hx hy hPx hPy
      have hd' : d < 2 ^ (k - 1) := List.mem_range.mp hd
      have hsum := stageArray_inverse_lo a 0 hd' hneg
      have hdiff := stageArray_inverse_hi a 0 hd' hneg
        (stage_inverse_root hinv (2 ^ (k - 1)) 0 0)
      rw [zero_mul, zero_add, zero_add, stageArray_first a _ (by omega)] at hsum hdiff
      rcases inverseButterflyWith_spec hq homega hx hy hPx hPy with
        ⟨x', y', hrun, hx', hy'⟩
      refine ⟨x', y', hrun, ?_, ?_⟩
      · rw [if_pos hd', hpow, mul_assoc, ← hsum, mul_add]
        exact hx'
      · rw [if_neg (by omega)]
        have hvalue : a (d + 2 ^ (k - 1)) =
            (2 ^ (k - 1) * stageArray a rootOfUnity (2 ^ (k - 1)) 1 d -
              2 ^ (k - 1) * stageArray a rootOfUnity (2 ^ (k - 1)) 1 (d + 2 ^ (k - 1))) *
                (stageRoot (inv : ZMod q) (2 ^ (k - 1)) 0 0 * cycloOrderInv) := by
          rw [hpow] at hscale
          linear_combination -a (d + 2 ^ (k - 1)) * hscale -
            2 ^ (k - 1) * (cycloOrderInv : ZMod q) * hdiff
        rw [hvalue]
        exact hy')
    h.get with ⟨r, hr, hrlen, hget⟩
  exact ⟨r, hr, hrlen.trans h.length_eq, hget⟩

omit hq0 htables hroot in
theorem scaleEntries_spec {cycloOrderInv : Nat} (hlt : cycloOrderInv < q)
    (horder : 2 ^ k * cycloOrderInv % q = 1) {half : Nat} (hhalf : half <= 2 ^ k)
    {element : List Nat}
    (h : Holds q (2 ^ k) (fun i => if i < half then 2 ^ k * a i else a i) element) :
    exists r, (List.range half).foldlM
        (scaleEntry q cycloOrderInv (precon cycloOrderInv q)) element = some r ∧
      Holds q (2 ^ k) a r := by
  have hscale : (2 : ZMod q) ^ k * cycloOrderInv = 1 := by
    have hcast := congrArg (Nat.cast : Nat -> ZMod q) horder
    rw [ZMod.natCast_mod] at hcast
    push_cast at hcast
    exact hcast
  rcases scaleRange_holds (by omega) h (c := cycloOrderInv)
    (fun x hx => modMulFastConst_eq (b := cycloOrderInv) (by omega) hlt
      (by simp only [maxBits]; omega)) hhalf with ⟨r, hr, hHolds⟩
  refine ⟨r, hr, hHolds.length_eq, ?_⟩
  intro i x hix
  have hvalue := hHolds.get i x hix
  split at hvalue
  next hlow =>
      have hfix : 2 ^ k * a i * cycloOrderInv = a i := by
        linear_combination a i * hscale
      rwa [hfix] at hvalue
  next hhigh => exact hvalue

theorem inverseTransform_spec (hk : 0 < k) {element : List Nat}
    (h : Holds q (2 ^ k) (stageArray a rootOfUnity 1 k) element) :
    exists cycloOrderInv preconCycloOrderInv r,
      tables.cycloOrderInverseTable[k]? = some cycloOrderInv ∧
      tables.cycloOrderInversePreconTable[k]? = some preconCycloOrderInv ∧
      inverseTransformFromBitReverseInPlace q tables.rootOfUnityInverseReverseTable
        tables.rootOfUnityInversePreconReverseTable cycloOrderInv preconCycloOrderInv
        element = some r ∧ Holds q (2 ^ k) a r := by
  rcases htables.inverse with ⟨inv, _, hinv, htableI, _⟩
  rcases htables.order k (le_refl k) with ⟨order, horderLt, horder, htable, hprecon⟩
  have hone : 1 < 2 ^ k := Nat.one_lt_two_pow (by omega)
  have hroot1 := stage_root hq0 hk (i := 0) (by decide) inv
  rw [zero_add, pow_zero, Nat.sub_zero] at hroot1
  have homega := represents_mulConst hq hroot1
    (⟨horderLt, rfl⟩ : Represents q (order : ZMod q) order)
  have hstages := inverseStages_spec hq hq0 htables hroot a h (k - 1) (by omega)
  rw [Nat.sub_sub_self hk] at hstages
  rcases hstages with ⟨r₁, hr₁, hHolds₁⟩
  rcases inverseLastStage_spec hq hroot a hk hinv horder homega hHolds₁ with
    ⟨r₂, hr₂, hHolds₂⟩
  rcases scaleEntries_spec hq a horderLt horder
    (Nat.pow_le_pow_right (by decide) (Nat.sub_le k 1)) hHolds₂ with ⟨r, hr, hHolds⟩
  refine ⟨order, precon order q, r, htable, hprecon, ?_, hHolds⟩
  unfold inverseTransformFromBitReverseInPlace
  rw [h.length_eq, htableI 1 hone]
  simp only [Option.bind_eq_bind, Option.bind_some]
  rw [prepModMulConst_eq (by simp only [maxBits]; omega) homega.1, Option.bind_some,
    inverseSchedule_eq hk, hr₁, Option.bind_some, shiftRight_two_pow hk, hr₂,
    Option.bind_some, hr]

end Stages

end Transform
end Core
end OpenFHE
