import OpenFHE.Core.Transform.Variants

/-!
# Transforms of unreduced words

`ForwardTransformToBitReverse` does not need reduced words: every butterfly leaves
words that stand for the same residues and stay below the same bound.
-/

namespace OpenFHE
namespace Core
namespace Transform

open Foundation NativeInteger

/-- The word stands for the residue and is at most the bound. -/
def Stands (q bound : Nat) (v : ZMod q) (x : Nat) : Prop := x <= bound ∧ (x : ZMod q) = v

/-- The words of a vector stand for the residues of `f`. -/
structure HoldsUpTo (q bound n : Nat) (f : Nat -> ZMod q) (element : List Nat) : Prop where
  length_eq : element.length = n
  get : forall i x, element[i]? = some x -> Stands q bound (f i) x

theorem Represents.stands {q bound : Nat} (hbound : q <= bound + 1) {v : ZMod q} {x : Nat}
    (h : Represents q v x) : Stands q bound v x :=
  ⟨by have := h.1; omega, h.2⟩

theorem Holds.holdsUpTo {q bound n : Nat} (hbound : q <= bound + 1) {f : Nat -> ZMod q}
    {element : List Nat} (h : Holds q n f element) : HoldsUpTo q bound n f element :=
  ⟨h.length_eq, fun i x hix => Represents.stands hbound (h.get i x hix)⟩

section Sums

variable {q bound : Nat} (hq : q < 2 ^ 60) (hbound : q <= bound + 1) (hword : bound < 2 ^ 60)
  {v w : ZMod q} {x f : Nat}

include hq hbound hword

theorem sums_stands (hx : Stands q bound v x) (hf : Represents q w f) :
    Stands q bound (v + w) (sums q x f).1 ∧ Stands q bound (v - w) (sums q x f).2 := by
  have hxle := hx.1
  have hflt := hf.1
  have hsum : addFast x f = x + f := by
    rw [addFast, word_eq (by simp only [maxBits]; omega), add_comm]
  have hlift : addFast x q = x + q := by
    rw [addFast, word_eq (by simp only [maxBits]; omega), add_comm]
  unfold sums
  dsimp only
  rw [hsum, hlift, ← hx.2, ← hf.2]
  constructor
  · split
    next hge =>
        rw [subFast_eq hge (by simp only [maxBits]; omega)]
        refine ⟨by omega, ?_⟩
        rw [Nat.cast_sub hge, ZMod.natCast_self, sub_zero, Nat.cast_add]
    next hlt => exact ⟨by omega, Nat.cast_add x f⟩
  · split
    next hlt =>
        rw [subFast_eq (by omega) (by simp only [maxBits]; omega)]
        refine ⟨by omega, ?_⟩
        rw [Nat.cast_sub (by omega), Nat.cast_add, ZMod.natCast_self, add_zero]
    next hge =>
        rw [subFast_eq (by omega) (by simp only [maxBits]; omega)]
        exact ⟨by omega, Nat.cast_sub (by omega)⟩

variable {table preconTable : List Nat} {b : Butterfly} {omega : Nat} {root : ZMod q}

theorem forwardButterflySkip_stands (hroot : Represents q root omega)
    (htable : table[b.root]? = some omega)
    (hprecon : preconTable[b.root]? = some (precon omega q)) {element : List Nat} {y : Nat}
    (hlo : element[b.lo]? = some x) (hhi : element[b.hi]? = some y)
    (hx : Stands q bound v x) (hy : Stands q bound w y) :
    exists x' y', forwardButterflySkip (shoupFactor q table preconTable) (sums q) element b =
        some ((element.set b.lo x').set b.hi y') ∧
      Stands q bound (v + root * w) x' ∧ Stands q bound (v - root * w) y' := by
  have hyle := hy.1
  have hfactor : Represents q (root * w) (modMulFastConst y omega q (precon omega q)) := by
    rw [modMulFastConst_eq (by omega) hroot.1 (by simp only [maxBits]; omega), ← hroot.2,
      ← hy.2, mul_comm, ← Nat.cast_mul]
    exact represents_mod (by have := hroot.1; omega) _
  have hrun : shoupFactor q table preconTable b.root =
      some fun x => modMulFastConst x omega q (precon omega q) := by
    unfold shoupFactor
    rw [htable, hprecon]
    rfl
  unfold forwardButterflySkip
  rw [hrun, hlo, hhi]
  simp only [Option.bind_eq_bind, Option.bind_some]
  by_cases hzero : y = 0
  · have hset : element.set b.lo x = element := by
      rcases List.getElem?_eq_some_iff.mp hlo with ⟨hrange, hentry⟩
      rw [← hentry, List.set_getElem_self]
    have hw : w = 0 := by
      rw [← hy.2, hzero, Nat.cast_zero]
    refine ⟨x, x, ?_, ?_, ?_⟩
    · rw [if_neg (not_not.mpr hzero), hset]
      rfl
    · rwa [hw, mul_zero, add_zero]
    · rwa [hw, mul_zero, sub_zero]
  · refine ⟨_, _, ?_, sums_stands hq hbound hword hx hfactor⟩
    rw [if_pos hzero]
    rfl

end Sums

theorem forwardShoup_stands {k q bound psi : Nat} (hk : 0 < k) (hq : q < 2 ^ 60) (hq0 : 0 < q)
    (hbound : q <= bound + 1) (hword : bound < 2 ^ 60) {tables : TransformTables}
    (htables : TablesSpec k psi q tables) (hpsi : (psi : ZMod q) ^ 2 ^ k = -1)
    {f : Nat -> ZMod q} {a result : List Nat} (ha : HoldsUpTo q bound (2 ^ k) f a)
    (hresult : result.length = 2 ^ k) :
    exists r, forwardShoup q a tables.rootOfUnityReverseTable
        tables.rootOfUnityPreconReverseTable result = some r ∧
      HoldsUpTo q bound (2 ^ k) (stageArray f psi 1 k) r := by
  rcases stages_of_butterfly (P := Stands q bound) hpsi f
    (g := forwardButterflySkip (shoupFactor q tables.rootOfUnityReverseTable
      tables.rootOfUnityPreconReverseTable) (sums q)) (by
      intro s hs b i hi hindex ys x y v w hx hy hPx hPy
      have hrange := stage_root_lt hs hi
      have hentry := htables.root _ hrange
      have hprecon := htables.preconRoot _ hrange
      rw [← hindex] at hentry hprecon
      exact forwardButterflySkip_stands hq hbound hword (hindex ▸ stage_root hq0 hs hi psi)
        hentry hprecon hx hy hPx hPy)
    ha.length_eq ha.get k le_rfl with ⟨r, hr, hlen, hget⟩
  rw [Nat.sub_self, pow_zero] at hget
  refine ⟨r, ?_, hlen, hget⟩
  rw [forwardShoup, if_neg (by rw [hresult, ha.length_eq]; exact not_not.mpr rfl),
    ha.length_eq, plainForwardSchedule_eq hk]
  exact hr

end Transform
end Core
end OpenFHE
