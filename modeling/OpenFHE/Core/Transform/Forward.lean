import OpenFHE.Core.Transform.Butterfly
import OpenFHE.Core.Transform.Tables

/-!
# The forward transform

Stage `s` of the transform turns the partial evaluations at block size
`2 ^ (k - s)` into those at half that size.  The entries stay reduced after
every single butterfly.
-/

namespace OpenFHE
namespace Core
namespace Transform

open Foundation NativeInteger

def forwardTransformToBitReverseInPlace (modulus : Nat)
    (rootOfUnityTable preconRootOfUnityTable element : List Nat) :
    Option (List Nat) :=
  (forwardSchedule element.length).foldlM
    (forwardButterfly modulus rootOfUnityTable preconRootOfUnityTable) element

/-!
## The positions of a stage
-/

theorem mem_stage {k s : Nat} (hs : s < k) {b : Butterfly} (hb : b ∈ stage k s) :
    exists i d, i < 2 ^ s ∧ d < 2 ^ (k - 1 - s) ∧
      b.lo = i * (2 * 2 ^ (k - 1 - s)) + d ∧
      b.hi = i * (2 * 2 ^ (k - 1 - s)) + d + 2 ^ (k - 1 - s) ∧
      b.root = i + 2 ^ s := by
  have hlogt : 2 ^ (k - s) = 2 * 2 ^ (k - 1 - s) := by
    rw [← pow_succ']
    congr 1
    omega
  unfold stage stageButterflies at hb
  simp only [List.mem_flatMap, List.mem_map, List.mem_range, Nat.shiftLeft_eq,
    hlogt] at hb
  rcases hb with ⟨i, hi, d, hd, rfl⟩
  exact ⟨i, d, hi, hd, rfl, rfl, rfl⟩

theorem stage_size {k s : Nat} (hs : s < k) : 2 ^ s * (2 * 2 ^ (k - 1 - s)) = 2 ^ k := by
  rw [← pow_succ', ← pow_add]
  congr 1
  omega

theorem stage_root_lt {k s i : Nat} (hs : s < k) (hi : i < 2 ^ s) :
    i + 2 ^ s < 2 ^ k := by
  have hdouble : 2 ^ s + 2 ^ s <= 2 ^ k := by
    rw [← two_mul, ← pow_succ']
    exact Nat.pow_le_pow_right (by decide) hs
  omega

theorem stage_length {k s : Nat} (hs : s < k) : 2 * (stage k s).length = 2 ^ k := by
  rw [← stage_size hs]
  unfold stage stageButterflies
  simp [List.length_flatMap]
  ring

theorem stage_cover {k s i : Nat} (hs : s < k) (hi : i < 2 ^ k) :
    i ∈ pairPositions Butterfly.lo Butterfly.hi (stage k s) := by
  have hsize := stage_size hs
  have hlogt : 2 ^ (k - s) = 2 * 2 ^ (k - 1 - s) := by
    rw [← pow_succ']
    congr 1
    omega
  rw [mem_pairPositions]
  unfold stage stageButterflies
  simp only [List.mem_flatMap, List.mem_map, List.mem_range, Nat.shiftLeft_eq, hlogt]
  have hu : 0 < 2 ^ (k - 1 - s) := Nat.two_pow_pos _
  generalize 2 ^ (k - 1 - s) = u at *
  have hblock : i / (2 * u) < 2 ^ s :=
    Nat.div_lt_of_lt_mul (by rw [mul_comm, hsize]; exact hi)
  have hsplit := Nat.div_add_mod' i (2 * u)
  have hmod := Nat.mod_lt i (by omega : 0 < 2 * u)
  rcases Nat.lt_or_ge (i % (2 * u)) u with hlt | hge
  · exact ⟨_, ⟨_, hblock, i % (2 * u), hlt, rfl⟩, Or.inl (by dsimp only; omega)⟩
  · exact ⟨_, ⟨_, hblock, i % (2 * u) - u, by omega, rfl⟩,
      Or.inr (by dsimp only; omega)⟩

/-!
## The stages
-/

section Stages

variable {k q rootOfUnity : Nat} (hq : q < 2 ^ 60) {tables : TransformTables}
  (htables : TablesSpec k rootOfUnity q tables)
  (hroot : (rootOfUnity : ZMod q) ^ 2 ^ k = -1) (a : Nat -> ZMod q)

theorem stage_root (hq0 : 0 < q) {s i : Nat} (hs : s < k) (hi : i < 2 ^ s) (psi : Nat) :
    Represents q (stageRoot (psi : ZMod q) (2 ^ (k - 1 - s)) s i)
      (psi ^ bitReverse k (i + 2 ^ s) % q) := by
  have hmarker := bitReverse_marker s (k - 1 - s) hi
  rw [show s + (k - 1 - s + 1) = k by omega] at hmarker
  rw [hmarker, stageRoot, ← Nat.cast_pow]
  exact represents_mod hq0 _

include hroot

/--
Bodies that compute the two sums of a butterfly on words of the residues, for any
notion of what a word stands for, turn a stage into the next one.
-/
theorem stage_of_butterfly {P : ZMod q -> Nat -> Prop}
    {g : List Nat -> Butterfly -> Option (List Nat)} {s : Nat} (hs : s < k)
    (hbody : forall b i, i < 2 ^ s -> b.root = i + 2 ^ s -> forall ys x y v w,
      ys[b.lo]? = some x -> ys[b.hi]? = some y -> P v x -> P w y ->
      exists x' y', g ys b = some ((ys.set b.lo x').set b.hi y') ∧
        P (v + stageRoot (rootOfUnity : ZMod q) (2 ^ (k - 1 - s)) s i * w) x' ∧
        P (v - stageRoot (rootOfUnity : ZMod q) (2 ^ (k - 1 - s)) s i * w) y')
    {element : List Nat} (hlength : element.length = 2 ^ k)
    (h : forall i x, element[i]? = some x ->
      P (stageArray a rootOfUnity (2 ^ (k - s)) s i) x) :
    exists r, (stage k s).foldlM g element = some r ∧ r.length = 2 ^ k ∧
      forall i x, r[i]? = some x ->
        P (stageArray a rootOfUnity (2 ^ (k - (s + 1))) (s + 1) i) x := by
  have hlogt : 2 ^ (k - s) = 2 * 2 ^ (k - 1 - s) := by
    rw [← pow_succ']
    congr 1
    omega
  have hhalf : k - (s + 1) = k - 1 - s := by omega
  have hneg : (rootOfUnity : ZMod q) ^ (2 ^ (k - 1 - s) * 2 ^ (s + 1)) = -1 := by
    rw [← hroot, ← pow_add]
    congr 2
    omega
  have hlen := stage_length hs
  rcases foldlM_pairs_all Butterfly.lo Butterfly.hi g
    (fun i => P (stageArray a rootOfUnity (2 ^ (k - s)) s i))
    (fun i => P (stageArray a rootOfUnity (2 ^ (k - (s + 1))) (s + 1) i))
    (stage k s)
    (fun i hi => stage_cover hs (hlength ▸ hi)) (by rw [hlength, hlen])
    (by
      intro b hb ys x y hx hy hPx hPy
      rcases mem_stage hs hb with ⟨i, d, hi, hd, hlo, hhi, hindex⟩
      rcases hbody b i hi hindex ys x y _ _ hx hy hPx hPy with ⟨x', y', hrun, hx', hy'⟩
      rw [hlo, hhi, hlogt] at hx' hy'
      refine ⟨x', y', hrun, ?_, ?_⟩
      · rw [hlo, hhalf, stageArray_lo a i hd]
        exact hx'
      · rw [hhi, hhalf, stageArray_hi a i hd hneg]
        exact hy')
    h with ⟨r, hr, hrlen, hget⟩
  exact ⟨r, hr, hrlen.trans hlength, hget⟩

theorem stages_of_butterfly {P : ZMod q -> Nat -> Prop}
    {g : List Nat -> Butterfly -> Option (List Nat)}
    (hbody : forall s, s < k -> forall b i, i < 2 ^ s -> b.root = i + 2 ^ s ->
      forall ys x y v w, ys[b.lo]? = some x -> ys[b.hi]? = some y -> P v x -> P w y ->
      exists x' y', g ys b = some ((ys.set b.lo x').set b.hi y') ∧
        P (v + stageRoot (rootOfUnity : ZMod q) (2 ^ (k - 1 - s)) s i * w) x' ∧
        P (v - stageRoot (rootOfUnity : ZMod q) (2 ^ (k - 1 - s)) s i * w) y')
    {element : List Nat} (hlength : element.length = 2 ^ k)
    (h : forall i x, element[i]? = some x -> P (a i) x) (s : Nat) (hs : s <= k) :
    exists r, ((List.range s).flatMap (stage k)).foldlM g element = some r ∧
      r.length = 2 ^ k ∧ forall i x, r[i]? = some x ->
        P (stageArray a rootOfUnity (2 ^ (k - s)) s i) x := by
  induction s with
  | zero =>
      refine ⟨element, rfl, hlength, ?_⟩
      intro i x hix
      have hi : i < 2 ^ k := by
        rw [← hlength]
        exact (List.getElem?_eq_some_iff.mp hix).1
      rw [Nat.sub_zero, stageArray_first a _ hi]
      exact h i x hix
  | succ s ih =>
      rcases ih (by omega) with ⟨r, hr, hlen, hget⟩
      rcases stage_of_butterfly hroot a (by omega) (hbody s (by omega)) hlen hget with
        ⟨r', hr', hstage⟩
      refine ⟨r', ?_, hstage⟩
      rw [List.range_succ, List.flatMap_append, List.foldlM_append, hr]
      simpa using hr'

include hq htables

theorem forwardStages_spec (hq0 : 0 < q) {element : List Nat}
    (h : Holds q (2 ^ k) a element) (s : Nat) (hs : s <= k) :
    exists r, ((List.range s).flatMap (stage k)).foldlM
        (forwardButterfly q tables.rootOfUnityReverseTable
          tables.rootOfUnityPreconReverseTable) element = some r ∧
      Holds q (2 ^ k) (stageArray a rootOfUnity (2 ^ (k - s)) s) r := by
  rcases stages_of_butterfly (P := Represents q) hroot a
    (g := forwardButterfly q tables.rootOfUnityReverseTable
      tables.rootOfUnityPreconReverseTable) (by
      intro s hs b i hi hindex ys x y v w hx hy hPx hPy
      have hrange := stage_root_lt hs hi
      have hentry := htables.root _ hrange
      have hprecon := htables.preconRoot _ hrange
      rw [← hindex] at hentry hprecon
      exact forwardButterfly_spec hq (hindex ▸ stage_root hq0 hs hi rootOfUnity) hentry hprecon
        hx hy hPx hPy)
    h.length_eq h.get s hs with ⟨r, hr, hlen, hget⟩
  exact ⟨r, hr, hlen, hget⟩

end Stages

end Transform
end Core
end OpenFHE
