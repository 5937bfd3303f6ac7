import OpenFHE.Hal.DCRTPoly
import OpenFHE.Core.AutomorphismMap

/-!
# Automorphisms of polynomials

`AutomorphismTransform` with a precomputed map moves the values of the
evaluation format.
-/

namespace OpenFHE
namespace Hal

open OpenFHE.Core Foundation NativeInteger

namespace Poly

/-- `AutomorphismTransform` with the map of `PrecomputeAutoMap`. -/
def automorphismTransformMap (k : Nat) (precomp : List Nat) (a : Poly) : Option Poly :=
  if a.format ≠ .EVALUATION then none
  else if k % 2 = 0 then none
  else
    ((List.range a.values.length).mapM fun j => precomp[j]?.bind fun p => a.values[p]?).map
      fun values => { a with values := values }

theorem automorphismTransformMap_denotes {q n k : Nat} {f : Nat -> ZMod q} {a : Poly}
    (ha : Denotes q n .EVALUATION f a) (hk : k % 2 = 1) {precomp : List Nat}
    {position : Nat -> Nat} (hmap : forall j, j < n -> precomp[j]? = some (position j))
    (hlt : forall j, j < n -> position j < n) :
    exists r, automorphismTransformMap k precomp a = some r ∧
      Denotes q n .EVALUATION (fun j => f (position j)) r := by
  have hlength := ha.holds.length_eq
  rcases mapM_range_spec (n := a.values.length)
    (f := fun j => precomp[j]?.bind fun p => a.values[p]?)
    (fun j x => Represents q (f (position j)) x)
    (by
      intro j hj
      rw [hlength] at hj
      have hbound : position j < a.values.length := by
        rw [hlength]
        exact hlt j hj
      have hentry := List.getElem?_eq_getElem hbound
      refine ⟨a.values[position j], ?_, ha.holds.get _ _ hentry⟩
      rw [hmap j hj]
      exact hentry) with ⟨values, hvalues, hcount, hget⟩
  refine ⟨{ a with values := values }, ?_, ha.modulus_eq, ha.format_eq,
    hcount.trans hlength, hget⟩
  rw [automorphismTransformMap, if_neg (by simp [ha.format_eq]), if_neg (by omega), hvalues]
  rfl

end Poly

namespace DCRTPoly

def automorphismTransformMap (k : Nat) (precomp : List Nat) (a : DCRTPoly) :
    Option DCRTPoly :=
  a.mapM (Poly.automorphismTransformMap k precomp)

theorem automorphismTransformMap_spec {n k : Nat} {moduli : List Nat} {a : DCRTPoly}
    (ha : WellFormed n .EVALUATION moduli a) (hk : k % 2 = 1) {precomp : List Nat}
    {position : Nat -> Nat} (hmap : forall j, j < n -> precomp[j]? = some (position j))
    (hlt : forall j, j < n -> position j < n) :
    exists r, automorphismTransformMap k precomp a = some r ∧
      WellFormed n .EVALUATION moduli r ∧
      forall i q, moduli[i]? = some q -> forall j, j < n ->
        (value r i j : ZMod q) = value a i (position j) := by
  rcases mapM_spec (l := a) (f := Poly.automorphismTransformMap k precomp)
    (fun t r => forall q, Poly.WellFormed q n .EVALUATION t ->
      Poly.Denotes q n .EVALUATION (fun j => (t.value (position j) : ZMod q)) r)
    (by
      intro t ht
      rcases List.mem_iff_getElem?.mp ht with ⟨i, hi⟩
      have hq := List.getElem?_eq_getElem (show i < moduli.length by
        rw [← ha.length_eq]
        exact (List.getElem?_eq_some_iff.mp hi).1)
      have hwf := ha.get i _ t hq hi
      rcases Poly.automorphismTransformMap_denotes hwf.denotes hk hmap hlt with
        ⟨r, hr, hdenotes⟩
      refine ⟨r, hr, fun q hwf' => ?_⟩
      rw [← hwf'.1, hwf.1]
      exact hdenotes) with ⟨r, hr, hlength, hget⟩
  refine ⟨r, hr, ⟨hlength.trans ha.length_eq, ?_⟩, ?_⟩
  · intro i q u hq hu
    rcases ha.exists_tower hq with ⟨t, ht, hwf⟩
    exact (hget i t u ht hu q hwf).wellFormed
  · intro i q hq j hj
    rcases ha.exists_tower hq with ⟨t, ht, hwf⟩
    have hu := List.getElem?_eq_getElem (show i < r.length by
      rw [hlength, ha.length_eq]
      exact (List.getElem?_eq_some_iff.mp hq).1)
    rw [value_eq ht, value_eq hu]
    exact (hget i t _ ht hu q hwf).value_eq hj

theorem WellFormed.ext {n : Nat} {format : Format} {moduli : List Nat} {a b : DCRTPoly}
    (ha : WellFormed n format moduli a) (hb : WellFormed n format moduli b)
    (hvalue : forall i q, moduli[i]? = some q -> forall r, r < n ->
      (value a i r : ZMod q) = value b i r) : a = b := by
  refine List.ext_getElem (ha.length_eq.trans hb.length_eq.symm) fun i h₁ h₂ => ?_
  have hq := List.getElem?_eq_getElem (show i < moduli.length by
    rw [← ha.length_eq]
    exact h₁)
  have hx := List.getElem?_eq_getElem h₁
  have hy := List.getElem?_eq_getElem h₂
  have hx_wf := ha.get i _ _ hq hx
  have hy_wf := hb.get i _ _ hq hy
  have hvalues : a[i].values = b[i].values := by
    refine hx_wf.2.2.holds.unique ⟨hy_wf.2.2.1, fun r x hr => ?_⟩
    have hlt : r < n := by
      rw [← hy_wf.2.2.1]
      exact (List.getElem?_eq_some_iff.mp hr).1
    have hsame := hvalue i _ hq r hlt
    rw [value_eq hx, value_eq hy] at hsame
    have hrepresents := hy_wf.2.2.holds.get r x hr
    rw [show coefficient _ b[i].values r = coefficient _ a[i].values r from hsame.symm]
      at hrepresents
    exact hrepresents
  calc
    a[i] = ⟨a[i].modulus, a[i].format, a[i].values⟩ := rfl
    _ = b[i] := by rw [hx_wf.1, hx_wf.2.1, hvalues, ← hy_wf.1, ← hy_wf.2.1]

theorem plusEq_comm {n : Nat} {moduli : List Nat}
    (hmoduli : forall q, q ∈ moduli -> Poly.NttModulus q) {a b : DCRTPoly}
    (ha : WellFormed n .EVALUATION moduli a) (hb : WellFormed n .EVALUATION moduli b) :
    plusEq a b = plusEq b a := by
  rcases plusEq_spec hmoduli ha hb with ⟨c, hc, hc_wf, hc_value⟩
  rcases plusEq_spec hmoduli hb ha with ⟨d, hd, hd_wf, hd_value⟩
  have hsame : c = d := by
    refine hc_wf.ext hd_wf fun i q hq r hr => ?_
    rw [hc_value i q hq r hr, hd_value i q hq r hr, add_comm]
  rw [hc, hd, hsame]

end DCRTPoly

end Hal
end OpenFHE
