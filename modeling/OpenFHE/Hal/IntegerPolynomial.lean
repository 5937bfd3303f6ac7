import OpenFHE.Hal.CRTInterpolation
import OpenFHE.Hal.Residues

/-!
# Integer polynomials in both formats

A double-CRT polynomial encodes an integer polynomial when its towers are the residues of
the integers, transformed in the evaluation format.  Its interpolation has the integers as
coefficients, reduced by the product of the moduli.
-/

namespace OpenFHE
namespace Hal
namespace DCRTPoly

open OpenFHE.Core Foundation

/-- The residues of a format that belong to the coefficients `v`. -/
def inFormat (k : Nat) (psi : Nat -> Nat) (format : Format) (v : TowerResidues) :
    TowerResidues :=
  match format with
  | .EVALUATION => transform k psi v
  | .COEFFICIENT => v

def integerResidues (x : Nat -> Int) : TowerResidues := fun _ q r => (x r : ZMod q)

/-- The polynomial stands for the integers `x` in its format. -/
def Encodes (k : Nat) (psi : Nat -> Nat) (format : Format) (moduli : List Nat)
    (x : Nat -> Int) (a : DCRTPoly) : Prop :=
  Denotes (2 ^ k) format moduli (inFormat k psi format (integerResidues x)) a

/-- The interpolation of the towers, taken in the coefficient format. -/
def interpolation (cache : Poly.TableCache) (ringDimension : Nat) (a : DCRTPoly) :
    Option Poly :=
  (setFormat cache a .COEFFICIENT).bind (crtInterpolate ringDimension)

def mapTowers (op : Nat -> Poly -> Option Poly) (a : DCRTPoly) : Option DCRTPoly :=
  (List.range a.length).mapM fun i => do
    let t <- a[i]?
    op i t

section Towers

variable {n : Nat} {source target : Format} {moduli : List Nat} {v w : TowerResidues}
  {a : DCRTPoly}

theorem mapTowers_denotes (op : Nat -> Poly -> Option Poly) (ha : Denotes n source moduli v a)
    (hop : forall i q t, moduli[i]? = some q -> Poly.Denotes q n source (v i q) t ->
      exists u, op i t = some u ∧ Poly.Denotes q n target (w i q) u) :
    exists b, mapTowers op a = some b ∧ Denotes n target moduli w b := by
  have hlength := ha.wellFormed.length_eq
  rcases mapM_range_spec (n := a.length) (f := fun i => (a[i]?).bind (op i))
    (fun i u => forall q, moduli[i]? = some q -> Poly.Denotes q n target (w i q) u) (by
      intro i hi
      have hq := List.getElem?_eq_getElem (show i < moduli.length by omega)
      rcases ha.tower hq with ⟨t, ht, htdenotes⟩
      rcases hop i _ t hq htdenotes with ⟨u, hu, hudenotes⟩
      refine ⟨u, ?_, ?_⟩
      · rw [ht, Option.bind_some, hu]
      · intro q hq'
        cases hq.symm.trans hq'
        exact hudenotes) with ⟨b, hb, hblength, hget⟩
  refine ⟨b, hb, denotes_of_towers (hblength.trans hlength) ?_⟩
  intro i q u hq hu
  exact hget i u hu q hq

end Towers

section Encodes

variable {cache : Poly.TableCache} {k : Nat} {psi : Nat -> Nat} {moduli : List Nat}
  {format : Format} {x : Nat -> Int} {a : DCRTPoly}

theorem Encodes.congr {y : Nat -> Int} (h : Encodes k psi format moduli x a)
    (hxy : forall q, q ∈ moduli -> forall r, r < 2 ^ k -> (x r : ZMod q) = y r) :
    Encodes k psi format moduli y a := by
  apply Denotes.congr h
  intro i q hq r hr
  have hmem := List.mem_of_getElem? hq
  cases format with
  | COEFFICIENT => exact hxy q hmem r hr
  | EVALUATION => exact stageArray_congr (fun c hc => hxy q hmem c hc) _ r

variable (hk : 0 < k) (hk31 : k <= 31) (hready : ReadyChain cache k psi moduli)

include hk hk31 hready

theorem Encodes.setFormat (h : Encodes k psi format moduli x a) (target : Format) :
    exists b, setFormat cache a target = some b ∧ Encodes k psi target moduli x b := by
  cases format with
  | COEFFICIENT =>
      cases target with
      | COEFFICIENT => exact ⟨a, setFormat_self fun _ ht => h.wellFormed.format_eq ht, h⟩
      | EVALUATION => exact setFormat_transform hk hready h
  | EVALUATION =>
      cases target with
      | COEFFICIENT => exact setFormat_inverse hk hready hk31 h
      | EVALUATION => exact ⟨a, setFormat_self fun _ ht => h.wellFormed.format_eq ht, h⟩

theorem Encodes.hasCoefficients (h : Encodes k psi format moduli x a) :
    HasCoefficients cache (2 ^ k) moduli a x := by
  rcases h.setFormat hk hk31 hready .COEFFICIENT with ⟨b, hb, hdenotes⟩
  exact ⟨b, hb, hdenotes.wellFormed, fun r hr i q hq =>
    Denotes.value_emod (f := fun _ r => x r) hdenotes hq hr⟩

variable (hcoprime : moduli.Pairwise Nat.Coprime)

include hcoprime

theorem Encodes.interpolation_eq (h : Encodes k psi format moduli x a) :
    exists p, interpolation cache (2 ^ k) a = some p ∧
      p.WellFormed moduli.prod (2 ^ k) .COEFFICIENT ∧
      forall r, r < 2 ^ k -> (p.value r : Int) = x r % moduli.prod := by
  have hone : forall q, q ∈ moduli -> 1 < q := fun q hq => (hready q hq).modulus.one_lt
  rcases h.hasCoefficients hk hk31 hready with ⟨b, hb, hbwf, hvalue⟩
  rcases crtInterpolate_spec hcoprime hone hbwf with ⟨p, hp, hpwf, hresidues⟩
  refine ⟨p, ?_, hpwf, ?_⟩
  · rw [interpolation, hb]
    exact hp
  · intro r hr
    have hpos := prod_pos hone
    have hcast : (((x r % moduli.prod).toNat : Nat) : Int) = x r % moduli.prod :=
      Int.toNat_of_nonneg (Int.emod_nonneg _ (by omega))
    have hlt := Int.emod_lt_of_pos (x r) (by omega : (0 : Int) < moduli.prod)
    rw [← hcast]
    congr 1
    apply eq_of_residues hcoprime
      (hpwf.value_lt hr) (by omega)
    intro q hq
    rcases List.mem_iff_getElem?.mp hq with ⟨i, hi⟩
    have hdvd : (q : Int) ∣ moduli.prod := by exact_mod_cast List.dvd_prod hq
    have heq := hvalue r hr i q hi
    rw [← hresidues r hr i q hi, ← Int.emod_emod_of_dvd _ hdvd, ← hcast] at heq
    exact_mod_cast heq

theorem WellFormed.exists_encodes (ha : WellFormed (2 ^ k) format moduli a) :
    exists p, interpolation cache (2 ^ k) a = some p ∧
      p.WellFormed moduli.prod (2 ^ k) .COEFFICIENT ∧
      Encodes k psi format moduli (fun r => p.value r) a := by
  have hone : forall q, q ∈ moduli -> 1 < q := fun q hq => (hready q hq).modulus.one_lt
  have hresidue (b : DCRTPoly) (p : Poly)
      (h : forall r, r < 2 ^ k -> forall i q, moduli[i]? = some q -> p.value r % q = value b i r)
      {i q : Nat} (hq : moduli[i]? = some q) {r : Nat} (hr : r < 2 ^ k) :
      residues b i q r = integerResidues (fun r => p.value r) i q r := by
    rw [residues, integerResidues, ← h r hr i q hq, ZMod.natCast_mod, Int.cast_natCast]
  cases format with
  | COEFFICIENT =>
      rcases crtInterpolate_spec hcoprime hone ha with ⟨p, hp, hpwf, hresidues⟩
      refine ⟨p, ?_, hpwf, ?_⟩
      · rw [interpolation, setFormat_self fun _ ht => ha.format_eq ht]
        exact hp
      · exact ha.denotes.congr fun i q hq r hr => hresidue a p hresidues hq hr
  | EVALUATION =>
      rcases exists_coefficients hk hready hk31 ha with ⟨b, hb, hbwf, hdenotes⟩
      rcases crtInterpolate_spec hcoprime hone hbwf with ⟨p, hp, hpwf, hresidues⟩
      refine ⟨p, ?_, hpwf, ?_⟩
      · rw [interpolation, hb]
        exact hp
      · exact hdenotes.congr fun i q hq r _ =>
          stageArray_congr (fun c hc => hresidue b p hresidues hq hc) _ r

end Encodes

end DCRTPoly
end Hal
end OpenFHE
