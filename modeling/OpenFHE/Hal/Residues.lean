import OpenFHE.Hal.Automorphism
import OpenFHE.Hal.Decompose

/-!
# Residues of double-CRT polynomials

The residues of all towers are one function of the tower, its modulus and the
position.  A well-formed polynomial is determined by them, and the linear
operations act on them as on functions.
-/

namespace OpenFHE
namespace Hal

open OpenFHE.Core Foundation

/-- Residues by tower, modulus and position. -/
abbrev TowerResidues := Nat -> (q : Nat) -> Nat -> ZMod q

namespace DCRTPoly

def minus (a rhs : DCRTPoly) : Option DCRTPoly :=
  if a.length ≠ rhs.length then none else zipTowers Poly.minusEq a rhs

/-- The polynomial is well formed and stands for the residues `v`. -/
structure Denotes (n : Nat) (format : Format) (moduli : List Nat) (v : TowerResidues)
    (a : DCRTPoly) : Prop where
  wellFormed : WellFormed n format moduli a
  value_eq : forall i q, moduli[i]? = some q -> forall r, r < n ->
    (value a i r : ZMod q) = v i q r

def residues (a : DCRTPoly) : TowerResidues := fun i _ r => value a i r

section Denotes

variable {n : Nat} {format : Format} {moduli : List Nat} {v w : TowerResidues}
  {a b : DCRTPoly}

theorem WellFormed.denotes (h : WellFormed n format moduli a) :
    Denotes n format moduli (residues a) a :=
  ⟨h, fun _ _ _ _ _ => rfl⟩

theorem Denotes.congr (h : Denotes n format moduli v a)
    (hvw : forall i q, moduli[i]? = some q -> forall r, r < n -> v i q r = w i q r) :
    Denotes n format moduli w a := by
  refine ⟨h.wellFormed, ?_⟩
  intro i q hq r hr
  rw [h.value_eq i q hq r hr, hvw i q hq r hr]

theorem Denotes.unique (ha : Denotes n format moduli v a) (hb : Denotes n format moduli v b) :
    a = b := by
  apply ha.wellFormed.ext hb.wellFormed
  intro i q hq r hr
  rw [ha.value_eq i q hq r hr, hb.value_eq i q hq r hr]

theorem Denotes.eq_of_residues (ha : Denotes n format moduli (residues b) a)
    (hb : WellFormed n format moduli b) : a = b :=
  ha.unique hb.denotes

theorem zero_denotes (hpos : forall q, q ∈ moduli -> 0 < q) (n : Nat) (format : Format) :
    Denotes n format moduli 0 (zero moduli n format) := by
  refine ⟨zero_wellFormed hpos n format, ?_⟩
  intro i q hq r hr
  have hentry : (zero moduli n format)[i]? = some (Poly.zero q n format) := by
    rw [zero, List.getElem?_map, hq]
    rfl
  rw [DCRTPoly.value_eq hentry]
  exact (Poly.zero_denotes (hpos q (List.mem_of_getElem? hq)) n format).value_eq hr

theorem Denotes.tower_denotes (h : Denotes n format moduli v a) {i q : Nat} {t : Poly}
    (hq : moduli[i]? = some q) (ht : a[i]? = some t) : Poly.Denotes q n format (v i q) t := by
  have hwf := h.wellFormed.get i q t hq ht
  refine ⟨hwf.1, hwf.2.1, hwf.2.2.holds.congr ?_⟩
  intro r hr
  rw [← h.value_eq i q hq r hr, DCRTPoly.value_eq ht]
  rfl

theorem Denotes.tower (h : Denotes n format moduli v a) {i q : Nat}
    (hq : moduli[i]? = some q) :
    exists t, a[i]? = some t ∧ Poly.Denotes q n format (v i q) t := by
  rcases h.wellFormed.exists_tower hq with ⟨t, ht, _⟩
  exact ⟨t, ht, h.tower_denotes hq ht⟩

theorem denotes_of_towers (hlength : a.length = moduli.length)
    (htower : forall i q t, moduli[i]? = some q -> a[i]? = some t ->
      Poly.Denotes q n format (v i q) t) : Denotes n format moduli v a := by
  refine ⟨⟨hlength, fun i q t hq ht => (htower i q t hq ht).wellFormed⟩, ?_⟩
  intro i q hq r hr
  have hi : i < a.length := by
    rw [hlength]
    exact (List.getElem?_eq_some_iff.mp hq).1
  have ht := List.getElem?_eq_getElem hi
  rw [DCRTPoly.value_eq ht]
  exact (htower i q _ hq ht).value_eq hr

variable (hmoduli : forall q, q ∈ moduli -> Poly.NttModulus q)

include hmoduli

theorem plusEq_denotes (ha : Denotes n format moduli v a) (hb : Denotes n format moduli w b) :
    exists c, plusEq a b = some c ∧ Denotes n format moduli (v + w) c := by
  rcases zipTowers_spec (fun _ x y => x + y)
    (fun q hq _ _ _ _ hx hy => Poly.plusEq_denotes (hmoduli q hq) hx hy)
    ha.wellFormed hb.wellFormed with ⟨c, hc, hc_wf, hvalue⟩
  refine ⟨c, hc, hc_wf, ?_⟩
  intro i q hq r hr
  rw [hvalue i q hq r hr, ha.value_eq i q hq r hr, hb.value_eq i q hq r hr]
  rfl

theorem minusEq_denotes (ha : Denotes n format moduli v a) (hb : Denotes n format moduli w b) :
    exists c, minusEq a b = some c ∧ Denotes n format moduli (v - w) c := by
  rcases zipTowers_spec (fun _ x y => x - y)
    (fun q hq _ _ _ _ hx hy => Poly.minusEq_denotes (hmoduli q hq) hx hy)
    ha.wellFormed hb.wellFormed with ⟨c, hc, hc_wf, hvalue⟩
  refine ⟨c, hc, hc_wf, ?_⟩
  intro i q hq r hr
  rw [hvalue i q hq r hr, ha.value_eq i q hq r hr, hb.value_eq i q hq r hr]
  rfl

theorem minus_denotes (ha : Denotes n format moduli v a) (hb : Denotes n format moduli w b) :
    exists c, minus a b = some c ∧ Denotes n format moduli (v - w) c := by
  have hlength : a.length = b.length :=
    ha.wellFormed.length_eq.trans hb.wellFormed.length_eq.symm
  rw [minus, if_neg (not_not.mpr hlength)]
  exact minusEq_denotes hmoduli ha hb

theorem timesInteger_denotes {x : DCRTPoly} (hx : Denotes n format moduli v x) (c : Nat) :
    exists r, timesInteger x c = some r ∧ Denotes n format moduli (c * v) r := by
  rcases timesInteger_spec hmoduli hx.wellFormed c with ⟨r, hr, hr_wf, hvalue⟩
  refine ⟨r, hr, hr_wf, ?_⟩
  intro i q hq j hj
  rw [hvalue i q hq j hj, hx.value_eq i q hq j hj, mul_comm]
  rfl

variable {x y : DCRTPoly}
  (hx : Denotes n .EVALUATION moduli v x) (hy : Denotes n .EVALUATION moduli w y)

include hx hy

theorem timesEq_denotes :
    exists r, timesEq x y = some r ∧ Denotes n .EVALUATION moduli (v * w) r := by
  rcases timesEq_spec hmoduli hx.wellFormed hy.wellFormed with ⟨r, hr, hr_wf, hvalue⟩
  refine ⟨r, hr, hr_wf, ?_⟩
  intro i q hq j hj
  rw [hvalue i q hq j hj, hx.value_eq i q hq j hj, hy.value_eq i q hq j hj]
  rfl

theorem plus_denotes (hne : 0 < moduli.length) :
    exists r, plus x y = some r ∧ Denotes n .EVALUATION moduli (v + w) r := by
  rcases plus_spec hmoduli hx.wellFormed hy.wellFormed hne with ⟨r, hr, hr_wf, hvalue⟩
  refine ⟨r, hr, hr_wf, ?_⟩
  intro i q hq j hj
  rw [hvalue i q hq j hj, hx.value_eq i q hq j hj, hy.value_eq i q hq j hj]
  rfl

theorem times_denotes (hne : 0 < moduli.length) :
    exists r, times x y = some r ∧ Denotes n .EVALUATION moduli (v * w) r := by
  rcases times_spec hmoduli hx.wellFormed hy.wellFormed hne with ⟨r, hr, hr_wf, hvalue⟩
  refine ⟨r, hr, hr_wf, ?_⟩
  intro i q hq j hj
  rw [hvalue i q hq j hj, hx.value_eq i q hq j hj, hy.value_eq i q hq j hj]
  rfl

end Denotes

/-!
## Changes of format
-/

/-- The residues in the evaluation format of coefficients `v`. -/
def transform (k : Nat) (psi : Nat -> Nat) (v : TowerResidues) : TowerResidues :=
  fun i q => stageArray (v i q) (psi q : ZMod q) 1 k

section Format

variable {cache : Poly.TableCache} {k : Nat} {psi : Nat -> Nat} {moduli : List Nat}
  {source target : Format} {v w : TowerResidues} {a : DCRTPoly}

theorem setFormat_of_towers (ha : Denotes (2 ^ k) source moduli v a)
    (htower : forall i q t, moduli[i]? = some q ->
      Poly.Denotes q (2 ^ k) source (v i q) t ->
      exists u, Poly.setFormat cache t target = some u ∧
        Poly.Denotes q (2 ^ k) target (w i q) u) :
    exists b, setFormat cache a target = some b ∧ Denotes (2 ^ k) target moduli w b := by
  rcases mapM_spec (l := a) (f := fun t => Poly.setFormat cache t target)
    (fun t u => forall i q, moduli[i]? = some q -> a[i]? = some t ->
      Poly.Denotes q (2 ^ k) target (w i q) u)
    (by
      intro t ht
      rcases List.mem_iff_getElem?.mp ht with ⟨i, hi⟩
      have hq := List.getElem?_eq_getElem (show i < moduli.length by
        rw [← ha.wellFormed.length_eq]
        exact (List.getElem?_eq_some_iff.mp hi).1)
      rcases htower i _ t hq (ha.tower_denotes hq hi) with ⟨u, hu, _⟩
      refine ⟨u, hu, ?_⟩
      intro j q hq' hj
      rcases htower j q t hq' (ha.tower_denotes hq' hj) with ⟨u', hu', hdenotes⟩
      rw [hu] at hu'
      cases hu'
      exact hdenotes) with ⟨b, hb, hlength, hget⟩
  refine ⟨b, hb, denotes_of_towers (hlength.trans ha.wellFormed.length_eq) ?_⟩
  intro i q u hq hu
  rcases ha.tower hq with ⟨t, ht, _⟩
  exact hget i t u ht hu i q hq ht

variable (hk : 0 < k) (hready : ReadyChain cache k psi moduli)

include hk hready

theorem setFormat_transform (ha : Denotes (2 ^ k) .COEFFICIENT moduli v a) :
    exists b, setFormat cache a .EVALUATION = some b ∧
      Denotes (2 ^ k) .EVALUATION moduli (transform k psi v) b := by
  apply setFormat_of_towers ha
  intro i q t hq ht
  rw [Poly.setFormat, ht.format_eq]
  exact Poly.switchFormat_evaluation hk (hready q (List.mem_of_getElem? hq)) ht

theorem setFormat_inverse (hk31 : k <= 31)
    (ha : Denotes (2 ^ k) .EVALUATION moduli (transform k psi v) a) :
    exists b, setFormat cache a .COEFFICIENT = some b ∧
      Denotes (2 ^ k) .COEFFICIENT moduli v b := by
  apply setFormat_of_towers ha
  intro i q t hq ht
  rw [Poly.setFormat, ht.format_eq]
  exact Poly.switchFormat_coefficient hk (hready q (List.mem_of_getElem? hq)) hk31 ht

theorem exists_coefficients (hk31 : k <= 31) (ha : WellFormed (2 ^ k) .EVALUATION moduli a) :
    exists b, setFormat cache a .COEFFICIENT = some b ∧
      WellFormed (2 ^ k) .COEFFICIENT moduli b ∧
      Denotes (2 ^ k) .EVALUATION moduli (transform k psi (residues b)) a := by
  rcases switchFormat_transforms hk hk31 hready ha with ⟨b, hb, hcoef, heval, htower⟩
  refine ⟨b, ?_, hcoef, denotes_of_towers ha.length_eq ?_⟩
  · rw [setFormat_ne, hb]
    intro t ht
    rw [ha.format_eq ht]
    decide
  · intro i q t hq ht
    rcases hcoef.exists_tower hq with ⟨u, hu, _⟩
    have hdenotes := (htower i q u t hq hu ht).eval_denotes
    refine ⟨hdenotes.modulus_eq, hdenotes.format_eq, hdenotes.holds.congr ?_⟩
    intro r _
    apply stageArray_congr
    intro c _
    exact congrArg Nat.cast (DCRTPoly.value_eq (a := b) hu c).symm

/-- In the coefficient format the towers are the residues of the integers `f`. -/
def HasCoefficients (cache : Poly.TableCache) (n : Nat) (moduli : List Nat) (a : DCRTPoly)
    (f : Nat -> Int) : Prop :=
  exists b, setFormat cache a .COEFFICIENT = some b ∧ WellFormed n .COEFFICIENT moduli b ∧
    forall r, r < n -> forall (i q : Nat), moduli[i]? = some q -> (value b i r : Int) = f r % q

omit hk hready in
theorem WellFormed.value_lt {n : Nat} {format : Format} (ha : WellFormed n format moduli a)
    {i q : Nat} (hq : moduli[i]? = some q) {r : Nat} (hr : r < n) : value a i r < q := by
  rcases ha.exists_tower hq with ⟨t, ht, hwf⟩
  rw [DCRTPoly.value_eq ht]
  exact hwf.value_lt hr

omit hk hready in
theorem Denotes.value_emod {n : Nat} {format : Format} {f : Nat -> Nat -> Int}
    (ha : Denotes n format moduli (fun i q r => (f i r : ZMod q)) a) {i q : Nat}
    (hq : moduli[i]? = some q) {r : Nat} (hr : r < n) : (value a i r : Int) = f i r % q := by
  have hlt := ha.wellFormed.value_lt hq hr
  have hcast : ((value a i r : Int) : ZMod q) = ((f i r : Int) : ZMod q) := by
    rw [Int.cast_natCast, ha.value_eq i q hq r hr]
  have hmod := (ZMod.intCast_eq_intCast_iff' _ _ q).mp hcast
  rwa [Int.emod_eq_of_lt (by omega) (by omega)] at hmod

omit hk hready in
theorem Denotes.value_mod {n : Nat} {format : Format} {f : Nat -> Nat -> Nat -> Nat}
    (ha : Denotes n format moduli (fun i q r => (f i q r : ZMod q)) a) {i q : Nat}
    (hq : moduli[i]? = some q) {r : Nat} (hr : r < n) : value a i r = f i q r % q := by
  have hmod := (ZMod.natCast_eq_natCast_iff' _ _ q).mp (ha.value_eq i q hq r hr)
  rwa [Nat.mod_eq_of_lt (ha.wellFormed.value_lt hq hr)] at hmod

theorem setFormat_hasCoefficients (hk31 : k <= 31) {f : Nat -> Nat -> Int}
    (ha : Denotes (2 ^ k) .COEFFICIENT moduli (fun i q r => (f i r : ZMod q)) a) :
    exists b, setFormat cache a .EVALUATION = some b ∧ WellFormed (2 ^ k) .EVALUATION moduli b ∧
      setFormat cache b .COEFFICIENT = some a := by
  rcases setFormat_transform hk hready ha with ⟨b, hb, hbdenotes⟩
  rcases setFormat_inverse hk hready hk31 hbdenotes with ⟨a', ha', hadenotes⟩
  rw [hadenotes.unique ha] at ha'
  exact ⟨b, hb, hbdenotes.wellFormed, ha'⟩

theorem HasCoefficients.denotes (hk31 : k <= 31) {f : Nat -> Int}
    (h : HasCoefficients cache (2 ^ k) moduli a f) (ha : WellFormed (2 ^ k) .EVALUATION moduli a) :
    Denotes (2 ^ k) .EVALUATION moduli (transform k psi fun _ q r => (f r : ZMod q)) a := by
  rcases exists_coefficients hk hready hk31 ha with ⟨b, hb, _, hdenotes⟩
  rcases h with ⟨b', hb', _, hvalue⟩
  cases hb.symm.trans hb'
  apply hdenotes.congr
  intro i q hq r _
  apply stageArray_congr
  intro c hc
  have hcast := congrArg (Int.cast (R := ZMod q)) (hvalue c hc i q hq)
  rw [Int.cast_natCast, ZMod.intCast_mod] at hcast
  exact hcast

theorem Denotes.hasCoefficients (hk31 : k <= 31) {f : Nat -> Int}
    (ha : Denotes (2 ^ k) .EVALUATION moduli (transform k psi fun _ q r => (f r : ZMod q)) a) :
    HasCoefficients cache (2 ^ k) moduli a f := by
  rcases setFormat_inverse hk hready hk31 ha with ⟨b, hb, hdenotes⟩
  exact ⟨b, hb, hdenotes.wellFormed, fun r hr i q hq =>
    hdenotes.value_emod (f := fun _ r => f r) hq hr⟩

end Format

end DCRTPoly

end Hal
end OpenFHE
