import OpenFHE.Hal.GadgetProduct

/-!
# Correctness of the gadget decomposition

Modulo one native modulus the last window must end inside a word.  For double-CRT
polynomials every base below `2 ^ 32` has its digits, but the inner product carries one base
too much.
-/

namespace OpenFHE
namespace Hal

open OpenFHE.Core Foundation NativeInteger DCRTPoly

def answerFormat (evalModeAnswer : Bool) : Format :=
  if evalModeAnswer then .EVALUATION else .COEFFICIENT

/-! ## One modulus -/

namespace Poly

section PolyGadget

variable {cache : TableCache} {k : Nat} {psi : Nat -> Nat} {q b : Nat} {format : Format}
  (hk : 0 < k) (hk31 : k <= 31) (hq : Ready cache k q (psi q))

theorem digitPoly_true (x : Poly) (j : Nat) :
    digitPoly cache x b true j = (digitPoly cache x b false j).bind (switchFormat cache) := by
  unfold digitPoly
  simp only [Option.bind_eq_bind, Option.bind_assoc, if_true, Bool.false_eq_true, if_false,
    Option.bind_some]

include hk hq

theorem setFormat_encodes (hk31 : k <= 31) {v : Nat -> Int} {x : Poly}
    (hx : TowerEncodes k psi q format v x) (target : Format) :
    exists y, setFormat cache x target = some y ∧ TowerEncodes k psi q target v y := by
  cases target with
  | COEFFICIENT => exact setFormat_tower hk hk31 hq hx
  | EVALUATION =>
      cases format with
      | COEFFICIENT =>
          rcases switchFormat_tower hk hq hx with ⟨y, hy, hencodes⟩
          refine ⟨y, ?_, hencodes⟩
          rw [setFormat, if_neg (by rw [hx.format_eq]; decide), hy]
      | EVALUATION =>
          refine ⟨x, ?_, hx⟩
          rw [setFormat, if_pos hx.format_eq]

theorem baseDecompose_encodes (hk31 : k <= 31) (hb : 0 < b) (hreadable : Readable b q)
    {v : Nat -> Nat} (hv : forall r, r < 2 ^ k -> v r < q) {x : Poly}
    (hx : TowerEncodes k psi q format (fun r => v r) x) (evalModeAnswer : Bool) :
    exists ds, baseDecompose cache x b evalModeAnswer = some ds ∧ ds.length = windows b q ∧
      forall (j : Nat) d, ds[j]? = some d ->
        TowerEncodes k psi q (answerFormat evalModeAnswer) (fun r => digitAt b v j r) d := by
  rcases setFormat_tower hk hk31 hq hx with ⟨u, hu, hencodes⟩
  have hvalue : forall r, r < 2 ^ k -> u.value r = v r := by
    intro r hr
    have hentry := hencodes.holds.getElem? hr (v := v r) ⟨hv r hr, (Int.cast_natCast _).symm⟩
    rw [value, List.getD_eq_getElem?_getD, hentry]
    rfl
  unfold baseDecompose
  rw [if_neg (by omega), hu, hx.modulus_eq]
  simp only [Option.bind_eq_bind, Option.bind_some]
  apply mapM_range_spec
  intro j hj
  rcases digitPoly_spec cache hencodes.wellFormed hreadable hj with ⟨d, hd, hwf, hdigit⟩
  have hdencodes : TowerEncodes k psi q .COEFFICIENT (fun r => digitAt b v j r) d := by
    apply hwf.denotes.congr
    intro r hr
    change ((d.value r : Nat) : ZMod q) = ((digitAt b v j r : Int) : ZMod q)
    rw [hdigit r hr, hvalue r hr, Int.cast_natCast]
    rfl
  cases evalModeAnswer with
  | false => exact ⟨d, hd, hdencodes⟩
  | true =>
      rcases switchFormat_tower hk hq hdencodes with ⟨y, hy, hyencodes⟩
      refine ⟨y, ?_, hyencodes⟩
      rw [digitPoly_true, hd, Option.bind_some, hy]

omit hk in
theorem powersOfBase_encodes (hb : 0 < b) {w : Nat -> Int} {s : Poly}
    (hs : TowerEncodes k psi q format w s) :
    exists ps, powersOfBase s b = some ps ∧ ps.length = windows b q ∧
      forall (j : Nat) p, ps[j]? = some p ->
        TowerEncodes k psi q format (fun r => ((1 * 2 ^ (j * b) : Nat) : Int) * w r) p := by
  unfold powersOfBase
  rw [if_neg (by omega), hs.modulus_eq]
  apply mapM_range_spec
  intro j hj
  rcases basePower_spec hq.modulus hb hj with ⟨power, hpower, hcast⟩
  rcases timesInteger_tower (i := 0) hq.modulus hs (e := power) (c := 1 * 2 ^ (j * b))
    (by rw [hcast]; push_cast; rw [one_mul]) with ⟨p, hp, hdenotes⟩
  refine ⟨p, ?_, ?_⟩
  · rw [hpower]
    exact hp
  · apply TowerEncodes.congr hdenotes
    intro r _
    rw [mul_comm]

theorem gadgetOperations_sound (hk31 : k <= 31) :
    (gadgetOperations cache).Sound (TowerEncodes k psi q)
      (fun v => inFormat k psi .EVALUATION (integerResidues v) 0 q)
      (Denotes q (2 ^ k) .EVALUATION) where
  setFormat := setFormat_encodes hk hq hk31
  evaluation := fun h => h
  times := fun _ _ _ _ hx hy => times_denotes hq.modulus hx hy
  plusEq := fun _ _ _ _ hx hy => plusEq_denotes hq.modulus hx hy

theorem polyGadget (hk31 : k <= 31) (hb : 0 < b) (hreadable : Readable b q) :
    PolyGadget cache k psi q format b := by
  have hone := hq.modulus.one_lt
  have hsound := gadgetOperations_sound hk hq hk31
  constructor
  · intro v x hv hx
    rcases baseDecompose_encodes hk hq hk31 hb hreadable hv hx false with
      ⟨ds, hds, hlength, hget⟩
    exact recomposes_of_digits hb hone hv hds hlength hget
  · intro v w target x s hv hx hs
    rcases baseDecompose_encodes hk hq hk31 hb hreadable hv hx true with
      ⟨ds, hds, hdsLength, hdsGet⟩
    rcases powersOfBase_encodes hq hb hs with ⟨ps, hps, hpsLength, hpsGet⟩
    rcases hsound.gadgetProduct_spec (windows_bounds hb hone).1 hds hdsLength hdsGet hps hpsLength
      hpsGet with ⟨p, hp, hpden⟩
    rcases hsound.product_spec hx hs with ⟨p', hp', hpden'⟩
    refine ⟨p, hp, ?_⟩
    rw [hp']
    congr 1
    apply hpden'.unique
    apply hpden.congr
    intro r hr
    rw [Finset.sum_apply]
    refine (sum_digits_mul .EVALUATION hb hone hv w 0 q hr).trans ?_
    rw [Nat.cast_one, one_mul]
    rfl

theorem polyGadget_iff (hk31 : k <= 31) (hb : 0 < b) :
    (forall format, PolyGadget cache k psi q format b) <-> Readable b q := by
  constructor
  · intro h
    by_contra hreadable
    have hwf := (zero_denotes (show 0 < q from hq.modulus.one_lt.le) (2 ^ k) .COEFFICIENT)
    have hzero : TowerEncodes k psi q .COEFFICIENT (fun _ => ((0 : Nat) : Int))
        (zero q (2 ^ k) .COEFFICIENT) := by
      apply hwf.congr
      intro r _
      change (0 : ZMod q) = (((0 : Nat) : Int) : ZMod q)
      rw [Int.cast_natCast, Nat.cast_zero]
    rcases (h .COEFFICIENT).decompose (fun _ => 0) _ (fun _ _ => hq.modulus.one_lt.le) hzero with
      ⟨ds, _, hds, _⟩
    have hnone : baseDecompose cache (zero q (2 ^ k) .COEFFICIENT) b false = none :=
      baseDecompose_eq_none cache hb hq.modulus hwf.wellFormed (Nat.two_pow_pos k) hreadable
    cases hnone.symm.trans hds
  · intro hreadable format
    exact polyGadget hk hq hk31 hb hreadable

end PolyGadget

end Poly

/-! ## All towers -/

namespace DCRTPoly

theorem one_lt_prod {moduli : List Nat} (hne : moduli ≠ [])
    (hone : forall q, q ∈ moduli -> 1 < q) : 1 < moduli.prod := by
  cases moduli with
  | nil => exact absurd rfl hne
  | cons q l =>
      have hdvd : q ∣ (q :: l).prod := List.dvd_prod List.mem_cons_self
      have hle := Nat.le_of_dvd (prod_pos hone) hdvd
      exact lt_of_lt_of_le (hone q List.mem_cons_self) hle

section DCRTPolyGadget

variable {cache : Poly.TableCache} {k : Nat} {psi : Nat -> Nat} {moduli : List Nat} {b : Nat}
  {format : Format}

theorem crtInterpolate_evaluation {n : Nat} {a : DCRTPoly} (hne : moduli ≠ [])
    (ha : WellFormed n .EVALUATION moduli a) : crtInterpolate n a = none := by
  have hany : (a.any fun t => t.format ≠ .COEFFICIENT) = true := by
    rw [List.any_eq_true]
    have hlength := ha.length_eq
    have hmoduli := List.length_pos_iff.mpr hne
    have hpos : 0 < a.length := by omega
    have hmem : a[0] ∈ a := List.getElem_mem hpos
    refine ⟨_, hmem, ?_⟩
    simp [ha.format_eq hmem]
  unfold crtInterpolate
  rw [if_pos hany]

section Powers

variable (hmoduli : forall q, q ∈ moduli -> Poly.NttModulus q) {w : Nat -> Int} {s : DCRTPoly}
  (hs : Encodes k psi format moduli w s)

include hmoduli hs

theorem powersLoop_encodes (hb : b < 2 ^ 16) (m twoPow : Nat) :
    exists ps, powersLoop s b m twoPow = some ps ∧ ps.length = m ∧
      forall (j : Nat) p, ps[j]? = some p ->
        Encodes k psi format moduli
          (fun r => ((twoPow * 2 ^ b * 2 ^ (j * b) : Nat) : Int) * w r) p := by
  induction m generalizing twoPow with
  | zero => exact ⟨[], rfl, rfl, fun j p hp => by cases hp⟩
  | succ m ih =>
      have hshift : twoPow <<< (b % 2 ^ 16) = twoPow * 2 ^ b := by
        rw [Nat.mod_eq_of_lt hb, Nat.shiftLeft_eq]
      rcases mapTowers_encodes (fun _ t => t.timesInteger (twoPow * 2 ^ b % t.modulus))
        (y := fun r => w r * (twoPow * 2 ^ b : Nat)) hs (by
          intro i q t hq ht
          have hmodulus := hmoduli q (List.mem_of_getElem? hq)
          exact timesInteger_tower (i := 0) hmodulus ht (by
            rw [ht.modulus_eq, ZMod.natCast_mod])) with ⟨x, hx, hxencodes⟩
      rcases ih (twoPow * 2 ^ b) with ⟨ps, hps, hlength, hget⟩
      refine ⟨x :: ps, ?_, congrArg Nat.succ hlength, ?_⟩
      · unfold powersLoop
        rw [hshift]
        simp only [Option.bind_eq_bind, hx, Option.bind_some, hps]
        rfl
      · intro j p hp
        cases j with
        | zero =>
            cases hp
            apply hxencodes.congr
            intro q _ r _
            rw [zero_mul, pow_zero, mul_one, mul_comm]
        | succ j =>
            apply (hget j p hp).congr
            intro q _ r _
            push_cast
            ring

theorem powersOfBase_encodes (hpos : 0 < b) (hb : b < 2 ^ 16) :
    exists ps, powersOfBase s b = some ps ∧ ps.length = windows b moduli.prod ∧
      forall (j : Nat) p, ps[j]? = some p ->
        Encodes k psi format moduli
          (fun r => ((2 ^ b * 2 ^ (j * b) : Nat) : Int) * w r) p := by
  rcases powersLoop_encodes hmoduli hs hb (windows b moduli.prod) 1 with
    ⟨ps, hps, hlength, hget⟩
  refine ⟨ps, ?_, hlength, ?_⟩
  · unfold powersOfBase
    rw [if_neg (by omega), bigModulus, hs.wellFormed.moduli_eq, hps]
  · intro j p hp
    have hencodes := hget j p hp
    rwa [one_mul] at hencodes

end Powers

variable (hk : 0 < k) (hk31 : k <= 31) (hready : ReadyChain cache k psi moduli)
  (hcoprime : moduli.Pairwise Nat.Coprime)

include hready hcoprime

theorem crtInterpolate_encodes {v : Nat -> Nat} (hv : forall r, r < 2 ^ k -> v r < moduli.prod)
    {x : DCRTPoly} (hx : Encodes k psi .COEFFICIENT moduli (fun r => v r) x) :
    exists p, crtInterpolate (2 ^ k) x = some p ∧
      LargeEncodes (2 ^ k) moduli.prod (fun r => v r) p := by
  have hone : forall q, q ∈ moduli -> 1 < q := fun q hq => (hready q hq).modulus.one_lt
  rcases crtInterpolate_spec hcoprime hone hx.wellFormed with ⟨p, hp, hwf, hresidues⟩
  refine ⟨p, hp, ?_⟩
  apply hwf.denotes.congr
  intro r hr
  have hvalue : p.value r = v r := by
    apply eq_of_residues hcoprime
      (hwf.value_lt hr) (hv r hr)
    intro q hq
    rcases List.mem_iff_getElem?.mp hq with ⟨i, hi⟩
    have hmod := Denotes.value_emod (f := fun _ r => (v r : Int)) hx hi hr
    rw [hresidues r hr i q hi, ← Int.natCast_inj, hmod, Int.natCast_mod]
  rw [hvalue, Int.cast_natCast]

include hk hk31

theorem baseDecompose_encodes (hpos : 0 < b) (hb : b <= 31) {v : Nat -> Nat}
    (hv : forall r, r < 2 ^ k -> v r < moduli.prod) {x : DCRTPoly}
    (hx : Encodes k psi .COEFFICIENT moduli (fun r => v r) x) (evalModeAnswer : Bool) :
    exists ds, baseDecompose cache (2 ^ k) x b evalModeAnswer = some ds ∧
      ds.length = windows b moduli.prod ∧
      forall (j : Nat) d, ds[j]? = some d ->
        Encodes k psi (answerFormat evalModeAnswer) moduli (fun r => digitAt b v j r) d := by
  have hone : forall q, q ∈ moduli -> 1 < q := fun q hq => (hready q hq).modulus.one_lt
  rcases crtInterpolate_encodes hready hcoprime hv hx with ⟨p, hp, hpencodes⟩
  rcases Poly.baseDecomposeLarge_spec hpos hb hv hpencodes with ⟨bdV, hbdV, hlength, hget⟩
  rcases mapM_spec (l := bdV)
    (f := fun dv => (ofPolyLarge (x.map Poly.modulus) (2 ^ k) dv).bind fun result =>
      if evalModeAnswer then switchFormat cache result else some result)
    (fun dv r => forall u : Nat -> Int, LargeEncodes (2 ^ k) moduli.prod u dv ->
      Encodes k psi (answerFormat evalModeAnswer) moduli u r) (by
      intro dv hdv
      rcases List.mem_iff_getElem?.mp hdv with ⟨j, hj⟩
      have hlarge := hget j dv hj
      rcases ofPolyLarge_spec (p := dv) hone hlarge.holds.length_eq with ⟨a, ha, hwf, hvalue⟩
      rw [hlarge.format_eq] at hwf
      have hencodes : forall u : Nat -> Int, LargeEncodes (2 ^ k) moduli.prod u dv ->
          Encodes k psi .COEFFICIENT moduli u a := by
        intro u hu
        refine ⟨hwf, ?_⟩
        intro i q hq r hr
        have hdvd : q ∣ moduli.prod := List.dvd_prod (List.mem_of_getElem? hq)
        have hcast := congrArg (ZMod.castHom hdvd (ZMod q)) (hu.value_eq hr)
        rw [map_natCast, map_intCast] at hcast
        rw [hvalue i q hq r, ZMod.natCast_mod, hcast]
        rfl
      rw [hx.wellFormed.moduli_eq, ha, Option.bind_some]
      cases evalModeAnswer with
      | false => exact ⟨a, rfl, hencodes⟩
      | true =>
          rcases (hencodes _ hlarge).setFormat hk hk31 hready .EVALUATION with ⟨y, hy, _⟩
          have hswitch : switchFormat cache a = some y := by
            rw [← hy, setFormat_ne]
            intro t ht
            rw [hwf.format_eq ht]
            decide
          refine ⟨y, hswitch, ?_⟩
          intro u hu
          rcases (hencodes u hu).setFormat hk hk31 hready .EVALUATION with ⟨y', hy', hyencodes⟩
          cases hy.symm.trans hy'
          exact hyencodes) with ⟨ds, hds, hdsLength, hdsGet⟩
  refine ⟨ds, ?_, hdsLength.trans hlength, ?_⟩
  · unfold baseDecompose
    rw [hp]
    simp only [Option.bind_eq_bind, Option.bind_some, hbdV]
    exact hds
  · intro j d hd
    have hj : j < bdV.length := by
      rw [← hdsLength]
      exact (List.getElem?_eq_some_iff.mp hd).1
    have hdv := List.getElem?_eq_getElem hj
    exact hdsGet j _ d hdv hd _ (hget j _ hdv)

omit hcoprime in
theorem gadgetOperations_sound (hne : moduli ≠ []) :
    (gadgetOperations cache (2 ^ k)).Sound (fun format x a => Encodes k psi format moduli x a)
      (fun v => inFormat k psi .EVALUATION (integerResidues v))
      (Denotes (2 ^ k) .EVALUATION moduli) where
  setFormat := fun h target => h.setFormat hk hk31 hready target
  evaluation := fun h => h
  times := fun _ _ _ _ hx hy => times_denotes (fun q hq => (hready q hq).modulus) hx hy
    (List.length_pos_iff.mpr hne)
  plusEq := fun _ _ _ _ hx hy => plusEq_denotes (fun q hq => (hready q hq).modulus) hx hy

variable (hne : moduli ≠ [])

include hne

theorem products_spec (hpos : 0 < b) (hb : b <= 31) {v : Nat -> Nat}
    (hv : forall r, r < 2 ^ k -> v r < moduli.prod) {w : Nat -> Int} {x s : DCRTPoly}
    (hx : Encodes k psi .COEFFICIENT moduli (fun r => v r) x)
    (hs : Encodes k psi format moduli w s) :
    exists p p', (gadgetOperations cache (2 ^ k)).gadgetProduct x s b = some p ∧
      (gadgetOperations cache (2 ^ k)).product x s = some p' ∧
      Denotes (2 ^ k) .EVALUATION moduli (fun i q r => (2 ^ b : Nat) *
        (inFormat k psi .EVALUATION (integerResidues fun c => v c) i q r *
          inFormat k psi .EVALUATION (integerResidues w) i q r)) p ∧
      Denotes (2 ^ k) .EVALUATION moduli (fun i q r =>
        inFormat k psi .EVALUATION (integerResidues fun c => v c) i q r *
          inFormat k psi .EVALUATION (integerResidues w) i q r) p' := by
  have hmoduli : forall q, q ∈ moduli -> Poly.NttModulus q := fun q hq => (hready q hq).modulus
  have hone : 1 < moduli.prod :=
    one_lt_prod hne fun q hq => (hmoduli q hq).one_lt
  have hsound := gadgetOperations_sound hk hk31 hready hne
  rcases baseDecompose_encodes hk hk31 hready hcoprime hpos hb hv hx true with
    ⟨ds, hds, hdsLength, hdsGet⟩
  rcases powersOfBase_encodes hmoduli hs hpos (show b < 2 ^ 16 by omega) with
    ⟨ps, hps, hpsLength, hpsGet⟩
  rcases hsound.gadgetProduct_spec (windows_bounds hpos hone).1 hds hdsLength hdsGet hps hpsLength
    hpsGet with ⟨p, hp, hpden⟩
  rcases hsound.product_spec hx hs with ⟨p', hp', hpden'⟩
  refine ⟨p, p', hp, hp', ?_, hpden'⟩
  apply hpden.congr
  intro i q _ r hr
  rw [Finset.sum_apply, Finset.sum_apply, Finset.sum_apply]
  exact sum_digits_mul .EVALUATION hpos hone hv w i q hr

theorem dcrtPolyGadget (hpos : 0 < b) (hb : b <= 31) (hdvd : moduli.prod ∣ 2 ^ b - 1) :
    DCRTPolyGadget cache k psi moduli .COEFFICIENT b := by
  have hone : 1 < moduli.prod :=
    one_lt_prod hne fun q hq => (hready q hq).modulus.one_lt
  constructor
  · intro v x hv hx
    rcases baseDecompose_encodes hk hk31 hready hcoprime hpos hb hv hx false with
      ⟨ds, hds, hlength, hget⟩
    exact recomposes_of_digits hpos hone hv hds hlength hget
  · intro v w target x s hv hx hs
    rcases products_spec hk hk31 hready hcoprime hne hpos hb hv hx hs with
      ⟨p, p', hp, hp', hpden, hpden'⟩
    refine ⟨p, hp, ?_⟩
    rw [hp']
    congr 1
    apply hpden'.unique
    apply hpden.congr
    intro i q hq r _
    have hq' : q ∣ 2 ^ b - 1 := (List.dvd_prod (List.mem_of_getElem? hq)).trans hdvd
    have hbase : ((2 ^ b : Nat) : ZMod q) = 1 := by
      have hmodEq := (Nat.modEq_iff_dvd' (Nat.one_le_two_pow (n := b))).mpr hq'
      rw [← Nat.cast_one]
      exact (ZMod.natCast_eq_natCast_iff _ _ _).mpr hmodEq.symm
    rw [hbase, one_mul]

omit hk hk31 hcoprime in
theorem gadget_format (h : DCRTPolyGadget cache k psi moduli format b) :
    format = .COEFFICIENT := by
  cases format with
  | COEFFICIENT => rfl
  | EVALUATION =>
      have hpos : forall q, q ∈ moduli -> 0 < q := fun q hq => (hready q hq).modulus.one_lt.le
      have hzero : Encodes k psi .EVALUATION moduli (fun _ => 0) (zero moduli (2 ^ k) .EVALUATION) :=
        zero_encodes hpos .EVALUATION
      rcases h.decompose (fun _ => 0) _ (fun _ _ => Nat.pos_of_ne_zero fun hprod =>
        absurd (hpos 0 (List.prod_eq_zero_iff.mp hprod)) (Nat.lt_irrefl 0))
        (by simpa using hzero) with ⟨ds, _, hds, _⟩
      change baseDecompose cache (2 ^ k) _ b false = _ at hds
      unfold baseDecompose at hds
      rw [crtInterpolate_evaluation hne hzero.wellFormed] at hds
      cases hds

omit hk hk31 in
theorem gadget_le (h : DCRTPolyGadget cache k psi moduli .COEFFICIENT b) : b <= 31 := by
  by_contra hlarge
  have hpos : forall q, q ∈ moduli -> 0 < q := fun q hq => (hready q hq).modulus.one_lt.le
  have hone : 1 < moduli.prod :=
    one_lt_prod hne fun q hq => (hready q hq).modulus.one_lt
  have hzero : Encodes k psi .COEFFICIENT moduli (fun _ => ((0 : Nat) : Int))
      (zero moduli (2 ^ k) .COEFFICIENT) := zero_encodes hpos .COEFFICIENT
  have hv : forall r, r < 2 ^ k -> 0 < moduli.prod := fun _ _ => by omega
  rcases crtInterpolate_encodes hready hcoprime hv hzero with ⟨p, hp, hpencodes⟩
  rcases h.decompose (fun _ => 0) _ hv hzero with ⟨ds, _, hds, _⟩
  change baseDecompose cache (2 ^ k) _ b false = _ at hds
  unfold baseDecompose at hds
  rw [hp] at hds
  simp only [Option.bind_eq_bind, Option.bind_some] at hds
  rw [Poly.baseDecomposeLarge_eq_none (by omega) (by rw [hpencodes.modulus_eq]; exact hone)] at hds
  cases hds

theorem gadget_dvd (h : DCRTPolyGadget cache k psi moduli .COEFFICIENT b) (hpos : 0 < b)
    (hb : b <= 31) : moduli.prod ∣ 2 ^ b - 1 := by
  have hone : forall q, q ∈ moduli -> 1 < q := fun q hq => (hready q hq).modulus.one_lt
  have hwf : WellFormed (2 ^ k) .EVALUATION moduli
      (constant moduli (List.replicate (2 ^ k) 1)) := by
    apply constant_wellFormed _ List.length_replicate
    intro q hq x hx
    rw [List.eq_of_mem_replicate hx]
    exact hone q hq
  rcases hwf.exists_encodes hk hk31 hready hcoprime with ⟨p, _, hpwf, hencodes⟩
  rcases hencodes.setFormat hk hk31 hready .COEFFICIENT with ⟨x, _, hx⟩
  have hv : forall r, r < 2 ^ k -> p.value r < moduli.prod := by
    intro r hr
    exact hpwf.value_lt hr
  rcases products_spec hk hk31 hready hcoprime hne hpos hb hv hx hencodes with
    ⟨z, z', hz, hz', hzden, hzden'⟩
  rcases h.product _ _ _ _ _ hv hx hencodes with ⟨y, hy, hy'⟩
  have hsame : z = z' := Option.some.inj (hz.symm.trans (hy.trans (hy'.symm.trans hz')))
  subst hsame
  apply (Nat.modEq_iff_dvd' (Nat.one_le_two_pow (n := b))).mp
  apply (Nat.modEq_list_prod_iff hcoprime).mpr
  intro index
  rcases List.mem_iff_getElem?.mp (List.get_mem moduli index) with ⟨i, hi⟩
  generalize moduli.get index = q at hi ⊢
  have hunit : inFormat k psi .EVALUATION (integerResidues fun c => p.value c) i q 0 = 1 := by
    have hvalue := hencodes.value_eq i q hi 0 (Nat.two_pow_pos k)
    have hentry : (constant moduli (List.replicate (2 ^ k) 1))[i]? =
        some { modulus := q, format := .EVALUATION, values := List.replicate (2 ^ k) 1 } := by
      rw [constant, List.getElem?_map, hi]
      rfl
    rw [← hvalue, value_eq hentry, Poly.value, List.getD_eq_getElem?_getD,
      List.getElem?_replicate_of_lt (Nat.two_pow_pos k)]
    exact Nat.cast_one
  have hfirst := hzden.value_eq i q hi 0 (Nat.two_pow_pos k)
  have hsecond := hzden'.value_eq i q hi 0 (Nat.two_pow_pos k)
  rw [hsecond, hunit, mul_one, mul_one] at hfirst
  apply (ZMod.natCast_eq_natCast_iff _ _ _).mp
  rw [Nat.cast_one]
  exact hfirst

theorem dcrtPolyGadget_iff (hpos : 0 < b) : DCRTPolyGadget cache k psi moduli format b <->
    format = .COEFFICIENT ∧ b <= 31 ∧ moduli.prod ∣ 2 ^ b - 1 := by
  constructor
  · intro h
    have hformat := gadget_format hready hne h
    subst hformat
    have hb := gadget_le hready hcoprime hne h
    exact ⟨rfl, hb, gadget_dvd hk hk31 hready hcoprime hne h hpos hb⟩
  · rintro ⟨rfl, hb, hdvd⟩
    exact dcrtPolyGadget hk hk31 hready hcoprime hne hpos hb hdvd

end DCRTPolyGadget

end DCRTPoly

/-- The gadgets of all classes of polynomials, each with its exact condition. -/
theorem gadgetDecomposition_iff {cache : Poly.TableCache} {k : Nat} {psi : Nat -> Nat}
    (hk : 0 < k) (hk31 : k <= 31) {b : Nat} (hb : 0 < b) {q : Nat}
    (hq : Poly.Ready cache k q (psi q)) {moduli : List Nat} (hne : moduli ≠ [])
    (hready : ReadyChain cache k psi moduli) (hcoprime : moduli.Pairwise Nat.Coprime)
    (format : Format) {n Q : Nat} (hQ : 1 < Q) :
    ((forall format, PolyGadget cache k psi q format b) <-> Readable b q) ∧
      (DCRTPolyGadget cache k psi moduli format b <->
        format = .COEFFICIENT ∧ b <= 31 ∧ moduli.prod ∣ 2 ^ b - 1) ∧
      (LargeGadget n Q b <-> b <= 31) := by
  refine ⟨?_, ?_, ?_⟩
  · exact Poly.polyGadget_iff hk hq hk31 hb
  · exact DCRTPoly.dcrtPolyGadget_iff hk hk31 hready hcoprime hne hb
  · exact largeGadget_iff hb hQ

/-! ## Small parameters -/

/-- The product of the towers 5 and 13 divides `2 ^ 12 - 1`. -/
theorem gadgetDecomposition_small :
    (forall format, PolyGadget Poly.smallCache 1 Poly.smallRoot 17 format 12) ∧
      DCRTPolyGadget Poly.smallCache 1 Poly.smallRoot [5, 13] .COEFFICIENT 12 ∧
      LargeGadget 2 65 12 := by
  have hready : ReadyChain Poly.smallCache 1 Poly.smallRoot [5, 13] := smallReadyChain (by decide)
  have h := gadgetDecomposition_iff (b := 12) (q := 17) (n := 2) (Q := 65) (by decide) (by decide)
    (by decide) (Poly.smallReady (by decide)) (by decide) hready (by decide) .COEFFICIENT
    (by decide)
  exact ⟨h.1.mpr ⟨by decide, by decide⟩, h.2.1.mpr ⟨rfl, by decide, by decide⟩,
    h.2.2.mpr (by decide)⟩

/-- The powers of two start with two, and the third window of 25 bits ends past a word. -/
theorem not_gadgetDecomposition :
    ¬ DCRTPolyGadget Poly.smallCache 1 Poly.smallRoot [5, 13] .COEFFICIENT 1 ∧
      ¬ forall format,
        PolyGadget Poly.smallCache 1 Poly.smallRoot 1152921504606846869 format 25 := by
  constructor
  · intro h
    have hdvd := DCRTPoly.gadget_dvd (by decide) (by decide) (smallReadyChain (by decide))
      (by decide) (by decide) h (by decide) (by decide)
    exact absurd hdvd (by decide)
  · intro h
    have hreadable := (Poly.polyGadget_iff (by decide) (Poly.smallReady (by decide)) (by decide)
      (by decide)).mp h
    have hbits := hreadable.2
    revert hbits
    decide

end Hal
end OpenFHE
