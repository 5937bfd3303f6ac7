import OpenFHE.Hal.DCRTPoly
import OpenFHE.Core.NativeInteger.Digits
import OpenFHE.Foundation.Placement

/-!
# Digit decomposition

`BaseDecompose` cuts the coefficients of one tower into windows of bits, and
`CRTDecompose` does so for every tower and lifts each window to all towers.
-/

namespace OpenFHE
namespace Hal

open OpenFHE.Core Foundation NativeInteger

def windows (baseBits modulus : Nat) : Nat :=
  let nBits := getLengthForBase modulus
  nBits / baseBits + if nBits % baseBits > 0 then 1 else 0

/-- The position of the first window of tower `i`. -/
def arrWindows (baseBits : Nat) (moduli : List Nat) (i : Nat) : Nat :=
  rowStart (moduli.map (windows baseBits)) i

namespace Poly

/-- Window `i` of every value. -/
def digitPoly (cache : TableCache) (x : Poly) (baseBits : Nat) (evalModeAnswer : Bool)
    (i : Nat) : Option Poly := do
  let base <- shiftOne baseBits
  let values <- x.values.mapM fun v => getDigitAtIndexForBase v (i + 1) base
  let xDigit := { x with values := values }
  if evalModeAnswer then switchFormat cache xDigit else some xDigit

def baseDecompose (cache : TableCache) (a : Poly) (baseBits : Nat)
    (evalModeAnswer : Bool) : Option (List Poly) :=
  if baseBits = 0 then none
  else do
    let nWindows := windows baseBits a.modulus
    let x <- setFormat cache a .COEFFICIENT
    (List.range nWindows).mapM (digitPoly cache x baseBits evalModeAnswer)

def powersOfBase (a : Poly) (baseBits : Nat) : Option (List Poly) :=
  if baseBits = 0 then none
  else
    (List.range (windows baseBits a.modulus)).mapM fun i => do
      let power <- modExp 2 (i * baseBits) a.modulus
      timesInteger a power

end Poly

namespace DCRTPoly

variable (cache : Poly.TableCache)

def switchFormat (a : DCRTPoly) : Option DCRTPoly := a.mapM (Poly.switchFormat cache)

/-- Tower `k` of a tower that is lifted from tower `i`, for the undivided digits. -/
def liftTower (coef eval : DCRTPoly) (i k : Nat) : Option Poly := do
  let evalTower <- eval[k]?
  if i ≠ k then
    let tmp <- coef[i]?
    let target <- coef[k]?
    Poly.setFormat cache (Poly.switchModulus tmp target.modulus) .EVALUATION
  else return evalTower

def windowTower (coef : DCRTPoly) (i : Nat) (digit : Poly) (k : Nat) : Option Poly := do
  let target <- coef[k]?
  let tmp := if i ≠ k then Poly.switchModulus digit target.modulus else digit
  Poly.switchFormat cache tmp

def towerWindows (coef : DCRTPoly) (baseBits : Nat) (i : Nat) : Option (List DCRTPoly) := do
  let tower <- coef[i]?
  let decomposed <- Poly.baseDecompose cache tower baseBits false
  decomposed.mapM fun digit => (List.range coef.length).mapM (windowTower cache coef i digit)

/-- `format` is the format of all towers. -/
def crtDecompose (format : Format) (a : DCRTPoly) (baseBits : Nat) :
    Option (List DCRTPoly) := do
  let cp <- switchFormat cache a
  let coef := if format = .COEFFICIENT then a else cp
  let eval := if format = .COEFFICIENT then cp else a
  let size := a.length
  if baseBits = 0 then
    (List.range size).mapM fun i =>
      (List.range size).mapM (liftTower cache coef eval i)
  else
    let moduli := coef.map Poly.modulus
    let nWindows := arrWindows baseBits moduli size
    (List.range size).foldlM
      (placeRows (arrWindows baseBits moduli) (towerWindows cache coef baseBits))
      (List.replicate nWindows [])

end DCRTPoly

/-!
## Windows
-/

theorem getLengthForBase_pos {modulus : Nat} (hmodulus : 1 < modulus) :
    0 < getLengthForBase modulus := by
  have htwo := two_le_getMSB hmodulus
  unfold getLengthForBase
  omega

theorem windows_bounds {baseBits : Nat} (hr : 0 < baseBits) {modulus : Nat}
    (hmodulus : 1 < modulus) :
    0 < windows baseBits modulus ∧ modulus <= 2 ^ (windows baseBits modulus * baseBits) := by
  have hpos := getLengthForBase_pos hmodulus
  have hbits := (getMSB_bounds (by omega : 0 < modulus)).2
  have hdivmod := Nat.div_add_mod' (getLengthForBase modulus) baseBits
  have hmod := Nat.mod_lt (getLengthForBase modulus) hr
  have hcover : getLengthForBase modulus <= windows baseBits modulus * baseBits := by
    unfold windows
    dsimp only
    split
    next hrest =>
        rw [add_mul, one_mul]
        omega
    next hexact =>
        rw [add_zero]
        omega
  constructor
  · refine Nat.pos_of_ne_zero fun hzero => ?_
    rw [hzero, zero_mul] at hcover
    omega
  · exact hbits.le.trans (Nat.pow_le_pow_right (by decide) hcover)

theorem windows_zero {modulus : Nat} (hmodulus : 1 < modulus) : windows 0 modulus = 1 := by
  have hpos := getLengthForBase_pos hmodulus
  unfold windows
  dsimp only
  rw [Nat.div_zero, Nat.mod_zero, if_pos hpos]

theorem arrWindows_succ (baseBits : Nat) {moduli : List Nat} {i q : Nat}
    (hq : moduli[i]? = some q) :
    arrWindows baseBits moduli (i + 1) =
      arrWindows baseBits moduli i + windows baseBits q := by
  refine rowStart_succ ?_
  rw [List.getElem?_map, hq]
  rfl

/-- The digit size is one for which every window of the modulus can be read. -/
def Readable (baseBits modulus : Nat) : Prop :=
  baseBits <= 31 ∧ windows baseBits modulus * baseBits <= maxBits

namespace Poly

section BaseDecompose

variable (cache : TableCache) {baseBits q n : Nat} (hr : 0 < baseBits)
  (hq : NttModulus q) {x : Poly} (hx : WellFormed q n .COEFFICIENT x)

include hr hx

omit hr in
theorem digitPoly_spec (hreadable : Readable baseBits q) {j : Nat}
    (hj : j < windows baseBits q) :
    exists d, digitPoly cache x baseBits false j = some d ∧
      WellFormed q n .COEFFICIENT d ∧
      forall r, r < n -> d.value r = x.value r / 2 ^ (j * baseBits) % 2 ^ baseBits := by
  have hend : j * baseBits + baseBits <= maxBits := by
    refine le_trans ?_ hreadable.2
    rw [← Nat.succ_mul]
    exact Nat.mul_le_mul_right _ hj
  rcases mapM_spec (l := x.values)
    (f := fun v => getDigitAtIndexForBase v (j + 1) (2 ^ baseBits))
    (fun v y => y = v / 2 ^ (j * baseBits) % 2 ^ baseBits)
    (fun v _ => ⟨_, getDigitAtIndexForBase_eq v j hreadable.1 hend, rfl⟩) with
    ⟨values, hvalues, hlength, hget⟩
  have hentry : forall (i : Nat) y, values[i]? = some y ->
      exists v, x.values[i]? = some v ∧ y = v / 2 ^ (j * baseBits) % 2 ^ baseBits := by
    intro i y hy
    have hi : i < x.values.length := by
      rw [← hlength]
      exact (List.getElem?_eq_some_iff.mp hy).1
    have hv := List.getElem?_eq_getElem hi
    exact ⟨_, hv, hget i _ y hv hy⟩
  refine ⟨{ x with values := values }, ?_, ⟨hx.1, hx.2.1, hlength.trans hx.2.2.1, ?_⟩, ?_⟩
  · unfold digitPoly
    rw [shiftOne_eq hreadable.1]
    simp only [Option.bind_eq_bind, Option.bind_some]
    rw [hvalues]
    rfl
  · intro y hy
    rcases List.mem_iff_getElem?.mp hy with ⟨i, hi⟩
    rcases hentry i y hi with ⟨v, hv, rfl⟩
    exact lt_of_le_of_lt ((Nat.mod_le _ _).trans (Nat.div_le_self _ _))
      (hx.2.2.2 v (List.mem_of_getElem? hv))
  · intro r hrange
    have hlt : r < values.length := by
      rw [hlength, hx.2.2.1]
      exact hrange
    have hy := List.getElem?_eq_getElem hlt
    rcases hentry r _ hy with ⟨v, hv, hvalue⟩
    rw [value, value, List.getD_eq_getElem?_getD, List.getD_eq_getElem?_getD, hy, hv]
    exact hvalue

theorem baseDecompose_spec (hreadable : Readable baseBits q) :
    exists ds, baseDecompose cache x baseBits false = some ds ∧
      ds.length = windows baseBits q ∧
      forall j d, ds[j]? = some d -> WellFormed q n .COEFFICIENT d ∧
        forall r, r < n -> d.value r = x.value r / 2 ^ (j * baseBits) % 2 ^ baseBits := by
  unfold baseDecompose
  rw [if_neg (by omega), setFormat, if_pos hx.2.1, hx.1]
  simp only [Option.bind_eq_bind, Option.bind_some]
  exact mapM_range_spec _ fun j hj => digitPoly_spec cache hx hreadable hj

include hq

theorem baseDecompose_eq_none (hn : 0 < n) (hreadable : ¬ Readable baseBits q) :
    baseDecompose cache x baseBits false = none := by
  have hpos := (windows_bounds hr hq.one_lt).1
  have hfail : exists j, j < windows baseBits q ∧
      digitPoly cache x baseBits false j = none := by
    rcases Nat.lt_or_ge 31 baseBits with hlarge | hsmall
    · refine ⟨0, hpos, ?_⟩
      unfold digitPoly
      rw [shiftOne, if_neg (by omega)]
      rfl
    · have hbits : maxBits < windows baseBits q * baseBits := by
        by_contra hle
        exact hreadable ⟨hsmall, by omega⟩
      refine ⟨windows baseBits q - 1, by omega, ?_⟩
      have hend : maxBits < (windows baseBits q - 1) * baseBits + baseBits := by
        rw [← Nat.succ_mul, Nat.succ_eq_add_one, Nat.sub_add_cancel (by omega)]
        exact hbits
      have hvalue : 0 < x.values.length := by
        rw [hx.2.2.1]
        exact hn
      unfold digitPoly
      rw [shiftOne_eq hsmall]
      simp only [Option.bind_eq_bind, Option.bind_some]
      rw [mapM_eq_none (List.getElem_mem hvalue)
        (getDigitAtIndexForBase_eq_none _ _ hr hend)]
      rfl
  rcases hfail with ⟨j, hj, hnone⟩
  unfold baseDecompose
  rw [if_neg (by omega), setFormat, if_pos hx.2.1, hx.1]
  simp only [Option.bind_eq_bind, Option.bind_some]
  exact mapM_eq_none (List.mem_range.mpr hj) hnone

end BaseDecompose

theorem window_start_lt {baseBits : Nat} (hr : 0 < baseBits) {modulus j : Nat}
    (hj : j < windows baseBits modulus) : j * baseBits < getLengthForBase modulus := by
  have hdivmod := Nat.div_add_mod' (getLengthForBase modulus) baseBits
  unfold windows at hj
  dsimp only at hj
  split at hj
  next hrest =>
      have hle : j * baseBits <= getLengthForBase modulus / baseBits * baseBits :=
        Nat.mul_le_mul_right _ (by omega)
      omega
  next hexact =>
      rw [add_zero] at hj
      have hlt : (j + 1) * baseBits <= getLengthForBase modulus / baseBits * baseBits :=
        Nat.mul_le_mul_right _ hj
      rw [add_mul, one_mul] at hlt
      omega

theorem basePower_spec {q : Nat} (hq : NttModulus q) {baseBits : Nat} (hr : 0 < baseBits)
    {j : Nat} (hj : j < windows baseBits q) :
    exists power, modExp 2 (j * baseBits) q = some power ∧
      (power : ZMod q) = 2 ^ (j * baseBits) := by
  have hlt := hq.lt
  have hstart := window_start_lt hr hj
  have hbits : getLengthForBase q <= 60 := getMSB_le hlt
  have hexponent : j * baseBits < 2 ^ maxBits := by
    have hsmall : 60 < 2 ^ maxBits := by decide
    omega
  rcases modExp_spec hq.one_lt (by simp only [maxBits]; omega)
    (show 2 < 2 ^ maxBits by decide) hexponent with ⟨power, hpower, _, hcast⟩
  exact ⟨power, hpower, by exact_mod_cast hcast⟩

theorem powersOfBase_spec {q n : Nat} (hq : NttModulus q) {x : Poly}
    (hx : WellFormed q n .EVALUATION x) {baseBits : Nat} (hr : 0 < baseBits) :
    exists ps, powersOfBase x baseBits = some ps ∧ ps.length = windows baseBits q ∧
      forall j p, ps[j]? = some p -> Denotes q n .EVALUATION
        (fun r => (x.value r : ZMod q) * 2 ^ (j * baseBits)) p := by
  unfold powersOfBase
  rw [if_neg (by omega), hx.1]
  refine mapM_range_spec _ fun j hj => ?_
  rcases basePower_spec hq hr hj with ⟨power, hpower, hcast⟩
  rcases timesInteger_denotes hq power hx.denotes with ⟨p, hp, hdenotes⟩
  refine ⟨p, ?_, ?_⟩
  · rw [hpower]
    exact hp
  · rw [hcast] at hdenotes
    exact hdenotes

end Poly

namespace DCRTPoly

/-!
## The decomposition of all towers
-/

def ReadyChain (cache : Poly.TableCache) (k : Nat) (psi : Nat -> Nat)
    (moduli : List Nat) : Prop :=
  forall q, q ∈ moduli -> Poly.Ready cache k q (psi q)

/-- The towers of the second polynomial are the transforms of the first one's. -/
structure Transforms (k : Nat) (psi : Nat -> Nat) (moduli : List Nat)
    (coef eval : DCRTPoly) : Prop where
  coef_wellFormed : WellFormed (2 ^ k) .COEFFICIENT moduli coef
  eval_wellFormed : WellFormed (2 ^ k) .EVALUATION moduli eval
  tower : forall (i q : Nat) (t u : Poly), moduli[i]? = some q -> coef[i]? = some t ->
    eval[i]? = some u -> Poly.Transforms k q (psi q) t u

section Decompose

variable {cache : Poly.TableCache} {k : Nat} {psi : Nat -> Nat} {moduli : List Nat}
  (hk : 0 < k) (hk31 : k <= 31) (hready : ReadyChain cache k psi moduli)

include hk hk31 hready

theorem switchFormat_transforms {format : Format} {a : DCRTPoly}
    (ha : WellFormed (2 ^ k) format moduli a) :
    exists cp, switchFormat cache a = some cp ∧
      Transforms k psi moduli (if format = .COEFFICIENT then a else cp)
        (if format = .COEFFICIENT then cp else a) := by
  rcases mapM_spec (l := a) (f := Poly.switchFormat cache)
    (fun t b => forall q, q ∈ moduli -> Poly.WellFormed q (2 ^ k) format t ->
      Poly.Transforms k q (psi q) (if format = .COEFFICIENT then t else b)
        (if format = .COEFFICIENT then b else t))
    (by
      intro t ht
      rcases List.mem_iff_getElem?.mp ht with ⟨i, hi⟩
      have hlt : i < moduli.length := by
        rw [← ha.length_eq]
        exact (List.getElem?_eq_some_iff.mp hi).1
      have hq := List.getElem?_eq_getElem hlt
      have hwf := ha.get i _ t hq hi
      rcases Poly.switchFormat_transforms hk (hready _ (List.mem_of_getElem? hq)) hk31 hwf with
        ⟨b, hb, htransforms⟩
      refine ⟨b, hb, fun q _ hwf' => ?_⟩
      rw [← hwf'.1, hwf.1]
      exact htransforms) with ⟨cp, hcp, hlength, hget⟩
  have htower : forall (i q : Nat) (t b : Poly), moduli[i]? = some q -> a[i]? = some t ->
      cp[i]? = some b -> Poly.Transforms k q (psi q)
        (if format = .COEFFICIENT then t else b)
        (if format = .COEFFICIENT then b else t) := by
    intro i q t b hq ht hb
    exact hget i t b ht hb q (List.mem_of_getElem? hq) (ha.get i q t hq ht)
  refine ⟨cp, hcp, ?_⟩
  cases format with
  | COEFFICIENT =>
      refine ⟨ha, ⟨hlength.trans ha.length_eq, ?_⟩, htower⟩
      intro i q b hq hb
      rcases ha.exists_tower hq with ⟨t, ht, _⟩
      exact (htower i q t b hq ht hb).eval_denotes.wellFormed
  | EVALUATION =>
      refine ⟨⟨hlength.trans ha.length_eq, ?_⟩, ha, fun i q b t hq hb ht =>
        htower i q t b hq ht hb⟩
      intro i q b hq hb
      rcases ha.exists_tower hq with ⟨t, ht, _⟩
      exact (htower i q t b hq ht hb).coef_wellFormed

omit hk hk31 hready in
theorem setFormat_ne {format : Format} {a : DCRTPoly}
    (h : forall t, t ∈ a -> t.format ≠ format) :
    setFormat cache a format = switchFormat cache a := by
  unfold setFormat switchFormat
  induction a with
  | nil => rfl
  | cons t a ih =>
      rw [List.mapM_cons, List.mapM_cons, ih fun u hu => h u (List.mem_cons_of_mem t hu),
        Poly.setFormat, if_neg (h t List.mem_cons_self)]

omit hk hk31 hready in
theorem setFormat_evaluation {format : Format} {a cp : DCRTPoly}
    (ha : WellFormed (2 ^ k) format moduli a) (hcp : switchFormat cache a = some cp) :
    setFormat cache a .EVALUATION = some (if format = .COEFFICIENT then cp else a) := by
  cases format with
  | COEFFICIENT =>
      rw [if_pos rfl, ← hcp]
      apply setFormat_ne
      intro t ht
      rw [ha.format_eq ht]
      decide
  | EVALUATION =>
      rw [if_neg (by decide)]
      exact setFormat_self fun t ht => ha.format_eq ht

/-- Window `j` of tower `i`: in its own tower it is the transform of that digit. -/
structure WindowOf (k : Nat) (psi : Nat -> Nat) (moduli : List Nat) (baseBits : Nat)
    (coef : DCRTPoly) (i j : Nat) (d : DCRTPoly) : Prop where
  wellFormed : WellFormed (2 ^ k) .EVALUATION moduli d
  own : forall (q : Nat) (t : Poly), moduli[i]? = some q -> d[i]? = some t ->
    Poly.Denotes q (2 ^ k) .EVALUATION
      (stageArray (fun r =>
        ((value coef i r / 2 ^ (j * baseBits) % 2 ^ baseBits : Nat) : ZMod q))
        (psi q) 1 k) t

omit hk31 in
theorem windowTowers_spec {coef : DCRTPoly}
    (hcoef : WellFormed (2 ^ k) .COEFFICIENT moduli coef) {baseBits i j qi : Nat}
    (hqi : moduli[i]? = some qi) {digit : Poly}
    (hdigit : Poly.WellFormed qi (2 ^ k) .COEFFICIENT digit)
    (hvalue : forall r, r < 2 ^ k ->
      digit.value r = value coef i r / 2 ^ (j * baseBits) % 2 ^ baseBits) :
    exists current, (List.range coef.length).mapM (windowTower cache coef i digit) =
      some current ∧ WindowOf k psi moduli baseBits coef i j current := by
  have htower : forall m q, moduli[m]? = some q ->
      exists t, windowTower cache coef i digit m = some t ∧
        Poly.WellFormed q (2 ^ k) .EVALUATION t ∧
        (i = m -> Poly.Denotes q (2 ^ k) .EVALUATION
          (stageArray (fun r => (digit.value r : ZMod q)) (psi q) 1 k) t) := by
    intro m q hq
    rcases hcoef.exists_tower hq with ⟨target, htarget, htarget_wf⟩
    have hpsi := hready q (List.mem_of_getElem? hq)
    unfold windowTower
    rw [htarget]
    simp only [Option.bind_eq_bind, Option.bind_some]
    by_cases him : i = m
    · rw [if_neg (not_not.mpr him)]
      have hsame : qi = q := by
        rw [him, hq] at hqi
        exact (Option.some.inj hqi).symm
      rw [hsame] at hdigit
      rcases Poly.switchFormat_evaluation hk hpsi hdigit.denotes with ⟨t, ht, hdenotes⟩
      exact ⟨t, ht, hdenotes.wellFormed, fun _ => hdenotes⟩
    · rw [if_pos him, htarget_wf.1]
      have hswitch := Poly.switchModulus_wellFormed hpsi.modulus
        (hready qi (List.mem_of_getElem? hqi)).modulus hdigit
      rcases Poly.switchFormat_evaluation hk hpsi hswitch.denotes with ⟨t, ht, hdenotes⟩
      exact ⟨t, ht, hdenotes.wellFormed, fun heq => absurd heq him⟩
  rcases mapM_range_spec (n := coef.length) (f := windowTower cache coef i digit)
    (fun m (t : Poly) => windowTower cache coef i digit m = some t)
    (by
      intro m hm
      have hq := List.getElem?_eq_getElem (show m < moduli.length by
        rw [← hcoef.length_eq]
        exact hm)
      rcases htower m _ hq with ⟨t, ht, _⟩
      exact ⟨t, ht, ht⟩) with ⟨current, hcurrent, hlength, hget⟩
  refine ⟨current, hcurrent, ⟨hlength.trans hcoef.length_eq, ?_⟩, ?_⟩
  · intro m q t hq ht
    rcases htower m q hq with ⟨t', ht', hwf, _⟩
    rw [hget m t ht] at ht'
    rw [Option.some.inj ht']
    exact hwf
  · intro q t hq ht
    rcases htower i q hq with ⟨t', ht', _, hown⟩
    rw [hget i t ht] at ht'
    have hdenotes := hown rfl
    rw [← Option.some.inj ht'] at hdenotes
    have hsame : stageArray (fun r => (digit.value r : ZMod q)) (psi q) 1 k =
        stageArray (fun r => ((value coef i r / 2 ^ (j * baseBits) % 2 ^ baseBits : Nat) :
          ZMod q)) (psi q) 1 k := by
      funext c
      exact stageArray_congr (fun r hr => by rw [hvalue r hr]) _ c
    exact hsame ▸ hdenotes

omit hk31 in
theorem towerWindows_spec {coef : DCRTPoly}
    (hcoef : WellFormed (2 ^ k) .COEFFICIENT moduli coef) {baseBits i q : Nat}
    (hr : 0 < baseBits) (hq : moduli[i]? = some q) (hreadable : Readable baseBits q) :
    exists row, towerWindows cache coef baseBits i = some row ∧
      row.length = windows baseBits q ∧
      forall j d, row[j]? = some d -> WindowOf k psi moduli baseBits coef i j d := by
  rcases hcoef.exists_tower hq with ⟨tower, htower, htower_wf⟩
  rcases Poly.baseDecompose_spec cache hr htower_wf hreadable with
    ⟨decomposed, hdecomposed, hlength, hget⟩
  have hwindow : forall (j : Nat) digit, decomposed[j]? = some digit -> exists d,
      (List.range coef.length).mapM (windowTower cache coef i digit) = some d ∧
        WindowOf k psi moduli baseBits coef i j d := by
    intro j digit hdigit
    rcases hget j digit hdigit with ⟨hwf, hvalue⟩
    refine windowTowers_spec hk hready hcoef hq hwf ?_
    intro r hrange
    rw [hvalue r hrange, value_eq htower]
  unfold towerWindows
  rw [htower]
  simp only [Option.bind_eq_bind, Option.bind_some]
  rw [hdecomposed, Option.bind_some]
  rcases mapM_spec (l := decomposed)
    (f := fun digit => (List.range coef.length).mapM (windowTower cache coef i digit))
    (fun digit d => (List.range coef.length).mapM (windowTower cache coef i digit) = some d)
    (by
      intro digit hmem
      rcases List.mem_iff_getElem?.mp hmem with ⟨j, hdigit⟩
      rcases hwindow j digit hdigit with ⟨d, hd, _⟩
      exact ⟨d, hd, hd⟩) with ⟨row, hrow, hrow_length, hrow_get⟩
  refine ⟨row, hrow, hrow_length.trans hlength, ?_⟩
  intro j d hd
  have hdigit := List.getElem?_eq_getElem (show j < decomposed.length by
    rw [← hrow_length]
    exact (List.getElem?_eq_some_iff.mp hd).1)
  rcases hwindow j _ hdigit with ⟨d', hd', hwin⟩
  rw [hrow_get j _ d hdigit hd] at hd'
  rw [Option.some.inj hd']
  exact hwin

/-- The digits of a ciphertext: well formed, and each tower is recovered from its own. -/
structure Digits (k : Nat) (moduli : List Nat) (baseBits : Nat) (eval : DCRTPoly)
    (digits : List DCRTPoly) : Prop where
  length_eq : digits.length = arrWindows baseBits moduli moduli.length
  wellFormed : forall (t : Nat) d, digits[t]? = some d ->
    WellFormed (2 ^ k) .EVALUATION moduli d
  sum_eq : forall i q, moduli[i]? = some q -> forall r, r < 2 ^ k ->
    ∑ j ∈ Finset.range (windows baseBits q),
        (value (digits.getD (arrWindows baseBits moduli i + j) []) i r : ZMod q) *
          2 ^ (j * baseBits) =
      value eval i r

structure Placed (k : Nat) (psi : Nat -> Nat) (moduli : List Nat) (baseBits : Nat)
    (coef : DCRTPoly) (digits : List DCRTPoly) : Prop where
  length_eq : digits.length = arrWindows baseBits moduli moduli.length
  window : forall i q j, moduli[i]? = some q -> j < windows baseBits q ->
    exists d, digits[arrWindows baseBits moduli i + j]? = some d ∧
      WindowOf k psi moduli baseBits coef i j d

omit hk hk31 in
theorem placed_digits {coef eval : DCRTPoly} (h : Transforms k psi moduli coef eval)
    {baseBits : Nat} (hr : 0 < baseBits) {digits : List DCRTPoly}
    (hplaced : Placed k psi moduli baseBits coef digits) :
    Digits k moduli baseBits eval digits := by
  refine ⟨hplaced.length_eq, ?_, ?_⟩
  · intro t d hd
    have ht := (List.getElem?_eq_some_iff.mp hd).1
    rw [hplaced.length_eq] at ht
    rcases exists_row (by rw [List.length_map]) ht with ⟨i, c, j, hi, hc, hj, rfl⟩
    rw [List.getElem?_map, Option.map_eq_some_iff] at hc
    rcases hc with ⟨q, hq, rfl⟩
    rcases hplaced.window i q j hq hj with ⟨d', hd', hwindow⟩
    rw [arrWindows, hd] at hd'
    rw [Option.some.inj hd']
    exact hwindow.wellFormed
  · intro i q hq r hrange
    have hpsi := hready q (List.mem_of_getElem? hq)
    rcases h.coef_wellFormed.exists_tower hq with ⟨t, ht, ht_wf⟩
    rcases h.eval_wellFormed.exists_tower hq with ⟨u, hu, hu_wf⟩
    have hdenotes := (h.tower i q t u hq ht hu).eval_denotes
    have hterm : forall j, j ∈ Finset.range (windows baseBits q) ->
        (value (digits.getD (arrWindows baseBits moduli i + j) []) i r : ZMod q) *
            2 ^ (j * baseBits) =
          stageArray (fun c =>
            ((t.value c / 2 ^ (j * baseBits) % 2 ^ baseBits : Nat) : ZMod q))
            (psi q) 1 k r * 2 ^ (j * baseBits) := by
      intro j hj
      rcases hplaced.window i q j hq (Finset.mem_range.mp hj) with ⟨d, hd, hwindow⟩
      rcases hwindow.wellFormed.exists_tower hq with ⟨w, hw, _⟩
      have hown := (hwindow.own q w hq hw).value_eq hrange
      simp only [value_eq ht] at hown
      rw [List.getD_eq_getElem?_getD, hd, Option.getD_some, value_eq hw, hown]
    rw [Finset.sum_congr rfl hterm, ← stageArray_sum, value_eq hu,
      hdenotes.value_eq hrange]
    refine stageArray_congr (fun c hc => ?_) _ r
    have hbound : t.value c < 2 ^ (windows baseBits q * baseBits) := by
      refine lt_of_lt_of_le ?_ (windows_bounds hr hpsi.modulus.one_lt).2
      have hlt : c < t.values.length := by
        rw [ht_wf.2.2.1]
        exact hc
      rw [Poly.value, List.getD_eq_getElem?_getD, List.getElem?_eq_getElem hlt]
      exact ht_wf.2.2.2 _ (List.getElem_mem hlt)
    have hsum := sum_digits (t.value c) baseBits (windows baseBits q)
    rw [Nat.mod_eq_of_lt hbound] at hsum
    calc
      _ = ((∑ j ∈ Finset.range (windows baseBits q),
          t.value c / 2 ^ (j * baseBits) % 2 ^ baseBits * 2 ^ (j * baseBits) : Nat) :
            ZMod q) := by
        push_cast
        rfl
      _ = (t.value c : ZMod q) := by rw [hsum]

theorem liftTowers_spec {coef eval : DCRTPoly} (h : Transforms k psi moduli coef eval)
    {i qi : Nat} (hqi : moduli[i]? = some qi) :
    exists row, (List.range moduli.length).mapM (liftTower cache coef eval i) = some row ∧
      WellFormed (2 ^ k) .EVALUATION moduli row ∧ row[i]? = eval[i]? := by
  rcases h.coef_wellFormed.exists_tower hqi with ⟨tmp, htmp, htmp_wf⟩
  have htower : forall m q, moduli[m]? = some q ->
      exists t, liftTower cache coef eval i m = some t ∧
        Poly.WellFormed q (2 ^ k) .EVALUATION t ∧ (i = m -> eval[m]? = some t) := by
    intro m q hq
    have hpsi := hready q (List.mem_of_getElem? hq)
    rcases h.coef_wellFormed.exists_tower hq with ⟨target, htarget, htarget_wf⟩
    rcases h.eval_wellFormed.exists_tower hq with ⟨u, hu, hu_wf⟩
    unfold liftTower
    rw [hu]
    simp only [Option.bind_eq_bind, Option.bind_some]
    by_cases him : i = m
    · rw [if_neg (not_not.mpr him)]
      exact ⟨u, rfl, hu_wf, fun _ => rfl⟩
    · rw [if_pos him, htmp, htarget]
      simp only [Option.bind_some]
      rw [htarget_wf.1]
      have hswitch := Poly.switchModulus_wellFormed hpsi.modulus
        (hready qi (List.mem_of_getElem? hqi)).modulus htmp_wf
      rcases Poly.setFormat_wellFormed hk hpsi hk31 hswitch .EVALUATION with ⟨t, ht, hwf⟩
      exact ⟨t, ht, hwf, fun heq => absurd heq him⟩
  rcases mapM_range_spec (n := moduli.length) (f := liftTower cache coef eval i)
    (fun m (t : Poly) => liftTower cache coef eval i m = some t)
    (by
      intro m hm
      rcases htower m _ (List.getElem?_eq_getElem hm) with ⟨t, ht, _⟩
      exact ⟨t, ht, ht⟩) with ⟨row, hrow, hlength, hget⟩
  refine ⟨row, hrow, ⟨hlength, ?_⟩, ?_⟩
  · intro m q t hq ht
    rcases htower m q hq with ⟨t', ht', hwf, _⟩
    rw [hget m t ht] at ht'
    rw [Option.some.inj ht']
    exact hwf
  · rcases htower i qi hqi with ⟨t', ht', _, hown⟩
    have hi : i < row.length := by
      rw [hlength]
      exact (List.getElem?_eq_some_iff.mp hqi).1
    have ht := List.getElem?_eq_getElem hi
    rw [hget i _ ht] at ht'
    rw [ht, Option.some.inj ht', hown rfl]

/-- A digit size for which the decomposition of every tower is defined. -/
def Decomposable (baseBits : Nat) (moduli : List Nat) : Prop :=
  baseBits = 0 ∨ forall q, q ∈ moduli -> Readable baseBits q

theorem crtDecompose_spec {format : Format} {a : DCRTPoly}
    (ha : WellFormed (2 ^ k) format moduli a) {baseBits : Nat}
    (hdecomposable : Decomposable baseBits moduli) :
    exists eval digits, setFormat cache a .EVALUATION = some eval ∧
      crtDecompose cache format a baseBits = some digits ∧
      Digits k moduli baseBits eval digits := by
  rcases switchFormat_transforms hk hk31 hready ha with ⟨cp, hcp, htransforms⟩
  rw [setFormat_evaluation ha hcp]
  unfold crtDecompose
  rw [hcp]
  simp only [Option.bind_eq_bind, Option.bind_some]
  rw [htransforms.coef_wellFormed.moduli_eq, ha.length_eq]
  generalize hcoef : (if format = .COEFFICIENT then a else cp) = coef at htransforms ⊢
  generalize heval : (if format = .COEFFICIENT then cp else a) = eval at htransforms ⊢
  have hcoef_wf := htransforms.coef_wellFormed
  rcases Nat.eq_zero_or_pos baseBits with hzero | hr
  · rw [if_pos hzero, hzero]
    rcases mapM_range_spec (n := moduli.length)
      (f := fun i => (List.range moduli.length).mapM (liftTower cache coef eval i))
      (fun i row => WellFormed (2 ^ k) .EVALUATION moduli row ∧ row[i]? = eval[i]?)
      (fun i hi => liftTowers_spec hk hk31 hready htransforms
        (List.getElem?_eq_getElem hi)) with ⟨digits, hdigits, hlength, hget⟩
    have hposition : forall i, i <= moduli.length -> arrWindows 0 moduli i = i := by
      intro i
      induction i with
      | zero => exact fun _ => rfl
      | succ i ih =>
          intro hi
          have hq := List.getElem?_eq_getElem (show i < moduli.length by omega)
          have hone := (hready _ (List.mem_of_getElem? hq)).modulus.one_lt
          rw [arrWindows_succ 0 hq, ih (by omega), windows_zero hone]
    refine ⟨eval, digits, rfl, hdigits, ?_, fun t d hd => (hget t d hd).1, ?_⟩
    · rw [hlength, hposition _ le_rfl]
    · intro i q hq r hrange
      have hi := (List.getElem?_eq_some_iff.mp hq).1
      have hone := (hready q (List.mem_of_getElem? hq)).modulus.one_lt
      have hd := List.getElem?_eq_getElem (show i < digits.length by omega)
      rw [windows_zero hone, Finset.sum_range_one, hposition i hi.le, add_zero, zero_mul,
        pow_zero, mul_one, List.getD_eq_getElem?_getD, hd, Option.getD_some, value, value,
        (hget i _ hd).2]
  · rw [if_neg (by omega)]
    have hreadable : forall q, q ∈ moduli -> Readable baseBits q := by
      rcases hdecomposable with hzero | hreadable
      · omega
      · exact hreadable
    rcases placeRows_spec (n := moduli.length) (arrWindows baseBits moduli)
      (towerWindows cache coef baseBits)
      (List.replicate (arrWindows baseBits moduli moduli.length) [])
      (fun i row => forall j d, row[j]? = some d -> WindowOf k psi moduli baseBits coef i j d)
      (by
        intro i hi
        have hq := List.getElem?_eq_getElem hi
        rcases towerWindows_spec hk hready hcoef_wf hr hq
          (hreadable _ (List.mem_of_getElem? hq)) with ⟨row, hrow, hlength, hwindow⟩
        exact ⟨row, hrow, by rw [arrWindows_succ baseBits hq, hlength], hwindow⟩)
      List.length_replicate with ⟨digits, hdigits, hlength, hget⟩
    have hplaced : Placed k psi moduli baseBits coef digits := by
      refine ⟨hlength, ?_⟩
      intro i q j hq hj
      rcases hget i (List.getElem?_eq_some_iff.mp hq).1 with ⟨row, hwindow, hstart, hrow⟩
      rw [arrWindows_succ baseBits hq] at hstart
      have hd := List.getElem?_eq_getElem (show j < row.length by omega)
      exact ⟨_, (hrow j (by omega)).trans hd, hwindow j _ hd⟩
    exact ⟨eval, digits, rfl, hdigits, placed_digits hready htransforms hr hplaced⟩

theorem crtDecompose_eq_none {format : Format} {a : DCRTPoly}
    (ha : WellFormed (2 ^ k) format moduli a) {baseBits : Nat}
    (hdecomposable : ¬ Decomposable baseBits moduli) :
    crtDecompose cache format a baseBits = none := by
  unfold Decomposable at hdecomposable
  push Not at hdecomposable
  rcases hdecomposable with ⟨hne, q, hmem, hreadable⟩
  rcases List.mem_iff_getElem?.mp hmem with ⟨i, hq⟩
  have hi := (List.getElem?_eq_some_iff.mp hq).1
  rcases switchFormat_transforms hk hk31 hready ha with ⟨cp, hcp, htransforms⟩
  have hcoef_wf := htransforms.coef_wellFormed
  rcases hcoef_wf.exists_tower hq with ⟨tower, htower, htower_wf⟩
  have hnone := Poly.baseDecompose_eq_none cache (Nat.pos_of_ne_zero hne)
    (hready q hmem).modulus htower_wf (by positivity) hreadable
  unfold crtDecompose
  rw [hcp]
  simp only [Option.bind_eq_bind, Option.bind_some]
  rw [if_neg hne, ha.length_eq]
  refine foldlM_eq_none (List.mem_range.mpr hi) (fun result => ?_) _
  unfold placeRows towerWindows
  rw [htower]
  simp only [Option.bind_eq_bind, Option.bind_some]
  rw [hnone]
  rfl

end Decompose

end DCRTPoly

end Hal
end OpenFHE
