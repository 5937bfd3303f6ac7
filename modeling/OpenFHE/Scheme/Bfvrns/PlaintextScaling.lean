import OpenFHE.Hal.Rescale

/-!
# Scaling of plaintexts by `Q / t`

`TimesQovert` multiplies by the negative of `Q` modulo `t` and divides by `t` modulo every
tower.  The addition and the subtraction of a BFV plaintext scale it first.
-/

namespace OpenFHE
namespace Scheme
namespace Bfvrns

open OpenFHE.Core Foundation Hal NativeInteger DCRTPoly

/-! ## Operations -/

def scaledWord (t negQModt negQModtPrecon tInv q mu x : Nat) : Nat :=
  modMulFastMu (modMulFastConst x negQModt t negQModtPrecon) tInv q mu

def scaledTower (t negQModt negQModtPrecon tInv : Nat) (p : Poly) : Option Poly := do
  let mu <- computeMu p.modulus
  return { p with
    values := p.values.map (scaledWord t negQModt negQModtPrecon tInv p.modulus mu) }

def timesQovert (tInvModq : List Nat) (t negQModt negQModtPrecon : Nat) (a : DCRTPoly) :
    Option DCRTPoly :=
  if tInvModq.length < a.length then none
  else mapTowers (fun i p => do
    let tInv <- tInvModq[i]?
    scaledTower t negQModt negQModtPrecon tInv p) a

/-! The tables of `PrecomputeCRTTables`. -/

def tInvModq (moduliQ : List Nat) (t : Nat) : Option (List Nat) :=
  moduliQ.mapM fun q => modInverse t q

/-- The modulus of a level: one modulus is divided away after the other. -/
def tmpModulusQ (moduliQ : List Nat) (l : Nat) : Nat :=
  (List.range l).foldl (fun modulus j => modulus / moduliQ.getD (moduliQ.length - (j + 1)) 1)
    moduliQ.prod

def negQModt (moduliQ : List Nat) (t l : Nat) : Nat := subFast t (tmpModulusQ moduliQ l % t)

def negQModtPrecon (moduliQ : List Nat) (t l : Nat) : Option Nat :=
  prepModMulConst (negQModt moduliQ t l) t

/-- The plaintext of `EvalAddInPlace` and `EvalSubInPlace`, at the level of its towers. -/
def scaledPlaintext (cache : Poly.TableCache) (moduliQ : List Nat) (t : Nat) (pt : DCRTPoly) :
    Option DCRTPoly := do
  let pt <- setFormat cache pt .COEFFICIENT
  let level := moduliQ.length - pt.length
  let precon <- negQModtPrecon moduliQ t level
  let inverses <- tInvModq moduliQ t
  let pt <- timesQovert inverses t (negQModt moduliQ t level) precon pt
  setFormat cache pt .EVALUATION

def evalAddInPlace (cache : Poly.TableCache) (moduliQ : List Nat) (t : Nat)
    (cv : List DCRTPoly) (pt : DCRTPoly) : Option (List DCRTPoly) := do
  let pt <- scaledPlaintext cache moduliQ t pt
  let c0 <- cv[0]?
  let c0 <- plusEq c0 pt
  return cv.set 0 c0

def evalSubInPlace (cache : Poly.TableCache) (moduliQ : List Nat) (t : Nat)
    (cv : List DCRTPoly) (pt : DCRTPoly) : Option (List DCRTPoly) := do
  let pt <- scaledPlaintext cache moduliQ t pt
  let c0 <- cv[0]?
  let c0 <- minusEq c0 pt
  return cv.set 0 c0

/-! ## The scaled integers -/

/-- The multiple of `Q / t`, rounded up. -/
def scaledValue (Q t : Nat) (v : Int) : Int := (Q * v + -(Q * v) % t) / t

section ScaledValue

variable {Q t : Nat}

theorem mul_scaledValue (v : Int) : (t : Int) * scaledValue Q t v = Q * v + -(Q * v) % t := by
  apply Int.mul_ediv_cancel'
  have hdvd := Int.dvd_self_sub_of_emod_eq (rfl : -(Q * v) % (t : Int) = -(Q * v) % t)
  have hneg : (Q * v + -(Q * v) % t : Int) = -(-(Q * v) - -(Q * v) % t) := by ring
  rw [hneg]
  exact Int.dvd_neg.mpr hdvd

variable (ht : 0 < t)

include ht

theorem scaledValue_error (v : Int) :
    0 <= (t : Int) * scaledValue Q t v - Q * v ∧ (t : Int) * scaledValue Q t v - Q * v < t := by
  have hnonneg := Int.emod_nonneg (-(Q * v)) (show (t : Int) ≠ 0 by omega)
  have hlt := Int.emod_lt_of_pos (-(Q * v)) (show (0 : Int) < t by omega)
  rw [mul_scaledValue, add_sub_cancel_left]
  exact ⟨hnonneg, hlt⟩

theorem negated_emod (v : Nat) : ((v * (t - Q % t) % t : Nat) : Int) = -(Q * v : Int) % t := by
  have hle : Q % t <= t := (Nat.mod_lt _ ht).le
  rw [Int.natCast_mod, Nat.cast_mul, Nat.cast_sub hle, Int.natCast_mod]
  apply Int.ModEq.eq
  apply Int.modEq_iff_dvd.mpr
  refine ⟨-(v * (Q / t) + v), ?_⟩
  have hsplit := Int.mul_ediv_add_emod (Q : Int) t
  linear_combination (v : Int) * hsplit

theorem mul_scaledValue_cast {q : Nat} (hq : q ∣ Q) (v : Nat) :
    (t : ZMod q) * (scaledValue Q t v : ZMod q) = ((v * (t - Q % t) % t : Nat) : ZMod q) := by
  have hcast := congrArg (Int.cast (R := ZMod q)) (mul_scaledValue (Q := Q) (t := t) (v : Int))
  rw [← negated_emod ht] at hcast
  have hzero : (Q : ZMod q) = 0 := (ZMod.natCast_eq_zero_iff Q q).mpr hq
  simp only [Int.cast_mul, Int.cast_add, Int.cast_natCast, hzero, zero_mul, zero_add] at hcast
  exact hcast

end ScaledValue

/-! ## One tower -/

section Tower

variable {Q t q : Nat} (ht : 0 < t) (hcoprime : Nat.Coprime t Q)

include ht

section Precomputation

include hcoprime

theorem negated_lt (hone : t ≠ 1) : t - Q % t < t := by
  have hpos : 0 < Q % t := by
    apply Nat.pos_of_ne_zero
    intro hzero
    have hdvd := Nat.dvd_of_mod_eq_zero hzero
    exact hone (Nat.Coprime.eq_one_of_dvd hcoprime hdvd)
  omega

theorem negQModtPrecon_eq (ht62 : t < 2 ^ 62) :
    exists precon, prepModMulConst (t - Q % t) t = some precon ∧
      forall x, x < 2 ^ 60 -> (t = 1 -> x = 0) ->
        modMulFastConst x (t - Q % t) t precon = x * (t - Q % t) % t := by
  rcases eq_or_ne t 1 with rfl | hone
  · refine ⟨0, ?_, ?_⟩
    · rw [Nat.mod_one]
      decide
    · intro x _ hx
      rw [hx rfl, Nat.mod_one]
      decide
  · have hlt := negated_lt ht hcoprime hone
    refine ⟨precon (t - Q % t) t, prepModMulConst_eq (lt_trans ht62 (by decide)) hlt, ?_⟩
    intro x hx _
    exact modMulFastConst_eq ht62 hlt (lt_trans hx (by decide))

end Precomputation

theorem tower_remainder (hq : 1 < q) (hfits : t <= q ∨ t ∣ Q + 1) {v : Nat} (hv : v < t) :
    v % q * (t - Q % t) % t < q ∧
      ((v % q * (t - Q % t) % t : Nat) : ZMod q) = ((v * (t - Q % t) % t : Nat) : ZMod q) := by
  rcases Nat.lt_or_ge q t with hlt | hge
  · have hdvd : t ∣ Q + 1 := by
      rcases hfits with hle | hdvd
      · omega
      · exact hdvd
    have hmod : Q % t = t - 1 := by
      have hzero := Nat.mod_eq_zero_of_dvd hdvd
      rw [Nat.add_mod, Nat.mod_eq_of_lt (show 1 < t by omega)] at hzero
      have hrem := Nat.mod_lt Q ht
      rcases Nat.lt_or_ge (Q % t + 1) t with hsmall | hlarge
      · rw [Nat.mod_eq_of_lt hsmall] at hzero
        omega
      · omega
    have hone : t - Q % t = 1 := by omega
    have hrem := Nat.mod_lt v (show 0 < q by omega)
    rw [hone, Nat.mul_one, Nat.mul_one, Nat.mod_eq_of_lt (show v % q < t by omega),
      Nat.mod_eq_of_lt hv]
    exact ⟨hrem, ZMod.natCast_mod v q⟩
  · rw [Nat.mod_eq_of_lt (show v < q by omega)]
    exact ⟨lt_of_lt_of_le (Nat.mod_lt _ ht) hge, rfl⟩

theorem scaledTower_encodes {k : Nat} {psi : Nat -> Nat} (hq : Poly.NttModulus q) (hQ : q ∣ Q)
    (hfits : t <= q ∨ t ∣ Q + 1) {v : Nat -> Nat} (hv : forall r, v r < t) {p : Poly}
    (hp : TowerEncodes k psi q .COEFFICIENT (fun r => v r) p) {tInv precon : Nat}
    (hlt : tInv < q) (hinverse : (t : ZMod q) * tInv = 1)
    (hprecon : forall x, x < 2 ^ 60 -> (t = 1 -> x = 0) ->
      modMulFastConst x (t - Q % t) t precon = x * (t - Q % t) % t) :
    exists u, scaledTower t (t - Q % t) precon tInv p = some u ∧
      TowerEncodes k psi q .COEFFICIENT (fun r => scaledValue Q t (v r)) u := by
  have hone := hq.one_lt
  have hq60 := hq.lt
  have hodd := hq.odd
  have hmu := computeMu_eq (m := q) (by omega) hone hq60
  refine ⟨{ p with values := p.values.map (scaledWord t (t - Q % t) precon tInv p.modulus
    (2 ^ (2 * getMSB q + 3) / q)) }, ?_, hp.modulus_eq, hp.format_eq, ?_⟩
  · unfold scaledTower
    rw [hp.modulus_eq, hmu]
    rfl
  · rw [hp.modulus_eq]
    apply NativeVector.holds_map _ hp.holds
    intro r x hx
    have hvalue : x = v r % q := by
      have hmod := (ZMod.natCast_eq_natCast_iff' x (v r) q).mp (by
        rw [hx.2]
        exact Int.cast_natCast _)
      rwa [Nat.mod_eq_of_lt hx.1] at hmod
    have hzero : t = 1 -> x = 0 := by
      intro hone'
      have hvr := hv r
      rw [hvalue, show v r = 0 by omega, Nat.zero_mod]
    rcases tower_remainder ht hone hfits (hv r) with ⟨hrem, hcast⟩
    rw [scaledWord, hprecon x (lt_trans hx.1 hq60) hzero, hvalue,
      modMulFastMu_eq (by omega) hone hq60 hrem hlt hmu]
    refine ⟨Nat.mod_lt _ (by omega), ?_⟩
    rw [ZMod.natCast_mod, Nat.cast_mul, hcast, ← mul_scaledValue_cast ht hQ]
    calc
      (t : ZMod q) * (scaledValue Q t (v r) : ZMod q) * tInv =
          (t * tInv) * (scaledValue Q t (v r) : ZMod q) := by ring
      _ = (scaledValue Q t (v r) : ZMod q) := by rw [hinverse, one_mul]

end Tower

/-! ## Tables -/

section Tables

variable {moduliQ : List Nat} {t : Nat}

theorem tmpModulusQ_eq (hpos : forall q, q ∈ moduliQ -> 0 < q) {l : Nat}
    (hl : l <= moduliQ.length) :
    tmpModulusQ moduliQ l = (moduliQ.take (moduliQ.length - l)).prod := by
  unfold tmpModulusQ
  induction l with
  | zero =>
      rw [Nat.sub_zero, List.take_length]
      rfl
  | succ l ih =>
      rw [List.range_succ, List.foldl_append, ih (by omega)]
      have hindex : moduliQ.length - (l + 1) < moduliQ.length := by omega
      have hsplit : moduliQ.take (moduliQ.length - l) =
          moduliQ.take (moduliQ.length - (l + 1)) ++ [moduliQ[moduliQ.length - (l + 1)]] := by
        rw [List.take_append_getElem]
        congr 1
        omega
      rw [List.foldl_cons, List.foldl_nil, hsplit, List.prod_append, List.prod_singleton,
        List.getD_eq_getElem _ _ hindex]
      exact Nat.mul_div_cancel _ (hpos _ (List.getElem_mem hindex))

theorem negQModt_eq (hpos : forall q, q ∈ moduliQ -> 0 < q) (ht : 0 < t) (ht62 : t < 2 ^ 62)
    {l : Nat} (hl : l <= moduliQ.length) :
    negQModt moduliQ t l = t - (moduliQ.take (moduliQ.length - l)).prod % t := by
  rw [negQModt, tmpModulusQ_eq hpos hl]
  exact subFast_eq (Nat.mod_lt _ ht).le (lt_trans ht62 (by decide))

theorem tInvModq_spec (hmoduli : forall q, q ∈ moduliQ -> Poly.NttModulus q)
    (hcoprime : Nat.Coprime t moduliQ.prod) :
    exists inverses, tInvModq moduliQ t = some inverses ∧ inverses.length = moduliQ.length ∧
      forall (i q : Nat), moduliQ[i]? = some q -> exists tInv, inverses[i]? = some tInv ∧
        tInv < q ∧ (t : ZMod q) * tInv = 1 :=
  modInverses_spec hmoduli fun _ hq =>
    Nat.Coprime.coprime_dvd_right (List.dvd_prod hq) hcoprime

end Tables

/-! ## Multiples of a modulus -/

theorem timesQovert_tower {inverses : List Nat} {t negQModt precon i : Nat} {a r : DCRTPoly}
    (h : timesQovert inverses t negQModt precon a = some r) {p : Poly} (hp : a[i]? = some p) :
    exists tInv u, inverses[i]? = some tInv ∧ r[i]? = some u ∧
      scaledTower t negQModt precon tInv p = some u := by
  unfold timesQovert at h
  split at h
  · cases h
  · rcases mapM_getElem? h (List.getElem?_range (List.getElem?_eq_some_iff.mp hp).1) with
      ⟨u, hu, hstep⟩
    simp only [hp, Option.bind_eq_bind, Option.bind_some] at hstep
    rcases Option.bind_eq_some_iff.mp hstep with ⟨tInv, htInv, htower⟩
    exact ⟨tInv, u, htInv, hu, htower⟩

theorem scaledTower_zero {t c precon tInv r : Nat} {p u : Poly} (hq : Poly.NttModulus p.modulus)
    (hlt : tInv < p.modulus) (hprecon : modMulFastConst 0 c t precon = 0)
    (h : scaledTower t c precon tInv p = some u) (hp : p.values[r]? = some 0) :
    u.values[r]? = some 0 := by
  have hodd := hq.odd
  have hone := hq.one_lt
  have hmu := computeMu_eq (m := p.modulus) (by omega) hone hq.lt
  rw [scaledTower, hmu] at h
  cases h
  rw [List.getElem?_map, hp, Option.map_some, scaledWord, hprecon]
  rw [modMulFastMu_eq (by omega) hone hq.lt (by omega) hlt hmu, Nat.zero_mul, Nat.zero_mod]

theorem exists_encodes {k : Nat} {psi : Nat -> Nat} {moduli : List Nat}
    (hpos : forall q, q ∈ moduli -> 0 < q) (x : Nat -> Int) : exists a, Encodes k psi .COEFFICIENT moduli x a := by
  refine ⟨moduli.map fun q =>
    { modulus := q, format := .COEFFICIENT, values := residueVector q (2 ^ k) fun r => x r },
    denotes_of_towers (List.length_map _) ?_⟩
  intro i q p hq hp
  rw [List.getElem?_map, hq] at hp
  cases hp
  have : NeZero q := ⟨(hpos q (List.mem_of_getElem? hq)).ne'⟩
  exact ⟨rfl, rfl, residueVector_holds (2 ^ k) _⟩

theorem eq_one_of_multiples {c q t : Nat} (hone : 1 < q) (hpos : 0 < c) (hlt : c < t)
    (hqt : q < t) (hmultiple : forall m, m * q < t -> q ∣ m * q * c / t) : c = 1 := by
  have hfirst : q * c < t := by
    have hdvd := hmultiple 1 (by omega)
    rw [Nat.one_mul] at hdvd
    have hsmall : q * c / t < q :=
      Nat.div_lt_of_lt_mul (by
        rw [Nat.mul_comm t q]
        exact Nat.mul_lt_mul_of_pos_left hlt (by omega))
    have hzero := Nat.eq_zero_of_dvd_of_lt hdvd hsmall
    rcases Nat.div_eq_zero_iff.mp hzero with ht | hprod
    · omega
    · exact hprod
  apply Classical.byContradiction
  intro hne
  have htwo : 2 * t <= c * t := Nat.mul_le_mul_right t (by omega)
  -- the first multiple whose product reaches `t` stays below `2 t`
  have hcpos : 0 < q * c := Nat.mul_pos (by omega) hpos
  have hdiv := Nat.div_add_mod t (q * c)
  have hmod := Nat.mod_lt t hcpos
  have hproduct : (t / (q * c) + 1) * q * c = q * c * (t / (q * c)) + q * c := by ring
  have hbelow : (t / (q * c) + 1) * q < t := by
    apply Nat.lt_of_not_le
    intro hle
    have hmul := Nat.mul_le_mul_right c hle
    rw [hproduct, Nat.mul_comm t c] at hmul
    omega
  have hquotient : (t / (q * c) + 1) * q * c / t = 1 := by
    apply Nat.div_eq_of_lt_le
    · omega
    · omega
  have hdvd := hmultiple _ hbelow
  rw [hquotient] at hdvd
  have hle := Nat.le_of_dvd Nat.one_pos hdvd
  omega

/-! ## All towers -/

section Chain

variable {cache : Poly.TableCache} {k : Nat} {psi : Nat -> Nat} {moduliQ : List Nat} {t l : Nat}

def levelModuli (moduliQ : List Nat) (l : Nat) : List Nat :=
  moduliQ.take (moduliQ.length - l)

theorem levelModuli_getElem? {i q : Nat} (h : (levelModuli moduliQ l)[i]? = some q) :
    moduliQ[i]? = some q := by
  rw [levelModuli, List.getElem?_take] at h
  split at h
  · exact h
  · cases h

/-- The first element changes by the scaled plaintext, up to an error below one. -/
def AddsQuotient (k : Nat) (psi : Nat -> Nat) (moduli : List Nat) (t : Nat) (sign : Int)
    (run : List DCRTPoly -> DCRTPoly -> Option (List DCRTPoly)) : Prop :=
  forall (v : Nat -> Nat) (format : Format) (pt c0 : DCRTPoly) (cv : List DCRTPoly)
    (x : Nat -> Int), (forall r, v r < t) -> Encodes k psi format moduli (fun r => v r) pt ->
    Encodes k psi .EVALUATION moduli x c0 ->
    exists (r0 : DCRTPoly) (z : Nat -> Int), run (c0 :: cv) pt = some (r0 :: cv) ∧
      Encodes k psi .EVALUATION moduli (fun r => x r + sign * z r) r0 ∧
      forall r, 0 <= t * z r - moduli.prod * v r ∧ t * z r - moduli.prod * v r < t

/--
Every polynomial of residues modulo `t` is scaled to the same integers in all towers of the
level, and these are added and subtracted.
-/
structure ScalesPlaintexts (cache : Poly.TableCache) (k : Nat) (psi : Nat -> Nat)
    (moduliQ : List Nat) (t l : Nat) : Prop where
  timesQovert : forall (v : Nat -> Nat) (pt : DCRTPoly), (forall r, v r < t) ->
    Encodes k psi .COEFFICIENT (levelModuli moduliQ l) (fun r => v r) pt ->
    exists inverses precon r, tInvModq moduliQ t = some inverses ∧
      negQModtPrecon moduliQ t l = some precon ∧
      timesQovert inverses t (negQModt moduliQ t l) precon pt = some r ∧
      Encodes k psi .COEFFICIENT (levelModuli moduliQ l)
        (fun r => scaledValue (levelModuli moduliQ l).prod t (v r)) r
  evalAdd : AddsQuotient k psi (levelModuli moduliQ l) t 1 (evalAddInPlace cache moduliQ t)
  evalSub : AddsQuotient k psi (levelModuli moduliQ l) t (-1) (evalSubInPlace cache moduliQ t)

variable (hk : 0 < k) (hk31 : k <= 31) (hready : ReadyChain cache k psi moduliQ)
  (hcoprime : Nat.Coprime t moduliQ.prod) (ht62 : t < 2 ^ 62) (hl : l < moduliQ.length)

include hready hcoprime ht62 hl

omit ht62 in
theorem level_coprime : 0 < t ∧ Nat.Coprime t (levelModuli moduliQ l).prod := by
  have hdvd : (levelModuli moduliQ l).prod ∣ moduliQ.prod :=
    (List.take_sublist _ _).prod_dvd_prod
  refine ⟨?_, Nat.Coprime.coprime_dvd_right hdvd hcoprime⟩
  apply Nat.pos_of_ne_zero
  rintro rfl
  have hone : moduliQ.prod = 1 := (Nat.coprime_zero_left _).mp hcoprime
  have hq := List.getElem_mem hl
  have hle := Nat.le_of_dvd (by omega) (List.dvd_prod hq)
  have hgt := (hready _ hq).modulus.one_lt
  omega

theorem timesQovert_encodes (hfits : forall q, q ∈ levelModuli moduliQ l ->
      t <= q ∨ t ∣ (levelModuli moduliQ l).prod + 1) {v : Nat -> Nat} (hv : forall r, v r < t)
    {pt : DCRTPoly} (hpt : Encodes k psi .COEFFICIENT (levelModuli moduliQ l) (fun r => v r) pt) :
    exists inverses precon r, tInvModq moduliQ t = some inverses ∧
      negQModtPrecon moduliQ t l = some precon ∧
      timesQovert inverses t (negQModt moduliQ t l) precon pt = some r ∧
      Encodes k psi .COEFFICIENT (levelModuli moduliQ l)
        (fun r => scaledValue (levelModuli moduliQ l).prod t (v r)) r := by
  rcases level_coprime hready hcoprime hl with ⟨ht, hlevel⟩
  have hmoduli : forall q, q ∈ moduliQ -> Poly.NttModulus q := fun q hq => (hready q hq).modulus
  have hpos : forall q, q ∈ moduliQ -> 0 < q :=
    fun q hq => lt_trans Nat.one_pos (hmoduli q hq).one_lt
  have hneg := negQModt_eq hpos ht ht62 hl.le
  rcases tInvModq_spec hmoduli hcoprime with ⟨inverses, hinverses, hlength, hget⟩
  rcases negQModtPrecon_eq ht hlevel ht62 with ⟨precon, hprecon, hspec⟩
  have hptlength : pt.length = moduliQ.length - l := by
    rw [hpt.wellFormed.length_eq, levelModuli, List.length_take]
    omega
  rcases mapTowers_encodes (fun i p => do
      let tInv <- inverses[i]?
      scaledTower t (t - (levelModuli moduliQ l).prod % t) precon tInv p) hpt (by
      intro i q p hq hp
      have hmem := List.mem_of_getElem? hq
      rcases hget i q (levelModuli_getElem? hq) with ⟨tInv, htInv, hlt, hinverse⟩
      simp only [htInv, Option.bind_eq_bind, Option.bind_some]
      exact scaledTower_encodes ht (hmoduli q (List.mem_of_mem_take hmem)) (List.dvd_prod hmem)
        (hfits q hmem) hv hp hlt hinverse hspec) with ⟨r, hr, hrencodes⟩
  refine ⟨inverses, precon, r, hinverses, ?_, ?_, hrencodes⟩
  · rw [negQModtPrecon, hneg]
    exact hprecon
  · rw [timesQovert, if_neg (by omega), hneg]
    exact hr

include hk hk31

theorem scaledPlaintext_encodes (hfits : forall q, q ∈ levelModuli moduliQ l ->
      t <= q ∨ t ∣ (levelModuli moduliQ l).prod + 1) {v : Nat -> Nat} (hv : forall r, v r < t)
    {format : Format} {pt : DCRTPoly}
    (hpt : Encodes k psi format (levelModuli moduliQ l) (fun r => v r) pt) :
    exists r, scaledPlaintext cache moduliQ t pt = some r ∧
      Encodes k psi .EVALUATION (levelModuli moduliQ l)
        (fun r => scaledValue (levelModuli moduliQ l).prod t (v r)) r := by
  have hlevel : ReadyChain cache k psi (levelModuli moduliQ l) :=
    fun q hq => hready q (List.mem_of_mem_take hq)
  rcases hpt.setFormat hk hk31 hlevel .COEFFICIENT with ⟨pt', hpt', hencodes⟩
  rcases timesQovert_encodes hready hcoprime ht62 hl hfits hv hencodes with
    ⟨inverses, precon, r, hinverses, hprecon, hr, hrencodes⟩
  rcases hrencodes.setFormat hk hk31 hlevel .EVALUATION with ⟨r', hr', hr'encodes⟩
  have hindex : moduliQ.length - pt'.length = l := by
    rw [hencodes.wellFormed.length_eq, levelModuli, List.length_take]
    omega
  refine ⟨r', ?_, hr'encodes⟩
  unfold scaledPlaintext
  rw [hpt']
  simp only [Option.bind_eq_bind, Option.bind_some, hindex, hprecon, hinverses, hr, hr']

theorem evalAdd_addsQuotient (hfits : forall q, q ∈ levelModuli moduliQ l ->
      t <= q ∨ t ∣ (levelModuli moduliQ l).prod + 1) :
    AddsQuotient k psi (levelModuli moduliQ l) t 1 (evalAddInPlace cache moduliQ t) := by
  intro v format pt c0 cv x hv hpt hc0
  have hmoduli : forall q, q ∈ levelModuli moduliQ l -> Poly.NttModulus q :=
    fun q hq => (hready q (List.mem_of_mem_take hq)).modulus
  rcases scaledPlaintext_encodes hk hk31 hready hcoprime ht62 hl hfits hv hpt with
    ⟨pt', hpt', hencodes⟩
  rcases plusEq_denotes hmoduli hc0 hencodes with ⟨r0, hr0, hdenotes⟩
  refine ⟨r0, fun r => scaledValue (levelModuli moduliQ l).prod t (v r), ?_, ?_, ?_⟩
  · unfold evalAddInPlace
    rw [hpt']
    simp only [Option.bind_eq_bind, Option.bind_some, List.getElem?_cons_zero, hr0]
    rfl
  · apply hdenotes.congr
    intro i q _ r _
    rw [inFormat_add_mul, Int.cast_one, one_mul]
    rfl
  · exact fun r => scaledValue_error (level_coprime hready hcoprime hl).1 (v r)

theorem evalSub_addsQuotient (hfits : forall q, q ∈ levelModuli moduliQ l ->
      t <= q ∨ t ∣ (levelModuli moduliQ l).prod + 1) :
    AddsQuotient k psi (levelModuli moduliQ l) t (-1) (evalSubInPlace cache moduliQ t) := by
  intro v format pt c0 cv x hv hpt hc0
  have hmoduli : forall q, q ∈ levelModuli moduliQ l -> Poly.NttModulus q :=
    fun q hq => (hready q (List.mem_of_mem_take hq)).modulus
  rcases scaledPlaintext_encodes hk hk31 hready hcoprime ht62 hl hfits hv hpt with
    ⟨pt', hpt', hencodes⟩
  rcases minusEq_spec hmoduli hc0.wellFormed hencodes.wellFormed with ⟨r0, hr0, hwf, hvalue⟩
  refine ⟨r0, fun r => scaledValue (levelModuli moduliQ l).prod t (v r), ?_, ⟨hwf, ?_⟩, ?_⟩
  · unfold evalSubInPlace
    rw [hpt']
    simp only [Option.bind_eq_bind, Option.bind_some, List.getElem?_cons_zero, hr0]
    rfl
  · intro i q hq r hr
    rw [hvalue i q hq r hr, inFormat_add_mul, hc0.value_eq i q hq r hr,
      hencodes.value_eq i q hq r hr, Int.cast_neg, Int.cast_one, neg_one_mul, sub_eq_add_neg]
  · exact fun r => scaledValue_error (level_coprime hready hcoprime hl).1 (v r)

omit hk hk31 in
theorem ScalesPlaintexts.multiple_dvd (h : ScalesPlaintexts cache k psi moduliQ t l) {q : Nat}
    (hq : q ∈ levelModuli moduliQ l) {m : Nat} (hm : m * q < t) :
    q ∣ m * q * (t - (levelModuli moduliQ l).prod % t) / t := by
  rcases level_coprime hready hcoprime hl with ⟨ht, hlevel⟩
  have hmoduli : forall q, q ∈ moduliQ -> Poly.NttModulus q := fun q hq => (hready q hq).modulus
  have hpos : forall q, q ∈ moduliQ -> 0 < q :=
    fun q hq => lt_trans Nat.one_pos (hmoduli q hq).one_lt
  have hmodulus := hmoduli q (List.mem_of_mem_take hq)
  have hneg : negQModt moduliQ t l = t - (levelModuli moduliQ l).prod % t :=
    negQModt_eq hpos ht ht62 hl.le
  rcases List.mem_iff_getElem?.mp hq with ⟨i, hi⟩
  rcases exists_encodes (k := k) (fun q hq => hpos q (List.mem_of_mem_take hq))
    (fun _ => ((m * q : Nat) : Int)) with ⟨pt, hpt⟩
  rcases h.timesQovert (fun _ => m * q) pt (fun _ => hm) hpt with
    ⟨inverses, precon, r, hinverses, hprecon, hr, hrencodes⟩
  rw [hneg] at hr
  rw [negQModtPrecon, hneg] at hprecon
  rcases negQModtPrecon_eq ht hlevel ht62 with ⟨precon', hprecon', hspec⟩
  cases hprecon.symm.trans hprecon'
  rcases hpt.tower hi with ⟨p, hp, hpencodes⟩
  rcases timesQovert_tower hr hp with ⟨tInv, u, htInv, hu, htower⟩
  rcases hrencodes.tower hi with ⟨u', hu', hu'encodes⟩
  cases hu.symm.trans hu'
  have hzero : p.values[0]? = some 0 := by
    apply hpencodes.holds.getElem? (Nat.two_pow_pos k)
    refine ⟨lt_trans Nat.one_pos hmodulus.one_lt, ?_⟩
    change ((0 : Nat) : ZMod q) = (((m * q : Nat) : Int) : ZMod q)
    rw [Int.cast_natCast, Nat.cast_mul, ZMod.natCast_self, mul_zero, Nat.cast_zero]
  have hlt : tInv < p.modulus := by
    rcases tInvModq_spec hmoduli hcoprime with ⟨inverses', hinverses', _, hget⟩
    cases hinverses.symm.trans hinverses'
    rcases hget i q (levelModuli_getElem? hi) with ⟨tInv', htInv', hlt, _⟩
    cases htInv.symm.trans htInv'
    rw [hpencodes.modulus_eq]
    exact hlt
  have hconst := hspec 0 (by decide) (fun _ => rfl)
  rw [Nat.zero_mul, Nat.zero_mod] at hconst
  have hvanishes := scaledTower_zero (by rw [hpencodes.modulus_eq]; exact hmodulus) hlt hconst
    htower hzero
  have hscaled := (hu'encodes.holds.get 0 0 hvanishes).2
  change ((0 : Nat) : ZMod q) =
    (scaledValue (levelModuli moduliQ l).prod t ((m * q : Nat) : Int) : ZMod q) at hscaled
  have hcast := mul_scaledValue_cast ht (List.dvd_prod hq) (m * q)
  rw [← hscaled, Nat.cast_zero, mul_zero] at hcast
  have hrem := (ZMod.natCast_eq_zero_iff _ q).mp hcast.symm
  have hproduct : q ∣ m * q * (t - (levelModuli moduliQ l).prod % t) :=
    (Nat.dvd_mul_left q m).mul_right _
  have hsplit := Nat.div_add_mod (m * q * (t - (levelModuli moduliQ l).prod % t)) t
  rw [← hsplit] at hproduct
  exact (Nat.Coprime.coprime_dvd_right (List.dvd_prod hq) hlevel).symm.dvd_of_dvd_mul_left
    ((Nat.dvd_add_left hrem).mp hproduct)

omit hk hk31 in
theorem ScalesPlaintexts.fits (h : ScalesPlaintexts cache k psi moduliQ t l) {q : Nat}
    (hq : q ∈ levelModuli moduliQ l) : t <= q ∨ t ∣ (levelModuli moduliQ l).prod + 1 := by
  rcases level_coprime hready hcoprime hl with ⟨ht, hlevel⟩
  rcases Nat.lt_or_ge q t with hlt | hge
  · right
    have hone := (hready q (List.mem_of_mem_take hq)).modulus.one_lt
    have hc := negated_lt ht hlevel (show t ≠ 1 by omega)
    have hmultiple : forall m, m * q < t ->
        q ∣ m * q * (t - (levelModuli moduliQ l).prod % t) / t :=
      fun m hm => h.multiple_dvd hready hcoprime ht62 hl hq hm
    have hrem := Nat.mod_lt (levelModuli moduliQ l).prod ht
    have hdvd : t - (levelModuli moduliQ l).prod % t = 1 ->
        t ∣ (levelModuli moduliQ l).prod + 1 := by
      intro heq
      apply Nat.dvd_of_mod_eq_zero
      rw [Nat.add_mod, show (levelModuli moduliQ l).prod % t = t - 1 by omega,
        Nat.mod_eq_of_lt (show 1 < t by omega), Nat.sub_add_cancel (by omega), Nat.mod_self]
    exact hdvd (eq_one_of_multiples hone (by omega) hc hlt hmultiple)
  · exact Or.inl hge

/-- The plaintexts are scaled exactly if `t` fits in every tower or divides `Q + 1`. -/
theorem scalesPlaintexts_iff : ScalesPlaintexts cache k psi moduliQ t l <->
    forall q, q ∈ levelModuli moduliQ l ->
      t <= q ∨ t ∣ (levelModuli moduliQ l).prod + 1 := by
  constructor
  · intro h q hq
    exact h.fits hready hcoprime ht62 hl hq
  · intro hfits
    constructor
    · exact fun v pt hv hpt => timesQovert_encodes hready hcoprime ht62 hl hfits hv hpt
    · exact evalAdd_addsQuotient hk hk31 hready hcoprime ht62 hl hfits
    · exact evalSub_addsQuotient hk hk31 hready hcoprime ht62 hl hfits

end Chain

/-!
## Small parameters
-/

theorem scalesPlaintexts_small :
    ScalesPlaintexts Poly.smallCache 1 Poly.smallRoot [5, 13, 17] 3 1 :=
  (scalesPlaintexts_iff (by decide) (by decide) (smallReadyChain (by decide)) (by decide)
    (by decide) (by decide)).mpr (by decide)

/-- The plaintext modulus 7 does not fit in the tower of 5. -/
theorem not_scalesPlaintexts_small :
    ¬ ScalesPlaintexts Poly.smallCache 1 Poly.smallRoot [5, 13] 7 0 := by
  intro h
  have hfits := h.fits (smallReadyChain (by decide)) (by decide) (by decide) (by decide)
    (q := 5) (by decide)
  exact absurd hfits (by decide)

end Bfvrns
end Scheme
end OpenFHE
