import OpenFHE.Hal.Poly
import OpenFHE.Foundation.Loop

/-!
# Double-CRT polynomials

`DCRTPolyImpl` is a vector of towers, one polynomial for each modulus of its
chain.  The approximate change of basis works on the coefficients of all towers
and may add a multiple of the source modulus.
-/

namespace OpenFHE
namespace Hal

open OpenFHE.Core Foundation NativeInteger

/-- The towers of a polynomial; their moduli are its parameters. -/
abbrev DCRTPoly := List Poly

namespace DCRTPoly

def zero (moduli : List Nat) (ringDimension : Nat) (format : Format) : DCRTPoly :=
  moduli.map fun q => Poly.zero q ringDimension format

def setFormat (cache : Poly.TableCache) (a : DCRTPoly) (format : Format) :
    Option DCRTPoly :=
  a.mapM fun t => Poly.setFormat cache t format

/-- Tower by tower; a missing tower of `rhs` is an access out of range. -/
def zipTowers (op : Poly -> Poly -> Option Poly) (a rhs : DCRTPoly) : Option DCRTPoly :=
  (List.range a.length).mapM fun i => do
    let x <- a[i]?
    let y <- rhs[i]?
    op x y

def plusEq (a rhs : DCRTPoly) : Option DCRTPoly := zipTowers Poly.plusEq a rhs

def minusEq (a rhs : DCRTPoly) : Option DCRTPoly := zipTowers Poly.minusEq a rhs

def timesEq (a rhs : DCRTPoly) : Option DCRTPoly := zipTowers Poly.times a rhs

def plus (a rhs : DCRTPoly) : Option DCRTPoly := do
  let x <- a[0]?
  let y <- rhs[0]?
  if x.values.length ≠ y.values.length then none
  else if x.format ≠ y.format then none
  else if a.length ≠ rhs.length then none
  else if x.modulus ≠ y.modulus then none
  else zipTowers Poly.plusNoCheck a rhs

def times (a rhs : DCRTPoly) : Option DCRTPoly := do
  let x <- a[0]?
  let y <- rhs[0]?
  if x.values.length ≠ y.values.length then none
  else if x.format ≠ .EVALUATION ∨ y.format ≠ .EVALUATION then none
  else if a.length ≠ rhs.length then none
  else if x.modulus ≠ y.modulus then none
  else zipTowers Poly.timesNoCheck a rhs

def timesInteger (a : DCRTPoly) (element : Nat) : Option DCRTPoly :=
  a.mapM fun t => Poly.timesInteger t element

def dropLastElements (a : DCRTPoly) (i : Nat) : Option DCRTPoly :=
  if a.length <= i then none else some (a.take (a.length - i))

/-- The remainder of a 128-bit value, by the high word of its product with `mu`. -/
def barrettUint128ModUint64 (a modulus mu : Nat) : Option Nat :=
  let a_lo := word a
  let a_hi := a >>> 64
  let mu_lo := word mu
  let mu_hi := mu >>> 64
  let left_hi := (a_lo * mu_lo) >>> 64
  let middle := a_lo * mu_hi
  let middle_lo := word middle
  let middle_hi := middle >>> 64
  let tmp1 := word (middle_lo + left_hi)
  let carry := if tmp1 < left_hi then 1 else 0
  let tmp2 := word (middle_hi + carry)
  let middle := a_hi * mu_lo
  let middle_lo := word middle
  let middle_hi := middle >>> 64
  let carry := if word (middle_lo + tmp1) < tmp1 then 1 else 0
  let left_hi := word (middle_hi + carry)
  let tmp1 := word (a_hi * mu_hi + tmp2 + left_hi)
  let result := subFast a_lo (word (tmp1 * modulus))
  -- `while (result >= modulus) result -= modulus`, endless for modulus zero
  if modulus = 0 then none else some (result % modulus)

/-- `m_params` of the target basis with the tables of `ApproxSwitchCRTBasis`. -/
structure SwitchTables where
  moduli : List Nat
  qHatInvModq : List Nat
  qHatInvModqPrecon : List Nat
  qHatModp : List (List Nat)
  modpBarrettMu : List Nat
deriving DecidableEq, Repr

def switchTerm (tables : SwitchTables) (a : DCRTPoly) (ri j i : Nat) : Option Nat := do
  let t <- a[i]?
  let x <- t.values[ri]?
  let qHatInv <- tables.qHatInvModq[i]?
  let precon <- tables.qHatInvModqPrecon[i]?
  let row <- tables.qHatModp[i]?
  let qHat <- row[j]?
  return modMulFastConst x qHatInv t.modulus precon * qHat

/-- The 128-bit sum of position `ri` for the target tower `j`. -/
def switchSum (tables : SwitchTables) (a : DCRTPoly) (sizeQ ri j : Nat) : Option Nat :=
  (List.range sizeQ).foldlM
    (fun sum i => (switchTerm tables a ri j i).map fun term => doubleWord (sum + term)) 0

def switchTower (tables : SwitchTables) (a : DCRTPoly)
    (ringDimension sizeQ : Nat) (format : Format) (j : Nat) : Option Poly := do
  let pj <- tables.moduli[j]?
  let mu <- tables.modpBarrettMu[j]?
  let values <- (List.range ringDimension).mapM fun ri =>
    (switchSum tables a sizeQ ri j).bind fun sum => barrettUint128ModUint64 sum pj mu
  return { modulus := pj, format := format, values := values }

def approxSwitchCRTBasis (tables : SwitchTables) (ringDimension sizeParamsQ : Nat)
    (format : Format) (a : DCRTPoly) : Option DCRTPoly :=
  let sizeQ := if a.length > sizeParamsQ then sizeParamsQ else a.length
  (List.range tables.moduli.length).mapM
    (switchTower tables a ringDimension sizeQ format)

/-- The value of tower `i` at position `r`; a missing tower has value zero. -/
def value (a : DCRTPoly) (i r : Nat) : Nat := a[i]?.elim 0 fun t => t.value r

theorem value_eq {a : DCRTPoly} {i : Nat} {t : Poly} (h : a[i]? = some t) (r : Nat) :
    value a i r = t.value r := by
  rw [value, h]
  rfl

/-!
## Well-formed towers
-/

structure WellFormed (n : Nat) (format : Format) (moduli : List Nat) (a : DCRTPoly) :
    Prop where
  length_eq : a.length = moduli.length
  get : forall (i q : Nat) (t : Poly), moduli[i]? = some q -> a[i]? = some t ->
    t.WellFormed q n format

def constant (moduli values : List Nat) : DCRTPoly :=
  moduli.map fun q => { modulus := q, format := .EVALUATION, values := values }

theorem constant_wellFormed (values : List Nat) {moduli : List Nat} {n : Nat}
    (hlength : values.length = n)
    (hlt : forall q, q ∈ moduli -> forall x, x ∈ values -> x < q) :
    WellFormed n .EVALUATION moduli (constant moduli values) := by
  refine ⟨List.length_map _, ?_⟩
  intro i q t hq ht
  rw [constant, List.getElem?_map, hq] at ht
  rw [← Option.some.inj ht]
  exact ⟨rfl, rfl, hlength, hlt q (List.mem_of_getElem? hq)⟩

theorem WellFormed.exists_tower {n : Nat} {format : Format} {moduli : List Nat}
    {a : DCRTPoly} (h : WellFormed n format moduli a) {i q : Nat}
    (hi : moduli[i]? = some q) : exists t, a[i]? = some t ∧ t.WellFormed q n format := by
  have hlt : i < a.length := by
    rw [h.length_eq]
    exact (List.getElem?_eq_some_iff.mp hi).1
  have hentry := List.getElem?_eq_getElem hlt
  exact ⟨_, hentry, h.get i q _ hi hentry⟩

theorem WellFormed.moduli_eq {n : Nat} {format : Format} {ms : List Nat}
    {a : DCRTPoly} (h : WellFormed n format ms a) : a.map Poly.modulus = ms := by
  refine List.ext_getElem (by rw [List.length_map, h.length_eq]) fun i h₁ h₂ => ?_
  have hi : i < a.length := by
    rw [h.length_eq]
    exact h₂
  rw [List.getElem_map]
  exact (h.get i _ _ (List.getElem?_eq_getElem h₂) (List.getElem?_eq_getElem hi)).1

theorem WellFormed.format_eq {n : Nat} {format : Format} {moduli : List Nat}
    {a : DCRTPoly} (h : WellFormed n format moduli a) {t : Poly} (ht : t ∈ a) :
    t.format = format := by
  rcases List.mem_iff_getElem?.mp ht with ⟨i, hi⟩
  have hq := List.getElem?_eq_getElem (show i < moduli.length by
    rw [← h.length_eq]
    exact (List.getElem?_eq_some_iff.mp hi).1)
  exact (h.get i _ t hq hi).2.1

theorem setFormat_self {cache : Poly.TableCache} {format : Format} {a : DCRTPoly}
    (h : forall t, t ∈ a -> t.format = format) : setFormat cache a format = some a := by
  induction a with
  | nil => rfl
  | cons t a ih =>
      have htail := ih fun u hu => h u (List.mem_cons_of_mem t hu)
      unfold setFormat at htail ⊢
      rw [List.mapM_cons, htail, Poly.setFormat, if_pos (h t List.mem_cons_self)]
      rfl

theorem zero_wellFormed {moduli : List Nat} (hpos : forall q, q ∈ moduli -> 0 < q)
    (n : Nat) (format : Format) : WellFormed n format moduli (zero moduli n format) := by
  refine ⟨by rw [zero, List.length_map], ?_⟩
  intro i q t hq ht
  rw [zero, List.getElem?_map, hq] at ht
  cases ht
  exact (Poly.zero_denotes (hpos q (List.mem_of_getElem? hq)) n format).wellFormed

theorem zero_set_spec {moduli : List Nat} (hpos : forall q, q ∈ moduli -> 0 < q) {n : Nat}
    {i q : Nat} (hq : moduli[i]? = some q) {f : Nat -> ZMod q} {t : Poly}
    (ht : Poly.Denotes q n .EVALUATION f t) :
    WellFormed n .EVALUATION moduli ((zero moduli n .EVALUATION).set i t) ∧
      (forall r, r < n -> (value ((zero moduli n .EVALUATION).set i t) i r : ZMod q) = f r) ∧
      forall m q', moduli[m]? = some q' -> m ≠ i -> forall r, r < n ->
        (value ((zero moduli n .EVALUATION).set i t) m r : ZMod q') = 0 := by
  have hzero := zero_wellFormed hpos n .EVALUATION
  have hi : i < (zero moduli n .EVALUATION).length := by
    rw [hzero.length_eq]
    exact (List.getElem?_eq_some_iff.mp hq).1
  refine ⟨⟨by rw [List.length_set, hzero.length_eq], ?_⟩, ?_, ?_⟩
  · intro m q' u hq' hu
    by_cases hmi : m = i
    · rw [hmi, List.getElem?_set_self hi] at hu
      rw [hmi, hq] at hq'
      rw [← Option.some.inj hu, ← Option.some.inj hq']
      exact ht.wellFormed
    · rw [List.getElem?_set_ne (Ne.symm hmi)] at hu
      exact hzero.get m q' u hq' hu
  · intro r hr
    rw [value_eq (List.getElem?_set_self hi)]
    exact ht.value_eq hr
  · intro m q' hq' hmi r hr
    have hentry : (zero moduli n .EVALUATION)[m]? = some (Poly.zero q' n .EVALUATION) := by
      rw [zero, List.getElem?_map, hq']
      rfl
    have hset : ((zero moduli n .EVALUATION).set i t)[m]? =
        some (Poly.zero q' n .EVALUATION) := by
      rw [List.getElem?_set_ne (Ne.symm hmi), hentry]
    rw [value_eq hset]
    exact (Poly.zero_denotes (hpos q' (List.mem_of_getElem? hq')) n .EVALUATION).value_eq hr

theorem value_take (a : DCRTPoly) {i m : Nat} (hi : i < m) (r : Nat) :
    value (a.take m) i r = value a i r := by
  rw [value, value, List.getElem?_take_of_lt hi]

theorem WellFormed.take {n : Nat} {format : Format} {moduli : List Nat} {a : DCRTPoly}
    (h : WellFormed n format moduli a) (m : Nat) :
    WellFormed n format (moduli.take m) (a.take m) := by
  refine ⟨by rw [List.length_take, List.length_take, h.length_eq], ?_⟩
  intro i q t hq ht
  have hi : i < m := by
    have hlt := (List.getElem?_eq_some_iff.mp ht).1
    rw [List.length_take] at hlt
    omega
  rw [List.getElem?_take_of_lt hi] at hq ht
  exact h.get i q t hq ht

theorem dropLastElements_eq {n : Nat} {format : Format} {moduli : List Nat} {a : DCRTPoly}
    (h : WellFormed n format moduli a) {m : Nat} (hm : 0 < m) (hle : m <= moduli.length) :
    dropLastElements a (moduli.length - m) = some (a.take m) := by
  have hlength := h.length_eq
  rw [dropLastElements, if_neg (by omega), hlength]
  congr 2
  omega

theorem zipTowers_spec {op : Poly -> Poly -> Option Poly} {n : Nat} {format : Format}
    {moduli : List Nat} (F : forall q, ZMod q -> ZMod q -> ZMod q)
    (hop : forall q, q ∈ moduli -> forall (f g : Nat -> ZMod q) x y,
      Poly.Denotes q n format f x -> Poly.Denotes q n format g y ->
      exists r, op x y = some r ∧ Poly.Denotes q n format (fun i => F q (f i) (g i)) r)
    {a b : DCRTPoly} (ha : WellFormed n format moduli a)
    (hb : WellFormed n format moduli b) :
    exists c, zipTowers op a b = some c ∧ WellFormed n format moduli c ∧
      forall i q, moduli[i]? = some q -> forall r, r < n ->
        (value c i r : ZMod q) = F q (value a i r) (value b i r) := by
  have htower : forall i q, moduli[i]? = some q ->
      exists x y t, a[i]? = some x ∧ b[i]? = some y ∧ op x y = some t ∧
        Poly.Denotes q n format (fun r => F q (value a i r) (value b i r)) t := by
    intro i q hq
    rcases ha.exists_tower hq with ⟨x, hx, hx_wf⟩
    rcases hb.exists_tower hq with ⟨y, hy, hy_wf⟩
    rcases hop q (List.mem_of_getElem? hq) _ _ x y hx_wf.denotes hy_wf.denotes with
      ⟨t, ht, hdenotes⟩
    refine ⟨x, y, t, hx, hy, ht, ?_⟩
    simp only [value_eq hx, value_eq hy]
    exact hdenotes
  rcases mapM_range_spec (n := a.length)
    (f := fun i => a[i]?.bind fun x => b[i]?.bind fun y => op x y)
    (fun i (t : Poly) => forall q, moduli[i]? = some q ->
      Poly.Denotes q n format (fun r => F q (value a i r) (value b i r)) t)
    (by
      intro i hi
      have hq := List.getElem?_eq_getElem (show i < moduli.length by
        rw [← ha.length_eq]
        exact hi)
      rcases htower i _ hq with ⟨x, y, t, hx, hy, ht, hdenotes⟩
      refine ⟨t, by rw [hx, hy]; exact ht, ?_⟩
      intro q hq'
      rw [hq] at hq'
      rw [← Option.some.inj hq']
      exact hdenotes) with ⟨c, hc, hlength, hget⟩
  refine ⟨c, hc, ⟨hlength.trans ha.length_eq, fun i q t hq ht =>
    (hget i t ht q hq).wellFormed⟩, ?_⟩
  intro i q hq r hr
  have hi : i < c.length := by
    rw [hlength, ha.length_eq]
    exact (List.getElem?_eq_some_iff.mp hq).1
  have ht := List.getElem?_eq_getElem hi
  rw [value_eq ht]
  exact (hget i _ ht q hq).value_eq hr

theorem timesInteger_spec {n : Nat} {format : Format} {moduli : List Nat}
    (hmoduli : forall q, q ∈ moduli -> Poly.NttModulus q) {a : DCRTPoly}
    (ha : WellFormed n format moduli a) (c : Nat) :
    exists r, timesInteger a c = some r ∧ WellFormed n format moduli r ∧
      forall i q, moduli[i]? = some q -> forall j, j < n ->
        (value r i j : ZMod q) = value a i j * c := by
  rcases mapM_spec (l := a) (f := fun t => Poly.timesInteger t c)
    (fun t r => forall q, q ∈ moduli -> Poly.WellFormed q n format t ->
      Poly.Denotes q n format (fun j => (t.value j : ZMod q) * c) r)
    (by
      intro t ht
      rcases List.mem_iff_getElem?.mp ht with ⟨i, hi⟩
      have hq := List.getElem?_eq_getElem (show i < moduli.length by
        rw [← ha.length_eq]
        exact (List.getElem?_eq_some_iff.mp hi).1)
      have hwf := ha.get i _ t hq hi
      rcases Poly.timesInteger_denotes (hmoduli _ (List.mem_of_getElem? hq)) c
        hwf.denotes with ⟨r, hr, hdenotes⟩
      refine ⟨r, hr, fun q _ hwf' => ?_⟩
      rw [← hwf'.1, hwf.1]
      exact hdenotes) with ⟨r, hr, hlength, hget⟩
  have htower : forall (i q : Nat) (t u : Poly), moduli[i]? = some q -> a[i]? = some t ->
      r[i]? = some u -> Poly.Denotes q n format (fun j => (t.value j : ZMod q) * c) u :=
    fun i q t u hq ht hu => hget i t u ht hu q (List.mem_of_getElem? hq) (ha.get i q t hq ht)
  refine ⟨r, hr, ⟨hlength.trans ha.length_eq, ?_⟩, ?_⟩
  · intro i q u hq hu
    rcases ha.exists_tower hq with ⟨t, ht, _⟩
    exact (htower i q t u hq ht hu).wellFormed
  · intro i q hq j hj
    rcases ha.exists_tower hq with ⟨t, ht, _⟩
    have hu := List.getElem?_eq_getElem (show i < r.length by
      rw [hlength, ha.length_eq]
      exact (List.getElem?_eq_some_iff.mp hq).1)
    rw [value_eq ht, value_eq hu]
    exact (htower i q t _ hq ht hu).value_eq hj

section Arithmetic

variable {n : Nat} {moduli : List Nat}
  (hmoduli : forall q, q ∈ moduli -> Poly.NttModulus q) {a b : DCRTPoly}
  (ha : WellFormed n .EVALUATION moduli a) (hb : WellFormed n .EVALUATION moduli b)

include hmoduli ha hb

theorem plusEq_spec :
    exists c, plusEq a b = some c ∧ WellFormed n .EVALUATION moduli c ∧
      forall i q, moduli[i]? = some q -> forall r, r < n ->
        (value c i r : ZMod q) = value a i r + value b i r :=
  zipTowers_spec (fun _ x y => x + y)
    (fun q hq _ _ _ _ hx hy => Poly.plusEq_denotes (hmoduli q hq) hx hy) ha hb

theorem minusEq_spec :
    exists c, minusEq a b = some c ∧ WellFormed n .EVALUATION moduli c ∧
      forall i q, moduli[i]? = some q -> forall r, r < n ->
        (value c i r : ZMod q) = value a i r - value b i r :=
  zipTowers_spec (fun _ x y => x - y)
    (fun q hq _ _ _ _ hx hy => Poly.minusEq_denotes (hmoduli q hq) hx hy) ha hb

theorem timesEq_spec :
    exists c, timesEq a b = some c ∧ WellFormed n .EVALUATION moduli c ∧
      forall i q, moduli[i]? = some q -> forall r, r < n ->
        (value c i r : ZMod q) = value a i r * value b i r :=
  zipTowers_spec (fun _ x y => x * y)
    (fun q hq _ _ _ _ hx hy => Poly.times_denotes (hmoduli q hq) hx hy) ha hb

omit hmoduli in
/-- The guards of `Plus` and `Times` look at the first towers only. -/
theorem first_towers (hpos : 0 < moduli.length) :
    exists x y, a[0]? = some x ∧ b[0]? = some y ∧ x.values.length = y.values.length ∧
      x.format = .EVALUATION ∧ y.format = .EVALUATION ∧ x.modulus = y.modulus ∧
      a.length = b.length := by
  have hq := List.getElem?_eq_getElem hpos
  rcases ha.exists_tower hq with ⟨x, hx, hx_wf⟩
  rcases hb.exists_tower hq with ⟨y, hy, hy_wf⟩
  exact ⟨x, y, hx, hy, hx_wf.2.2.1.trans hy_wf.2.2.1.symm, hx_wf.2.1, hy_wf.2.1,
    hx_wf.1.trans hy_wf.1.symm, ha.length_eq.trans hb.length_eq.symm⟩

theorem plus_spec (hpos : 0 < moduli.length) :
    exists c, plus a b = some c ∧ WellFormed n .EVALUATION moduli c ∧
      forall i q, moduli[i]? = some q -> forall r, r < n ->
        (value c i r : ZMod q) = value a i r + value b i r := by
  rcases first_towers ha hb hpos with
    ⟨x, y, hx, hy, hvalues, hxf, hyf, hmodulus, hlength⟩
  unfold plus
  rw [hx, hy]
  simp only [Option.bind_eq_bind, Option.bind_some]
  rw [if_neg (by simp [hvalues]), if_neg (by simp [hxf, hyf]), if_neg (by simp [hlength]),
    if_neg (by simp [hmodulus])]
  exact zipTowers_spec (fun _ x y => x + y)
    (fun q hq _ _ _ _ hx hy => Poly.plusNoCheck_denotes (hmoduli q hq) hx hy) ha hb

theorem times_spec (hpos : 0 < moduli.length) :
    exists c, times a b = some c ∧ WellFormed n .EVALUATION moduli c ∧
      forall i q, moduli[i]? = some q -> forall r, r < n ->
        (value c i r : ZMod q) = value a i r * value b i r := by
  rcases first_towers ha hb hpos with
    ⟨x, y, hx, hy, hvalues, hxf, hyf, hmodulus, hlength⟩
  unfold times
  rw [hx, hy]
  simp only [Option.bind_eq_bind, Option.bind_some]
  rw [if_neg (by simp [hvalues]), if_neg (by simp [hxf, hyf]), if_neg (by simp [hlength]),
    if_neg (by simp [hmodulus])]
  exact zipTowers_spec (fun _ x y => x * y)
    (fun q hq _ _ _ _ hx hy => Poly.timesNoCheck_denotes (hmoduli q hq) hx hy) ha hb

end Arithmetic

theorem setFormat_wellFormed {cache : Poly.TableCache} {k : Nat} (hk : 0 < k)
    (hk31 : k <= 31) {moduli : List Nat}
    (hready : forall q, q ∈ moduli -> exists psi, Poly.Ready cache k q psi)
    {a : DCRTPoly} {format : Format} (ha : WellFormed (2 ^ k) format moduli a)
    (target : Format) :
    exists r, setFormat cache a target = some r ∧
      WellFormed (2 ^ k) target moduli r := by
  rcases mapM_spec (f := fun t => Poly.setFormat cache t target) (l := a)
    (fun t r => forall q, Poly.WellFormed q (2 ^ k) format t ->
      q ∈ moduli -> Poly.WellFormed q (2 ^ k) target r)
    (by
      intro t ht
      rcases List.mem_iff_getElem?.mp ht with ⟨i, hi⟩
      have hlt : i < moduli.length := by
        rw [← ha.length_eq]
        exact (List.getElem?_eq_some_iff.mp hi).1
      have hq := List.getElem?_eq_getElem hlt
      have ht' := ha.get i _ t hq hi
      rcases hready _ (List.mem_of_getElem? hq) with ⟨psi, hpsi⟩
      rcases Poly.setFormat_wellFormed hk hpsi hk31 ht' target with ⟨r, hr, hwf⟩
      refine ⟨r, hr, fun q hq' _ => ?_⟩
      rw [← hq'.1, ht'.1]
      exact hwf) with ⟨r, hr, hlen, hQ⟩
  refine ⟨r, hr, hlen.trans ha.length_eq, ?_⟩
  intro i q t hq ht
  rcases ha.exists_tower hq with ⟨t', ht', hwf⟩
  exact hQ i t' t ht' ht q hwf (List.mem_of_getElem? hq)

theorem setFormat_roundTrip {cache : Poly.TableCache} {k : Nat} (hk : 0 < k) (hk31 : k <= 31)
    {a : DCRTPoly}
    (ha : forall p, p ∈ a -> exists q psi, Poly.Ready cache k q psi ∧
      Poly.WellFormed q (2 ^ k) .COEFFICIENT p) :
    exists r, setFormat cache a .EVALUATION = some r ∧
      setFormat cache r .COEFFICIENT = some a := by
  induction a with
  | nil => exact ⟨[], rfl, rfl⟩
  | cons p rest ih =>
      rcases ih fun p' hp' => ha p' (List.mem_cons_of_mem _ hp') with ⟨rs, hrs, hback⟩
      rcases ha p List.mem_cons_self with ⟨q, psi, hready, hwf⟩
      rcases Poly.setFormat_roundTrip hk hready hk31 hwf with ⟨r, hr, hrback⟩
      unfold setFormat at hrs hback ⊢
      refine ⟨r :: rs, ?_, ?_⟩
      · rw [List.mapM_cons, hr, hrs]
        rfl
      · rw [List.mapM_cons, hrback, hback]
        rfl

theorem barrettUint128ModUint64_spec (a mu : Nat) {modulus : Nat} (h : 0 < modulus) :
    exists r, barrettUint128ModUint64 a modulus mu = some r ∧ r < modulus := by
  unfold barrettUint128ModUint64
  dsimp only
  rw [if_neg (by omega)]
  exact ⟨_, rfl, Nat.mod_lt _ h⟩

/-- The tables have the sizes that a change of basis from `sizeQ` towers reads. -/
structure SwitchTables.Sized (tables : SwitchTables) (sizeQ : Nat) : Prop where
  qHatInvModq : sizeQ <= tables.qHatInvModq.length
  qHatInvModqPrecon : sizeQ <= tables.qHatInvModqPrecon.length
  qHatModp : sizeQ <= tables.qHatModp.length
  row : forall row, row ∈ tables.qHatModp -> row.length = tables.moduli.length
  modpBarrettMu : tables.modpBarrettMu.length = tables.moduli.length
  pos : forall q, q ∈ tables.moduli -> 0 < q

section ApproxSwitchCRTBasis

variable {tables : SwitchTables} {sizeQ n : Nat} (htables : tables.Sized sizeQ)
  {a : DCRTPoly} {format : Format} {moduli : List Nat}
  (ha : WellFormed n format moduli a) (hsize : sizeQ <= a.length)

include htables ha hsize

theorem switchTerm_exists {ri j i : Nat} (hri : ri < n) (hj : j < tables.moduli.length)
    (hi : i < sizeQ) : exists term, switchTerm tables a ri j i = some term := by
  have hi' : i < moduli.length := by
    rw [← ha.length_eq]
    omega
  rcases ha.exists_tower (List.getElem?_eq_getElem hi') with ⟨t, ht, hwf⟩
  have hvalues : ri < t.values.length := by
    rw [hwf.2.2.1]
    exact hri
  have hinv : i < tables.qHatInvModq.length := lt_of_lt_of_le hi htables.qHatInvModq
  have hprecon : i < tables.qHatInvModqPrecon.length :=
    lt_of_lt_of_le hi htables.qHatInvModqPrecon
  have hhat : i < tables.qHatModp.length := lt_of_lt_of_le hi htables.qHatModp
  have hrow : j < tables.qHatModp[i].length := by
    rw [htables.row _ (List.getElem_mem hhat)]
    exact hj
  unfold switchTerm
  rw [ht, List.getElem?_eq_getElem hinv, List.getElem?_eq_getElem hprecon,
    List.getElem?_eq_getElem hhat]
  simp only [Option.bind_eq_bind, Option.bind_some]
  rw [List.getElem?_eq_getElem hvalues, List.getElem?_eq_getElem hrow]
  exact ⟨_, rfl⟩

theorem switchSum_exists {ri j : Nat} (hri : ri < n) (hj : j < tables.moduli.length) :
    exists sum, switchSum tables a sizeQ ri j = some sum := by
  rcases foldlM_range_spec (n := sizeQ) (s := 0)
    (f := fun sum i =>
      (switchTerm tables a ri j i).map fun term => doubleWord (sum + term))
    (fun _ _ => True) trivial
    (by
      intro i hi sum _
      rcases switchTerm_exists htables ha hsize hri hj hi with ⟨term, hterm⟩
      exact ⟨doubleWord (sum + term), by rw [hterm]; rfl, trivial⟩) with
    ⟨sum, hsum, _⟩
  exact ⟨sum, hsum⟩

theorem switchTower_wellFormed (target : Format) {j : Nat}
    (hj : j < tables.moduli.length) :
    exists t, switchTower tables a n sizeQ target j = some t ∧
      t.WellFormed tables.moduli[j] n target := by
  have hmu : j < tables.modpBarrettMu.length := by
    rw [htables.modpBarrettMu]
    exact hj
  have hpos := htables.pos _ (List.getElem_mem hj)
  rcases mapM_range_spec (n := n) (f := fun ri =>
      (switchSum tables a sizeQ ri j).bind fun sum =>
        barrettUint128ModUint64 sum tables.moduli[j] tables.modpBarrettMu[j])
    (fun _ x => x < tables.moduli[j])
    (by
      intro ri hri
      rcases switchSum_exists htables ha hsize hri hj with ⟨sum, hsum⟩
      rw [hsum]
      exact barrettUint128ModUint64_spec sum tables.modpBarrettMu[j] hpos) with
    ⟨values, hvalues, hlen, hlt⟩
  refine ⟨{ modulus := tables.moduli[j], format := target, values := values }, ?_,
    rfl, rfl, hlen, ?_⟩
  · unfold switchTower
    rw [List.getElem?_eq_getElem hj, List.getElem?_eq_getElem hmu]
    simp only [Option.bind_eq_bind, Option.bind_some]
    rw [hvalues]
    rfl
  · intro x hx
    rcases List.mem_iff_getElem?.mp hx with ⟨i, hi⟩
    exact hlt i x hi

theorem approxSwitchCRTBasis_wellFormed {sizeParamsQ : Nat}
    (hmin : (if a.length > sizeParamsQ then sizeParamsQ else a.length) = sizeQ)
    (target : Format) :
    exists r, approxSwitchCRTBasis tables n sizeParamsQ target a = some r ∧
      WellFormed n target tables.moduli r := by
  unfold approxSwitchCRTBasis
  rw [hmin]
  dsimp only
  rcases mapM_range_spec (n := tables.moduli.length)
    (fun j (t : Poly) => forall q, tables.moduli[j]? = some q -> t.WellFormed q n target)
    (by
      intro j hj
      rcases switchTower_wellFormed htables ha hsize target hj with ⟨t, ht, hwf⟩
      refine ⟨t, ht, ?_⟩
      intro q hq
      rw [List.getElem?_eq_getElem hj] at hq
      cases hq
      exact hwf) with ⟨r, hr, hlen, hQ⟩
  exact ⟨r, hr, hlen, fun i q t hq ht => hQ i t ht q hq⟩

end ApproxSwitchCRTBasis

end DCRTPoly

end Hal
end OpenFHE
