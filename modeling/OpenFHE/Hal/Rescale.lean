import OpenFHE.Core.CenteredReduction
import OpenFHE.Core.NativeInteger.ModInverse
import OpenFHE.Hal.ScalarOperations

/-!
# Division by the last modulus

`DropLastElementAndScale` divides by the last modulus up to the centered residue of the
last tower, `ModReduce` up to a multiple of the plaintext modulus.
-/

namespace OpenFHE
namespace Hal
namespace DCRTPoly

open OpenFHE.Core OpenFHE.Core.NativeInteger Foundation

/-! ## Operations -/

/-- The last tower is never dropped. -/
def dropLastElement (a : DCRTPoly) : Option DCRTPoly :=
  if a.length = 0 then none
  else if a.length = 1 then none
  else some a.dropLast

/-- `QlQlInvModqlDivqlModq` of the parameters, for the last modulus `ql`. -/
def qlQlInvModqlDivqlModq (moduli : List Nat) (ql : Nat) : Option (List Nat) := do
  let modulusQ := moduli.prod
  let qlInvModql <- BigInteger.modInverse modulusQ ql
  let result := qlInvModql * modulusQ / ql
  return moduli.map (result % ·)

def qlInvModq (moduli : List Nat) (ql : Nat) : Option (List Nat) :=
  moduli.mapM fun q => modInverse ql q

/-- The negative inverse of the plaintext modulus. -/
def negtInvModq (t ql : Nat) : Option Nat :=
  (modInverse t ql).map (ql - ·)

/-- A polynomial with coefficients is switched where the towers are evaluations. -/
def followFormat (cache : Poly.TableCache) (format : Format) (tmp : Poly) : Option Poly :=
  if format = .EVALUATION then Poly.switchFormat cache tmp else some tmp

/-- The loop body of `DropLastElementAndScale`; the format is the one of the polynomial. -/
def dividedTower (cache : Poly.TableCache) (qlQlInv qlInv : List Nat) (format : Format)
    (lastPoly : Poly) (i : Nat) (v : Poly) : Option Poly := do
  let const <- qlQlInv[i]?
  let inverse <- qlInv[i]?
  let tmp <- (Poly.switchModulus lastPoly v.modulus).timesInteger const
  let tmp <- followFormat cache format tmp
  let v <- v.timesInteger inverse
  let v <- Poly.plusEq v tmp
  if format = .COEFFICIENT then Poly.switchFormat cache v else some v

def dropLastElementAndScale (cache : Poly.TableCache) (qlQlInv qlInv : List Nat)
    (format : Format) (a : DCRTPoly) : Option DCRTPoly := do
  let lastPoly <- a.getLast?
  let lastPoly <- Poly.setFormat cache lastPoly .COEFFICIENT
  let kept <- dropLastElement a
  mapTowers (dividedTower cache qlQlInv qlInv format lastPoly) kept

def reduceTower (cache : Poly.TableCache) (t : Nat) (qlInv : List Nat) (format : Format)
    (delta : Poly) (i : Nat) (v : Poly) : Option Poly := do
  let inverse <- qlInv[i]?
  let tmp := Poly.switchModulus delta v.modulus
  let tmp <- followFormat cache format tmp
  let tmp <- tmp.timesInteger t
  let v <- Poly.plusEq v tmp
  v.timesInteger inverse

def modReduce (cache : Poly.TableCache) (t negtInv : Nat) (qlInv : List Nat)
    (format : Format) (a : DCRTPoly) : Option DCRTPoly := do
  let delta <- a.getLast?
  let delta <- Poly.setFormat cache delta .COEFFICIENT
  let delta <- delta.timesInteger negtInv
  let kept <- dropLastElement a
  mapTowers (reduceTower cache t qlInv format delta) kept

/-! ## One tower -/

section Tower

variable {k : Nat} {psi : Nat -> Nat} {q : Nat} {format : Format} {x y : Nat -> Int} {i : Nat}

/-- A tower of the integers `x`. -/
def TowerEncodes (k : Nat) (psi : Nat -> Nat) (q : Nat) (format : Format) (x : Nat -> Int)
    (t : Poly) : Prop :=
  Poly.Denotes q (2 ^ k) format (inFormat k psi format (integerResidues x) 0 q) t

theorem TowerEncodes.congr {t : Poly} (h : TowerEncodes k psi q format x t)
    (hxy : forall j, j < 2 ^ k -> (x j : ZMod q) = y j) : TowerEncodes k psi q format y t := by
  apply Poly.Denotes.congr h
  intro r hr
  cases format with
  | COEFFICIENT => exact hxy r hr
  | EVALUATION => exact stageArray_congr (fun c hc => hxy c hc) _ r

theorem Encodes.tower {moduli : List Nat} {a : DCRTPoly} (h : Encodes k psi format moduli x a)
    (hq : moduli[i]? = some q) : exists t, a[i]? = some t ∧ TowerEncodes k psi q format x t := by
  rcases Denotes.tower h hq with ⟨t, ht, hdenotes⟩
  refine ⟨t, ht, ?_⟩
  cases format with
  | COEFFICIENT => exact hdenotes
  | EVALUATION => exact hdenotes

theorem inFormat_add_mul (format : Format) (x y : Nat -> Int) (c : Int) (i q r : Nat) :
    inFormat k psi format (integerResidues fun j => x j + c * y j) i q r =
      inFormat k psi format (integerResidues x) i q r +
        c * inFormat k psi format (integerResidues y) i q r := by
  cases format with
  | COEFFICIENT =>
      change ((x r + c * y r : Int) : ZMod q) = (x r : ZMod q) + c * (y r : ZMod q)
      rw [Int.cast_add, Int.cast_mul]
  | EVALUATION =>
      rw [inFormat, inFormat, inFormat, transform, transform, transform, stageArray_last,
        stageArray_last, stageArray_last, Finset.mul_sum, ← Finset.sum_add_distrib]
      apply Finset.sum_congr rfl
      intro j _
      rw [integerResidues, integerResidues, integerResidues, Int.cast_add, Int.cast_mul]
      ring

theorem plusEq_tower (hq : Poly.NttModulus q) {t u : Poly} (ht : TowerEncodes k psi q format x t)
    (hu : TowerEncodes k psi q format y u) :
    exists v, t.plusEq u = some v ∧ TowerEncodes k psi q format (fun j => x j + y j) v := by
  rcases Poly.plusEq_denotes hq ht hu with ⟨v, hv, hdenotes⟩
  refine ⟨v, hv, hdenotes.congr ?_⟩
  intro r _
  have hlinear : inFormat k psi format (integerResidues fun j => x j + 1 * y j) 0 q r = _ :=
    inFormat_add_mul format x y 1 0 q r
  simp only [one_mul, Int.cast_one] at hlinear
  exact hlinear.symm

variable {cache : Poly.TableCache} (hk : 0 < k) (hk31 : k <= 31)
  (hq : Poly.Ready cache k q (psi q))

include hk hq

theorem switchFormat_tower {t : Poly} (ht : TowerEncodes k psi q .COEFFICIENT x t) :
    exists u, Poly.switchFormat cache t = some u ∧ TowerEncodes k psi q .EVALUATION x u :=
  Poly.switchFormat_evaluation hk hq ht

theorem followFormat_tower (format : Format) {t : Poly} (ht : TowerEncodes k psi q .COEFFICIENT x t) :
    exists u, followFormat cache format t = some u ∧ TowerEncodes k psi q format x u := by
  cases format with
  | COEFFICIENT => exact ⟨t, rfl, ht⟩
  | EVALUATION => exact switchFormat_tower hk hq ht

include hk31 in
theorem setFormat_tower {t : Poly} (ht : TowerEncodes k psi q format x t) :
    exists u, Poly.setFormat cache t .COEFFICIENT = some u ∧
      TowerEncodes k psi q .COEFFICIENT x u := by
  cases format with
  | COEFFICIENT =>
      refine ⟨t, ?_, ht⟩
      rw [Poly.setFormat, if_pos ht.format_eq]
  | EVALUATION =>
      rcases Poly.switchFormat_coefficient hk hq hk31 ht with ⟨u, hu, hdenotes⟩
      refine ⟨u, ?_, hdenotes⟩
      rw [Poly.setFormat, if_neg (by rw [ht.format_eq]; decide), hu]

end Tower

def centeredRemainder (q : Nat) (x : Int) : Int := NativeVector.centered q (x % (q : Int)).toNat

section Remainder

variable {q : Nat} (hq : 0 < q)

include hq

theorem centeredRemainder_eq (x : Int) :
    haveI : NeZero q := ⟨hq.ne'⟩
    centeredRemainder q x = (x : ZMod q).valMinAbs := by
  have : NeZero q := ⟨hq.ne'⟩
  have hlt := Int.emod_lt_of_pos x (by omega : (0 : Int) < q)
  have hnonneg := Int.emod_nonneg x (by omega : (q : Int) ≠ 0)
  rw [centeredRemainder, NativeVector.centered_eq_valMinAbs (by omega)]
  congr 1
  rw [← Int.cast_natCast, Int.toNat_of_nonneg hnonneg, ZMod.intCast_mod]

theorem two_mul_abs_centeredRemainder_le (x : Int) : 2 * |centeredRemainder q x| <= q := by
  have : NeZero q := ⟨hq.ne'⟩
  have hle := ZMod.natAbs_valMinAbs_le (x : ZMod q)
  rw [centeredRemainder_eq hq, Int.abs_eq_natAbs]
  omega

theorem dvd_sub_centeredRemainder (x : Int) : (q : Int) ∣ x - centeredRemainder q x := by
  have : NeZero q := ⟨hq.ne'⟩
  apply (ZMod.intCast_zmod_eq_zero_iff_dvd _ q).mp
  rw [centeredRemainder_eq hq, Int.cast_sub, ZMod.coe_valMinAbs, sub_self]

end Remainder

theorem switchModulus_tower {k : Nat} {psi : Nat -> Nat} {q ql : Nat} (hq : Poly.NttModulus q)
    (hql : Poly.NttModulus ql) {x : Nat -> Int} {t : Poly}
    (ht : TowerEncodes k psi ql .COEFFICIENT x t) :
    TowerEncodes k psi q .COEFFICIENT (fun j => centeredRemainder ql (x j))
      (Poly.switchModulus t q) := by
  have hpos : 0 < ql := by have := hql.one_lt; omega
  have hholds := NativeVector.switchModulus_spec (lt_trans hql.lt (by decide)) hq.lt
    (by have := hq.one_lt; omega) ht.wellFormed.2.2
  refine ⟨rfl, ht.format_eq, ?_⟩
  rw [Poly.switchModulus, ht.modulus_eq]
  apply hholds.congr
  intro r hr
  have hvalue : (t.value r : Int) = x r % ql := by
    have hlt : t.value r < ql := ht.wellFormed.value_lt hr
    have hcast : ((t.value r : Int) : ZMod ql) = (x r : ZMod ql) := by
      rw [Int.cast_natCast, ht.value_eq hr]
      rfl
    have hmod := (ZMod.intCast_eq_intCast_iff' _ _ ql).mp hcast
    rwa [Int.emod_eq_of_lt (by omega) (by omega)] at hmod
  change ((NativeVector.centered ql (t.value r) : Int) : ZMod q) =
    ((centeredRemainder ql (x r) : Int) : ZMod q)
  rw [centeredRemainder, ← hvalue, Int.toNat_natCast]

/-! ## The constants -/

theorem modInverses_spec {moduli : List Nat} {c : Nat}
    (hmoduli : forall q, q ∈ moduli -> Poly.NttModulus q)
    (hcoprime : forall q, q ∈ moduli -> Nat.Coprime c q) :
    exists inverses, (moduli.mapM fun q => modInverse c q) = some inverses ∧
      inverses.length = moduli.length ∧ forall (i q : Nat), moduli[i]? = some q ->
        exists w, inverses[i]? = some w ∧ w < q ∧ (c : ZMod q) * w = 1 := by
  rcases mapM_spec (l := moduli) (f := fun q => modInverse c q)
    (fun q w => w < q ∧ c * w % q = 1) (by
      intro q hq
      exact modInverse_spec (hmoduli q hq).one_lt (lt_trans (hmoduli q hq).lt (by decide))
        (hcoprime q hq)) with ⟨inverses, hinverses, hlength, hget⟩
  refine ⟨inverses, hinverses, hlength, ?_⟩
  intro i q hq
  have hi : i < inverses.length := by
    rw [hlength]
    exact (List.getElem?_eq_some_iff.mp hq).1
  have hw := List.getElem?_eq_getElem hi
  rcases hget i q _ hq hw with ⟨hlt, hmul⟩
  refine ⟨_, hw, hlt, ?_⟩
  have hone := (hmoduli q (List.mem_of_getElem? hq)).one_lt
  have hcast := (ZMod.natCast_eq_natCast_iff' (c * inverses[i]) 1 q).mpr (by
    rw [hmul, Nat.mod_eq_of_lt hone])
  exact_mod_cast hcast

section Constants

variable {moduli : List Nat} {ql : Nat} (hone : 1 < ql)
  (hcoprime : forall q, q ∈ moduli -> Nat.Coprime q ql)

include hone hcoprime

theorem qlQlInvModqlDivqlModq_spec :
    exists consts, qlQlInvModqlDivqlModq moduli ql = some consts ∧
      forall (i q : Nat), moduli[i]? = some q -> exists c, consts[i]? = some c ∧
        (ql : ZMod q) * c = -1 := by
  have hgcd : Nat.gcd moduli.prod ql = 1 := Nat.coprime_list_prod_left_iff.mpr hcoprime
  rcases BigInteger.modInverse_spec hone hgcd with ⟨inv, hinv, _, hmul⟩
  refine ⟨moduli.map (inv * moduli.prod / ql % ·), ?_, ?_⟩
  · unfold qlQlInvModqlDivqlModq
    dsimp only
    rw [hinv]
    rfl
  · intro i q hq
    refine ⟨inv * moduli.prod / ql % q, by rw [List.getElem?_map, hq]; rfl, ?_⟩
    have hdiv : inv * moduli.prod = ql * (inv * moduli.prod / ql) + 1 := by
      have hsplit := Nat.div_add_mod (inv * moduli.prod) ql
      rw [Nat.mul_comm inv, hmul] at hsplit
      rw [Nat.mul_comm inv]
      exact hsplit.symm
    have hzero : ((inv * moduli.prod : Nat) : ZMod q) = 0 := by
      rw [ZMod.natCast_eq_zero_iff]
      exact (List.dvd_prod (List.mem_of_getElem? hq)).mul_left _
    rw [hdiv, Nat.cast_add, Nat.cast_mul, Nat.cast_one] at hzero
    rw [ZMod.natCast_mod]
    exact eq_neg_of_add_eq_zero_left hzero

omit hone in
theorem qlInvModq_spec (hmoduli : forall q, q ∈ moduli -> Poly.NttModulus q) :
    exists inverses, qlInvModq moduli ql = some inverses ∧
      forall (i q : Nat), moduli[i]? = some q -> exists c, inverses[i]? = some c ∧
        (ql : ZMod q) * c = 1 := by
  rcases modInverses_spec hmoduli (fun q hq => (hcoprime q hq).symm) with
    ⟨inverses, hinverses, _, hget⟩
  refine ⟨inverses, hinverses, ?_⟩
  intro i q hq
  rcases hget i q hq with ⟨w, hw, _, hmul⟩
  exact ⟨w, hw, hmul⟩

omit hcoprime in
theorem negtInvModq_spec {t : Nat} (hql : ql < 2 ^ 62) (ht : Nat.gcd t ql = 1) :
    exists c, negtInvModq t ql = some c ∧ (t : ZMod ql) * c = -1 := by
  rcases modInverse_spec hone (by omega) ht with ⟨w, hw, hlt, hmul⟩
  refine ⟨ql - w, ?_, ?_⟩
  · rw [negtInvModq, hw]
    rfl
  · have hcast := (ZMod.natCast_eq_natCast_iff' (t * w) 1 ql).mpr (by
      rw [hmul, Nat.mod_eq_of_lt hone])
    rw [Nat.cast_mul, Nat.cast_one] at hcast
    rw [Nat.cast_sub hlt.le, ZMod.natCast_self, zero_sub, mul_neg, hcast]

end Constants

/-! ## The loop bodies -/

section Body

variable {cache : Poly.TableCache} {k : Nat} {psi : Nat -> Nat} {q ql : Nat} {format : Format}
  (hk : 0 < k) (hq : Poly.Ready cache k q (psi q)) (hql : Poly.NttModulus ql)
  {x z y : Nat -> Int} {last v : Poly} {i inverse : Nat}
  (hlast : TowerEncodes k psi ql .COEFFICIENT z last) (hv : TowerEncodes k psi q format x v)
  (hinv : (ql : ZMod q) * inverse = 1)

include hk hq hql hlast hv hinv

theorem dividedTower_encodes {qlQlInv qlInv : List Nat} {const : Nat}
    (hconst : qlQlInv[i]? = some const) (hinverse : qlInv[i]? = some inverse)
    (hneg : (ql : ZMod q) * const = -1)
    (hy : forall j, x j - centeredRemainder ql (z j) = ql * y j) :
    exists w, dividedTower cache qlQlInv qlInv format last i v = some w ∧
      TowerEncodes k psi q .EVALUATION y w := by
  have hmodulus := hq.modulus
  have hlift := switchModulus_tower (q := q) hmodulus hql hlast
  rcases timesInteger_tower hmodulus hlift (rfl : (const : ZMod q) = const) with
    ⟨tmp, htmp, htmpdenotes⟩
  rcases followFormat_tower hk hq format htmpdenotes with ⟨tmp', htmp', htmp'denotes⟩
  rcases timesInteger_tower hmodulus hv (rfl : (inverse : ZMod q) = inverse) with
    ⟨v', hv', hv'denotes⟩
  rcases plusEq_tower hmodulus hv'denotes htmp'denotes with ⟨w, hw, hwdenotes⟩
  have hquotient : TowerEncodes k psi q format y w := by
    apply hwdenotes.congr
    intro j _
    have hcast := congrArg (Int.cast (R := ZMod q)) (hy j)
    simp only [Int.cast_sub, Int.cast_mul, Int.cast_natCast] at hcast
    simp only [Int.cast_add, Int.cast_mul, Int.cast_natCast]
    linear_combination (inverse : ZMod q) * hcast + ((y j : ZMod q) -
      (centeredRemainder ql (z j) : ZMod q) * const) * hinv +
      (centeredRemainder ql (z j) : ZMod q) * inverse * hneg
  have hlastly : exists u, (if format = .COEFFICIENT then Poly.switchFormat cache w else some w) =
      some u ∧ TowerEncodes k psi q .EVALUATION y u := by
    cases format with
    | COEFFICIENT => exact switchFormat_tower hk hq hquotient
    | EVALUATION => exact ⟨w, rfl, hquotient⟩
  rcases hlastly with ⟨u, hu, hudenotes⟩
  refine ⟨u, ?_, hudenotes⟩
  unfold dividedTower
  rw [hv.modulus_eq, hconst, hinverse]
  simp only [Option.bind_eq_bind, Option.bind_some]
  rw [htmp, Option.bind_some, htmp', Option.bind_some, hv', Option.bind_some, hw,
    Option.bind_some, hu]

theorem reduceTower_encodes {qlInv : List Nat} {t : Nat} (hinverse : qlInv[i]? = some inverse)
    (hy : forall j, x j + t * centeredRemainder ql (z j) = ql * y j) :
    exists w, reduceTower cache t qlInv format last i v = some w ∧
      TowerEncodes k psi q format y w := by
  have hmodulus := hq.modulus
  have hlift := switchModulus_tower (q := q) hmodulus hql hlast
  rcases followFormat_tower hk hq format hlift with ⟨tmp, htmp, htmpdenotes⟩
  rcases timesInteger_tower hmodulus htmpdenotes (rfl : (t : ZMod q) = t) with
    ⟨tmp', htmp', htmp'denotes⟩
  rcases plusEq_tower hmodulus hv htmp'denotes with ⟨w, hw, hwdenotes⟩
  rcases timesInteger_tower hmodulus hwdenotes (rfl : (inverse : ZMod q) = inverse) with
    ⟨u, hu, hudenotes⟩
  refine ⟨u, ?_, ?_⟩
  · unfold reduceTower
    rw [hv.modulus_eq, hinverse]
    simp only [Option.bind_eq_bind, Option.bind_some]
    rw [htmp, Option.bind_some, htmp', Option.bind_some, hw, Option.bind_some, hu]
  · apply TowerEncodes.congr hudenotes
    intro j _
    have hcast := congrArg (Int.cast (R := ZMod q)) (hy j)
    simp only [Int.cast_add, Int.cast_mul, Int.cast_natCast] at hcast
    simp only [Int.cast_add, Int.cast_mul, Int.cast_natCast]
    linear_combination (inverse : ZMod q) * hcast + (y j : ZMod q) * hinv

end Body

/-! ## All towers -/

section Chain

variable {cache : Poly.TableCache} {k : Nat} {psi : Nat -> Nat} {moduli : List Nat} {ql : Nat}
  {format : Format} (hk : 0 < k) (hk31 : k <= 31)
  (hready : ReadyChain cache k psi (moduli ++ [ql])) (hne : moduli ≠ [])
  {x : Nat -> Int} {a : DCRTPoly} (ha : Encodes k psi format (moduli ++ [ql]) x a)

theorem mapTowers_encodes (op : Nat -> Poly -> Option Poly) {source target : Format}
    {y : Nat -> Int} {b : DCRTPoly} (hb : Encodes k psi source moduli x b)
    (hop : forall i q t, moduli[i]? = some q -> TowerEncodes k psi q source x t ->
      exists u, op i t = some u ∧ TowerEncodes k psi q target y u) :
    exists r, mapTowers op b = some r ∧ Encodes k psi target moduli y r := by
  apply mapTowers_denotes op hb
  intro i q t hq ht
  have hsource : TowerEncodes k psi q source x t := by
    cases source with
    | COEFFICIENT => exact ht
    | EVALUATION => exact ht
  rcases hop i q t hq hsource with ⟨u, hu, hdenotes⟩
  refine ⟨u, hu, ?_⟩
  cases target with
  | COEFFICIENT => exact hdenotes
  | EVALUATION => exact hdenotes

include hne ha

theorem dropLast_encodes :
    exists b, dropLastElement a = some b ∧ Encodes k psi format moduli x b := by
  have hlength := ha.wellFormed.length_eq
  rw [List.length_append, List.length_singleton] at hlength
  have hpos := List.length_pos_iff.mpr hne
  refine ⟨a.dropLast, ?_, denotes_of_towers (by rw [List.length_dropLast]; omega) ?_⟩
  · rw [dropLastElement, if_neg (by omega), if_neg (by omega)]
  · intro i q t hq ht
    have hi := (List.getElem?_eq_some_iff.mp hq).1
    rw [List.dropLast_eq_take, List.getElem?_take_of_lt (by omega)] at ht
    have hq' : (moduli ++ [ql])[i]? = some q := by
      rw [List.getElem?_append_left hi, hq]
    exact Denotes.tower_denotes ha hq' ht

omit hne in
include hk hk31 hready in
theorem last_tower :
    exists t u, a.getLast? = some t ∧ Poly.setFormat cache t .COEFFICIENT = some u ∧
      TowerEncodes k psi ql .COEFFICIENT x u := by
  have hlength := ha.wellFormed.length_eq
  rw [List.length_append, List.length_singleton] at hlength
  have hq : (moduli ++ [ql])[moduli.length]? = some ql := List.getElem?_concat_length
  rcases Encodes.tower ha hq with ⟨t, ht, hencodes⟩
  have hql := hready ql (List.mem_append_right _ (List.mem_singleton_self ql))
  rcases setFormat_tower hk hk31 hql hencodes with ⟨u, hu, hudenotes⟩
  refine ⟨t, u, ?_, hu, hudenotes⟩
  rw [List.getLast?_eq_getElem?, hlength, Nat.add_sub_cancel, ht]

include hk hk31 hready

variable (hcoprime : forall q, q ∈ moduli -> Nat.Coprime q ql)

include hcoprime

theorem dropLastElementAndScale_encodes :
    exists consts inverses r, exists y : Nat -> Int, qlQlInvModqlDivqlModq moduli ql = some consts ∧
      qlInvModq moduli ql = some inverses ∧
      dropLastElementAndScale cache consts inverses format a = some r ∧
      (forall j, (ql : Int) * y j = x j - centeredRemainder ql (x j)) ∧
      Encodes k psi .EVALUATION moduli y r := by
  have hql := hready ql (List.mem_append_right _ (List.mem_singleton_self ql))
  have hpos : 0 < ql := by have := hql.modulus.one_lt; omega
  have hmoduli : ReadyChain cache k psi moduli :=
    fun q hq => hready q (List.mem_append_left _ hq)
  rcases qlQlInvModqlDivqlModq_spec hql.modulus.one_lt hcoprime with
    ⟨consts, hconsts, hconst⟩
  rcases qlInvModq_spec hcoprime fun q hq => (hmoduli q hq).modulus with
    ⟨inverses, hinverses, hinverse⟩
  rcases last_tower hk hk31 hready ha with ⟨t, u, ht, hu, hudenotes⟩
  rcases dropLast_encodes hne ha with ⟨b, hb, hbencodes⟩
  have hdvd := fun j => dvd_sub_centeredRemainder hpos (x j)
  choose y hy using hdvd
  rcases mapTowers_encodes (dividedTower cache consts inverses format u) hbencodes (by
    intro i q v hq hv
    rcases hconst i q hq with ⟨c, hc, hcmul⟩
    rcases hinverse i q hq with ⟨d, hd, hdmul⟩
    exact dividedTower_encodes hk (hmoduli q (List.mem_of_getElem? hq)) hql.modulus hudenotes hv
      hdmul hc hd hcmul hy) with ⟨r, hr, hrencodes⟩
  refine ⟨consts, inverses, r, y, hconsts, hinverses, ?_, fun j => (hy j).symm, hrencodes⟩
  unfold dropLastElementAndScale
  simp only [ht, hu, hb, Option.bind_eq_bind, Option.bind_some]
  exact hr

theorem modReduce_encodes {t : Nat} (ht : Nat.gcd t ql = 1) :
    exists negtInv inverses r, exists y delta : Nat -> Int, negtInvModq t ql = some negtInv ∧
      qlInvModq moduli ql = some inverses ∧
      modReduce cache t negtInv inverses format a = some r ∧
      (forall j, (ql : Int) * y j = x j + t * delta j ∧ 2 * |delta j| <= ql) ∧
      Encodes k psi format moduli y r := by
  have hql := hready ql (List.mem_append_right _ (List.mem_singleton_self ql))
  have hpos : 0 < ql := by have := hql.modulus.one_lt; omega
  have hmoduli : ReadyChain cache k psi moduli :=
    fun q hq => hready q (List.mem_append_left _ hq)
  rcases negtInvModq_spec hql.modulus.one_lt (lt_trans hql.modulus.lt (by decide)) ht with
    ⟨negtInv, hnegtInv, hneg⟩
  rcases qlInvModq_spec hcoprime fun q hq => (hmoduli q hq).modulus with
    ⟨inverses, hinverses, hinverse⟩
  rcases last_tower hk hk31 hready ha with ⟨last, u, hlast, hu, hudenotes⟩
  rcases timesInteger_tower hql.modulus hudenotes (rfl : (negtInv : ZMod ql) = negtInv) with
    ⟨d, hd, hddenotes⟩
  rcases dropLast_encodes hne ha with ⟨b, hb, hbencodes⟩
  have hdvd : forall j, (ql : Int) ∣ x j + t * centeredRemainder ql (x j * negtInv) := by
    intro j
    have hremainder := (ZMod.intCast_zmod_eq_zero_iff_dvd _ ql).mpr
      (dvd_sub_centeredRemainder hpos (x j * negtInv))
    apply (ZMod.intCast_zmod_eq_zero_iff_dvd _ ql).mp
    simp only [Int.cast_sub, Int.cast_mul, Int.cast_natCast] at hremainder
    simp only [Int.cast_add, Int.cast_mul, Int.cast_natCast]
    linear_combination (x j : ZMod ql) * hneg - (t : ZMod ql) * hremainder
  choose y hy using hdvd
  rcases mapTowers_encodes (reduceTower cache t inverses format d) hbencodes (by
    intro i q v hq hv
    rcases hinverse i q hq with ⟨c, hc, hcmul⟩
    exact reduceTower_encodes hk (hmoduli q (List.mem_of_getElem? hq)) hql.modulus hddenotes hv
      hcmul hc hy) with ⟨r, hr, hrencodes⟩
  refine ⟨negtInv, inverses, r, y, fun j => centeredRemainder ql (x j * negtInv), hnegtInv,
    hinverses, ?_, fun j => ⟨(hy j).symm, two_mul_abs_centeredRemainder_le hpos _⟩, hrencodes⟩
  unfold modReduce
  simp only [hlast, hu, hd, hb, Option.bind_eq_bind, Option.bind_some]
  exact hr

end Chain

/-! ## Several divisions -/

/-- `y` is the quotient of `x` by `P`, up to a multiple of `t` that is less than `P`. -/
def DividedBy (t P : Nat) (x y : Nat -> Int) : Prop :=
  forall j, exists delta : Int, (P : Int) * y j = x j + t * delta ∧ |delta| < P

theorem DividedBy.refl (t : Nat) (x : Nat -> Int) : DividedBy t 1 x x := by
  intro j
  refine ⟨0, ?_, ?_⟩
  · rw [Nat.cast_one, one_mul, mul_zero, add_zero]
  · rw [abs_zero]
    exact Int.one_pos

theorem DividedBy.step {t P q : Nat} {x y z : Nat -> Int} (h : DividedBy t P x y) (hq : 2 <= q)
    (hz : forall j, exists delta : Int, (q : Int) * z j = y j + t * delta ∧ 2 * |delta| <= q) :
    DividedBy t (q * P) x z := by
  intro j
  rcases h j with ⟨d, hd, hdlt⟩
  rcases hz j with ⟨e, he, hele⟩
  refine ⟨d + P * e, ?_, ?_⟩
  · rw [Nat.cast_mul]
    linear_combination hd + (P : Int) * he
  · have hP : (0 : Int) < P := lt_of_le_of_lt (abs_nonneg d) hdlt
    have hq' : (2 : Int) <= q := by exact_mod_cast hq
    have hmul : (P : Int) * (2 * |e|) <= P * q := mul_le_mul_of_nonneg_left hele hP.le
    have htwo : (P : Int) * 2 <= P * q := mul_le_mul_of_nonneg_left hq' hP.le
    have habs : |d + P * e| <= |d| + P * |e| := by
      calc
        |d + P * e| <= |d| + |P * e| := abs_add_le _ _
        _ = |d| + P * |e| := by rw [abs_mul, abs_of_pos hP]
    rw [Nat.cast_mul]
    linarith

/-!
## Both operations in both formats
-/

/-- The towers that are left encode the quotients in the format of the input. -/
structure Rescales (cache : Poly.TableCache) (k : Nat) (psi : Nat -> Nat)
    (moduli : List Nat) (ql : Nat) (format : Format) (x : Nat -> Int) (a : DCRTPoly) : Prop where
  dropLastElementAndScale : exists consts inverses r, exists y : Nat -> Int,
    qlQlInvModqlDivqlModq moduli ql = some consts ∧ qlInvModq moduli ql = some inverses ∧
    dropLastElementAndScale cache consts inverses format a = some r ∧
    (forall j, (ql : Int) * y j = x j - centeredRemainder ql (x j)) ∧
    Encodes k psi format moduli y r
  modReduce : forall t, Nat.gcd t ql = 1 ->
    exists negtInv inverses r, exists y delta : Nat -> Int,
    negtInvModq t ql = some negtInv ∧ qlInvModq moduli ql = some inverses ∧
    modReduce cache t negtInv inverses format a = some r ∧
    (forall j, (ql : Int) * y j = x j + t * delta j ∧ 2 * |delta j| <= ql) ∧
    (forall j, (ql : Int) * y j ≡ x j [ZMOD t]) ∧
    Encodes k psi format moduli y r

theorem Encodes.format_unique {k : Nat} {psi : Nat -> Nat} {moduli : List Nat}
    {format format' : Format} {x y : Nat -> Int} {a : DCRTPoly} (hne : moduli ≠ [])
    (h : Encodes k psi format moduli x a) (h' : Encodes k psi format' moduli y a) :
    format = format' := by
  have hq := List.getElem?_eq_getElem (List.length_pos_iff.mpr hne)
  rcases h.tower hq with ⟨t, ht, hdenotes⟩
  rcases h'.tower hq with ⟨t', ht', hdenotes'⟩
  cases ht.symm.trans ht'
  exact hdenotes.format_eq.symm.trans hdenotes'.format_eq

/-- Rescaling is right in the evaluation format and loses the coefficient format. -/
theorem rescales_iff {cache : Poly.TableCache} {k : Nat} {psi : Nat -> Nat}
    {moduli : List Nat} {ql : Nat} {format : Format} (hk : 0 < k) (hk31 : k <= 31)
    (hready : ReadyChain cache k psi (moduli ++ [ql])) (hne : moduli ≠ [])
    (hcoprime : (moduli ++ [ql]).Pairwise Nat.Coprime) {x : Nat -> Int} {a : DCRTPoly}
    (ha : Encodes k psi format (moduli ++ [ql]) x a) :
    Rescales cache k psi moduli ql format x a <-> format = .EVALUATION := by
  have hlast : forall q, q ∈ moduli -> Nat.Coprime q ql := fun q hq =>
    (List.pairwise_append.mp hcoprime).2.2 q hq ql (List.mem_singleton_self ql)
  rcases dropLastElementAndScale_encodes hk hk31 hready hne ha hlast with
    ⟨consts, inverses, r, y, hconsts, hinverses, hr, hy, hencodes⟩
  constructor
  · intro h
    rcases h.dropLastElementAndScale with
      ⟨consts', inverses', r', y', hconsts', hinverses', hr', _, hencodes'⟩
    cases hconsts.symm.trans hconsts'
    cases hinverses.symm.trans hinverses'
    cases hr.symm.trans hr'
    exact hencodes'.format_unique hne hencodes
  · intro hformat
    cases hformat
    constructor
    · exact ⟨consts, inverses, r, y, hconsts, hinverses, hr, hy, hencodes⟩
    · intro t ht
      rcases modReduce_encodes hk hk31 hready hne ha hlast ht with
        ⟨negtInv, inverses, r, y, delta, hnegtInv, hinverses, hr, hy, hencodes⟩
      refine ⟨negtInv, inverses, r, y, delta, hnegtInv, hinverses, hr, hy, ?_, hencodes⟩
      intro j
      rw [(hy j).1]
      exact Int.modEq_iff_dvd.mpr ⟨-delta j, by ring⟩

theorem zero_encodes {k : Nat} {psi : Nat -> Nat} {moduli : List Nat}
    (hpos : forall q, q ∈ moduli -> 0 < q) (format : Format) :
    Encodes k psi format moduli (fun _ => 0) (zero moduli (2 ^ k) format) := by
  apply (zero_denotes hpos (2 ^ k) format).congr
  intro i q _ r _
  cases format with
  | COEFFICIENT =>
      change (0 : ZMod q) = ((0 : Int) : ZMod q)
      rw [Int.cast_zero]
  | EVALUATION =>
      rw [inFormat, transform, stageArray_last]
      apply (Finset.sum_eq_zero _).symm
      intro c _
      rw [integerResidues, Int.cast_zero, zero_mul]

theorem rescales_evaluation :
    Rescales Poly.smallCache 1 Poly.smallRoot [13] 17 .EVALUATION (fun _ => 0)
      (zero [13, 17] 2 .EVALUATION) :=
  (rescales_iff (by decide) (by decide) (smallReadyChain (by decide))
    (by decide) (by decide) (zero_encodes (by decide) .EVALUATION)).mpr rfl

/-- From the coefficient format the towers end in the evaluation format. -/
theorem dropLastElementAndScale_coefficient :
    Encodes 1 Poly.smallRoot .COEFFICIENT [13, 17] (fun _ => 0) (zero [13, 17] 2 .COEFFICIENT) ∧
      ¬ Rescales Poly.smallCache 1 Poly.smallRoot [13] 17 .COEFFICIENT (fun _ => 0)
        (zero [13, 17] 2 .COEFFICIENT) := by
  constructor
  · exact zero_encodes (by decide) .COEFFICIENT
  · intro h
    have hready : ReadyChain Poly.smallCache 1 Poly.smallRoot ([13] ++ [17]) :=
      smallReadyChain (by decide)
    rcases dropLastElementAndScale_encodes (by decide) (by decide) hready (by decide)
      (zero_encodes (by decide) .COEFFICIENT) (by decide) with ⟨consts, inverses, r, y, hconsts, hinverses, hr, _, hencodes⟩
    rcases h.dropLastElementAndScale with
      ⟨consts', inverses', r', y', hconsts', hinverses', hr', _, hencodes'⟩
    cases hconsts.symm.trans hconsts'
    cases hinverses.symm.trans hinverses'
    cases hr.symm.trans hr'
    exact absurd (hencodes'.format_unique (by decide) hencodes) (by decide)

end DCRTPoly
end Hal
end OpenFHE
