import OpenFHE.Core.BigInteger.ModInverse
import OpenFHE.Core.VectorOperations
import OpenFHE.Foundation.BaseConversion
import OpenFHE.Hal.Residues
import Mathlib.Algebra.BigOperators.ModEq

/-!
# Fast base conversion

`ApproxSwitchCRTBasis` adds up the digits times the cofactors, either as one 128-bit sum for
every target or tower by tower with reduced products.
-/

namespace OpenFHE
namespace Hal

open OpenFHE.Core NativeInteger in
/-- `MultAccEqNoCheck`: the values of `V` times `I`, added modulo the own modulus. -/
def Poly.multAccEqNoCheck (a V : Poly) (I : Nat) : Option Poly := do
  let iv := if I >= a.modulus then I % a.modulus else I
  let iinv <- prepModMulConst iv a.modulus
  if V.values.length < a.values.length then none
  else return { a with
    values := List.zipWith
      (fun x y => modAddFast x (modMulFastConst y iv a.modulus iinv) a.modulus)
      a.values V.values }

open OpenFHE.Core NativeInteger in
theorem Poly.multAccEqNoCheck_denotes {q n : Nat} {format : Format} {f : Nat -> ZMod q}
    {a V : Poly} (hpos : 0 < q) (hlt : q < 2 ^ 62) (ha : Poly.Denotes q n format f a)
    (hlength : V.values.length = n) (hword : forall x, x ∈ V.values -> x < 2 ^ maxBits)
    (c : Nat) : exists r, Poly.multAccEqNoCheck a V c = some r ∧
      Poly.Denotes q n format (fun i => f i + V.value i * c) r := by
  have hcLt : (if c >= q then c % q else c) < q := by
    split
    · exact Nat.mod_lt _ hpos
    · omega
  have hcCast : (((if c >= q then c % q else c) : Nat) : ZMod q) = c := by
    split
    · exact ZMod.natCast_mod c q
    · rfl
  unfold Poly.multAccEqNoCheck
  rw [ha.modulus_eq]
  dsimp only
  generalize (if c >= q then c % q else c) = iv at hcLt hcCast
  rw [prepModMulConst_eq (by simp only [maxBits]; omega) hcLt, Option.bind_eq_bind,
    Option.bind_some, if_neg (by rw [hlength, ha.holds.length_eq]; exact lt_irrefl n)]
  refine ⟨_, rfl, rfl, ha.format_eq, ?_, ?_⟩
  · rw [List.length_zipWith, ha.holds.length_eq, hlength, Nat.min_self]
  · intro i z hz
    rcases List.getElem?_zipWith_eq_some.mp hz with ⟨x, y, hx, hy, rfl⟩
    have hxi := ha.holds.get i x hx
    have hyi : V.value i = y := by
      rw [Poly.value, List.getD_eq_getElem?_getD, hy, Option.getD_some]
    rw [modMulFastConst_eq hlt hcLt (hword y (List.mem_of_getElem? hy)),
      modAddFast_eq (by omega) hxi.1 (Nat.mod_lt _ hpos), Nat.add_mod_mod, hyi, ← hxi.2,
      ← hcCast, ← Nat.cast_mul, ← Nat.cast_add]
    exact represents_mod hpos _

namespace DCRTPoly

open OpenFHE.Core Foundation NativeInteger Finset

/-- The second path of `ApproxSwitchCRTBasis`: multiply and accumulate in every target. -/
def approxSwitchByTowers (tables : SwitchTables) (ringDimension sizeParamsQ : Nat)
    (format : Format) (a : DCRTPoly) : Option DCRTPoly :=
  let sizeQ := if a.length > sizeParamsQ then sizeParamsQ else a.length
  (List.range sizeQ).foldlM (fun ans i => do
    let t <- a[i]?
    let qHatInv <- tables.qHatInvModq[i]?
    let xQHatInvModqi <- Poly.timesInteger t qHatInv
    let row <- tables.qHatModp[i]?
    (List.range tables.moduli.length).mapM fun j => do
      let u <- ans[j]?
      let qHat <- row[j]?
      Poly.multAccEqNoCheck u xQHatInvModqi qHat)
    (zero tables.moduli ringDimension format)

/-!
## The remainder of a double word
-/

/-- The high half of the product with the precomputed quotient, as the code computes it. -/
def highWord (a mu : Nat) : Nat :=
  let a_lo := word a
  let a_hi := a >>> 64
  let mu_lo := word mu
  let mu_hi := mu >>> 64
  let left_hi := (a_lo * mu_lo) >>> 64
  let middle := a_lo * mu_hi
  let middle_lo := word middle
  let middle_hi := middle >>> 64
  let tmp1 := word (middle_lo + left_hi)
  let carry := if tmp1 < left_hi then 1 else 0
  let tmp2 := word (middle_hi + carry)
  let middle := a_hi * mu_lo
  let middle_lo := word middle
  let middle_hi := middle >>> 64
  let carry := if word (middle_lo + tmp1) < tmp1 then 1 else 0
  let left_hi := word (middle_hi + carry)
  word (a_hi * mu_hi + tmp2 + left_hi)

theorem carry_split {x y : Nat} (hx : x < 2 ^ 64) (hy : y < 2 ^ 64) :
    x + y = (if word (x + y) < y then 1 else 0) * 2 ^ 64 + word (x + y) := by
  have hword : word (x + y) = (x + y) % 2 ^ 64 := rfl
  split
  next hlt =>
    rw [hword] at hlt ⊢
    omega
  next hge =>
    rw [hword] at hge ⊢
    omega

theorem highWord_eq (a mu : Nat) :
    highWord a mu = word (a * mu / 2 ^ 128) := by
  have hsplit : forall x, x >>> 64 * 2 ^ 64 + word x = x := by
    intro x
    simp only [word, maxBits, Nat.shiftRight_eq_div_pow]
    omega
  have hlo : forall x, word x < 2 ^ 64 := fun x => word_lt x
  have hhi : forall x, x < 2 ^ 128 -> x >>> 64 < 2 ^ 64 := by
    intro x hx
    rw [Nat.shiftRight_eq_div_pow]
    omega
  have hmul : forall x y, x < 2 ^ 64 -> y < 2 ^ 64 -> x * y < 2 ^ 128 := by
    intro x y hx hy
    calc x * y < 2 ^ 64 * 2 ^ 64 := Nat.mul_lt_mul'' hx hy
      _ = 2 ^ 128 := by norm_num
  have hproduct := high_product (hsplit (word a * word mu)).symm (hlo _)
    (hsplit (word a * (mu >>> 64))).symm
    (carry_split (hlo (word a * (mu >>> 64))) (hhi _ (hmul _ _ (hlo a) (hlo mu))))
    (hsplit (a >>> 64 * word mu)).symm (carry_split (hlo (a >>> 64 * word mu)) (hlo _)) (hlo _)
  rw [hsplit, hsplit, show 2 ^ 64 * 2 ^ 64 = 2 ^ 128 by norm_num] at hproduct
  rw [hproduct]
  unfold highWord
  dsimp only
  simp only [word, maxBits]
  omega

theorem barrettUint128ModUint64_eq_highWord (a modulus mu : Nat) :
    barrettUint128ModUint64 a modulus mu =
      if modulus = 0 then none
      else some (subFast (word a) (word (highWord a mu * modulus)) % modulus) :=
  rfl

theorem barrett_difference {a modulus : Nat} (ha : a < 2 ^ 128) (hpos : 0 < modulus)
    (hlt : modulus < 2 ^ 63) : exists est, est * modulus <= a ∧ a < est * modulus + 2 * modulus ∧
      subFast (word a) (word (highWord a (2 ^ 128 / modulus) * modulus)) = a - est * modulus := by
  have hest := shoup_estimate (b := 1) hpos ha
  simp only [Nat.one_mul, Nat.mul_one] at hest
  rw [highWord_eq]
  refine ⟨_, hest.1, hest.2, ?_⟩
  generalize a * (2 ^ 128 / modulus) / 2 ^ 128 = est at hest
  have hword : word (word est * modulus) = word (est * modulus) := by
    simp only [word]
    rw [Nat.mod_mul_mod]
  rw [hword]
  unfold subFast
  simp only [word, maxBits]
  omega

theorem barrettUint128ModUint64_eq {a modulus : Nat} (ha : a < 2 ^ 128) (hpos : 0 < modulus)
    (hlt : modulus < 2 ^ 62) :
    barrettUint128ModUint64 a modulus (doubleWord (2 ^ 128 / modulus)) = some (a % modulus) := by
  rw [barrettUint128ModUint64_eq_highWord, if_neg (by omega)]
  congr 1
  rcases Nat.lt_or_ge 1 modulus with hone | hone
  · have hmu : doubleWord (2 ^ 128 / modulus) = 2 ^ 128 / modulus :=
      doubleWord_eq (Nat.div_lt_self (by norm_num) hone)
    rcases barrett_difference ha hpos (hlt.trans (by decide)) with ⟨est, hle, _, hdiff⟩
    rw [hmu, hdiff, Nat.mul_comm, Nat.sub_mul_mod (by rwa [Nat.mul_comm])]
  · have heq : modulus = 1 := by omega
    rw [heq, Nat.mod_one, Nat.mod_one]

/-!
## The two paths
-/

/-- `[(Q/q_i)^{-1}]_{q_i}` with the constants for the products by them. -/
def qHatInvModq (source : List Nat) : Option (List (Nat × Nat)) :=
  source.mapM fun q => do
    let inverse <- BigInteger.modInverse (source.prod / q) q
    let precon <- prepModMulConst inverse q
    return (inverse, precon)

/-- The tables that the crypto parameters precompute for a conversion. -/
def switchTables (source targets : List Nat) : Option SwitchTables := do
  let inverses <- qHatInvModq source
  return {
    moduli := targets
    qHatInvModq := inverses.map Prod.fst
    qHatInvModqPrecon := inverses.map Prod.snd
    qHatModp := source.map fun q => targets.map fun p => source.prod / q % p
    modpBarrettMu := targets.map fun p => doubleWord ((1 <<< 128) / p) }

structure SwitchTables.Exact (tables : SwitchTables) (source : List Nat) : Prop where
  inverse : forall (i q : Nat), source[i]? = some q ->
    exists w : Nat, tables.qHatInvModq[i]? = some w ∧
    w < q ∧ cofactor source i * w % q = 1 ∧ tables.qHatInvModqPrecon[i]? = some (precon w q)
  qHatModp : forall i, i < source.length ->
    exists row : List Nat, tables.qHatModp[i]? = some row ∧
    forall (j p : Nat), tables.moduli[j]? = some p -> row[j]? = some (cofactor source i % p)
  modpBarrettMu : forall (j p : Nat), tables.moduli[j]? = some p ->
    tables.modpBarrettMu[j]? = some (doubleWord (2 ^ 128 / p))

/-- The sum that a target modulus `p` accumulates, before it is a double word. -/
def accumulator (source : List Nat) (p x : Nat) : Nat :=
  ∑ i ∈ range source.length, baseDigit source x i * (cofactor source i % p)

def residuePolynomial (moduli : List Nat) (n : Nat) (x : Nat -> Nat) : DCRTPoly :=
  moduli.map fun q => ⟨q, .COEFFICIENT, (List.range n).map fun r => x r % q⟩

theorem residuePolynomial_getElem? {moduli : List Nat} {i q : Nat} (n : Nat) (x : Nat -> Nat)
    (hq : moduli[i]? = some q) : (residuePolynomial moduli n x)[i]? =
      some ⟨q, .COEFFICIENT, (List.range n).map fun r => x r % q⟩ := by
  rw [residuePolynomial, List.getElem?_map, hq]
  rfl

theorem residuePolynomial_wellFormed {moduli : List Nat} (hpos : forall q, q ∈ moduli -> 0 < q)
    (n : Nat) (x : Nat -> Nat) :
    WellFormed n .COEFFICIENT moduli (residuePolynomial moduli n x) := by
  refine ⟨List.length_map _, ?_⟩
  intro i q t hq ht
  cases ht.symm.trans (residuePolynomial_getElem? n x hq)
  refine ⟨rfl, rfl, by simp, ?_⟩
  intro y hy
  rcases List.mem_map.mp hy with ⟨r, _, rfl⟩
  exact Nat.mod_lt _ (hpos q (List.mem_of_getElem? hq))

theorem residuePolynomial_value {moduli : List Nat} {n r i q : Nat} (x : Nat -> Nat)
    (hr : r < n) (hq : moduli[i]? = some q) :
    value (residuePolynomial moduli n x) i r = x r % q := by
  rw [value_eq (residuePolynomial_getElem? n x hq), Poly.value, List.getD_eq_getElem?_getD,
    List.getElem?_map, List.getElem?_range hr]
  rfl

/-- All towers stand for one number that is congruent to `x` modulo the source. -/
def Extends (source targets : List Nat) (n : Nat) (format : Format) (x : Nat -> Nat)
    (b : DCRTPoly) : Prop :=
  WellFormed n format targets b ∧ forall r, r < n -> exists u, u < source.length ∧
    forall (j p : Nat), targets[j]? = some p -> value b j r = (x r + u * source.prod) % p

/-- No target sees a carry that the accumulation loses. -/
def KeepsCarries (source targets : List Nat) (x : Nat) : Prop :=
  forall p, p ∈ targets -> p ∣ 2 ^ 128 * (accumulator source p x / 2 ^ 128)

/-- The moduli of a conversion: at least two bits below a word, the sources coprime. -/
structure Convertible (source targets : List Nat) : Prop where
  coprime : source.Pairwise Nat.Coprime
  one_lt : forall q, q ∈ source -> 1 < q
  source_lt : forall q, q ∈ source -> q < 2 ^ 60
  pos : forall p, p ∈ targets -> 0 < p
  target_lt : forall p, p ∈ targets -> p < 2 ^ 60

theorem Convertible.source_pos {source targets : List Nat} (h : Convertible source targets) :
    forall q, q ∈ source -> 0 < q := by
  intro q hq
  have hone := h.one_lt q hq
  omega

theorem qHatInvModq_spec {source targets : List Nat} (h : Convertible source targets) :
    exists inverses, qHatInvModq source = some inverses ∧
      forall (i q : Nat), source[i]? = some q -> exists w : Nat,
        (inverses.map Prod.fst)[i]? = some w ∧ w < q ∧ cofactor source i * w % q = 1 ∧
        (inverses.map Prod.snd)[i]? = some (precon w q) := by
  rcases mapM_spec (l := source) (f := fun q => do
      let inverse <- BigInteger.modInverse (source.prod / q) q
      let precon <- prepModMulConst inverse q
      return (inverse, precon))
    (fun q (w : Nat × Nat) => w.1 < q ∧ source.prod / q * w.1 % q = 1 ∧ w.2 = precon w.1 q) (by
      intro q hq
      have hone := h.one_lt q hq
      have hlt := h.source_lt q hq
      rcases BigInteger.modInverse_spec hone (coprime_prod_div h.coprime h.one_lt hq) with
        ⟨w, hw, hwlt, hmul⟩
      refine ⟨(w, precon w q), ?_, hwlt, hmul, rfl⟩
      rw [hw, Option.bind_eq_bind, Option.bind_some,
        prepModMulConst_eq (by simp only [maxBits]; omega) hwlt]
      rfl) with ⟨inverses, hinverses, hlength, hget⟩
  refine ⟨inverses, hinverses, ?_⟩
  intro i q hq
  have hi : i < inverses.length := by
    rw [hlength]
    exact (List.getElem?_eq_some_iff.mp hq).1
  have hw := List.getElem?_eq_getElem hi
  rcases hget i q _ hq hw with ⟨hlt, hmul, hprecon⟩
  refine ⟨inverses[i].1, by rw [List.getElem?_map, hw]; rfl, hlt, ?_, ?_⟩
  · rw [cofactor_eq hq]
    exact hmul
  · rw [List.getElem?_map, hw, ← hprecon]
    rfl

theorem switchTables_exact {source targets : List Nat} (h : Convertible source targets) :
    exists tables, switchTables source targets = some tables ∧ tables.moduli = targets ∧
      tables.Exact source := by
  rcases qHatInvModq_spec h with ⟨inverses, hinverses, hinverse⟩
  refine ⟨_, by rw [switchTables, hinverses]; rfl, rfl, hinverse, ?_, ?_⟩
  · intro i hi
    have hq := List.getElem?_eq_getElem hi
    refine ⟨_, by rw [List.getElem?_map, hq]; rfl, ?_⟩
    intro j p hp
    rw [List.getElem?_map, hp, cofactor_eq hq]
    rfl
  · intro j p hp
    rw [List.getElem?_map, hp]
    rfl

/-- Up to 256 source moduli the sum is a double word. -/
theorem accumulator_lt {source targets : List Nat} (h : Convertible source targets)
    (hlength : source.length <= 256) {p : Nat} (hp : p ∈ targets) (x : Nat) :
    accumulator source p x < 2 ^ 128 := by
  have hdigits := baseDigit_spec h.coprime h.one_lt (x := x)
  have hpos := h.pos p hp
  have hlt := h.target_lt p hp
  have hterm : forall i, i ∈ range source.length ->
      baseDigit source x i * (cofactor source i % p) <= 2 ^ 120 - 1 := by
    intro i hi
    have hq := List.getElem?_eq_getElem (mem_range.mp hi)
    have hdigit := hdigits.lt i _ hq
    have hq60 := h.source_lt _ (List.mem_of_getElem? hq)
    have hmod : cofactor source i % p < p := Nat.mod_lt _ hpos
    have hmul : baseDigit source x i * (cofactor source i % p) < 2 ^ 60 * 2 ^ 60 :=
      Nat.mul_lt_mul'' (by omega) (by omega)
    omega
  have hsum := sum_le_card_nsmul _ _ _ hterm
  rw [card_range, smul_eq_mul] at hsum
  have hcount : source.length * (2 ^ 120 - 1) <= 256 * (2 ^ 120 - 1) :=
    Nat.mul_le_mul_right _ hlength
  unfold accumulator
  omega

theorem keepsCarries_of_length {source targets : List Nat} (h : Convertible source targets)
    (hlength : source.length <= 256) (x : Nat) : KeepsCarries source targets x := by
  intro p hp
  rw [Nat.div_eq_of_lt (accumulator_lt h hlength hp x)]
  exact dvd_zero p

theorem mapM_towers (targets : List Nat) (n : Nat) (format : Format) (f : Nat -> Option Poly)
    (entry : Nat -> Nat -> Option Nat) (P : Nat -> Nat -> Nat -> Nat -> Prop)
    (hf : forall (j p : Nat), targets[j]? = some p ->
      f j = ((List.range n).mapM (entry j)).bind fun values => some ⟨p, format, values⟩)
    (hentry : forall (j p : Nat), targets[j]? = some p -> forall r, r < n ->
      exists v, entry j r = some v ∧ v < p ∧ P j p r v) :
    exists b, (List.range targets.length).mapM f = some b ∧ WellFormed n format targets b ∧
      forall (j p : Nat), targets[j]? = some p -> forall r, r < n -> P j p r (value b j r) := by
  rcases mapM_range_spec (n := targets.length) (f := f)
    (fun j (t : Poly) => forall p, targets[j]? = some p ->
      t.modulus = p ∧ t.format = format ∧ t.values.length = n ∧
        forall r v, t.values[r]? = some v -> v < p ∧ P j p r v) (by
      intro j hj
      have hp := List.getElem?_eq_getElem hj
      rcases mapM_range_spec (n := n) (f := entry j)
        (fun r v => v < targets[j] ∧ P j targets[j] r v) (hentry j _ hp) with
        ⟨values, hvalues, hlength, hget⟩
      refine ⟨⟨targets[j], format, values⟩, by rw [hf j _ hp, hvalues]; rfl, ?_⟩
      intro p hp'
      cases hp.symm.trans hp'
      exact ⟨rfl, rfl, hlength, hget⟩) with ⟨b, hb, hblength, hget⟩
  refine ⟨b, hb, ⟨hblength, ?_⟩, ?_⟩
  · intro j p t hp ht
    rcases hget j t ht p hp with ⟨hmodulus, hformat, hlength, hvalues⟩
    refine ⟨hmodulus, hformat, hlength, ?_⟩
    intro v hv
    rcases List.mem_iff_getElem?.mp hv with ⟨r, hr⟩
    exact (hvalues r v hr).1
  · intro j p hp r hr
    have hj : j < b.length := by
      rw [hblength]
      exact (List.getElem?_eq_some_iff.mp hp).1
    have ht := List.getElem?_eq_getElem hj
    rcases hget j _ ht p hp with ⟨_, _, hlength, hvalues⟩
    have hread := List.getElem?_eq_getElem (show r < b[j].values.length by omega)
    rw [value_eq ht, Poly.value, List.getD_eq_getElem?_getD, hread, Option.getD_some]
    exact (hvalues r _ hread).2

theorem mul_inverse_eq_baseDigit {source targets : List Nat} (h : Convertible source targets)
    {i q w : Nat} (hq : source[i]? = some q)
    (hw : cofactor source i * w % q = 1) (x : Nat) : x % q * w % q = baseDigit source x i := by
  have hone := h.one_lt q (List.mem_of_getElem? hq)
  have hdigits := baseDigit_spec h.coprime h.one_lt (x := x)
  apply eq_of_mul_cofactor h.coprime h.one_lt hq (Nat.mod_lt _ (by omega)) (hdigits.lt i q hq)
  rw [hdigits.residue i q hq, Nat.mod_mul_mod, Nat.mul_assoc, Nat.mul_comm w, Nat.mul_mod, hw,
    Nat.mul_one, Nat.mod_mod, Nat.mod_mod]

theorem accumulator_mod (source : List Nat) (p x : Nat) :
    accumulator source p x % p = digitSum source (baseDigit source x) % p := by
  apply Nat.ModEq.sum
  intro i _
  exact (Nat.mod_modEq _ p).mul_left _

section Conversion

variable {source : List Nat} {tables : SwitchTables} (h : Convertible source tables.moduli)
  (htables : tables.Exact source) {n : Nat} {format : Format} {a : DCRTPoly}
  (ha : WellFormed n format source a) {x : Nat -> Nat}
  (hx : forall r, r < n -> forall (i q : Nat), source[i]? = some q -> value a i r = x r % q)

include h htables ha hx

theorem switchTerm_eq {r i j p : Nat} (hr : r < n) (hi : i < source.length)
    (hp : tables.moduli[j]? = some p) : switchTerm tables a r j i =
      some (baseDigit source (x r) i * (cofactor source i % p)) := by
  have hq := List.getElem?_eq_getElem hi
  rcases ha.exists_tower hq with ⟨t, ht, hwf⟩
  rcases htables.inverse i _ hq with ⟨w, hw, hwlt, hmul, hprecon⟩
  rcases htables.qHatModp i hi with ⟨row, hrow, hget⟩
  have hlt := h.source_lt _ (List.mem_of_getElem? hq)
  have hread : t.values[r]? = some (x r % source[i]) := by
    have hlen : r < t.values.length := by
      rw [hwf.2.2.1]
      exact hr
    have hvalue := hx r hr i _ hq
    rw [value_eq ht, Poly.value, List.getD_eq_getElem _ _ hlen] at hvalue
    rw [List.getElem?_eq_getElem hlen, hvalue]
  have hmod : x r % source[i] < source[i] := Nat.mod_lt _ (by omega)
  unfold switchTerm
  simp only [ht, hread, hw, hprecon, hrow, hget j p hp, Option.bind_eq_bind, Option.bind_some]
  rw [hwf.1, modMulFastConst_eq (by omega) hwlt (by simp only [maxBits]; omega),
    mul_inverse_eq_baseDigit h hq hmul]
  rfl

theorem switchSum_eq {r j p : Nat} (hr : r < n) (hp : tables.moduli[j]? = some p) :
    switchSum tables a source.length r j = some (doubleWord (accumulator source p (x r))) := by
  rcases foldlM_range_spec (n := source.length) (s := 0)
    (f := fun sum i => (switchTerm tables a r j i).map fun term => doubleWord (sum + term))
    (fun k sum => sum = doubleWord
      (∑ i ∈ range k, baseDigit source (x r) i * (cofactor source i % p))) rfl (by
      intro i hi sum hsum
      refine ⟨_, by rw [switchTerm_eq h htables ha hx hr hi hp]; rfl, ?_⟩
      dsimp only
      rw [hsum, sum_range_succ, doubleWord, doubleWord, Nat.mod_add_mod]
      rfl) with ⟨sum, hrun, hsum⟩
  rw [switchSum, hrun, hsum]
  rfl

theorem approxSwitchCRTBasis_value {sizeParamsQ : Nat}
    (hsize : source.length <= sizeParamsQ) (target : Format) :
    exists b, approxSwitchCRTBasis tables n sizeParamsQ target a = some b ∧
      WellFormed n target tables.moduli b ∧ forall r, r < n -> forall (j p : Nat),
        tables.moduli[j]? = some p ->
        value b j r = doubleWord (accumulator source p (x r)) % p := by
  have hlength := ha.length_eq
  have hmin : (if a.length > sizeParamsQ then sizeParamsQ else a.length) = source.length := by
    rw [if_neg (by omega), hlength]
  rcases mapM_towers tables.moduli n target
    (switchTower tables a n source.length target)
    (fun j ri => do
      let pj <- tables.moduli[j]?
      let mu <- tables.modpBarrettMu[j]?
      let sum <- switchSum tables a source.length ri j
      barrettUint128ModUint64 sum pj mu)
    (fun j p r v => v = doubleWord (accumulator source p (x r)) % p) (by
      intro j p hp
      unfold switchTower
      simp only [hp, htables.modpBarrettMu j p hp, Option.bind_eq_bind, Option.bind_some]
      rfl) (by
      intro j p hp r hr
      have hmem := List.mem_of_getElem? hp
      have hpos := h.pos _ hmem
      have hlt := h.target_lt _ hmem
      have hword : doubleWord (accumulator source p (x r)) < 2 ^ 128 :=
        Nat.mod_lt _ (by norm_num)
      refine ⟨_, ?_, Nat.mod_lt _ hpos, rfl⟩
      simp only [hp, htables.modpBarrettMu j p hp, switchSum_eq h htables ha hx hr hp,
        Option.bind_eq_bind, Option.bind_some]
      rw [barrettUint128ModUint64_eq hword hpos (by omega)]) with ⟨b, hb, hb_wf, hvalue⟩
  refine ⟨b, ?_, hb_wf, fun r hr j p hp => hvalue j p hp r hr⟩
  unfold approxSwitchCRTBasis
  rw [hmin]
  exact hb

omit htables in
theorem digits_exists {i q w : Nat} (hq : source[i]? = some q)
    (hw : cofactor source i * w % q = 1) : exists t v, a[i]? = some t ∧
      Poly.timesInteger t w = some v ∧ v.values.length = n ∧
      (forall y, y ∈ v.values -> y < 2 ^ maxBits) ∧
      forall r, r < n -> v.value r = baseDigit source (x r) i := by
  have hmem := List.mem_of_getElem? hq
  have hone := h.one_lt q hmem
  have hlt := h.source_lt q hmem
  rcases ha.exists_tower hq with ⟨t, ht, hwf⟩
  rcases NativeVector.modMulScalar_spec hlt (by omega) w hwf.denotes.holds with
    ⟨values, hvalues, hHolds⟩
  refine ⟨t, { t with values := values }, ht, ?_, hHolds.length_eq, ?_, ?_⟩
  · rw [Poly.timesInteger, hwf.1, hvalues]
    rfl
  · intro y hy
    have hyq := hHolds.lt hy
    simp only [maxBits]
    omega
  · intro r hr
    rcases hHolds.residues.exists_entry hr with ⟨y, hy, hyq⟩
    have hvalue := (hHolds.get r y hy).2
    rw [← value_eq ht, hx r hr i q hq, ← Nat.cast_mul] at hvalue
    have hmod := (ZMod.natCast_eq_natCast_iff' _ _ q).mp hvalue
    rw [Poly.value, List.getD_eq_getElem?_getD, hy, Option.getD_some,
      ← mul_inverse_eq_baseDigit h hq hw, ← hmod, Nat.mod_eq_of_lt hyq]

theorem approxSwitchByTowers_denotes {sizeParamsQ : Nat}
    (hsize : source.length <= sizeParamsQ) (target : Format) :
    exists b, approxSwitchByTowers tables n sizeParamsQ target a = some b ∧
      Denotes n target tables.moduli (fun _ p r => accumulator source p (x r)) b := by
  have hlength := ha.length_eq
  have hmin : (if a.length > sizeParamsQ then sizeParamsQ else a.length) = source.length := by
    rw [if_neg (by omega), hlength]
  unfold approxSwitchByTowers
  rw [hmin]
  apply foldlM_range_spec (fun k ans => Denotes n target tables.moduli (fun _ p r =>
    ((∑ i ∈ range k, baseDigit source (x r) i * (cofactor source i % p) : Nat) : ZMod p)) ans)
  · exact (zero_denotes h.pos n target).congr (fun _ _ _ _ _ => by simp)
  · intro i hi ans hans
    have hq := List.getElem?_eq_getElem hi
    have hq60 := h.source_lt _ (List.mem_of_getElem? hq)
    rcases htables.inverse i _ hq with ⟨w, hw, _, hmul, _⟩
    rcases htables.qHatModp i hi with ⟨row, hrow, hget⟩
    rcases digits_exists h ha hx hq hmul with ⟨t, v, ht, hv, hv_length, hv_word, hv_value⟩
    rcases mapM_range_spec (n := tables.moduli.length)
      (f := fun j => do
        let u <- ans[j]?
        let qHat <- row[j]?
        Poly.multAccEqNoCheck u v qHat)
      (fun j (u : Poly) => forall p, tables.moduli[j]? = some p ->
        Poly.Denotes p n target (fun r => ((∑ i ∈ range (i + 1),
          baseDigit source (x r) i * (cofactor source i % p) : Nat) : ZMod p)) u) (by
        intro j hj
        have hp := List.getElem?_eq_getElem hj
        have hmem := List.mem_of_getElem? hp
        have hp60 := h.target_lt _ hmem
        rcases hans.tower hp with ⟨u, hu, hu_denotes⟩
        rcases Poly.multAccEqNoCheck_denotes (h.pos _ hmem) (by omega) hu_denotes hv_length
          hv_word (cofactor source i % tables.moduli[j]) with ⟨s, hs, hs_denotes⟩
        refine ⟨s, ?_, ?_⟩
        · simp only [hu, hget j _ hp, Option.bind_eq_bind, Option.bind_some]
          exact hs
        · intro p hp'
          cases hp.symm.trans hp'
          apply hs_denotes.congr
          intro r hr
          rw [sum_range_succ, Nat.cast_add, Nat.cast_mul, hv_value r hr]) with
      ⟨b, hb, hb_length, hb_get⟩
    refine ⟨b, ?_, denotes_of_towers hb_length fun j p u hp hu => hb_get j u hu p hp⟩
    simp only [ht, hw, hv, hrow, Option.bind_eq_bind, Option.bind_some]
    exact hb

end Conversion

theorem doubleWord_mod_eq_iff (sum p : Nat) :
    doubleWord sum % p = sum % p <-> p ∣ 2 ^ 128 * (sum / 2 ^ 128) := by
  have hsplit : doubleWord sum + 2 ^ 128 * (sum / 2 ^ 128) = sum := Nat.mod_add_div _ _
  have hle : doubleWord sum <= sum := Nat.mod_le _ _
  have hlost : sum - doubleWord sum = 2 ^ 128 * (sum / 2 ^ 128) := by omega
  rw [← hlost]
  exact Nat.modEq_iff_dvd' hle

theorem accumulator_extends {source targets : List Nat} (h : Convertible source targets)
    (hne : source ≠ []) {x : Nat} (hx : x < source.prod) :
    exists u, u < source.length ∧
      forall p, accumulator source p x % p = (x + u * source.prod) % p := by
  have heq := digitSum_eq h.coprime h.one_lt (baseDigit_spec h.coprime h.one_lt) hx
    (List.length_pos_iff.mpr hne)
  refine ⟨_, heq.2, ?_⟩
  intro p
  rw [accumulator_mod, heq.1]

theorem exists_paths {source targets : List Nat} (h : Convertible source targets)
    {n sizeParamsQ : Nat} (hsize : source.length <= sizeParamsQ) {format : Format} {a : DCRTPoly}
    (ha : WellFormed n format source a) {x : Nat -> Nat}
    (hvalue : forall r, r < n -> forall (i q : Nat), source[i]? = some q ->
      value a i r = x r % q) :
    exists tables b c, switchTables source targets = some tables ∧
      approxSwitchCRTBasis tables n sizeParamsQ format a = some b ∧
      approxSwitchByTowers tables n sizeParamsQ format a = some c ∧
      WellFormed n format targets b ∧ WellFormed n format targets c ∧
      forall r, r < n -> forall (j p : Nat), targets[j]? = some p ->
        value b j r = doubleWord (accumulator source p (x r)) % p ∧
          value c j r = accumulator source p (x r) % p := by
  rcases switchTables_exact h with ⟨tables, htables, rfl, hexact⟩
  rcases approxSwitchCRTBasis_value h hexact ha hvalue hsize format with
    ⟨b, hb, hb_wf, hb_value⟩
  rcases approxSwitchByTowers_denotes h hexact ha hvalue hsize format with ⟨c, hc, hc_denotes⟩
  refine ⟨tables, b, c, htables, hb, hc, hb_wf, hc_denotes.wellFormed, ?_⟩
  intro r hr j p hp
  exact ⟨hb_value r hr j p hp,
    hc_denotes.value_mod (f := fun _ p r => accumulator source p (x r)) hp hr⟩

/-- Both paths return the same extension exactly when no target sees the lost carries. -/
theorem approxSwitchCRTBasis_extends_iff {source targets : List Nat} {tables : SwitchTables}
    (h : Convertible source targets) (hne : source ≠ [])
    (htables : switchTables source targets = some tables) {n sizeParamsQ : Nat}
    (hsize : source.length <= sizeParamsQ) {format : Format} {a : DCRTPoly}
    (ha : WellFormed n format source a) {x : Nat -> Nat}
    (hx : forall r, r < n -> x r < source.prod)
    (hvalue : forall r, r < n -> forall (i q : Nat), source[i]? = some q ->
      value a i r = x r % q) :
    (exists b, approxSwitchCRTBasis tables n sizeParamsQ format a = some b ∧
      approxSwitchByTowers tables n sizeParamsQ format a = some b ∧
      Extends source targets n format x b) <->
      forall r, r < n -> KeepsCarries source targets (x r) := by
  rcases exists_paths h hsize ha hvalue with
    ⟨tables', b, c, htables', hb, hc, hb_wf, hc_wf, hvalues⟩
  cases htables.symm.trans htables'
  constructor
  · rintro ⟨d, hd, hd', _⟩ r hr p hp
    rcases List.mem_iff_getElem?.mp hp with ⟨j, hj⟩
    have hbc : b = c := by
      cases hb.symm.trans hd
      exact Option.some.inj (hd'.symm.trans hc)
    rw [← doubleWord_mod_eq_iff, ← (hvalues r hr j p hj).1, ← (hvalues r hr j p hj).2, hbc]
  · intro hlost
    have hsame : forall r, r < n -> forall (j p : Nat), targets[j]? = some p ->
        value b j r = value c j r := by
      intro r hr j p hp
      rw [(hvalues r hr j p hp).1, (hvalues r hr j p hp).2]
      exact (doubleWord_mod_eq_iff _ _).mpr (hlost r hr p (List.mem_of_getElem? hp))
    have hbc : b = c := by
      apply hb_wf.ext hc_wf
      intro j p hp r hr
      rw [hsame r hr j p hp]
    refine ⟨b, hb, hbc ▸ hc, hb_wf, ?_⟩
    intro r hr
    rcases accumulator_extends h hne (hx r hr) with ⟨u, hu, heq⟩
    refine ⟨u, hu, ?_⟩
    intro j p hp
    rw [hsame r hr j p hp, (hvalues r hr j p hp).2, heq]

theorem approxSwitchCRTBasis_extends_small : exists tables b,
    switchTables [5, 7] [11, 13] = some tables ∧
    approxSwitchCRTBasis tables 2 2 .COEFFICIENT
      (residuePolynomial [5, 7] 2 fun r => r + 17) = some b ∧
    Extends [5, 7] [11, 13] 2 .COEFFICIENT (fun r => r + 17) b := by
  have hconv : Convertible [5, 7] [11, 13] :=
    ⟨by decide, by decide, by decide, by decide, by decide⟩
  rcases switchTables_exact hconv with ⟨tables, htables, _, _⟩
  rcases (approxSwitchCRTBasis_extends_iff hconv (by decide) htables (le_refl 2)
    (residuePolynomial_wellFormed hconv.source_pos 2 fun r => r + 17) (by decide)
    (fun r hr i q hq => residuePolynomial_value _ hr hq)).mpr
    (fun r _ => keepsCarries_of_length hconv (by decide) _) with ⟨b, hb, _, hextends⟩
  exact ⟨tables, b, htables, hb, hextends⟩

/-!
## A basis that is too long
-/

/-- Every modulus is coprime to the product of the later ones. -/
def coprimeToLater : List Nat -> Bool
  | [] => true
  | q :: moduli => Nat.gcd q moduli.prod == 1 && coprimeToLater moduli

theorem pairwise_of_coprimeToLater {moduli : List Nat} (h : coprimeToLater moduli = true) :
    moduli.Pairwise Nat.Coprime := by
  induction moduli with
  | nil =>
      exact List.Pairwise.nil
  | cons q moduli ih =>
      rw [coprimeToLater, Bool.and_eq_true, beq_iff_eq] at h
      exact List.pairwise_cons.mpr
        ⟨fun p hp => Nat.Coprime.coprime_dvd_right (List.dvd_prod hp) h.1, ih h.2⟩

/-- A prime below `2^60` for transforms of the length `2^14`. -/
def widePrime (d : Nat) : Nat := 2 ^ 60 - d * 2 ^ 15 + 1

def wideBasis : List Nat :=
  [3, 5, 8, 27, 57, 201, 237, 248, 297, 300, 315, 332, 342, 363, 365, 377, 410, 428, 440, 477,
   483, 516, 573, 587, 620, 623, 635, 641, 650, 665, 683, 708, 762, 776, 783, 792, 795, 860, 861,
   872, 873, 888, 896, 915, 917, 941, 942, 953, 978, 1002, 1005, 1047, 1085, 1100, 1116, 1145,
   1146, 1160, 1172, 1182, 1221, 1247, 1260, 1272, 1301, 1313, 1316, 1328, 1347, 1370, 1407,
   1410, 1422, 1431, 1443, 1452, 1467, 1475, 1536, 1566, 1568, 1580, 1587, 1590, 1608, 1613,
   1646, 1656, 1673, 1695, 1706, 1722, 1733, 1797, 1826, 1865, 1877, 1883, 1952, 1988, 2013,
   2043, 2070, 2072, 2076, 2111, 2120, 2153, 2163, 2166, 2171, 2178, 2205, 2250, 2255, 2276,
   2288, 2307, 2313, 2351, 2381, 2411, 2423, 2447, 2460, 2478, 2523, 2546, 2547, 2586, 2598,
   2600, 2681, 2733, 2751, 2778, 2787, 2796, 2801, 2820, 2841, 2882, 2910, 2940, 2951, 2960,
   3008, 3015, 3021, 3036, 3048, 3063, 3090, 3092, 3135, 3137, 3140, 3141, 3146, 3153, 3233,
   3290, 3297, 3302, 3323, 3326, 3392, 3393, 3402, 3405, 3413, 3450, 3458, 3527, 3528, 3531,
   3542, 3548, 3563, 3597, 3608, 3620, 3653, 3671, 3707, 3746, 3851, 3867, 3875, 3888, 3906,
   3956, 3963, 3981, 4028, 4047, 4058, 4071, 4113, 4142, 4152, 4191, 4212, 4226, 4227, 4232,
   4236, 4295, 4305, 4308, 4367, 4392, 4400, 4421, 4436, 4457, 4571, 4581, 4583, 4595, 4598,
   4616, 4626, 4635, 4655, 4763, 4767, 4817, 4823, 4848, 4863, 4875, 4892, 4905, 4917, 4925,
   4956, 4982, 5016, 5031, 5033, 5051, 5060, 5076, 5111, 5123, 5172, 5180, 5181, 5208, 5243,
   5250, 5286, 5298, 5325, 5358, 5370, 5382, 5402, 5415, 5436, 5453, 5477, 5480, 5481, 5513,
   5570, 5607, 5615, 5628, 5645, 5666, 5670, 5715, 5720, 5733, 5747, 5753, 5757, 5771, 5778,
   5786, 5858, 5862, 5870, 5907, 5942, 5958, 5988, 6006, 6027, 6032, 6077, 6083, 6095, 6101,
   6105, 6116, 6126, 6135, 6143, 6186, 6192, 6206, 6210, 6215, 6242, 6252, 6321, 6371, 6396,
   6408, 6413, 6440, 6447, 6452, 6476, 6483, 6585, 6641, 6677, 6710, 6737, 6740, 6755, 6773,
   6780, 6795, 6801, 6837, 6891, 6956, 7010, 7013, 7022, 7050, 7077, 7097, 7130, 7136, 7143,
   7155, 7172, 7175, 7185, 7218, 7221, 7223, 7248, 7272, 7292, 7385, 7392, 7448, 7458, 7475,
   7487, 7491, 7496, 7503, 7505, 7530, 7578, 7580, 7596, 7613, 7677, 7715, 7728, 7755, 7782,
   7796, 7866, 7887, 7890, 7902, 7925, 7943, 7965, 7983, 7986, 8001, 8033, 8037, 8060, 8106,
   8117, 8118, 8202, 8205, 8208, 8216, 8225, 8231, 8340, 8342, 8355, 8361, 8370, 8417, 8418,
   8420, 8436, 8522, 8597, 8601, 8621, 8625, 8637, 8678, 8697, 8700, 8712, 8723, 8753, 8777,
   8783, 8817, 8883, 8895, 8936, 8943, 8946, 8981, 9020, 9033, 9047, 9066, 9068, 9105, 9111,
   9132, 9156, 9185, 9195, 9206, 9225, 9230, 9246, 9272, 9281, 9290, 9306, 9320, 9332, 9365,
   9423, 9443, 9483, 9497, 9506, 9563, 9573, 9596, 9618, 9650, 9668, 9671, 9686, 9702, 9720,
   9731, 9752, 9768, 9780, 9801, 9815, 9818, 9873, 9888, 9917, 9948, 9950, 9990, 10025, 10055,
   10067, 10076, 10100, 10106, 10125, 10128, 10142, 10175, 10193, 10211, 10245, 10266, 10295,
   10298, 10323, 10367, 10392, 10412, 10427, 10443, 10490, 10538, 10541, 10545].map widePrime

def wideTarget : Nat := widePrime 10575

/-- The number whose digits are all as large as they can be. -/
def wideNumber : Nat := digitNumber wideBasis fun i => wideBasis.getD i 1 - 1

def wideNumbers (_ : Nat) : Nat := wideNumber

theorem wideBasis_convertible : Convertible wideBasis [wideTarget] where
  coprime := pairwise_of_coprimeToLater (by decide +kernel)
  one_lt := by decide +kernel
  source_lt := by decide +kernel
  pos := by decide +kernel
  target_lt := by decide +kernel

theorem wideNumber_digits : BaseDigits wideBasis wideNumber (fun i => wideBasis.getD i 1 - 1) := by
  have hconv := wideBasis_convertible
  apply baseDigits_of_digits hconv.coprime hconv.one_lt
  intro i q hq
  have hone := hconv.one_lt q (List.mem_of_getElem? hq)
  rw [List.getD_eq_getElem?_getD, hq, Option.getD_some]
  omega

theorem wideNumber_accumulator (p : Nat) : accumulator wideBasis p wideNumber =
    (wideBasis.map fun q => (q - 1) * (wideBasis.prod / q % p)).sum := by
  have hconv := wideBasis_convertible
  rw [← Fin.sum_univ_fun_getElem, accumulator, Finset.sum_range]
  apply Finset.sum_congr rfl
  intro i _
  have hq := List.getElem?_eq_getElem i.isLt
  rw [(baseDigit_spec hconv.coprime hconv.one_lt).unique hconv.coprime hconv.one_lt
    wideNumber_digits hq, cofactor_eq hq, List.getD_eq_getElem?_getD, hq, Option.getD_some]

theorem wideNumber_loses : ¬ wideTarget ∣
    2 ^ 128 * (accumulator wideBasis wideTarget wideNumber / 2 ^ 128) := by
  rw [wideNumber_accumulator]
  decide +kernel

theorem wideNumber_lt : wideNumber < wideBasis.prod :=
  digitNumber_lt wideBasis_convertible.one_lt

theorem wideBasis_length : wideBasis.length = 500 := by
  rw [wideBasis, List.length_map]
  decide +kernel

theorem wideNumbers_eq (r : Nat) : wideNumbers r = wideNumber := rfl

/-- Five hundred moduli lose a carry, and the two paths return different towers. -/
theorem approxSwitchCRTBasis_wraps : Convertible wideBasis [wideTarget] ∧
    (forall r, r < 2 ^ 14 -> wideNumbers r < wideBasis.prod) ∧
    exists tables b c, switchTables wideBasis [wideTarget] = some tables ∧
    approxSwitchCRTBasis tables (2 ^ 14) 500 .COEFFICIENT
      (residuePolynomial wideBasis (2 ^ 14) wideNumbers) = some b ∧
    approxSwitchByTowers tables (2 ^ 14) 500 .COEFFICIENT
      (residuePolynomial wideBasis (2 ^ 14) wideNumbers) = some c ∧
    value b 0 0 ≠ value c 0 0 := by
  have hconv := wideBasis_convertible
  refine ⟨hconv, fun r _ => (wideNumbers_eq r).trans_lt wideNumber_lt, ?_⟩
  rcases exists_paths hconv wideBasis_length.le
    (residuePolynomial_wellFormed hconv.source_pos (2 ^ 14) wideNumbers)
    (fun r hr i q hq => residuePolynomial_value wideNumbers hr hq) with
    ⟨tables, b, c, htables, hb, hc, _, _, hvalues⟩
  refine ⟨tables, b, c, htables, hb, hc, ?_⟩
  rcases hvalues 0 (by norm_num) 0 wideTarget List.getElem?_cons_zero with ⟨hb0, hc0⟩
  rw [hb0, hc0, ne_eq, doubleWord_mod_eq_iff, wideNumbers_eq]
  exact wideNumber_loses

end DCRTPoly
end Hal
end OpenFHE
