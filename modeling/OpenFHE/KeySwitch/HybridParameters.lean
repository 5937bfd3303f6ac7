import OpenFHE.Core.BigInteger.ModInverse
import OpenFHE.Foundation.ChineseRemainder
import OpenFHE.KeySwitch.Gadget
import Mathlib.Data.ZMod.Basic
import Mathlib.Algebra.BigOperators.Group.List.Basic

/-!
# Parameters of hybrid key switching

The tables of `CryptoParametersRNS::PrecomputeCRTTables` that the hybrid
technique reads, as functions of the moduli.  The chain is cut into `numPartQ`
digits of `numPerPartQ` towers; at a lower level the last digit is partial.
-/

namespace OpenFHE
namespace KeySwitch

open OpenFHE.Core Foundation NativeInteger Hal

structure HybridParameters where
  ringDimension : Nat
  moduliQ : List Nat
  moduliP : List Nat
  numPartQ : Nat
  noiseScale : Nat
deriving DecidableEq, Repr

/-- `BigInteger::ModInverse`, which throws when there is no inverse. -/
def bigModInverse (a m : Nat) : Option Nat :=
  if Nat.gcd a m = 1 then some ((a : ZMod m)⁻¹).val else none

/-- The algorithm of the code finds this inverse. -/
theorem modInverse_eq_bigModInverse {a m : Nat} (hm : 1 < m) (hgcd : Nat.gcd a m = 1) :
    BigInteger.modInverse a m = bigModInverse a m := by
  rcases BigInteger.modInverse_spec hm hgcd with ⟨x, hx, hlt, hmul⟩
  rw [hx, bigModInverse, if_pos hgcd]
  congr 1
  have : NeZero m := ⟨by omega⟩
  have hone : (a : ZMod m) * x = 1 := by
    have hmod : a * x ≡ 1 [MOD m] := by
      rw [Nat.ModEq, hmul, Nat.mod_eq_of_lt hm]
    exact_mod_cast (ZMod.natCast_eq_natCast_iff _ _ m).mpr hmod
  rw [ZMod.inv_eq_of_mul_eq_one m _ _ hone, ZMod.val_cast_of_lt hlt]

namespace HybridParameters

variable (params : HybridParameters)

def sizeQ : Nat := params.moduliQ.length

def sizeP : Nat := params.moduliP.length

def moduliQP : List Nat := params.moduliQ ++ params.moduliP

def modulusP : Nat := params.moduliP.prod

def numPerPartQ : Nat := ceilDiv params.sizeQ params.numPartQ

/-- The distribution of towers into digits that does not throw. -/
def Distributes : Prop :=
  params.numPartQ ≠ 0 ∧ ¬ params.sizeQ <= params.numPerPartQ * (params.numPartQ - 1)

/-- `[P]_{q_i}`. -/
def pModq (i : Nat) : Option Nat := do
  let q <- params.moduliQ[i]?
  if q = 0 then none else some (params.modulusP % q)

def paramsPartQ (j : Nat) : Option (List Nat) :=
  if j < params.numPartQ then
    let a := params.numPerPartQ
    let startTower := j * a
    let endTower :=
      if (j + 1) * a - 1 < params.sizeQ then (j + 1) * a - 1 else params.sizeQ - 1
    if endTower < startTower ∨ endTower >= params.sizeQ then none
    else some ((params.moduliQ.drop startTower).take (endTower + 1 - startTower))
  else none

/-- The moduli of all towers but those of digit `j`, then the special moduli. -/
def paramsComplPartQ (l j : Nat) : Option (List Nat) := do
  let alpha := params.numPerPartQ
  let beta := ceilDiv (l + 1) alpha
  if ¬ j < beta then none
  let digitPartition <- params.paramsPartQ j
  let sizePartQj := if j = beta - 1 then (l + 1) - j * alpha else digitPartition.length
  let sizeComplPartQj := (l + 1) - sizePartQj + params.sizeP
  (List.range sizeComplPartQj).mapM fun k =>
    if k < (l + 1) - sizePartQj then do
      let currDigit := k / alpha
      let currDigit := if currDigit >= j then currDigit + 1 else currDigit
      let digit <- params.paramsPartQ currDigit
      digit[k % alpha]?
    else params.moduliP[k - ((l + 1) - sizePartQj)]?

/-- `[(Q^(l)_j / q_i)^{-1}]_{q_i}` for the first `sublvl + 1` towers of a digit. -/
def partQlHatInvModq (part sublvl : Nat) : Option (List Nat) := do
  let digit <- params.paramsPartQ part
  if ¬ sublvl < digit.length then none
  let towers := digit.take (sublvl + 1)
  towers.mapM fun q => bigModInverse (towers.prod / q) q

def partQlHatInvModqPrecon (part sublvl : Nat) : Option (List Nat) := do
  let digit <- params.paramsPartQ part
  let inverses <- params.partQlHatInvModq part sublvl
  (List.range inverses.length).mapM fun i => do
    let inv <- inverses[i]?
    let q <- digit[i]?
    prepModMulConst inv q

/-- `[Q^(l)_k / q_i]` modulo the towers of the complementary basis. -/
def partQlHatModp (l k : Nat) : Option (List (List Nat)) := do
  let alpha := params.numPerPartQ
  let beta := ceilDiv (l + 1) alpha
  if ¬ k < beta then none
  let paramsPartQ <- params.paramsPartQ k
  let digitSize := if k = beta - 1 then l + 1 - k * alpha else paramsPartQ.length
  let towers := paramsPartQ.take digitSize
  let complBasis <- params.paramsComplPartQ l k
  return towers.map fun q => complBasis.map fun p => towers.prod / q % p

def modComplPartqBarrettMu (l j : Nat) : Option (List Nat) := do
  let complBasis <- params.paramsComplPartQ l j
  return complBasis.map fun p => (1 <<< 128) / p

/-- The tables that raise digit `part` of a ciphertext with `l + 1` towers. -/
def switchTables (l part sizePartQl : Nat) : Option DCRTPoly.SwitchTables := do
  let moduli <- params.paramsComplPartQ l part
  let qHatInvModq <- params.partQlHatInvModq part (sizePartQl - 1)
  let qHatInvModqPrecon <- params.partQlHatInvModqPrecon part (sizePartQl - 1)
  let qHatModp <- params.partQlHatModp l part
  let modpBarrettMu <- params.modComplPartqBarrettMu l part
  return {
    moduli := moduli
    qHatInvModq := qHatInvModq
    qHatInvModqPrecon := qHatInvModqPrecon
    qHatModp := qHatModp
    modpBarrettMu := modpBarrettMu }

/-!
## Digits of a chain
-/

/-- The towers fit into the digits and every digit has a tower. -/
structure Valid : Prop where
  distributes : params.Distributes
  coprime : params.moduliQ.Pairwise Nat.Coprime
  modulus : forall q, q ∈ params.moduliQP -> Poly.NttModulus q

def digitCount (l : Nat) : Nat := ceilDiv (l + 1) params.numPerPartQ

def digitSize (l j : Nat) : Nat :=
  if j = params.digitCount l - 1 then (l + 1) - j * params.numPerPartQ
  else params.numPerPartQ

section Distributes

variable {params} (h : params.Distributes)

include h

theorem Distributes.numPartQ_pos : 0 < params.numPartQ :=
  Nat.pos_of_ne_zero h.1

theorem Distributes.lt_sizeQ : params.numPerPartQ * (params.numPartQ - 1) < params.sizeQ :=
  Nat.lt_of_not_le h.2

theorem Distributes.numPerPartQ_pos : 0 < params.numPerPartQ := by
  have hbounds := ceilDiv_bounds (a := params.sizeQ) h.numPartQ_pos
  have hlt := h.lt_sizeQ
  rcases Nat.eq_zero_or_pos params.numPerPartQ with h0 | hpos
  · have hzero : ceilDiv params.sizeQ params.numPartQ = 0 := h0
    rw [hzero, zero_mul] at hbounds
    omega
  · exact hpos

theorem Distributes.sizeQ_le : params.sizeQ <= params.numPartQ * params.numPerPartQ := by
  rw [mul_comm]
  exact (ceilDiv_bounds (a := params.sizeQ) h.numPartQ_pos).1

theorem Distributes.start_lt {j : Nat} (hj : j < params.numPartQ) :
    j * params.numPerPartQ < params.sizeQ := by
  refine lt_of_le_of_lt ?_ h.lt_sizeQ
  rw [mul_comm]
  exact Nat.mul_le_mul_left _ (by omega)

theorem Distributes.paramsPartQ_eq {j : Nat} (hj : j < params.numPartQ) :
    params.paramsPartQ j = some
      ((params.moduliQ.drop (j * params.numPerPartQ)).take params.numPerPartQ) := by
  have hpos := h.numPerPartQ_pos
  have hstart := h.start_lt hj
  unfold paramsPartQ
  rw [if_pos hj]
  dsimp only
  rw [add_mul, one_mul]
  split
  next hlt =>
      rw [if_neg (by omega)]
      congr 2
      omega
  next hge =>
      rw [if_neg (by omega)]
      congr 1
      have hlen : (params.moduliQ.drop (j * params.numPerPartQ)).length =
          params.sizeQ - j * params.numPerPartQ := List.length_drop
      rw [List.take_of_length_le (by omega), List.take_of_length_le (by omega)]

theorem Distributes.digitCount_le {l : Nat} (hl : l < params.sizeQ) :
    params.digitCount l <= params.numPartQ := by
  have hpos := h.numPerPartQ_pos
  have hbounds := (ceilDiv_bounds (a := l + 1) hpos).2
  have hsize := h.sizeQ_le
  by_contra hgt
  have hmul : (params.numPartQ + 1) * params.numPerPartQ <=
      ceilDiv (l + 1) params.numPerPartQ * params.numPerPartQ :=
    Nat.mul_le_mul_right _ (by unfold digitCount at hgt; omega)
  rw [add_mul, one_mul] at hmul
  omega

theorem Distributes.digit_bounds {l j : Nat} (hj : j < params.digitCount l) :
    j * params.numPerPartQ < l + 1 ∧
      (j = params.digitCount l - 1 -> l + 1 <= (j + 1) * params.numPerPartQ) ∧
      (j ≠ params.digitCount l - 1 -> (j + 1) * params.numPerPartQ < l + 1) := by
  have hpos := h.numPerPartQ_pos
  have hbounds := ceilDiv_bounds (a := l + 1) hpos
  change l + 1 <= params.digitCount l * _ ∧ params.digitCount l * _ < _ at hbounds
  have hlast : (params.digitCount l - 1) * params.numPerPartQ + params.numPerPartQ =
      params.digitCount l * params.numPerPartQ := by
    rw [← Nat.succ_mul, Nat.succ_eq_add_one, Nat.sub_add_cancel (by omega)]
  have hle : j * params.numPerPartQ <= (params.digitCount l - 1) * params.numPerPartQ :=
    Nat.mul_le_mul_right _ (by omega)
  refine ⟨by omega, ?_, ?_⟩
  · intro heq
    rw [heq, add_mul, one_mul]
    omega
  · intro hne
    have hle' : (j + 1) * params.numPerPartQ <=
        (params.digitCount l - 1) * params.numPerPartQ :=
      Nat.mul_le_mul_right _ (by omega)
    omega

theorem Distributes.digitSize_bounds {l j : Nat} (hj : j < params.digitCount l) :
    0 < params.digitSize l j ∧ params.digitSize l j <= params.numPerPartQ ∧
      j * params.numPerPartQ + params.digitSize l j <= l + 1 := by
  have hpos := h.numPerPartQ_pos
  rcases h.digit_bounds hj with ⟨hstart, hlast, hfull⟩
  rw [add_mul, one_mul] at hlast hfull
  unfold digitSize
  split
  next heq =>
      have hle := hlast heq
      omega
  next hne =>
      have hlt := hfull hne
      omega

omit h in
theorem partQ_getElem? {j i : Nat} (hi : i < params.numPerPartQ) :
    ((params.moduliQ.drop (j * params.numPerPartQ)).take params.numPerPartQ)[i]? =
      params.moduliQ[j * params.numPerPartQ + i]? := by
  rw [List.getElem?_take_of_lt hi, List.getElem?_drop]

/-- What the code computes for `sizePartQj` is the size of the digit. -/
theorem Distributes.sizePartQj_eq {l j : Nat} (hl : l < params.sizeQ)
    (hj : j < params.digitCount l) :
    (if j = ceilDiv (l + 1) params.numPerPartQ - 1 then
        (l + 1) - j * params.numPerPartQ
      else ((params.moduliQ.drop (j * params.numPerPartQ)).take
        params.numPerPartQ).length) = params.digitSize l j := by
  unfold digitSize
  rw [digitCount] at *
  split
  next heq => rfl
  next hne =>
      have hlt := (h.digit_bounds hj).2.2 hne
      rw [add_mul, one_mul] at hlt
      have hlen : params.moduliQ.length = params.sizeQ := rfl
      rw [List.length_take, List.length_drop, hlen]
      omega

theorem Distributes.paramsComplPartQ_spec {l j : Nat} (hl : l < params.sizeQ)
    (hj : j < params.digitCount l) :
    exists basis, params.paramsComplPartQ l j = some basis ∧
      basis.length = l + 1 - params.digitSize l j + params.sizeP ∧
      forall k q, basis[k]? = some q ->
        (k < j * params.numPerPartQ -> params.moduliQ[k]? = some q) ∧
        (j * params.numPerPartQ <= k -> k < l + 1 - params.digitSize l j ->
          params.moduliQ[k + params.digitSize l j]? = some q) ∧
        (l + 1 - params.digitSize l j <= k ->
          params.moduliP[k - (l + 1 - params.digitSize l j)]? = some q) := by
  have hpos := h.numPerPartQ_pos
  have hj' : j < params.numPartQ := lt_of_lt_of_le hj (h.digitCount_le hl)
  have hsize := h.digitSize_bounds hj
  have hbound := h.digit_bounds hj
  have hsizeQ : params.moduliQ.length = params.sizeQ := rfl
  have hsizeP : params.moduliP.length = params.sizeP := rfl
  have hceil : j < ceilDiv (l + 1) params.numPerPartQ := hj
  unfold paramsComplPartQ
  dsimp only
  rw [if_neg (not_not.mpr hceil), h.paramsPartQ_eq hj']
  simp only [Option.bind_eq_bind, Option.bind_some]
  rw [h.sizePartQj_eq hl hj]
  refine mapM_range_spec (fun k q =>
    (k < j * params.numPerPartQ -> params.moduliQ[k]? = some q) ∧
    (j * params.numPerPartQ <= k -> k < l + 1 - params.digitSize l j ->
      params.moduliQ[k + params.digitSize l j]? = some q) ∧
    (l + 1 - params.digitSize l j <= k ->
      params.moduliP[k - (l + 1 - params.digitSize l j)]? = some q)) ?_
  intro k hk
  split
  next hlt =>
      have hmod := Nat.mod_lt k hpos
      have hdiv := Nat.div_add_mod' k params.numPerPartQ
      by_cases hdigit : k / params.numPerPartQ >= j
      · have hge : j * params.numPerPartQ <= k := by
          calc
            j * params.numPerPartQ <= k / params.numPerPartQ * params.numPerPartQ :=
              Nat.mul_le_mul_right _ hdigit
            _ <= k := Nat.div_mul_le_self _ _
        have hfull : params.digitSize l j = params.numPerPartQ := by
          unfold digitSize
          split
          next heq =>
              have hle := hbound.2.1 heq
              rw [add_mul, one_mul] at hle
              unfold digitSize at hlt
              rw [if_pos heq] at hlt
              omega
          next hne => rfl
        have hnext : k / params.numPerPartQ + 1 < params.numPartQ := by
          have hsum := h.sizeQ_le
          have hmul : (k / params.numPerPartQ + 1) * params.numPerPartQ <
              params.numPartQ * params.numPerPartQ := by
            rw [add_mul, one_mul]
            omega
          exact Nat.lt_of_mul_lt_mul_right hmul
        have hentry : k + params.digitSize l j < params.moduliQ.length := by omega
        refine ⟨params.moduliQ[k + params.digitSize l j], ?_, ?_, ?_, ?_⟩
        · rw [if_pos hdigit, h.paramsPartQ_eq hnext, Option.bind_some, partQ_getElem? hmod,
            add_mul, one_mul]
          rw [show k / params.numPerPartQ * params.numPerPartQ + params.numPerPartQ +
            k % params.numPerPartQ = k + params.digitSize l j by omega]
          exact List.getElem?_eq_getElem hentry
        · intro hlow
          omega
        · intro _ _
          exact List.getElem?_eq_getElem hentry
        · intro hhigh
          omega
      · have hlow : k < j * params.numPerPartQ :=
          (Nat.div_lt_iff_lt_mul hpos).mp (Nat.lt_of_not_le hdigit)
        have hentry : k < params.moduliQ.length := by omega
        refine ⟨params.moduliQ[k], ?_, ?_, ?_, ?_⟩
        · rw [if_neg hdigit, h.paramsPartQ_eq (by omega), Option.bind_some,
            partQ_getElem? hmod, hdiv]
          exact List.getElem?_eq_getElem hentry
        · intro _
          exact List.getElem?_eq_getElem hentry
        · intro hge
          omega
        · intro hhigh
          omega
  next hge =>
      have hentry : k - (l + 1 - params.digitSize l j) < params.moduliP.length := by omega
      refine ⟨_, List.getElem?_eq_getElem hentry, ?_, ?_, ?_⟩
      · intro hlow
        omega
      · intro _ hlt
        omega
      · intro _
        exact List.getElem?_eq_getElem hentry

end Distributes

section Digit

variable {params} (h : params.Distributes) {l j : Nat} (hl : l < params.sizeQ)
  (hj : j < params.digitCount l)

include h hl hj

theorem Distributes.digit_length : params.digitSize l j <=
    ((params.moduliQ.drop (j * params.numPerPartQ)).take params.numPerPartQ).length := by
  have hsize := h.digitSize_bounds hj
  have hlen : params.moduliQ.length = params.sizeQ := rfl
  rw [List.length_take, List.length_drop, hlen]
  omega

theorem Distributes.paramsComplPartQ_subset {basis : List Nat}
    (hbasis : params.paramsComplPartQ l j = some basis) {q : Nat} (hq : q ∈ basis) :
    q ∈ params.moduliQP := by
  rcases h.paramsComplPartQ_spec hl hj with ⟨basis', hbasis', _, hget⟩
  rw [hbasis] at hbasis'
  rw [← Option.some.inj hbasis'] at hget
  rcases List.mem_iff_getElem?.mp hq with ⟨k, hk⟩
  rcases hget k q hk with ⟨hlow, hmid, hhigh⟩
  rcases Nat.lt_or_ge k (j * params.numPerPartQ) with hlt | hge
  · exact List.mem_append_left _ (List.mem_of_getElem? (hlow hlt))
  · rcases Nat.lt_or_ge k (l + 1 - params.digitSize l j) with hlt | hge'
    · exact List.mem_append_left _ (List.mem_of_getElem? (hmid hge hlt))
    · exact List.mem_append_right _ (List.mem_of_getElem? (hhigh hge'))

end Digit

/-!
## Tables of a digit
-/

section Tables

variable {params} (h : params.Valid) {l j : Nat} (hl : l < params.sizeQ)
  (hj : j < params.digitCount l)

include h hl hj

theorem Valid.partQlHatInvModq_spec :
    exists inverses, params.partQlHatInvModq j (params.digitSize l j - 1) = some inverses ∧
      inverses.length = params.digitSize l j := by
  have hj' : j < params.numPartQ := lt_of_lt_of_le hj (h.distributes.digitCount_le hl)
  have hlen := h.distributes.digit_length hl hj
  have hpos := (h.distributes.digitSize_bounds hj).1
  unfold partQlHatInvModq
  rw [h.distributes.paramsPartQ_eq hj']
  simp only [Option.bind_eq_bind, Option.bind_some]
  rw [if_neg (by omega), Nat.sub_add_cancel hpos]
  generalize hdigit : (params.moduliQ.drop (j * params.numPerPartQ)).take
    params.numPerPartQ = digit at hlen
  have hsub : (digit.take (params.digitSize l j)).Sublist params.moduliQ := by
    rw [← hdigit]
    exact (List.take_sublist _ _).trans
      ((List.take_sublist _ _).trans (List.drop_sublist _ _))
  rcases mapM_spec (l := digit.take (params.digitSize l j))
    (f := fun q => bigModInverse ((digit.take (params.digitSize l j)).prod / q) q)
    (fun _ _ => True)
    (by
      intro q hq
      refine ⟨_, if_pos (coprime_prod_div (h.coprime.sublist hsub) ?_ hq), trivial⟩
      intro p hp
      exact (h.modulus p (List.mem_append_left _ (hsub.subset hp))).one_lt) with
    ⟨inverses, hinverses, hlength, _⟩
  refine ⟨inverses, hinverses, ?_⟩
  rw [hlength, List.length_take]
  omega

theorem Valid.partQlHatInvModqPrecon_spec :
    exists precons, params.partQlHatInvModqPrecon j (params.digitSize l j - 1) =
        some precons ∧ precons.length = params.digitSize l j := by
  have hj' : j < params.numPartQ := lt_of_lt_of_le hj (h.distributes.digitCount_le hl)
  have hlen := h.distributes.digit_length hl hj
  rcases h.partQlHatInvModq_spec hl hj with ⟨inverses, hinverses, hlength⟩
  unfold partQlHatInvModqPrecon
  rw [h.distributes.paramsPartQ_eq hj', hinverses]
  simp only [Option.bind_eq_bind, Option.bind_some]
  rcases mapM_range_spec (n := inverses.length) (fun _ _ => True)
    (f := fun i => inverses[i]?.bind fun inv =>
      ((params.moduliQ.drop (j * params.numPerPartQ)).take params.numPerPartQ)[i]?.bind
        fun q => prepModMulConst inv q)
    (by
      intro i hi
      obtain ⟨q, hentry⟩ : exists q, ((params.moduliQ.drop (j * params.numPerPartQ)).take
          params.numPerPartQ)[i]? = some q :=
        ⟨_, List.getElem?_eq_getElem (by omega)⟩
      rw [List.getElem?_eq_getElem hi, hentry]
      simp only [Option.bind_some]
      have hmem : q ∈ params.moduliQ :=
        List.mem_of_mem_drop (List.mem_of_mem_take (List.mem_of_getElem? hentry))
      have hone := (h.modulus q (List.mem_append_left _ hmem)).one_lt
      exact ⟨_, if_neg (by omega), trivial⟩) with
    ⟨precons, hprecons, hprecon_length, _⟩
  exact ⟨precons, hprecons, hprecon_length.trans hlength⟩

theorem Valid.partQlHatModp_eq {basis : List Nat}
    (hbasis : params.paramsComplPartQ l j = some basis) :
    exists rows, params.partQlHatModp l j = some rows ∧
      rows.length = params.digitSize l j ∧
      forall row, row ∈ rows -> row.length = basis.length := by
  have hj' : j < params.numPartQ := lt_of_lt_of_le hj (h.distributes.digitCount_le hl)
  have hceil : j < ceilDiv (l + 1) params.numPerPartQ := hj
  have hlen := h.distributes.digit_length hl hj
  unfold partQlHatModp
  dsimp only
  rw [if_neg (not_not.mpr hceil), h.distributes.paramsPartQ_eq hj', hbasis]
  simp only [Option.bind_eq_bind, Option.bind_some]
  rw [h.distributes.sizePartQj_eq hl hj]
  refine ⟨_, rfl, ?_, ?_⟩
  · rw [List.length_map, List.length_take]
    omega
  · intro row hrow
    rcases List.mem_map.mp hrow with ⟨q, _, rfl⟩
    exact List.length_map _

theorem Valid.switchTables_spec :
    exists tables, params.switchTables l j (params.digitSize l j) = some tables ∧
      params.paramsComplPartQ l j = some tables.moduli ∧
      tables.Sized (params.digitSize l j) := by
  rcases h.distributes.paramsComplPartQ_spec hl hj with ⟨basis, hbasis, _, _⟩
  rcases h.partQlHatInvModq_spec hl hj with ⟨inverses, hinverses, hinverses_length⟩
  rcases h.partQlHatInvModqPrecon_spec hl hj with ⟨precons, hprecons, hprecons_length⟩
  rcases h.partQlHatModp_eq hl hj hbasis with ⟨rows, hrows, hrows_length, hrow⟩
  refine ⟨{
    moduli := basis
    qHatInvModq := inverses
    qHatInvModqPrecon := precons
    qHatModp := rows
    modpBarrettMu := basis.map fun p => (1 <<< 128) / p }, ?_, hbasis, ?_⟩
  · unfold switchTables modComplPartqBarrettMu
    rw [hbasis, hinverses, hprecons, hrows]
    rfl
  · refine ⟨hinverses_length.ge, hprecons_length.ge, hrows_length.ge, hrow,
      List.length_map _, ?_⟩
    intro q hq
    have hone := (h.modulus q (h.distributes.paramsComplPartQ_subset hl hj hbasis hq)).one_lt
    omega

end Tables

end HybridParameters

end KeySwitch
end OpenFHE
