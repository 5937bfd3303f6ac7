import OpenFHE.Encoding.SlotRotation
import OpenFHE.Core.Transform.Unreduced
import OpenFHE.Hal.AutomorphismTransform

/-!
# Packed encoding

`PackedEncoding` stores a vector of integers in the slots of a polynomial: the entries
modulo the plaintext modulus are permuted and transformed back into coefficients.
Decoding reads the slots again and takes the centered residues.  A thrown exception and
an access out of bounds are the value `none`.
-/

namespace OpenFHE
namespace Encoding

open OpenFHE.Core Foundation NativeInteger Hal

/-- The static maps at one plaintext modulus and one cyclotomic order. -/
structure PackingParams where
  perm : CRTPerm
  tables : Transform.TransformTables
deriving DecidableEq, Repr

/-- `SetParams_2n` for a prime modulus, with the tables of the transforms of its root. -/
def setParams2n (initRoot m modulus : Nat) : Option PackingParams := do
  let perm <- crtPerm m
  let tables <- Transform.preCompute initRoot m modulus
  return ⟨perm, tables⟩

/-- The element of a plaintext, by its type flag. -/
inductive Element where
  | IsNativePoly (encodedNativeVector : Poly)
  | IsDCRTPoly (encodedVectorDCRT : DCRTPoly)
deriving DecidableEq, Repr

structure PackedEncoding where
  value : List Int
  plaintextModulus : Nat
  scalingFactorInt : Nat
  noiseScaleDeg : Nat
  isEncoded : Bool
  element : Element
deriving DecidableEq, Repr

/-!
## Encoding
-/

/-- An entry of the vector modulo the plaintext modulus; a large one is an exception. -/
def encodeEntry (mod : Nat) (x : Int) : Option Nat :=
  if x.natAbs >= mod then none
  else if x < 0 then some (mod - x.natAbs)
  else some x.toNat

/-- The loop that raises the scaling factor to the noise scale degree. -/
def scalingPower (mod originalSF noiseScaleDeg : Nat) : Nat :=
  (fun scalingFactorInt => modMul scalingFactorInt originalSF mod)^[noiseScaleDeg - 1] originalSF

/-- The vector `tempVector` before it is packed; a store past its end is out of bounds. -/
def scaledSlots (mod ringDimension scalingFactorInt : Nat) (value : List Int) :
    Option (List Nat) :=
  if ringDimension < value.length then none
  else do
    let entries <- value.mapM (encodeEntry mod)
    let tempVector := entries ++ List.replicate (ringDimension - value.length) 0
    if scalingFactorInt ≠ 1 then NativeVector.modMulScalar mod tempVector scalingFactorInt
    else some tempVector

/-- Position `i` of the result is the position of `xs` that the table names. -/
def permute (table xs : List Nat) : Option (List Nat) :=
  (List.range xs.length).mapM fun i => table[i]?.bind fun p => xs[p]?

def packNativeVector (params : PackingParams) (modulus m : Nat) (values : List Nat) :
    Option (List Nat) := do
  let slots <-
    if params.perm.toCRTPerm.length > 0 then permute params.perm.toCRTPerm values
    else some values
  Transform.inverseTransform modulus m params.tables slots

/-- The packed vector becomes the coefficients of a polynomial with its own modulus. -/
def storePacked (params : PackingParams) (mod : Nat) (tempVector : List Nat) (p : Poly) :
    Option Poly :=
  if p.modulus < mod then none
  else
    (packNativeVector params mod (2 * p.values.length) tempVector).map fun values =>
      { p with format := .COEFFICIENT, values := values }

/-- The element with the packed vector; the other limbs take the residues of the first. -/
def Element.store (cache : Poly.TableCache) (params : PackingParams) (mod : Nat)
    (tempVector : List Nat) : Element -> Option Element
  | .IsNativePoly p => (storePacked params mod tempVector p).map .IsNativePoly
  | .IsDCRTPoly [] => none
  | .IsDCRTPoly (first :: rest) => do
      let firstElement <- storePacked params mod tempVector first
      let limbs := rest.map fun p => Poly.switchModulus firstElement p.modulus
      let encoded <- DCRTPoly.setFormat cache (firstElement :: limbs) .EVALUATION
      return .IsDCRTPoly encoded

def Element.ringDimension : Element -> Nat
  | .IsNativePoly p => p.values.length
  | .IsDCRTPoly x => x.head?.elim 0 fun p => p.values.length

def PackedEncoding.encode (cache : Poly.TableCache) (params : PackingParams)
    (a : PackedEncoding) : Option PackedEncoding :=
  if a.isEncoded then some a
  else do
    let mod := a.plaintextModulus
    let scalingFactorInt := scalingPower mod a.scalingFactorInt a.noiseScaleDeg
    let tempVector <- scaledSlots mod a.element.ringDimension scalingFactorInt a.value
    let element <- a.element.store cache params mod tempVector
    return { a with
      scalingFactorInt := scalingFactorInt
      isEncoded := true
      element := element }

/-!
## Decoding
-/

/-- `Unpack`, which reads the coefficients as they are. -/
def unpack (params : PackingParams) (modulus : Nat) (ring : Poly) : Option Poly := do
  let permutedSlots <- Transform.forwardShoup modulus ring.values
    params.tables.rootOfUnityReverseTable params.tables.rootOfUnityPreconReverseTable
    (List.replicate ring.values.length 0)
  let packedVector <-
    if params.perm.fromCRTPerm.length > 0 then permute params.perm.fromCRTPerm permutedSlots
    else some permutedSlots
  return { ring with format := .COEFFICIENT, values := packedVector }

def modByTwo (modulus : Nat) (a : List Nat) : List Nat :=
  a.map fun v => 0x1 &&& (v ^^^ (if v > modulus >>> 1 then 1 else 0))

/-- `Mod` of a polynomial, which keeps its modulus. -/
def polyMod (a : Poly) (modulus : Nat) : Poly :=
  { a with
    values :=
      if modulus = 2 then modByTwo a.modulus a.values
      else NativeVector.switchModulus a.modulus modulus a.values }

def fillVec (poly : Poly) (mod : Nat) : List Int :=
  poly.values.map fun x => if x > mod / 2 then (x : Int) - mod else x

def decodeValues (params : PackingParams) (ptm scfInv : Nat) (p : Poly) : Option (List Int) := do
  let ring <- unpack params ptm p
  let firstElement <- Poly.timesInteger ring scfInv
  return fillVec (polyMod firstElement ptm) ptm

def setValuesToZero (p : Poly) : Poly := { p with values := List.replicate p.values.length 0 }

def PackedEncoding.decode (params : PackingParams) (a : PackedEncoding) :
    Option PackedEncoding := do
  let ptm := a.plaintextModulus
  let scfInv <- modInverse a.scalingFactorInt ptm
  match a.element with
  | .IsNativePoly p =>
      let value <- decodeValues params ptm scfInv p
      return { a with
        value := value
        element := .IsNativePoly { setValuesToZero p with format := .COEFFICIENT } }
  | .IsDCRTPoly x =>
      let firstElement <- x[0]?
      let value <- decodeValues params ptm scfInv firstElement
      return { a with value := value, element := .IsDCRTPoly (x.map setValuesToZero) }

/-!
## Packing and unpacking
-/

/-- What the static maps hold for a root of order `2 ^ (d + 2)`. -/
structure PackingReady (d t psi : Nat) (params : PackingParams) : Prop where
  modulus : Poly.NttModulus t
  tables : Transform.TablesSpec (d + 1) psi t params.tables
  root : (psi : ZMod t) ^ 2 ^ (d + 1) = -1
  to_length : params.perm.toCRTPerm.length = 2 ^ (d + 1)
  from_length : params.perm.fromCRTPerm.length = 2 ^ (d + 1)
  get : forall j, j < 2 ^ (d + 1) ->
    params.perm.fromCRTPerm[j]? = some (slotPosition d j) ∧
      params.perm.toCRTPerm[slotPosition d j]? = some j

theorem setParams2n_spec {d t psi : Nat} (hd : d + 1 <= 24) (ht : Poly.NttModulus t)
    (hpsi : psi < t) (hroot : (psi : ZMod t) ^ 2 ^ (d + 1) = -1) :
    exists params, setParams2n psi (2 ^ (d + 2)) t = some params ∧
      PackingReady d t psi params := by
  have hunit : IsUnit ((psi : ZMod t) ^ 2 ^ (d + 1)) := by
    rw [hroot]
    exact isUnit_one.neg
  have hcoprime : Nat.gcd psi t = 1 :=
    (ZMod.isUnit_iff_coprime psi t).mp ((isUnit_pow_iff (by positivity)).mp hunit)
  rcases crtPerm_spec hd with ⟨perm, hperm, hto, hfrom, hget⟩
  rcases Transform.preCompute_spec ht.odd ht.one_lt ht.lt (Nat.succ_pos d) hd hpsi hcoprime with
    ⟨tables, htables, hspec⟩
  refine ⟨⟨perm, tables⟩, ?_, ht, hspec, hroot, hto, hfrom, hget⟩
  rw [← pow_succ'] at htables
  unfold setParams2n
  rw [hperm, htables]
  rfl

/-- The slots of a polynomial with the given coefficients. -/
def slotValue {t : Nat} (d psi : Nat) (f : Nat -> ZMod t) (i : Nat) : ZMod t :=
  stageArray f psi 1 (d + 1) (slotPosition d i)

theorem exists_slotPosition {d p : Nat} (hp : p < 2 ^ (d + 1)) :
    exists j, j < 2 ^ (d + 1) ∧ slotPosition d j = p := by
  have hsurj : Set.SurjOn (slotPosition d) (Finset.range (2 ^ (d + 1)))
      (Finset.range (2 ^ (d + 1))) := by
    apply Finset.surjOn_of_injOn_of_card_le _ ?_ ?_ le_rfl
    · intro j _
      exact Finset.mem_coe.mpr (Finset.mem_range.mpr (slotPosition_lt j))
    · intro j hj j' hj' heq
      exact slotPosition_injOn (Finset.mem_range.mp (Finset.mem_coe.mp hj))
        (Finset.mem_range.mp (Finset.mem_coe.mp hj')) heq
  rcases hsurj (Finset.mem_coe.mpr (Finset.mem_range.mpr hp)) with ⟨j, hj, heq⟩
  exact ⟨j, Finset.mem_range.mp (Finset.mem_coe.mp hj), heq⟩

section Pack

variable {d t psi : Nat} {params : PackingParams} (h : PackingReady d t psi params)

include h

theorem packNativeVector_spec (hd : d + 1 <= 24) {g : Nat -> ZMod t} {values : List Nat}
    (hvalues : Holds t (2 ^ (d + 1)) g values) :
    exists f coefficients, packNativeVector params t (2 * 2 ^ (d + 1)) values =
        some coefficients ∧ Holds t (2 ^ (d + 1)) f coefficients ∧
      forall i, i < 2 ^ (d + 1) -> slotValue d psi f i = g i := by
  have hone := h.modulus.one_lt
  have hlength := hvalues.length_eq
  rcases mapM_range_spec (n := values.length)
    (f := fun i => params.perm.toCRTPerm[i]?.bind fun p => values[p]?)
    (fun p x => exists j, j < 2 ^ (d + 1) ∧ slotPosition d j = p ∧ Represents t (g j) x) (by
      intro p hp
      rw [hlength] at hp
      rcases exists_slotPosition hp with ⟨j, hj, rfl⟩
      rcases hvalues.residues.exists_entry hj with ⟨x, hx, _⟩
      refine ⟨x, ?_, j, hj, rfl, hvalues.get j x hx⟩
      rw [(h.get j hj).2]
      exact hx) with ⟨slots, hslots, hcount, hget⟩
  have hresidues : Residues (2 ^ (d + 1)) t slots := by
    refine ⟨hcount.trans hlength, ?_⟩
    intro x hx
    rcases List.mem_iff_getElem?.mp hx with ⟨p, hp⟩
    rcases hget p x hp with ⟨_, _, _, hrep⟩
    exact hrep.1
  rcases Transform.exists_coefficients (Nat.succ_pos d) h.modulus.lt (by omega) h.tables h.root
    (by omega) hresidues with ⟨f, hf⟩
  rcases Transform.inverseTransform_eq (Nat.succ_pos d) h.modulus.lt (by omega) h.tables h.root
    (by omega) hf with ⟨coefficients, hrun, hholds⟩
  refine ⟨f, coefficients, ?_, hholds, ?_⟩
  · unfold packNativeVector permute
    rw [if_pos (by rw [h.to_length]; exact Nat.two_pow_pos _), hslots]
    exact hrun
  · intro i hi
    rcases hresidues.exists_entry (slotPosition_lt (d := d) i) with ⟨x, hx, _⟩
    rcases hget _ x hx with ⟨j, hj, heq, hrep⟩
    rw [slotPosition_injOn hj hi heq] at hrep
    rw [slotValue, ← (hf.get _ x hx).2, hrep.2]

theorem unpack_spec {bound : Nat} (hbound : t <= bound + 1) (hword : bound < 2 ^ 60)
    {f : Nat -> ZMod t} {p : Poly}
    (hp : Transform.HoldsUpTo t bound (2 ^ (d + 1)) f p.values) :
    exists r, unpack params t p = some r ∧ r.modulus = p.modulus ∧
      Transform.HoldsUpTo t bound (2 ^ (d + 1)) (slotValue d psi f) r.values := by
  have hone := h.modulus.one_lt
  have hresult : (List.replicate p.values.length 0).length = 2 ^ (d + 1) := by
    rw [List.length_replicate, hp.length_eq]
  rcases Transform.forwardShoup_stands (Nat.succ_pos d) h.modulus.lt (by omega) hbound hword
    h.tables h.root hp hresult with ⟨permuted, hrun, hpermuted⟩
  rcases mapM_range_spec (n := permuted.length)
    (f := fun i => params.perm.fromCRTPerm[i]?.bind fun p => permuted[p]?)
    (fun i x => Transform.Stands t bound (slotValue d psi f i) x) (by
      intro i hi
      rw [hpermuted.length_eq] at hi
      have hread := List.getElem?_eq_getElem (l := permuted) (i := slotPosition d i) (by
        rw [hpermuted.length_eq]
        exact slotPosition_lt i)
      refine ⟨_, ?_, hpermuted.get _ _ hread⟩
      rw [(h.get i hi).1]
      exact hread) with ⟨packed, hpacked, hcount, hget⟩
  refine ⟨{ p with format := .COEFFICIENT, values := packed }, ?_, rfl,
    hcount.trans hpermuted.length_eq, hget⟩
  unfold unpack permute
  rw [hrun]
  simp only [Option.bind_eq_bind, Option.bind_some]
  rw [if_pos (by rw [h.from_length]; exact Nat.two_pow_pos _), hpacked]
  rfl

end Pack

/-!
## Centered residues
-/

/-- A scaled word modulo `q` keeps its residue modulo a divisor, or when it does not wrap. -/
theorem centered_mod_cast {q t x : Nat} (hq : 0 < q) (h : t ∣ q ∨ 2 * x <= q) :
    ((NativeVector.centered q (x % q) : Int) : ZMod t) = x := by
  unfold NativeVector.centered
  cases h with
  | inl hdvd =>
      have hzero : (q : ZMod t) = 0 := (ZMod.natCast_eq_zero_iff q t).mpr hdvd
      have hmod : ((x % q : Nat) : ZMod t) = x := by
        rw [ZMod.natCast_eq_natCast_iff', Nat.mod_mod_of_dvd _ hdvd]
      split
      next => rw [Int.cast_sub, Int.cast_natCast, Int.cast_natCast, hmod, hzero, sub_zero]
      next => rw [Int.cast_natCast, hmod]
  | inr hsmall =>
      rw [Nat.mod_eq_of_lt (by omega), if_neg (by rw [Nat.shiftRight_eq_div_pow]; omega),
        Int.cast_natCast]

theorem centered_eq {t x : Nat} (hodd : t % 2 = 1) {w : Int} (hw : 2 * w.natAbs <= t)
    (hx : Represents t (w : ZMod t) x) : (if x > t / 2 then (x : Int) - t else x) = w := by
  have hlt := hx.1
  have hmod : (x : Int) = w % t := by
    have hcast : (((x : Int)) : ZMod t) = (w : ZMod t) := by
      rw [Int.cast_natCast, hx.2]
    have heq := (ZMod.intCast_eq_intCast_iff' (x : Int) w t).mp hcast
    rwa [Int.emod_eq_of_lt (by omega) (by omega)] at heq
  rcases le_or_gt 0 w with hpos | hneg
  · rw [Int.emod_eq_of_lt hpos (by omega)] at hmod
    rw [if_neg (by omega), hmod]
  · rw [← Int.add_emod_right, Int.emod_eq_of_lt (by omega) (by omega)] at hmod
    rw [if_pos (by omega), hmod]
    omega

theorem fillVec_eq {t n : Nat} (hodd : t % 2 = 1) {p : Poly} {w : Nat -> Int}
    (hw : forall i, i < n -> 2 * (w i).natAbs <= t)
    (hp : Holds t n (fun i => (w i : ZMod t)) p.values) :
    fillVec p t = (List.range n).map w := by
  apply List.ext_getElem
  · rw [fillVec, List.length_map, List.length_map, List.length_range, hp.length_eq]
  · intro i hi hi'
    rw [List.length_map, List.length_range] at hi'
    rw [fillVec, List.length_map] at hi
    have hread := hp.get i _ (List.getElem?_eq_getElem hi)
    simp only [fillVec, List.getElem_map, List.getElem_range]
    exact centered_eq hodd (hw i hi') hread

theorem modMulScalar_words {q c : Nat} (hq : q < 2 ^ 60) (hc : c < q) {a : List Nat}
    (ha : forall x, x ∈ a -> x < 2 ^ maxBits) :
    NativeVector.modMulScalar q a c = some (a.map fun x => x * c % q) := by
  unfold NativeVector.modMulScalar
  dsimp only
  rw [if_neg (by omega), prepModMulConst_eq (by simp only [maxBits]; omega) hc]
  apply congrArg some
  apply List.map_congr_left
  intro x hx
  exact modMulFastConst_eq (by omega) hc (ha x hx)

section Decode

variable {d t psi : Nat} {params : PackingParams} (h : PackingReady d t psi params)

include h

theorem decodeValues_eq {q bound s : Nat} (htq : t <= q) (hq : q < 2 ^ 60)
    (hbound : t <= bound + 1) (hword : bound < 2 ^ 60) (hs : s < t)
    (hwraps : t ∣ q ∨ 2 * (bound * s) <= q) {f : Nat -> ZMod t} {p : Poly}
    (hmodulus : p.modulus = q) (hp : Transform.HoldsUpTo t bound (2 ^ (d + 1)) f p.values)
    {w : Nat -> Int} (hsmall : forall i, i < 2 ^ (d + 1) -> 2 * (w i).natAbs <= t)
    (hslots : forall i, i < 2 ^ (d + 1) -> (w i : ZMod t) = slotValue d psi f i * s) :
    decodeValues params t s p = some ((List.range (2 ^ (d + 1))).map w) := by
  have hone := h.modulus.one_lt
  have hodd := h.modulus.odd
  rcases unpack_spec h hbound hword hp with ⟨ring, hring, hringMod, hringHolds⟩
  have hwords : forall x, x ∈ ring.values -> x < 2 ^ maxBits := by
    intro x hx
    rcases List.mem_iff_getElem?.mp hx with ⟨i, hi⟩
    have hle := (hringHolds.get i x hi).1
    simp only [maxBits]
    omega
  have hmul : Poly.timesInteger ring s =
      some { ring with values := ring.values.map fun x => x * s % q } := by
    rw [Poly.timesInteger, hringMod, hmodulus, modMulScalar_words hq (by omega) hwords,
      Option.map_some]
  have hresidues : Residues (2 ^ (d + 1)) q (ring.values.map fun x => x * s % q) := by
    refine ⟨by rw [List.length_map, hringHolds.length_eq], ?_⟩
    intro y hy
    rcases List.mem_map.mp hy with ⟨x, _, rfl⟩
    exact Nat.mod_lt _ (by omega)
  have hswitch := NativeVector.switchModulus_spec (lt_trans hq (by decide)) (by omega)
    (by omega : 0 < t) hresidues
  have hholds : Holds t (2 ^ (d + 1)) (fun i => (w i : ZMod t))
      (NativeVector.switchModulus q t (ring.values.map fun x => x * s % q)) := by
    apply hswitch.congr
    intro i hi
    have hrange : i < ring.values.length := by
      rw [hringHolds.length_eq]
      exact hi
    have hread := List.getElem?_eq_getElem hrange
    have hstands := hringHolds.get i _ hread
    have hxs : t ∣ q ∨ 2 * (ring.values[i] * s) <= q := by
      rcases hwraps with hdvd | hle
      · exact Or.inl hdvd
      · have hprod := Nat.mul_le_mul_right s hstands.1
        omega
    rw [List.getD_eq_getElem?_getD, List.getElem?_map, hread, Option.map_some, Option.getD_some,
      centered_mod_cast (by omega) hxs, hslots i hi, Nat.cast_mul, hstands.2]
  unfold decodeValues
  rw [hring]
  simp only [Option.bind_eq_bind, Option.bind_some, hmul]
  congr 1
  unfold polyMod
  rw [if_neg (by omega), hringMod, hmodulus]
  exact fillVec_eq hodd hsmall hholds

end Decode

end Encoding
end OpenFHE
