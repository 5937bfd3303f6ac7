import OpenFHE.Encoding.PackedEncoding
import Mathlib.Data.List.Rotate

/-!
# The round trip of the packed encoding

The slots of an encoded vector are read back by decoding, and the automorphisms of the
rotation indices move them within and between the two rows.
-/

namespace OpenFHE
namespace Encoding

open OpenFHE.Core Foundation NativeInteger Hal

/-!
## The encoded polynomial
-/

def padded (n : Nat) (v : List Int) : List Int := v ++ List.replicate (n - v.length) 0

theorem padded_eq_map {n : Nat} {v : List Int} (hv : v.length <= n) :
    padded n v = (List.range n).map fun i => v.getD i 0 := by
  apply List.ext_getElem?
  intro i
  simp only [padded, List.getElem?_append, List.getElem?_replicate, List.getElem?_map,
    List.getD_eq_getElem?_getD]
  rcases Nat.lt_or_ge i v.length with hlow | hhigh
  · rw [if_pos hlow, List.getElem?_range (by omega), Option.map_some,
      List.getElem?_eq_getElem hlow, Option.getD_some]
  · rw [if_neg (by omega)]
    rcases Nat.lt_or_ge i n with hi | hi
    · rw [if_pos (by omega), List.getElem?_range hi, Option.map_some,
        List.getElem?_eq_none hhigh, Option.getD_none]
    · rw [if_neg (by omega), List.getElem?_eq_none (by rwa [List.length_range]), Option.map_none]

theorem encodeEntry_spec {t : Nat} {x : Int} (hx : x.natAbs < t) :
    exists y, encodeEntry t x = some y ∧ Represents t (x : ZMod t) y := by
  unfold encodeEntry
  rw [if_neg (by omega)]
  split
  next hneg =>
      refine ⟨_, rfl, by omega, ?_⟩
      have hcast : ((t - x.natAbs : Nat) : Int) = x + t := by omega
      rw [← Int.cast_natCast, hcast, Int.cast_add, Int.cast_natCast, ZMod.natCast_self, add_zero]
  next hpos =>
      refine ⟨_, rfl, by omega, ?_⟩
      rw [← Int.cast_natCast, Int.toNat_of_nonneg (by omega)]

theorem scalingPower_cast {t : Nat} (ht : 0 < t) (hword : t < 2 ^ maxBits) (sf deg : Nat) :
    (scalingPower t sf deg : ZMod t) = (sf : ZMod t) ^ (deg - 1 + 1) := by
  unfold scalingPower
  induction deg - 1 with
  | zero => rw [Function.iterate_zero_apply, zero_add, pow_one]
  | succ c ih =>
      rw [Function.iterate_succ_apply', modMul_eq ht hword, ZMod.natCast_mod, Nat.cast_mul, ih,
        ← pow_succ]

theorem scalingPower_coprime {t : Nat} (ht : 0 < t) (hword : t < 2 ^ maxBits) {sf : Nat}
    (hsf : Nat.gcd sf t = 1) (deg : Nat) : Nat.gcd (scalingPower t sf deg) t = 1 := by
  have hunit : IsUnit (scalingPower t sf deg : ZMod t) := by
    rw [scalingPower_cast ht hword]
    exact ((ZMod.isUnit_iff_coprime sf t).mpr hsf).pow _
  exact (ZMod.isUnit_iff_coprime _ t).mp hunit

theorem scaledSlots_spec {t n : Nat} (ht : 1 < t) (hlt : t < 2 ^ 60) (sf : Nat) {v : List Int}
    (hlength : v.length <= n) (hv : forall x, x ∈ v -> x.natAbs < t) :
    exists temp, scaledSlots t n sf v = some temp ∧
      Holds t n (fun i => ((v.getD i 0 : Int) : ZMod t) * sf) temp := by
  rcases mapM_spec (f := encodeEntry t) (fun x y => Represents t (x : ZMod t) y)
    (fun x hx => encodeEntry_spec (hv x hx)) with ⟨entries, hentries, hcount, hget⟩
  have hholds : Holds t n (fun i => ((v.getD i 0 : Int) : ZMod t))
      (entries ++ List.replicate (n - v.length) 0) := by
    constructor
    case length_eq =>
      rw [List.length_append, List.length_replicate, hcount]
      omega
    case get =>
      intro i y hy
      rw [List.getElem?_append, hcount] at hy
      rw [List.getD_eq_getElem?_getD]
      split at hy
      next hi =>
          rw [List.getElem?_eq_getElem hi, Option.getD_some]
          exact hget i _ y (List.getElem?_eq_getElem hi) hy
      next hi =>
          rw [List.getElem?_replicate] at hy
          split at hy
          · cases hy
            rw [List.getElem?_eq_none (by omega), Option.getD_none, Int.cast_zero]
            exact ⟨by omega, Nat.cast_zero⟩
          · cases hy
  unfold scaledSlots
  rw [if_neg (by omega), hentries]
  simp only [Option.bind_eq_bind, Option.bind_some]
  split
  next hscaled => exact NativeVector.modMulScalar_spec hlt (by omega) sf hholds
  next hone =>
      rw [not_not.mp hone]
      refine ⟨_, rfl, hholds.congr ?_⟩
      intro i _
      rw [Nat.cast_one, mul_one]

section Encode

variable {d t psi : Nat} (hd : d + 1 <= 24) {params : PackingParams}
  (h : PackingReady d t psi params)

include hd h

theorem storePacked_spec {sf : Nat} {v : List Int} {temp : List Nat}
    (htemp : Holds t (2 ^ (d + 1)) (fun i => ((v.getD i 0 : Int) : ZMod t) * sf) temp) {p : Poly}
    (hlength : p.values.length = 2 ^ (d + 1)) (hmodulus : t <= p.modulus) :
    exists f b, storePacked params t temp p = some b ∧ b.modulus = p.modulus ∧
      b.format = .COEFFICIENT ∧ Holds t (2 ^ (d + 1)) f b.values ∧
      forall i, i < 2 ^ (d + 1) ->
        slotValue d psi f i = ((v.getD i 0 : Int) : ZMod t) * sf := by
  rcases packNativeVector_spec h hd htemp with ⟨f, coefficients, hpack, hholds, hslots⟩
  refine ⟨f, { p with format := .COEFFICIENT, values := coefficients }, ?_, rfl, rfl, hholds,
    hslots⟩
  rw [storePacked, if_neg (by omega), hlength, hpack]
  rfl

end Encode

/-!
## The rows
-/

def rotateRows {α : Type _} (d : Nat) (k : Int) (xs : List α) : List α :=
  let amount := (k % (2 ^ d : Nat)).toNat
  (xs.take (2 ^ d)).rotate amount ++ (xs.drop (2 ^ d)).rotate amount

def swapRows {α : Type _} (d : Nat) (xs : List α) : List α := xs.drop (2 ^ d) ++ xs.take (2 ^ d)

theorem range_map_split {α : Type _} (d : Nat) (w : Nat -> α) :
    (List.range (2 ^ (d + 1))).map w =
      (List.range (2 ^ d)).map w ++ (List.range (2 ^ d)).map fun i => w (i + 2 ^ d) := by
  rw [pow_succ, mul_two, List.range_add, List.map_append, List.map_map]
  congr 1
  apply List.map_congr_left
  intro i _
  rw [Function.comp_apply, Nat.add_comm]

theorem rotate_range_map {α : Type _} (n : Nat) (w : Nat -> α) (c : Nat) :
    ((List.range n).map w).rotate c = (List.range n).map fun i => w ((i + c) % n) := by
  apply List.ext_getElem?
  intro i
  rcases Nat.lt_or_ge i n with hi | hi
  · have hrange : i < ((List.range n).map w).length := by
      rwa [List.length_map, List.length_range]
    rw [List.getElem?_rotate hrange, List.getElem?_map, List.getElem?_map, List.length_map,
      List.length_range, List.getElem?_range hi, List.getElem?_range (Nat.mod_lt _ (by omega))]
    rfl
  · rw [List.getElem?_eq_none, List.getElem?_eq_none]
    · rwa [List.length_map, List.length_range]
    · rwa [List.length_rotate, List.length_map, List.length_range]

theorem add_emod_toNat (d i : Nat) (k : Int) :
    (((i : Int) + k) % (2 ^ d : Nat)).toNat = (i + (k % (2 ^ d : Nat)).toNat) % 2 ^ d := by
  have hpos := Nat.two_pow_pos d
  have hnonneg := Int.emod_nonneg k (show ((2 ^ d : Nat) : Int) ≠ 0 by omega)
  rw [← Int.add_emod_emod, ← Int.toNat_of_nonneg hnonneg, ← Int.natCast_add, ← Int.natCast_mod,
    Int.toNat_natCast, Int.toNat_natCast]

theorem rotateRows_map {α : Type _} (d : Nat) (k : Int) (w : Nat -> α) :
    rotateRows d k ((List.range (2 ^ (d + 1))).map w) =
      (List.range (2 ^ (d + 1))).map fun i => w (rotatedSlot d k i) := by
  have hlen : ((List.range (2 ^ d)).map w).length = 2 ^ d := by
    rw [List.length_map, List.length_range]
  unfold rotateRows
  dsimp only
  rw [range_map_split, range_map_split, List.take_left' hlen, List.drop_left' hlen,
    rotate_range_map, rotate_range_map]
  congr 1
  · apply List.map_congr_left
    intro i hi
    rw [rotatedSlot, if_pos (List.mem_range.mp hi), Nat.zero_add, add_emod_toNat]
  · apply List.map_congr_left
    intro i hi
    rw [rotatedSlot, if_neg (by omega), Nat.add_comm (2 ^ d), add_emod_toNat, Nat.add_right_comm,
      Nat.add_mod_right]

theorem swapRows_map {α : Type _} (d : Nat) (w : Nat -> α) :
    swapRows d ((List.range (2 ^ (d + 1))).map w) =
      (List.range (2 ^ (d + 1))).map fun i => w (otherRow d i) := by
  have hlen : ((List.range (2 ^ d)).map w).length = 2 ^ d := by
    rw [List.length_map, List.length_range]
  rw [swapRows, range_map_split, range_map_split, List.take_left' hlen, List.drop_left' hlen]
  congr 1
  · apply List.map_congr_left
    intro i hi
    rw [otherRow, if_pos (List.mem_range.mp hi)]
  · apply List.map_congr_left
    intro i hi
    rw [otherRow, if_neg (by omega), Nat.add_sub_cancel]

/-!
## Automorphisms of the encoded polynomial
-/

section Move

variable {d t q psi : Nat} (hd : d + 1 <= 24) {params : PackingParams}
  (h : PackingReady d t psi params) (htq : t <= q) (hq : q < 2 ^ 60) (hdvd : t ∣ q)

include hd h htq hq hdvd

theorem automorphismTransform_slots {f : Nat -> ZMod t} {b : Poly} (hmodulus : b.modulus = q)
    (hformat : b.format = .COEFFICIENT) (hb : Holds t (2 ^ (d + 1)) f b.values)
    (u : (ZMod (2 ^ (d + 2)))ˣ) :
    exists c g, Poly.automorphismTransform (u : ZMod (2 ^ (d + 2))).val b = some c ∧
      c.modulus = q ∧ Transform.HoldsUpTo t q (2 ^ (d + 1)) g c.values ∧
      forall i j, slotUnit d j = slotUnit d i * u -> slotValue d psi g i = slotValue d psi f j := by
  have hodd := val_odd u
  have hzero : (q : ZMod t) = 0 := (ZMod.natCast_eq_zero_iff q t).mpr hdvd
  have hle {j : Nat} (hj : j < 2 ^ (d + 1)) : b.value j <= q := by
    rcases hb.residues.exists_entry hj with ⟨x, hx, hlt⟩
    rw [Poly.value, List.getD_eq_getElem?_getD, hx, Option.getD_some]
    omega
  rcases Poly.automorphismTransform_coefficient (by omega) hodd hb.length_eq hformat with
    ⟨c, hc, hcMod, _, hcLength, hcValue⟩
  rw [hmodulus] at hcMod hcValue
  refine ⟨c, fun r => (c.value r : ZMod t), hc, hcMod, ⟨hcLength, ?_⟩, ?_⟩
  · intro r x hx
    have hr : r < 2 ^ (d + 1) := by
      rw [← hcLength]
      exact (List.getElem?_eq_some_iff.mp hx).1
    constructor
    · rcases exists_mul_mod_eq hodd hr with ⟨j, hj, rfl⟩
      rw [hcValue j hj, Poly.moved_eq (by omega) (hle hj), Option.some.injEq] at hx
      have hvalue := hle hj
      rw [← hx]
      split <;> omega
    · rw [Poly.value, List.getD_eq_getElem?_getD, hx, Option.getD_some]
  · intro i j hij
    have hmoves : forall j, j < 2 ^ (d + 1) ->
        (c.value (j * (u : ZMod (2 ^ (d + 2))).val % 2 ^ (d + 1)) : ZMod t) =
          if j * (u : ZMod (2 ^ (d + 2))).val / 2 ^ (d + 1) % 2 = 1 then -f j else f j := by
      intro j hj
      have hvalue : (b.value j : ZMod t) = f j := hb.coefficient_eq hj
      rw [Poly.value, List.getD_eq_getElem?_getD, hcValue j hj, Option.getD_some,
        Poly.moved_eq (by omega) (hle hj)]
      split
      next => rw [Nat.cast_sub (hle hj), hzero, zero_sub, hvalue]
      next => exact hvalue
    rw [slotValue, slotValue, ← stageArray_signed h.root hodd hmoves,
      autoPosition_slotPosition u hij]

end Move

/-- `AutomorphismTransform` of the element of a plaintext. -/
def PackedEncoding.automorphism (i : Nat) (a : PackedEncoding) : Option PackedEncoding :=
  match a.element with
  | .IsNativePoly p =>
      (p.automorphismTransform i).map fun r => { a with element := .IsNativePoly r }
  | .IsDCRTPoly x =>
      (x.mapM (Poly.automorphismTransform i)).map fun r => { a with element := .IsDCRTPoly r }

def PackedEncoding.decoded (params : PackingParams) (a : PackedEncoding) : Option (List Int) :=
  (a.decode params).map PackedEncoding.value

/-- The plaintext of a vector, before it is encoded. -/
def PackedEncoding.ofValue (t scalingFactorInt noiseScaleDeg : Nat) (v : List Int)
    (element : Element) : PackedEncoding where
  value := v
  plaintextModulus := t
  scalingFactorInt := scalingFactorInt
  noiseScaleDeg := noiseScaleDeg
  isEncoded := false
  element := element

def Element.limbs : Element -> List Poly
  | .IsNativePoly p => [p]
  | .IsDCRTPoly x => x

theorem decoded_eq {params : PackingParams} {a : PackedEncoding} {s : Nat} {p : Poly}
    (hinv : modInverse a.scalingFactorInt a.plaintextModulus = some s)
    (hfirst : a.element.limbs[0]? = some p) :
    a.decoded params = decodeValues params a.plaintextModulus s p := by
  unfold PackedEncoding.decoded PackedEncoding.decode
  dsimp only
  rw [hinv]
  simp only [Option.bind_eq_bind, Option.bind_some]
  cases helement : a.element with
  | IsNativePoly r =>
      rw [helement] at hfirst
      cases hfirst
      dsimp only
      cases decodeValues params a.plaintextModulus s p with
      | none => rfl
      | some value => rfl
  | IsDCRTPoly x =>
      rw [helement] at hfirst
      dsimp only [Element.limbs] at hfirst ⊢
      rw [hfirst]
      simp only [Option.bind_some]
      cases decodeValues params a.plaintextModulus s p with
      | none => rfl
      | some value => rfl

theorem automorphism_first {a : PackedEncoding} {i : Nat}
    (hlimbs : forall p, p ∈ a.element.limbs -> exists r, p.automorphismTransform i = some r)
    {p c : Poly} (hfirst : a.element.limbs[0]? = some p)
    (hc : p.automorphismTransform i = some c) :
    exists element, a.automorphism i = some { a with element := element } ∧
      element.limbs[0]? = some c := by
  unfold PackedEncoding.automorphism
  cases helement : a.element with
  | IsNativePoly r =>
      rw [helement] at hfirst
      cases hfirst
      refine ⟨.IsNativePoly c, ?_, rfl⟩
      dsimp only
      rw [hc]
      rfl
  | IsDCRTPoly x =>
      rw [helement] at hfirst hlimbs
      dsimp only [Element.limbs] at hfirst hlimbs
      rcases mapM_spec (f := Poly.automorphismTransform i)
        (fun p r => p.automorphismTransform i = some r)
        (fun p hp => by
          rcases hlimbs p hp with ⟨r, hr⟩
          exact ⟨r, hr, hr⟩) with ⟨ys, hys, hlen, hget⟩
      have hpos : 0 < ys.length := by
        rw [hlen]
        exact (List.getElem?_eq_some_iff.mp hfirst).1
      have hread := List.getElem?_eq_getElem hpos
      have hsame := hget 0 p _ hfirst hread
      rw [hc, Option.some.injEq] at hsame
      refine ⟨.IsDCRTPoly ys, ?_, ?_⟩
      · dsimp only
        rw [hys]
        rfl
      · rw [Element.limbs, hread, hsame]

structure RoundTrip (params : PackingParams) (d t q : Nat) (v : List Int) (b : PackedEncoding) :
    Prop where
  /-- The vector comes back when the product with the inverse does not wrap. -/
  decodes : (t ∣ q ∨ exists s, modInverse b.scalingFactorInt t = some s ∧
      2 * ((t - 1) * s) <= q) ->
    b.decoded params = some (padded (2 ^ (d + 1)) v)
  /-- Below half the dimension the index rotates; from there on it also exchanges the rows. -/
  rotates : t ∣ q -> forall k, exists i, findAutomorphismIndex2n k (2 ^ (d + 2)) = some i ∧
    (b.automorphism i).bind (PackedEncoding.decoded params) =
      some (if k.natAbs < 2 ^ d then rotateRows d k (padded (2 ^ (d + 1)) v)
        else swapRows d (rotateRows d k (padded (2 ^ (d + 1)) v)))
  /-- The index below the order exchanges the rows. -/
  swaps : t ∣ q -> (b.automorphism (2 ^ (d + 2) - 1)).bind (PackedEncoding.decoded params) =
    some (swapRows d (padded (2 ^ (d + 1)) v))

/-- What the encoded limbs and the scaling factor are to a vector. -/
structure Encodes (d t q psi : Nat) (v : List Int) (b : PackedEncoding) : Prop where
  modulus : b.plaintextModulus = t
  scaling : Nat.gcd b.scalingFactorInt t = 1
  limbs : forall p, p ∈ b.element.limbs ->
    p.format = .COEFFICIENT ∧ p.values.length = 2 ^ (d + 1)
  first : exists p f, b.element.limbs[0]? = some p ∧ p.modulus = q ∧
    Holds t (2 ^ (d + 1)) f p.values ∧ forall i, i < 2 ^ (d + 1) ->
      slotValue d psi f i = ((v.getD i 0 : Int) : ZMod t) * b.scalingFactorInt

section RoundTrip

variable {d t q psi : Nat} (hd : d + 1 <= 24) {params : PackingParams}
  (h : PackingReady d t psi params) (htq : t <= q) (hq : q < 2 ^ 60) {v : List Int}
  (hlength : v.length <= 2 ^ (d + 1)) (hv : forall x, x ∈ v -> 2 * x.natAbs <= t)
  {b : PackedEncoding} (hb : Encodes d t q psi v b)

include hd h htq hq hlength hv hb

omit hd h htq hq hlength hb in
theorem getD_small (i : Nat) : 2 * (v.getD i 0).natAbs <= t := by
  rw [List.getD_eq_getElem?_getD]
  cases hi : v[i]? with
  | none => exact Nat.zero_le t
  | some x => exact hv x (List.mem_of_getElem? hi)

omit hd htq hq hlength hv in
theorem Encodes.exists_inverse : exists s, modInverse b.scalingFactorInt t = some s ∧ s < t ∧
    (b.scalingFactorInt : ZMod t) * s = 1 := by
  rcases modInverse_spec h.modulus.one_lt (lt_trans h.modulus.lt (by decide)) hb.scaling with
    ⟨s, hs, hlt, hmul⟩
  refine ⟨s, hs, hlt, ?_⟩
  rw [← Nat.cast_mul, ← ZMod.natCast_mod, hmul, Nat.cast_one]

omit hd in
theorem Encodes.decodes (hwraps : t ∣ q ∨ exists s, modInverse b.scalingFactorInt t = some s ∧
      2 * ((t - 1) * s) <= q) :
    b.decoded params = some (padded (2 ^ (d + 1)) v) := by
  have hone := h.modulus.one_lt
  rcases Encodes.exists_inverse h hb with ⟨s, hs, hlt, hmul⟩
  rcases hb.first with ⟨p, f, hfirst, hpMod, hholds, hslots⟩
  have hcase : t ∣ q ∨ 2 * ((t - 1) * s) <= q := by
    rcases hwraps with hdvd | ⟨s', hs', hle⟩
    · exact Or.inl hdvd
    · cases hs.symm.trans hs'
      exact Or.inr hle
  rw [decoded_eq (by rw [hb.modulus]; exact hs) hfirst, hb.modulus, padded_eq_map hlength]
  apply decodeValues_eq h htq hq (by omega : t <= t - 1 + 1) (by omega) hlt hcase hpMod
    (Transform.Holds.holdsUpTo (by omega) hholds)
  · intro i _
    exact getD_small hv i
  · intro i hi
    rw [hslots i hi, mul_assoc, hmul, mul_one]

omit hlength in
theorem Encodes.moves (hdvd : t ∣ q) (u : (ZMod (2 ^ (d + 2)))ˣ) {m : Nat -> Nat}
    (hmove : forall i, i < 2 ^ (d + 1) -> m i < 2 ^ (d + 1) ∧
      slotUnit d (m i) = slotUnit d i * u) :
    (b.automorphism (u : ZMod (2 ^ (d + 2))).val).bind (PackedEncoding.decoded params) =
      some ((List.range (2 ^ (d + 1))).map fun i => v.getD (m i) 0) := by
  have hone := h.modulus.one_lt
  rcases Encodes.exists_inverse h hb with ⟨s, hs, hlt, hmul⟩
  rcases hb.first with ⟨p, f, hfirst, hpMod, hholds, hslots⟩
  have hpFormat := (hb.limbs p (List.mem_of_getElem? hfirst)).1
  rcases automorphismTransform_slots hd h htq hq hdvd hpMod hpFormat hholds u with
    ⟨c, g, hc, hcMod, hcHolds, hcSlots⟩
  have hlimbs : forall p, p ∈ b.element.limbs ->
      exists r, p.automorphismTransform (u : ZMod (2 ^ (d + 2))).val = some r := by
    intro p hp
    rcases Poly.automorphismTransform_coefficient (by omega) (val_odd u) (hb.limbs p hp).2
      (hb.limbs p hp).1 with ⟨r, hr, _⟩
    exact ⟨r, hr⟩
  rcases automorphism_first hlimbs hfirst hc with ⟨element, hauto, helement⟩
  rw [hauto, Option.bind_some]
  rw [decoded_eq (a := { b with element := element }) (by dsimp only; rw [hb.modulus]; exact hs)
    helement]
  dsimp only
  rw [hb.modulus]
  apply decodeValues_eq h htq hq (by omega) hq hlt (Or.inl hdvd) hcMod hcHolds
  · intro i _
    exact getD_small hv (m i)
  · intro i hi
    rw [hcSlots i (m i) (hmove i hi).2, hslots _ (hmove i hi).1, mul_assoc, hmul, mul_one]

theorem Encodes.roundTrip : RoundTrip params d t q v b := by
  constructor
  case decodes => exact Encodes.decodes h htq hq hlength hv hb
  case rotates =>
    intro hdvd k
    refine ⟨_, findAutomorphismIndex2n_spec (by omega) k, ?_⟩
    rw [padded_eq_map hlength, rotateRows_map, swapRows_map]
    by_cases hlow : k.natAbs < 2 ^ d
    · rw [if_pos hlow]
      apply Encodes.moves hd h htq hq hv hb hdvd
      intro i _
      refine ⟨rotatedSlot_lt k i, ?_⟩
      rw [slotUnit_rotatedSlot, rotationUnit, if_pos hlow, one_mul]
    · rw [if_neg hlow]
      apply Encodes.moves hd h htq hq hv hb hdvd (m := fun i =>
        rotatedSlot d k (otherRow d i))
      intro i hi
      refine ⟨rotatedSlot_lt k _, ?_⟩
      rw [slotUnit_rotatedSlot, slotUnit_otherRow hi, rotationUnit, if_neg hlow, neg_one_mul,
        neg_mul, mul_neg]
  case swaps =>
    intro hdvd
    have hindex : 2 ^ (d + 2) - 1 =
        ((-1 : (ZMod (2 ^ (d + 2)))ˣ) : ZMod (2 ^ (d + 2))).val := by
      rw [Units.val_neg, Units.val_one, ← Scheme.EvalSum.natCast_two_pow_sub_one,
        ZMod.val_natCast, Nat.mod_eq_of_lt (Nat.sub_lt (Nat.two_pow_pos _) (by decide))]
    rw [hindex, padded_eq_map hlength, swapRows_map]
    apply Encodes.moves hd h htq hq hv hb hdvd
    intro i hi
    exact ⟨otherRow_lt hi, by rw [slotUnit_otherRow hi, mul_neg_one]⟩

end RoundTrip

/-!
## Encoding a vector
-/

section Encode

variable {d t q psi : Nat} (hd : d + 1 <= 24) {params : PackingParams}
  (h : PackingReady d t psi params) (htq : t <= q) {sf : Nat} (hsf : Nat.gcd sf t = 1)
  {v : List Int} (hlength : v.length <= 2 ^ (d + 1))
  (hv : forall x, x ∈ v -> 2 * x.natAbs <= t) (cache : Poly.TableCache) (deg : Nat)

include hd h htq hsf hlength hv

theorem encode_native {p : Poly} (hp : p.values.length = 2 ^ (d + 1)) (hmodulus : p.modulus = q) :
    exists b, (PackedEncoding.ofValue t sf deg v (.IsNativePoly p)).encode cache params = some b ∧
      Encodes d t q psi v b := by
  have hone := h.modulus.one_lt
  have hlt := h.modulus.lt
  have hcoprime := scalingPower_coprime (by omega) (by simp only [maxBits]; omega) hsf deg
  have hbound (y : Int) (hy : y ∈ v) : y.natAbs < t := by
    have := hv y hy
    omega
  rcases scaledSlots_spec hone hlt (scalingPower t sf deg) hlength hbound with
    ⟨temp, htemp, hholds⟩
  rcases storePacked_spec hd h hholds hp (by omega) with
    ⟨f, b, hb, hbMod, hbFormat, hbHolds, hslots⟩
  refine ⟨{ (PackedEncoding.ofValue t sf deg v (.IsNativePoly p)) with
    scalingFactorInt := scalingPower t sf deg, isEncoded := true, element := .IsNativePoly b },
    ?_, rfl, hcoprime, ?_, b, f, rfl, hbMod.trans hmodulus, hbHolds, hslots⟩
  · unfold PackedEncoding.encode PackedEncoding.ofValue Element.ringDimension Element.store
    dsimp only
    rw [if_neg (by decide), hp, htemp]
    simp only [Option.bind_eq_bind, Option.bind_some]
    rw [hb]
    rfl
  · intro r hr
    rw [Element.limbs, List.mem_singleton] at hr
    subst hr
    exact ⟨hbFormat, hbHolds.length_eq⟩

theorem encode_dcrt {moduli : List Nat}
    (hready : forall r, r ∈ q :: moduli -> exists root, Poly.Ready cache (d + 1) r root)
    {x : DCRTPoly} (hx : DCRTPoly.WellFormed (2 ^ (d + 1)) .COEFFICIENT (q :: moduli) x) :
    exists b e y, (PackedEncoding.ofValue t sf deg v (.IsDCRTPoly x)).encode cache params =
        some b ∧ b.element = .IsDCRTPoly e ∧ DCRTPoly.setFormat cache e .COEFFICIENT = some y ∧
      Encodes d t q psi v { b with element := .IsDCRTPoly y } := by
  have hone := h.modulus.one_lt
  have hlt := h.modulus.lt
  have hcoprime := scalingPower_coprime (by omega) (by simp only [maxBits]; omega) hsf deg
  have hbound (y : Int) (hy : y ∈ v) : y.natAbs < t := by
    have := hv y hy
    omega
  rcases scaledSlots_spec hone hlt (scalingPower t sf deg) hlength hbound with
    ⟨temp, htemp, hholds⟩
  cases x with
  | nil => exact absurd hx.length_eq (by simp)
  | cons first rest =>
      have hfirst := hx.get 0 q first rfl rfl
      rcases storePacked_spec hd h hholds hfirst.2.2.1 (by rw [hfirst.1]; exact htq) with
        ⟨f, b, hb, hbMod, hbFormat, hbHolds, hslots⟩
      have hbq : b.modulus = q := hbMod.trans hfirst.1
      have hbwf : Poly.WellFormed q (2 ^ (d + 1)) .COEFFICIENT b := by
        refine ⟨hbq, hbFormat, hbHolds.length_eq, ?_⟩
        intro w hw
        have := hbHolds.lt hw
        omega
      rcases hready q List.mem_cons_self with ⟨root, hrootReady⟩
      have hlimbs : forall p, p ∈ b :: rest.map (fun p => Poly.switchModulus b p.modulus) ->
          exists r root, Poly.Ready cache (d + 1) r root ∧
            Poly.WellFormed r (2 ^ (d + 1)) .COEFFICIENT p := by
        intro p hp
        rcases List.mem_cons.mp hp with rfl | hp
        · exact ⟨q, root, hrootReady, hbwf⟩
        · rcases List.mem_map.mp hp with ⟨limb, hlimb, rfl⟩
          have hmodulus : limb.modulus ∈ q :: moduli := by
            rcases List.mem_iff_getElem?.mp (List.mem_cons_of_mem first hlimb) with ⟨i, hi⟩
            have hrange : i < (q :: moduli).length := by
              rw [← hx.length_eq]
              exact (List.getElem?_eq_some_iff.mp hi).1
            have hentry := List.getElem?_eq_getElem hrange
            rw [(hx.get i _ limb hentry hi).1]
            exact List.mem_of_getElem? hentry
          rcases hready _ hmodulus with ⟨root', hready'⟩
          exact ⟨_, root', hready',
            Poly.switchModulus_wellFormed hready'.modulus hrootReady.modulus hbwf⟩
      rcases DCRTPoly.setFormat_roundTrip (Nat.succ_pos d) (by omega) hlimbs with
        ⟨e, he, hback⟩
      refine ⟨{ (PackedEncoding.ofValue t sf deg v (.IsDCRTPoly (first :: rest))) with
        scalingFactorInt := scalingPower t sf deg, isEncoded := true,
        element := .IsDCRTPoly e }, e, _, ?_, rfl, hback, rfl, hcoprime, ?_, b, f, rfl, hbq,
        hbHolds, hslots⟩
      · unfold PackedEncoding.encode PackedEncoding.ofValue Element.ringDimension Element.store
        dsimp only [List.head?_cons, Option.elim_some]
        rw [if_neg (by decide), hfirst.2.2.1, htemp]
        simp only [Option.bind_eq_bind, Option.bind_some]
        rw [hb]
        simp only [Option.bind_some, he]
        rfl
      · intro p hp
        rcases hlimbs p hp with ⟨_, _, _, hwf⟩
        exact ⟨hwf.2.1, hwf.2.2.1⟩

end Encode

/-!
## The contract
-/

/--
With the parameters of the root, encoding succeeds on a polynomial and on a polynomial in
residues, which is decoded after it is back in the coefficient format.
-/
def PackedContract (cache : Poly.TableCache) (d t q psi sf deg : Nat) (v : List Int) : Prop :=
  exists params, setParams2n psi (2 ^ (d + 2)) t = some params ∧
    (forall p : Poly, p.values.length = 2 ^ (d + 1) -> p.modulus = q ->
      exists b, (PackedEncoding.ofValue t sf deg v (.IsNativePoly p)).encode cache params = some b ∧
        RoundTrip params d t q v b) ∧
    forall (moduli : List Nat) (x : DCRTPoly),
      (forall r, r ∈ q :: moduli -> exists root, Poly.Ready cache (d + 1) r root) ->
      DCRTPoly.WellFormed (2 ^ (d + 1)) .COEFFICIENT (q :: moduli) x ->
        exists b e y, (PackedEncoding.ofValue t sf deg v (.IsDCRTPoly x)).encode cache params =
            some b ∧ b.element = .IsDCRTPoly e ∧
          DCRTPoly.setFormat cache e .COEFFICIENT = some y ∧
          RoundTrip params d t q v { b with element := .IsDCRTPoly y }

/--
The round trip and the rotations, for every vector of entries up to half of a prime that
is one modulo the cyclotomic order.
-/
theorem packedEncoding_spec {d t q psi sf : Nat} (hd : 2 ^ (d + 1) <= 2 ^ 24)
    (hprime : Nat.Prime t) (hlt : t < 2 ^ 60) (hmod : t % 2 ^ (d + 2) = 1) (hpsi : psi < t)
    (hroot : IsPrimitiveRoot (psi : ZMod t) (2 ^ (d + 2))) (htq : t <= q) (hq : q < 2 ^ 60)
    (hsf : Nat.gcd sf t = 1) {v : List Int} (hlength : v.length <= 2 ^ (d + 1))
    (hv : forall x, x ∈ v -> 2 * x.natAbs <= t) (cache : Poly.TableCache) (deg : Nat) :
    PackedContract cache d t q psi sf deg v := by
  have : Fact (Nat.Prime t) := ⟨hprime⟩
  have hd24 : d + 1 <= 24 := (Nat.pow_le_pow_iff_right (by decide)).mp hd
  have hodd : t % 2 = 1 := by
    rw [← Nat.mod_mod_of_dvd t (dvd_pow_self 2 (Nat.succ_ne_zero (d + 1))), hmod]
  rw [pow_succ'] at hroot
  have hneg := Transform.IsPrimitiveRoot.pow_half_eq_neg_one (Nat.two_pow_pos (d + 1)) hroot
  rcases setParams2n_spec hd24 ⟨hodd, hprime.one_lt, hlt⟩ hpsi hneg with ⟨params, hparams, h⟩
  refine ⟨params, hparams, ?_, ?_⟩
  · intro p hp hmodulus
    rcases encode_native hd24 h htq hsf hlength hv cache deg hp hmodulus with ⟨b, hb, hencodes⟩
    exact ⟨b, hb, Encodes.roundTrip hd24 h htq hq hlength hv hencodes⟩
  · intro moduli x hready hx
    rcases encode_dcrt hd24 h htq hsf hlength hv cache deg hready hx with
      ⟨b, e, y, hb, he, hy, hencodes⟩
    exact ⟨b, e, y, hb, he, hy, Encodes.roundTrip hd24 h htq hq hlength hv hencodes⟩

/-- Three entries modulo 17 in dimension four, with scaling factor 3 and degree 2. -/
theorem packedEncoding_spec_seventeen :
    PackedContract Poly.smallCache 1 17 17 2 3 2 [1, -2, 8] :=
  packedEncoding_spec (by decide) (by decide) (by decide) (by decide) (by decide)
    (Transform.isPrimitiveRoot_of_pow_eq_neg_one 2 (by decide) (by decide)) (by decide)
    (by decide) (by decide) (by decide) (by decide) Poly.smallCache 2

theorem setParams2n_eq_none {psi m t : Nat} (h : Transform.preCompute psi m t = none) :
    setParams2n psi m t = none := by
  unfold setParams2n
  rw [h]
  cases crtPerm m with
  | none => rfl
  | some perm => rfl

/-- Decoding the encoded vector, after an automorphism. -/
def decodeAfter (t q psi d sf : Nat) (v : List Int) (i : Nat) : Option (List Int) := do
  let params <- setParams2n psi (2 ^ (d + 2)) t
  let a := PackedEncoding.ofValue t sf 1 v
    (.IsNativePoly (Poly.zero q (2 ^ (d + 1)) .COEFFICIENT))
  let b <- a.encode Poly.smallCache params
  let r <- b.automorphism i
  r.decoded params

/-- Decoding the encoded vector of a polynomial in residues, which is in the evaluation format. -/
def decodeEvaluation (t psi d : Nat) (moduli : List Nat) (v : List Int) : Option (List Int) := do
  let params <- setParams2n psi (2 ^ (d + 2)) t
  let a := PackedEncoding.ofValue t 1 1 v
    (.IsDCRTPoly (DCRTPoly.zero moduli (2 ^ (d + 1)) .COEFFICIENT))
  let b <- a.encode Poly.smallCache params
  b.decoded params

/--
The index for a rotation by two in rows of two exchanges the rows.  The residues come out
wrong when the inverse of the scaling factor wraps around a small modulus, and the
rotated ones when the plaintext modulus does not divide the modulus.  A polynomial in
residues is not decoded from the evaluation format.  In dimension `2 ^ 25` there are no
parameters.
-/
theorem packedEncoding_fails :
    (findAutomorphismIndex2n 2 8 = some 7 ∧
      decodeAfter 17 17 2 1 1 [1, 2, 3, 4] 7 = some [3, 4, 1, 2] ∧
      rotateRows 1 2 [1, 2, 3, 4] = [1, 2, 3, 4]) ∧
    decodeAfter 5 13 2 0 2 [1, 2] 1 = some [1, -1] ∧
    (findAutomorphismIndex2n 1 8 = some 5 ∧
      decodeAfter 17 97 2 1 1 [1, 2, 3, 4] 5 = some [3, 0, 3, 4] ∧
      rotateRows 1 1 [1, 2, 3, 4] = [2, 1, 4, 3]) ∧
    decodeEvaluation 5 2 0 [5, 13] [1, 2] = some [0, 2] ∧
    Nat.Prime 469762049 ∧ 469762049 % (2 * 2 ^ 25) = 1 ∧
      IsPrimitiveRoot ((2187 : Nat) : ZMod 469762049) (2 * 2 ^ 25) ∧
      setParams2n 2187 (2 * 2 ^ 25) 469762049 = none := by
  refine ⟨⟨by decide +kernel, by decide +kernel, by decide⟩, by decide +kernel,
    ⟨by decide +kernel, by decide +kernel, by decide⟩, by decide +kernel,
    Transform.prime_469762049, by decide,
    Transform.isPrimitiveRoot_of_pow_eq_neg_one 25 Transform.pow_two_pow_25 (by decide), ?_⟩
  exact setParams2n_eq_none (Transform.preCompute_eq_none 2187 469762049 (by decide) (by decide))

end Encoding
end OpenFHE
