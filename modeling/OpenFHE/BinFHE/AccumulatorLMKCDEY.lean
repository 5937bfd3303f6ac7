import OpenFHE.BinFHE.AutomorphismKeys
import OpenFHE.BinFHE.LogGenerator

/-!
# Accumulation by automorphisms

The keys encrypt one power of the variable for each entry of the secret.  The coordinates of the
mask are sorted by their logarithms, and the accumulator is turned by powers of five between the
products, so that each entry ends up multiplied by its coordinate.
-/

namespace OpenFHE
namespace BinFHE

open Core Foundation NativeInteger Hal NegacyclicRing RingGSWAccumulator

/-- The parameters with the number of keys for turns and `m_logGen`. -/
structure LMKCDEYParams where
  ring : AccumulatorParams
  numAutoKeys : Nat
  logGen : List Int

namespace RingGSWAccumulatorLMKCDEY

def keyGenLMKCDEY (params : AccumulatorParams) (skNTT : Poly) (m : Int)
    (drawn : Nat -> Poly × Poly) : Option RingGSWEvalKey := do
  let mm <- exponentLMKCDEY params.gadget.N params.q m
  encryptKey params skNTT (some (reducedMM params.gadget.N mm)) drawn

/-- Row zero holds the keys of the entries, row one those of the automorphisms. -/
def keyGenAcc (params : LMKCDEYParams) (skNTT : Poly) (sk : NativeVectorT)
    (drawn autoDrawn : Nat -> Nat -> Poly × Poly) : Option RingGSWACCKey :=
  let M := usint (2 * params.ring.gadget.N : Nat)
  if sk.data.length <= params.numAutoKeys then none
  else generateKeys 1 2 sk.data.length fun _ j i =>
    if j = 0 then do
      let s <- sk.data[i]?
      let m <- centered32 sk.modulus s
      let key <- keyGenLMKCDEY params.ring skNTT m (drawn i)
      return some key
    else if i = 0 then do
      let key <- keyGenAuto params.ring skNTT (signedWord ((M : Int) - 5)) (autoDrawn 0)
      return some key
    else if i <= params.numAutoKeys then do
      let power <- modExp 5 i M
      let key <- keyGenAuto params.ring skNTT power (autoDrawn i)
      return some key
    else some none

def addBucket (params : LMKCDEYParams) (ek : RingGSWACCKey) (indexVec : List Nat)
    (acc : RLWECiphertext) : Option RLWECiphertext :=
  indexVec.foldlM (fun acc j => do
    let key <- keyAt ek 0 0 j
    externalProduct params.ring key acc) acc

/-- Rotation by `5 ^ nSkips`. -/
def rotateSkips (params : LMKCDEYParams) (ek : RingGSWACCKey) (nSkips : Nat)
    (acc : RLWECiphertext) : Option RLWECiphertext := do
  let power <- modExp 5 nSkips (usint (2 * params.ring.gadget.N : Nat))
  let ak <- keyAt ek 0 1 nSkips
  automorphism params.ring power ak acc

/-- `if (nSkips != 0)`. -/
def turnSkipped (params : LMKCDEYParams) (ek : RingGSWACCKey) (s : RLWECiphertext × Nat) :
    Option RLWECiphertext :=
  if s.2 = 0 then some s.1 else rotateSkips params ek s.2 s.1

/-- A bucket that was never filled is not in the map. -/
def visitBucket (params : LMKCDEYParams) (ek : RingGSWACCKey) (indexVec : List Nat)
    (s : RLWECiphertext × Nat) : Option (RLWECiphertext × Nat) :=
  if indexVec = [] then some s
  else do
    let acc <- turnSkipped params ek s
    let acc <- addBucket params ek indexVec acc
    return (acc, 0)

/-- One pass of the loop over the exponents; the state holds `nSkips`. -/
def loopStep (params : LMKCDEYParams) (ek : RingGSWACCKey) (bucket : Nat -> List Nat)
    (s : RLWECiphertext × Nat) (i : Nat) : Option (RLWECiphertext × Nat) := do
  let s <- visitBucket params ek (bucket i) s
  let nSkips := s.2 + 1
  if nSkips = params.numAutoKeys ∨ i = 1 then do
    let acc <- rotateSkips params ek nSkips s.1
    return (acc, 0)
  else return (s.1, nSkips)

/-- The loop from `Nh - 1` down to one. -/
def powersLoop (params : LMKCDEYParams) (ek : RingGSWACCKey) (bucket : Nat -> List Nat)
    (acc : RLWECiphertext) : Option RLWECiphertext := do
  let last := params.ring.gadget.N / 2 - 1
  let s <- (List.range last).foldlM (fun s t => loopStep params ek bucket s (last - t)) (acc, 0)
  return s.1

/-- Below two coefficients the counter of the loops would wrap around. -/
def evalAcc (params : LMKCDEYParams) (ek : RingGSWACCKey) (acc : RLWECiphertext)
    (a : NativeVectorT) : Option RLWECiphertext :=
  let M := usint (2 * params.ring.gadget.N : Nat)
  if params.ring.gadget.N < 2 then none
  else do
    let permuted <- permuteMap params.ring.gadget.N params.logGen a
    let second <- acc.2.automorphismTransform (usint ((M : Int) - 5))
    let acc <- powersLoop params ek (fun i => permuted (-i)) (acc.1, second)
    let acc <- addBucket params ek (permuted (int32 M)) acc
    let ak <- keyAt ek 0 1 0
    let acc <- automorphism params.ring (usint ((M : Int) - 5)) ak acc
    let acc <- powersLoop params ek (fun i => permuted i) acc
    addBucket params ek (permuted 0) acc

/-! ## The keys -/

theorem five_odd : 5 % 2 = 1 := rfl

/-- `params` holds the table that `PreCompute` fills. -/
structure LMKCDEYConsistent (params : LMKCDEYParams) (d psi g : Nat) : Prop where
  ring : Consistent params.ring (d + 1) psi g
  order : params.ring.q ∣ 2 * 2 ^ (d + 1)
  two : 0 < d
  table : params.logGen = preComputeLogGen (2 ^ (d + 1))
  turns : 0 < params.numAutoKeys

/-- Keys for the powers of the variable, for the turns by powers of five and for the way back. -/
structure IsRotationKey (params : LMKCDEYParams) (d psi n E : Nat) (sk : NativeVectorT)
    (z : NegacyclicRing (2 ^ (d + 1)) (ZMod params.ring.gadget.Q)) (ek : RingGSWACCKey) : Prop where
  entry : forall i, i < n -> exists key, keyAt ek 0 0 i = some key ∧
    IsKey params.ring (d + 1) psi z (monomial (2 ^ (d + 1)) (ZMod params.ring.gadget.Q)
      ((2 * 2 ^ (d + 1) / params.ring.q : Nat) * secretEntry sk i)) E key
  skips : forall m, 0 < m -> m <= params.numAutoKeys ->
    exists (power : Nat) (hodd : power % 2 = 1) (ak : RingGSWEvalKey),
      modExp 5 m (2 ^ (d + 2)) = some power ∧ power < 2 ^ (d + 2) ∧
      power ≡ 5 ^ m [MOD 2 * 2 ^ (d + 1)] ∧ keyAt ek 0 1 m = some ak ∧
      IsAutoKey params.ring (d + 1) psi hodd z E ak
  back : exists (hodd : (2 ^ (d + 2) - 5) % 2 = 1) (ak : RingGSWEvalKey),
    keyAt ek 0 1 0 = some ak ∧ IsAutoKey params.ring (d + 1) psi hodd z E ak

section KeyGeneration

variable {params : LMKCDEYParams} {d psi g : Nat} (h : LMKCDEYConsistent params d psi g)

include h

theorem LMKCDEYConsistent.order_eq : usint (2 * params.ring.gadget.N : Nat) = 2 ^ (d + 2) := by
  have hle : 2 ^ (d + 1) <= 2 ^ 24 := Nat.pow_le_pow_right (by decide) h.ring.le
  rw [h.ring.dimension, usint_natCast, Nat.mod_eq_of_lt (by omega), <- pow_succ']

theorem LMKCDEYConsistent.order_bounds : 8 <= 2 ^ (d + 2) ∧ 2 ^ (d + 2) <= 2 ^ 25 ∧
    2 ^ (d + 2) % 2 = 0 := by
  have hle := h.ring.le
  have htwo := h.two
  refine ⟨?_, Nat.pow_le_pow_right (by decide) (by omega), ?_⟩
  · calc
      8 = 2 ^ 3 := rfl
      _ <= 2 ^ (d + 2) := Nat.pow_le_pow_right (by decide) (by omega)
  · rw [pow_succ, Nat.mul_mod_left]

theorem keyGenLMKCDEY_spec {skNTT : Poly}
    {z : NegacyclicRing (2 ^ (d + 1)) (ZMod params.ring.gadget.Q)}
    (hz : Poly.StandsFor (d + 1) params.ring.gadget.Q psi z skNTT) {E : Nat}
    {drawn : Nat -> Poly × Poly} (m : Int)
    (hdrawn : forall r, Drawn params.ring (d + 1) E (drawn r)) :
    exists key, keyGenLMKCDEY params.ring skNTT m drawn = some key ∧
      IsKey params.ring (d + 1) psi z (monomial (2 ^ (d + 1)) (ZMod params.ring.gadget.Q)
        ((2 * 2 ^ (d + 1) / params.ring.q : Nat) * m)) E key := by
  rcases exponent_scaled (Nat.mul_div_cancel' h.order).symm (by positivity) m with ⟨hmod, hlt⟩
  rcases encryptReduced_spec h.ring hz hlt (fun r _ => hdrawn r) with ⟨key, hkey, hIsKey⟩
  refine ⟨key, ?_, ?_⟩
  · rw [keyGenLMKCDEY, h.ring.dimension, exponentLMKCDEY_eq h.order]
    exact hkey
  · rw [<- monomial_congr hmod]
    exact hIsKey

theorem modExp_turn {m : Nat} (hm : m < 2 ^ 32) : exists power,
    modExp 5 m (2 ^ (d + 2)) = some power ∧ power < 2 ^ (d + 2) ∧ power % 2 = 1 ∧
      power ≡ 5 ^ m [MOD 2 * 2 ^ (d + 1)] := by
  rcases h.order_bounds with ⟨hlow, hhigh, heven⟩
  rcases @modExp_spec 5 m (2 ^ (d + 2)) (by omega)
    (by simp only [maxBits]; omega) (by decide) (by simp only [maxBits]; omega) with
    ⟨power, hpower, hlt, hcast⟩
  have hmod : power ≡ 5 ^ m [MOD 2 ^ (d + 2)] := by
    rw [<- ZMod.natCast_eq_natCast_iff, hcast, Nat.cast_pow]
  refine ⟨power, hpower, hlt, ?_, ?_⟩
  · have hodd : power ≡ 5 ^ m [MOD 2] := hmod.of_dvd (Nat.dvd_of_mod_eq_zero heven)
    rw [Nat.ModEq, odd_pow five_odd m] at hodd
    exact hodd
  · rw [<- pow_succ']
    exact hmod

theorem keyGenAcc_spec {skNTT : Poly}
    {z : NegacyclicRing (2 ^ (d + 1)) (ZMod params.ring.gadget.Q)}
    (hz : Poly.StandsFor (d + 1) params.ring.gadget.Q psi z skNTT) {n mod E : Nat}
    {sk : NativeVectorT} (hsk : NativeVectorT.Valid n mod sk) (hmod : mod < 2 ^ 31)
    (hkeys : params.numAutoKeys < n) (hkeys32 : params.numAutoKeys < 2 ^ 32)
    {drawn autoDrawn : Nat -> Nat -> Poly × Poly}
    (hdrawn : forall i r, Drawn params.ring (d + 1) E (drawn i r))
    (hautoDrawn : forall i r, DrawnEvaluation params.ring (d + 1) psi E (autoDrawn i r)) :
    exists ek, keyGenAcc params skNTT sk drawn autoDrawn = some ek ∧
      IsRotationKey params d psi n E sk z ek := by
  rcases h.order_bounds with ⟨hlow, hhigh, heven⟩
  have hback : (2 ^ (d + 2) - 5) % 2 = 1 := by omega
  have hbackWord : signedWord (((2 ^ (d + 2) : Nat) : Int) - 5) = (2 ^ (d + 2) - 5 : Nat) := by
    rw [signedWord_eq (by omega) (by omega)]
    omega
  -- What the three branches of the second dimension have in common.
  have hgenerated := generateKeys_spec (n := 1) (m := 2) (l := n)
    (fun _ j i =>
      if j = 0 then do
        let s <- sk.data[i]?
        let m <- centered32 sk.modulus s
        let key <- keyGenLMKCDEY params.ring skNTT m (drawn i)
        return some key
      else if i = 0 then do
        let key <- keyGenAuto params.ring skNTT (signedWord (((2 ^ (d + 2) : Nat) : Int) - 5))
          (autoDrawn 0)
        return some key
      else if i <= params.numAutoKeys then do
        let power <- modExp 5 i (2 ^ (d + 2))
        let key <- keyGenAuto params.ring skNTT power (autoDrawn i)
        return some key
      else some none)
    (fun _ j i y =>
      (j = 0 -> exists key, y = some key ∧
        IsKey params.ring (d + 1) psi z (monomial (2 ^ (d + 1)) (ZMod params.ring.gadget.Q)
          ((2 * 2 ^ (d + 1) / params.ring.q : Nat) * secretEntry sk i)) E key) ∧
      (j = 1 -> i = 0 -> exists ak, y = some ak ∧
        IsAutoKey params.ring (d + 1) psi hback z E ak) ∧
      (j = 1 -> 0 < i -> i <= params.numAutoKeys ->
        exists (power : Nat) (hodd : power % 2 = 1) (ak : RingGSWEvalKey),
          modExp 5 i (2 ^ (d + 2)) = some power ∧ power < 2 ^ (d + 2) ∧
          power ≡ 5 ^ i [MOD 2 * 2 ^ (d + 1)] ∧ y = some ak ∧
          IsAutoKey params.ring (d + 1) psi hodd z E ak)) ?_
  · rcases hgenerated with ⟨ek, hek, hget⟩
    refine ⟨ek, ?_, ?_, ?_, hback, ?_⟩
    · rw [keyGenAcc, hsk.residues.1, if_neg (by omega), h.order_eq]
      exact hek
    · intro i hi
      exact (hget 0 Nat.one_pos 0 (by decide) i hi).1 rfl
    · intro m hm hle
      exact (hget 0 Nat.one_pos 1 (by decide) m (by omega)).2.2 rfl hm hle
    · exact (hget 0 Nat.one_pos 1 (by decide) 0 (by omega)).2.1 rfl rfl
  · intro _ _ j _ i hi
    by_cases hj : j = 0
    · rcases hsk.residues.exists_entry hi with ⟨s, hs, hlt⟩
      have hentry : NativeVector.centered sk.modulus s = secretEntry sk i := by
        rw [secretEntry, List.getD_eq_getElem?_getD, hs, Option.getD_some]
      rcases keyGenLMKCDEY_spec h hz (secretEntry sk i) (fun r => hdrawn i r) with
        ⟨key, hkey, hIsKey⟩
      refine ⟨some key, ?_, fun _ => ⟨key, rfl, hIsKey⟩, by omega, by omega⟩
      rw [if_pos hj, hs, Option.bind_eq_bind, Option.bind_some,
        centered32_eq (by rw [hsk.modulus_eq]; exact hmod) (by rw [hsk.modulus_eq]; exact hlt),
        hentry, Option.bind_eq_bind, Option.bind_some, hkey]
      rfl
    · by_cases hi0 : i = 0
      · rcases keyGenAuto_spec h.ring hz hback (by omega) (fun r => hautoDrawn 0 r) with
          ⟨ak, hak, hIsKey⟩
        refine ⟨some ak, ?_, by omega, fun _ _ => ⟨ak, rfl, hIsKey⟩, by omega⟩
        rw [if_neg hj, if_pos hi0, hbackWord, hak]
        rfl
      · by_cases hle : i <= params.numAutoKeys
        · rcases modExp_turn h (m := i) (by omega) with ⟨power, hpower, hlt, hodd, hcongr⟩
          rcases keyGenAuto_spec h.ring hz hodd (by omega) (fun r => hautoDrawn i r) with
            ⟨ak, hak, hIsKey⟩
          refine ⟨some ak, ?_, by omega, by omega, fun _ _ _ =>
            ⟨power, hodd, ak, hpower, hlt, hcongr, rfl, hIsKey⟩⟩
          rw [if_neg hj, if_neg hi0, if_pos hle, hpower, Option.bind_eq_bind, Option.bind_some, hak]
          rfl
        · refine ⟨none, ?_, by omega, by omega, fun _ _ h => absurd h hle⟩
          rw [if_neg hj, if_neg hi0, if_neg hle]

end KeyGeneration

/-! ## The loops -/

section Loops

variable {params : LMKCDEYParams} {d psi g n E Z : Nat} (h : LMKCDEYConsistent params d psi g)
  {sk : NativeVectorT} {z : NegacyclicRing (2 ^ (d + 1)) (ZMod params.ring.gadget.Q)}
  (hsmall : Small (2 ^ (d + 1)) params.ring.gadget.Q Z z) {ek : RingGSWACCKey}
  (hek : IsRotationKey params d psi n E sk z ek)

include h hsmall hek

theorem rotateSkips_spec {m B : Nat} (hm : 0 < m) (hle : m <= params.numAutoKeys)
    {x : NegacyclicRing (2 ^ (d + 1)) (ZMod params.ring.gadget.Q)} {acc : RLWECiphertext}
    (hacc : HasPhaseWithin (d + 1) params.ring.gadget.Q psi z B x acc) :
    exists acc', rotateSkips params ek m acc = some acc' ∧
      HasPhaseWithin (d + 1) params.ring.gadget.Q psi z
        (B + autoBound params.ring (d + 1) g E Z)
        (turn (2 ^ (d + 1)) (ZMod params.ring.gadget.Q) five_odd m x) acc' := by
  rcases hek.skips m hm hle with ⟨power, hodd, ak, hpower, hlt, hcongr, hak, hIsKey⟩
  have hbound := h.order_bounds
  rcases hacc.automorphism h.ring hodd (by omega) hIsKey hsmall with ⟨acc', hacc', hphase⟩
  refine ⟨acc', ?_, ?_⟩
  · rw [rotateSkips, h.order_eq, hpower, hak]
    simp only [Option.bind_eq_bind, Option.bind_some]
    exact hacc'
  · rw [turn, <- automorphism_congr hodd _ hcongr]
    exact hphase

theorem addBucket_spec {B : Nat} {l : List Nat} (hl : forall j, j ∈ l -> j < n)
    {x : NegacyclicRing (2 ^ (d + 1)) (ZMod params.ring.gadget.Q)} {acc : RLWECiphertext}
    (hacc : HasPhaseWithin (d + 1) params.ring.gadget.Q psi z B x acc) :
    exists acc', addBucket params ek l acc = some acc' ∧
      HasPhaseWithin (d + 1) params.ring.gadget.Q psi z
        (B + l.length * productBound params.ring (d + 1) g E Z)
        (monomial (2 ^ (d + 1)) (ZMod params.ring.gadget.Q)
          ((2 * 2 ^ (d + 1) / params.ring.q : Nat) * bucketSum (secretEntry sk) l) * x) acc' := by
  induction l generalizing B x acc with
  | nil =>
      refine ⟨acc, rfl, ?_⟩
      rw [bucketSum, List.map_nil, List.sum_nil, mul_zero, monomial_zero, one_mul]
      exact hacc.mono (Nat.le_add_right _ _)
  | cons j l ih =>
      rcases hek.entry j (hl j List.mem_cons_self) with ⟨key, hkey, hIsKey⟩
      rcases hacc.externalProduct h.ring hIsKey (monomial_contracts _ _ _) hsmall with
        ⟨next, hnext, hphase⟩
      rcases ih (fun i hi => hl i (List.mem_cons_of_mem _ hi)) hphase with ⟨acc', hacc', hphase'⟩
      refine ⟨acc', ?_, ?_⟩
      · rw [addBucket, List.foldlM_cons, hkey]
        simp only [Option.bind_eq_bind, Option.bind_some, hnext]
        exact hacc'
      · rw [monomial_mul_monomial_mul, <- mul_add] at hphase'
        rw [bucketSum, List.map_cons, List.sum_cons, List.length_cons, Nat.succ_mul, add_comm
          (secretEntry sk j)]
        exact hphase'.mono (by omega)

/-- What the passes so far amount to, once the skipped turns are made up for. -/
structure Turned (params : LMKCDEYParams) (d psi g E Z : Nat)
    (z x : NegacyclicRing (2 ^ (d + 1)) (ZMod params.ring.gadget.Q)) (B passes : Nat)
    (s : RLWECiphertext × Nat) : Prop where
  skips_le : s.2 <= passes
  skips_lt : s.2 < params.numAutoKeys
  phase : exists y, turn (2 ^ (d + 1)) (ZMod params.ring.gadget.Q) five_odd s.2 y = x ∧
    HasPhaseWithin (d + 1) params.ring.gadget.Q psi z
      (B + (passes - s.2) * autoBound params.ring (d + 1) g E Z) y s.1

theorem turnSkipped_spec {B passes : Nat}
    {x : NegacyclicRing (2 ^ (d + 1)) (ZMod params.ring.gadget.Q)} {s : RLWECiphertext × Nat}
    (hs : Turned params d psi g E Z z x B passes s) :
    exists acc, turnSkipped params ek s = some acc ∧
      HasPhaseWithin (d + 1) params.ring.gadget.Q psi z
        (B + passes * autoBound params.ring (d + 1) g E Z) x acc := by
  rcases hs with ⟨hle, hlt, y, rfl, hphase⟩
  by_cases hzero : s.2 = 0
  · refine ⟨s.1, if_pos hzero, ?_⟩
    rw [hzero, turn_zero]
    rw [hzero, Nat.sub_zero] at hphase
    exact hphase
  · rcases rotateSkips_spec h hsmall hek (Nat.pos_of_ne_zero hzero) hlt.le hphase with
      ⟨acc, hacc, hphase'⟩
    refine ⟨acc, by rw [turnSkipped, if_neg hzero, hacc], hphase'.mono ?_⟩
    rw [Nat.add_assoc, <- Nat.succ_mul]
    exact Nat.add_le_add_left (Nat.mul_le_mul_right _ (by omega)) _

theorem visitBucket_spec {B passes : Nat} {l : List Nat} (hl : forall j, j ∈ l -> j < n)
    {x : NegacyclicRing (2 ^ (d + 1)) (ZMod params.ring.gadget.Q)} {s : RLWECiphertext × Nat}
    (hs : Turned params d psi g E Z z x B passes s) :
    exists s', visitBucket params ek l s = some s' ∧
      Turned params d psi g E Z z
        (monomial (2 ^ (d + 1)) (ZMod params.ring.gadget.Q)
          ((2 * 2 ^ (d + 1) / params.ring.q : Nat) * bucketSum (secretEntry sk) l) * x)
        (B + l.length * productBound params.ring (d + 1) g E Z) passes s' := by
  by_cases hempty : l = []
  · refine ⟨s, if_pos hempty, ?_⟩
    rw [hempty, bucketSum, List.map_nil, List.sum_nil, mul_zero, monomial_zero, one_mul,
      List.length_nil]
    rcases hs with ⟨hle, hlt, y, hy, hphase⟩
    exact ⟨hle, hlt, y, hy, hphase.mono (by omega)⟩
  · rcases turnSkipped_spec h hsmall hek hs with ⟨acc, hacc, hphase⟩
    rcases addBucket_spec h hsmall hek hl hphase with ⟨acc', hacc', hphase'⟩
    refine ⟨(acc', 0), ?_, Nat.zero_le _, h.turns, _, turn_zero _ _, ?_⟩
    · rw [visitBucket, if_neg hempty, hacc]
      simp only [Option.bind_eq_bind, Option.bind_some, hacc']
      rfl
    · rw [Nat.sub_zero]
      exact hphase'.mono (by omega)

theorem loopStep_spec {bucket : Nat -> List Nat} {i B passes : Nat}
    (hi : forall j, j ∈ bucket i -> j < n)
    {x : NegacyclicRing (2 ^ (d + 1)) (ZMod params.ring.gadget.Q)} {s : RLWECiphertext × Nat}
    (hs : Turned params d psi g E Z z x B passes s) :
    exists s', loopStep params ek bucket s i = some s' ∧ (i = 1 -> s'.2 = 0) ∧
      Turned params d psi g E Z z
        (turn (2 ^ (d + 1)) (ZMod params.ring.gadget.Q) five_odd 1
          (monomial (2 ^ (d + 1)) (ZMod params.ring.gadget.Q)
            ((2 * 2 ^ (d + 1) / params.ring.q : Nat) *
              bucketSum (secretEntry sk) (bucket i)) * x))
        (B + (bucket i).length * productBound params.ring (d + 1) g E Z) (passes + 1) s' := by
  rcases visitBucket_spec h hsmall hek hi hs with ⟨s', hs', hle, hlt, y, hy, hphase⟩
  rw [loopStep, hs']
  simp only [Option.bind_eq_bind, Option.bind_some]
  by_cases hflush : s'.2 + 1 = params.numAutoKeys ∨ i = 1
  · rcases rotateSkips_spec h hsmall hek (Nat.succ_pos s'.2) hlt hphase with
      ⟨acc, hacc, hphase'⟩
    refine ⟨(acc, 0), ?_, fun _ => rfl, Nat.zero_le _, h.turns, _, turn_zero _ _, ?_⟩
    · rw [if_pos hflush, hacc]
      rfl
    · rw [<- hy, <- turn_add, Nat.add_comm 1, Nat.sub_zero]
      apply hphase'.mono
      rw [Nat.add_assoc, <- Nat.succ_mul]
      exact Nat.add_le_add_left (Nat.mul_le_mul_right _ (by omega)) _
  · have hnotOne : i ≠ 1 := fun heq => hflush (Or.inr heq)
    have hnotFull : s'.2 + 1 ≠ params.numAutoKeys := fun heq => hflush (Or.inl heq)
    refine ⟨(s'.1, s'.2 + 1), ?_, fun heq => absurd heq hnotOne, ?_, ?_, y, ?_, ?_⟩
    · rw [if_neg hflush]
      rfl
    · exact Nat.succ_le_succ hle
    · dsimp only
      omega
    · rw [<- hy, <- turn_add, Nat.add_comm 1]
    · rw [Nat.add_sub_add_right]
      exact hphase

/-- All passes: bucket `i` is turned `i` times after it was visited. -/
theorem powersLoop_spec (bucket : Nat -> List Nat) (hbucket : forall i j, j ∈ bucket i -> j < n)
    {B : Nat} {x : NegacyclicRing (2 ^ (d + 1)) (ZMod params.ring.gadget.Q)}
    {acc : RLWECiphertext} (hacc : HasPhaseWithin (d + 1) params.ring.gadget.Q psi z B x acc) :
    exists acc', powersLoop params ek bucket acc = some acc' ∧
      HasPhaseWithin (d + 1) params.ring.gadget.Q psi z
        (B + (∑ t ∈ Finset.range (2 ^ d - 1), (bucket (t + 1)).length) *
          productBound params.ring (d + 1) g E Z +
          (2 ^ d - 1) * autoBound params.ring (d + 1) g E Z)
        (monomial (2 ^ (d + 1)) (ZMod params.ring.gadget.Q) ((2 * 2 ^ (d + 1) / params.ring.q : Nat) *
          ∑ t ∈ Finset.range (2 ^ d - 1), 5 ^ (t + 1) *
            bucketSum (secretEntry sk) (bucket (t + 1))) *
          turn (2 ^ (d + 1)) (ZMod params.ring.gadget.Q) five_odd (2 ^ d - 1) x) acc' := by
  have hpow : 1 < 2 ^ d := Nat.one_lt_two_pow h.two.ne'
  have hlast : params.ring.gadget.N / 2 - 1 = 2 ^ d - 1 := by
    rw [h.ring.dimension, pow_succ, Nat.mul_div_cancel _ (by decide)]
  generalize hT : 2 ^ d - 1 = T at hlast
  have hrun := foldlM_range_spec (n := T) (s := (acc, 0))
    (f := fun s t => loopStep params ek bucket s (T - t))
    (fun t s => (t = T -> s.2 = 0) ∧ Turned params d psi g E Z z
      (monomial (2 ^ (d + 1)) (ZMod params.ring.gadget.Q) ((2 * 2 ^ (d + 1) / params.ring.q : Nat) *
        ∑ u ∈ Finset.range t, 5 ^ (t - u) * bucketSum (secretEntry sk) (bucket (T - u))) *
        turn (2 ^ (d + 1)) (ZMod params.ring.gadget.Q) five_odd t x)
      (B + (∑ u ∈ Finset.range t, (bucket (T - u)).length) *
        productBound params.ring (d + 1) g E Z) t s) ?_ ?_
  · rcases hrun with ⟨s, hs, hzero, hle, hlt, y, hy, hphase⟩
    rw [hzero rfl, turn_zero] at hy
    refine ⟨s.1, ?_, ?_⟩
    · rw [powersLoop, hlast]
      simp only [Option.bind_eq_bind]
      rw [hs]
      rfl
    · have hexponents : ∑ u ∈ Finset.range T, 5 ^ (T - u) *
            bucketSum (secretEntry sk) (bucket (T - u)) =
          ∑ t ∈ Finset.range T, 5 ^ (t + 1) * bucketSum (secretEntry sk) (bucket (t + 1)) := by
        rw [<- Finset.sum_range_reflect fun t => 5 ^ (t + 1) *
          bucketSum (secretEntry sk) (bucket (t + 1))]
        apply Finset.sum_congr rfl
        intro u hu
        have hu' := Finset.mem_range.mp hu
        rw [show T - 1 - u + 1 = T - u by omega]
      have hlengths : ∑ u ∈ Finset.range T, (bucket (T - u)).length =
          ∑ t ∈ Finset.range T, (bucket (t + 1)).length := by
        rw [<- Finset.sum_range_reflect fun t => (bucket (t + 1)).length]
        apply Finset.sum_congr rfl
        intro u hu
        have hu' := Finset.mem_range.mp hu
        rw [show T - 1 - u + 1 = T - u by omega]
      rw [<- hexponents, <- hlengths, <- hy]
      rw [hzero rfl, Nat.sub_zero] at hphase
      exact hphase
  · refine ⟨fun heq => rfl, Nat.le_refl 0, h.turns, x, ?_, hacc.mono (by simp)⟩
    rw [Finset.range_zero, Finset.sum_empty, mul_zero, monomial_zero, one_mul, turn_zero]
  · rintro t ht s ⟨_, hs⟩
    rcases loopStep_spec h hsmall hek (i := T - t) (fun j hj => hbucket _ j hj) hs with
      ⟨s', hs', hone, hturned⟩
    refine ⟨s', hs', fun heq => hone (by omega), ?_⟩
    have hexponent : (5 : Int) ^ 1 * ((2 * 2 ^ (d + 1) / params.ring.q : Nat) *
          bucketSum (secretEntry sk) (bucket (T - t)) + (2 * 2 ^ (d + 1) / params.ring.q : Nat) *
          ∑ u ∈ Finset.range t, 5 ^ (t - u) * bucketSum (secretEntry sk) (bucket (T - u))) =
        (2 * 2 ^ (d + 1) / params.ring.q : Nat) * ∑ u ∈ Finset.range (t + 1),
          5 ^ (t + 1 - u) * bucketSum (secretEntry sk) (bucket (T - u)) := by
      have hshift : ∑ u ∈ Finset.range t, (5 : Int) ^ (t + 1 - u) *
            bucketSum (secretEntry sk) (bucket (T - u)) =
          5 * ∑ u ∈ Finset.range t, 5 ^ (t - u) * bucketSum (secretEntry sk) (bucket (T - u)) := by
        rw [Finset.mul_sum]
        apply Finset.sum_congr rfl
        intro u hu
        rw [Nat.succ_sub (Finset.mem_range.mp hu).le, pow_succ]
        ring
      rw [Finset.sum_range_succ, hshift, Nat.add_sub_cancel_left]
      ring
    rw [monomial_mul_monomial_mul, map_mul, turn_monomial, Nat.cast_ofNat, hexponent, <- turn_add,
      Nat.add_comm 1] at hturned
    rw [Finset.sum_range_succ fun u => (bucket (T - u)).length, Nat.add_mul, <- Nat.add_assoc]
    exact hturned

omit hsmall hek in
theorem turn_back (hback : (2 ^ (d + 2) - 5) % 2 = 1) (hinverse : (2 ^ (d + 2) - 1) % 2 = 1)
    (x : NegacyclicRing (2 ^ (d + 1)) (ZMod params.ring.gadget.Q)) :
    turn (2 ^ (d + 1)) (ZMod params.ring.gadget.Q) five_odd (2 ^ d - 1)
        (NegacyclicRing.automorphism (2 ^ (d + 1)) (ZMod params.ring.gadget.Q) _ hback x) =
      NegacyclicRing.automorphism (2 ^ (d + 1)) (ZMod params.ring.gadget.Q) _ hinverse x := by
  rcases h.order_bounds with ⟨hlow, _, _⟩
  apply automorphism_comp
  rw [<- pow_succ', <- ZMod.natCast_eq_natCast_iff, Nat.cast_mul, Nat.cast_sub (by omega),
    Nat.cast_sub (by omega), ZMod.natCast_self, Nat.cast_pow, Nat.cast_ofNat, Nat.cast_one,
    zero_sub, zero_sub, mul_neg, <- pow_succ, Nat.sub_add_cancel (Nat.one_le_two_pow),
    Scheme.EvalSum.five_pow_half]

omit hsmall hek in
theorem inverse_monomial (hinverse : (2 ^ (d + 2) - 1) % 2 = 1) (e : Int) :
    NegacyclicRing.automorphism (2 ^ (d + 1)) (ZMod params.ring.gadget.Q) _ hinverse
        (monomial (2 ^ (d + 1)) (ZMod params.ring.gadget.Q) e) =
      monomial (2 ^ (d + 1)) (ZMod params.ring.gadget.Q) (-e) := by
  rcases h.order_bounds with ⟨hlow, _, _⟩
  rw [automorphism_monomial]
  apply monomial_congr
  rw [<- pow_succ']
  apply Int.modEq_iff_dvd.mpr
  refine ⟨-e, ?_⟩
  push_cast [Nat.cast_sub (show 1 <= 2 ^ (d + 2) by omega)]
  ring

omit hsmall hek in
theorem inverse_inverse (hinverse : (2 ^ (d + 2) - 1) % 2 = 1)
    (x : NegacyclicRing (2 ^ (d + 1)) (ZMod params.ring.gadget.Q)) :
    NegacyclicRing.automorphism (2 ^ (d + 1)) (ZMod params.ring.gadget.Q) _ hinverse
        (NegacyclicRing.automorphism (2 ^ (d + 1)) (ZMod params.ring.gadget.Q) _ hinverse x) =
      x := by
  rcases h.order_bounds with ⟨hlow, _, _⟩
  have hone : 1 % 2 = 1 := rfl
  rw [automorphism_comp hinverse hinverse hone, automorphism_one]
  rw [<- pow_succ', <- ZMod.natCast_eq_natCast_iff, Nat.cast_mul, Nat.cast_sub (by omega),
    ZMod.natCast_self, Nat.cast_one, zero_sub, neg_mul_neg, one_mul]

theorem evalAcc_spec {a : NativeVectorT} (ha : Residues n (2 ^ (d + 2)) a.data)
    {acc : RLWECiphertext} {x : NegacyclicRing (2 ^ (d + 1)) (ZMod params.ring.gadget.Q)}
    (h0 : Poly.StandsFor (d + 1) params.ring.gadget.Q psi 0 acc.1)
    (h1 : Poly.StandsFor (d + 1) params.ring.gadget.Q psi x acc.2) :
    exists (v : Nat -> Nat) (acc' : RLWECiphertext),
      (forall i, i < n -> oddMask (2 ^ (d + 1)) a i = some (v i)) ∧
      evalAcc params ek acc a = some acc' ∧
      HasPhaseWithin (d + 1) params.ring.gadget.Q psi z
        (n * productBound params.ring (d + 1) g E Z +
          (2 ^ (d + 1) - 1) * autoBound params.ring (d + 1) g E Z)
        (monomial (2 ^ (d + 1)) (ZMod params.ring.gadget.Q) ((2 * 2 ^ (d + 1) / params.ring.q : Nat) *
          ∑ i ∈ Finset.range n, (v i : Int) * secretEntry sk i) * x) acc' := by
  rcases h.order_bounds with ⟨hlow, hhigh, heven⟩
  have hinverse : (2 ^ (d + 2) - 1) % 2 = 1 := by omega
  rcases permuteMap_spec h.ring.le ha with ⟨index, v, map, hmap, hbuckets, hcodes⟩
  have hmem (c : Int) (j : Nat) (hj : j ∈ map c) : j < n := by
    rw [hbuckets, bucket] at hj
    exact List.mem_range.mp (List.mem_of_mem_filter hj)
  rcases hek.back with ⟨hback, ak, hak, hIsKey⟩
  have hbackWord : usint (((2 ^ (d + 2) : Nat) : Int) - 5) = 2 ^ (d + 2) - 5 := by
    rw [show ((2 ^ (d + 2) : Nat) : Int) - 5 = (2 ^ (d + 2) - 5 : Nat) by omega, usint_natCast,
      Nat.mod_eq_of_lt (by omega)]
  rcases h1.automorphism h.ring.pos h.ring.ready h.ring.le hback (by omega) with
    ⟨second, hsecond, hsecondStands⟩
  have hstart : HasPhaseRing (d + 1) params.ring.gadget.Q psi z
      (NegacyclicRing.automorphism (2 ^ (d + 1)) (ZMod params.ring.gadget.Q) _ hback x)
      (acc.1, second) :=
    ⟨0, _, h0, hsecondStands, sub_eq_self.mpr (zero_mul z)⟩
  rcases powersLoop_spec h hsmall hek (fun i => map (-i)) (fun i j hj => hmem _ j hj)
    (hstart.within 0) with ⟨acc1, hacc1, hphase1⟩
  rcases addBucket_spec h hsmall hek (hmem (2 ^ (d + 2) : Nat)) hphase1 with
    ⟨acc2, hacc2, hphase2⟩
  rcases hphase2.automorphism h.ring hback (by omega) hIsKey hsmall with ⟨acc3, hacc3, hphase3⟩
  rcases powersLoop_spec h hsmall hek (fun i => map i) (fun i j hj => hmem _ j hj)
    hphase3 with ⟨acc4, hacc4, hphase4⟩
  rcases addBucket_spec h hsmall hek (hmem 0) hphase4 with ⟨acc5, hacc5, hphase5⟩
  rw [turn_back h hback hinverse, turn_back h hback hinverse, map_mul, map_mul,
    inverse_monomial h hinverse, inverse_monomial h hinverse, inverse_inverse h hinverse,
    monomial_mul_monomial_mul, monomial_mul_monomial_mul, monomial_mul_monomial_mul] at hphase5
  refine ⟨v, acc5, fun i hi => (hcodes i hi).1, ?_, ?_⟩
  · have hnot : ¬2 ^ (d + 1) < 2 := by
      rw [pow_succ] at hlow
      omega
    have hM : int32 ((2 ^ (d + 2) : Nat) : Int) = (2 ^ (d + 2) : Nat) :=
      int32_natCast (by omega)
    rw [evalAcc, h.order_eq, h.ring.dimension, if_neg hnot, h.table, hmap, hbackWord, hM]
    simp only [Option.bind_eq_bind, Option.bind_some, hsecond, hacc1, hacc2, hak, hacc3, hacc4,
      hacc5]
  · simp only [hbuckets] at hphase5
    have hexponent := (exponent_buckets (fun i hi => (hcodes i hi).2.2) (secretEntry sk)).mul_left
      (2 * 2 ^ (d + 1) / params.ring.q : Nat)
    have hlength := length_buckets fun i hi => (hcodes i hi).2.2
    rw [<- monomial_congr hexponent]
    generalize productBound params.ring (d + 1) g E Z = step at hphase5 ⊢
    generalize autoBound params.ring (d + 1) g E Z = turned at hphase5 ⊢
    have hturns : 2 ^ (d + 1) - 1 = 2 * (2 ^ d - 1) + 1 := by
      have hpow := Nat.one_le_two_pow (n := d)
      rw [pow_succ]
      omega
    have hgather (r u v w y : Int) : r * u + r * v + -(r * w) + -(r * y) = r * (v + u - (y + w)) := by
      ring
    rw [hgather] at hphase5
    apply hphase5.mono (le_of_eq _)
    rw [hturns]
    linarith [congrArg (fun count => count * step) hlength]

end Loops

/-! ## The rotation -/

/-- `v` holds the odd integers at or next above the negated coordinates of the mask. -/
def OddNeighbours (n M : Nat) (a : NativeVectorT) (v : Nat -> Nat) : Prop :=
  forall i, i < n -> v i % 2 = 1 ∧ exists e : Int, 0 <= e ∧ e <= 1 ∧
    (v i : Int) ≡ e - (a.data.getD i 0 : Nat) [ZMOD M]

theorem or_one_cases (y : Nat) : (y ||| 1) % 2 = 1 ∧ (y ||| 1 = y ∨ y ||| 1 = y + 1) := by
  refine ⟨Nat.or_mod_two_eq_one.mpr (Or.inr rfl), ?_⟩
  rcases Nat.mod_two_eq_zero_or_one y with heven | hodd
  · right
    have hsplit := Nat.two_pow_add_eq_or_of_lt (i := 1) (b := 1) (by decide) (y / 2)
    rw [show 2 ^ 1 * (y / 2) = y by omega] at hsplit
    exact hsplit.symm
  · left
    have hsplit := Nat.two_pow_add_eq_or_of_lt (i := 1) (b := 1) (by decide) (y / 2)
    rw [show 2 ^ 1 * (y / 2) = y - 1 by omega, show y - 1 + 1 = y by omega] at hsplit
    rw [hsplit, Nat.or_assoc, Nat.or_self]

theorem oddMask_neighbours {d n : Nat} (hd : d + 1 <= 24) {a : NativeVectorT}
    (ha : Residues n (2 ^ (d + 2)) a.data) {v : Nat -> Nat}
    (hv : forall i, i < n -> oddMask (2 ^ (d + 1)) a i = some (v i)) :
    OddNeighbours n (2 ^ (d + 2)) a v := by
  intro i hi
  have hle : 2 ^ (d + 2) <= 2 ^ 25 := Nat.pow_le_pow_right (by decide) (by omega)
  rcases ha.exists_entry hi with ⟨x, hx, hlt⟩
  rcases negated_modEq (by omega) hlt with ⟨hneg, hmod⟩
  have hentry : a.data.getD i 0 = x := by
    rw [List.getD_eq_getElem?_getD, hx, Option.getD_some]
  have hM : usint (2 * 2 ^ (d + 1) : Nat) = 2 ^ (d + 2) := by
    rw [show 2 * 2 ^ (d + 1) = 2 ^ (d + 2) from (pow_succ' 2 (d + 1)).symm, usint_natCast,
      Nat.mod_eq_of_lt (by omega)]
  have hword := hv i hi
  rw [oddMask, hx, Option.bind_eq_bind, Option.bind_some, hM, usint_natCast,
    Nat.mod_eq_of_lt (by omega)] at hword
  generalize modSubFast 0 x (2 ^ (d + 2)) = y at hmod hword
  rcases or_one_cases y with ⟨hodd, hcases⟩
  rw [<- Option.some.inj hword, hentry]
  refine ⟨hodd, ?_⟩
  rcases hcases with heq | heq
  · refine ⟨0, le_refl 0, by decide, ?_⟩
    rw [heq, zero_sub]
    exact hmod
  · refine ⟨1, by decide, le_refl 1, ?_⟩
    rw [heq, Nat.cast_succ, add_comm (y : Int), sub_eq_add_neg]
    exact hmod.add_left 1

/-- Accumulation with generated keys rotates by the secret times the odd neighbours of the mask. -/
theorem automorphismRotation {params : LMKCDEYParams} {d psi g : Nat}
    (h : LMKCDEYConsistent params d psi g) {n mod E Z : Nat} {sk : NativeVectorT}
    (hsk : NativeVectorT.Valid n mod sk) (hmod : mod < 2 ^ 31) (hkeys : params.numAutoKeys < n)
    (hkeys32 : params.numAutoKeys < 2 ^ 32) {skNTT : Poly}
    {z : NegacyclicRing (2 ^ (d + 1)) (ZMod params.ring.gadget.Q)}
    (hz : Poly.StandsFor (d + 1) params.ring.gadget.Q psi z skNTT)
    (hsmall : Small (2 ^ (d + 1)) params.ring.gadget.Q Z z)
    {drawn autoDrawn : Nat -> Nat -> Poly × Poly}
    (hdrawn : forall i r, Drawn params.ring (d + 1) E (drawn i r))
    (hautoDrawn : forall i r, DrawnEvaluation params.ring (d + 1) psi E (autoDrawn i r)) :
    exists ek, keyGenAcc params skNTT sk drawn autoDrawn = some ek ∧
      forall a acc x, Residues n (2 ^ (d + 2)) a.data ->
        Poly.StandsFor (d + 1) params.ring.gadget.Q psi 0 acc.1 ->
        Poly.StandsFor (d + 1) params.ring.gadget.Q psi x acc.2 ->
        exists v acc', OddNeighbours n (2 ^ (d + 2)) a v ∧ evalAcc params ek acc a = some acc' ∧
          HasPhaseWithin (d + 1) params.ring.gadget.Q psi z
            (n * productBound params.ring (d + 1) g E Z +
              (2 ^ (d + 1) - 1) * autoBound params.ring (d + 1) g E Z)
            (monomial (2 ^ (d + 1)) (ZMod params.ring.gadget.Q)
              ((2 * 2 ^ (d + 1) / params.ring.q : Nat) *
                ∑ i ∈ Finset.range n, (v i : Int) * secretEntry sk i) * x) acc' := by
  rcases keyGenAcc_spec h hz hsk hmod hkeys hkeys32 hdrawn hautoDrawn with ⟨ek, hgen, hek⟩
  refine ⟨ek, hgen, fun a acc x ha h0 h1 => ?_⟩
  rcases evalAcc_spec h hsmall hek ha h0 h1 with ⟨v, acc', hv, hacc', hphase⟩
  exact ⟨v, acc', oddMask_neighbours h.ring.le ha hv, hacc', hphase⟩

/-- Four coefficients with binary digits and one key for turns. -/
def squareRing : LMKCDEYParams where
  ring :=
    { gadget := { Q := 17, N := 4, baseG := 2, digitsG := 5 }
      q := 8
      cache := fun q => Transform.preCompute 2 (2 * 2 ^ 2) q }
  numAutoKeys := 1
  logGen := preComputeLogGen 4

theorem squareRing_ready : Poly.Ready squareRing.ring.cache 2 17 2 :=
  Poly.ready_of_preCompute ⟨rfl, by decide, by decide⟩ (by decide) (by decide) (by decide)
    (by decide) rfl

theorem squareRing_consistent : LMKCDEYConsistent squareRing 1 2 1 where
  ring := {
    pos := by decide
    le := by decide
    dimension := rfl
    ready := squareRing_ready
    bits_pos := by decide
    bits_lt := by decide
    base := rfl
    count := by decide +kernel
    two := by decide }
  order := by decide
  two := by decide
  table := rfl
  turns := by decide

theorem automorphismRotation_eight :
    exists ek v acc', keyGenAcc squareRing (Poly.zero 17 4 .EVALUATION)
        { modulus := 5, data := [1, 4] }
        (fun _ _ => (Poly.zero 17 4 .COEFFICIENT, Poly.zero 17 4 .COEFFICIENT))
        (fun _ _ => (Poly.zero 17 4 .EVALUATION, Poly.zero 17 4 .EVALUATION)) = some ek ∧
      OddNeighbours 2 (2 ^ 3) { modulus := 8, data := [3, 6] } v ∧
      evalAcc squareRing ek (Poly.zero 17 4 .EVALUATION, Poly.zero 17 4 .EVALUATION)
        { modulus := 8, data := [3, 6] } = some acc' ∧
      HasPhaseWithin 2 17 2 0
        (2 * productBound squareRing.ring 2 1 3 0 + (2 ^ 2 - 1) * autoBound squareRing.ring 2 1 3 0)
        (monomial (2 ^ 2) (ZMod 17) ((2 * 2 ^ 2 / 8 : Nat) * ∑ i ∈ Finset.range 2,
          (v i : Int) * secretEntry { modulus := 5, data := [1, 4] } i) * 0) acc' := by
  have hzero := Poly.zero_standsFor (k := 2) (q := 17) (by decide) 2
  have hsmallZero := small_zero (2 ^ 2) 17 3
  have hwell := (Poly.zero_denotes (q := 17) (by decide) (2 ^ 2) .EVALUATION).wellFormed
  have hsk : NativeVectorT.Valid 2 5 { modulus := 5, data := [1, 4] } := ⟨rfl, rfl, by decide⟩
  have hautoDrawn (_ _ : Nat) : DrawnEvaluation squareRing.ring 2 2 3
      (Poly.zero 17 4 .EVALUATION, Poly.zero 17 4 .EVALUATION) :=
    ⟨hwell, 0, hsmallZero, hzero⟩
  rcases automorphismRotation squareRing_consistent hsk (by decide) (by decide) (by decide) hzero
    (small_zero _ _ 0) (fun _ _ => drawn_zero (by decide) 3) hautoDrawn with ⟨ek, hek, hrotates⟩
  rcases hrotates { modulus := 8, data := [3, 6] }
    (Poly.zero 17 4 .EVALUATION, Poly.zero 17 4 .EVALUATION) 0 ⟨rfl, by decide⟩ hzero hzero with
    ⟨v, acc', hv, hacc', hphase⟩
  exact ⟨ek, v, acc', hek, hv, hacc', hphase⟩

end RingGSWAccumulatorLMKCDEY

end BinFHE
end OpenFHE
