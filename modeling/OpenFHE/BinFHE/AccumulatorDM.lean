import OpenFHE.BinFHE.AccumulatorKeys
import OpenFHE.BinFHE.LWEKeySwitch

/-!
# Accumulation by digits of the mask

The refreshing key encrypts every multiple of every entry of the secret that a digit of a mask may
ask for.  The accumulation multiplies by one key for each digit that is not zero, so that the
phase is rotated by the product of the mask with the secret.
-/

namespace OpenFHE
namespace BinFHE

open Core Foundation NativeInteger Hal NegacyclicRing RingGSWAccumulator

/-- The parameters with the base of the refreshing key. -/
structure DMParams where
  ring : AccumulatorParams
  baseR : Nat
  digitCountR : Nat

/-- `m_digitsR`. -/
def DMParams.digitsR (params : DMParams) : List Nat :=
  LWEEncryptionScheme.powersKS params.baseR params.digitCountR (word 1)

namespace RingGSWAccumulatorDM

def keyGenDM (params : AccumulatorParams) (skNTT : Poly) (m : Int) (drawn : Nat -> Poly × Poly) :
    Option RingGSWEvalKey := do
  let mm <- exponentDM params.gadget.N params.q m
  encryptKey params skNTT (some (reducedMM params.gadget.N mm)) drawn

/-- The message of the key at `i`, `j` and `k`, a product of signed words. -/
def refreshMessage (params : DMParams) (sk : NativeVectorT) (i j k : Nat) : Option Int := do
  let s <- sk.data[i]?
  let centered <- centered32 sk.modulus s
  let multiple <- checked32 (centered * j)
  let digit <- params.digitsR[k]?
  checked32 (multiple * int32 digit)

/-- The keys for the digit zero are not set. -/
def keyGenAcc (params : DMParams) (skNTT : Poly) (sk : NativeVectorT)
    (drawn : Nat -> Nat -> Nat -> Nat -> Poly × Poly) : Option RingGSWACCKey :=
  generateKeys sk.data.length params.baseR params.digitsR.length fun i j k =>
    if j = 0 then some none
    else do
      let m <- refreshMessage params sk i j k
      let key <- keyGenDM params.ring skNTT m (drawn i j k)
      return some key

/-- One digit of `aI`. -/
def digitStep (params : DMParams) (ek : RingGSWACCKey) (i : Nat) (s : RLWECiphertext × Nat)
    (k : Nat) : Option (RLWECiphertext × Nat) :=
  if params.baseR = 0 then none
  else do
    let a0 := usint (s.2 % params.baseR : Nat)
    let acc <-
      if a0 = 0 then some s.1
      else do
        let key <- keyAt ek i a0 k
        externalProduct params.ring key s.1
    return (acc, s.2 / params.baseR)

def coordinateStep (params : DMParams) (ek : RingGSWACCKey) (a : NativeVectorT)
    (acc : RLWECiphertext) (i : Nat) : Option RLWECiphertext := do
  let x <- a.data[i]?
  let s <- (List.range params.digitsR.length).foldlM (digitStep params ek i)
    (acc, modSubFast 0 x params.ring.q)
  return s.1

def evalAcc (params : DMParams) (ek : RingGSWACCKey) (acc : RLWECiphertext) (a : NativeVectorT) :
    Option RLWECiphertext :=
  (List.range a.data.length).foldlM (coordinateStep params ek a) acc

/-! ## The refreshing key -/

structure Fits (params : DMParams) (n mod : Nat) (sk : NativeVectorT) : Prop where
  valid : NativeVectorT.Valid n mod sk
  modulus_lt : mod < 2 ^ 31
  base : 2 <= params.baseR
  product : forall i, i < n -> (secretEntry sk i).natAbs * (params.baseR - 1) *
    params.baseR ^ (params.digitCountR - 1) < 2 ^ 31

/-- The key for `(i, j, k)` encrypts the rotation by `j * R ^ k` times entry `i`. -/
def IsRefreshKey (params : DMParams) (k psi n E : Nat) (sk : NativeVectorT)
    (z : NegacyclicRing (2 ^ k) (ZMod params.ring.gadget.Q)) (ek : RingGSWACCKey) : Prop :=
  forall i, i < n -> forall j, 0 < j -> j < params.baseR -> forall d, d < params.digitCountR ->
    exists key, keyAt ek i j d = some key ∧
      IsKey params.ring k psi z (monomial (2 ^ k) (ZMod params.ring.gadget.Q)
        ((2 * 2 ^ k / params.ring.q : Nat) * (secretEntry sk i * j * params.baseR ^ d))) E key

theorem digitsR_getElem? (params : DMParams) {d : Nat} (hd : d < params.digitCountR) :
    params.digitsR[d]? = some (word (params.baseR ^ d)) := by
  rw [DMParams.digitsR, LWEEncryptionScheme.powersKS_getElem? params.baseR 1 d hd, Nat.one_mul]

theorem digitsR_length (params : DMParams) : params.digitsR.length = params.digitCountR := by
  have hlength : forall count value,
      (LWEEncryptionScheme.powersKS params.baseR count value).length = count := by
    intro count
    induction count with
    | zero =>
        intro value
        rfl
    | succ count ih =>
        intro value
        rw [LWEEncryptionScheme.powersKS, List.length_cons, ih]
  exact hlength _ _

section Messages

variable {params : DMParams} {n mod : Nat} {sk : NativeVectorT} (hfits : Fits params n mod sk)

include hfits

theorem Fits.product_lt {i j d : Nat} (hi : i < n) (hj : j < params.baseR)
    (hd : d < params.digitCountR) :
    (secretEntry sk i).natAbs * j * params.baseR ^ d < 2 ^ 31 := by
  have hbase := hfits.base
  apply lt_of_le_of_lt _ (hfits.product i hi)
  exact Nat.mul_le_mul (Nat.mul_le_mul_left _ (by omega))
    (Nat.pow_le_pow_right (by omega) (by omega))

theorem refreshMessage_eq {i j d : Nat} (hi : i < n) (hj : j < params.baseR)
    (hd : d < params.digitCountR) : refreshMessage params sk i j d =
      some (secretEntry sk i * j * params.baseR ^ d) := by
  rcases hfits.valid.residues.exists_entry hi with ⟨s, hs, hslt⟩
  have hbase := hfits.base
  have hentry : NativeVector.centered sk.modulus s = secretEntry sk i := by
    rw [secretEntry, List.getD_eq_getElem?_getD, hs, Option.getD_some]
  have hmod : sk.modulus < 2 ^ 31 := by
    rw [hfits.valid.modulus_eq]
    exact hfits.modulus_lt
  have hsmall := hfits.product_lt hi hj hd
  have hmultiple := hfits.product_lt hi hj (Nat.zero_lt_of_lt hd)
  rw [pow_zero, mul_one] at hmultiple
  rw [refreshMessage, hs, Option.bind_eq_bind, Option.bind_some,
    centered32_eq hmod (by rw [hfits.valid.modulus_eq]; exact hslt), hentry, Option.bind_eq_bind,
    Option.bind_some,
    checked32_of_natAbs (by rw [Int.natAbs_mul, Int.natAbs_natCast]; exact hmultiple),
    Option.bind_some, digitsR_getElem? params hd, Option.bind_some]
  -- A power that does not fit is multiplied by zero.
  rcases Nat.eq_zero_or_pos ((secretEntry sk i).natAbs * j) with hzero | hpos
  · have hproduct : secretEntry sk i * j = 0 := by
      rw [<- Int.natAbs_eq_zero, Int.natAbs_mul, Int.natAbs_natCast]
      exact hzero
    rw [hproduct, zero_mul, zero_mul]
    exact checked32_of_natAbs (by rw [Int.natAbs_zero]; positivity)
  · have hpower : params.baseR ^ d < 2 ^ 31 :=
      lt_of_le_of_lt (Nat.le_mul_of_pos_left _ hpos) hsmall
    rw [word_eq (lt_trans hpower (by decide)), int32_natCast hpower, Nat.cast_pow]
    apply checked32_of_natAbs
    rw [Int.natAbs_mul, Int.natAbs_mul, Int.natAbs_pow, Int.natAbs_natCast, Int.natAbs_natCast]
    exact hsmall

end Messages

section KeyGeneration

variable {params : DMParams} {k psi g : Nat} (h : Consistent params.ring k psi g)
  (hq : params.ring.q ∣ 2 * 2 ^ k) {skNTT : Poly}
  {z : NegacyclicRing (2 ^ k) (ZMod params.ring.gadget.Q)}
  (hz : Poly.StandsFor k params.ring.gadget.Q psi z skNTT)

include h hq hz

theorem keyGenDM_spec {E : Nat} {drawn : Nat -> Poly × Poly} (m : Int)
    (hdrawn : forall i, i < params.ring.digitsG2 -> Drawn params.ring k E (drawn i)) :
    exists key, keyGenDM params.ring skNTT m drawn = some key ∧
      IsKey params.ring k psi z (monomial (2 ^ k) (ZMod params.ring.gadget.Q)
        ((2 * 2 ^ k / params.ring.q : Nat) * m)) E key := by
  rcases exponent_scaled (Nat.mul_div_cancel' hq).symm (by positivity) m with ⟨hmod, hlt⟩
  rcases encryptReduced_spec h hz hlt hdrawn with ⟨key, hkey, hIsKey⟩
  refine ⟨key, ?_, ?_⟩
  · rw [keyGenDM, h.dimension, exponentDM_eq h.le hq]
    exact hkey
  · rw [<- monomial_congr hmod]
    exact hIsKey

theorem keyGenAcc_spec {n mod E : Nat} {sk : NativeVectorT} (hfits : Fits params n mod sk)
    {drawn : Nat -> Nat -> Nat -> Nat -> Poly × Poly}
    (hdrawn : forall i j d r, Drawn params.ring k E (drawn i j d r)) :
    exists ek, keyGenAcc params skNTT sk drawn = some ek ∧
      IsRefreshKey params k psi n E sk z ek := by
  have hgenerated := generateKeys_spec (n := sk.data.length) (m := params.baseR)
    (l := params.digitsR.length) (fun i j d => if j = 0 then some none else do
      let m <- refreshMessage params sk i j d
      let key <- keyGenDM params.ring skNTT m (drawn i j d)
      return some key)
    (fun i j d y => 0 < j -> exists key, y = some key ∧
      IsKey params.ring k psi z (monomial (2 ^ k) (ZMod params.ring.gadget.Q)
        ((2 * 2 ^ k / params.ring.q : Nat) * (secretEntry sk i * j * params.baseR ^ d))) E key)
    ?_
  · rcases hgenerated with ⟨ek, hek, hkeys⟩
    refine ⟨ek, hek, fun i hi j hj0 hj d hd => ?_⟩
    rw [<- hfits.valid.residues.1] at hi
    rw [<- digitsR_length params] at hd
    exact hkeys i hi j hj d hd hj0
  · intro i hi j hj d hd
    rw [hfits.valid.residues.1] at hi
    rw [digitsR_length] at hd
    by_cases hj0 : j = 0
    · exact ⟨none, if_pos hj0, fun hpos => absurd hj0 hpos.ne'⟩
    · rcases keyGenDM_spec h hq hz (secretEntry sk i * j * params.baseR ^ d)
        (fun r _ => hdrawn i j d r) with ⟨key, hkey, hIsKey⟩
      refine ⟨some key, ?_, fun _ => ⟨key, rfl, hIsKey⟩⟩
      rw [if_neg hj0, refreshMessage_eq hfits hi hj hd]
      simp only [Option.bind_eq_bind, Option.bind_some, hkey]
      rfl

end KeyGeneration

/-! ## The rotation -/

section Rotation

variable {params : DMParams} {k psi g : Nat} (h : Consistent params.ring k psi g)
  (hbase : 2 <= params.baseR) (hbase32 : params.baseR < 2 ^ 32) {n E Z : Nat} {sk : NativeVectorT}
  {z : NegacyclicRing (2 ^ k) (ZMod params.ring.gadget.Q)}
  (hsmall : Small (2 ^ k) params.ring.gadget.Q Z z) {ek : RingGSWACCKey}
  (hek : IsRefreshKey params k psi n E sk z ek)

include h hbase hbase32 hsmall hek

/-- The digits below `d` have rotated the phase, and the quotient holds the others. -/
theorem digitRun {i A B : Nat} (hi : i < n)
    {x : NegacyclicRing (2 ^ k) (ZMod params.ring.gadget.Q)} {acc : RLWECiphertext}
    (hacc : HasPhaseWithin k params.ring.gadget.Q psi z B x acc) :
    exists s, (List.range params.digitCountR).foldlM (digitStep params ek i) (acc, A) = some s ∧
      HasPhaseWithin k params.ring.gadget.Q psi z
        (B + params.digitCountR * productBound params.ring k g E Z)
        (monomial (2 ^ k) (ZMod params.ring.gadget.Q) ((2 * 2 ^ k / params.ring.q : Nat) *
          (secretEntry sk i * (A % params.baseR ^ params.digitCountR : Nat))) * x) s.1 := by
  have hrun := foldlM_range_spec (f := digitStep params ek i) (n := params.digitCountR)
    (s := (acc, A)) (fun d s => s.2 = A / params.baseR ^ d ∧
      HasPhaseWithin k params.ring.gadget.Q psi z
        (B + d * productBound params.ring k g E Z)
        (monomial (2 ^ k) (ZMod params.ring.gadget.Q) ((2 * 2 ^ k / params.ring.q : Nat) *
          (secretEntry sk i * (A % params.baseR ^ d : Nat))) * x) s.1) ?_ ?_
  · rcases hrun with ⟨s, hs, _, hphase⟩
    exact ⟨s, hs, hphase⟩
  · refine ⟨by simp, ?_⟩
    simpa [Nat.mod_one, monomial_zero] using hacc
  · intro d hd s hs
    rcases hs with ⟨hquotient, hphase⟩
    have hdigit : usint (s.2 % params.baseR : Nat) = A / params.baseR ^ d % params.baseR := by
      rw [hquotient, usint_natCast]
      exact Nat.mod_eq_of_lt (lt_trans (Nat.mod_lt _ (by omega)) hbase32)
    have hnext : s.2 / params.baseR = A / params.baseR ^ (d + 1) := by
      rw [hquotient, Nat.div_div_eq_div_mul, pow_succ]
    have hlt : A / params.baseR ^ d % params.baseR < params.baseR := Nat.mod_lt _ (by omega)
    have hpow := Nat.mod_pow_succ (x := A) (b := params.baseR) (k := d)
    generalize A / params.baseR ^ d % params.baseR = digit at hdigit hlt hpow
    rw [digitStep, if_neg (by omega)]
    simp only [Option.bind_eq_bind]
    rw [hdigit]
    by_cases hzero : digit = 0
    · rw [hzero, Nat.mul_zero, Nat.add_zero] at hpow
      refine ⟨(s.1, s.2 / params.baseR), ?_, hnext, ?_⟩
      · rw [if_pos hzero]
        rfl
      · rw [hpow, Nat.succ_mul, <- Nat.add_assoc]
        exact hphase.mono (Nat.le_add_right _ _)
    · rcases hek i hi digit (by omega) hlt d hd with ⟨key, hkey, hIsKey⟩
      rcases hphase.externalProduct h hIsKey (monomial_contracts _ _ _) hsmall with
        ⟨acc', hacc', hphase'⟩
      refine ⟨(acc', s.2 / params.baseR), ?_, hnext, ?_⟩
      · rw [if_neg hzero, hkey]
        simp only [Option.bind_some, hacc']
        rfl
      · rw [monomial_mul_monomial_mul] at hphase'
        rw [hpow, Nat.succ_mul, <- Nat.add_assoc]
        have hexponent : ((2 * 2 ^ k / params.ring.q : Nat) : Int) *
              (secretEntry sk i * (A % params.baseR ^ d + params.baseR ^ d * digit : Nat)) =
            (2 * 2 ^ k / params.ring.q : Nat) * (secretEntry sk i * digit * params.baseR ^ d) +
              (2 * 2 ^ k / params.ring.q : Nat) *
                (secretEntry sk i * (A % params.baseR ^ d : Nat)) := by
          push_cast
          ring
        rw [hexponent]
        exact hphase'

theorem coordinateStep_spec (hq : params.ring.q ∣ 2 * 2 ^ k)
    (hdigits : params.ring.q <= params.baseR ^ params.digitCountR) {a : NativeVectorT}
    (ha : NativeVectorT.Valid n params.ring.q a) {i B : Nat} (hi : i < n)
    {x : NegacyclicRing (2 ^ k) (ZMod params.ring.gadget.Q)} {acc : RLWECiphertext}
    (hacc : HasPhaseWithin k params.ring.gadget.Q psi z B x acc) :
    exists acc', coordinateStep params ek a acc i = some acc' ∧
      HasPhaseWithin k params.ring.gadget.Q psi z
        (B + params.digitCountR * productBound params.ring k g E Z)
        (monomial (2 ^ k) (ZMod params.ring.gadget.Q) (-((2 * 2 ^ k / params.ring.q : Nat) *
          ((a.data.getD i 0 : Nat) * secretEntry sk i))) * x) acc' := by
  rcases ha.residues.exists_entry hi with ⟨v, hv, hlt⟩
  have hentry : a.data.getD i 0 = v := by
    rw [List.getD_eq_getElem?_getD, hv, Option.getD_some]
  have hqpos : 0 < params.ring.q := by omega
  have hq60 : params.ring.q < 2 ^ 60 := by
    have hN : 2 ^ k <= 2 ^ 24 := Nat.pow_le_pow_right (by decide) h.le
    have := Nat.le_of_dvd (by positivity) hq
    omega
  have hcancel := (Nat.mul_div_cancel' hq).symm
  rcases negated_scaled hcancel hq60 hlt with ⟨hneg, hmod⟩
  rcases digitRun h hbase hbase32 hsmall hek hi hacc (A := modSubFast 0 v params.ring.q) with
    ⟨s, hs, hphase⟩
  refine ⟨s.1, ?_, ?_⟩
  · rw [coordinateStep, hv, digitsR_length]
    simp only [Option.bind_eq_bind, Option.bind_some, hs]
    rfl
  · rw [Nat.mod_eq_of_lt (lt_of_lt_of_le hneg hdigits)] at hphase
    have hexponent : ((2 * 2 ^ k / params.ring.q : Nat) : Int) *
        (secretEntry sk i * (modSubFast 0 v params.ring.q : Nat)) ≡
          -((2 * 2 ^ k / params.ring.q : Nat) * (v * secretEntry sk i))
            [ZMOD (2 * 2 ^ k : Nat)] := by
      have hscaled := hmod.mul_left (secretEntry sk i)
      push_cast at hscaled ⊢
      convert hscaled using 1 <;> ring
    rw [hentry, <- monomial_congr hexponent]
    exact hphase

theorem evalAcc_spec (hq : params.ring.q ∣ 2 * 2 ^ k)
    (hdigits : params.ring.q <= params.baseR ^ params.digitCountR) {a : NativeVectorT}
    (ha : NativeVectorT.Valid n params.ring.q a) {B : Nat}
    {x : NegacyclicRing (2 ^ k) (ZMod params.ring.gadget.Q)} {acc : RLWECiphertext}
    (hacc : HasPhaseWithin k params.ring.gadget.Q psi z B x acc) :
    exists acc', evalAcc params ek acc a = some acc' ∧
      HasPhaseWithin k params.ring.gadget.Q psi z
        (B + n * (params.digitCountR * productBound params.ring k g E Z))
        (monomial (2 ^ k) (ZMod params.ring.gadget.Q)
          (-((2 * 2 ^ k / params.ring.q : Nat) * maskSum n a sk)) * x) acc' := by
  rcases rotations_run (fun i hi acc' x' B' hacc' =>
    coordinateStep_spec h hbase hbase32 hsmall hek hq hdigits ha hi hacc') hacc with
    ⟨acc', hrun, hphase⟩
  refine ⟨acc', ?_, hphase⟩
  rw [evalAcc, ha.residues.1]
  exact hrun

end Rotation

/-- Accumulation with generated keys rotates every phase by the product of mask and secret. -/
theorem digitRotation {params : DMParams} {k psi g n mod E Z : Nat}
    (h : Consistent params.ring k psi g) (hq : params.ring.q ∣ 2 * 2 ^ k)
    (hdigits : params.ring.q <= params.baseR ^ params.digitCountR)
    (hbase32 : params.baseR < 2 ^ 32) {sk : NativeVectorT} (hfits : Fits params n mod sk)
    {skNTT : Poly} {z : NegacyclicRing (2 ^ k) (ZMod params.ring.gadget.Q)}
    (hz : Poly.StandsFor k params.ring.gadget.Q psi z skNTT)
    (hsmall : Small (2 ^ k) params.ring.gadget.Q Z z)
    {drawn : Nat -> Nat -> Nat -> Nat -> Poly × Poly}
    (hdrawn : forall i j d r, Drawn params.ring k E (drawn i j d r)) :
    exists ek, keyGenAcc params skNTT sk drawn = some ek ∧
      forall a acc x B, NativeVectorT.Valid n params.ring.q a ->
        HasPhaseWithin k params.ring.gadget.Q psi z B x acc ->
        exists acc', evalAcc params ek acc a = some acc' ∧
          HasPhaseWithin k params.ring.gadget.Q psi z
            (B + n * (params.digitCountR * productBound params.ring k g E Z))
            (monomial (2 ^ k) (ZMod params.ring.gadget.Q)
              (-((2 * 2 ^ k / params.ring.q : Nat) * maskSum n a sk)) * x) acc' := by
  rcases keyGenAcc_spec h hq hz hfits hdrawn with ⟨ek, hgen, hek⟩
  exact ⟨ek, hgen, fun a acc x B ha hacc =>
    evalAcc_spec h hfits.base hbase32 hsmall hek hq hdigits ha hacc⟩

/-- The ternary secret `(1, -1)` under binary digits. -/
def smallSecret : NativeVectorT where
  modulus := 5
  data := [1, 4]

theorem digitRotation_four :
    exists ek acc', keyGenAcc ⟨smallRing, 2, 2⟩ (Poly.zero 17 2 .EVALUATION) smallSecret
        (fun _ _ _ _ => (Poly.zero 17 2 .COEFFICIENT, Poly.zero 17 2 .COEFFICIENT)) = some ek ∧
      evalAcc ⟨smallRing, 2, 2⟩ ek (Poly.zero 17 2 .EVALUATION, Poly.zero 17 2 .EVALUATION)
        { modulus := 4, data := [1, 3] } = some acc' ∧
      HasPhaseWithin 1 17 (Poly.smallRoot 17) 0 (0 + 2 * (2 * productBound smallRing 1 1 3 0))
        (monomial (2 ^ 1) (ZMod 17) (-((2 * 2 ^ 1 / 4 : Nat) *
          maskSum 2 { modulus := 4, data := [1, 3] } smallSecret)) * (0 - 0 * 0)) acc' := by
  have hfits : Fits ⟨smallRing, 2, 2⟩ 2 5 smallSecret := by
    refine ⟨⟨rfl, rfl, by decide⟩, by decide, by decide, fun i hi => ?_⟩
    have hcases : i = 0 ∨ i = 1 := by omega
    rcases hcases with rfl | rfl <;> decide
  have hzero := Poly.zero_standsFor (k := 1) (q := 17) (by decide) (Poly.smallRoot 17)
  have hring : Consistent (DMParams.mk smallRing 2 2).ring 1 (Poly.smallRoot 17) 1 :=
    smallRing_consistent
  rcases digitRotation hring (by decide) (by decide) (by decide) hfits hzero (small_zero _ _ 0)
      (E := 3) (fun _ _ _ _ => drawn_zero (by decide) 3) with ⟨ek, hek, hrotates⟩
  rcases hrotates { modulus := 4, data := [1, 3] }
      (Poly.zero 17 2 .EVALUATION, Poly.zero 17 2 .EVALUATION) _ 0 ⟨rfl, rfl, by decide⟩
      (HasPhaseRing.within ⟨0, 0, hzero, hzero, rfl⟩ 0) with ⟨acc', hacc', hphase⟩
  exact ⟨ek, acc', hek, hacc', hphase⟩

end RingGSWAccumulatorDM

end BinFHE
end OpenFHE
