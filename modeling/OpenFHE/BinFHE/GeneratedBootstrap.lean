import OpenFHE.BinFHE.AccumulatorCGGI
import OpenFHE.BinFHE.AccumulatorDM
import OpenFHE.BinFHE.AccumulatorLMKCDEY
import OpenFHE.BinFHE.Bootstrap

/-!
# Bootstrapping with generated keys

The accumulators rotate a table up to noise.  A bootstrapped ciphertext then encrypts the value
of the table at the phase of its input, with noise that does not depend on the input.
-/

namespace OpenFHE
namespace BinFHE

open Core Foundation NativeInteger Hal NegacyclicRing LWEEncryptionScheme RingGSWAccumulator
open RingGSWAccumulatorLMKCDEY (squareRing squareRing_consistent OddNeighbours oddMask_neighbours
  LMKCDEYConsistent)

/-- The scheme whose blind rotation is an accumulator. -/
def accumulatorScheme (ring : AccumulatorParams)
    (evalAcc : RingGSWACCKey -> RLWECiphertext -> NativeVectorT -> Option RLWECiphertext)
    (switch : Option RingGSWACCKey -> LWECiphertextImpl -> Except Fault LWECiphertextImpl) :
    GateScheme RingGSWACCKey where
  N := ring.gadget.N
  q := ring.q
  Q := ring.gadget.Q
  cache := ring.cache
  EvalAcc := fun ek acc a => Fault.access (evalAcc ek acc a)
  SwitchCTtoqn := switch

/-- `bootstrap` returns the value of the table at `y`, moved by `q / 4`, with noise up to `B`. -/
def ReadsTable {Key : Type _} (scheme : GateScheme Key) (B : Nat) (skN : NativeVectorT)
    (EK : RingGSWBTKey Key) (ct : LWECiphertextImpl) (y : ZMod scheme.q) : Prop :=
  exists ct', scheme.bootstrap EK ct true = .ok ct' ∧
    NativeVectorT.Valid scheme.N scheme.Q ct'.m_a ∧ ct'.m_b < scheme.Q ∧ ct'.m_p = ct.m_p ∧
    forall x, Represents scheme.q (y + (scheme.q / 4 : Nat)) x ->
      exists noise : Int, |noise| <= B ∧
        phase scheme.Q scheme.N skN ct'.m_a.data ct'.m_b =
          (scheme.Q / mulFast ct.m_p 2 + 1 : Nat) +
            ((gateTable (gateConst scheme.q .AND) scheme.q scheme.Q (scheme.Q / 8 + 1)).read x :
              ZMod scheme.Q) + noise

/-- A ciphertext that may be bootstrapped with `ek`. -/
structure Bootstrappable {Key : Type _} (scheme : GateScheme Key) (n : Nat) (ek : Key)
    (EK : RingGSWBTKey Key) (ct : LWECiphertextImpl) : Prop where
  key : EK.BSkey = some ek
  mask : NativeVectorT.Valid n scheme.q ct.m_a
  body_lt : ct.m_b < scheme.q
  plaintext : mulFast ct.m_p 2 ≠ 0

/-- Bootstrapping with `ek` reads the table at the phase. -/
def BootstrapsWithin {Key : Type _} (scheme : GateScheme Key) (n B : Nat)
    (sk skN : NativeVectorT) (ek : Key) : Prop :=
  forall EK ct, Bootstrappable scheme n ek EK ct ->
    ReadsTable scheme B skN EK ct (phase scheme.q n sk ct.m_a.data ct.m_b)

theorem maskSum_cast (q n : Nat) (a sk : NativeVectorT) :
    (maskSum n a sk : ZMod q) = maskProduct q n a.data sk := by
  rw [maskSum, Int.cast_sum, maskProduct]
  apply Finset.sum_congr rfl
  intro i _
  rw [Int.cast_mul, Int.cast_natCast]
  rfl

/-! ## The constant coefficient -/

section Constant

variable {k psi Q : Nat} {cache : Poly.TableCache}

theorem transforms_of_standsFor (hk : 0 < k) (hk24 : k <= 24) (hready : Poly.Ready cache k Q psi)
    {x : NegacyclicRing (2 ^ k) (ZMod Q)} {a : Poly} (ha : Poly.StandsFor k Q psi x a) :
    exists c, Poly.Transforms k Q psi c a ∧ element (2 ^ k) (valueResidue Q c) = x := by
  rcases Poly.switchFormat_transforms hk hready (by omega) ha.wellFormed with ⟨c, _, hc⟩
  have hself : Poly.StandsFor k Q psi (element (2 ^ k) (valueResidue Q c)) a :=
    ⟨_, rfl, hc.eval_denotes⟩
  exact ⟨c, hc, hself.unique hk hready (by omega) ha⟩

/-- Taking the noise out of a phase leaves a polynomial that is turned exactly. -/
theorem constant_of_phase (hk : 0 < k) (hk24 : k <= 24) (hready : Poly.Ready cache k Q psi)
    {q B : Nat} [NeZero q] (hq : q ∣ 2 * 2 ^ k) (t : Int) {m : Nat -> ZMod Q} {skN : NativeVectorT}
    {acc : RLWECiphertext}
    (hacc : HasPhaseWithin k Q psi (element (2 ^ k) (secretResidue Q skN)) B
      (monomial (2 ^ k) (ZMod Q) (-((2 * 2 ^ k / q : Nat) * t)) * element (2 ^ k) m) acc) :
    exists (c0 c1 : Poly) (p : Polynomial (ZMod Q)) (noise : Int),
      Poly.Transforms k Q psi c0 acc.1 ∧
      Poly.Transforms k Q psi c1 acc.2 ∧ |noise| <= B ∧ p.degree < (2 * 2 ^ k : Nat) ∧
      Polynomial.X ^ 2 ^ k + 1 ∣
        Polynomial.X ^ (2 * 2 ^ k / q * (t : ZMod q).val) * p - coeffPoly (2 ^ k) m ∧
      fold (2 ^ k) (accPhase (2 ^ k) Q skN c0 c1).coeff 0 = fold (2 ^ k) p.coeff 0 + noise := by
  have hN := Nat.two_pow_pos k
  rcases hacc with ⟨_, ⟨e, he, rfl⟩, x0, x1, h0, h1, hphase⟩
  rcases transforms_of_standsFor hk hk24 hready h0 with ⟨c0, hc0, rfl⟩
  rcases transforms_of_standsFor hk hk24 hready h1 with ⟨c1, hc1, rfl⟩
  let rest := coeffPoly (2 ^ k) (fun i => (e i : ZMod Q))
  refine ⟨c0, c1, accPhase (2 ^ k) Q skN c0 c1 - rest, e 0, hc0, hc1, he 0 hN, ?_, ?_, ?_⟩
  · apply lt_of_le_of_lt (Polynomial.degree_sub_le _ _)
    apply max_lt (degree_accPhase_lt _ _ _ _ _)
    apply lt_of_lt_of_le (degree_coeffPoly_lt _ _)
    exact_mod_cast (by omega : 2 ^ k <= 2 * 2 ^ k)
  · have hturn : ((2 * 2 ^ k / q * (t : ZMod q).val : Nat) : Int) +
        -((2 * 2 ^ k / q : Nat) * t) ≡ 0 [ZMOD (2 * 2 ^ k : Nat)] := by
      have hval : (((t : ZMod q).val : Nat) : Int) ≡ t [ZMOD q] := by
        apply (ZMod.intCast_eq_intCast_iff _ _ _).mp
        rw [Int.cast_natCast, ZMod.natCast_zmod_val]
      have hscaled := hval.mul_left' (c := ((2 * 2 ^ k / q : Nat) : Int))
      rw [<- Int.natCast_mul (2 * 2 ^ k / q) q, Nat.div_mul_cancel hq] at hscaled
      rw [Nat.cast_mul]
      have hsub := hscaled.sub_right ((2 * 2 ^ k / q : Nat) * t)
      rwa [sub_self, sub_eq_add_neg] at hsub
    have hclean : AdjoinRoot.mk (Polynomial.X ^ 2 ^ k + 1 : Polynomial (ZMod Q))
        (accPhase (2 ^ k) Q skN c0 c1 - rest) =
          monomial (2 ^ k) (ZMod Q) (-((2 * 2 ^ k / q : Nat) * t)) * element (2 ^ k) m := by
      rw [map_sub, accPhase, map_sub, map_mul]
      exact sub_eq_iff_eq_add.mpr hphase
    apply AdjoinRoot.mk_eq_mk.mp
    rw [map_mul, map_pow, hclean, AdjoinRoot.mk_X]
    have hpower := monomial_natCast (n := 2 ^ k) (R := ZMod Q) (2 * 2 ^ k / q * (t : ZMod q).val)
    rw [variableX] at hpower
    rw [<- hpower, monomial_mul_monomial_mul, monomial_congr hturn, monomial_zero, one_mul]
    rfl
  · rw [fold, fold, Polynomial.coeff_sub, Polynomial.coeff_sub, coeff_coeffPoly _ _ hN,
      coeff_coeffPoly_of_le _ _ (by omega)]
    ring

end Constant

/-! ## Bootstrapping -/

/-- Where the accumulator rotates by `t` within `B`, the table is read at the body less `t`. -/
theorem bootstrap_rotated {Key : Type _} {scheme : GateScheme Key} {k psi n B : Nat}
    (hparams : GateScheme.RotationParams scheme k psi) (hq : 8 ∣ scheme.q) (skN : NativeVectorT)
    (P : Int -> Prop) {ek : Key} {EK : RingGSWBTKey Key} {ct : LWECiphertextImpl}
    (hct : Bootstrappable scheme n ek EK ct)
    (hrotates : forall e x, Poly.StandsFor k scheme.Q psi x e -> exists t acc, P t ∧
      scheme.EvalAcc ek (Poly.zero scheme.Q scheme.N .EVALUATION, e) ct.m_a = .ok acc ∧
      HasPhaseWithin k scheme.Q psi (element (2 ^ k) (secretResidue scheme.Q skN)) B
        (monomial (2 ^ k) (ZMod scheme.Q) (-((2 * 2 ^ k / scheme.q : Nat) * t)) * x) acc) :
    exists t, P t ∧ ReadsTable scheme B skN EK ct (ct.m_b - t) := by
  have hbody := GateScheme.represents_quarter hparams hq hct.body_lt
  have hmask : ({ m_a := ct.m_a, m_b := modAddFast ct.m_b (scheme.q / 4) scheme.q } :
      LWECiphertextImpl).m_a.modulus = scheme.q := hct.mask.modulus_eq
  rcases GateScheme.bootstrapGateCore_eq hparams hq .AND ek hmask hbody.1
    (show mulFast 4 2 ≠ 0 by decide) with ⟨m, e, hm, hcore, hconstant⟩
  rcases hrotates e _ ⟨_, rfl, hm.eval_denotes⟩ with ⟨t, acc, ht, hacc, hphase⟩
  have : NeZero scheme.q := ⟨by have := hct.body_lt; omega⟩
  have horder : scheme.q ∣ 2 * 2 ^ k := hparams.dimension ▸ hparams.order
  rcases constant_of_phase hparams.pos hparams.le hparams.ready horder _ hphase with
    ⟨c0, c1, p, noise, h0, h1, hnoise, hdegree, hdvd, hfold⟩
  rcases GateScheme.bootstrap_of_core hparams hq hct.key hct.mask.modulus_eq hct.plaintext
    (hcore.trans hacc) h0 h1 skN with ⟨ct', hrun, hvalid, hbound, hplain, hout⟩
  rw [<- hparams.dimension] at hvalid hout hdvd hdegree
  refine ⟨t, ht, ct', hrun, hvalid, hbound, hplain, fun x hx => ⟨noise, hnoise, ?_⟩⟩
  rw [hout, hparams.dimension, hfold, hconstant _ x p ⟨hx.1, _⟩ hdegree hdvd, add_assoc]
  · rfl
  · rw [hx.2, hbody.2]
    ring

/-- An accumulator that rotates by the product of mask and secret. -/
theorem bootstrapsWithin {Key : Type _} {scheme : GateScheme Key} {k psi n B : Nat}
    (hparams : GateScheme.RotationParams scheme k psi) (hq : 8 ∣ scheme.q)
    {sk skN : NativeVectorT} {ek : Key}
    (hrotates : forall a e x, NativeVectorT.Valid n scheme.q a ->
      Poly.StandsFor k scheme.Q psi x e ->
      exists acc, scheme.EvalAcc ek (Poly.zero scheme.Q scheme.N .EVALUATION, e) a = .ok acc ∧
        HasPhaseWithin k scheme.Q psi (element (2 ^ k) (secretResidue scheme.Q skN)) B
          (monomial (2 ^ k) (ZMod scheme.Q)
            (-((2 * 2 ^ k / scheme.q : Nat) * maskSum n a sk)) * x) acc) :
    BootstrapsWithin scheme n B sk skN ek := by
  intro EK ct hct
  have hreads := bootstrap_rotated hparams hq skN (fun t => t = maskSum n ct.m_a sk) hct
    fun e x he => by
      rcases hrotates ct.m_a e x hct.mask he with ⟨acc, hacc, hphase⟩
      exact ⟨_, acc, rfl, hacc, hphase⟩
  rcases hreads with ⟨_, rfl, hreads⟩
  rwa [maskSum_cast] at hreads

theorem rotationParams {ring : AccumulatorParams} {k psi g : Nat}
    (h : Consistent ring k psi g) (hq : ring.q ∣ 2 * 2 ^ k) (evalAcc switch) :
    GateScheme.RotationParams (accumulatorScheme ring evalAcc switch) k psi :=
  ⟨h.pos, h.le, h.dimension, by rwa [accumulatorScheme, h.dimension], h.ready⟩

/-- The accumulator that `BootstrapGateCore` starts from has the table as its phase. -/
theorem zeroPhase {ring : AccumulatorParams} {k psi g : Nat} (h : Consistent ring k psi g)
    {z x : NegacyclicRing (2 ^ k) (ZMod ring.gadget.Q)} {e : Poly}
    (he : Poly.StandsFor k ring.gadget.Q psi x e) :
    HasPhaseWithin k ring.gadget.Q psi z 0 x
      (Poly.zero ring.gadget.Q ring.gadget.N .EVALUATION, e) := by
  have hone := h.ready.modulus.one_lt
  rw [h.dimension]
  exact HasPhaseRing.within
    ⟨0, x, Poly.zero_standsFor (by omega) psi, he, by rw [zero_mul, sub_zero]⟩ 0

/-- Bootstrapping with generated refreshing keys: the noise is that of the accumulation. -/
theorem digitBootstrap {params : DMParams} {k psi g n mod E Z : Nat}
    (h : Consistent params.ring k psi g) (hq : params.ring.q ∣ 2 * 2 ^ k) (h8 : 8 ∣ params.ring.q)
    (hdigits : params.ring.q <= params.baseR ^ params.digitCountR) (hbase32 : params.baseR < 2 ^ 32)
    {sk skN : NativeVectorT} (hfits : RingGSWAccumulatorDM.Fits params n mod sk) {skNTT : Poly}
    (hz : Poly.StandsFor k params.ring.gadget.Q psi
      (element (2 ^ k) (secretResidue params.ring.gadget.Q skN)) skNTT)
    (hsmall : Small (2 ^ k) params.ring.gadget.Q Z
      (element (2 ^ k) (secretResidue params.ring.gadget.Q skN)))
    {drawn : Nat -> Nat -> Nat -> Nat -> Poly × Poly}
    (hdrawn : forall i j d r, Drawn params.ring k E (drawn i j d r))
    (switch : Option RingGSWACCKey -> LWECiphertextImpl -> Except Fault LWECiphertextImpl) :
    exists ek, RingGSWAccumulatorDM.keyGenAcc params skNTT sk drawn = some ek ∧
      BootstrapsWithin
        (accumulatorScheme params.ring (RingGSWAccumulatorDM.evalAcc params) switch) n
        (n * (params.digitCountR * productBound params.ring k g E Z)) sk skN ek := by
  rcases RingGSWAccumulatorDM.keyGenAcc_spec h hq hz hfits hdrawn with ⟨ek, hgen, hek⟩
  refine ⟨ek, hgen, bootstrapsWithin (rotationParams h hq _ switch) h8 fun a e x ha he => ?_⟩
  rcases RingGSWAccumulatorDM.evalAcc_spec h hfits.base hbase32 hsmall hek hq hdigits ha
    (zeroPhase h he) with ⟨acc, hacc, hphase⟩
  rw [Nat.zero_add] at hphase
  exact ⟨acc, congrArg Fault.access hacc, hphase⟩

def zeroRing : NativeVectorT where
  modulus := 17
  data := []

theorem zeroRing_element : element (2 ^ 2) (secretResidue 17 zeroRing) = 0 := by
  have hentries : secretResidue 17 zeroRing = fun _ => 0 := by
    funext i
    simp [secretResidue, zeroRing, NativeVector.centered]
  rw [hentries]
  exact element_zero

theorem zeroRing_standsFor : Poly.StandsFor 2 17 2
    (element (2 ^ 2) (secretResidue 17 zeroRing)) (Poly.zero 17 4 .EVALUATION) := by
  rw [zeroRing_element]
  exact Poly.zero_standsFor (by decide) 2

theorem zeroRing_small : Small (2 ^ 2) 17 0 (element (2 ^ 2) (secretResidue 17 zeroRing)) := by
  rw [zeroRing_element]
  exact small_zero _ _ 0

theorem digitBootstrap_eight :
    exists ek, RingGSWAccumulatorDM.keyGenAcc ⟨squareRing.ring, 2, 3⟩
        (Poly.zero 17 4 .EVALUATION) RingGSWAccumulatorDM.smallSecret
        (fun _ _ _ _ => (Poly.zero 17 4 .COEFFICIENT, Poly.zero 17 4 .COEFFICIENT)) = some ek ∧
      BootstrapsWithin (accumulatorScheme squareRing.ring
          (RingGSWAccumulatorDM.evalAcc ⟨squareRing.ring, 2, 3⟩) fun _ ct => .ok ct) 2
        (2 * (3 * productBound squareRing.ring 2 1 3 0)) RingGSWAccumulatorDM.smallSecret zeroRing
        ek := by
  have hfits : RingGSWAccumulatorDM.Fits ⟨squareRing.ring, 2, 3⟩ 2 5
      RingGSWAccumulatorDM.smallSecret := by
    refine ⟨⟨rfl, rfl, by decide⟩, by decide, by decide, fun i hi => ?_⟩
    have hcases : i = 0 ∨ i = 1 := by omega
    rcases hcases with rfl | rfl <;> decide
  have hring : Consistent (DMParams.mk squareRing.ring 2 3).ring 2 2 1 :=
    squareRing_consistent.ring
  exact digitBootstrap hring (by decide) (by decide) (by decide) (by decide) hfits
    zeroRing_standsFor zeroRing_small (fun _ _ _ _ => drawn_zero (by decide) 3) _

/-- Bootstrapping with generated keys of a ternary secret. -/
theorem ternaryBootstrap {params : CGGIParams} {k psi g n mod E Z : Nat}
    (h : RingGSWAccumulatorCGGI.CGGIConsistent params k psi g) (hq : params.ring.q ∣ 2 * 2 ^ k)
    (h8 : 8 ∣ params.ring.q) {sk skN : NativeVectorT}
    (hsk : RingGSWAccumulatorCGGI.Ternary n mod sk) {skNTT : Poly}
    (hz : Poly.StandsFor k params.ring.gadget.Q psi
      (element (2 ^ k) (secretResidue params.ring.gadget.Q skN)) skNTT)
    (hsmall : Small (2 ^ k) params.ring.gadget.Q Z
      (element (2 ^ k) (secretResidue params.ring.gadget.Q skN)))
    {drawn : Nat -> Nat -> Nat -> Poly × Poly}
    (hdrawn : forall j i r, Drawn params.ring k E (drawn j i r))
    (switch : Option RingGSWACCKey -> LWECiphertextImpl -> Except Fault LWECiphertextImpl) :
    exists ek, RingGSWAccumulatorCGGI.keyGenAcc params.ring skNTT sk drawn = some ek ∧
      BootstrapsWithin
        (accumulatorScheme params.ring (RingGSWAccumulatorCGGI.evalAcc params) switch) n
        (n * (4 * productBound params.ring k g E Z)) sk skN ek := by
  rcases RingGSWAccumulatorCGGI.keyGenAcc_spec h.ring hsk hz hdrawn with ⟨ek, hgen, hek⟩
  refine ⟨ek, hgen, bootstrapsWithin (rotationParams h.ring hq _ switch) h8 fun a e x ha he => ?_⟩
  rcases RingGSWAccumulatorCGGI.evalAcc_spec h hq hsk hsmall hek ha
    (zeroPhase h.ring he) with ⟨acc, hacc, hphase⟩
  rw [Nat.zero_add] at hphase
  exact ⟨acc, congrArg Fault.access hacc, hphase⟩

theorem ternaryBootstrap_eight :
    exists table ek, RingGSWAccumulatorCGGI.preComputeMonomials squareRing.ring = some table ∧
      RingGSWAccumulatorCGGI.keyGenAcc squareRing.ring (Poly.zero 17 4 .EVALUATION)
        RingGSWAccumulatorDM.smallSecret
        (fun _ _ _ => (Poly.zero 17 4 .COEFFICIENT, Poly.zero 17 4 .COEFFICIENT)) = some ek ∧
      BootstrapsWithin (accumulatorScheme squareRing.ring
          (RingGSWAccumulatorCGGI.evalAcc ⟨squareRing.ring, table⟩) fun _ ct => .ok ct) 2
        (2 * (4 * productBound squareRing.ring 2 1 3 0)) RingGSWAccumulatorDM.smallSecret zeroRing
        ek := by
  have hsk : RingGSWAccumulatorCGGI.Ternary 2 5 RingGSWAccumulatorDM.smallSecret := by
    refine ⟨⟨rfl, rfl, by decide⟩, by decide, by decide, fun i hi => ?_⟩
    have hcases : i = 0 ∨ i = 1 := by omega
    rcases hcases with rfl | rfl <;> decide
  rcases RingGSWAccumulatorCGGI.preComputeMonomials_spec squareRing_consistent.ring with
    ⟨table, hmonomials, _⟩
  have htable : RingGSWAccumulatorCGGI.CGGIConsistent ⟨squareRing.ring, table⟩ 2 2 1 :=
    ⟨squareRing_consistent.ring, hmonomials⟩
  have horder : squareRing.ring.q ∣ 2 * 2 ^ 2 := by decide
  have height : 8 ∣ squareRing.ring.q := by decide
  have hmodulus : 0 < squareRing.ring.gadget.Q := by decide
  rcases ternaryBootstrap htable horder height hsk zeroRing_standsFor zeroRing_small
    (fun _ _ _ => drawn_zero hmodulus 3) (fun _ ct => .ok ct) with ⟨ek, hek, hwithin⟩
  exact ⟨table, ek, hmonomials, hek, hwithin⟩

/-- Bootstrapping with generated automorphism keys, which round the mask to odd neighbours. -/
theorem automorphismBootstrap {params : LMKCDEYParams} {d psi g : Nat}
    (h : LMKCDEYConsistent params d psi g) (h8 : 8 ∣ params.ring.q) {n mod E Z : Nat}
    {sk skN : NativeVectorT} (hsk : NativeVectorT.Valid n mod sk) (hmod : mod < 2 ^ 31)
    (hkeys : params.numAutoKeys < n) (hkeys32 : params.numAutoKeys < 2 ^ 32) {skNTT : Poly}
    (hz : Poly.StandsFor (d + 1) params.ring.gadget.Q psi
      (element (2 ^ (d + 1)) (secretResidue params.ring.gadget.Q skN)) skNTT)
    (hsmall : Small (2 ^ (d + 1)) params.ring.gadget.Q Z
      (element (2 ^ (d + 1)) (secretResidue params.ring.gadget.Q skN)))
    {drawn autoDrawn : Nat -> Nat -> Poly × Poly}
    (hdrawn : forall i r, Drawn params.ring (d + 1) E (drawn i r))
    (hautoDrawn : forall i r, DrawnEvaluation params.ring (d + 1) psi E (autoDrawn i r))
    (switch : Option RingGSWACCKey -> LWECiphertextImpl -> Except Fault LWECiphertextImpl) :
    exists ek, RingGSWAccumulatorLMKCDEY.keyGenAcc params skNTT sk drawn autoDrawn = some ek ∧
      forall EK ct, Bootstrappable
          (accumulatorScheme params.ring (RingGSWAccumulatorLMKCDEY.evalAcc params) switch) n ek
          EK ct ->
        exists v, OddNeighbours n (2 ^ (d + 2)) ct.m_a v ∧
          ReadsTable
            (accumulatorScheme params.ring (RingGSWAccumulatorLMKCDEY.evalAcc params) switch)
            (n * productBound params.ring (d + 1) g E Z +
              (2 ^ (d + 1) - 1) * autoBound params.ring (d + 1) g E Z) skN EK ct
            (ct.m_b + (∑ i ∈ Finset.range n, (v i : Int) * secretEntry sk i : Int)) := by
  rcases RingGSWAccumulatorLMKCDEY.keyGenAcc_spec h hz hsk hmod hkeys hkeys32 hdrawn hautoDrawn with
    ⟨ek, hgen, hek⟩
  refine ⟨ek, hgen, fun EK ct hct => ?_⟩
  have hone := h.ring.ready.modulus.one_lt
  have hresidues : Residues n (2 ^ (d + 2)) ct.m_a.data := by
    refine ⟨hct.mask.residues.1, fun x hx => lt_of_lt_of_le (hct.mask.residues.2 x hx) ?_⟩
    rw [pow_succ' 2 (d + 1)]
    exact Nat.le_of_dvd (by positivity) h.order
  have hreads := bootstrap_rotated (rotationParams h.ring h.order _ switch) h8 skN
    (fun t => exists v, OddNeighbours n (2 ^ (d + 2)) ct.m_a v ∧
      t = -∑ i ∈ Finset.range n, (v i : Int) * secretEntry sk i) hct fun e x he => by
      have hzero : Poly.StandsFor (d + 1) params.ring.gadget.Q psi 0
          (Poly.zero params.ring.gadget.Q params.ring.gadget.N .EVALUATION, e).1 := by
        rw [h.ring.dimension]
        exact Poly.zero_standsFor (by omega) psi
      rcases RingGSWAccumulatorLMKCDEY.evalAcc_spec h hsmall hek hresidues hzero he with
        ⟨v, acc, hv, hacc, hphase⟩
      refine ⟨_, acc, ⟨v, oddMask_neighbours h.ring.le hresidues hv, rfl⟩,
        congrArg Fault.access hacc, ?_⟩
      rw [mul_neg, neg_neg]
      exact hphase
  rcases hreads with ⟨_, ⟨v, hv, rfl⟩, hreads⟩
  rw [Int.cast_neg, sub_neg_eq_add] at hreads
  exact ⟨v, hv, hreads⟩

theorem automorphismBootstrap_eight :
    exists ek v, RingGSWAccumulatorLMKCDEY.keyGenAcc squareRing (Poly.zero 17 4 .EVALUATION)
        RingGSWAccumulatorDM.smallSecret
        (fun _ _ => (Poly.zero 17 4 .COEFFICIENT, Poly.zero 17 4 .COEFFICIENT))
        (fun _ _ => (Poly.zero 17 4 .EVALUATION, Poly.zero 17 4 .EVALUATION)) = some ek ∧
      OddNeighbours 2 (2 ^ 3) { modulus := 8, data := [3, 6] } v ∧
      ReadsTable (accumulatorScheme squareRing.ring
          (RingGSWAccumulatorLMKCDEY.evalAcc squareRing) fun _ ct => .ok ct)
        (2 * productBound squareRing.ring 2 1 3 0 + (2 ^ 2 - 1) * autoBound squareRing.ring 2 1 3 0)
        zeroRing { BSkey := some ek, KSkey := none, Pkey := none }
        { m_a := { modulus := 8, data := [3, 6] }, m_b := 5, m_p := 4 }
        ((5 : Nat) + (∑ i ∈ Finset.range 2, (v i : Int) *
          secretEntry RingGSWAccumulatorDM.smallSecret i : Int)) := by
  have hsk : NativeVectorT.Valid 2 5 RingGSWAccumulatorDM.smallSecret := ⟨rfl, rfl, by decide⟩
  have hwell := (Poly.zero_denotes (q := 17) (by decide) (2 ^ 2) .EVALUATION).wellFormed
  have hautoDrawn (_ _ : Nat) : DrawnEvaluation squareRing.ring 2 2 3
      (Poly.zero 17 4 .EVALUATION, Poly.zero 17 4 .EVALUATION) :=
    ⟨hwell, 0, small_zero _ _ 3, Poly.zero_standsFor (by decide) 2⟩
  rcases automorphismBootstrap squareRing_consistent (by decide) hsk (by decide) (by decide)
    (by decide) zeroRing_standsFor zeroRing_small (fun _ _ => drawn_zero (by decide) 3) hautoDrawn
    (fun _ ct => .ok ct) with ⟨ek, hek, hreads⟩
  rcases hreads { BSkey := some ek, KSkey := none, Pkey := none }
    { m_a := { modulus := 8, data := [3, 6] }, m_b := 5, m_p := 4 }
    ⟨rfl, ⟨rfl, rfl, by decide⟩, by decide, by decide⟩ with ⟨v, hv, htable⟩
  exact ⟨ek, v, hek, hv, htable⟩

end BinFHE
end OpenFHE
