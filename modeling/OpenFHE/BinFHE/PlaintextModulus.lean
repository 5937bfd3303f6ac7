import OpenFHE.BinFHE.Bootstrap

/-!
# The plaintext modulus of a ciphertext

A ciphertext records its plaintext modulus.  Copies and archives lose it, `EvalNOT` and
the amplitude of `Bootstrap` are those of the modulus four, and the offset of
`Bootstrap` is that of the recorded modulus.
-/

namespace OpenFHE
namespace BinFHE

open Core Foundation NativeInteger Hal LWEEncryptionScheme

def evalNOT (ct : LWECiphertextImpl) : LWECiphertextImpl where
  m_a := { ct.m_a with
    data := ct.m_a.data.map fun x => if x ≠ 0 then subFast ct.getModulus x else x }
  m_b := modSubFast (ct.getModulus >>> 2) ct.m_b ct.getModulus

/-! ## Negation -/

section Negation

variable {n q : Nat} (hpos : 0 < q) (hq : q < 2 ^ 60) {ct : LWECiphertextImpl}
  (ha : NativeVectorT.Valid n q ct.m_a)

include hpos hq ha

theorem evalNOT_mask (sk : NativeVectorT) :
    maskProduct q n (evalNOT ct).m_a.data sk = -maskProduct q n ct.m_a.data sk := by
  have hholds : Holds q n (fun i => -coefficient q ct.m_a.data i) (evalNOT ct).m_a.data := by
    apply NativeVector.holds_map _ ha.residues.holds
    intro i x hx
    rw [LWECiphertextImpl.getModulus, ha.modulus_eq, <- hx.2]
    split
    · rename_i hne
      have hlt := hx.1
      constructor
      · rw [subFast_eq hlt.le (lt_trans hq (by decide))]
        omega
      · exact cast_subFast hq hlt.le
    · rename_i hzero
      rw [not_not.mp hzero, Nat.cast_zero, neg_zero]
      exact ⟨hpos, Nat.cast_zero⟩
  unfold maskProduct
  rw [<- Finset.sum_neg_distrib]
  apply Finset.sum_congr rfl
  intro i hi
  rw [hholds.coefficient_eq (Finset.mem_range.mp hi), neg_mul]

theorem evalNOT_phase (hb : ct.m_b < q) (sk : NativeVectorT) :
    phase q n sk (evalNOT ct).m_a.data (evalNOT ct).m_b =
      (q / 4 : Nat) - phase q n sk ct.m_a.data ct.m_b := by
  have hquarter : q >>> 2 = q / 4 := Nat.shiftRight_eq_div_pow q 2
  have hbody := NativeVector.represents_sub_fast hq (by omega : q / 4 < q) hb
  have hm_b : (evalNOT ct).m_b = modSubFast (q / 4) ct.m_b q := by
    rw [evalNOT, LWECiphertextImpl.getModulus, ha.modulus_eq, hquarter]
  rw [phase, phase, evalNOT_mask hpos hq ha, hm_b, hbody.2]
  ring

theorem evalNOT_phase_iff (hb : ct.m_b < q) (sk : NativeVectorT) {p : Nat} (hp : 4 <= p)
    (hdvd : 4 * p ∣ q) :
    phase q n sk (evalNOT ct).m_a.data (evalNOT ct).m_b =
      (q / p : Nat) - phase q n sk ct.m_a.data ct.m_b <-> p = 4 := by
  rw [evalNOT_phase hpos hq ha hb, sub_left_inj]
  constructor
  · intro h
    have hmod := (ZMod.natCast_eq_natCast_iff' _ _ _).mp h
    rcases hdvd with ⟨c, hc⟩
    have hquarter : q / 4 = p * c := by
      rw [hc, Nat.mul_assoc]
      exact Nat.mul_div_cancel_left _ (by decide)
    have hshare : q / p = 4 * c := by
      rw [hc, Nat.mul_comm 4 p, Nat.mul_assoc]
      exact Nat.mul_div_cancel_left _ (by omega)
    have hc0 : 0 < c := Nat.pos_of_ne_zero (by rintro rfl; omega)
    rw [Nat.mod_eq_of_lt (Nat.div_lt_self hpos (by decide)),
      Nat.mod_eq_of_lt (Nat.div_lt_self hpos (by omega)), hquarter, hshare] at hmod
    exact Nat.eq_of_mul_eq_mul_right hc0 hmod
  · rintro rfl
    rfl

end Negation

/-! ## Bootstrapping -/

theorem gateTable_AND {e Q amplitude : Nat} (hpos : 0 < e) (he : 8 * e < 2 ^ 32) :
    gateTable (gateConst (8 * e) .AND) (8 * e) Q amplitude =
      { lb := 3 * e, ub := 7 * e, lv := amplitude, uv := subFast Q amplitude } := by
  have hconst : gateConst (8 * e) .AND = 7 * e := by
    have hshift : (8 * e) >>> 3 = e := by
      rw [Nat.shiftRight_eq_div_pow]
      omega
    rw [gateConst, hshift, mulFast, word_eq (by simp only [maxBits]; omega), Nat.mul_comm]
  have hhalf : usint (8 * e : Nat) >>> 1 = 4 * e := by
    rw [usint_natCast, Nat.mod_eq_of_lt he, Nat.shiftRight_eq_div_pow]
    omega
  have hq2 : modAddFast (7 * e) (4 * e) (8 * e) = 3 * e := by
    rw [modAddFast_eq (by omega) (by omega) (by omega), Nat.mod_eq_sub_mod (by omega),
      Nat.mod_eq_of_lt (by omega)]
    omega
  have hswap : 7 * e >= 3 * e := by omega
  unfold gateTable
  dsimp only
  rw [hconst, hhalf, hq2, if_pos hswap, if_pos hswap, if_pos hswap, if_pos hswap]

theorem eq_of_small {Q : Nat} {d e : Int} (h : (d : ZMod Q) = e) (hlow : -(Q : Int) < d - e)
    (hhigh : d - e < Q) : d = e := by
  have hdvd : (Q : Int) ∣ d - e := by
    rw [<- ZMod.intCast_zmod_eq_zero_iff_dvd, Int.cast_sub, h, sub_self]
  have hzero := Int.eq_zero_of_abs_lt_dvd hdvd (abs_lt.mpr ⟨hlow, hhigh⟩)
  omega

/-- What `Bootstrap` returns for the message `m`, minus `m` times `Q / p`. -/
def deviation (Q p m : Nat) : Int :=
  (Q / (2 * p) + 1 : Nat) + (if m = 1 ∧ p <= 8 then 1 else -1) * (Q / 8 + 1 : Nat) -
    (m * (Q / p) : Nat)

theorem deviation_small (Q : Nat) {m : Nat} (hm : m < 2) : |deviation Q 4 m| <= 2 := by
  unfold deviation
  rw [abs_le]
  rcases Nat.lt_or_ge m 1 with h0 | h1
  · rw [Nat.lt_one_iff.mp h0, if_neg (by omega)]
    omega
  · rw [(by omega : m = 1), if_pos (by omega)]
    omega

theorem deviation_large {Q p m : Nat} (hQ : 120 < Q) (hp : 4 < p) (hm : m < 2) :
    2 < |deviation Q p m| ∧ |deviation Q p m| < Q - 2 := by
  have hhalf : Q / (2 * p) <= Q / 10 := Nat.div_le_div_left (by omega) (by decide)
  have hsplit : Q / (2 * p) = Q / p / 2 := by
    rw [Nat.mul_comm, Nat.div_div_eq_div_mul]
  unfold deviation
  rw [hsplit] at hhalf ⊢
  generalize Q / p = v at hhalf ⊢
  rcases Nat.lt_or_ge m 1 with h0 | h1
  · rw [Nat.lt_one_iff.mp h0, if_neg (by omega)]
    rw [lt_abs, abs_lt]
    omega
  · rw [(by omega : m = 1)]
    rw [lt_abs, abs_lt]
    split <;> omega

namespace GateScheme

variable {Key : Type _} {scheme : GateScheme Key} {k psi n : Nat} {sk skN : NativeVectorT}
  {ek : Key} (hexact : ExactRotation scheme k psi n sk skN ek) {EK : RingGSWBTKey Key}
  (hEK : EK.BSkey = some ek) {ct : LWECiphertextImpl}
  (ha : NativeVectorT.Valid n scheme.q ct.m_a) (hb : ct.m_b < scheme.q) (hp : 4 <= ct.m_p)
  (hdvd : 4 * ct.m_p ∣ scheme.q)

include hexact

theorem ExactRotation.eight_dvd (hq : 16 <= scheme.q) : 8 ∣ scheme.q := by
  have horder := hexact.order
  rw [hexact.dimension, <- pow_succ'] at horder
  rcases (Nat.dvd_prime_pow Nat.prime_two).mp horder with ⟨j, _, hj⟩
  have hj3 : 3 <= j := by
    by_contra hlt
    have hle : 2 ^ j <= 2 ^ 2 := Nat.pow_le_pow_right (by decide) (by omega)
    omega
  rw [hj]
  exact pow_dvd_pow 2 hj3

theorem ExactRotation.q_lt : scheme.q < 2 ^ 60 := by
  have hpos : 0 < 2 * scheme.N := by
    rw [hexact.dimension]
    positivity
  calc
    scheme.q <= 2 * scheme.N := Nat.le_of_dvd hpos hexact.order
    _ = 2 ^ (k + 1) := by rw [hexact.dimension, pow_succ']
    _ <= 2 ^ 25 := Nat.pow_le_pow_right (by decide) (by have := hexact.le; omega)
    _ < 2 ^ 60 := by decide

include hEK ha hb hp hdvd

theorem bootstrap_deviation {m : Nat} (hm : m < 2)
    (hphase : phase scheme.q n sk ct.m_a.data ct.m_b = (m * (scheme.q / ct.m_p) : Nat)) :
    exists ct', scheme.bootstrap EK ct true = .ok ct' ∧
      phase scheme.Q (2 ^ k) skN ct'.m_a.data ct'.m_b =
        (m * (scheme.Q / ct.m_p) : Nat) + (deviation scheme.Q ct.m_p m : ZMod scheme.Q) := by
  obtain ⟨c, hc⟩ := hdvd
  have hc0 : 0 < c := Nat.pos_of_ne_zero (by rintro rfl; omega)
  have hlarge : 4 * ct.m_p <= scheme.q := by
    rw [hc]
    exact Nat.le_mul_of_pos_right _ hc0
  have h8 := hexact.eight_dvd (by omega)
  rcases hexact.params.halves h8 with ⟨_, _, hqh, _, _, _, _, _, _, h32⟩
  obtain ⟨e, he⟩ := h8
  have hstep : mulFast ct.m_p 2 = 2 * ct.m_p := by
    rw [mulFast, word_eq (by simp only [maxBits]; omega), Nat.mul_comm]
  have hhalf : 2 * e = ct.m_p * c := by
    have hsame : 4 * (2 * e) = 4 * (ct.m_p * c) := by
      rw [<- Nat.mul_assoc, <- Nat.mul_assoc, <- he, <- hc]
    omega
  have hshare : scheme.q / ct.m_p = 4 * c := by
    rw [hc, Nat.mul_comm 4, Nat.mul_assoc]
    exact Nat.mul_div_cancel_left _ (by omega)
  have hle : 4 * c <= 2 * e := by
    rw [hhalf]
    exact Nat.mul_le_mul_right c hp
  have hx : m * (4 * c) + 2 * e < scheme.q := by
    have := Nat.mul_le_mul_right (4 * c) (show m <= 1 by omega)
    omega
  rcases bootstrap_phase hexact (Dvd.intro _ he.symm) hEK ha hb (by omega) with
    ⟨ct', hct', _, _, _, hread⟩
  have hquarter : scheme.q / 4 = 2 * e := by omega
  rw [hphase, hshare, hquarter] at hread
  have hvalue := hread (m * (4 * c) + 2 * e) ⟨hx, by push_cast; ring⟩
  have hinside : (m * (4 * c) + 2 * e >= 3 * e ∧ m * (4 * c) + 2 * e < 7 * e) <->
      m = 1 ∧ ct.m_p <= 8 := by
    rcases Nat.lt_or_ge m 1 with h0 | h1
    · rw [Nat.lt_one_iff.mp h0]
      omega
    · have hcompare : ct.m_p <= 8 <-> ct.m_p * c <= 8 * c :=
        (Nat.mul_le_mul_right_iff hc0).symm
      rw [(by omega : m = 1), hcompare, <- hhalf]
      omega
  refine ⟨ct', hct', ?_⟩
  rw [hvalue, hstep, he, gateTable_AND (by omega) (by omega), GateTable.read]
  dsimp only
  have hamplitude : ((subFast scheme.Q (scheme.Q / 8 + 1) : Nat) : ZMod scheme.Q) =
      -((scheme.Q / 8 + 1 : Nat) : ZMod scheme.Q) := by
    have hQ := hexact.ready.modulus.one_lt
    exact cast_subFast hexact.ready.modulus.lt (by omega)
  unfold deviation
  generalize scheme.Q / 8 + 1 = amplitude at hamplitude ⊢
  generalize scheme.Q / (2 * ct.m_p) + 1 = offset
  generalize m * (scheme.Q / ct.m_p) = target
  by_cases hin : m = 1 ∧ ct.m_p <= 8
  · rw [if_pos (hinside.mpr hin), if_pos hin]
    push_cast
    ring
  · rw [if_neg (fun h => hin (hinside.mp h)), if_neg hin, hamplitude]
    push_cast
    ring

theorem bootstrap_about_iff (hQ : 120 < scheme.Q) {m : Nat} (hm : m < 2)
    (hphase : phase scheme.q n sk ct.m_a.data ct.m_b = (m * (scheme.q / ct.m_p) : Nat)) :
    (exists ct', exists e : Int, scheme.bootstrap EK ct true = .ok ct' ∧ |e| <= 2 ∧
      phase scheme.Q (2 ^ k) skN ct'.m_a.data ct'.m_b =
        (m * (scheme.Q / ct.m_p) : Nat) + (e : ZMod scheme.Q)) <-> ct.m_p = 4 := by
  rcases bootstrap_deviation hexact hEK ha hb hp hdvd hm hphase with ⟨ct', hct', hdeviation⟩
  constructor
  · rintro ⟨ct'', e, hct'', he, hclose⟩
    cases hct'.symm.trans hct''
    by_contra hne
    rcases deviation_large hQ (by omega : 4 < ct.m_p) hm with ⟨hlow, hhigh⟩
    have hsame : (deviation scheme.Q ct.m_p m : ZMod scheme.Q) = e :=
      add_left_cancel (hdeviation.symm.trans hclose)
    rw [abs_lt] at hhigh
    rw [abs_le] at he
    have heq := eq_of_small hsame (by omega) (by omega)
    rw [heq, lt_abs] at hlow
    omega
  · intro h4
    refine ⟨ct', deviation scheme.Q ct.m_p m, hct', ?_, hdeviation⟩
    rw [h4]
    exact deviation_small scheme.Q hm

end GateScheme

/-! ## The whole bookkeeping -/

/--
What a ciphertext `ct` and the object `dst` that it is assigned to or loaded into should
do with the recorded plaintext modulus.
-/
structure KeepsPlaintextModulus {Key : Type _} (scheme : GateScheme Key) (n : Nat)
    (sk skN : NativeVectorT) (EK : RingGSWBTKey Key) (ct dst : LWECiphertextImpl) : Prop where
  copy : ct.copy.m_p = ct.m_p
  assign : (dst.assign ct).m_p = ct.m_p
  serialise : (dst.load ct.save).m_p = ct.m_p
  negation : phase scheme.q n sk (evalNOT ct).m_a.data (evalNOT ct).m_b =
    (scheme.q / ct.m_p : Nat) - phase scheme.q n sk ct.m_a.data ct.m_b
  bootstrap : forall m, m < 2 ->
    phase scheme.q n sk ct.m_a.data ct.m_b = (m * (scheme.q / ct.m_p) : Nat) ->
    exists ct', exists e : Int, scheme.bootstrap EK ct true = .ok ct' ∧ |e| <= 2 ∧
      phase scheme.Q scheme.N skN ct'.m_a.data ct'.m_b =
        (m * (scheme.Q / ct.m_p) : Nat) + (e : ZMod scheme.Q)

namespace GateScheme

variable {Key : Type _} {scheme : GateScheme Key} {k psi n : Nat} {sk skN : NativeVectorT}
  {ek : Key}

/-- The bookkeeping is right exactly for the default plaintext modulus. -/
theorem keepsPlaintextModulus_iff (hexact : ExactRotation scheme k psi n sk skN ek)
    {EK : RingGSWBTKey Key} (hEK : EK.BSkey = some ek) {ct : LWECiphertextImpl}
    (ha : NativeVectorT.Valid n scheme.q ct.m_a) (hb : ct.m_b < scheme.q) (hp : 4 <= ct.m_p)
    (hdvd : 4 * ct.m_p ∣ scheme.q) (dst : LWECiphertextImpl) :
    KeepsPlaintextModulus scheme n sk skN EK ct dst <-> ct.m_p = 4 ∧ dst.m_p = 4 := by
  constructor
  · intro h
    have h4 : ct.m_p = 4 := h.copy.symm
    exact ⟨h4, h.assign.trans h4⟩
  · rintro ⟨h4, hdst⟩
    have hq : scheme.q < 2 ^ 60 := hexact.q_lt
    constructor
    · exact h4.symm
    · exact hdst.trans h4.symm
    · exact hdst.trans h4.symm
    · exact (evalNOT_phase_iff (by omega) hq ha hb sk hp hdvd).mpr h4
    · intro m hm hphase
      rcases bootstrap_deviation hexact hEK ha hb hp hdvd hm hphase with ⟨ct', hct', hdeviation⟩
      refine ⟨ct', deviation scheme.Q ct.m_p m, hct', ?_, ?_⟩
      · rw [h4]
        exact deviation_small scheme.Q hm
      · rw [hexact.dimension]
        exact hdeviation

end GateScheme

/-! ## The secret zero -/

theorem value_zero (Q n : Nat) (format : Format) (i : Nat) :
    (Poly.zero Q n format).value i = 0 := by
  simp [Poly.value, Poly.zero]

theorem transforms_zero {k Q psi : Nat} (hQ : 0 < Q) :
    Poly.Transforms k Q psi (Poly.zero Q (2 ^ k) .COEFFICIENT) (Poly.zero Q (2 ^ k) .EVALUATION) := by
  constructor
  · exact (Poly.zero_denotes hQ (2 ^ k) .COEFFICIENT).wellFormed
  · apply (Poly.zero_denotes hQ (2 ^ k) .EVALUATION).congr
    intro i _
    rw [stageArray_last]
    symm
    apply Finset.sum_eq_zero
    intro c _
    rw [value_zero, Nat.cast_zero, zero_mul]

theorem accPhase_zero (N Q : Nat) (skN : NativeVectorT) (m : Poly) :
    accPhase N Q skN (Poly.zero Q N .COEFFICIENT) m = coeffPoly N (valueResidue Q m) := by
  have hzero : coeffPoly N (valueResidue Q (Poly.zero Q N .COEFFICIENT)) = 0 := by
    apply Finset.sum_eq_zero
    intro c _
    rw [valueResidue, value_zero, Nat.cast_zero, Polynomial.C_0, zero_mul]
  rw [accPhase, hzero, zero_mul, sub_zero]

/-- Under the secret zero the rotation leaves the accumulator as it is. -/
def zeroSecret (k q Q psi : Nat) : GateScheme Unit where
  N := 2 ^ k
  q := q
  Q := Q
  cache := fun q => Transform.preCompute psi (2 * 2 ^ k) q
  EvalAcc := fun _ acc _ => .ok acc
  SwitchCTtoqn := fun _ ct => .ok ct

def secret0 : NativeVectorT where
  modulus := 17
  data := [0]

def ringSecret : NativeVectorT where
  modulus := 17
  data := [1, 0, 16, 0, 0, 1, 0, 0]

def key0 : RingGSWBTKey Unit where
  BSkey := some ()
  KSkey := some ()
  Pkey := none

theorem zeroSecret_exact {k q Q psi : Nat} (hk : 0 < k) (hk24 : k <= 24)
    (hq : q ∣ 2 * 2 ^ k) (hready : Poly.Ready (zeroSecret k q Q psi).cache k Q psi)
    (skN : NativeVectorT) :
    GateScheme.ExactRotation (zeroSecret k q Q psi) k psi 1 secret0 skN () := by
  have hQ : 0 < Q := by
    have hone := hready.modulus.one_lt
    omega
  constructor
  · exact hk
  · exact hk24
  · rfl
  · exact hq
  · exact hready
  · intro a m e _ hm
    have hsecret : maskProduct q 1 a.data secret0 = 0 := by
      simp [maskProduct, secretResidue, secret0, NativeVector.centered]
    have hrotated : Polynomial.X ^ 2 ^ k + 1 ∣
        Polynomial.X ^ (2 * 2 ^ k / q * (maskProduct q 1 a.data secret0).val) *
          accPhase (2 ^ k) Q skN (Poly.zero Q (2 ^ k) .COEFFICIENT) m -
        coeffPoly (2 ^ k) (valueResidue Q m) := by
      rw [hsecret, ZMod.val_zero, Nat.mul_zero, pow_zero, one_mul, accPhase_zero, sub_self]
      exact dvd_zero _
    exact ⟨_, _, m, rfl, transforms_zero hQ, hm, hrotated⟩

theorem ready_seventeen : Poly.Ready (zeroSecret 3 16 17 3).cache 3 17 3 :=
  Poly.ready_of_preCompute ⟨by decide, by decide, by decide⟩ (by decide) (by decide) (by decide)
    (by decide) rfl

theorem keepsPlaintextModulus_iff_sixteen :
    KeepsPlaintextModulus (zeroSecret 3 16 17 3) 1 secret0 ringSecret key0
        { m_a := { modulus := 16, data := [5] }, m_b := 4, m_p := 4 }
        { m_a := { modulus := 16, data := [] }, m_b := 0 } <-> 4 = 4 ∧ 4 = 4 :=
  GateScheme.keepsPlaintextModulus_iff
    (zeroSecret_exact (by decide) (by decide) (by decide) ready_seventeen ringSecret)
    rfl ⟨rfl, rfl, by decide⟩ (by decide) (by decide) (by decide) _

/-- For the plaintext modulus eight every part of the bookkeeping fails. -/
theorem keepsPlaintextModulus_fails :
    LWECiphertextImpl.copy { m_a := { modulus := 32, data := [5] }, m_b := 0, m_p := 8 } =
        { m_a := { modulus := 32, data := [5] }, m_b := 0, m_p := 4 } ∧
      LWECiphertextImpl.assign { m_a := { modulus := 32, data := [] }, m_b := 0 }
          { m_a := { modulus := 32, data := [5] }, m_b := 0, m_p := 8 } =
        { m_a := { modulus := 32, data := [5] }, m_b := 0, m_p := 4 } ∧
      evalNOT { m_a := { modulus := 32, data := [5] }, m_b := 0, m_p := 8 } =
        { m_a := { modulus := 32, data := [27] }, m_b := 32 / 4, m_p := 4 } ∧
      (zeroSecret 4 32 97 19).bootstrap key0
          { m_a := { modulus := 32, data := [5] }, m_b := 0, m_p := 8 } true =
        .ok { m_a := NativeVectorT.zeros 16 97, m_b := 97 - 6, m_p := 8 } := by
  decide +kernel

end BinFHE
end OpenFHE
