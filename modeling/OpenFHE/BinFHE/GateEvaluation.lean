import OpenFHE.BinFHE.GateTruth

/-!
# Evaluation of gates

`BootstrapGateCore` loads a table that a rotation by the mask turns to the phase of the sum of
the inputs.  The constant coefficient has the sign of the truth table, and `EvalBinGate` adds the
amplitude, so that a one is left as a step of the message space and a zero as nothing.
-/

namespace OpenFHE
namespace BinFHE

open Core Foundation NativeInteger Hal LWEEncryptionScheme
open Polynomial

namespace LWEEncryptionScheme

def evalAddEq (ct1 ct2 : LWECiphertextImpl) : Except Fault LWECiphertextImpl := do
  let a <- ct1.m_a.modAddEq ct2.m_a
  return { ct1 with m_a := a, m_b := modAddFast ct1.m_b ct2.m_b ct1.getModulus }

/-- The sum on top of itself for the exclusive gates. -/
def addTwice (gate : BINGATE) (ct : LWECiphertextImpl) : Except Fault LWECiphertextImpl :=
  if doubles gate then evalAddEq ct ct else .ok ct

end LWEEncryptionScheme

/-- A pointer to a ciphertext: null, or an address with the object. -/
abbrev LWECiphertext := Option (Nat × LWECiphertextImpl)

def takesVector (gate : BINGATE) : Bool :=
  gate = .AND3 || gate = .OR3 || gate = .AND4 || gate = .OR4 || gate = .MAJORITY

/-- `Q / (p * 2) + 1` without overflow. -/
def amplitude (Q p : Nat) : Nat := Q / (2 * p) + 1

def testVector (N q Q : Nat) (gate : BINGATE) (b : Nat) : List Nat :=
  fillTable (gateTable (gateConst q gate) q Q (amplitude Q (gateModulus gate))) N q (N / (q / 2)) b

/-- The sign of the entry that the phase `x` reads. -/
def positiveAt (q : Nat) (gate : BINGATE) (x : Nat) : Bool :=
  q / 2 <= (x + q - gateConst q gate) % q

namespace GateScheme

variable {Key : Type _} (scheme : GateScheme Key)

/-- An input in the small dimension: switched, or the object itself. -/
def toSmall (EK : RingGSWBTKey Key) (ct : LWECiphertextImpl) : Except Fault LWECiphertextImpl :=
  if scheme.Q = ct.getModulus then scheme.SwitchCTtoqn EK.KSkey ct else .ok ct

/-- The first input is copied, for the sum is written over it. -/
def toSmallCopy (EK : RingGSWBTKey Key) (ct : LWECiphertextImpl) :
    Except Fault LWECiphertextImpl :=
  if scheme.Q = ct.getModulus then scheme.SwitchCTtoqn EK.KSkey ct else .ok ct.copy

def evalBinGate (gate : BINGATE) (EK : RingGSWBTKey Key) (ct1 ct2 : LWECiphertext)
    (extended : Bool) : Except Fault LWECiphertextImpl :=
  match ct1, ct2 with
  | none, _ => .error (.thrown "Ciphertext1 is empty")
  | some _, none => .error (.thrown "Ciphertext2 is empty")
  | some (address1, ct1), some (address2, ct2) =>
      if address1 = address2 then
        .error (.thrown "Input ciphertexts should be independant")
      else do
        let cct1 <- scheme.toSmallCopy EK ct1
        let cct2 <- scheme.toSmall EK ct2
        let cct1 <- evalAddEq cct1 cct2
        let cct1 <- addTwice gate cct1
        let accVec <- scheme.bootstrapGateCore gate EK.BSkey cct1
        let ctExt <- scheme.extract accVec (addFast (scheme.Q >>> 3) 1)
        if extended then return ctExt else scheme.SwitchCTtoqn EK.KSkey ctExt

def addInput (EK : RingGSWBTKey Key) (ct : LWECiphertextImpl) (next : LWECiphertext) :
    Except Fault LWECiphertextImpl := do
  let next <- Fault.access next
  let small <- scheme.toSmall EK next.2
  evalAddEq ct small

def evalBinGateVector (gate : BINGATE) (EK : RingGSWBTKey Key) (ctvector : List LWECiphertext)
    (extended : Bool) : Except Fault LWECiphertextImpl :=
  if ¬(ctvector.map (Option.map Prod.fst)).Nodup then
    .error (.thrown "Input ciphertexts should be independent")
  else if takesVector gate then do
    let first <- Fault.access ctvector.head?
    let first <- Fault.access first
    let ct <- scheme.toSmallCopy EK first.2
    let ct <- ctvector.tail.foldlM (scheme.addInput EK) ct
    let p := first.2.m_p
    let accVec <- scheme.bootstrapGateCore gate EK.BSkey { ct with m_p := p }
    let offset <- halfStep scheme.Q p
    let ctExt <- scheme.extract accVec offset
    let ctExt <- if extended then .ok ctExt else scheme.SwitchCTtoqn EK.KSkey ctExt
    return { ctExt with m_p := p }
  else
    .error (.thrown "This gate is not implemented for vector of ciphertexts at this time")

end GateScheme

/-! ## The loaded table -/

theorem gateModulus_bounds (gate : BINGATE) : 4 <= gateModulus gate ∧ gateModulus gate <= 8 := by
  cases gate <;> decide

theorem mulFast_gateModulus (gate : BINGATE) :
    mulFast (gateModulus gate) 2 = 2 * gateModulus gate := by
  cases gate <;> rfl

theorem amplitude_lt {Q : Nat} (hQ : 1 < Q) (gate : BINGATE) :
    amplitude Q (gateModulus gate) < Q := by
  have hp := gateModulus_bounds gate
  have hle : Q / (2 * gateModulus gate) <= Q / 8 := Nat.div_le_div_left (by omega) (by decide)
  unfold amplitude
  omega

section Table

variable {N q Q : Nat} (hq : 16 ∣ q) (hdvd : q ∣ 2 * N) (hpos : 0 < N) (hN : 2 * N < 2 ^ 32)
  (hQ : 1 < Q) (hQ60 : Q < 2 ^ 60)

include hq hdvd hpos hN

theorem exists_halves : exists h factor, q = 2 * h ∧ 8 ∣ h ∧ 0 < h ∧ 0 < factor ∧
    N = h * factor ∧ N / h = factor ∧ 2 * N / q = factor ∧ 2 * h < 2 ^ 32 := by
  rcases hq with ⟨u, rfl⟩
  rcases hdvd with ⟨factor, hfactor⟩
  have hprod : N = 8 * u * factor := by
    have hdouble : 2 * N = 2 * (8 * u * factor) := by
      rw [hfactor]
      ring
    omega
  have hu : 0 < u := Nat.pos_of_ne_zero (by rintro rfl; simp at hprod; omega)
  have hfactor0 : 0 < factor := Nat.pos_of_ne_zero (by rintro rfl; simp at hprod; omega)
  have hle : 8 * u <= N := by
    rw [hprod]
    exact Nat.le_mul_of_pos_right _ hfactor0
  refine ⟨8 * u, factor, by ring, Dvd.intro _ rfl, by omega, hfactor0, hprod, ?_, ?_, by omega⟩
  · rw [hprod]
    exact Nat.mul_div_cancel_left _ (by omega)
  · rw [hfactor]
    exact Nat.mul_div_cancel_left _ (by omega)

include hQ hQ60

theorem testVector_constant (gate : BINGATE) {b t x : Nat} (hb : b < q) (ht : t < q)
    (hx : Represents q ((b : ZMod q) - t) x) :
    ((X ^ (2 * N - t * (2 * N / q)) * coeffPoly N (coefficient Q (testVector N q Q gate b))) %ₘ
      (X ^ N + 1)).coeff 0 =
        if positiveAt q gate x then (amplitude Q (gateModulus gate) : ZMod Q)
        else -(amplitude Q (gateModulus gate) : ZMod Q) := by
  have hlt := amplitude_lt hQ gate
  have hamplitude : 0 < amplitude Q (gateModulus gate) := Nat.succ_pos _
  have : Fact (1 < Q) := ⟨hQ⟩
  rcases exists_halves hq hdvd hpos hN with
    ⟨h, factor, rfl, _, hh, hfactor, rfl, hdiv, hrate, h32⟩
  have hconst := gateConst_lt (q := 2 * h) (by omega) (by omega) gate
  have hhalf : 2 * h / 2 = h := Nat.mul_div_cancel_left h (by decide)
  have htable := gateTable_opposite hh h32 hconst hQ60 hamplitude hlt
  have hturn : t * factor < 2 * (h * factor) := by
    rw [<- Nat.mul_assoc]
    exact Nat.mul_lt_mul_of_pos_right ht hfactor
  rw [hrate, constant_of_inverse_rotation hturn, testVector, hhalf, hdiv,
    rotated_fillTable htable hfactor ht (by omega) hb hx, gateTable_read h32 hconst hx.1,
    positiveAt, hhalf]
  by_cases hup : h <= (x + 2 * h - gateConst (2 * h) gate) % (2 * h)
  · rw [if_pos hup, if_pos (decide_eq_true hup)]
  · rw [if_neg hup, if_neg (by simpa using hup), cast_subFast hQ60 hlt.le]

end Table

/-! ## The sign of the sum -/

theorem positiveAt_eq {q : Nat} (hq : 16 ∣ q) (hpos : 0 < q) (hlt : q < 2 ^ 60) {gate : BINGATE}
    {c : Nat} (hc : c <= gateInputs gate) {e : Int} (he : ErrorBound gate q e) {x : Nat}
    (hx : (x : ZMod q) = (gateSum gate q c : Nat) + (e : ZMod q)) :
    positiveAt q gate x = countTruth gate c := by
  rcases hq with ⟨u, rfl⟩
  have hside := gate_side hlt hc he
  have hturn := turn_eq (gateConst_lt hpos hlt gate)
    (y := (gateSum gate (16 * u) c : Nat) + e) (by rw [hx]; push_cast; rfl)
  have hhalf : 16 * u / 2 = 8 * u := by omega
  have hcircle : 2 * (8 * u) = 16 * u := by omega
  rw [hcircle, <- hturn] at hside
  rw [<- hside, positiveAt, hhalf, decide_eq_decide, Int.ofNat_le]

theorem amplitude_add (Q p : Nat) (up : Bool) : exists d : Int, |d| <= 2 ∧
    (amplitude Q p : Int) + (if up then (amplitude Q p : Int) else -(amplitude Q p : Int)) =
      ((if up then Q / p else 0 : Nat) : Int) + d := by
  have hsplit : Q / (2 * p) = Q / p / 2 := by
    rw [Nat.mul_comm, Nat.div_div_eq_div_mul]
  unfold amplitude
  rw [hsplit]
  generalize Q / p = v
  cases up with
  | true =>
      refine ⟨2 * ((v / 2 : Nat) : Int) + 2 - v, ?_, ?_⟩
      · rw [abs_le]
        omega
      · rw [if_pos rfl, if_pos rfl]
        push_cast
        ring
  | false =>
      refine ⟨0, by decide, ?_⟩
      rw [if_neg (by decide), if_neg (by decide)]
      push_cast
      ring

/-! ## Sums of inputs -/

/-- A ciphertext whose phase is `c` steps of the message space and an error. -/
structure Carries (n q step : Nat) (sk : NativeVectorT) (ct : LWECiphertextImpl) (c : Nat)
    (e : Int) : Prop where
  mask : NativeVectorT.Valid n q ct.m_a
  body_lt : ct.m_b < q
  phase_eq : phase q n sk ct.m_a.data ct.m_b = ((c * step : Nat) : ZMod q) + (e : ZMod q)

theorem evalAddEq_carries {n q step : Nat} {sk : NativeVectorT} (hq : q < 2 ^ 60)
    {ct1 ct2 : LWECiphertextImpl} {c1 c2 : Nat} {e1 e2 : Int}
    (h1 : Carries n q step sk ct1 c1 e1) (h2 : Carries n q step sk ct2 c2 e2) :
    exists ct, evalAddEq ct1 ct2 = .ok ct ∧ Carries n q step sk ct (c1 + c2) (e1 + e2) ∧
      ct.m_p = ct1.m_p := by
  rcases NativeVectorT.modAddEq_ok h1.mask.stands h2.mask.stands hq with ⟨a, ha, hsum⟩
  have hbody := represents_addFast (lt_trans hq (by decide)) h1.body_lt h2.body_lt
  have hproduct : maskProduct q n a.data sk =
      maskProduct q n ct1.m_a.data sk + maskProduct q n ct2.m_a.data sk := by
    unfold maskProduct
    rw [<- Finset.sum_add_distrib]
    apply Finset.sum_congr rfl
    intro i hi
    rw [hsum.holds.coefficient_eq (Finset.mem_range.mp hi), add_mul]
  refine ⟨{ ct1 with m_a := a, m_b := modAddFast ct1.m_b ct2.m_b q }, ?_, ?_, rfl⟩
  · rw [evalAddEq, ha, Fault.ok_bind, LWECiphertextImpl.getModulus, h1.mask.modulus_eq]
    rfl
  · constructor
    · exact hsum.valid
    · exact hbody.1
    · have hphase1 := h1.phase_eq
      have hphase2 := h2.phase_eq
      rw [phase] at hphase1 hphase2
      dsimp only
      rw [phase, hbody.2, hproduct, Nat.add_mul, Nat.cast_add, Int.cast_add]
      linear_combination hphase1 + hphase2

/-! ## Evaluation -/

/-- A ciphertext under the ring secret that carries the truth value with an error of two. -/
def CarriesTruth (N Q p : Nat) (skN : NativeVectorT) (ct : LWECiphertextImpl) (truth : Bool) :
    Prop :=
  exists d : Int, |d| <= 2 ∧ phase Q N skN ct.m_a.data ct.m_b =
    ((if truth then Q / p else 0 : Nat) : ZMod Q) + (d : ZMod Q)

theorem count_cons_fst (input : Bool × Int) (inputs : List (Bool × Int)) :
    input.1.toNat + (inputs.map Prod.fst).count true =
      ((input :: inputs).map Prod.fst).count true := by
  rw [List.map_cons, List.count_cons, Nat.add_comm]
  cases input.1 <;> rfl

/-- A pointer to an input that carries a bit with an error. -/
def CarriesInput (n q step : Nat) (sk : NativeVectorT) (ct : LWECiphertext) (input : Bool × Int) :
    Prop :=
  exists address object, ct = some (address, object) ∧
    Carries n q step sk object input.1.toNat input.2

namespace GateScheme

variable {Key : Type _} {scheme : GateScheme Key} {k psi n : Nat} {sk skN : NativeVectorT}
  {ek : Key}

theorem bootstrapGateCore_loads (hq : 16 ∣ scheme.q) (hdvd : scheme.q ∣ 2 * scheme.N)
    (hpos : 0 < scheme.N) (hN : 2 * scheme.N < 2 ^ 32) (gate : BINGATE) (ek : Key)
    {ct : LWECiphertextImpl} (hct : ct.getModulus = scheme.q) (hp : ct.m_p = gateModulus gate) :
    scheme.bootstrapGateCore gate (some ek) ct = (do
      let res1 <- Fault.access (Poly.setFormat scheme.cache
        ⟨scheme.Q, .COEFFICIENT, testVector scheme.N scheme.q scheme.Q gate ct.m_b⟩ .EVALUATION)
      scheme.EvalAcc ek (Poly.zero scheme.Q scheme.N .EVALUATION, res1) ct.m_a) := by
  rcases exists_halves hq hdvd hpos hN with ⟨h, factor, hqh, _, hh, hfactor, _, hdiv, _, h32⟩
  have hbounds := gateModulus_bounds gate
  have hhalf : usint (scheme.q : Nat) >>> 1 = h := by
    rw [hqh, usint_natCast, Nat.mod_eq_of_lt h32, Nat.shiftRight_eq_div_pow]
    omega
  have htwo : scheme.q / 2 = h := by omega
  have hstep : halfStep scheme.Q (gateModulus gate) =
      .ok (amplitude scheme.Q (gateModulus gate)) := by
    rw [halfStep, mulFast_gateModulus, if_neg (by omega)]
    rfl
  unfold bootstrapGateCore testVector
  dsimp only
  rw [hct, hp, hstep, Fault.ok_bind, hhalf, hdiv, if_neg (by omega), htwo, hdiv]

section Evaluation

variable (hexact : ExactRotation scheme k psi n sk skN ek) (hq : 16 ∣ scheme.q)

include hexact hq

theorem ExactRotation.q_pos : 0 < scheme.q := by
  rcases hexact.params.halves (dvd_trans (by decide) hq) with ⟨_, _, hqh, _, hpos, _⟩
  omega

theorem ExactRotation.toSmall_eq {ct : LWECiphertextImpl}
    (hct : NativeVectorT.Valid n scheme.q ct.m_a) (EK : RingGSWBTKey Key) :
    scheme.toSmall EK ct = .ok ct ∧ scheme.toSmallCopy EK ct = .ok ct.copy := by
  have hodd := hexact.ready.modulus.odd
  have hne : ¬scheme.Q = ct.getModulus := by
    rw [LWECiphertextImpl.getModulus, hct.modulus_eq]
    omega
  exact ⟨if_neg hne, if_neg hne⟩

theorem bootstrapGateCore_carries {gate : BINGATE} {ct : LWECiphertextImpl} {step steps c : Nat}
    {e : Int} (hct : Carries n scheme.q step sk ct steps e)
    (hsteps : steps * step = gateSum gate scheme.q c) (hp : ct.m_p = gateModulus gate)
    (hc : c <= gateInputs gate) (he : ErrorBound gate scheme.q e) :
    exists accVec ct', scheme.bootstrapGateCore gate (some ek) ct = .ok accVec ∧
      scheme.extract accVec (amplitude scheme.Q (gateModulus gate)) = .ok ct' ∧
      CarriesTruth (2 ^ k) scheme.Q (gateModulus gate) skN ct' (countTruth gate c) := by
  have h8 : 8 ∣ scheme.q := dvd_trans (by decide) hq
  have hpos := hexact.q_pos hq
  have hq60 := hexact.q_lt
  have hfactor : mulFast ct.m_p 2 = 2 * gateModulus gate := by rw [hp, mulFast_gateModulus]
  have hbounds := gateModulus_bounds gate
  rcases bootstrapGateCore_spec hexact h8 gate hct.mask hct.body_lt (by omega) with
    ⟨accVec, c0, c1, hrun, h0, h1, hconstant⟩
  have hlt := amplitude_lt hexact.ready.modulus.one_lt gate
  rcases extract_spec hexact.pos hexact.le hexact.ready h0 h1 hlt skN with
    ⟨ct', hct', _, _, hphase⟩
  refine ⟨accVec, ct', hrun, hct', ?_⟩
  have hresidue : Represents scheme.q (phase scheme.q n sk ct.m_a.data ct.m_b)
      (phase scheme.q n sk ct.m_a.data ct.m_b).val := by
    have : NeZero scheme.q := ⟨hpos.ne'⟩
    exact ⟨ZMod.val_lt _, ZMod.natCast_zmod_val _⟩
  generalize (phase scheme.q n sk ct.m_a.data ct.m_b).val = x at hresidue
  have hsum : (x : ZMod scheme.q) = (gateSum gate scheme.q c : Nat) + (e : ZMod scheme.q) := by
    rw [hresidue.2, hct.phase_eq, hsteps]
  have hsign := positiveAt_eq hq hpos hq60 hc he hsum
  rcases hexact.params.halves h8 with ⟨h, _, hqh, _, _, _, _, _, _, h32⟩
  have hhalf : scheme.q / 2 = h := by omega
  have hentry : (((gateTable (gateConst scheme.q gate) scheme.q scheme.Q
      (amplitude scheme.Q (gateModulus gate))).read x : Nat) : ZMod scheme.Q) =
        if countTruth gate c then (amplitude scheme.Q (gateModulus gate) : ZMod scheme.Q)
        else -(amplitude scheme.Q (gateModulus gate) : ZMod scheme.Q) := by
    have hread : (gateTable (gateConst scheme.q gate) scheme.q scheme.Q
        (amplitude scheme.Q (gateModulus gate))).read x =
          if h <= (x + scheme.q - gateConst scheme.q gate) % scheme.q then
            amplitude scheme.Q (gateModulus gate)
          else subFast scheme.Q (amplitude scheme.Q (gateModulus gate)) := by
      have hconst := gateConst_lt hpos hq60 gate
      have hx := hresidue.1
      rw [hqh] at hconst hx ⊢
      exact gateTable_read h32 hconst hx
    rw [hread, <- hsign, positiveAt, hhalf]
    by_cases hup : h <= (x + scheme.q - gateConst scheme.q gate) % scheme.q
    · rw [if_pos hup, if_pos (decide_eq_true hup)]
    · rw [if_neg hup, if_neg (by simpa using hup),
        cast_subFast hexact.ready.modulus.lt hlt.le]
  rcases amplitude_add scheme.Q (gateModulus gate) (countTruth gate c) with ⟨d, hd, hadd⟩
  refine ⟨d, hd, ?_⟩
  have hcast := congrArg (Int.cast : Int -> ZMod scheme.Q) hadd
  rw [hphase, hconstant x hresidue, hfactor]
  refine Eq.trans (congrArg _ hentry) ?_
  rw [Int.cast_add, Int.cast_add, Int.cast_natCast, Int.cast_natCast] at hcast
  rw [<- hcast]
  cases countTruth gate c with
  | true =>
      rw [if_pos rfl, if_pos rfl, Int.cast_natCast]
  | false =>
      rw [if_neg (by decide), if_neg (by decide), Int.cast_neg, Int.cast_natCast]

theorem evalBinGate_carries {gate : BINGATE} (htwo : gateInputs gate = 2)
    {EK : RingGSWBTKey Key} (hEK : EK.BSkey = some ek) {address1 address2 : Nat}
    (hne : address1 ≠ address2) {ct1 ct2 : LWECiphertextImpl} {bit1 bit2 : Bool} {e1 e2 : Int}
    (h1 : Carries n scheme.q (scheme.q / gateModulus gate) sk ct1 bit1.toNat e1)
    (h2 : Carries n scheme.q (scheme.q / gateModulus gate) sk ct2 bit2.toNat e2)
    (he : ErrorBound gate scheme.q (gateFactor gate * (e1 + e2))) :
    exists ct, scheme.evalBinGate gate EK (some (address1, ct1)) (some (address2, ct2)) true =
        .ok ct ∧
      CarriesTruth (2 ^ k) scheme.Q (gateModulus gate) skN ct (gateTruth gate [bit1, bit2]) := by
  have hq60 := hexact.q_lt
  have hp : gateModulus gate = 4 := by
    cases gate with
    | OR | AND | NOR | NAND | XOR | XNOR | XOR_FAST | XNOR_FAST => rfl
    | MAJORITY | AND3 | OR3 | AND4 | OR4 => cases htwo
  have hcopy : Carries n scheme.q (scheme.q / gateModulus gate) sk ct1.copy bit1.toNat e1 :=
    ⟨h1.mask, h1.body_lt, h1.phase_eq⟩
  rcases evalAddEq_carries hq60 hcopy h2 with ⟨sum, hsum, hcarries, hsum_p⟩
  have hcount : bit1.toNat + bit2.toNat = [bit1, bit2].count true := by
    cases bit1 <;> cases bit2 <;> rfl
  have hle : bit1.toNat + bit2.toNat <= gateInputs gate := by
    rw [htwo, hcount]
    exact List.count_le_length
  have hdoubled : exists total steps, addTwice gate sum = .ok total ∧
      total.m_p = gateModulus gate ∧
      steps * (scheme.q / gateModulus gate) =
        gateSum gate scheme.q (bit1.toNat + bit2.toNat) ∧
      Carries n scheme.q (scheme.q / gateModulus gate) sk total steps
        (gateFactor gate * (e1 + e2)) := by
    rw [addTwice, gateSum, gateFactor]
    cases hdoubles : doubles gate with
    | true =>
        rcases evalAddEq_carries hq60 hcarries hcarries with ⟨total, htotal, hc, htotal_p⟩
        refine ⟨total, bit1.toNat + bit2.toNat + (bit1.toNat + bit2.toNat), htotal, ?_, ?_, ?_⟩
        · rw [htotal_p, hsum_p, hp]
          rfl
        · rw [if_pos rfl, <- two_mul, Nat.mul_assoc, Nat.mul_left_comm]
        · rw [if_pos rfl, Nat.cast_two, two_mul]
          exact hc
    | false =>
        refine ⟨sum, bit1.toNat + bit2.toNat, rfl, ?_, ?_, ?_⟩
        · rw [hsum_p, hp]
          rfl
        · rw [if_neg (by decide), Nat.one_mul]
        · rw [if_neg (by decide), Nat.cast_one, one_mul]
          exact hcarries
  rcases hdoubled with ⟨total, steps, htotal, htotal_p, hsteps, hcarries'⟩
  rcases bootstrapGateCore_carries hexact hq hcarries' hsteps htotal_p hle he with
    ⟨accVec, ct, hcore, hextract, htruth⟩
  have hoffset : addFast (scheme.Q >>> 3) 1 = amplitude scheme.Q (gateModulus gate) := by
    have hQ := hexact.ready.modulus.lt
    rw [hp, addFast, word_eq (by rw [Nat.shiftRight_eq_div_pow]; simp only [maxBits]; omega),
      Nat.shiftRight_eq_div_pow]
    exact Nat.add_comm _ _
  refine ⟨ct, ?_, ?_⟩
  · unfold evalBinGate
    dsimp only
    rw [if_neg hne, (hexact.toSmall_eq hq h1.mask EK).2, Fault.ok_bind,
      (hexact.toSmall_eq hq h2.mask EK).1, Fault.ok_bind, hsum, Fault.ok_bind, htotal,
      Fault.ok_bind, hEK, hcore, Fault.ok_bind, hoffset, hextract, Fault.ok_bind]
    rfl
  · rw [gateTruth_eq_count (by rw [htwo]; rfl), <- hcount]
    exact htruth

theorem addInputs_carries {step : Nat} {EK : RingGSWBTKey Key} {ptrs : List LWECiphertext}
    {inputs : List (Bool × Int)}
    (hinputs : List.Forall₂ (CarriesInput n scheme.q step sk) ptrs inputs)
    {ct : LWECiphertextImpl} {c : Nat} {e : Int} (hct : Carries n scheme.q step sk ct c e) :
    exists ct', ptrs.foldlM (scheme.addInput EK) ct = .ok ct' ∧
      Carries n scheme.q step sk ct' (c + (inputs.map Prod.fst).count true)
        (e + (inputs.map Prod.snd).sum) := by
  induction hinputs generalizing ct c e with
  | nil =>
      refine ⟨ct, rfl, ?_⟩
      rw [List.map_nil, List.map_nil, List.count_nil, List.sum_nil, Nat.add_zero, add_zero]
      exact hct
  | @cons ptr input ptrs inputs hptr _ ih =>
      rcases hptr with ⟨address, object, rfl, hobject⟩
      rcases evalAddEq_carries hexact.q_lt hct hobject with ⟨sum, hsum, hcarries, _⟩
      rcases ih hcarries with ⟨ct', hct', hrest⟩
      refine ⟨ct', ?_, ?_⟩
      · rw [List.foldlM_cons, addInput, Fault.access_some, Fault.ok_bind,
          (hexact.toSmall_eq hq hobject.mask EK).1, Fault.ok_bind, hsum, Fault.ok_bind]
        exact hct'
      · rw [<- count_cons_fst, List.map_cons, List.sum_cons, <- Nat.add_assoc, <- add_assoc]
        exact hrest

theorem evalBinGateVector_carries {gate : BINGATE} (hvector : takesVector gate = true)
    {EK : RingGSWBTKey Key} (hEK : EK.BSkey = some ek) {ctvector : List LWECiphertext}
    (hnodup : (ctvector.map (Option.map Prod.fst)).Nodup) {inputs : List (Bool × Int)}
    (hlength : inputs.length = gateInputs gate)
    (hinputs : List.Forall₂
      (CarriesInput n scheme.q (scheme.q / gateModulus gate) sk) ctvector inputs)
    (hp : forall address object, ctvector.head? = some (some (address, object)) ->
      object.m_p = gateModulus gate)
    (he : ErrorBound gate scheme.q (gateFactor gate * (inputs.map Prod.snd).sum)) :
    exists ct, scheme.evalBinGateVector gate EK ctvector true = .ok ct ∧
      ct.m_p = gateModulus gate ∧
      CarriesTruth (2 ^ k) scheme.Q (gateModulus gate) skN ct
        (gateTruth gate (inputs.map Prod.fst)) := by
  have hfactor : gateFactor gate = 1 := by
    cases gate with
    | MAJORITY | AND3 | OR3 | AND4 | OR4 => rfl
    | OR | AND | NOR | NAND | XOR | XNOR | XOR_FAST | XNOR_FAST => cases hvector
  rw [hfactor, Nat.cast_one, one_mul] at he
  cases hinputs with
  | nil =>
      cases gate <;> cases hlength
  | @cons ptr input ptrs rest hptr hrest =>
      rcases hptr with ⟨address, object, rfl, hobject⟩
      have hm_p := hp address object rfl
      have hcopy : Carries n scheme.q (scheme.q / gateModulus gate) sk object.copy
          input.1.toNat input.2 := ⟨hobject.mask, hobject.body_lt, hobject.phase_eq⟩
      rcases addInputs_carries hexact hq hrest hcopy with ⟨sum, hsum, hcarries⟩
      have hcount : input.1.toNat + (rest.map Prod.fst).count true =
          ((input :: rest).map Prod.fst).count true := count_cons_fst input rest
      rw [hcount] at hcarries
      rw [List.map_cons, List.sum_cons] at he
      have hstepsum : ((input :: rest).map Prod.fst).count true *
          (scheme.q / gateModulus gate) =
            gateSum gate scheme.q (((input :: rest).map Prod.fst).count true) := by
        rw [gateSum, hfactor, Nat.one_mul]
      have hle : ((input :: rest).map Prod.fst).count true <= gateInputs gate := by
        have hmap : ((input :: rest).map Prod.fst).length = (input :: rest).length :=
          List.length_map _
        rw [<- hlength, <- hmap]
        exact List.count_le_length
      have htotal : Carries n scheme.q (scheme.q / gateModulus gate) sk
          { sum with m_p := object.m_p } (((input :: rest).map Prod.fst).count true)
          (input.2 + (rest.map Prod.snd).sum) :=
        ⟨hcarries.mask, hcarries.body_lt, hcarries.phase_eq⟩
      rcases bootstrapGateCore_carries hexact hq htotal hstepsum hm_p hle he with
        ⟨accVec, ct, hcore, hextract, d, hd, hphase⟩
      have hstep : halfStep scheme.Q object.m_p =
          .ok (amplitude scheme.Q (gateModulus gate)) := by
        have hbounds := gateModulus_bounds gate
        rw [hm_p, halfStep, mulFast_gateModulus, if_neg (by omega)]
        rfl
      refine ⟨{ ct with m_p := object.m_p }, ?_, hm_p, ?_⟩
      · unfold evalBinGateVector
        dsimp only [List.head?_cons, List.tail_cons]
        rw [if_neg (not_not.mpr hnodup), if_pos hvector, Fault.access_some, Fault.ok_bind,
          Fault.access_some, Fault.ok_bind, (hexact.toSmall_eq hq hobject.mask EK).2,
          Fault.ok_bind, hsum, Fault.ok_bind, hEK, hcore, Fault.ok_bind, hstep, Fault.ok_bind,
          hextract, Fault.ok_bind]
        rfl
      · rw [gateTruth_eq_count (by rw [List.length_map]; exact hlength)]
        exact ⟨d, hd, hphase⟩

end Evaluation

end GateScheme

/-! ## The gates as a whole -/

/-- The phase of an input: its bit in steps of the message space, and its error. -/
def inputPhase (step : Nat) (input : Bool × Int) : Int :=
  (input.1.toNat * step : Nat) + input.2

structure TableLaw {Key : Type _} (scheme : GateScheme Key) (gate : BINGATE) : Prop where
  loads : forall ek ct, ct.getModulus = scheme.q -> ct.m_p = gateModulus gate ->
    scheme.bootstrapGateCore gate (some ek) ct = (do
      let res1 <- Fault.access (Poly.setFormat scheme.cache
        ⟨scheme.Q, .COEFFICIENT, testVector scheme.N scheme.q scheme.Q gate ct.m_b⟩ .EVALUATION)
      scheme.EvalAcc ek (Poly.zero scheme.Q scheme.N .EVALUATION, res1) ct.m_a)
  constant : forall b t x, b < scheme.q -> t < scheme.q ->
    Represents scheme.q ((b : ZMod scheme.q) - t) x ->
      ((X ^ (2 * scheme.N - t * (2 * scheme.N / scheme.q)) * coeffPoly scheme.N
          (coefficient scheme.Q (testVector scheme.N scheme.q scheme.Q gate b))) %ₘ
        (X ^ scheme.N + 1)).coeff 0 =
          if positiveAt scheme.q gate x then
            (amplitude scheme.Q (gateModulus gate) : ZMod scheme.Q)
          else -(amplitude scheme.Q (gateModulus gate) : ZMod scheme.Q)
  sign : forall (inputs : List (Bool × Int)) (x : Nat), inputs.length = gateInputs gate ->
    ErrorBound gate scheme.q (gateFactor gate * (inputs.map Prod.snd).sum) ->
    (x : ZMod scheme.q) = ((gateFactor gate *
      (inputs.map (inputPhase (scheme.q / gateModulus gate))).sum : Int) : ZMod scheme.q) ->
    positiveAt scheme.q gate x = gateTruth gate (inputs.map Prod.fst)
  amplitudes : forall up : Bool, exists d : Int, |d| <= 2 ∧
    (amplitude scheme.Q (gateModulus gate) : Int) +
        (if up then (amplitude scheme.Q (gateModulus gate) : Int)
          else -(amplitude scheme.Q (gateModulus gate) : Int)) =
      ((if up then scheme.Q / gateModulus gate else 0 : Nat) : Int) + d

/-- What `EvalBinGate` returns in the large dimension. -/
structure EvaluatesGate {Key : Type _} (scheme : GateScheme Key) (n : Nat)
    (sk skN : NativeVectorT) (ek : Key) (gate : BINGATE) : Prop where
  two : gateInputs gate = 2 -> forall EK, EK.BSkey = some ek ->
    forall address1 address2 ct1 ct2 bit1 bit2 e1 e2, address1 ≠ address2 ->
      Carries n scheme.q (scheme.q / gateModulus gate) sk ct1 bit1.toNat e1 ->
      Carries n scheme.q (scheme.q / gateModulus gate) sk ct2 bit2.toNat e2 ->
      ErrorBound gate scheme.q (gateFactor gate * (e1 + e2)) ->
      exists ct, scheme.evalBinGate gate EK (some (address1, ct1)) (some (address2, ct2)) true =
          .ok ct ∧
        CarriesTruth scheme.N scheme.Q (gateModulus gate) skN ct (gateTruth gate [bit1, bit2])
  vector : takesVector gate = true -> forall EK, EK.BSkey = some ek ->
    forall (ctvector : List LWECiphertext) (inputs : List (Bool × Int)),
      (ctvector.map (Option.map Prod.fst)).Nodup -> inputs.length = gateInputs gate ->
      List.Forall₂ (CarriesInput n scheme.q (scheme.q / gateModulus gate) sk) ctvector inputs ->
      (forall address object, ctvector.head? = some (some (address, object)) ->
        object.m_p = gateModulus gate) ->
      ErrorBound gate scheme.q (gateFactor gate * (inputs.map Prod.snd).sum) ->
      exists ct, scheme.evalBinGateVector gate EK ctvector true = .ok ct ∧
        CarriesTruth scheme.N scheme.Q (gateModulus gate) skN ct
          (gateTruth gate (inputs.map Prod.fst))

theorem sum_inputPhase (step : Nat) (inputs : List (Bool × Int)) :
    (inputs.map (inputPhase step)).sum =
      ((inputs.map Prod.fst).count true * step : Nat) + (inputs.map Prod.snd).sum := by
  induction inputs with
  | nil => simp
  | cons input inputs ih =>
      rw [<- count_cons_fst, List.map_cons, List.sum_cons, ih, List.map_cons, List.sum_cons,
        inputPhase]
      push_cast
      ring

/-- Every gate with a constant is evaluated by its truth table. -/
theorem gateBootstrapping {Key : Type _} (scheme : GateScheme Key) (hq : 16 ∣ scheme.q)
    (hdvd : scheme.q ∣ 2 * scheme.N) (hpos : 0 < scheme.N) (hN : 2 * scheme.N < 2 ^ 32)
    (hQ : 1 < scheme.Q) (hQ60 : scheme.Q < 2 ^ 60) (gate : BINGATE) :
    TableLaw scheme gate ∧ forall k psi n sk skN ek,
      GateScheme.ExactRotation scheme k psi n sk skN ek ->
        EvaluatesGate scheme n sk skN ek gate := by
  constructor
  · rcases exists_halves hq hdvd hpos hN with ⟨h, _, hqh, _, hh, _, _, _, _, h32⟩
    constructor
    · intro ek ct hct hp
      exact GateScheme.bootstrapGateCore_loads hq hdvd hpos hN gate ek hct hp
    · intro b t x hb ht hx
      exact testVector_constant hq hdvd hpos hN hQ hQ60 gate hb ht hx
    · intro inputs x hlength he hx
      have hle : (inputs.map Prod.fst).count true <= gateInputs gate := by
        have hmap : (inputs.map Prod.fst).length = inputs.length := List.length_map _
        rw [<- hlength, <- hmap]
        exact List.count_le_length
      rw [gateTruth_eq_count (by rw [List.length_map]; exact hlength)]
      apply positiveAt_eq hq (by omega) (by omega) hle he
      rw [hx, sum_inputPhase, gateSum]
      generalize scheme.q / gateModulus gate = step
      push_cast
      ring
    · intro up
      exact amplitude_add scheme.Q (gateModulus gate) up
  · intro k psi n sk skN ek hexact
    constructor
    · intro htwo EK hEK address1 address2 ct1 ct2 bit1 bit2 e1 e2 hne h1 h2 he
      rw [hexact.dimension]
      exact GateScheme.evalBinGate_carries hexact hq htwo hEK hne h1 h2 he
    · intro hvector EK hEK ctvector inputs hnodup hlength hinputs hp he
      rcases GateScheme.evalBinGateVector_carries hexact hq hvector hEK hnodup hlength hinputs hp
        he with ⟨ct, hct, _, htruth⟩
      rw [hexact.dimension]
      exact ⟨ct, hct, htruth⟩

theorem gateBootstrapping_sixteen :
    TableLaw (zeroSecret 3 16 17 3) .AND ∧
      EvaluatesGate (zeroSecret 3 16 17 3) 1 secret0 ringSecret () .AND := by
  have hlaw := gateBootstrapping (zeroSecret 3 16 17 3) (by decide) (by decide) (by decide)
    (by decide) (by decide) (by decide) .AND
  exact ⟨hlaw.1, hlaw.2 3 3 1 secret0 ringSecret ()
    (zeroSecret_exact (by decide) (by decide) (by decide) ready_seventeen ringSecret)⟩

end BinFHE
end OpenFHE
