import OpenFHE.BinFHE.EvalSign
import OpenFHE.BinFHE.LWEKeySwitch

/-!
# Flooring of large ciphertexts

`EvalFloor` moves the rest of the phase modulo `q` into the middle half by a first
bootstrapping and subtracts it by a second one.  Both are bootstrappings of negacyclic
functions, and exact ones leave the multiple of `q` below the phase.
-/

namespace OpenFHE
namespace BinFHE

open Core Foundation NativeInteger LWEEncryptionScheme

/-! ## Phases -/

/-- A ciphertext of the modulus `M` with the phase `x`. -/
structure HasPhase (n M : Nat) (sk : NativeVectorT) (ct : LWECiphertextImpl) (x : Nat) :
    Prop where
  mask : NativeVectorT.Valid n M ct.m_a
  body_lt : ct.m_b < M
  phase_eq : Represents M (phase M n sk ct.m_a.data ct.m_b) x

section Phases

variable {n M : Nat} {sk : NativeVectorT} (hM : M < 2 ^ 60) {ct : LWECiphertextImpl} {x : Nat}
  (hct : HasPhase n M sk ct x)

include hct

theorem HasPhase.copy : HasPhase n M sk ct.copy x :=
  ⟨hct.mask, hct.body_lt, hct.phase_eq⟩

include hM

theorem HasPhase.addConst {cnst : Nat} (hcnst : cnst < M) :
    HasPhase n M sk (evalAddConstEq ct cnst) ((x + cnst) % M) := by
  have hbody := represents_addFast (lt_trans hM (by decide)) hct.body_lt hcnst
  have hphase := hct.phase_eq.2
  constructor
  · exact hct.mask
  · rw [evalAddConstEq, LWECiphertextImpl.getModulus, hct.mask.modulus_eq]
    exact hbody.1
  · refine ⟨Nat.mod_lt _ (by omega), ?_⟩
    rw [evalAddConstEq, LWECiphertextImpl.getModulus, hct.mask.modulus_eq]
    rw [phase] at hphase ⊢
    rw [hbody.2, ZMod.natCast_mod, Nat.cast_add, hphase]
    ring

theorem HasPhase.subConst {cnst : Nat} (hcnst : cnst < M) {y : Nat}
    (hy : Represents M ((x : ZMod M) - cnst) y) :
    HasPhase n M sk (evalSubConstEq ct cnst) y := by
  have hbody := NativeVector.represents_sub_fast hM hct.body_lt hcnst
  have hphase := hct.phase_eq.2
  constructor
  · exact hct.mask
  · rw [evalSubConstEq, LWECiphertextImpl.getModulus, hct.mask.modulus_eq]
    exact hbody.1
  · refine ⟨hy.1, ?_⟩
    rw [evalSubConstEq, LWECiphertextImpl.getModulus, hct.mask.modulus_eq]
    rw [phase] at hphase ⊢
    rw [hbody.2, hy.2, hphase]
    ring

theorem HasPhase.sub {ct2 : LWECiphertextImpl} {x2 y : Nat} (hct2 : HasPhase n M sk ct2 x2)
    (hy : Represents M ((x : ZMod M) - x2) y) :
    exists ct', evalSubEq ct ct2 = .ok ct' ∧ HasPhase n M sk ct' y := by
  have hbody := NativeVector.represents_sub_fast hM hct.body_lt hct2.body_lt
  have hphase := hct.phase_eq.2
  have hphase2 := hct2.phase_eq.2
  have hentries : Holds M n
      (fun i => coefficient M ct.m_a.data i - coefficient M ct2.m_a.data i)
      (List.zipWith (fun x y => modSubFast x y M) ct.m_a.data ct2.m_a.data) := by
    apply NativeVector.holds_zipWith _ hct.mask.residues.holds hct2.mask.residues.holds
    intro i u v hu hv
    rw [<- hu.2, <- hv.2]
    exact NativeVector.represents_sub_fast hM hu.1 hv.1
  have hproduct : maskProduct M n
      (List.zipWith (fun x y => modSubFast x y M) ct.m_a.data ct2.m_a.data) sk =
        maskProduct M n ct.m_a.data sk - maskProduct M n ct2.m_a.data sk := by
    unfold maskProduct
    rw [<- Finset.sum_sub_distrib]
    apply Finset.sum_congr rfl
    intro i hi
    rw [hentries.coefficient_eq (Finset.mem_range.mp hi), sub_mul]
  have hsame : ¬(ct.m_a.data.length ≠ ct2.m_a.data.length ∨
      ct.m_a.modulus ≠ ct2.m_a.modulus) := by
    rw [hct.mask.residues.1, hct2.mask.residues.1, hct.mask.modulus_eq, hct2.mask.modulus_eq]
    simp
  refine ⟨_, by rw [evalSubEq, NativeVectorT.modSubEq, if_neg hsame]; rfl, ?_⟩
  constructor
  · refine ⟨hct.mask.modulus_eq, ?_⟩
    dsimp only
    rw [hct.mask.modulus_eq]
    exact hentries.residues
  · dsimp only
    rw [LWECiphertextImpl.getModulus, hct.mask.modulus_eq]
    exact hbody.1
  · refine ⟨hy.1, ?_⟩
    dsimp only
    rw [LWECiphertextImpl.getModulus, hct.mask.modulus_eq]
    rw [phase] at hphase hphase2 ⊢
    rw [hbody.2, hproduct, hy.2, hphase, hphase2]
    ring

theorem HasPhase.setModulus {q : Nat} (hq : 2 < q) (hdvd : q ∣ M) :
    exists ct', ct.setModulus q = .ok ct' ∧ HasPhase n q sk ct' (x % q) := by
  have hpos : 0 < M := lt_of_le_of_lt (Nat.zero_le _) hct.body_lt
  have hq60 : q < 2 ^ 60 := lt_of_le_of_lt (Nat.le_of_dvd hpos hdvd) hM
  have hentries := NativeVector.switchModulus_spec (lt_trans hM (by decide)) hq60
    (by omega) hct.mask.residues
  have hset := NativeVectorT.setModulus_ok
    { modulus := M, data := NativeVector.switchModulus M q ct.m_a.data } hq60
  refine ⟨{ ct with
    m_a := { modulus := q, data := NativeVector.switchModulus M q ct.m_a.data }
    m_b := ct.m_b % q }, ?_, ⟨rfl, hentries.residues⟩, Nat.mod_lt _ (by omega), ?_⟩
  · rw [LWECiphertextImpl.setModulus, NativeVectorT.modEq, if_neg (by omega), if_neg (by omega),
      Fault.ok_bind, hct.mask.modulus_eq, hset, Fault.ok_bind, if_neg (by omega)]
    rfl
  · refine ⟨Nat.mod_lt _ (by omega), ?_⟩
    have hentry (v : Nat) : ((NativeVector.centered M v : Int) : ZMod q) = v := by
      have hzero := (ZMod.natCast_eq_zero_iff M q).mpr hdvd
      unfold NativeVector.centered
      split
      · rw [Int.cast_sub, Int.cast_natCast, Int.cast_natCast, hzero, sub_zero]
      · rw [Int.cast_natCast]
    have hcast := congrArg (ZMod.castHom hdvd (ZMod q)) hct.phase_eq.2
    rw [phase, maskProduct, map_natCast, map_sub, map_natCast, map_sum] at hcast
    dsimp only
    rw [ZMod.natCast_mod, hcast, phase, ZMod.natCast_mod, maskProduct]
    apply congrArg₂ _ rfl
    apply Finset.sum_congr rfl
    intro i hi
    rw [hentries.coefficient_eq (Finset.mem_range.mp hi), map_mul, secretResidue, map_intCast,
      coefficient, map_natCast, secretResidue, hentry]

end Phases

/-! ## The secret zero -/

section Zeros

variable {n M N : Nat}

theorem phase_zeros (a : List Nat) (b : Nat) : phase M n (NativeVectorT.zeros n N) a b = b := by
  have hproduct : maskProduct M n a (NativeVectorT.zeros n N) = 0 := by
    apply Finset.sum_eq_zero
    intro i hi
    have hentry : (NativeVectorT.zeros n N).data.getD i 0 = 0 := by
      simp only [NativeVectorT.zeros, List.getD_eq_getElem?_getD, List.getElem?_replicate]
      split <;> rfl
    have hcentered : NativeVector.centered N 0 = 0 := by
      rw [NativeVector.centered, if_neg (by omega)]
      rfl
    rw [secretResidue, hentry]
    show _ * ((NativeVector.centered N 0 : Int) : ZMod M) = 0
    rw [hcentered, Int.cast_zero, mul_zero]
  rw [phase, hproduct, sub_zero]

theorem HasPhase.body_eq {ct : LWECiphertextImpl} {x : Nat}
    (hct : HasPhase n M (NativeVectorT.zeros n N) ct x) : ct.m_b = x := by
  have hphase := hct.phase_eq.2
  rw [phase_zeros, ZMod.natCast_eq_natCast_iff] at hphase
  exact (hphase.eq_of_lt_of_lt hct.phase_eq.1 hct.body_lt).symm

theorem HasPhase.of_zeros {b : Nat} (hb : b < M) :
    HasPhase n M (NativeVectorT.zeros n N) { m_a := NativeVectorT.zeros n M, m_b := b } b := by
  refine ⟨NativeVectorT.zeros_valid (by omega), hb, hb, ?_⟩
  rw [phase_zeros]

end Zeros

/-! ## Exact calls -/

/-- `f` changes its sign by half of the modulus. -/
def Negacyclic (f : Nat -> Nat -> Nat -> Nat) (M F : Nat) : Prop :=
  forall z, z < M / 2 -> (f (z + M / 2) M F : ZMod F) = -(f z M F : ZMod F)

/--
Exact calls with good keys: the bootstrapping evaluates negacyclic functions at the phase,
and a modulus switch scales a phase that the new modulus can hold.  A switch to zero divides
by zero.
-/
structure ExactCalls {Key : Type _} (scheme : LargePrecision Key) (n : Nat) (sk : NativeVectorT)
    (Good : RingGSWBTKey Key -> Prop) : Prop where
  bootstrapFunc : forall params EK ct f M F x, Good EK -> M ∣ scheme.q -> 0 < F -> F < 2 ^ 60 ->
    HasPhase n M sk ct x -> Negacyclic f M F ->
    exists ct', scheme.BootstrapFunc params EK ct f F = .ok ct' ∧ HasPhase n F sk ct' (f x M F % F)
  modSwitch : forall ct M M' x, 0 < M' -> M' <= M -> M < 2 ^ 60 -> HasPhase n M sk ct x ->
    M ∣ x * M' ->
    exists ct', scheme.ModSwitch M' ct = .ok ct' ∧ HasPhase n M' sk ct' (x * M' / M)
  modSwitch_zero : forall ct, scheme.ModSwitch 0 ct = .error .undefined

/-! ## Flooring -/

def quarter (x q Q : Nat) : Nat := if x < q >>> 1 then subFast Q (q >>> 2) else q >>> 2

/-- The function of the second one, the identity on the middle half. -/
def middle (x q Q : Nat) : Nat :=
  if x < q >>> 2 then subFast (subFast Q (q >>> 1)) x
  else if q >>> 2 <= x ∧ x < 3 * (q >>> 2) then x
  else subFast (addFast Q (q >>> 1)) x

section Functions

variable {c F : Nat} (hF : 4 * c <= F) (hF60 : F < 2 ^ 60)

theorem shift_quarters (c : Nat) : (4 * c) >>> 1 = 2 * c ∧ (4 * c) >>> 2 = c := by
  rw [Nat.shiftRight_eq_div_pow, Nat.shiftRight_eq_div_pow]
  omega

include hF hF60

theorem quarter_eq (x : Nat) : quarter x (4 * c) F = if x < 2 * c then F - c else c := by
  have hword : (2 : Nat) ^ 60 < 2 ^ maxBits := by decide
  rw [quarter, (shift_quarters c).1, (shift_quarters c).2, subFast_eq (by omega) (by omega)]

theorem middle_eq {x : Nat} (hx : x < 4 * c) : middle x (4 * c) F =
    if x < c then F - 2 * c - x else if x < 3 * c then x else F + 2 * c - x := by
  have hword : (2 : Nat) ^ 61 < 2 ^ maxBits := by decide
  rw [middle, (shift_quarters c).1, (shift_quarters c).2]
  by_cases hlow : x < c
  · rw [if_pos hlow, if_pos hlow, subFast_eq (a := F) (by omega) (by omega),
      subFast_eq (by omega) (by omega)]
  · rw [if_neg hlow, if_neg hlow]
    by_cases hmid : x < 3 * c
    · rw [if_pos ⟨by omega, hmid⟩, if_pos hmid]
    · rw [if_neg (by omega), if_neg hmid, addFast, word_eq (by omega), Nat.add_comm,
        subFast_eq (by omega) (by omega)]

theorem quarter_negacyclic : Negacyclic quarter (4 * c) F := by
  intro z hz
  rw [quarter_eq hF hF60, quarter_eq hF hF60, if_neg (by omega), if_pos (by omega),
    Nat.cast_sub (by omega), ZMod.natCast_self]
  ring

theorem middle_negacyclic : Negacyclic middle (4 * c) F := by
  intro z hz
  have hhalf : 4 * c / 2 = 2 * c := by omega
  rw [hhalf] at hz ⊢
  rw [middle_eq hF hF60 (by omega), middle_eq hF hF60 (by omega), if_neg (by omega)]
  by_cases hlow : z < c
  · rw [if_pos (by omega), if_pos hlow, Nat.cast_sub (by omega), Nat.cast_sub (by omega),
      ZMod.natCast_self]
    push_cast
    ring
  · rw [if_neg (by omega), if_neg hlow, if_pos (by omega), Nat.cast_sub (by omega), Nat.cast_add,
      Nat.cast_add, ZMod.natCast_self]
    ring

end Functions

section Floor

variable {Key : Type _} {scheme : LargePrecision Key} {n : Nat} {sk : NativeVectorT}
  {Good : RingGSWBTKey Key -> Prop} (hexact : ExactCalls scheme n sk Good)
  (hq : 4 ∣ scheme.q) (hpos : 0 < scheme.q)

include hexact hq hpos

theorem evalFloor_spec {params : RingGSWCryptoParams} {EK : RingGSWBTKey Key} (hEK : Good EK)
    {ct : LWECiphertextImpl} {mod x beta : Nat} (hct : HasPhase n mod sk ct x)
    (hmod : mod < 2 ^ 60) (hdvd : scheme.q ∣ mod) (hbeta : beta < mod) :
    exists ct', scheme.evalFloor params EK ct beta = .ok ct' ∧
      HasPhase n mod sk ct' (scheme.q * ((x + beta) % mod / scheme.q)) := by
  rcases hq with ⟨c, hqc⟩
  have hct1 := hct.copy.addConst hmod hbeta
  have hx1 := hct1.phase_eq.1
  generalize (x + beta) % mod = x1 at hct1 hx1 ⊢
  have hle : 4 * c <= mod := by
    rw [<- hqc]
    exact Nat.le_of_dvd (by omega) hdvd
  rcases hct1.copy.setModulus hmod (by omega) hdvd with ⟨ct1Modq, hct1Modq, hphase1⟩
  have hroom : scheme.q * (x1 / scheme.q) + scheme.q <= mod := by
    rcases hdvd with ⟨e, he⟩
    have hlt : x1 / scheme.q < e := Nat.div_lt_of_lt_mul (by rw [<- he]; exact hx1)
    rw [he, <- Nat.mul_succ]
    exact Nat.mul_le_mul_left _ hlt
  have hsplit := Nat.div_add_mod x1 scheme.q
  have hylt := Nat.mod_lt x1 hpos
  generalize x1 % scheme.q = y at hphase1 hsplit hylt
  generalize x1 / scheme.q = m at hroom hsplit ⊢
  have hquarter := quarter_negacyclic hle hmod
  have hmiddle := middle_negacyclic hle hmod
  rw [<- hqc] at hquarter hmiddle
  rcases hexact.bootstrapFunc params EK ct1Modq quarter scheme.q mod y hEK dvd_rfl (by omega) hmod
    hphase1 hquarter with ⟨ct2, hct2, hphase2⟩
  -- The first bootstrapping moves the rest into the middle half.
  have hmoved : exists w, c <= w ∧ w < 3 * c ∧
      Represents mod ((x1 : ZMod mod) - (quarter y scheme.q mod % mod : Nat))
        (scheme.q * m + w) := by
    rw [hqc] at hsplit hylt hroom ⊢
    rw [quarter_eq hle hmod, <- hsplit, ZMod.natCast_mod]
    split
    · refine ⟨y + c, by omega, by omega, by omega, ?_⟩
      rw [Nat.cast_sub (by omega), ZMod.natCast_self]
      push_cast
      ring
    · refine ⟨y - c, by omega, by omega, by omega, ?_⟩
      rw [Nat.cast_add, Nat.cast_add, Nat.cast_sub (by omega)]
      ring
  rcases hmoved with ⟨w, hlow, hhigh, hw⟩
  rcases hct1.sub hmod hphase2 hw with ⟨ct3, hct3, hphase3⟩
  rcases hphase3.copy.setModulus hmod (by omega) hdvd with ⟨ct2Modq, hct2Modq, hphase4⟩
  rw [Nat.mul_add_mod, Nat.mod_eq_of_lt (by omega)] at hphase4
  rcases hexact.bootstrapFunc params EK ct2Modq middle scheme.q mod w hEK dvd_rfl (by omega) hmod
    hphase4 hmiddle with ⟨ct4, hct4, hphase5⟩
  have hrest : middle w scheme.q mod % mod = w := by
    rw [hqc, middle_eq hle hmod (by omega), if_neg (by omega), if_pos hhigh,
      Nat.mod_eq_of_lt (by omega)]
  rw [hrest] at hphase5
  have hfloor : Represents mod (((scheme.q * m + w : Nat) : ZMod mod) - (w : Nat))
      (scheme.q * m) := by
    refine ⟨by omega, ?_⟩
    rw [Nat.cast_add, add_sub_cancel_right]
  rcases hphase3.sub hmod hphase5 hfloor with ⟨ct5, hct5, hphase6⟩
  refine ⟨ct5, ?_, hphase6⟩
  have hmodulus : ct.getModulus = mod := hct.mask.modulus_eq
  unfold LargePrecision.evalFloor
  dsimp only
  rw [hmodulus, hct1Modq, Fault.ok_bind]
  refine Eq.trans (congrArg (· >>= _) hct2) ?_
  rw [Fault.ok_bind, hct3, Fault.ok_bind, hct2Modq, Fault.ok_bind]
  refine Eq.trans (congrArg (· >>= _) hct4) ?_
  rw [Fault.ok_bind]
  exact hct5

end Floor

end BinFHE
end OpenFHE
