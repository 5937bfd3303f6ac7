import OpenFHE.BinFHE.EvalFloor

/-!
# Signs and digits of large ciphertexts

Every iteration of `EvalSign` and `EvalDecomp` floors the phase to a multiple of `q` and scales
the modulus by `2 * beta / q`.  This keeps the half of the circle that the moved phase is in, and
the residues modulo `q` on the way determine the phase.  `EvalSign` computes the next modulus by a
product that need not fit in a word.
-/

namespace OpenFHE
namespace BinFHE

open Core Foundation NativeInteger LWEEncryptionScheme LargePrecision

/-! ## The running value -/

def nextModulus (q beta mod : Nat) : Nat := mod / q * 2 * beta

def nextValue (q beta mod x : Nat) : Nat := (x + beta) % mod / q * 2 * beta

def isNegative (beta mod x : Nat) : Bool := mod / 2 <= (x + beta) % mod

/-- The moduli and phases of the digits; the fuel bounds their number. -/
def digitPhases (q beta : Nat) : Nat -> Nat -> Nat -> List (Nat × Nat)
  | 0, mod, x => [(mod, x)]
  | fuel + 1, mod, x =>
      if mod > q then
        (q, x % q) :: digitPhases q beta fuel (nextModulus q beta mod) (nextValue q beta mod x)
      else [(mod, x)]

section Values

variable {q beta e : Nat} (hq : 0 < q) (hbeta : 0 < beta)

include hq

theorem nextModulus_mul (beta e : Nat) : nextModulus q beta (q * e) = e * 2 * beta := by
  rw [nextModulus, Nat.mul_div_cancel_left _ hq]

theorem moved_div_lt (he : 0 < e) (x : Nat) : (x + beta) % (q * e) / q < e := by
  apply Nat.div_lt_of_lt_mul
  exact Nat.mod_lt _ (Nat.mul_pos hq he)

include hbeta

theorem nextValue_lt (he : 0 < e) (x : Nat) :
    nextValue q beta (q * e) x < nextModulus q beta (q * e) := by
  rw [nextModulus_mul hq, nextValue]
  exact Nat.mul_lt_mul_of_pos_right
    (Nat.mul_lt_mul_of_pos_right (moved_div_lt hq he x) (by decide)) hbeta

theorem isNegative_next (he : 0 < e) (x : Nat) :
    isNegative beta (nextModulus q beta (q * (2 * e))) (nextValue q beta (q * (2 * e)) x) =
      isNegative beta (q * (2 * e)) x := by
  have hlt : (x + beta) % (q * (2 * e)) / q < 2 * e := moved_div_lt hq (by omega) x
  have hhalf : 2 * e * 2 * beta / 2 = 2 * e * beta := by
    rw [Nat.mul_right_comm]
    exact Nat.mul_div_cancel _ (by decide)
  have hhalf' : q * (2 * e) / 2 = e * q := by
    rw [Nat.mul_left_comm, Nat.mul_div_cancel_left _ (by decide), Nat.mul_comm]
  rw [isNegative, isNegative, nextModulus_mul hq, nextValue, hhalf, hhalf', decide_eq_decide,
    <- Nat.le_div_iff_mul_le hq]
  generalize (x + beta) % (q * (2 * e)) / q = m at hlt ⊢
  have hsum : m * 2 * beta + beta = (2 * m + 1) * beta := by ring
  have hfits : (2 * m + 1) * beta < 2 * e * 2 * beta :=
    Nat.mul_lt_mul_of_pos_right (by omega) hbeta
  rw [hsum, Nat.mod_eq_of_lt hfits, Nat.mul_le_mul_right_iff hbeta]
  omega

omit hq in
theorem eq_of_next {x y : Nat} (hx : x < q * e) (hy : y < q * e)
    (hdigit : x % q = y % q) (hnext : nextValue q beta (q * e) x = nextValue q beta (q * e) y) :
    x = y := by
  have hdiv : (x + beta) % (q * e) / q = (y + beta) % (q * e) / q :=
    Nat.eq_of_mul_eq_mul_right (by decide) (Nat.eq_of_mul_eq_mul_right hbeta hnext)
  have hmod : (x + beta) % (q * e) % q = (y + beta) % (q * e) % q := by
    rw [Nat.mod_mul_right_mod, Nat.mod_mul_right_mod, Nat.add_mod, hdigit, <- Nat.add_mod]
  have hmoved : (x + beta) % (q * e) = (y + beta) % (q * e) := by
    rw [<- Nat.div_add_mod ((x + beta) % (q * e)) q, hdiv, hmod, Nat.div_add_mod]
  have hsame : x % (q * e) = y % (q * e) := Nat.ModEq.add_right_cancel' beta hmoved
  rwa [Nat.mod_eq_of_lt hx, Nat.mod_eq_of_lt hy] at hsame

end Values

theorem nextModulus_pow {a b t : Nat} (hat : a <= t) :
    nextModulus (2 ^ a) (2 ^ b) (2 ^ t) = 2 ^ (t - a + 1 + b) := by
  rw [nextModulus, Nat.pow_div hat (by decide), pow_add, pow_succ]

theorem digitPhases_injective {a b fuel t x y : Nat} (hx : x < 2 ^ t)
    (hy : y < 2 ^ t) (h : digitPhases (2 ^ a) (2 ^ b) fuel (2 ^ t) x =
      digitPhases (2 ^ a) (2 ^ b) fuel (2 ^ t) y) : x = y := by
  induction fuel generalizing t x y with
  | zero =>
      cases h
      rfl
  | succ fuel ih =>
      rw [digitPhases, digitPhases] at h
      split at h
      · rename_i hlarge
        have hat : a < t := (Nat.pow_lt_pow_iff_right (by decide)).mp hlarge
        have hsplit : 2 ^ t = 2 ^ a * 2 ^ (t - a) := by
          rw [<- pow_add, Nat.add_sub_cancel' hat.le]
        have ha := Nat.two_pow_pos a
        have hb := Nat.two_pow_pos b
        have he := Nat.two_pow_pos (t - a)
        injection h with hhead htail
        have hnextx := nextValue_lt ha hb he x
        have hnexty := nextValue_lt ha hb he y
        rw [<- hsplit, nextModulus_pow hat.le] at hnextx hnexty
        rw [nextModulus_pow hat.le] at htail
        have hnext := ih hnextx hnexty htail
        rw [hsplit] at hx hy hnext
        exact eq_of_next hb hx hy (Prod.mk.inj hhead).2 hnext
      · cases h
        rfl

/-! ## The loop -/

/-- The keys of a call: all are good, and those that are looked up are there. -/
structure KeysReady {Key : Type _} (EKs : AList fun _ : Nat => RingGSWBTKey Key)
    (Good : RingGSWBTKey Key -> Prop) (curBase : Nat) : Prop where
  start : curBase ∈ EKs
  dynamic : EKs.keys.length = 3 -> 2 ^ 27 ∈ EKs ∧ 2 ^ 18 ∈ EKs
  good : forall base key, EKs.lookup base = some key -> Good key

/-- A state of the loop with the modulus `2 ^ t` and the phase `x`. -/
structure Running {Key : Type _} (n : Nat) (sk : NativeVectorT)
    (Good : RingGSWBTKey Key -> Prop) (s : LoopState Key) (t x : Nat) : Prop where
  mod_eq : s.mod = 2 ^ t
  key : Good s.curEK
  phase : HasPhase n (2 ^ t) sk s.cttmp x

section Loop

variable {Key : Type _} {α : Type _} {scheme : LargePrecision Key} {n : Nat} {sk : NativeVectorT}
  {Good : RingGSWBTKey Key -> Prop} {EKs : AList fun _ : Nat => RingGSWBTKey Key} {curBase : Nat}
  (hkeys : KeysReady EKs Good curBase)

include hkeys

variable (scheme) in
theorem changeBase_ok (binLog : Nat) {s : LoopState Key} (hs : Good s.curEK)
    (params : RingGSWCryptoParams) :
    exists key params', changeBase scheme EKs curBase binLog s params =
      (.ok { s with curEK := key }, params') ∧ Good key := by
  unfold changeBase
  split
  next hlength =>
    dsimp only
    split
    next hbase =>
      have hmem : selectBase binLog ∈ EKs := by
        rcases hkeys.dynamic hlength with ⟨h27, h18⟩
        unfold selectBase at hbase ⊢
        split
        next => exact h27
        next h17 =>
            rw [if_neg h17] at hbase
            split
            next => exact h18
            next h26 =>
                rw [if_neg h26] at hbase
                exact absurd rfl hbase
      rcases Option.isSome_iff_exists.mp (AList.lookup_isSome.mpr hmem) with ⟨key, hkey⟩
      rw [hkey]
      exact ⟨key, _, rfl, hkeys.good _ _ hkey⟩
    next => exact ⟨s.curEK, params, rfl, hs⟩
  next => exact ⟨s.curEK, params, rfl, hs⟩

variable {a b : Nat} (hq : scheme.q = 2 ^ a) (hab : b + 1 < a) {proc : Procedure Key α}
  {P : LoopState Key -> Nat -> Nat -> Prop}
  (hstep : forall s params t x, a < t -> Running n sk Good s t x -> P s t x ->
    exists s', proc.step s params = .ok s' ∧
      Running n sk Good s' (t - a + 1 + b) (nextValue (2 ^ a) (2 ^ b) (2 ^ t) x) ∧
      P s' (t - a + 1 + b) (nextValue (2 ^ a) (2 ^ b) (2 ^ t) x))
  (hkey : forall s t x key, P s t x -> P { s with curEK := key } t x)

include hq hab hstep hkey

theorem runWhile_running {fuel t x : Nat} (hfuel : t - a < fuel) {s : LoopState Key}
    (hs : Running n sk Good s t x) (hP : P s t x) (params : RingGSWCryptoParams) :
    exists s' params' t' x', runWhile scheme.large (iteration scheme proc EKs curBase) fuel s
        params = some (.ok s', params') ∧ t' <= a ∧ Running n sk Good s' t' x' ∧ P s' t' x' := by
  induction fuel generalizing t x s params with
  | zero => exact absurd hfuel (Nat.not_lt_zero _)
  | succ fuel ih =>
      cases Nat.lt_or_ge a t with
      | inl hlarge =>
          have hlt : 2 ^ a < 2 ^ t := Nat.pow_lt_pow_right (by decide) hlarge
          have hcond : scheme.large s = true := by
            rw [large, hs.mod_eq, hq]
            exact decide_eq_true hlt
          rcases hstep s params t x hlarge hs hP with ⟨s', hs', hrunning, hP'⟩
          rcases changeBase_ok scheme hkeys (proc.binLog s'.mod) hrunning.key params with
            ⟨key, params', hchange, hgood⟩
          have hbody : iteration scheme proc EKs curBase s params =
              (.ok { s' with curEK := key }, params') := by
            rw [iteration_ok hs', hchange]
          rw [runWhile_step fuel hcond hbody]
          have hnext : Running n sk Good { s' with curEK := key } (t - a + 1 + b)
              (nextValue (2 ^ a) (2 ^ b) (2 ^ t) x) :=
            ⟨hrunning.mod_eq, hgood, hrunning.phase⟩
          exact ih (by omega) hnext (hkey _ _ _ _ hP') params'
      | inr hsmall =>
          have hle : 2 ^ t <= 2 ^ a := Nat.pow_le_pow_right (by decide) hsmall
          have hcond : scheme.large s = false := by
            rw [large, hs.mod_eq, hq]
            exact decide_eq_false (Nat.not_lt.mpr hle)
          rw [runWhile_stop fuel hcond]
          exact ⟨s, params, t, x, rfl, hsmall, hs, hP⟩

omit hq hab hstep hkey in
theorem call_start {t x : Nat} (hlarge : scheme.q < 2 ^ t) {ct : LWECiphertextImpl}
    (hct : HasPhase n (2 ^ t) sk ct x) (fuel : Nat) {params : RingGSWCryptoParams}
    (hbase : params.baseG = curBase) :
    exists key, Running n sk Good (firstState ct key) t x ∧
      call scheme proc EKs (some ct) fuel params =
        (runWhile scheme.large (iteration scheme proc EKs curBase) fuel (firstState ct key)
          params).map (conclude scheme proc curBase) := by
  have hmodulus : ct.getModulus = 2 ^ t := hct.mask.modulus_eq
  rcases Option.isSome_iff_exists.mp (AList.lookup_isSome.mpr hkeys.start) with ⟨key, hlookup⟩
  refine ⟨key, ⟨hmodulus, hkeys.good _ _ hlookup, hct.copy⟩, ?_⟩
  unfold call
  dsimp only
  rw [hmodulus, if_neg (Nat.not_le.mpr hlarge), hbase, hlookup]

theorem call_running {t x : Nat} (hlarge : a < t) {ct : LWECiphertextImpl}
    (hct : HasPhase n (2 ^ t) sk ct x) {fuel : Nat} (hfuel : t - a < fuel)
    {params : RingGSWCryptoParams} (hbase : params.baseG = curBase)
    (hP : forall key, P (firstState ct key) t x) :
    exists s' params' t' x', call scheme proc EKs (some ct) fuel params =
        some (conclude scheme proc curBase (.ok s', params')) ∧ t' <= a ∧
      Running n sk Good s' t' x' ∧ P s' t' x' := by
  have hlt : scheme.q < 2 ^ t := by
    rw [hq]
    exact Nat.pow_lt_pow_right (by decide) hlarge
  rcases call_start hkeys hlt hct fuel hbase with ⟨key, hfirst, hcall⟩
  rcases runWhile_running hkeys hq hab hstep hkey hfuel hfirst (hP key) params with
    ⟨s', params', t', x', hrun, hend⟩
  refine ⟨s', params', t', x', ?_, hend⟩
  rw [hcall, hrun]
  rfl

end Loop

/-! ## The two calls -/

theorem doubled_product {t b : Nat} (hfits : t + 1 + b < 64) :
    mulFast (lShift (2 ^ t) 1) (2 ^ b) = 2 ^ (t + 1 + b) := by
  have hdouble : (2 : Nat) ^ (t + 1) < 2 ^ maxBits :=
    Nat.pow_lt_pow_right (by decide) (by simp only [maxBits]; omega)
  have hproduct : (2 : Nat) ^ (t + 1 + b) < 2 ^ maxBits :=
    Nat.pow_lt_pow_right (by decide) (by simp only [maxBits]; omega)
  rw [lShift, Nat.shiftLeft_eq, <- pow_add, word_eq hdouble, mulFast, <- pow_add, Nat.add_comm b,
    word_eq hproduct]

theorem divided_product {t b : Nat} (hfits : t + 1 + b < 64) :
    mulFast (mulFast (2 ^ t) 2) (2 ^ b) = 2 ^ (t + 1 + b) := by
  have hdouble : mulFast (2 ^ t) 2 = lShift (2 ^ t) 1 := by
    rw [mulFast, lShift, Nat.shiftLeft_eq, pow_one, Nat.mul_comm]
  rw [hdouble, doubled_product hfits]

def quarterSign (low : Bool) (x q Q : Nat) : Nat :=
  if decide (x < q / 2) = low then Q / 4 else subFast Q (Q / 4)

theorem quarterSign_eq {F : Nat} (hF : F < 2 ^ 60) (low : Bool) (x M : Nat) :
    quarterSign low x M F = if decide (x < M / 2) = low then F / 4 else F - F / 4 := by
  have hword : F < 2 ^ maxBits := lt_trans hF (by decide)
  rw [quarterSign, subFast_eq (Nat.div_le_self F 4) hword]

theorem quarterSign_true : quarterSign true =
    fun x q Q => if x < q / 2 then Q / 4 else subFast Q (Q / 4) := by
  funext x q Q
  by_cases hlow : x < q / 2
  · rw [quarterSign, decide_eq_true hlow, if_pos rfl, if_pos hlow]
  · rw [quarterSign, decide_eq_false hlow, if_neg (by decide), if_neg hlow]

theorem quarterSign_false : quarterSign false =
    fun x q Q => if x < q / 2 then subFast Q (Q / 4) else Q / 4 := by
  funext x q Q
  by_cases hlow : x < q / 2
  · rw [quarterSign, decide_eq_true hlow, if_neg (by decide), if_pos hlow]
  · rw [quarterSign, decide_eq_false hlow, if_pos rfl, if_neg hlow]

theorem quarterSign_negacyclic {M F : Nat} (hF : F < 2 ^ 60) (low : Bool) :
    Negacyclic (quarterSign low) M F := by
  intro z hz
  have hupper : decide (z + M / 2 < M / 2) = false := decide_eq_false (by omega)
  rw [quarterSign_eq hF, quarterSign_eq hF, decide_eq_true hz, hupper]
  cases low
  · rw [if_pos rfl, if_neg (by decide), Nat.cast_sub (Nat.div_le_self F 4), ZMod.natCast_self]
    ring
  · rw [if_neg (by decide), if_pos rfl, Nat.cast_sub (Nat.div_le_self F 4), ZMod.natCast_self]
    ring

def signPhase (q : Nat) (schemeSwitch negative : Bool) : Nat :=
  if schemeSwitch then if negative then q / 4 else q - q / 4
  else if negative then q / 2 else 0

section Quarters

variable {F : Nat} (hfour : 4 ∣ F) (hpos : 0 < F) (hF : F < 2 ^ 60)

include hfour hpos

include hF in
theorem quarterSign_mod (low : Bool) (x M : Nat) :
    quarterSign low x M F % F = if decide (x < M / 2) = low then F / 4 else F - F / 4 := by
  rw [quarterSign_eq hF]
  split
  · exact Nat.mod_eq_of_lt (by omega)
  · exact Nat.mod_eq_of_lt (by omega)

omit hfour hpos in
theorem signPhase_true (x M : Nat) :
    (if decide (x < M / 2) = false then F / 4 else F - F / 4) =
      signPhase F true (decide (M / 2 <= x)) := by
  by_cases hlow : x < M / 2
  · rw [decide_eq_true hlow, decide_eq_false (Nat.not_le.mpr hlow)]
    rfl
  · rw [decide_eq_false hlow, decide_eq_true (Nat.not_lt.mp hlow)]
    rfl

theorem signPhase_false (x M : Nat) :
    Represents F (((if decide (x < M / 2) = true then F / 4 else F - F / 4 : Nat) : ZMod F) -
      (F / 4 : Nat)) (signPhase F false (decide (M / 2 <= x))) := by
  by_cases hlow : x < M / 2
  · rw [decide_eq_true hlow, decide_eq_false (Nat.not_le.mpr hlow), if_pos rfl, sub_self]
    exact ⟨hpos, Nat.cast_zero⟩
  · have hhalf : F - F / 4 - F / 4 = F / 2 := by omega
    rw [decide_eq_false hlow, decide_eq_true (Nat.not_lt.mp hlow), if_neg (by decide),
      <- Nat.cast_sub (by omega), hhalf]
    exact ⟨Nat.div_lt_self hpos (by decide), rfl⟩

end Quarters

/-- The digits so far and those to come are the digits of the phase of the call. -/
def DigitsOf {Key : Type _} (n : Nat) (sk : NativeVectorT) (a b steps t₀ x₀ : Nat)
    (s : LoopState Key) (t x : Nat) : Prop :=
  t <= t₀ ∧ exists fuel before, t - a <= fuel ∧
    List.Forall₂ (fun ct d => HasPhase n d.1 sk ct d.2) s.ret before ∧
    before ++ digitPhases (2 ^ a) (2 ^ b) fuel (2 ^ t) x =
      digitPhases (2 ^ a) (2 ^ b) steps (2 ^ t₀) x₀

section Calls

variable {Key : Type _} {scheme : LargePrecision Key} {n : Nat} {sk : NativeVectorT}
  {Good : RingGSWBTKey Key -> Prop} (hexact : ExactCalls scheme n sk Good) {a b : Nat}
  (hq : scheme.q = 2 ^ a) (hab : b + 1 < a)

include hexact hq hab

theorem evalFloor_running {s : LoopState Key} {t x : Nat} (hs : Running n sk Good s t x)
    (hat : a <= t) (ht : t < 60) (params : RingGSWCryptoParams) :
    exists ct', scheme.evalFloor params s.curEK s.cttmp (2 ^ b) = .ok ct' ∧
      HasPhase n (2 ^ t) sk ct' (2 ^ a * ((x + 2 ^ b) % 2 ^ t / 2 ^ a)) := by
  have h4 : 4 ∣ scheme.q := by
    rw [hq]
    exact pow_dvd_pow 2 (by omega : 2 <= a)
  have hpos : 0 < scheme.q := by
    rw [hq]
    exact Nat.two_pow_pos a
  have hdvd : scheme.q ∣ 2 ^ t := by
    rw [hq]
    exact pow_dvd_pow 2 hat
  have hmod : (2 : Nat) ^ t < 2 ^ 60 := Nat.pow_lt_pow_right (by decide) ht
  have hbeta : 2 ^ b < 2 ^ t := Nat.pow_lt_pow_right (by decide) (by omega)
  rcases evalFloor_spec hexact h4 hpos hs.key hs.phase hmod hdvd hbeta with ⟨ct', hct', hphase⟩
  rw [hq] at hphase
  exact ⟨ct', hct', hphase⟩

omit hq in
theorem modSwitch_running {ct : LWECiphertextImpl} {t m : Nat} (hat : a <= t) (ht : t < 60)
    (hct : HasPhase n (2 ^ t) sk ct (2 ^ a * m)) :
    exists ct', scheme.ModSwitch (2 ^ (t - a + 1 + b)) ct = .ok ct' ∧
      HasPhase n (2 ^ (t - a + 1 + b)) sk ct' (m * 2 * 2 ^ b) := by
  have hprod : 2 ^ a * m * 2 ^ (t - a + 1 + b) = 2 ^ t * (m * 2 * 2 ^ b) := by
    have hsplit : 2 ^ t = 2 ^ a * 2 ^ (t - a) := by
      rw [<- pow_add, Nat.add_sub_cancel' hat]
    rw [hsplit, pow_add, pow_succ]
    ring
  have hswitch := hexact.modSwitch ct (2 ^ t) (2 ^ (t - a + 1 + b)) (2 ^ a * m)
    (Nat.two_pow_pos _) (Nat.pow_le_pow_right (by decide) (by omega))
    (Nat.pow_lt_pow_right (by decide) ht) hct (Dvd.intro _ hprod.symm)
  rwa [hprod, Nat.mul_div_cancel_left _ (Nat.two_pow_pos t)] at hswitch

theorem signStep_running {s : LoopState Key} {t x : Nat} (hs : Running n sk Good s t x)
    (hat : a < t) (ht : t < 60) (hfits : t + 1 + b < 64) (params : RingGSWCryptoParams) :
    exists s', scheme.signStep (2 ^ b) s params = .ok s' ∧ s'.ret = s.ret ∧
      Running n sk Good s' (t - a + 1 + b) (nextValue (2 ^ a) (2 ^ b) (2 ^ t) x) := by
  rcases evalFloor_running hexact hq hab hs hat.le ht params with ⟨ct, hct, hphase⟩
  rcases modSwitch_running hexact hab hat.le ht hphase with ⟨ct', hct', hphase'⟩
  have hmod : mulFast (lShift s.mod 1) (2 ^ b) / scheme.q = 2 ^ (t - a + 1 + b) := by
    rw [hs.mod_eq, hq, doubled_product hfits, Nat.pow_div (by omega) (by decide)]
    congr 1
    omega
  refine ⟨{ s with mod := 2 ^ (t - a + 1 + b), cttmp := ct' }, ?_, rfl, rfl, hs.key, hphase'⟩
  rw [signStep, hct, Fault.ok_bind, hmod]
  dsimp only
  rw [hct', Fault.ok_bind]
  rfl

theorem decompStep_running {s : LoopState Key} {t x : Nat} (hs : Running n sk Good s t x)
    (hat : a < t) (ht : t < 60) (dynamic : Bool) (params : RingGSWCryptoParams) :
    exists s' ctq, scheme.decompStep (2 ^ b) dynamic s params = .ok s' ∧ s'.ret = s.ret ++ [ctq] ∧
      HasPhase n (2 ^ a) sk ctq (x % 2 ^ a) ∧
      Running n sk Good s' (t - a + 1 + b) (nextValue (2 ^ a) (2 ^ b) (2 ^ t) x) := by
  have hlarge : (2 : Nat) ^ t < 2 ^ 60 := Nat.pow_lt_pow_right (by decide) ht
  have htwo : (2 : Nat) ^ 1 < 2 ^ a := Nat.pow_lt_pow_right (by decide) (by omega)
  rcases hs.phase.copy.setModulus hlarge htwo (pow_dvd_pow 2 hat.le) with ⟨ctq, hctq, hdigit⟩
  rcases evalFloor_running hexact hq hab hs hat.le ht params with ⟨ct, hct, hphase⟩
  rcases modSwitch_running hexact hab hat.le ht hphase with ⟨ct', hct', hphase'⟩
  have hmod : mulFast (mulFast (s.mod / scheme.q) 2) (2 ^ b) = 2 ^ (t - a + 1 + b) := by
    rw [hs.mod_eq, hq, Nat.pow_div hat.le (by decide), divided_product (by omega)]
  have hpos := Nat.two_pow_pos (t - a + 1 + b)
  have hzero : ¬(dynamic = true ∧ 2 ^ (t - a + 1 + b) = 0) := by
    rintro ⟨_, hzero⟩
    omega
  refine ⟨{ s with mod := 2 ^ (t - a + 1 + b), cttmp := ct', ret := s.ret ++ [ctq] }, ctq, ?_,
    rfl, hdigit, rfl, hs.key, hphase'⟩
  rw [decompStep, hq, hctq, Fault.ok_bind, hct, Fault.ok_bind, <- hq, hmod]
  dsimp only
  rw [hct', Fault.ok_bind, if_neg hzero]
  rfl

/-- The last bootstrapping of `EvalSign`, on the half of the moved phase. -/
theorem signFinish_running {s : LoopState Key} {t x : Nat} (hs : Running n sk Good s t x)
    (hbt : b < t) (hta : t <= a) (ha : a < 60) (schemeSwitch : Bool)
    (params : RingGSWCryptoParams) :
    exists ct, scheme.signFinish (2 ^ b) schemeSwitch s params = .ok ct ∧
      HasPhase n (2 ^ a) sk ct
        (signPhase (2 ^ a) schemeSwitch (isNegative (2 ^ b) (2 ^ t) x)) := by
  have hlarge : (2 : Nat) ^ t < 2 ^ 60 := Nat.pow_lt_pow_right (by decide) (by omega)
  have hfield : (2 : Nat) ^ a < 2 ^ 60 := Nat.pow_lt_pow_right (by decide) ha
  have hmoved := hs.phase.addConst hlarge (Nat.pow_lt_pow_right (by decide) hbt)
  have hfour : 4 ∣ 2 ^ a := pow_dvd_pow 2 (by omega : 2 <= a)
  have hpos := Nat.two_pow_pos a
  have hdvd : 2 ^ t ∣ scheme.q := by
    rw [hq]
    exact pow_dvd_pow 2 hta
  have hcall (low : Bool) := hexact.bootstrapFunc params s.curEK _ (quarterSign low) (2 ^ t)
    (2 ^ a) _ hs.key hdvd (Nat.two_pow_pos a) hfield hmoved (quarterSign_negacyclic hfield low)
  cases schemeSwitch with
  | true =>
      rcases hcall false with ⟨ct, hct, hphase⟩
      rw [quarterSign_mod hfour hpos hfield, signPhase_true] at hphase
      rw [quarterSign_false] at hct
      refine ⟨ct, ?_, hphase⟩
      rw [signFinish, hq]
      exact hct
  | false =>
      rcases hcall true with ⟨ct, hct, hphase⟩
      rw [quarterSign_mod hfour hpos hfield] at hphase
      rw [quarterSign_true] at hct
      have hshift : (2 : Nat) ^ a >>> 2 = 2 ^ a / 4 := Nat.shiftRight_eq_div_pow _ 2
      refine ⟨evalSubConstEq ct (2 ^ a >>> 2), ?_, ?_⟩
      · rw [signFinish, hq]
        exact congrArg (· >>= _) hct
      · apply hphase.subConst hfield
        · rw [hshift]
          omega
        · rw [hshift]
          exact signPhase_false hfour hpos _ _

section Large

variable {EKs : AList fun _ : Nat => RingGSWBTKey Key} {params : RingGSWCryptoParams}
  (hkeys : KeysReady EKs Good params.baseG) {t x : Nat} (hat : a < t) (ht : t < 60)
  {ct : LWECiphertextImpl} (hct : HasPhase n (2 ^ t) sk ct x) {fuel : Nat} (hfuel : t - a < fuel)

include hkeys hat ht hct hfuel

theorem evalSign_running (hfits : t + 1 + b < 64) (schemeSwitch : Bool) :
    exists ct' params', evalSign scheme EKs (some ct) (2 ^ b) schemeSwitch fuel params =
        some (.ok ct', params') ∧
      HasPhase n (2 ^ a) sk ct'
        (signPhase (2 ^ a) schemeSwitch (isNegative (2 ^ b) (2 ^ t) x)) := by
  have hstep (s : LoopState Key) (params : RingGSWCryptoParams) (u y : Nat) (hau : a < u)
      (hs : Running n sk Good s u y)
      (hP : isNegative (2 ^ b) (2 ^ u) y = isNegative (2 ^ b) (2 ^ t) x ∧ b < u ∧ u <= t) :
      exists s', (scheme.signProcedure (2 ^ b) schemeSwitch).step s params = .ok s' ∧
        Running n sk Good s' (u - a + 1 + b) (nextValue (2 ^ a) (2 ^ b) (2 ^ u) y) ∧
        isNegative (2 ^ b) (2 ^ (u - a + 1 + b)) (nextValue (2 ^ a) (2 ^ b) (2 ^ u) y) =
          isNegative (2 ^ b) (2 ^ t) x ∧ b < u - a + 1 + b ∧ u - a + 1 + b <= t := by
    rcases hP with ⟨hsame, hbu, hut⟩
    rcases signStep_running hexact hq hab hs hau (by omega) (by omega) params with
      ⟨s', hs', _, hrunning⟩
    refine ⟨s', hs', hrunning, ?_, by omega, by omega⟩
    have hsplit : 2 ^ u = 2 ^ a * (2 * 2 ^ (u - a - 1)) := by
      rw [<- pow_succ', <- pow_add]
      congr 1
      omega
    rw [<- hsame, <- nextModulus_pow hau.le, hsplit]
    exact isNegative_next (Nat.two_pow_pos a) (Nat.two_pow_pos b) (Nat.two_pow_pos _) y
  rcases call_running hkeys hq hab hstep (fun _ _ _ _ h => h) hat hct hfuel rfl
    (fun _ => ⟨rfl, by omega, le_rfl⟩) with
    ⟨s', params', t', x', hcall, hsmall, hrunning, hsame, hbt, _⟩
  rcases signFinish_running hexact hq hab hrunning hbt hsmall (by omega) schemeSwitch params' with
    ⟨ct', hct', hphase⟩
  have hend : conclude scheme (scheme.signProcedure (2 ^ b) schemeSwitch) params.baseG
      (.ok s', params') = (.ok ct', params'.changeBaseG scheme.digitCount params.baseG) :=
    conclude_ok hct'
  refine ⟨ct', _, by rw [evalSign, hcall, hend], ?_⟩
  · rw [<- hsame]
    exact hphase

omit hkeys hct hfuel in
/-- The product of `EvalSign` leaves the word: the next modulus is zero. -/
theorem signStep_overflow (hlarge : 64 <= t + 1 + b) {s : LoopState Key}
    (hs : Running n sk Good s t x) : scheme.signStep (2 ^ b) s params = .error .undefined := by
  rcases evalFloor_running hexact hq hab hs hat.le ht params with ⟨floored, hfloored, _⟩
  have hdouble : (2 : Nat) ^ (t + 1) < 2 ^ maxBits :=
    Nat.pow_lt_pow_right (by decide) (by simp only [maxBits]; omega)
  have hdvd : 2 ^ maxBits ∣ 2 ^ (b + (t + 1)) :=
    pow_dvd_pow 2 (by simp only [maxBits]; omega)
  have hzero : mulFast (lShift s.mod 1) (2 ^ b) = 0 := by
    rw [hs.mod_eq, lShift, Nat.shiftLeft_eq, <- pow_add, word_eq hdouble, mulFast, <- pow_add]
    exact Nat.mod_eq_zero_of_dvd hdvd
  rw [signStep, hfloored, Fault.ok_bind, hzero, Nat.zero_div]
  dsimp only
  rw [hexact.modSwitch_zero]
  rfl

/--
`EvalSign` decides whether the moved phase is in the upper half, for every number of iterations,
exactly when the product of its first iteration fits in a word.
-/
theorem evalSign_decides_iff (schemeSwitch : Bool) :
    (exists ct' params', evalSign scheme EKs (some ct) (2 ^ b) schemeSwitch fuel params =
        some (.ok ct', params') ∧
      HasPhase n (2 ^ a) sk ct'
        (signPhase (2 ^ a) schemeSwitch (isNegative (2 ^ b) (2 ^ t) x))) <->
      2 * 2 ^ t * 2 ^ b < 2 ^ 64 := by
  have hproduct : 2 * 2 ^ t * 2 ^ b = 2 ^ (t + 1 + b) := by
    rw [<- pow_succ', <- pow_add]
  rw [hproduct, Nat.pow_lt_pow_iff_right (by decide)]
  constructor
  · rintro ⟨ct', params', hcall, _⟩
    by_contra hlarge
    have hlt : scheme.q < 2 ^ t := by
      rw [hq]
      exact Nat.pow_lt_pow_right (by decide) hat
    rcases call_start hkeys hlt hct fuel rfl with ⟨key, hfirst, hstart⟩
    have hstep : (scheme.signProcedure (2 ^ b) schemeSwitch).step (firstState ct key) params =
        .error .undefined :=
      signStep_overflow hexact hq hab hat ht (Nat.not_lt.mp hlarge) hfirst
    have hcond : scheme.large (firstState ct key) = true := by
      rw [large, hfirst.mod_eq]
      exact decide_eq_true hlt
    rcases Nat.exists_eq_succ_of_ne_zero (Nat.ne_zero_of_lt hfuel) with ⟨rest, hrest⟩
    rw [evalSign, hstart, hrest, runWhile_throw rest hcond (iteration_throws hstep)] at hcall
    cases hcall
  · intro hfits
    exact evalSign_running hexact hq hab hkeys hat ht hct hfuel hfits schemeSwitch

theorem evalDecomp_running :
    exists ret params', evalDecomp scheme EKs (some ct) (2 ^ b) fuel params =
        some (.ok ret, params') ∧
      List.Forall₂ (fun digit d => HasPhase n d.1 sk digit d.2) ret
        (digitPhases (2 ^ a) (2 ^ b) (t - a) (2 ^ t) x) := by
  have hstep (s : LoopState Key) (params : RingGSWCryptoParams) (u y : Nat) (hau : a < u)
      (hs : Running n sk Good s u y) (hP : DigitsOf n sk a b (t - a) t x s u y) :
      exists s', (scheme.decompProcedure (2 ^ b) (decide (EKs.keys.length = 3))).step s params =
          .ok s' ∧
        Running n sk Good s' (u - a + 1 + b) (nextValue (2 ^ a) (2 ^ b) (2 ^ u) y) ∧
        DigitsOf n sk a b (t - a) t x s' (u - a + 1 + b) (nextValue (2 ^ a) (2 ^ b) (2 ^ u) y) := by
    rcases hP with ⟨hut, fuel, before, hfuel, hbefore, hall⟩
    rcases decompStep_running hexact hq hab hs hau (by omega)
      (decide (EKs.keys.length = 3)) params with ⟨s', ctq, hs', hret, hdigit, hrunning⟩
    refine ⟨s', hs', hrunning, by omega, ?_⟩
    cases fuel with
    | zero => omega
    | succ fuel =>
        refine ⟨fuel, before ++ [(2 ^ a, y % 2 ^ a)], by omega, ?_, ?_⟩
        · rw [hret]
          exact List.rel_append hbefore (List.Forall₂.cons hdigit List.Forall₂.nil)
        · rw [<- hall, digitPhases, if_pos (Nat.pow_lt_pow_right (by decide) hau),
            nextModulus_pow hau.le, List.append_assoc]
          rfl
  rcases call_running hkeys hq hab hstep (fun _ _ _ _ h => h) hat hct hfuel rfl
    (fun _ => ⟨le_rfl, t - a, [], le_rfl, List.Forall₂.nil, rfl⟩) with
    ⟨s', params', t', x', hcall, hsmall, hrunning, _, fuel', before, _, hbefore, hall⟩
  have hend : conclude scheme (scheme.decompProcedure (2 ^ b) (decide (EKs.keys.length = 3)))
      params.baseG (.ok s', params') =
        (.ok (s'.ret ++ [s'.cttmp]), params'.changeBaseG scheme.digitCount params.baseG) :=
    conclude_ok rfl
  refine ⟨_, _, by rw [evalDecomp, hcall, hend], ?_⟩
  have hlast : digitPhases (2 ^ a) (2 ^ b) fuel' (2 ^ t') x' = [(2 ^ t', x')] := by
    have hle : 2 ^ t' <= 2 ^ a := Nat.pow_le_pow_right (by decide) hsmall
    cases fuel' with
    | zero => rfl
    | succ fuel' => rw [digitPhases, if_neg (Nat.not_lt.mpr hle)]
  rw [<- hall, hlast]
  exact List.rel_append hbefore (List.Forall₂.cons hrunning.phase List.Forall₂.nil)

end Large

end Calls

/-! ## Calls without noise -/

/-- `noiseless` with the division by zero of a switch to the modulus zero. -/
def noiselessSwitching : LargePrecision Unit :=
  { noiseless with
    ModSwitch := fun mod ct => if mod = 0 then .error .undefined else noiseless.ModSwitch mod ct }

theorem noiselessSwitching_exact (n N : Nat) :
    ExactCalls noiselessSwitching n (NativeVectorT.zeros n N)
    (fun key => key = generatedKey) := by
  constructor
  · intro params EK ct f M F x hEK _ hF _ hct _
    subst hEK
    refine ⟨_, rfl, ?_⟩
    rw [LWECiphertextImpl.getLength, LWECiphertextImpl.getModulus, hct.mask.residues.1,
      hct.mask.modulus_eq, hct.body_eq]
    exact HasPhase.of_zeros (Nat.mod_lt _ hF)
  · intro ct M M' x hM' hle hM hct hdvd
    have hpos : 0 < M := lt_of_lt_of_le hM' hle
    have hscaled : (2 * ct.m_b * M' + ct.getModulus) / (2 * ct.getModulus) % M' = x * M' / M := by
      rcases hdvd with ⟨k, hk⟩
      have hlt : k < M' := by
        have hx := Nat.mul_lt_mul_of_pos_right hct.phase_eq.1 hM'
        rw [hk] at hx
        exact Nat.lt_of_mul_lt_mul_left hx
      have hround : (2 * x * M' + M) / (2 * M) = k := by
        rw [Nat.mul_assoc, hk]
        apply Nat.div_eq_of_lt_le <;> nlinarith
      rw [LWECiphertextImpl.getModulus, hct.mask.modulus_eq, hct.body_eq, hround, hk,
        Nat.mul_div_cancel_left _ hpos, Nat.mod_eq_of_lt hlt]
    refine ⟨_, if_neg hM'.ne', ?_⟩
    rw [LWECiphertextImpl.getLength, hct.mask.residues.1, hscaled]
    apply HasPhase.of_zeros
    rw [<- hscaled]
    exact Nat.mod_lt _ hM'
  · intro ct
    rfl

theorem keysFor_good {bases : List Nat} {base : Nat} {key : RingGSWBTKey Unit}
    (hkey : (keysFor bases).lookup base = some key) : key = generatedKey := by
  induction bases with
  | nil => cases hkey
  | cons first rest ih =>
      rw [keysFor, List.foldr_cons] at hkey
      by_cases hbase : base = first
      · rw [hbase, AList.lookup_insert] at hkey
        exact (Option.some.inj hkey).symm
      · rw [AList.lookup_insert_ne hbase] at hkey
        exact ih hkey

theorem keysFor_ready : KeysReady (keysFor [2 ^ 14, 2 ^ 18, 2 ^ 27])
    (fun key => key = generatedKey) params2to14.baseG := by
  constructor
  · decide
  · decide
  · intro base key hkey
    exact keysFor_good hkey

theorem ciphertext20_phase :
    HasPhase 2 (2 ^ 20) (NativeVectorT.zeros 2 1) ciphertext20 123456 :=
  HasPhase.of_zeros (by decide)

theorem evalSign_decides_twenty :
    HasPhase 2 (2 ^ 20) (NativeVectorT.zeros 2 1) ciphertext20 123456 ∧
      exists ct' params', evalSign noiselessSwitching (keysFor [2 ^ 14, 2 ^ 18, 2 ^ 27])
          (some ciphertext20) (2 ^ 7) false 9 params2to14 = some (.ok ct', params') ∧
        HasPhase 2 (2 ^ 12) (NativeVectorT.zeros 2 1) ct'
          (signPhase (2 ^ 12) false (isNegative (2 ^ 7) (2 ^ 20) 123456)) :=
  ⟨ciphertext20_phase,
    (evalSign_decides_iff (noiselessSwitching_exact 2 1) rfl (by decide) keysFor_ready (by decide)
      (by decide) ciphertext20_phase (by decide) false).mpr (by decide)⟩

end BinFHE
end OpenFHE
