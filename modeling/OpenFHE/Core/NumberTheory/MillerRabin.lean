import OpenFHE.Core.NumberTheory.IntegerType
import OpenFHE.Core.NumberTheory.PrimeFactorize
import Mathlib.FieldTheory.Finite.Basic

/-!
# The primality test

A witness raises to the odd part of `p - 1` and squares.  For a prime the squarings meet no
root of one except one and minus one, so a witness that finds another proves a composite.
-/

namespace OpenFHE
namespace Core

open Foundation NativeInteger

namespace IntType

open Random

variable (T : IntType)

/-! ## The test over an integer type -/

/-- The value that `RNG` puts together from chunks of 32 bits, the last one bounded. -/
def rngCandidate (modulus : Nat) : Random Nat := do
  let chunksPerValue := usint ((T.getMSB modulus : Int) - 1) / 32
  let shiftChunk := chunksPerValue * 32
  let result <- (List.range chunksPerValue).foldlM (fun result i => do
    let x <- draw (2 ^ 32 - 1)
    return T.add result (T.lShift x (i * 32))) 0
  let x <- draw (T.convertToInt (T.rShift modulus shiftChunk) % 2 ^ 32)
  return T.add result (T.lShift x shiftChunk)

def rng (modulus : Nat) : Random Nat :=
  repeatUntil do
    let result <- T.rngCandidate modulus
    return if result < modulus then some result else none

/-- The squarings of `WitnessFunction`: whether the number is found composite. -/
def witnessLoop (p : Nat) : Nat -> Nat -> Bool
  | 0, mod => decide (mod ≠ 1)
  | s + 1, mod =>
      let prevMod := decide (mod ≠ 1 ∧ mod ≠ T.sub p 1)
      let mod := T.modMulFastEq mod mod p
      if mod = 1 ∧ prevMod = true then true else witnessLoop p s mod

def witnessFunction (a d s p : Nat) : Option Bool := (T.modExp a d p).map (T.witnessLoop p s)

def oddPart (d : Nat) : Option (Nat × Nat) :=
  whileFuel (fun t => decide (t.1 % 2 = 0)) (fun t => some (T.rShift t.1 1, t.2 + 1))
    (T.getMSB d + 1) (d, 0)

def millerRabinLoop (p d s : Nat) : Nat -> Random Bool
  | 0 => pure true
  | niter + 1 => do
      let r <- T.rng (T.sub p 3)
      let composite <- ofOption (T.witnessFunction (T.modAdd r 2 p) d s p)
      if composite then pure false else millerRabinLoop p d s niter

def millerRabinPrimalityTest (p niter : Nat) : Random Bool :=
  if p = 2 ∨ p = 3 ∨ p = 5 then pure true
  else if p < 2 ∨ p % 2 = 0 then pure false
  else do
    let t <- ofOption (T.oddPart (T.sub p 1))
    T.millerRabinLoop p t.1 t.2 niter

def witnessDraws (p : Nat) : Nat -> Random Unit
  | 0 => pure ()
  | niter + 1 => do
      let _ <- T.rng (T.sub p 3)
      witnessDraws p niter

def testDraws (p niter : Nat) : Random Unit :=
  if p = 2 ∨ p = 3 ∨ p = 5 then pure () else T.witnessDraws p niter

variable {T}

/-! ## Random numbers -/

theorem grows_rngCandidate (modulus : Nat) : Grows (T.rngCandidate modulus) :=
  (Grows.foldlM (fun _ _ => (grows_draw _).bind fun _ => grows_pure _) _ _).bind fun _ =>
    (grows_draw _).bind fun _ => grows_pure _

theorem lt_of_rng {modulus r : Nat} {s s' : Prng} (h : T.rng modulus s = some (r, s')) :
    r < modulus := by
  rcases repeatUntil_eq_some ((grows_rngCandidate modulus).bind fun _ => grows_pure _) h with
    ⟨s₁, _, _, hlast⟩
  rcases bind_eq_some.mp hlast with ⟨result, s₂, _, hpure⟩
  rcases pure_eq_some.mp hpure with ⟨heq, _⟩
  split at heq
  next hlt =>
      cases heq
      exact hlt
  next => cases heq

/-! ## Squarings modulo a prime -/

theorem oddPart_spec {p d : Nat} (hT : ExactAt T p) (hd : d ≠ 0) :
    exists odd s, T.oddPart d = some (odd, s) ∧ 2 ^ s * odd = d ∧ odd % 2 = 1 := by
  have hbody (t : Nat × Nat) (ht : 2 ^ t.2 * t.1 = d ∧ t.1 ≠ 0)
      (hc : decide (t.1 % 2 = 0) = true) :
      exists t', some (T.rShift t.1 1, t.2 + 1) = some t' ∧ (2 ^ t'.2 * t'.1 = d ∧ t'.1 ≠ 0) ∧
        Nat.size t'.1 < Nat.size t.1 := by
    have heven := of_decide_eq_true hc
    have hhalf : t.1 = 2 * (t.1 / 2) := by omega
    refine ⟨_, rfl, ?_⟩
    dsimp only
    rw [hT.rShift_one]
    constructor
    · constructor
      · rw [pow_succ, Nat.mul_assoc, ← hhalf]
        exact ht.left
      · omega
    · have hsize := size_shiftRight t.1 1
      rw [Nat.shiftRight_eq_div_pow, pow_one] at hsize
      have hpos := Nat.size_pos.mpr (Nat.pos_of_ne_zero ht.right)
      omega
  have hfuel : Nat.size d < T.getMSB d + 1 := by
    rw [hT.getMSB]
    exact Nat.lt_succ_self _
  rcases whileFuel_spec (fun t : Nat × Nat => 2 ^ t.2 * t.1 = d ∧ t.1 ≠ 0)
    (fun t => Nat.size t.1) hbody _ (d, 0) ⟨by rw [pow_zero, Nat.one_mul], hd⟩ hfuel with
    ⟨t, hrun, ⟨hvalue, _⟩, hstop⟩
  have hodd := of_decide_eq_false hstop
  exact ⟨t.1, t.2, hrun, hvalue, by omega⟩

theorem root_of_one {p x : Nat} (hp : p.Prime) (hx : x < p) (h : x * x % p = 1) :
    x = 1 ∨ x = p - 1 := by
  have hone : 1 % p = 1 := Nat.mod_eq_of_lt hp.one_lt
  have hcong : x * x ≡ 1 * 1 [MOD p] := h.trans hone.symm
  rcases Nat.eq_zero_or_pos x with hzero | hpos
  · rw [hzero, Nat.zero_mul, Nat.zero_mod] at h
    cases h
  · have hdvd : p ∣ (x + 1) * (x - 1) := by
      have hdiff := (Nat.modEq_iff_dvd' (Nat.mul_le_mul hpos hpos)).mp hcong.symm
      rwa [Nat.mul_self_sub_mul_self_eq] at hdiff
    cases hp.dvd_mul.mp hdvd with
    | inl hplus =>
        have hle := Nat.le_of_dvd (Nat.succ_pos x) hplus
        exact Or.inr (by omega)
    | inr hminus =>
        have hzero := Nat.eq_zero_of_dvd_of_lt hminus (by omega)
        exact Or.inl (by omega)

theorem witnessLoop_prime {p : Nat} (hT : ExactAt T p) (hp : p.Prime) {s mod : Nat}
    (hmod : mod < p) (hpower : mod ^ 2 ^ s % p = 1) : T.witnessLoop p s mod = false := by
  induction s generalizing mod with
  | zero =>
      rw [pow_zero, pow_one, Nat.mod_eq_of_lt hmod] at hpower
      exact decide_eq_false (not_not.mpr hpower)
  | succ s ih =>
      have hsquare : (mod * mod % p) ^ 2 ^ s % p = 1 := by
        rw [← Nat.pow_mod, ← pow_two, ← pow_mul, ← pow_succ']
        exact hpower
      rw [witnessLoop, hT.modMulFastEq hmod hmod, hT.sub hp.pos]
      have hroot : ¬(mod * mod % p = 1 ∧ decide (mod ≠ 1 ∧ mod ≠ p - 1) = true) := by
        rintro ⟨hone, hprev⟩
        rcases of_decide_eq_true hprev with ⟨hne, hne'⟩
        exact (root_of_one hp hmod hone).elim hne hne'
      rw [if_neg hroot]
      exact ih (Nat.mod_lt _ hp.pos) hsquare

theorem witnessFunction_prime {p a d s : Nat} (hT : ExactAt T p) (hp : p.Prime) (ha : a ≠ 0)
    (hlt : a < p) (hd : 2 ^ s * d = p - 1) : T.witnessFunction a d s p = some false := by
  have hdlt : d < p := by
    have hle := Nat.le_mul_of_pos_left d (Nat.two_pow_pos s)
    have hpos := hp.pos
    omega
  have hcop : Nat.Coprime a p := (Nat.coprime_of_lt_prime ha hlt hp).symm
  have hfermat : a ^ (p - 1) % p = 1 := by
    have h : a ^ Nat.totient p % p = 1 % p := Nat.ModEq.pow_totient hcop
    rw [Nat.totient_prime hp, Nat.mod_eq_of_lt hp.one_lt] at h
    exact h
  unfold witnessFunction
  rw [hT.modExp hlt hdlt, Option.map_some, witnessLoop_prime hT hp (Nat.mod_lt _ hp.pos)]
  rw [← Nat.pow_mod, ← pow_mul, Nat.mul_comm, hd]
  exact hfermat

/-! ## Witnesses -/

section Witnesses

variable {p : Nat} (hT : ExactAt T p) (hp : 7 <= p)

include hT hp

theorem witness_bounds {r : Nat} (hr : r < T.sub p 3) :
    2 <= T.modAdd r 2 p ∧ T.modAdd r 2 p <= p - 2 := by
  rw [hT.sub (show 3 <= p by omega)] at hr
  rw [hT.modAdd (show r + 2 < p by omega)]
  omega

theorem millerRabinLoop_prime (hprime : p.Prime) {d s : Nat} (hd : 2 ^ s * d = p - 1)
    (niter : Nat) :
    T.millerRabinLoop p d s niter = (do
      let _ <- T.witnessDraws p niter
      return true) := by
  induction niter with
  | zero => rfl
  | succ niter ih =>
      funext st
      rw [millerRabinLoop, witnessDraws, bind_assoc]
      apply bind_eq_bind
      intro r st' hr
      rcases witness_bounds hT hp (lt_of_rng hr) with ⟨hlow, hhigh⟩
      rw [witnessFunction_prime hT hprime (show T.modAdd r 2 p ≠ 0 by omega) (by omega) hd, ← ih]
      rfl

omit hT hp in
theorem millerRabinLoop_false (hT : ExactAt T p) (hp : 7 <= p) {d s niter : Nat} {st st' : Prng}
    (h : T.millerRabinLoop p d s niter st = some (false, st')) :
    exists a, 2 <= a ∧ a <= p - 2 ∧ T.witnessFunction a d s p = some true := by
  induction niter generalizing st with
  | zero => cases h
  | succ niter ih =>
      rw [millerRabinLoop] at h
      rcases bind_eq_some.mp h with ⟨r, st₁, hr, hrest⟩
      rcases bind_eq_some.mp hrest with ⟨composite, st₂, hwitness, hverdict⟩
      rcases ofOption_eq_some.mp hwitness with ⟨hfound, _⟩
      cases composite with
      | false => exact ih hverdict
      | true =>
          rcases witness_bounds hT hp (lt_of_rng hr) with ⟨hlow, hhigh⟩
          exact ⟨_, hlow, hhigh, hfound⟩

end Witnesses

/-! ## The native instance -/

section Native

variable {modulus p : Nat}

theorem rngCandidate_native (hpos : 0 < modulus) (hmodulus : modulus < 2 ^ maxBits) :
    native.rngCandidate modulus = Core.rngCandidate modulus := by
  have hmsb : NativeInteger.getMSB modulus = Nat.log2 modulus + 1 := if_neg hpos.ne'
  have hlog := (Nat.log2_lt hpos.ne').mpr hmodulus
  have husint : usint ((NativeInteger.getMSB modulus : Int) - 1) = Nat.log2 modulus := by
    simp only [maxBits] at hlog
    unfold usint
    omega
  have hhigh : modulus < 2 ^ (Nat.log2 modulus + 1) := Nat.lt_log2_self
  unfold IntType.rngCandidate Core.rngCandidate
  show (do
    let chunksPerValue := usint ((NativeInteger.getMSB modulus : Int) - 1) / 32
    let shiftChunk := chunksPerValue * 32
    let result <- (List.range chunksPerValue).foldlM (fun result i => do
      let x <- draw (2 ^ 32 - 1)
      return addFast result (NativeInteger.lShift x (usshort (i * 32)))) 0
    let x <- draw (NativeInteger.rShift modulus (usshort shiftChunk) % 2 ^ 32)
    return addFast result (NativeInteger.lShift x (usshort shiftChunk))) = _
  rw [husint]
  have hbound : NativeInteger.rShift modulus (Nat.log2 modulus / 32 * 32) < 2 ^ 32 := by
    unfold NativeInteger.rShift
    rw [Nat.shiftRight_eq_div_pow, Nat.div_lt_iff_lt_mul (Nat.two_pow_pos _), ← pow_add]
    exact hhigh.trans_le (Nat.pow_le_pow_right (by decide) (by omega))
  have hchunks : Nat.log2 modulus / 32 = 0 ∨ Nat.log2 modulus / 32 = 1 := by
    simp only [maxBits] at hlog
    omega
  dsimp only
  have hshift : usshort (Nat.log2 modulus / 32 * 32) = Nat.log2 modulus / 32 * 32 := by
    cases hchunks with
    | inl hzero => rw [hzero]; rfl
    | inr hone => rw [hone]; rfl
  rw [hshift, Nat.mod_eq_of_lt hbound]
  cases hchunks with
  | inl hzero => rw [hzero]; rfl
  | inr hone => rw [hone]; rfl

theorem rng_native (hpos : 0 < modulus) (hmodulus : modulus < 2 ^ maxBits) :
    native.rng modulus = Core.rng modulus := by
  unfold IntType.rng Core.rng
  rw [rngCandidate_native hpos hmodulus]

theorem witnessLoop_native (p s mod : Nat) :
    native.witnessLoop p s mod = Core.witnessLoop p s mod := by
  induction s generalizing mod with
  | zero => rfl
  | succ s ih =>
      rw [IntType.witnessLoop, Core.witnessLoop, ih]
      rfl

theorem oddPart_native {d : Nat} (hd : d ≠ 0) (hword : d < 2 ^ maxBits) :
    native.oddPart d = Core.oddPart d := by
  have hT : ExactAt native 3 := native_exactAt (by decide) (by decide)
  rcases oddPart_spec hT hd with ⟨odd, s, hodd, _⟩
  rw [hodd]
  refine (whileFuel_more hodd ?_).symm
  rw [hT.getMSB]
  exact Nat.succ_le_succ (Nat.size_le.mpr hword)

theorem millerRabinPrimalityTest_native (hword : p < 2 ^ maxBits) :
    native.millerRabinPrimalityTest p 100 = Core.millerRabinPrimalityTest p := by
  unfold IntType.millerRabinPrimalityTest Core.millerRabinPrimalityTest
  split
  next => rfl
  next hsmall =>
      split
      next => rfl
      next hodd =>
          have hthree : subFast p 3 = p - 3 := subFast_eq (by omega) hword
          have hone : subFast p 1 = p - 1 := subFast_eq (by omega) hword
          have hrounds (d s niter : Nat) : native.millerRabinLoop p d s niter =
              Core.millerRabinLoop p d s niter := by
            induction niter with
            | zero => rfl
            | succ niter ih =>
                rw [IntType.millerRabinLoop, Core.millerRabinLoop, ih]
                show (do
                  let r <- native.rng (subFast p 3)
                  let composite <- ofOption ((NativeInteger.modExp
                    (NativeInteger.modAdd r 2 p) d p).map
                    (native.witnessLoop p s))
                  if composite then pure false else Core.millerRabinLoop p d s niter) = _
                rw [hthree, rng_native (by omega) (by omega),
                  show native.witnessLoop p s = Core.witnessLoop p s from
                    funext (witnessLoop_native p s)]
                rfl
          have hpart : native.oddPart (native.sub p 1) = Core.oddPart (subFast p 1) := by
            show native.oddPart (subFast p 1) = Core.oddPart (subFast p 1)
            rw [hone]
            exact oddPart_native (by omega) (by omega)
          rw [hpart]
          have hloops : (fun t : Nat × Nat => native.millerRabinLoop p t.1 t.2 100) =
              fun t => Core.millerRabinLoop p t.1 t.2 100 := by
            funext t
            exact hrounds t.1 t.2 100
          exact congrArg (fun f => ofOption (Core.oddPart (subFast p 1)) >>= f) hloops

end Native

/-! ## Contract -/

structure PrimalityTest (T : IntType) (p : Nat) : Prop where
  /-- A prime is accepted whatever is drawn. -/
  prime (hp : p.Prime) (niter : Nat) : T.millerRabinPrimalityTest p niter = (do
    let _ <- T.testDraws p niter
    return true)
  rejected (hp : p = 0 ∨ p = 1 ∨ 2 < p ∧ p % 2 = 0) (niter : Nat) :
    T.millerRabinPrimalityTest p niter = pure false
  /-- The rejection of an odd number comes from a witness. -/
  witnessed {niter : Nat} {st st' : Prng} (hp : 2 < p) (hodd : p % 2 = 1)
    (h : T.millerRabinPrimalityTest p niter st = some (false, st')) :
    exists a d s, 2 <= a ∧ a <= p - 2 ∧ 2 ^ s * d = p - 1 ∧ d % 2 = 1 ∧
      T.witnessFunction a d s p = some true
  certificate {a d s : Nat} (hlow : 2 <= a) (hhigh : a <= p - 2) (hd : 2 ^ s * d = p - 1)
    (h : T.witnessFunction a d s p = some true) : ¬ p.Prime
  /-- The numbers that are drawn give witnesses in range. -/
  witness {r : Nat} {st st' : Prng} (hp : 7 <= p)
    (hr : T.rng (T.sub p 3) st = some (r, st')) :
    2 <= T.modAdd r 2 p ∧ T.modAdd r 2 p <= p - 2

theorem primalityTest_of_exact {p : Nat} (hT : 1 < p -> ExactAt T p) : PrimalityTest T p := by
  constructor
  case prime =>
    intro hp niter
    unfold millerRabinPrimalityTest testDraws
    split
    next => rfl
    next hsmall =>
        have htwo := hp.two_le
        have hodd := hp.eq_two_or_odd
        have hseven : 7 <= p := by
          by_contra hlt
          have hfour : p ≠ 4 := by
            rintro rfl
            omega
          omega
        rw [if_neg (by omega), (hT hp.one_lt).sub hp.pos]
        rcases oddPart_spec (hT hp.one_lt) (show p - 1 ≠ 0 by omega) with
          ⟨d, s, hodd, hvalue, _⟩
        rw [hodd]
        exact millerRabinLoop_prime (hT hp.one_lt) hseven hp hvalue niter
  case rejected =>
    intro hp niter
    unfold millerRabinPrimalityTest
    rw [if_neg (by omega), if_pos (by omega)]
  case witnessed =>
    intro niter st st' hp hodd h
    have hexact := hT (by omega)
    unfold millerRabinPrimalityTest at h
    split at h
    next => cases h
    next hsmall =>
        rw [if_neg (by omega), hexact.sub (by omega)] at h
        rcases oddPart_spec hexact (show p - 1 ≠ 0 by omega) with ⟨d, s, hpart, hvalue, hdodd⟩
        rw [hpart] at h
        rcases millerRabinLoop_false hexact (by omega) h with ⟨a, hlow, hhigh, hfound⟩
        exact ⟨a, d, s, hlow, hhigh, hvalue, hdodd, hfound⟩
  case certificate =>
    intro a d s hlow hhigh hd h hp
    rw [witnessFunction_prime (hT hp.one_lt) hp (by omega) (by omega) hd] at h
    cases h
  case witness =>
    intro r st st' hp hr
    exact witness_bounds (hT (by omega)) hp (lt_of_rng hr)

theorem millerRabin_sound (p : Nat) :
    PrimalityTest big p ∧ (p < 2 ^ maxBits -> PrimalityTest native p) :=
  ⟨primalityTest_of_exact big_exactAt,
    fun hword => primalityTest_of_exact fun hone => native_exactAt hone hword⟩

theorem millerRabin_seven :
    7 < 2 ^ maxBits ∧ PrimalityTest big 7 ∧ PrimalityTest native 7 :=
  ⟨by decide, (millerRabin_sound 7).left, (millerRabin_sound 7).right (by decide)⟩

end IntType
end Core
end OpenFHE
