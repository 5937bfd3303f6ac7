import OpenFHE.Core.NativeInteger.Digits
import OpenFHE.Core.NumberTheory.Prng
import OpenFHE.Foundation.CycleDetection
import Mathlib.Data.Nat.Totient
import Mathlib.Tactic.Tauto

/-!
# Prime factors

`PrimeFactorize` splits a number with the method of Pollard until the test of Miller and
Rabin accepts the parts.  The parts are divisors whatever the draws are; they are the prime
factors when the test accepts no composite number.
-/

namespace OpenFHE
namespace Core

open Foundation NativeInteger Random

/-! ## Greatest common divisors -/

def gcdLoop : Nat -> Nat -> Nat -> Nat
  | 0, a, _ => a
  | fuel + 1, a, b => if b ≠ 0 then gcdLoop fuel b (a % b) else a

def greatestCommonDivisor (a b : Nat) : Nat := gcdLoop (b + 1) a b

theorem gcdLoop_eq {fuel b : Nat} (a : Nat) (hfuel : b < fuel) : gcdLoop fuel a b = Nat.gcd a b := by
  induction fuel generalizing a b with
  | zero => omega
  | succ fuel ih =>
      unfold gcdLoop
      by_cases hb : b = 0
      · rw [if_neg (not_not.mpr hb), hb, Nat.gcd_zero_right]
      · have hlt := Nat.mod_lt a (Nat.pos_of_ne_zero hb)
        rw [if_pos hb, ih b (by omega), Nat.gcd_comm a b, Nat.gcd_rec b a, Nat.gcd_comm]

theorem greatestCommonDivisor_eq (a b : Nat) : greatestCommonDivisor a b = Nat.gcd a b :=
  gcdLoop_eq a (Nat.lt_succ_self b)

/-! ## The primality test -/

/-- The squarings of `WitnessFunction`: whether the number is found composite. -/
def witnessLoop (p : Nat) : Nat -> Nat -> Bool
  | 0, mod => decide (mod ≠ 1)
  | s + 1, mod =>
      let prevMod := decide (mod ≠ 1 ∧ mod ≠ subFast p 1)
      let mod := modMulFastEq mod mod p
      if mod = 1 ∧ prevMod = true then true else witnessLoop p s mod

def witnessFunction (a d s p : Nat) : Option Bool := (modExp a d p).map (witnessLoop p s)

def millerRabinLoop (p d s : Nat) : Nat -> Random Bool
  | 0 => pure true
  | niter + 1 => do
      let r <- rng (subFast p 3)
      let composite <- ofOption (witnessFunction (modAdd r 2 p) d s p)
      if composite then pure false else millerRabinLoop p d s niter

def oddPart (d : Nat) : Option (Nat × Nat) :=
  whileFuel (fun t => decide (t.1 % 2 = 0)) (fun t => some (t.1 >>> 1, t.2 + 1)) (maxBits + 1)
    (d, 0)

def millerRabinPrimalityTest (p : Nat) : Random Bool :=
  if p = 2 ∨ p = 3 ∨ p = 5 then pure true
  else if p < 2 ∨ p % 2 = 0 then pure false
  else do
    let t <- ofOption (oddPart (subFast p 1))
    millerRabinLoop p t.1 t.2 100

/-! ## Factors -/

def rhoStep (n c mu x : Nat) : Nat := modAdd (modMulMu x x n mu) c n

/-- The divisor that two iterates have in common with the number. -/
def rhoDivisor (n x xx : Nat) : Nat :=
  greatestCommonDivisor (if x > xx then subFast x xx else subFast xx x) n

def rhoLoop (n c mu : Nat) : Nat -> Nat -> Nat -> Option Nat
  | 0, _, _ => none
  | fuel + 1, x, xx =>
      let x := rhoStep n c mu x
      let xx := rhoStep n c mu (rhoStep n c mu xx)
      let divisor := rhoDivisor n x xx
      if divisor = 1 then rhoLoop n c mu fuel x xx else some divisor

def pollardRhoFactorization (n : Nat) : Random Nat :=
  if n % 2 = 0 then pure 2
  else do
    let c <- rng n
    let x <- rng n
    let mu <- ofOption (computeMu n)
    ofOption (rhoLoop n c mu (2 ^ maxBits) x x)

/-- `insert` of a `std::set`. -/
def insertFactor (n : Nat) : List Nat -> List Nat
  | [] => [n]
  | r :: rest =>
      if n < r then n :: r :: rest
      else if n = r then r :: rest
      else r :: insertFactor n rest

def accept (n : Nat) : Random Unit := fun s => some ((), { s with accepted := n :: s.accepted })

def primeFactorizeLoop : Nat -> Nat -> List Nat -> Random (List Nat)
  | 0, _, _ => fun _ => none
  | fuel + 1, n, primeFactors =>
      if n = 0 ∨ n = 1 then pure primeFactors
      else do
        if <- millerRabinPrimalityTest n then
          accept n
          pure (insertFactor n primeFactors)
        else
          let divisor <- pollardRhoFactorization n
          let primeFactors <- primeFactorizeLoop fuel divisor primeFactors
          primeFactorizeLoop fuel (n / divisor) primeFactors

def primeFactorize (n : Nat) : Random (List Nat) := fun s =>
  primeFactorizeLoop (s.draws.length + n + 1) n [] s

/-- The product that `GetTotient` takes over the factors. -/
def totientOf (n : Nat) (factors : List Nat) : Nat :=
  let numerator := factors.foldl (fun numerator r => mulFast numerator (subFast r 1)) 1
  let primeProd := factors.foldl mulFast 1
  mulFast (n / primeProd) numerator

def getTotient (n : Nat) : Random Nat := do
  let factors <- primeFactorize n
  return totientOf n factors

/-! ## Draws of the factorization -/

theorem grows_millerRabinLoop (p d s niter : Nat) : Grows (millerRabinLoop p d s niter) := by
  induction niter with
  | zero => exact grows_pure true
  | succ niter ih =>
      apply (grows_rng _).bind
      intro r
      apply (grows_ofOption _).bind
      intro composite
      cases composite with
      | true => exact grows_pure false
      | false => exact ih

theorem grows_millerRabinPrimalityTest (p : Nat) : Grows (millerRabinPrimalityTest p) := by
  unfold millerRabinPrimalityTest
  split
  next => exact grows_pure true
  next =>
      split
      next => exact grows_pure false
      next => exact (grows_ofOption _).bind fun t => grows_millerRabinLoop p t.1 t.2 100

theorem grows_pollardRhoFactorization (n : Nat) : Grows (pollardRhoFactorization n) := by
  unfold pollardRhoFactorization
  split
  next => exact grows_pure 2
  next =>
      exact (grows_rng n).bind fun c => (grows_rng n).bind fun x =>
        (grows_ofOption _).bind fun mu => grows_ofOption _

theorem grows_accept (n : Nat) : Grows (accept n) := by
  intro s a s' h
  cases h
  exact ⟨List.subset_cons_self n s.accepted, Nat.le_refl _⟩

theorem grows_primeFactorizeLoop (fuel n : Nat) (primeFactors : List Nat) :
    Grows (primeFactorizeLoop fuel n primeFactors) := by
  induction fuel generalizing n primeFactors with
  | zero =>
      intro s a s' h
      cases h
  | succ fuel ih =>
      unfold primeFactorizeLoop
      split
      next => exact grows_pure primeFactors
      next =>
          apply (grows_millerRabinPrimalityTest n).bind
          intro prime
          cases prime with
          | true => exact (grows_accept n).bind fun _ => grows_pure _
          | false =>
              exact (grows_pollardRhoFactorization n).bind fun divisor =>
                (ih divisor primeFactors).bind fun factors => ih (n / divisor) factors

theorem grows_primeFactorize (n : Nat) : Grows (primeFactorize n) := by
  intro s a s' h
  exact grows_primeFactorizeLoop _ _ _ s a s' h

theorem grows_getTotient (n : Nat) : Grows (getTotient n) :=
  (grows_primeFactorize n).bind fun _ => grows_pure _

/-! ## Divisors -/

theorem rhoDivisor_dvd (n x xx : Nat) : rhoDivisor n x xx ∣ n := by
  unfold rhoDivisor
  rw [greatestCommonDivisor_eq]
  exact Nat.gcd_dvd_right _ n

theorem rhoDivisor_self (n : Nat) {x : Nat} (hx : x < 2 ^ maxBits) : rhoDivisor n x x = n := by
  unfold rhoDivisor
  rw [if_neg (lt_irrefl x), subFast_eq (Nat.le_refl x) hx, Nat.sub_self,
    greatestCommonDivisor_eq, Nat.gcd_zero_left]

theorem rhoLoop_divides {n c mu fuel x xx divisor : Nat}
    (h : rhoLoop n c mu fuel x xx = some divisor) : divisor ∣ n ∧ divisor ≠ 1 := by
  induction fuel generalizing x xx with
  | zero => cases h
  | succ fuel ih =>
      unfold rhoLoop at h
      dsimp only at h
      split at h
      next => exact ih h
      next hne =>
          cases h
          exact ⟨rhoDivisor_dvd n _ _, hne⟩

theorem modAddFast_lt (a b modulus : Nat) : modAddFast a b modulus < 2 ^ maxBits := by
  unfold modAddFast
  dsimp only
  split
  next => exact word_lt _
  next => exact word_lt _

theorem rhoStep_lt (n c mu x : Nat) : rhoStep n c mu x < 2 ^ maxBits := modAddFast_lt _ _ n

theorem rhoStep_iterate_lt (n c mu : Nat) {x : Nat} (hx : x < 2 ^ maxBits) (i : Nat) :
    (rhoStep n c mu)^[i] x < 2 ^ maxBits := by
  cases i with
  | zero => exact hx
  | succ i =>
      rw [Function.iterate_succ_apply']
      exact rhoStep_lt n c mu _

theorem rhoLoop_isSome {n c mu fuel x : Nat} (hn : n ≠ 1) (hx : x < 2 ^ maxBits)
    (hfuel : 2 ^ maxBits <= fuel) : (rhoLoop n c mu fuel x x).isSome := by
  rcases exists_iterate_eq_double (f := rhoStep n c mu) (Finset.range (2 ^ maxBits))
    (fun y _ => Finset.mem_range.mpr (rhoStep_lt n c mu y)) (Finset.mem_range.mpr hx) with
    ⟨meet, hpos, hle, heq⟩
  rw [Finset.card_range] at hle
  have hrun (steps start : Nat) (hmeet : start + steps + 1 = meet) (fuel : Nat)
      (hsteps : steps < fuel) :
      (rhoLoop n c mu fuel ((rhoStep n c mu)^[start] x)
        ((rhoStep n c mu)^[2 * start] x)).isSome := by
    induction steps generalizing start fuel with
    | zero =>
        cases fuel with
        | zero => omega
        | succ fuel =>
            unfold rhoLoop
            dsimp only
            rw [← Function.iterate_succ_apply' (rhoStep n c mu) start,
              ← Function.iterate_succ_apply' (rhoStep n c mu) (2 * start),
              ← Function.iterate_succ_apply' (rhoStep n c mu) (2 * start).succ,
              show start.succ = meet by omega, show (2 * start).succ.succ = 2 * meet by omega,
              ← heq, rhoDivisor_self n (rhoStep_iterate_lt n c mu hx meet), if_neg hn]
            rfl
    | succ steps ih =>
        cases fuel with
        | zero => omega
        | succ fuel =>
            unfold rhoLoop
            dsimp only
            split
            next =>
                rw [← Function.iterate_succ_apply' (rhoStep n c mu) start,
                  ← Function.iterate_succ_apply' (rhoStep n c mu) (2 * start),
                  ← Function.iterate_succ_apply' (rhoStep n c mu) (2 * start).succ]
                exact ih (start + 1) (by omega) fuel (by omega)
            next => rfl
  exact hrun (meet - 1) 0 (by omega) fuel (by omega)

theorem pollardRhoFactorization_divides {n divisor : Nat} {s s' : Prng}
    (h : pollardRhoFactorization n s = some (divisor, s')) : divisor ∣ n ∧ divisor ≠ 1 := by
  unfold pollardRhoFactorization at h
  split at h
  next heven =>
      rcases pure_eq_some.mp h with ⟨rfl, _⟩
      exact ⟨Nat.dvd_of_mod_eq_zero heven, by decide⟩
  next =>
      rcases bind_eq_some.mp h with ⟨c, s₁, _, h₁⟩
      rcases bind_eq_some.mp h₁ with ⟨x, s₂, _, h₂⟩
      rcases bind_eq_some.mp h₂ with ⟨mu, s₃, _, h₃⟩
      exact rhoLoop_divides (ofOption_eq_some.mp h₃).left

/-! ## The set of factors -/

theorem mem_insertFactor {n x : Nat} {factors : List Nat} :
    x ∈ insertFactor n factors <-> x = n ∨ x ∈ factors := by
  induction factors with
  | nil => exact List.mem_singleton.trans (by simp)
  | cons r rest ih =>
      unfold insertFactor
      split
      next => rw [List.mem_cons]
      next =>
          split
          next heq =>
              subst heq
              rw [List.mem_cons]
              tauto
          next =>
              rw [List.mem_cons, ih, List.mem_cons]
              tauto

theorem insertFactor_pairwise {n : Nat} {factors : List Nat} (h : factors.Pairwise (· < ·)) :
    (insertFactor n factors).Pairwise (· < ·) := by
  induction factors with
  | nil => exact List.pairwise_singleton _ n
  | cons r rest ih =>
      rcases List.pairwise_cons.mp h with ⟨hr, hrest⟩
      unfold insertFactor
      split
      next hlt =>
          apply List.pairwise_cons.mpr
          constructor
          · intro x hx
            rcases List.mem_cons.mp hx with rfl | hmem
            · exact hlt
            · exact Nat.lt_trans hlt (hr x hmem)
          · exact h
      next hge =>
          split
          next => exact h
          next hne =>
              apply List.pairwise_cons.mpr
              constructor
              · intro x hx
                rcases mem_insertFactor.mp hx with rfl | hmem
                · omega
                · exact hr x hmem
              · exact ih hrest

/-- The primality test has accepted prime numbers only. -/
def Prng.AcceptsPrimes (s : Prng) : Prop := forall r, r ∈ s.accepted -> r.Prime

theorem Prng.AcceptsPrimes.of_grows {α : Type} {x : Random α} (hx : Grows x) {s s' : Prng} {a : α}
    (h : x s = some (a, s')) (hs' : s'.AcceptsPrimes) : s.AcceptsPrimes :=
  fun r hr => hs' r ((hx s a s' h).left hr)

theorem primeFactorizeLoop_spec {fuel n : Nat} {factors factors' : List Nat} {s s' : Prng}
    (h : primeFactorizeLoop fuel n factors s = some (factors', s')) (hn : n ≠ 0)
    (hprimes : s'.AcceptsPrimes) :
    (forall r, r ∈ factors' <-> r ∈ factors ∨ r ∈ n.primeFactors) ∧
      (factors.Pairwise (· < ·) -> factors'.Pairwise (· < ·)) := by
  induction fuel generalizing n factors factors' s s' with
  | zero => cases h
  | succ fuel ih =>
      unfold primeFactorizeLoop at h
      split at h
      next hsmall =>
          rcases pure_eq_some.mp h with ⟨rfl, _⟩
          have hone : n = 1 := hsmall.resolve_left hn
          rw [hone, Nat.primeFactors_one]
          simp
      next hlarge =>
          rcases bind_eq_some.mp h with ⟨prime, s₁, _, h₁⟩
          cases prime with
          | true =>
              rcases bind_eq_some.mp h₁ with ⟨_, s₂, haccept, h₂⟩
              rcases pure_eq_some.mp h₂ with ⟨rfl, rfl⟩
              cases haccept
              have hprime : n.Prime := hprimes n List.mem_cons_self
              constructor
              · intro r
                rw [mem_insertFactor, hprime.primeFactors, Finset.mem_singleton, or_comm]
              · exact insertFactor_pairwise
          | false =>
              rcases bind_eq_some.mp h₁ with ⟨divisor, s₂, hrho, h₂⟩
              rcases bind_eq_some.mp h₂ with ⟨factors₁, s₃, hfirst, hsecond⟩
              rcases (pollardRhoFactorization_divides hrho).left with ⟨cofactor, rfl⟩
              have hdivisor : divisor ≠ 0 := left_ne_zero_of_mul hn
              have hcofactor : cofactor ≠ 0 := right_ne_zero_of_mul hn
              have hquot : divisor * cofactor / divisor = cofactor :=
                Nat.mul_div_cancel_left cofactor (Nat.pos_of_ne_zero hdivisor)
              rw [hquot] at hsecond
              rcases ih hsecond hcofactor hprimes with ⟨hmem₂, hsorted₂⟩
              rcases ih hfirst hdivisor (hprimes.of_grows (grows_primeFactorizeLoop _ _ _)
                hsecond) with ⟨hmem₁, hsorted₁⟩
              constructor
              · intro r
                rw [hmem₂, hmem₁, Nat.primeFactors_mul hdivisor hcofactor, Finset.mem_union,
                  or_assoc]
              · intro hsorted
                exact hsorted₂ (hsorted₁ hsorted)

/-- The prime factors of a number in ascending order. -/
structure PrimeFactorsOf (n : Nat) (factors : List Nat) : Prop where
  mem (r : Nat) : r ∈ factors <-> r ∈ n.primeFactors
  sorted : factors.Pairwise (· < ·)

theorem primeFactorize_spec {n : Nat} (hn : n ≠ 0) {factors : List Nat} {s s' : Prng}
    (h : primeFactorize n s = some (factors, s')) (hprimes : s'.AcceptsPrimes) :
    PrimeFactorsOf n factors := by
  rcases primeFactorizeLoop_spec h hn hprimes with ⟨hmem, hsorted⟩
  constructor
  case mem =>
    intro r
    rw [hmem]
    simp
  case sorted => exact hsorted List.Pairwise.nil

/-! ## Totients -/

theorem foldl_mulFast (f : Nat -> Nat) (factors : List Nat) {start : Nat}
    (hstart : start < 2 ^ maxBits) :
    factors.foldl (fun product r => mulFast product (f r)) start =
      start * (factors.map f).prod % 2 ^ maxBits := by
  induction factors generalizing start with
  | nil => rw [List.foldl_nil, List.map_nil, List.prod_nil, Nat.mul_one, Nat.mod_eq_of_lt hstart]
  | cons r rest ih =>
      rw [List.foldl_cons, ih (show mulFast start (f r) < 2 ^ maxBits from word_lt _),
        List.map_cons, List.prod_cons, mulFast, word, Nat.mod_mul_mod, Nat.mul_comm (f r) start,
        Nat.mul_assoc]

theorem PrimeFactorsOf.prod {n : Nat} {factors : List Nat} (h : PrimeFactorsOf n factors)
    (f : Nat -> Nat) : (factors.map f).prod = ∏ r ∈ n.primeFactors, f r := by
  have hnodup : factors.Nodup := h.sorted.imp Nat.ne_of_lt
  have hset : factors.toFinset = n.primeFactors := by
    ext r
    rw [List.mem_toFinset, h.mem]
  rw [← hset, List.prod_toFinset f hnodup]

theorem totientOf_eq {n : Nat} (hn : n ≠ 0) (hword : n < 2 ^ maxBits) {factors : List Nat}
    (h : PrimeFactorsOf n factors) : totientOf n factors = Nat.totient n := by
  have hone : (1 : Nat) < 2 ^ maxBits := by decide
  have hprod : ∏ r ∈ n.primeFactors, r <= n :=
    Nat.le_of_dvd (Nat.pos_of_ne_zero hn) (Nat.prod_primeFactors_dvd n)
  have htotient : Nat.totient n <= n := Nat.totient_le n
  have heuler := Nat.totient_eq_div_primeFactors_mul n
  have hpos : 0 < n / ∏ r ∈ n.primeFactors, r :=
    Nat.div_pos hprod (Nat.pos_of_dvd_of_pos (Nat.prod_primeFactors_dvd n)
      (Nat.pos_of_ne_zero hn))
  have hnumerator : ∏ r ∈ n.primeFactors, (r - 1) <= Nat.totient n := by
    rw [heuler]
    exact Nat.le_mul_of_pos_left _ hpos
  have hsub : forall r, r ∈ factors -> subFast r 1 = r - 1 := by
    intro r hr
    have hmem := (h.mem r).mp hr
    exact subFast_eq (Nat.prime_of_mem_primeFactors hmem).one_le
      (Nat.lt_of_le_of_lt (Nat.le_of_mem_primeFactors hmem) hword)
  have hproduct : factors.foldl mulFast 1 = ∏ r ∈ n.primeFactors, r := by
    rw [foldl_mulFast (fun r => r) factors hone, h.prod fun r => r, Nat.one_mul,
      Nat.mod_eq_of_lt (Nat.lt_of_le_of_lt hprod hword)]
  have hdifferences : factors.foldl (fun numerator r => mulFast numerator (subFast r 1)) 1 =
      ∏ r ∈ n.primeFactors, (r - 1) := by
    rw [foldl_mulFast (fun r => subFast r 1) factors hone, List.map_congr_left hsub,
      h.prod fun r => r - 1, Nat.one_mul, Nat.mod_eq_of_lt (by omega)]
  unfold totientOf
  dsimp only
  rw [hproduct, hdifferences, mulFast, Nat.mul_comm, ← heuler, word_eq (by omega)]

theorem getTotient_spec {n t : Nat} (hn : n ≠ 0) (hword : n < 2 ^ maxBits) {s s' : Prng}
    (h : getTotient n s = some (t, s')) (hprimes : s'.AcceptsPrimes) : t = Nat.totient n := by
  rcases bind_eq_some.mp h with ⟨factors, s₁, hfactors, hpure⟩
  rcases pure_eq_some.mp hpure with ⟨rfl, rfl⟩
  exact totientOf_eq hn hword (primeFactorize_spec hn hfactors hprimes)

/-! ## Fuel of the recursion -/

theorem millerRabinPrimalityTest_false {n : Nat} {s s' : Prng}
    (h : millerRabinPrimalityTest n s = some (false, s')) :
    n < 2 ∨ n % 2 = 0 ∧ 2 < n ∨ s'.draws.length < s.draws.length := by
  unfold millerRabinPrimalityTest at h
  split at h
  next =>
      cases (pure_eq_some.mp h).left
  next hsmall =>
      split at h
      next heven =>
          rcases heven with hlt | heven
          · exact Or.inl hlt
          · rcases Nat.lt_or_ge n 3 with hlt | hge
            · exact Or.inl (by omega)
            · exact Or.inr (Or.inl ⟨heven, by omega⟩)
      next =>
          rcases bind_eq_some.mp h with ⟨t, s₁, hodd, hloop⟩
          rcases ofOption_eq_some.mp hodd with ⟨_, rfl⟩
          rcases bind_eq_some.mp hloop with ⟨r, s₂, hrng, hrest⟩
          have hgrows : Grows (do
              let composite <- ofOption (witnessFunction (modAdd r 2 n) t.1 t.2 n)
              if composite then pure false else millerRabinLoop n t.1 t.2 99 : Random Bool) := by
            apply (grows_ofOption _).bind
            intro composite
            cases composite with
            | true => exact grows_pure false
            | false => exact grows_millerRabinLoop _ _ _ _
          exact Or.inr (Or.inr (Nat.lt_of_le_of_lt (hgrows s₂ false s' hrest).right
            (consumes_rng _ s r s₂ hrng)))

theorem primeFactorizeLoop_fuel {fuel more n : Nat} {factors : List Nat} {s : Prng}
    (hfuel : n + s.draws.length < fuel) (hmore : fuel <= more) :
    primeFactorizeLoop more n factors s = primeFactorizeLoop fuel n factors s := by
  induction fuel generalizing more n factors s with
  | zero => omega
  | succ fuel ih =>
      cases more with
      | zero => omega
      | succ more =>
          unfold primeFactorizeLoop
          split
          next => rfl
          next hlarge =>
              show Option.bind (millerRabinPrimalityTest n s) _ =
                Option.bind (millerRabinPrimalityTest n s) _
              cases htest : millerRabinPrimalityTest n s with
              | none => rfl
              | some p =>
                  rcases p with ⟨prime, s₁⟩
                  cases prime with
                  | true => rfl
                  | false =>
                      show Option.bind (pollardRhoFactorization n s₁) _ =
                        Option.bind (pollardRhoFactorization n s₁) _
                      cases hrho : pollardRhoFactorization n s₁ with
                      | none => rfl
                      | some q =>
                          rcases q with ⟨divisor, s₂⟩
                          have hlen₁ := (grows_millerRabinPrimalityTest n s _ s₁ htest).right
                          have hlen₂ := (grows_pollardRhoFactorization n s₁ _ s₂ hrho).right
                          have hdivides := pollardRhoFactorization_divides hrho
                          have hle := Nat.le_of_dvd (by omega) hdivides.left
                          have hpos := Nat.pos_of_dvd_of_pos hdivides.left (by omega)
                          have hfirst : divisor + s₂.draws.length < fuel := by
                            rcases millerRabinPrimalityTest_false htest with hlt | heven | hdraw
                            · omega
                            · have htwo : divisor = 2 := by
                                unfold pollardRhoFactorization at hrho
                                rw [if_pos heven.left] at hrho
                                exact (pure_eq_some.mp hrho).left.symm
                              omega
                            · omega
                          have hquot : n / divisor < n :=
                            Nat.div_lt_self (by omega) (by omega)
                          show Option.bind (primeFactorizeLoop more divisor factors s₂) _ =
                            Option.bind (primeFactorizeLoop fuel divisor factors s₂) _
                          rw [ih hfirst (by omega)]
                          cases hrest : primeFactorizeLoop fuel divisor factors s₂ with
                          | none => rfl
                          | some q =>
                              rcases q with ⟨factors₁, s₃⟩
                              have hlen₃ :=
                                (grows_primeFactorizeLoop _ _ _ s₂ factors₁ s₃ hrest).right
                              exact ih (by omega) (by omega)

/-! ## Powers of two -/

theorem primeFactorizeLoop_two {factors : List Nat} (hfactors : factors = [] ∨ factors = [2])
    (fuel : Nat) (s : Prng) :
    primeFactorizeLoop (fuel + 1) 2 factors s =
      some ([2], { s with accepted := 2 :: s.accepted }) := by
  rcases hfactors with rfl | rfl
  · rfl
  · rfl

end Core
end OpenFHE
