import OpenFHE.Core.NumberTheory.PrimeFactorize

/-!
# Factorization for every sequence of draws

The method of Pollard ends as soon as its two draws are served: the two iterates meet.
The products of `GetTotient` over the factors that were found are all exact.
-/

namespace OpenFHE
namespace Core

open Foundation NativeInteger Random

/-! ## The method of Pollard -/

/-- The draws of `PollardRhoFactorization`: the summand and the start of the iteration. -/
def rhoDraws (n : Nat) : Random Unit :=
  if n % 2 = 0 then pure ()
  else do
    let _ <- rng n
    let _ <- rng n
    return ()

theorem rhoLoop_ends {n c x : Nat} (hn : 1 < n) (hx : x < n) (hword : n < 2 ^ maxBits) :
    exists mu divisor, computeMu n = some mu ∧
      rhoLoop n c mu (2 ^ maxBits) x x = some divisor := by
  have hmu : exists mu, computeMu n = some mu := by
    unfold computeMu
    rw [if_neg (by omega)]
    exact ⟨_, rfl⟩
  rcases hmu with ⟨mu, hmu⟩
  have hsome : (rhoLoop n c mu (2 ^ maxBits) x x).isSome :=
    rhoLoop_isSome (show n ≠ 1 by omega) (show x < 2 ^ maxBits by omega) (Nat.le_refl _)
  rcases Option.isSome_iff_exists.mp hsome with ⟨divisor, hdivisor⟩
  exact ⟨mu, divisor, hmu, hdivisor⟩

theorem pollardRhoFactorization_returns {n : Nat} (hn : 1 < n) (hword : n < 2 ^ maxBits)
    (s : Prng) :
    (pollardRhoFactorization n s).map Prod.snd = (rhoDraws n s).map Prod.snd := by
  unfold pollardRhoFactorization rhoDraws
  split
  next => rfl
  next =>
      show Option.map Prod.snd (Option.bind (rng n s) _) =
        Option.map Prod.snd (Option.bind (rng n s) _)
      cases hc : rng n s with
      | none => rfl
      | some p =>
          rcases p with ⟨c, s₁⟩
          show Option.map Prod.snd (Option.bind (rng n s₁) _) =
            Option.map Prod.snd (Option.bind (rng n s₁) _)
          cases hx : rng n s₁ with
          | none => rfl
          | some q =>
              rcases q with ⟨x, s₂⟩
              rcases rhoLoop_ends (c := c) hn (rng_lt hx) hword with
                ⟨mu, divisor, hmu, hdivisor⟩
              show Option.map Prod.snd (Option.bind (ofOption (computeMu n) s₂) _) = some s₂
              rw [hmu]
              show Option.map Prod.snd
                (ofOption (rhoLoop n c mu (2 ^ maxBits) x x) s₂) = some s₂
              rw [hdivisor]
              rfl

/-! ## The products of `GetTotient` -/

/-- Every product that `GetTotient` forms over a prefix of the factors fits the word. -/
structure ExactProducts (n : Nat) (factors : List Nat) : Prop where
  difference : forall r, r ∈ factors -> 0 < r
  numerator (k : Nat) : (factors.take k).foldl (fun numerator r =>
    mulFast numerator (subFast r 1)) 1 = ((factors.take k).map fun r => r - 1).prod
  primeProd (k : Nat) : (factors.take k).foldl mulFast 1 = (factors.take k).prod
  result : totientOf n factors =
    n / factors.prod * (factors.map fun r => r - 1).prod

theorem prod_take_le {l : List Nat} (hpos : forall x, x ∈ l -> 0 < x) (k : Nat) :
    (l.take k).prod <= l.prod := by
  have hsplit : (l.take k).prod * (l.drop k).prod = l.prod := by
    rw [← List.prod_append, List.take_append_drop]
  have hrest : 0 < (l.drop k).prod := by
    apply Nat.pos_of_ne_zero
    apply List.prod_ne_zero
    intro hmem
    exact absurd (hpos 0 (List.mem_of_mem_drop hmem)) (Nat.lt_irrefl 0)
  rw [← hsplit]
  exact Nat.le_mul_of_pos_right _ hrest

section Products

variable {n : Nat} {factors : List Nat} (hn : n ≠ 0) (h : PrimeFactorsOf n factors)

include hn h

theorem PrimeFactorsOf.prod_le :
    factors.prod <= n ∧ (factors.map fun r => r - 1).prod <= n := by
  have hprod := h.prod fun r => r
  have hpred := h.prod fun r => r - 1
  rw [List.map_id'] at hprod
  have hle : ∏ r ∈ n.primeFactors, r <= n :=
    Nat.le_of_dvd (Nat.pos_of_ne_zero hn) (Nat.prod_primeFactors_dvd n)
  constructor
  · rw [hprod]
    exact hle
  · rw [hpred]
    exact (Finset.prod_le_prod (fun _ _ => Nat.zero_le _) fun r _ => Nat.sub_le r 1).trans hle

theorem PrimeFactorsOf.exactProducts (hword : n < 2 ^ maxBits) : ExactProducts n factors := by
  have hprime (r : Nat) (hr : r ∈ factors) : r.Prime :=
    Nat.prime_of_mem_primeFactors ((h.mem r).mp hr)
  have hle (r : Nat) (hr : r ∈ factors) : r <= n :=
    Nat.le_of_mem_primeFactors ((h.mem r).mp hr)
  have hsub (r : Nat) (hr : r ∈ factors) : subFast r 1 = r - 1 :=
    subFast_eq (hprime r hr).one_le (Nat.lt_of_le_of_lt (hle r hr) hword)
  rcases h.prod_le hn with ⟨hprod, hpred⟩
  have hpre (k : Nat) : (factors.take k).prod <= n :=
    (prod_take_le (fun r hr => (hprime r hr).pos) k).trans hprod
  have hpre' (k : Nat) : ((factors.take k).map fun r => r - 1).prod <= n := by
    rw [List.map_take]
    refine (prod_take_le ?_ k).trans hpred
    intro x hx
    rcases List.mem_map.mp hx with ⟨r, hr, rfl⟩
    exact Nat.sub_pos_of_lt (hprime r hr).one_lt
  constructor
  case difference =>
    intro r hr
    exact (hprime r hr).pos
  case numerator =>
    intro k
    rw [foldl_mulFast (fun r => subFast r 1) (factors.take k) (by decide), Nat.one_mul,
      List.map_congr_left fun r hr => hsub r (List.mem_of_mem_take hr)]
    exact Nat.mod_eq_of_lt (Nat.lt_of_le_of_lt (hpre' k) hword)
  case primeProd =>
    intro k
    rw [foldl_mulFast (fun r => r) (factors.take k) (by decide), Nat.one_mul, List.map_id']
    exact Nat.mod_eq_of_lt (Nat.lt_of_le_of_lt (hpre k) hword)
  case result =>
    have hprods := h.prod fun r => r
    rw [List.map_id'] at hprods
    rw [totientOf_eq hn hword h, hprods, h.prod fun r => r - 1]
    exact Nat.totient_eq_div_primeFactors_mul n

end Products

/-! ## Contract -/

/-- What the factorization of `n` and its totient guarantee for every sequence of draws. -/
structure Factorizes (n : Nat) : Prop where
  /-- The loop ends as soon as its draws are served. -/
  rhoReturns (hn : ¬ n.Prime ∧ n ≠ 1) (s : Prng) :
    (pollardRhoFactorization n s).map Prod.snd = (rhoDraws n s).map Prod.snd
  rhoDivides {divisor : Nat} (hn : ¬ n.Prime ∧ n ≠ 1) (s s' : Prng)
    (h : pollardRhoFactorization n s = some (divisor, s')) : divisor ∣ n ∧ 1 < divisor
  /-- The prime divisors are added to the set, when the test has accepted primes only. -/
  primeFactors {fuel : Nat} {factors factors' : List Nat} (s s' : Prng)
    (h : primeFactorizeLoop fuel n factors s = some (factors', s'))
    (hprimes : s'.AcceptsPrimes) (r : Nat) :
    r ∈ factors' <-> r ∈ factors ∨ r.Prime ∧ r ∣ n
  totient {t : Nat} (s s' : Prng) (h : getTotient n s = some (t, s'))
    (hprimes : s'.AcceptsPrimes) :
    t = Nat.totient n ∧ exists factors, primeFactorize n s = some (factors, s') ∧
      t = totientOf n factors ∧ ExactProducts n factors

theorem factorizes {n : Nat} (hpos : 1 <= n) (hn : n < 2 ^ 60) : Factorizes n := by
  have hword : n < 2 ^ maxBits := hn.trans (by decide)
  have hzero : n ≠ 0 := Nat.one_le_iff_ne_zero.mp hpos
  constructor
  case rhoReturns =>
    intro hcomposite
    have hlt : 1 < n := Nat.lt_of_le_of_ne hpos hcomposite.right.symm
    exact pollardRhoFactorization_returns hlt hword
  case rhoDivides =>
    intro divisor _ s s' h
    rcases pollardRhoFactorization_divides h with ⟨hdvd, hne⟩
    have hdivisor := Nat.pos_of_dvd_of_pos hdvd hpos
    exact ⟨hdvd, Nat.lt_of_le_of_ne hdivisor hne.symm⟩
  case primeFactors =>
    intro fuel factors factors' s s' h hprimes r
    rw [(primeFactorizeLoop_spec h hzero hprimes).left r, Nat.mem_primeFactors]
    constructor
    · intro hr
      cases hr with
      | inl hmem => exact Or.inl hmem
      | inr hprime => exact Or.inr ⟨hprime.left, hprime.right.left⟩
    · intro hr
      cases hr with
      | inl hmem => exact Or.inl hmem
      | inr hprime => exact Or.inr ⟨hprime.left, hprime.right, hzero⟩
  case totient =>
    intro t s s' h hprimes
    rcases bind_eq_some.mp h with ⟨factors, s₁, hfactors, hpure⟩
    rcases pure_eq_some.mp hpure with ⟨rfl, rfl⟩
    have hof := primeFactorize_spec hzero hfactors hprimes
    exact ⟨totientOf_eq hzero hword hof, factors, hfactors, rfl, hof.exactProducts hzero hword⟩

theorem factorizes_twelve : 1 <= 12 ∧ 12 < 2 ^ 60 ∧ Factorizes 12 :=
  ⟨by decide, by decide, factorizes (by decide) (by decide)⟩

end Core
end OpenFHE
