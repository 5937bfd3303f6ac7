import OpenFHE.Core.NumberTheory.PrimeFactorize
import OpenFHE.Foundation.Generators

/-!
# Generators

`FindGenerator` and `FindGeneratorCyclic` draw numbers until one passes the tests by the
prime factors of the order of the group, `IsGenerator` runs the tests on a given number.
-/

namespace OpenFHE
namespace Core

open Foundation NativeInteger Random

/-! ## Tests by the prime factors -/

/-- The number of factors that the loop goes through before it breaks. -/
def passedFactors (q order gen : Nat) : List Nat -> Option Nat
  | [] => some 0
  | r :: rest => do
      let x <- modExp gen (order / r) q
      if x = 1 then return 0
      let cnt <- passedFactors q order gen rest
      return cnt + 1

def isGenerator (g q : Nat) : Random Bool := do
  let qm1 <- getTotient q
  let primeFactors <- primeFactorize qm1
  let cnt <- ofOption (passedFactors q qm1 g primeFactors)
  return decide (cnt = primeFactors.length)

/-! ## Searches -/

def findGeneratorRound (q : Nat) (primeFactors : List Nat) : Random (Option Nat) := do
  let r <- rng (subFast q 2)
  let gen := addFast r 1
  let cnt <- ofOption (passedFactors q (subFast q 1) gen primeFactors)
  return if cnt ≠ primeFactors.length then none else some gen

def findGenerator (q : Nat) : Random Nat := do
  let primeFactors <- primeFactorize (subFast q 1)
  repeatUntil (findGeneratorRound q primeFactors)

/-- The counter of `FindGeneratorCyclic`: `continue` leaves it at zero. -/
def cyclicCount (q phi : Nat) (primeFactors : List Nat) (gen : Nat) : Option Nat :=
  if greatestCommonDivisor gen q ≠ 1 then some 0 else passedFactors q phi gen primeFactors

def findGeneratorCyclicRound (q phi phiM1 : Nat) (primeFactors : List Nat) :
    Random (Option Nat) := do
  let r <- rng phiM1
  let gen := addFast r 1
  let cnt <- ofOption (cyclicCount q phi primeFactors gen)
  return if cnt ≠ primeFactors.length then none else some gen

def findGeneratorCyclic (q : Nat) : Random Nat := do
  let phi <- getTotient q
  let phiM1 <- getTotient q
  let primeFactors <- primeFactorize phi
  repeatUntil (findGeneratorCyclicRound q phi phiM1 primeFactors)

/-! ## What the tests say -/

section Tests

variable {q g : Nat} (hq : 1 < q) (hword : q < 2 ^ maxBits) (hg : g < 2 ^ maxBits)

include hq hword hg

theorem passedFactors_spec {order : Nat} (horder : order < 2 ^ maxBits) (factors : List Nat) :
    exists cnt, passedFactors q order g factors = some cnt ∧ cnt <= factors.length ∧
      (cnt = factors.length <->
        forall r, r ∈ factors -> (g : ZMod q) ^ (order / r) ≠ 1) := by
  have hone : Fact (1 < q) := ⟨hq⟩
  induction factors with
  | nil => exact ⟨0, rfl, Nat.le_refl 0, by simp⟩
  | cons r rest ih =>
      rcases modExp_spec hq hword hg (Nat.lt_of_le_of_lt (Nat.div_le_self order r) horder) with
        ⟨x, hx, hlt, hpow⟩
      have hxone : x = 1 <-> (g : ZMod q) ^ (order / r) = 1 := by
        rw [← hpow]
        constructor
        · intro h
          rw [h, Nat.cast_one]
        · intro h
          have hval := congrArg ZMod.val h
          rwa [ZMod.val_natCast_of_lt hlt, ZMod.val_one] at hval
      unfold passedFactors
      rw [hx]
      simp only [Option.bind_eq_bind, Option.bind_some]
      by_cases hbreak : x = 1
      · rw [if_pos hbreak]
        refine ⟨0, rfl, Nat.zero_le _, ?_⟩
        constructor
        · intro h
          cases h
        · intro h
          exact absurd (hxone.mp hbreak) (h r List.mem_cons_self)
      · rw [if_neg hbreak]
        rcases ih with ⟨cnt, hcnt, hle, hiff⟩
        rw [hcnt]
        refine ⟨cnt + 1, rfl, Nat.succ_le_succ hle, ?_⟩
        rw [List.length_cons, Nat.add_right_cancel_iff, hiff, List.forall_mem_cons]
        constructor
        · intro h
          exact ⟨fun hpower => hbreak (hxone.mpr hpower), h⟩
        · intro h
          exact h.right

theorem passedFactors_totient {factors : List Nat}
    (hfactors : PrimeFactorsOf (Nat.totient q) factors) :
    exists cnt, passedFactors q (Nat.totient q) g factors = some cnt ∧
      (cnt = factors.length <-> PassesTests q g) := by
  have htotient := Nat.totient_le q
  rcases passedFactors_spec hq hword hg (show Nat.totient q < 2 ^ maxBits by omega) factors with
    ⟨cnt, hcnt, _, hiff⟩
  refine ⟨cnt, hcnt, hiff.trans ?_⟩
  unfold PassesTests
  simp only [hfactors.mem]

end Tests

/-! ## Rounds of the searches -/

theorem grows_findGeneratorRound (q : Nat) (primeFactors : List Nat) :
    Grows (findGeneratorRound q primeFactors) :=
  (grows_rng _).bind fun _ => (grows_ofOption _).bind fun _ => grows_pure _

theorem grows_findGeneratorCyclicRound (q phi phiM1 : Nat) (primeFactors : List Nat) :
    Grows (findGeneratorCyclicRound q phi phiM1 primeFactors) :=
  (grows_rng _).bind fun _ => (grows_ofOption _).bind fun _ => grows_pure _

theorem addFast_one {r : Nat} (hr : r + 1 < 2 ^ maxBits) : addFast r 1 = r + 1 := by
  unfold addFast
  rw [Nat.add_comm, word_eq hr]

theorem findGeneratorRound_iff {q : Nat} (hq : q.Prime) (hword : q < 2 ^ maxBits)
    {factors : List Nat} (hfactors : PrimeFactorsOf (q - 1) factors) (g : Nat) :
    (exists s s', findGeneratorRound q factors s = some (some g, s')) <->
      0 < g ∧ g <= q - 2 ∧ Generates q g := by
  have hge := hq.two_le
  have hqm1 : subFast q 1 = Nat.totient q := by
    rw [Nat.totient_prime hq, subFast_eq (by omega) hword]
  have hqm2 : subFast q 2 = q - 2 := subFast_eq hge hword
  rw [← Nat.totient_prime hq] at hfactors
  have hgenerates (g : Nat) (hpos : 0 < g) (hlt : g <= q - 2) :
      Generates q g <-> PassesTests q g := by
    apply generates_iff_passesTests hq.pos
    exact (hq.coprime_iff_not_dvd.mpr (Nat.not_dvd_of_pos_of_lt hpos (by omega))).symm
  constructor
  · intro h
    rcases h with ⟨s, s', h⟩
    rcases bind_eq_some.mp h with ⟨r, s₁, hrng, hrest⟩
    have hr := rng_lt hrng
    rw [hqm2] at hr
    rcases bind_eq_some.mp hrest with ⟨cnt, s₂, hcnt, hpure⟩
    rw [addFast_one (by omega), hqm1] at hcnt
    rcases passedFactors_totient hq.one_lt hword (show r + 1 < 2 ^ maxBits by omega) hfactors with
      ⟨cnt', hcnt', htests⟩
    rw [hcnt'] at hcnt
    rcases ofOption_eq_some.mp hcnt with ⟨hsome, _⟩
    cases hsome
    rcases pure_eq_some.mp hpure with ⟨hvalue, _⟩
    rw [addFast_one (by omega)] at hvalue
    split at hvalue
    next => cases hvalue
    next hall =>
        cases hvalue
        refine ⟨Nat.succ_pos r, by omega, ?_⟩
        exact (hgenerates _ (Nat.succ_pos r) (by omega)).mpr (htests.mp (not_not.mp hall))
  · intro h
    rcases h with ⟨hpos, hle, hg⟩
    rcases rng_surjective (show q - 2 < 2 ^ maxBits by omega) (show g - 1 < q - 2 by omega) with
      ⟨draws, hdraws⟩
    rcases passedFactors_totient hq.one_lt hword (show g < 2 ^ maxBits by omega) hfactors with
      ⟨cnt, hcnt, htests⟩
    have hadd : addFast (g - 1) 1 = g := by
      rw [addFast_one (by omega)]
      omega
    refine ⟨⟨draws ++ [], []⟩, ⟨[], []⟩, ?_⟩
    refine bind_eq_some.mpr ⟨g - 1, ⟨[], []⟩, ?_, ?_⟩
    · rw [hqm2]
      exact hdraws [] []
    · refine bind_eq_some.mpr ⟨cnt, ⟨[], []⟩, ?_, ?_⟩
      · rw [hadd, hqm1, hcnt]
        rfl
      · rw [hadd, if_neg (not_not.mpr (htests.mpr ((hgenerates g hpos hle).mp hg)))]
        rfl

theorem findGeneratorCyclicRound_iff {q : Nat} (hq : 1 < q) (hword : q < 2 ^ maxBits)
    {factors : List Nat} (hfactors : PrimeFactorsOf (Nat.totient q) factors) (g : Nat) :
    (exists s s', findGeneratorCyclicRound q (Nat.totient q) (Nat.totient q) factors s =
        some (some g, s')) <->
      0 < g ∧ g <= Nat.totient q ∧ Generates q g := by
  have htotient := Nat.totient_le q
  have hpos : 0 < Nat.totient q := Nat.totient_pos.mpr (by omega)
  constructor
  · intro h
    rcases h with ⟨s, s', h⟩
    rcases bind_eq_some.mp h with ⟨r, s₁, hrng, hrest⟩
    have hr := rng_lt hrng
    rcases bind_eq_some.mp hrest with ⟨cnt, s₂, hcnt, hpure⟩
    rcases ofOption_eq_some.mp hcnt with ⟨hcnt, _⟩
    rcases pure_eq_some.mp hpure with ⟨hvalue, _⟩
    rw [addFast_one (by omega)] at hcnt hvalue
    rw [cyclicCount, greatestCommonDivisor_eq] at hcnt
    split at hvalue
    next => cases hvalue
    next hall =>
        cases hvalue
        have hlength := not_not.mp hall
        refine ⟨Nat.succ_pos r, by omega, ?_⟩
        by_cases hcoprime : Nat.gcd (r + 1) q = 1
        · rw [if_neg (not_not.mpr hcoprime)] at hcnt
          rcases passedFactors_totient hq hword (show r + 1 < 2 ^ maxBits by omega) hfactors with
            ⟨cnt', hcnt', htests⟩
          rw [hcnt'] at hcnt
          cases hcnt
          exact (generates_iff_passesTests (by omega) hcoprime).mpr (htests.mp hlength)
        · -- `continue` leaves the loop only when there are no factors, for the order one
          rw [if_pos hcoprime] at hcnt
          cases hcnt
          have hnil : factors = [] := List.length_eq_zero_iff.mp hlength.symm
          have hempty : (Nat.totient q).primeFactors = ∅ := by
            apply Finset.eq_empty_of_forall_notMem
            intro x hx
            rw [← hfactors.mem, hnil] at hx
            cases hx
          rcases Nat.primeFactors_eq_empty.mp hempty with hzero | hone
          · omega
          · have hrzero : r = 0 := by omega
            rw [hrzero] at hcoprime
            exact absurd (Nat.gcd_one_left q) hcoprime
  · intro h
    rcases h with ⟨hgpos, hle, hg⟩
    rcases rng_surjective (show Nat.totient q < 2 ^ maxBits by omega)
      (show g - 1 < Nat.totient q by omega) with ⟨draws, hdraws⟩
    rcases passedFactors_totient hq hword (show g < 2 ^ maxBits by omega) hfactors with
      ⟨cnt, hcnt, htests⟩
    have hadd : addFast (g - 1) 1 = g := by
      rw [addFast_one (by omega)]
      omega
    refine ⟨⟨draws ++ [], []⟩, ⟨[], []⟩, ?_⟩
    refine bind_eq_some.mpr ⟨g - 1, ⟨[], []⟩, hdraws [] [], ?_⟩
    refine bind_eq_some.mpr ⟨cnt, ⟨[], []⟩, ?_, ?_⟩
    · rw [hadd, cyclicCount, greatestCommonDivisor_eq, if_neg (not_not.mpr hg.left), hcnt]
      rfl
    · rw [hadd, if_neg (not_not.mpr (htests.mpr
        ((generates_iff_passesTests (by omega) hg.left).mp hg)))]
      rfl

/-! ## The searches -/

def CanEnd (round : Random (Option Nat)) : Prop :=
  exists s g s', repeatUntil round s = some (g, s')

theorem canEnd_iff {round : Random (Option Nat)} (hround : Grows round) :
    CanEnd round <-> exists g s s', round s = some (some g, s') := by
  constructor
  · intro h
    rcases h with ⟨s, g, s', h⟩
    rcases repeatUntil_eq_some hround h with ⟨s₁, _, _, hlast⟩
    exact ⟨g, s₁, s', hlast⟩
  · intro h
    rcases h with ⟨g, s, s', h⟩
    exact ⟨s, g, s', repeatUntil_of_some h⟩

theorem findGenerator_sound {q g : Nat} (hq : q.Prime) (hword : q < 2 ^ maxBits)
    {s s' : Prng} (h : findGenerator q s = some (g, s')) (hprimes : s'.AcceptsPrimes) :
    0 < g ∧ g <= q - 2 ∧ Generates q g := by
  have hge := hq.two_le
  rcases bind_eq_some.mp h with ⟨factors, s₁, hfactorize, hloop⟩
  have hfactors := primeFactorize_spec (by rw [subFast_eq (by omega) hword]; omega) hfactorize
    (hprimes.of_grows (grows_findGeneratorRound q factors).repeatUntil hloop)
  rw [subFast_eq (by omega) hword] at hfactors
  rcases repeatUntil_eq_some (grows_findGeneratorRound q factors) hloop with ⟨s₂, _, _, hlast⟩
  exact (findGeneratorRound_iff hq hword hfactors g).mp ⟨s₂, s', hlast⟩

theorem findGeneratorCyclic_sound {q g : Nat} (hq : 1 < q) (hword : q < 2 ^ maxBits)
    {s s' : Prng} (h : findGeneratorCyclic q s = some (g, s')) (hprimes : s'.AcceptsPrimes) :
    0 < g ∧ g <= Nat.totient q ∧ Generates q g := by
  rcases bind_eq_some.mp h with ⟨phi, s₁, hphi, h₁⟩
  rcases bind_eq_some.mp h₁ with ⟨phiM1, s₂, hphiM1, h₂⟩
  rcases bind_eq_some.mp h₂ with ⟨factors, s₃, hfactorize, hloop⟩
  have hround := grows_findGeneratorCyclicRound q phi phiM1 factors
  have hprimes₃ := hprimes.of_grows hround.repeatUntil hloop
  have hprimes₂ := hprimes₃.of_grows (grows_primeFactorize phi) hfactorize
  have hprimes₁ := hprimes₂.of_grows (grows_getTotient q) hphiM1
  have heq := getTotient_spec (by omega) hword hphi hprimes₁
  have heqM1 := getTotient_spec (by omega) hword hphiM1 hprimes₂
  have hpos : 0 < Nat.totient q := Nat.totient_pos.mpr (by omega)
  subst heq heqM1
  have hfactors := primeFactorize_spec hpos.ne' hfactorize hprimes₃
  rcases repeatUntil_eq_some hround hloop with ⟨s₄, _, _, hlast⟩
  exact (findGeneratorCyclicRound_iff hq hword hfactors g).mp ⟨s₄, s', hlast⟩

theorem isGenerator_spec {q g : Nat} (hq : 1 < q) (hword : q < 2 ^ maxBits)
    (hg : g < 2 ^ maxBits) {b : Bool} {s s' : Prng} (h : isGenerator g q s = some (b, s'))
    (hprimes : s'.AcceptsPrimes) : b = true <-> PassesTests q g := by
  rcases bind_eq_some.mp h with ⟨qm1, s₁, hqm1, h₁⟩
  rcases bind_eq_some.mp h₁ with ⟨factors, s₂, hfactorize, h₂⟩
  rcases bind_eq_some.mp h₂ with ⟨cnt, s₃, hcnt, hpure⟩
  rcases pure_eq_some.mp hpure with ⟨rfl, rfl⟩
  rcases ofOption_eq_some.mp hcnt with ⟨hcnt, rfl⟩
  have heq := getTotient_spec (by omega) hword hqm1
    (hprimes.of_grows (grows_primeFactorize qm1) hfactorize)
  subst heq
  have hpos : 0 < Nat.totient q := Nat.totient_pos.mpr (by omega)
  rcases passedFactors_totient hq hword hg (primeFactorize_spec hpos.ne' hfactorize hprimes) with
    ⟨cnt', hcnt', htests⟩
  rw [hcnt'] at hcnt
  cases hcnt
  rw [decide_eq_true_iff]
  exact htests

/-! ## Which searches end -/

theorem findGenerator_canEnd_iff {q : Nat} (hq : q.Prime) (htwo : q ≠ 2)
    (hword : q < 2 ^ maxBits) {factors : List Nat} (hfactors : PrimeFactorsOf (q - 1) factors) :
    CanEnd (findGeneratorRound q factors) <-> q ≠ 3 := by
  rw [canEnd_iff (grows_findGeneratorRound q factors)]
  simp only [findGeneratorRound_iff hq hword hfactors]
  constructor
  · intro h hthree
    rcases h with ⟨g, hpos, hle, hg⟩
    have hone : g = 1 := by omega
    rcases hg.right 2 (by rw [hthree]; decide) with ⟨k, hk⟩
    rw [hone, one_pow, hthree] at hk
    exact absurd hk (by decide)
  · intro hthree
    have hge := hq.two_le
    have hfour : q ≠ 4 := by
      intro h
      rw [h] at hq
      exact absurd hq (by norm_num)
    exact exists_generates_below hq (by omega)

theorem findGeneratorCyclic_canEnd_iff {q : Nat} (hq : 1 < q) (hword : q < 2 ^ maxBits)
    (hcyclic : IsCyclic (ZMod q)ˣ) {factors : List Nat}
    (hfactors : PrimeFactorsOf (Nat.totient q) factors) :
    CanEnd (findGeneratorCyclicRound q (Nat.totient q) (Nat.totient q) factors) <->
      GeneratorInRange q := by
  rw [canEnd_iff (grows_findGeneratorCyclicRound q _ _ factors)]
  simp only [findGeneratorCyclicRound_iff hq hword hfactors]
  exact exists_generates_le_totient_iff hq hcyclic

structure FindsGenerators (q : Nat) : Prop where
  sound (s s' : Prng) (g : Nat) (h : findGenerator q s = some (g, s'))
    (hprimes : s'.AcceptsPrimes) : Generates q g
  ends (factors : List Nat) (hfactors : PrimeFactorsOf (q - 1) factors) :
    CanEnd (findGeneratorRound q factors) <-> q ≠ 3

/-- What `FindGeneratorCyclic` and `IsGenerator` do for a cyclic group. -/
structure FindsGeneratorsCyclic (q : Nat) : Prop where
  sound (s s' : Prng) (g : Nat) (h : findGeneratorCyclic q s = some (g, s'))
    (hprimes : s'.AcceptsPrimes) : Generates q g
  ends (factors : List Nat) (hfactors : PrimeFactorsOf (Nat.totient q) factors) :
    CanEnd (findGeneratorCyclicRound q (Nat.totient q) (Nat.totient q) factors) <->
      GeneratorInRange q
  exact (g : Nat) (hg : g < 2 ^ maxBits) (s s' : Prng) (b : Bool)
    (h : isGenerator g q s = some (b, s')) (hprimes : s'.AcceptsPrimes) :
    (b = true <-> Generates q g) <-> Nat.Coprime g q

/--
The searches return generators, and some draws end them unless their range has none;
`IsGenerator` is right about the units and accepts everything else.
-/
theorem generatorSearches {q : Nat} (hq : 1 < q) (hword : q < 2 ^ maxBits)
    (hcyclic : IsCyclic (ZMod q)ˣ) :
    (q.Prime -> q ≠ 2 -> FindsGenerators q) ∧ FindsGeneratorsCyclic q := by
  constructor
  · intro hprime htwo
    constructor
    case sound =>
      intro s s' g h hprimes
      exact (findGenerator_sound hprime hword h hprimes).right.right
    case ends =>
      intro factors hfactors
      exact findGenerator_canEnd_iff hprime htwo hword hfactors
  · constructor
    case sound =>
      intro s s' g h hprimes
      exact (findGeneratorCyclic_sound hq hword h hprimes).right.right
    case ends =>
      intro factors hfactors
      exact findGeneratorCyclic_canEnd_iff hq hword hcyclic hfactors
    case exact =>
      intro g hg s s' b h hprimes
      rw [isGenerator_spec hq hword hg h hprimes]
      constructor
      · intro hiff
        by_contra hcoprime
        exact hcoprime (hiff.mp (passesTests_of_not_coprime (by omega) hcoprime)).left
      · intro hcoprime
        exact (generates_iff_passesTests (by omega) hcoprime).symm

theorem generatorSearches_five :
    (Nat.Prime 5 -> 5 ≠ 2 -> FindsGenerators 5) ∧ FindsGeneratorsCyclic 5 := by
  have : Fact (Nat.Prime 5) := ⟨Nat.prime_five⟩
  exact generatorSearches (by decide) (by decide) inferInstance

theorem primeFactorize_two (s : Prng) :
    primeFactorize 2 s = some ([2], { s with accepted := 2 :: s.accepted }) :=
  primeFactorizeLoop_two (Or.inl rfl) _ s

theorem primeFactorsOf_two : PrimeFactorsOf 2 [2] := by
  constructor
  case mem =>
    intro r
    rw [Nat.prime_two.primeFactors, List.mem_singleton, Finset.mem_singleton]
  case sorted => exact List.pairwise_singleton _ 2

theorem repeatUntil_eq_none {round : Random (Option Nat)} (h : ¬CanEnd round) (s : Prng) :
    repeatUntil round s = none := by
  cases hrun : repeatUntil round s with
  | none => rfl
  | some p => exact absurd ⟨s, p.1, p.2, hrun⟩ h

theorem findGeneratorCyclic_eq_none {q : Nat} (hq : 1 < q) (hword : q < 2 ^ maxBits)
    (hcyclic : IsCyclic (ZMod q)ˣ) (htwo : Nat.totient q = 2)
    (htotient : forall s, exists s', getTotient q s = some (2, s'))
    (hrange : ¬GeneratorInRange q) (s : Prng) : findGeneratorCyclic q s = none := by
  have hfactors : PrimeFactorsOf (Nat.totient q) [2] := by
    rw [htwo]
    exact primeFactorsOf_two
  have hends := findGeneratorCyclic_canEnd_iff hq hword hcyclic hfactors
  rw [htwo] at hends
  rcases htotient s with ⟨s₁, h₁⟩
  rcases htotient s₁ with ⟨s₂, h₂⟩
  cases hrun : findGeneratorCyclic q s with
  | none => rfl
  | some p =>
      rcases bind_eq_some.mp hrun with ⟨phi, s₁', hphi, hrest⟩
      rw [h₁] at hphi
      cases hphi
      rcases bind_eq_some.mp hrest with ⟨phiM1, s₂', hphiM1, hrest⟩
      rw [h₂] at hphiM1
      cases hphiM1
      rcases bind_eq_some.mp hrest with ⟨factors, s₃, hfactorize, hloop⟩
      rw [primeFactorize_two] at hfactorize
      cases hfactorize
      rw [repeatUntil_eq_none (fun h => hrange (hends.mp h))] at hloop
      cases hloop

/--
Modulo three, four and six no draws end the searches, and zero is taken for a generator
modulo five.
-/
theorem generatorSearches_endless :
    (forall s, findGenerator 3 s = none) ∧ (forall s, findGeneratorCyclic 4 s = none) ∧
      (forall s, findGeneratorCyclic 6 s = none) ∧
      isGenerator 0 5 ⟨[], []⟩ = some (true, ⟨[], [2, 2, 5]⟩) := by
  refine ⟨?_, ?_, ?_, by decide⟩
  · intro s
    have hends := findGenerator_canEnd_iff Nat.prime_three (by decide) (by decide)
      primeFactorsOf_two
    cases hrun : findGenerator 3 s with
    | none => rfl
    | some p =>
        rcases bind_eq_some.mp hrun with ⟨factors, s₁, hfactorize, hloop⟩
        rw [show subFast 3 1 = 2 by decide, primeFactorize_two] at hfactorize
        cases hfactorize
        rw [repeatUntil_eq_none (fun h => hends.mp h rfl)] at hloop
        cases hloop
  · apply findGeneratorCyclic_eq_none (by decide) (by decide) ZMod.isCyclic_units_four (by decide)
    · intro s
      exact ⟨_, rfl⟩
    · intro h
      exact h.left rfl
  · apply findGeneratorCyclic_eq_none (by decide) (by decide)
      ((ZMod.isCyclic_units_iff 6).mpr (by
        refine Or.inr (Or.inr (Or.inr (Or.inr ⟨3, 1, Nat.prime_three, by decide, le_refl 1, ?_⟩)))
        exact Or.inr rfl)) (by decide)
    · intro s
      exact ⟨_, rfl⟩
    · exact not_generatorInRange_six

end Core
end OpenFHE
