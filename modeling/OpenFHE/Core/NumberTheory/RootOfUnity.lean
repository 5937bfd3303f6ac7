import OpenFHE.Core.NumberTheory.Generator
import Mathlib.RingTheory.RootsOfUnity.PrimitiveRoots

/-!
# Roots of unity

`RootOfUnity` raises a random generator to a cofactor and walks through the powers whose
exponents are coprime to the order.  The least of them does not depend on the generator.
-/

namespace OpenFHE
namespace Core

open Foundation NativeInteger Random

def getTotientList (n : Nat) : List Nat :=
  (List.range' 1 (n - 1)).filter fun i => decide (greatestCommonDivisor i n = 1)

structure RootWalk where
  x : Nat
  minRU : Nat
  curPowIdx : Nat
deriving DecidableEq, Repr

def rootWalkStep (result modulo mu : Nat) (w : RootWalk) (nextPowIdx : Nat) : RootWalk :=
  let diffPow := subFast nextPowIdx w.curPowIdx
  let x := (fun x => modMulMu x result modulo mu)^[diffPow] w.x
  { x := x
    minRU := if x < w.minRU ∧ x ≠ 1 then x else w.minRU
    curPowIdx := nextPowIdx }

/-- The recursion of `RootOfUnity`: it starts again when the power of the generator is one. -/
def rootOfUnityLoop (m modulo : Nat) : Nat -> Random Nat
  | 0 => fun _ => none
  | fuel + 1 =>
      if subFast modulo 1 % m ≠ 0 then ofOption none
      else do
        let gen <- findGenerator modulo
        let power <- ofOption (modExp gen (subFast modulo 1 / m) modulo)
        let result <- if power = 1 then rootOfUnityLoop m modulo fuel else pure power
        let mu <- ofOption (computeMu modulo)
        let x := modMulMu 1 result modulo mu
        return ((getTotientList m).foldl (rootWalkStep result modulo mu) ⟨x, x, 1⟩).minRU

def rootOfUnity (m modulo : Nat) : Random Nat := fun s =>
  rootOfUnityLoop m modulo (s.draws.length + 1) s

/-! ## The fuel -/

theorem consumes_findGenerator (q : Nat) : Consumes (findGenerator q) := by
  apply (grows_primeFactorize (subFast q 1)).bind_consumes
  intro factors
  apply Consumes.repeatUntil (grows_findGeneratorRound q factors)
  exact (consumes_rng _).bind fun _ => (grows_ofOption _).bind fun _ => grows_pure _

theorem rootOfUnityLoop_fuel {m modulo fuel more : Nat} {s : Prng}
    (hfuel : s.draws.length < fuel) (hmore : fuel <= more) :
    rootOfUnityLoop m modulo more s = rootOfUnityLoop m modulo fuel s := by
  induction fuel generalizing more s with
  | zero => omega
  | succ fuel ih =>
      cases more with
      | zero => omega
      | succ more =>
          unfold rootOfUnityLoop
          split
          next => rfl
          next =>
              apply bind_eq_bind
              intro gen s₁ hgen
              have hlt := consumes_findGenerator modulo s gen s₁ hgen
              apply bind_eq_bind
              intro power s₂ hpower
              rcases ofOption_eq_some.mp hpower with ⟨_, rfl⟩
              split
              next =>
                  show Option.bind (rootOfUnityLoop m modulo more s₁) _ =
                    Option.bind (rootOfUnityLoop m modulo fuel s₁) _
                  rw [ih (by omega) (by omega)]
              next => rfl

/-! ## The walk -/

theorem mem_getTotientList {n i : Nat} :
    i ∈ getTotientList n <-> 1 <= i ∧ i < n ∧ Nat.Coprime i n := by
  unfold getTotientList
  rw [List.mem_filter, decide_eq_true_iff, greatestCommonDivisor_eq, List.mem_range'_1]
  constructor
  · intro h
    exact ⟨h.left.left, by omega, h.right⟩
  · intro h
    exact ⟨⟨h.left, by omega⟩, h.right.right⟩

theorem getTotientList_pairwise (n : Nat) : (1 :: getTotientList n).Pairwise (· <= ·) := by
  rw [List.pairwise_cons]
  constructor
  · intro i hi
    exact (mem_getTotientList.mp hi).left
  · exact ((List.pairwise_le_range' _).filter _)

section Walk

variable {q mu result : Nat} (hne : q ≠ 2 ^ 59) (hq : 1 < q) (h60 : q < 2 ^ 60)
  (hmu : computeMu q = some mu) (hresult : result < q)

include hne hq h60 hmu hresult

theorem modMulMu_iterate (e d : Nat) :
    (fun x => modMulMu x result q mu)^[d] (result ^ e % q) = result ^ (e + d) % q := by
  induction d with
  | zero => rfl
  | succ d ih =>
      rw [Function.iterate_succ_apply', ih,
        modMulMu_eq hne hq h60 (Nat.mod_lt _ (by omega)) hresult hmu,
        Nat.mod_mul_mod, ← pow_succ]
      rfl

theorem rootWalkStep_spec {w : RootWalk} {visited : List Nat} {next : Nat}
    (hx : w.x = result ^ w.curPowIdx % q)
    (hmin : IsLeast {r | exists i, i ∈ visited ∧ r = result ^ i % q} w.minRU)
    (hle : w.curPowIdx <= next) (hnext : next < 2 ^ maxBits) (hone : result ^ next % q ≠ 1) :
    (rootWalkStep result q mu w next).x = result ^ next % q ∧
      IsLeast {r | exists i, i ∈ visited ++ [next] ∧ r = result ^ i % q}
        (rootWalkStep result q mu w next).minRU := by
  have hpower : (fun x => modMulMu x result q mu)^[subFast next w.curPowIdx] w.x =
      result ^ next % q := by
    rw [hx, modMulMu_iterate hne hq h60 hmu hresult, subFast_eq hle hnext,
      Nat.add_sub_cancel' hle]
  unfold rootWalkStep
  dsimp only
  rw [hpower]
  refine ⟨rfl, ?_, ?_⟩
  · split
    next => exact ⟨next, List.mem_append_right _ (List.mem_singleton_self next), rfl⟩
    next =>
        rcases hmin.left with ⟨i, hi, heq⟩
        exact ⟨i, List.mem_append_left _ hi, heq⟩
  · intro r hr
    rcases hr with ⟨i, hi, rfl⟩
    rcases List.mem_append.mp hi with hold | hnew
    · have hlower := hmin.right ⟨i, hold, rfl⟩
      split
      next hlt => exact hlt.left.le.trans hlower
      next => exact hlower
    · rw [List.mem_singleton.mp hnew]
      split
      next => exact Nat.le_refl _
      next hge => exact Nat.le_of_not_lt fun hlt => hge ⟨hlt, hone⟩

theorem rootWalk_spec {rest : List Nat} (hword : forall i, i ∈ rest -> i < 2 ^ maxBits)
    (hone : forall i, i ∈ rest -> result ^ i % q ≠ 1) {w : RootWalk} {visited : List Nat}
    (hsorted : (w.curPowIdx :: rest).Pairwise (· <= ·))
    (hx : w.x = result ^ w.curPowIdx % q)
    (hmin : IsLeast {r | exists i, i ∈ visited ∧ r = result ^ i % q} w.minRU) :
    IsLeast {r | exists i, i ∈ visited ++ rest ∧ r = result ^ i % q}
      (rest.foldl (rootWalkStep result q mu) w).minRU := by
  induction rest generalizing w visited with
  | nil =>
      rw [List.append_nil]
      exact hmin
  | cons next rest ih =>
      rw [List.pairwise_cons] at hsorted
      rcases rootWalkStep_spec hne hq h60 hmu hresult hx hmin
        (hsorted.left next List.mem_cons_self) (hword next List.mem_cons_self)
        (hone next List.mem_cons_self) with ⟨hx', hmin'⟩
      have hrun := ih (fun i hi => hword i (List.mem_cons_of_mem next hi))
        (fun i hi => hone i (List.mem_cons_of_mem next hi)) hsorted.right hx' hmin'
      rw [List.append_assoc] at hrun
      exact hrun

end Walk

/-! ## The least primitive root -/

def rootsOfOrder (m q : Nat) : Set Nat := {r | r < q ∧ orderOf (r : ZMod q) = m}

theorem rootsOfOrder_eq_powers {m q result : Nat} (hq : q.Prime) (hm : 2 <= m)
    (hresult : orderOf (result : ZMod q) = m) :
    {r | exists i, i ∈ [1] ++ getTotientList m ∧ r = result ^ i % q} = rootsOfOrder m q := by
  have : Fact q.Prime := ⟨hq⟩
  have : NeZero m := ⟨by omega⟩
  have hprimitive : IsPrimitiveRoot (result : ZMod q) m := by
    rw [← hresult]
    exact IsPrimitiveRoot.orderOf _
  have hmem (i : Nat) : i ∈ [1] ++ getTotientList m <-> i < m ∧ Nat.Coprime i m := by
    rw [List.mem_append, List.mem_singleton, mem_getTotientList]
    constructor
    · intro h
      rcases h with hone | h
      · rw [hone]
        exact ⟨hm, Nat.gcd_one_left m⟩
      · exact h.right
    · intro h
      refine Or.inr ⟨Nat.pos_of_ne_zero ?_, h⟩
      intro hzero
      have hcoprime := h.right
      rw [hzero, Nat.coprime_zero_left] at hcoprime
      omega
  ext r
  constructor
  · intro h
    rcases h with ⟨i, hi, rfl⟩
    refine ⟨Nat.mod_lt _ hq.pos, ?_⟩
    have hroot := hprimitive.pow_of_coprime i ((hmem i).mp hi).right
    rw [ZMod.natCast_mod, Nat.cast_pow]
    exact hroot.eq_orderOf.symm
  · intro h
    have hroot : IsPrimitiveRoot (r : ZMod q) m := by
      rw [← h.right]
      exact IsPrimitiveRoot.orderOf _
    rcases hprimitive.isPrimitiveRoot_iff.mp hroot with ⟨i, hlt, hcoprime, hpower⟩
    refine ⟨i, (hmem i).mpr ⟨hlt, hcoprime⟩, ?_⟩
    rw [← Nat.cast_pow, ZMod.natCast_eq_natCast_iff'] at hpower
    rw [hpower, Nat.mod_eq_of_lt h.left]

theorem orderOf_generator_pow {m q g : Nat} (hq : q.Prime) (hdvd : m ∣ q - 1)
    (hg : Generates q g) : orderOf ((g : ZMod q) ^ ((q - 1) / m)) = m := by
  have horder := (generates_iff_orderOf hq.pos hg.left).mp hg
  rw [Nat.totient_prime hq] at horder
  have hlt := hq.one_lt
  rw [← horder] at hdvd ⊢
  exact orderOf_pow_orderOf_div (by omega) hdvd

theorem rootOfUnity_least {m q gen : Nat} (hm : 2 <= m) (hq : q.Prime) (h60 : q < 2 ^ 60)
    (hdvd : m ∣ q - 1) {s s' : Prng} (h : findGenerator q s = some (gen, s'))
    (hprimes : s'.AcceptsPrimes) :
    exists r, rootOfUnity m q s = some (r, s') ∧ IsLeast (rootsOfOrder m q) r := by
  have hge := hq.two_le
  have hone : 1 < q := hq.one_lt
  have hword : q < 2 ^ maxBits := h60.trans (by decide)
  have hne : q ≠ 2 ^ 59 := by
    intro heq
    rw [heq] at hq
    exact Nat.Prime.not_prime_pow (by decide) hq
  rcases findGenerator_sound hq hword h hprimes with ⟨hpos, hle, hgen⟩
  have hqm1 : subFast q 1 = q - 1 := subFast_eq (by omega) hword
  have hmle : m <= q - 1 := Nat.le_of_dvd (by omega) hdvd
  rcases modExp_spec hq.one_lt hword (show gen < 2 ^ maxBits by omega)
    (Nat.lt_of_le_of_lt (Nat.div_le_self (q - 1) m) (by omega)) with ⟨result, hpower, hlt, hcast⟩
  have horder := orderOf_generator_pow hq hdvd hgen
  rw [← hcast] at horder
  have hpowers (i : Nat) (hi : i ∈ [1] ++ getTotientList m) : result ^ i % q ≠ 1 := by
    intro heq
    have hroot : result ^ i % q ∈ rootsOfOrder m q := by
      rw [← rootsOfOrder_eq_powers hq hm horder]
      exact ⟨i, hi, rfl⟩
    rw [heq] at hroot
    have hunit := hroot.right
    rw [Nat.cast_one, orderOf_one] at hunit
    omega
  have hresult : result ≠ 1 := by
    have h := hpowers 1 List.mem_cons_self
    rwa [pow_one, Nat.mod_eq_of_lt hlt] at h
  have hmu := computeMu_eq hne hone h60
  generalize 2 ^ (2 * getMSB q + 3) / q = mu at hmu
  have hstart : modMulMu 1 result q mu = result := by
    rw [modMulMu_eq hne hone h60 hone hlt hmu, Nat.one_mul,
      Nat.mod_eq_of_lt hlt]
  refine ⟨((getTotientList m).foldl (rootWalkStep result q mu) ⟨result, result, 1⟩).minRU, ?_, ?_⟩
  · unfold rootOfUnity rootOfUnityLoop
    rw [hqm1, if_neg (not_not.mpr (Nat.mod_eq_zero_of_dvd hdvd))]
    refine bind_eq_some.mpr ⟨gen, s', h, ?_⟩
    refine bind_eq_some.mpr ⟨result, s', ofOption_eq_some.mpr ⟨hpower, rfl⟩, ?_⟩
    rw [if_neg hresult]
    refine bind_eq_some.mpr ⟨result, s', rfl, ?_⟩
    refine bind_eq_some.mpr ⟨mu, s', ofOption_eq_some.mpr ⟨hmu, rfl⟩, ?_⟩
    rw [hstart]
    rfl
  · rw [← rootsOfOrder_eq_powers hq hm horder]
    apply rootWalk_spec hne hone h60 hmu hlt
    · intro i hi
      have := (mem_getTotientList.mp hi).right.left
      omega
    · intro i hi
      exact hpowers i (List.mem_append_right _ hi)
    · exact getTotientList_pairwise m
    · rw [pow_one, Nat.mod_eq_of_lt hlt]
    · constructor
      · exact ⟨1, List.mem_singleton_self 1, by rw [pow_one, Nat.mod_eq_of_lt hlt]⟩
      · intro r hr
        rcases hr with ⟨i, hi, rfl⟩
        rw [List.mem_singleton.mp hi, pow_one, Nat.mod_eq_of_lt hlt]

/-- Draws for which the primality test takes 25 for a prime, and then the number 32. -/
def liarDraws : List Nat := List.replicate 100 5 ++ [31]

end Core
end OpenFHE
