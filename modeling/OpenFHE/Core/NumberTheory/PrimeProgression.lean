import OpenFHE.Core.NumberTheory.IntegerType
import OpenFHE.Foundation.SequenceSearch
import Mathlib.Data.Nat.ModEq
import Mathlib.Data.Nat.Prime.Basic
import Mathlib.Order.Bounds.Basic

/-!
# Searches for primes of a residue class

The four searches step through the members of an arithmetic progression, with exact verdicts
on primality.  Native steps wrap at the word, steps down in big integers stop at zero.
-/

namespace OpenFHE
namespace Core

open Foundation NativeInteger

namespace IntType

section Searches

variable (T : IntType)

def tooLong (nBits : Nat) : Bool :=
  match T.maxModulusSize with
  | none => false
  | some limit => decide (nBits > limit)

/-- The exception of a bit length that the type does not hold. -/
def lengthFault (nBits : Nat) : RuntimeFault :=
  .thrown ("Requested bit length " ++ toString nBits ++ " exceeds maximum allowed length " ++
    toString (T.maxModulusSize.getD 0))

/-- `qNew += M`. -/
def grow (m c : Nat) : Nat := T.add c m

/-- `qNew -= M`. -/
def shrink (m c : Nat) : Nat := T.sub c m

def firstPrime (nBits m fuel : Nat) : Outcome Nat :=
  if T.tooLong nBits then .error (T.lengthFault nBits)
  else do
    let q := T.lShift 1 nBits
    let r <- T.mod q m
    let qNew := T.sub (T.add q 1) r
    search Nat.Prime (fun c => c < q) (T.grow m)
      (.thrown "Overflow growing candidate") fuel (if r > 0 then T.add qNew m else qNew)

def checkLength (nBits qNew : Nat) : Outcome Nat :=
  if T.getMSB qNew ≠ nBits then
    .error (.thrown ("Requested " ++ toString nBits ++ " bits, but returned " ++
      toString (T.getMSB qNew) ++ ". Please adjust parameters."))
  else .ok qNew

def lastPrime (nBits m fuel : Nat) : Outcome Nat :=
  if T.tooLong nBits then .error (T.lengthFault nBits)
  else do
    let q := T.lShift 1 nBits
    let r <- T.mod q m
    let qNew := T.sub (T.add q 1) r
    let qNew <- search Nat.Prime (fun c => q < c) (T.shrink m)
      (.thrown "overflow shrinking candidate") fuel (if r < 2 then T.sub qNew m else qNew)
    T.checkLength nBits qNew

def nextPrime (q m fuel : Nat) : Outcome Nat :=
  search Nat.Prime (fun c => c < q) (T.grow m)
    (.thrown "Overflow growing candidate") fuel (T.add q m)

def previousPrime (q m fuel : Nat) : Outcome Nat :=
  search Nat.Prime (fun c => q < c) (T.shrink m)
    (.thrown "Overflow shrinking candidate") fuel (T.sub q m)

end Searches

/-! ## What the searches owe -/

def PrimesAbove (q a m : Nat) : Set Nat := { p | p.Prime ∧ q < p ∧ p ≡ a [MOD m] }

def PrimesBelow (q a m : Nat) : Set Nat := { p | p.Prime ∧ p < q ∧ p ≡ a [MOD m] }

/-- A call that ends, by returning or by throwing. -/
def Ends (run : Nat -> Outcome Nat) : Prop :=
  exists fuel, (exists p, run fuel = .ok p) ∨ exists message, run fuel = .error (.thrown message)

variable (T : IntType)

def FirstRight (nBits m : Nat) : Prop := forall fuel p, T.firstPrime nBits m fuel = .ok p ->
  IsLeast (PrimesAbove (2 ^ nBits) 1 m) p

def LastRight (nBits m : Nat) : Prop :=
  Ends (T.lastPrime nBits m) ∧ forall fuel p, T.lastPrime nBits m fuel = .ok p ->
    IsGreatest (PrimesBelow (2 ^ nBits) 1 m) p ∧ Nat.size p = nBits

def NextRight (q m : Nat) : Prop := forall fuel p, T.nextPrime q m fuel = .ok p ->
  IsLeast (PrimesAbove q q m) p

def PreviousRight (q m : Nat) : Prop :=
  Ends (T.previousPrime q m) ∧ forall fuel p, T.previousPrime q m fuel = .ok p ->
    IsGreatest (PrimesBelow q q m) p

variable {T}

/-! ## Searches upwards -/

def bigUp (c0 m k : Nat) : Nat := c0 + k * m

/-- The members above `c0` as they wrap in words. -/
def nativeUp (c0 m k : Nat) : Nat := word (c0 + k * m)

theorem bigUp_zero (c0 m : Nat) : bigUp c0 m 0 = c0 := by
  rw [bigUp, Nat.zero_mul, Nat.add_zero]

theorem bigUp_succ (c0 m k : Nat) : bigUp c0 m (k + 1) = big.grow m (bigUp c0 m k) := by
  show c0 + (k + 1) * m = c0 + k * m + m
  rw [Nat.succ_mul, Nat.add_assoc]

theorem nativeUp_zero (c0 m : Nat) : nativeUp c0 m 0 = word c0 := by
  rw [nativeUp, Nat.zero_mul, Nat.add_zero]

theorem nativeUp_succ (c0 m k : Nat) :
    nativeUp c0 m (k + 1) = native.grow m (nativeUp c0 m k) := by
  show word (c0 + (k + 1) * m) = addFast (word (c0 + k * m)) m
  unfold addFast word
  rw [Nat.add_mod_mod, Nat.succ_mul, Nat.add_comm m, Nat.add_assoc]

section Up

variable {q a m c0 : Nat} (hlow : q < c0) (hhigh : c0 <= q + m) (hmod : c0 ≡ a [MOD m])

include hlow hhigh hmod

theorem mem_primesAbove {p : Nat} :
    p ∈ PrimesAbove q a m <-> p.Prime ∧ exists k, p = c0 + k * m := by
  constructor
  · rintro ⟨hp, hlt, hcong⟩
    have hpc : c0 ≡ p [MOD m] := hmod.trans hcong.symm
    have hle : c0 <= p := by
      by_contra hgt
      have hdvd := (Nat.modEq_iff_dvd' (not_le.mp hgt).le).mp hpc.symm
      have hstep := Nat.le_of_dvd (Nat.sub_pos_of_lt (not_le.mp hgt)) hdvd
      omega
    rcases (Nat.modEq_iff_dvd' hle).mp hpc with ⟨k, hk⟩
    refine ⟨hp, k, ?_⟩
    rw [Nat.mul_comm] at hk
    omega
  · rintro ⟨hp, k, rfl⟩
    refine ⟨hp, Nat.lt_of_lt_of_le hlow (Nat.le_add_right c0 _), ?_⟩
    have hstep : c0 + k * m ≡ c0 [MOD m] := Nat.add_mul_mod_self_right c0 k m
    exact hstep.trans hmod

/-- Without a word that wraps, the search returns the least prime. -/
theorem isLeast_of_reaches {w : Nat -> Nat} {k : Nat} (hk : w k = c0 + k * m)
    (hprime : (w k).Prime)
    (hw : forall i, (c0 + i * m).Prime -> i < k -> w i = c0 + i * m)
    (hreach : Reaches Nat.Prime (fun c => c < q) w k) : IsLeast (PrimesAbove q a m) (w k) := by
  constructor
  · exact (mem_primesAbove hlow hhigh hmod).mpr ⟨hprime, k, hk⟩
  · intro p hp
    rcases (mem_primesAbove hlow hhigh hmod).mp hp with ⟨hpprime, i, rfl⟩
    rw [hk]
    by_contra hlt
    have hik : i < k := by
      by_contra hge
      exact hlt (Nat.add_le_add_left (Nat.mul_le_mul_right m (not_lt.mp hge)) c0)
    have hnot := (hreach i hik).left
    rw [hw i hpprime hik] at hnot
    exact hnot hpprime

theorem search_big_up {e : RuntimeFault} {fuel p : Nat}
    (h : search Nat.Prime (fun c => c < q) (big.grow m) e fuel c0 = .ok p) :
    IsLeast (PrimesAbove q a m) p := by
  rw [← bigUp_zero c0 m] at h
  rcases search_eq_ok (bigUp_succ c0 m) h with ⟨k, rfl, hprime, hreach⟩
  exact isLeast_of_reaches hlow hhigh hmod rfl hprime (fun i _ _ => rfl) hreach

theorem search_big_up_ends {e : RuntimeFault} {p : Nat} (hp : p ∈ PrimesAbove q a m) :
    exists fuel p', search Nat.Prime (fun c => c < q) (big.grow m) e fuel c0 =
      .ok p' := by
  rcases (mem_primesAbove hlow hhigh hmod).mp hp with ⟨hprime, i, rfl⟩
  have hexists : exists k, (bigUp c0 m k).Prime := ⟨i, hprime⟩
  rcases exists_least hexists with ⟨k, hk, hleast⟩
  have hreach : Reaches Nat.Prime (fun c => c < q) (bigUp c0 m) k := by
    intro j hj
    refine ⟨hleast j hj, not_lt.mpr ?_⟩
    exact (Nat.lt_of_lt_of_le hlow (Nat.le_add_right c0 _)).le
  have hrun := search_returns (e := e) (bigUp_succ c0 m) hreach hk 0
  rw [bigUp_zero] at hrun
  exact ⟨_, _, hrun⟩

/-- In words the search is right when the prime is a word, or the wrapped progression falls
below the start before it comes to a prime. -/
theorem search_native_up {e : RuntimeFault} :
    (forall fuel p, search Nat.Prime (fun c => c < q) (native.grow m) e fuel
        (word c0) = .ok p -> IsLeast (PrimesAbove q a m) p) <->
      (exists p, p ∈ PrimesAbove q a m ∧ p < 2 ^ maxBits) ∨
        forall k, (nativeUp c0 m k).Prime ->
          exists j, 0 < j ∧ j <= k ∧ nativeUp c0 m j < q := by
  constructor
  · intro hright
    by_contra hnone
    rcases not_or.mp hnone with ⟨hword, hwrap⟩
    push Not at hwrap
    rcases hwrap with ⟨k, hk, habove⟩
    rcases exists_least (P := fun k => (nativeUp c0 m k).Prime) ⟨k, hk⟩ with ⟨i, hi, hleast⟩
    have hik : i <= k := by
      by_contra hgt
      exact hleast k (not_le.mp hgt) hk
    have hreach : Reaches Nat.Prime (fun c => c < q) (nativeUp c0 m) i := by
      intro j hj
      exact ⟨hleast j hj, not_lt.mpr (habove (j + 1) (Nat.succ_pos j) (by omega))⟩
    have hrun := search_returns (e := e) (nativeUp_succ c0 m) hreach hi 0
    rw [nativeUp_zero] at hrun
    exact hword ⟨_, (hright _ _ hrun).left, word_lt _⟩
  · intro hcond fuel p h
    rw [← nativeUp_zero c0 m] at h
    rcases search_eq_ok (nativeUp_succ c0 m) h with ⟨k, rfl, hprime, hreach⟩
    cases hcond with
    | inl hword =>
        rcases hword with ⟨y, hy, hlt⟩
        rcases (mem_primesAbove hlow hhigh hmod).mp hy with ⟨hyprime, i, rfl⟩
        have hexact (j : Nat) (hj : j <= i) : nativeUp c0 m j = c0 + j * m := by
          have hle := Nat.mul_le_mul_right m hj
          exact word_eq (by omega)
        have hki : k <= i := by
          by_contra hgt
          have hnot := (hreach i (not_le.mp hgt)).left
          rw [hexact i (Nat.le_refl i)] at hnot
          exact hnot hyprime
        exact isLeast_of_reaches hlow hhigh hmod (hexact k hki) hprime
          (fun j _ hj => hexact j (by omega)) hreach
    | inr hfalls =>
        rcases hfalls k hprime with ⟨j, hpos, hjk, hbelow⟩
        have hnot := (hreach (j - 1) (by omega)).right
        rw [Nat.sub_add_cancel hpos] at hnot
        exact absurd hbelow hnot

end Up

/-! ## Searches downwards -/

/-- The members below `c0` in big integers, which stop at zero. -/
def bigDown (c0 m k : Nat) : Nat := c0 - k * m

/-- The members below `c0` as they wrap in words. -/
def nativeDown (c0 m k : Nat) : Nat := word (c0 + k * (2 ^ maxBits - m))

theorem bigDown_zero (c0 m : Nat) : bigDown c0 m 0 = c0 := by
  rw [bigDown, Nat.zero_mul, Nat.sub_zero]

theorem bigDown_succ (c0 m k : Nat) : bigDown c0 m (k + 1) = big.shrink m (bigDown c0 m k) := by
  show c0 - (k + 1) * m = c0 - k * m - m
  rw [Nat.succ_mul, Nat.sub_sub]

theorem nativeDown_zero (c0 m : Nat) : nativeDown c0 m 0 = word c0 := by
  rw [nativeDown, Nat.zero_mul, Nat.add_zero]

theorem nativeDown_succ {m : Nat} (hm : m < 2 ^ maxBits) (c0 k : Nat) :
    nativeDown c0 m (k + 1) = native.shrink m (nativeDown c0 m k) := by
  show word (c0 + (k + 1) * (2 ^ maxBits - m)) = subFast (word (c0 + k * (2 ^ maxBits - m))) m
  unfold subFast
  rw [word_eq hm]
  unfold word
  rw [Nat.mod_add_mod, Nat.succ_mul, Nat.add_assoc]

theorem nativeDown_eq {c0 m k : Nat} (hm : m < 2 ^ maxBits) (hc0 : c0 < 2 ^ maxBits)
    (hk : k * m <= c0) : nativeDown c0 m k = c0 - k * m := by
  have hsplit : c0 + k * (2 ^ maxBits - m) = c0 - k * m + 2 ^ maxBits * k := by
    rw [Nat.mul_sub, Nat.mul_comm (2 ^ maxBits) k]
    have hle := Nat.mul_le_mul_left k hm.le
    omega
  unfold nativeDown word
  rw [hsplit, Nat.add_mul_mod_self_left, Nat.mod_eq_of_lt (by omega)]

theorem ends_search {w next : Nat -> Nat} (hw : forall k, w (k + 1) = next (w k)) {q : Nat}
    (message : String) (h : exists k, (w k).Prime ∨ q < w (k + 1)) :
    Ends fun fuel =>
      search Nat.Prime (fun c => q < c) next (.thrown message) fuel (w 0) := by
  have hstops : exists fuel,
      (exists p, search Nat.Prime (fun c => q < c) next (.thrown message) fuel (w 0) = .ok p) ∨
        search Nat.Prime (fun c => q < c) next (.thrown message) fuel (w 0) =
          .error (.thrown message) := search_stops hw h
  rcases hstops with ⟨fuel, hok | hthrown⟩
  · exact ⟨fuel, Or.inl hok⟩
  · exact ⟨fuel, Or.inr ⟨message, hthrown⟩⟩

/-- The indices in `G` run down through the primes of `D`, from `q` or below. -/
structure Descent (w next : Nat -> Nat) (G : Nat -> Prop) (q : Nat) (D : Set Nat) : Prop where
  step (k : Nat) : w (k + 1) = next (w k)
  down {j k : Nat} (hk : G k) (hj : j <= k) : G j
  mono {j k : Nat} (hk : G k) (hj : j <= k) : w k <= w j
  good {k : Nat} (hk : G k) : w k <= q
  mem (p : Nat) : p ∈ D <-> p.Prime ∧ exists k, G k ∧ p = w k

namespace Descent

variable {w next : Nat -> Nat} {G : Nat -> Prop} {q : Nat} {D : Set Nat} {e : RuntimeFault}
  (h : Descent w next G q D)

include h

theorem isGreatest {y : Nat} (hy : y ∈ D) {fuel p : Nat}
    (hok : search Nat.Prime (fun c => q < c) next e fuel (w 0) = .ok p) : IsGreatest D p := by
  rcases search_eq_ok h.step hok with ⟨k, rfl, hprime, hreach⟩
  have hfirst {x : Nat} (hx : x ∈ D) : exists i, G i ∧ x = w i ∧ k <= i := by
    rcases (h.mem x).mp hx with ⟨hxprime, i, hi, rfl⟩
    refine ⟨i, hi, rfl, ?_⟩
    by_contra hlt
    exact (hreach i (not_le.mp hlt)).left hxprime
  constructor
  · rcases hfirst hy with ⟨i, hi, _, hki⟩
    exact (h.mem _).mpr ⟨hprime, k, h.down hi hki, rfl⟩
  · intro x hx
    rcases hfirst hx with ⟨i, hi, rfl, hki⟩
    exact h.mono hi hki

theorem returns {y : Nat} (hy : y ∈ D) :
    exists fuel p, search Nat.Prime (fun c => q < c) next e fuel (w 0) = .ok p := by
  rcases (h.mem y).mp hy with ⟨hprime, i, hi, rfl⟩
  rcases exists_least (P := fun k => (w k).Prime) ⟨i, hprime⟩ with ⟨k, hk, hleast⟩
  have hki : k <= i := by
    by_contra hgt
    exact hleast i (not_le.mp hgt) hprime
  have hreach : Reaches Nat.Prime (fun c => q < c) w k := by
    intro j hj
    exact ⟨hleast j hj, not_lt.mpr (h.good (h.down hi (by omega)))⟩
  exact ⟨_, _, search_returns (e := e) h.step hreach hk 0⟩

end Descent

section Down

variable {c0 m q : Nat} {D : Set Nat} (hc0 : c0 <= q)
  (hD : forall p, p ∈ D <-> p.Prime ∧ exists k, p + k * m = c0)

include hc0 hD

theorem bigDescent : Descent (bigDown c0 m) (big.shrink m) (fun k => k * m <= c0) q D := by
  constructor
  case step => exact bigDown_succ c0 m
  case down =>
    intro j k hk hj
    exact (Nat.mul_le_mul_right m hj).trans hk
  case mono =>
    intro j k _ hj
    exact Nat.sub_le_sub_left (Nat.mul_le_mul_right m hj) c0
  case good =>
    intro k _
    exact (Nat.sub_le c0 _).trans hc0
  case mem =>
    intro p
    rw [hD p]
    constructor
    · rintro ⟨hp, k, hk⟩
      refine ⟨hp, k, by omega, ?_⟩
      unfold bigDown
      omega
    · rintro ⟨hp, k, hk, rfl⟩
      refine ⟨hp, k, ?_⟩
      unfold bigDown
      omega

theorem nativeDescent (hm : m < 2 ^ maxBits) (hq : q < 2 ^ maxBits) :
    Descent (nativeDown c0 m) (native.shrink m) (fun k => k * m <= c0) q D := by
  have hexact {k : Nat} (hk : k * m <= c0) := nativeDown_eq hm (hc0.trans_lt hq) hk
  constructor
  case step => exact nativeDown_succ hm c0
  case down =>
    intro j k hk hj
    exact (Nat.mul_le_mul_right m hj).trans hk
  case mono =>
    intro j k hk hj
    have hle := Nat.mul_le_mul_right m hj
    rw [hexact hk, hexact (hle.trans hk)]
    exact Nat.sub_le_sub_left hle c0
  case good =>
    intro k hk
    rw [hexact hk]
    exact (Nat.sub_le c0 _).trans hc0
  case mem =>
    intro p
    rw [hD p]
    constructor
    · rintro ⟨hp, k, hk⟩
      have hle : k * m <= c0 := by omega
      refine ⟨hp, k, hle, ?_⟩
      rw [hexact hle]
      omega
    · rintro ⟨hp, k, hk, rfl⟩
      refine ⟨hp, k, ?_⟩
      rw [hexact hk]
      omega

theorem search_big_down_running {e : RuntimeFault} (hnone : forall p, p ∉ D) (fuel : Nat) :
    search Nat.Prime (fun c => q < c) (big.shrink m) e fuel c0 = .error .running := by
  rw [← bigDown_zero c0 m]
  apply search_running (bigDown_succ c0 m)
  intro k j _
  constructor
  · intro hprime
    have hpos := hprime.pos
    refine hnone _ ((hD _).mpr ⟨hprime, j, ?_⟩)
    unfold bigDown at hpos ⊢
    omega
  · exact not_lt.mpr ((Nat.sub_le c0 _).trans hc0)

end Down

/-! ## `NextPrime` and `FirstPrime` -/

theorem nextPrime_native_iff {q m : Nat} (hm : 1 <= m) :
    NextRight native q m <->
      (exists p, p ∈ PrimesAbove q q m ∧ p < 2 ^ maxBits) ∨
        forall k, (nativeUp (q + m) m k).Prime ->
          exists j, 0 < j ∧ j <= k ∧ nativeUp (q + m) m j < q := by
  rw [← search_native_up (e := .thrown "Overflow growing candidate") (show q < q + m by omega)
    (Nat.le_refl _) (Nat.add_modEq_right)]
  have hstart : native.add q m = word (q + m) := congrArg word (Nat.add_comm m q)
  unfold NextRight nextPrime
  rw [hstart]

theorem nextPrime_big {q m : Nat} (hm : 1 <= m) : NextRight big q m := by
  intro fuel p h
  exact search_big_up (show q < q + m by omega) (Nat.le_refl _) Nat.add_modEq_right h

def firstMember (q m : Nat) : Nat := q + 1 - q % m + if q % m > 0 then m else 0

theorem start_modEq (q m : Nat) : q + 1 - q % m ≡ 1 [MOD m] := by
  rw [Nat.sub_add_comm (Nat.mod_le q m)]
  have hzero := (Nat.modEq_zero_iff_dvd.mpr (Nat.dvd_sub_mod (n := m) q)).add_right 1
  rwa [Nat.zero_add] at hzero

section First

variable {q m : Nat} (hm : 1 <= m)

include hm

theorem firstMember_spec :
    q < firstMember q m ∧ firstMember q m <= q + m ∧ firstMember q m ≡ 1 [MOD m] := by
  have hlt := Nat.mod_lt q hm
  have hle := Nat.mod_le q m
  have hone := start_modEq q m
  unfold firstMember
  split
  next hpos =>
      refine ⟨by omega, by omega, ?_⟩
      exact Nat.add_modEq_right.trans hone
  next hzero => exact ⟨by omega, by omega, hone⟩

end First

theorem lShift_native {nBits : Nat} (hbits : nBits <= 60) : native.lShift 1 nBits = 2 ^ nBits := by
  have hshift : usshort nBits = nBits := Nat.mod_eq_of_lt (by omega)
  have hword : (2 : Nat) ^ nBits < 2 ^ maxBits :=
    Nat.pow_lt_pow_right (by decide) (Nat.lt_of_le_of_lt hbits (by decide))
  show word (1 <<< usshort nBits) = 2 ^ nBits
  rw [hshift, Nat.one_shiftLeft, word_eq hword]

theorem lShift_big (nBits : Nat) : big.lShift 1 nBits = 2 ^ usshort nBits :=
  Nat.one_shiftLeft (usshort nBits)

section FirstPrime

variable {nBits m : Nat} (hm : 1 <= m)

include hm

theorem firstPrime_native_run (hbits : nBits <= 60) (fuel : Nat) :
    native.firstPrime nBits m fuel =
      search Nat.Prime (fun c => c < 2 ^ nBits) (native.grow m)
        (.thrown "Overflow growing candidate") fuel (word (firstMember (2 ^ nBits) m)) := by
  have hlong : native.tooLong nBits = false := decide_eq_false (by omega)
  have hword : (2 : Nat) ^ nBits <= 2 ^ 60 := Nat.pow_le_pow_right (by decide) hbits
  have hmax : (2 : Nat) ^ 60 + 1 < 2 ^ maxBits := by decide
  have hle := Nat.mod_le (2 ^ nBits) m
  have hmember : (if 2 ^ nBits % m > 0
      then native.add (native.sub (native.add (2 ^ nBits) 1) (2 ^ nBits % m)) m
      else native.sub (native.add (2 ^ nBits) 1) (2 ^ nBits % m)) =
      word (firstMember (2 ^ nBits) m) := by
    have hadd : native.add (2 ^ nBits) 1 = 2 ^ nBits + 1 := by
      show word (1 + 2 ^ nBits) = 2 ^ nBits + 1
      rw [Nat.add_comm, word_eq (by omega)]
    have hsub : native.sub (2 ^ nBits + 1) (2 ^ nBits % m) = 2 ^ nBits + 1 - 2 ^ nBits % m :=
      subFast_eq (by omega) (by omega)
    rw [hadd, hsub]
    unfold firstMember
    split
    next => exact congrArg word (Nat.add_comm m _)
    next =>
        show 2 ^ nBits + 1 - 2 ^ nBits % m = word (2 ^ nBits + 1 - 2 ^ nBits % m)
        rw [word_eq (by omega)]
  have hmod : native.mod (2 ^ nBits) m = .ok (2 ^ nBits % m) := if_neg (by omega)
  unfold firstPrime
  rw [if_neg (by rw [hlong]; decide), lShift_native hbits]
  dsimp only
  rw [hmod, ok_bind, hmember]

theorem firstPrime_native_iff (hbits : nBits <= 60) :
    FirstRight native nBits m <->
      (exists p, p ∈ PrimesAbove (2 ^ nBits) 1 m ∧ p < 2 ^ maxBits) ∨
        forall k, (nativeUp (firstMember (2 ^ nBits) m) m k).Prime ->
          exists j, 0 < j ∧ j <= k ∧ nativeUp (firstMember (2 ^ nBits) m) m j < 2 ^ nBits := by
  rcases firstMember_spec hm (q := 2 ^ nBits) with ⟨hlow, hhigh, hmod⟩
  rw [← search_native_up (e := .thrown "Overflow growing candidate") hlow hhigh hmod]
  unfold FirstRight
  simp only [firstPrime_native_run hm hbits]

theorem firstPrime_big_run (fuel : Nat) :
    big.firstPrime nBits m fuel =
      search Nat.Prime (fun c => c < 2 ^ usshort nBits) (big.grow m)
        (.thrown "Overflow growing candidate") fuel (firstMember (2 ^ usshort nBits) m) := by
  have hmod : big.mod (2 ^ usshort nBits) m = .ok (2 ^ usshort nBits % m) := if_neg (by omega)
  have hmember : (if 2 ^ usshort nBits % m > 0
      then big.add (big.sub (big.add (2 ^ usshort nBits) 1) (2 ^ usshort nBits % m)) m
      else big.sub (big.add (2 ^ usshort nBits) 1) (2 ^ usshort nBits % m)) =
      firstMember (2 ^ usshort nBits) m := by
    unfold firstMember
    split
    next => rfl
    next => rfl
  unfold firstPrime
  rw [if_neg (show ¬ big.tooLong nBits = true from Bool.false_ne_true), lShift_big]
  dsimp only
  rw [hmod, ok_bind, hmember]

theorem firstPrime_big_iff : FirstRight big nBits m <->
    forall p, p ∈ PrimesAbove (2 ^ usshort nBits) 1 m -> 2 ^ nBits < p := by
  rcases firstMember_spec hm (q := 2 ^ usshort nBits) with ⟨hlow, hhigh, hmod⟩
  have hle : (2 : Nat) ^ usshort nBits <= 2 ^ nBits :=
    Nat.pow_le_pow_right (by decide) (Nat.mod_le _ _)
  constructor
  · intro hright p hp
    rcases search_big_up_ends (e := .thrown "Overflow growing candidate") hlow hhigh hmod hp with
      ⟨fuel, p', hrun⟩
    have hleast := search_big_up hlow hhigh hmod hrun
    rw [← firstPrime_big_run hm] at hrun
    exact Nat.lt_of_lt_of_le (hright fuel p' hrun).left.right.left (hleast.right hp)
  · intro hgap fuel p hrun
    rw [firstPrime_big_run hm] at hrun
    rcases search_big_up hlow hhigh hmod hrun with ⟨hp, hleast⟩
    constructor
    · exact ⟨hp.left, hgap p hp, hp.right.right⟩
    · intro x hx
      exact hleast ⟨hx.left, Nat.lt_of_le_of_lt hle hx.right.left, hx.right.right⟩

end FirstPrime

/-! ## `PreviousPrime` -/

/-- The members below `q` as they wrap in words. -/
def nativeBelow (q m k : Nat) : Nat := nativeDown q m (k + 1)

section Previous

variable {q m : Nat} (hm : 1 <= m)

include hm

theorem mem_previous {p : Nat} :
    p ∈ PrimesBelow q q m <-> p.Prime ∧ exists k, p + (k + 1) * m = q := by
  constructor
  · rintro ⟨hp, hlt, hcong⟩
    rcases (Nat.modEq_iff_dvd' hlt.le).mp hcong with ⟨k, hk⟩
    have hpos : k ≠ 0 := by
      rintro rfl
      omega
    refine ⟨hp, k - 1, ?_⟩
    rw [Nat.sub_add_cancel (Nat.pos_of_ne_zero hpos), Nat.mul_comm]
    omega
  · rintro ⟨hp, k, rfl⟩
    have hstep : m <= (k + 1) * m := Nat.le_mul_of_pos_left m (Nat.succ_pos k)
    refine ⟨hp, by omega, ?_⟩
    exact (Nat.add_mul_mod_self_right p (k + 1) m).symm

theorem mem_previous_big (p : Nat) :
    p ∈ PrimesBelow q q m <-> p.Prime ∧ exists k, p + k * m = q - m := by
  rw [mem_previous hm]
  constructor
  · rintro ⟨hp, k, hk⟩
    rw [Nat.succ_mul] at hk
    exact ⟨hp, k, by omega⟩
  · rintro ⟨hp, k, hk⟩
    have hpos := hp.pos
    refine ⟨hp, k, ?_⟩
    rw [Nat.succ_mul]
    omega

theorem previousPrime_big_iff :
    PreviousRight big q m <-> exists p, p ∈ PrimesBelow q q m := by
  constructor
  · rintro ⟨⟨fuel, hends⟩, _⟩
    by_contra hnone
    have hrunning := search_big_down_running (e := .thrown "Overflow shrinking candidate")
      (Nat.sub_le q m) (mem_previous_big hm) (fun p hp => hnone ⟨p, hp⟩) fuel
    have hrun : big.previousPrime q m fuel = .error .running := hrunning
    rcases hends with ⟨p, hp⟩ | ⟨message, hthrown⟩
    · rw [hrun] at hp
      cases hp
    · rw [hrun] at hthrown
      cases hthrown
  · rintro ⟨y, hy⟩
    have hdescent := bigDescent (Nat.sub_le q m) (mem_previous_big hm)
    have hrun (fuel : Nat) : big.previousPrime q m fuel =
        search Nat.Prime (fun c => q < c) (big.shrink m) (.thrown "Overflow shrinking candidate")
          fuel (bigDown (q - m) m 0) := by
      rw [bigDown_zero]
      rfl
    constructor
    · rcases hdescent.returns (e := .thrown "Overflow shrinking candidate") hy with
        ⟨fuel, p, hp⟩
      exact ⟨fuel, Or.inl ⟨p, (hrun fuel).trans hp⟩⟩
    · intro fuel p hp
      rw [hrun] at hp
      exact hdescent.isGreatest hy hp

/-- The words below `q`, which wrap, and the primes among them. -/
theorem previousDescent (hm64 : m < 2 ^ maxBits) (hq : q < 2 ^ maxBits) :
    Descent (nativeBelow q m) (native.shrink m) (fun k => (k + 1) * m <= q) q
      (PrimesBelow q q m) := by
  have hexact {k : Nat} (hk : (k + 1) * m <= q) : nativeBelow q m k = q - (k + 1) * m :=
    nativeDown_eq hm64 hq hk
  constructor
  case step =>
    intro k
    exact nativeDown_succ hm64 q (k + 1)
  case down =>
    intro j k hk hj
    exact (Nat.mul_le_mul_right m (Nat.succ_le_succ hj)).trans hk
  case mono =>
    intro j k hk hj
    have hle := Nat.mul_le_mul_right m (Nat.succ_le_succ hj)
    rw [hexact hk, hexact (hle.trans hk)]
    exact Nat.sub_le_sub_left hle q
  case good =>
    intro k hk
    rw [hexact hk]
    exact Nat.sub_le q _
  case mem =>
    intro p
    rw [mem_previous hm]
    constructor
    · rintro ⟨hp, k, hk⟩
      have hle : (k + 1) * m <= q := by omega
      refine ⟨hp, k, hle, ?_⟩
      rw [hexact hle]
      omega
    · rintro ⟨hp, k, hk, rfl⟩
      refine ⟨hp, k, ?_⟩
      rw [hexact hk]
      omega

/-- Native integers are right when there is a prime below, or the wrapped progression rises
above the start before it comes to a prime. -/
theorem previousPrime_native_iff (hm64 : m < 2 ^ maxBits) (hq : q < 2 ^ maxBits) :
    PreviousRight native q m <->
      (exists p, p ∈ PrimesBelow q q m) ∨
        exists k, q < nativeBelow q m (k + 1) ∧ forall j, j <= k ->
          ¬ (nativeBelow q m j).Prime := by
  have hdescent := previousDescent hm hm64 hq
  have hrun (fuel : Nat) : native.previousPrime q m fuel =
      search Nat.Prime (fun c => q < c) (native.shrink m) (.thrown "Overflow shrinking candidate")
        fuel (nativeBelow q m 0) := by
    rw [nativeBelow, nativeDown_succ hm64, nativeDown_zero, word_eq hq]
    rfl
  constructor
  · rintro ⟨⟨fuel, hends⟩, hright⟩
    have hstops : native.previousPrime q m fuel ≠ .error .running := by
      intro hrunning
      rcases hends with ⟨p, hp⟩ | ⟨message, hthrown⟩
      · rw [hrunning] at hp
        cases hp
      · rw [hrunning] at hthrown
        cases hthrown
    rw [hrun] at hstops
    rcases search_ends hdescent.step hstops with ⟨k, hreach, ⟨_, hok⟩ | ⟨hk, hbad, _⟩⟩
    · exact Or.inl ⟨_, (hright fuel _ ((hrun fuel).trans hok)).left⟩
    · refine Or.inr ⟨k, hbad, ?_⟩
      intro j hj
      cases Nat.lt_or_eq_of_le hj with
      | inl hlt => exact (hreach j hlt).left
      | inr heq =>
          rw [heq]
          exact hk
  · rintro (⟨y, hy⟩ | hrises)
    · constructor
      · rcases hdescent.returns (e := .thrown "Overflow shrinking candidate") hy with
          ⟨fuel, p, hp⟩
        exact ⟨fuel, Or.inl ⟨p, (hrun fuel).trans hp⟩⟩
      · intro fuel p hp
        rw [hrun] at hp
        exact hdescent.isGreatest hy hp
    · rcases hrises with ⟨i, hi, hnone⟩
      rcases exists_least (P := fun k => q < nativeBelow q m (k + 1)) ⟨i, hi⟩ with
        ⟨k, hk, hleast⟩
      have hki : k <= i := by
        by_contra hgt
        exact hleast i (not_le.mp hgt) hi
      have hreach : Reaches Nat.Prime (fun c => q < c) (nativeBelow q m) k := by
        intro j hj
        exact ⟨hnone j (by omega), hleast j hj⟩
      constructor
      · have hthrow := search_throws (e := .thrown "Overflow shrinking candidate") hdescent.step
          hreach (hnone k hki) hk 0
        exact ⟨_, Or.inr ⟨_, (hrun _).trans hthrow⟩⟩
      · intro fuel p hp
        rw [hrun] at hp
        rcases search_eq_ok hdescent.step hp with ⟨j, rfl, hprime, hreached⟩
        have hjk : j <= k := by
          by_contra hgt
          exact (hreached k (not_le.mp hgt)).right hk
        exact absurd hprime (hnone j (by omega))

end Previous

end IntType
end Core
end OpenFHE
