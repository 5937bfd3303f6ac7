import OpenFHE.Core.NumberTheory.PrimeProgression

/-!
# The search of `LastPrime`

The start is the last member of the progression of one below a power of two.  Native integers
run out of members by a word that wraps above the start; a modulus close to the word wraps to
small numbers instead.  Big integers stay at zero.
-/

namespace OpenFHE
namespace Core

open Foundation NativeInteger

namespace IntType

/-! ## The last member -/

def PrimesUpTo (q m : Nat) : Set Nat := { p | p.Prime ∧ p <= q ∧ p ≡ 1 [MOD m] }

/-- The last member of the progression of one, with the adjustment by the remainder. -/
def lastMember (q m : Nat) : Nat :=
  if q % m < 2 then q + 1 - q % m - m else q + 1 - q % m

section LastMember

variable {q m : Nat} (hm : 1 <= m) (hq : q.Prime -> q = 2)

include hm

theorem lastMember_le (hpos : 1 <= q) : lastMember q m <= q := by
  unfold lastMember
  split
  next => omega
  next => omega

include hq

theorem mem_primesUpTo (p : Nat) :
    p ∈ PrimesUpTo q m <-> p.Prime ∧ exists k, p + k * m = lastMember q m := by
  have hdiv := Nat.div_add_mod q m
  have hrem := Nat.mod_lt q hm
  have hmul := Nat.mul_comm m (q / m)
  constructor
  · rintro ⟨hp, hle, hcong⟩
    refine ⟨hp, ?_⟩
    rcases (Nat.modEq_iff_dvd' hp.one_lt.le).mp hcong.symm with ⟨t, ht⟩
    rw [Nat.mul_comm] at ht
    have hone := hp.one_lt
    have hp' : p = 1 + t * m := by omega
    -- the member `p` is not above the last one
    have hlast : t * m <= q / m * m ∧ (q % m < 2 -> t * m + m <= q / m * m) := by
      have htq : t <= q / m := by
        by_contra hgt
        have hstep := Nat.mul_le_mul_right m (Nat.succ_le_of_lt (not_le.mp hgt))
        rw [Nat.succ_mul] at hstep
        omega
      refine ⟨Nat.mul_le_mul_right m htq, ?_⟩
      intro hsmall
      have hlt : t < q / m := by
        refine Nat.lt_of_le_of_ne htq ?_
        rintro rfl
        have hpq : p = q := by omega
        have htwo := hq (hpq ▸ hp)
        have hmone : m ∣ 1 := ⟨q / m, by omega⟩
        rw [Nat.dvd_one.mp hmone, Nat.mod_one] at hrem hdiv hsmall
        rw [Nat.dvd_one.mp hmone] at hp'
        omega
      have hstep := Nat.mul_le_mul_right m (Nat.succ_le_of_lt hlt)
      rwa [Nat.succ_mul] at hstep
    unfold lastMember
    split
    next hsmall =>
        refine ⟨q / m - 1 - t, ?_⟩
        have hnext := hlast.right hsmall
        have hge : t + 1 <= q / m := by
          by_contra hlt
          have hstep := Nat.mul_le_mul_right m (show q / m <= t by omega)
          omega
        rw [Nat.sub_mul, Nat.sub_mul, Nat.one_mul]
        omega
    next hlarge =>
        refine ⟨q / m - t, ?_⟩
        rw [Nat.sub_mul]
        omega
  · rintro ⟨hp, k, hk⟩
    have hone := hp.one_lt
    have hle := lastMember_le hm (show 1 <= q by
      by_contra hzero
      have hq0 : q = 0 := by omega
      have hlast : lastMember q m <= 1 := by
        unfold lastMember
        rw [hq0, Nat.zero_mod]
        split
        next => omega
        next => omega
      omega)
    refine ⟨hp, by omega, ?_⟩
    have hmember : lastMember q m ≡ 1 [MOD m] := by
      have hstart := start_modEq q m
      have hpositive : 0 < lastMember q m := by omega
      unfold lastMember at hpositive ⊢
      split
      next hsmall =>
          rw [if_pos hsmall] at hpositive
          have hback : q + 1 - q % m - m + m = q + 1 - q % m := Nat.sub_add_cancel (by omega)
          rw [← hback] at hstart
          exact Nat.add_modEq_right.symm.trans hstart
      next => exact hstart
    rw [← hk] at hmember
    have hback : p + k * m ≡ p [MOD m] := Nat.add_mul_mod_self_right p k m
    exact hback.symm.trans hmember

end LastMember

/-! ## The check of the length -/

section Check

variable {T : IntType} (hmsb : forall a, T.getMSB a = Nat.size a) {nBits : Nat}

include hmsb

theorem checkLength_ok {run : Outcome Nat} {p : Nat} :
    (run >>= T.checkLength nBits) = .ok p <-> run = .ok p ∧ Nat.size p = nBits := by
  cases run with
  | error e =>
      constructor
      · intro h
        cases h
      · rintro ⟨h, _⟩
        cases h
  | ok x =>
      rw [ok_bind, checkLength, hmsb]
      split
      next hne =>
          constructor
          · intro h
            cases h
          · rintro ⟨h, hsize⟩
            cases h
            exact absurd hsize hne
      next heq =>
          constructor
          · intro h
            cases h
            exact ⟨rfl, not_not.mp heq⟩
          · intro h
            exact h.left

omit hmsb in
theorem ends_checkLength {run : Nat -> Outcome Nat} (h : Ends run) :
    Ends fun fuel => run fuel >>= T.checkLength nBits := by
  rcases h with ⟨fuel, ⟨x, hx⟩ | ⟨message, hthrown⟩⟩
  · refine ⟨fuel, ?_⟩
    dsimp only
    rw [hx, ok_bind, checkLength]
    split
    next => exact Or.inr ⟨_, rfl⟩
    next => exact Or.inl ⟨x, rfl⟩
  · refine ⟨fuel, Or.inr ⟨message, ?_⟩⟩
    dsimp only
    rw [hthrown]
    rfl

end Check

theorem isGreatest_below {nBits b m p : Nat} (hb : b = nBits ∨ b + 1 < nBits)
    (h : IsGreatest (PrimesUpTo (2 ^ b) m) p) (hsize : Nat.size p = nBits) :
    IsGreatest (PrimesBelow (2 ^ nBits) 1 m) p := by
  have hlow : nBits <= b + 1 := by
    rw [← hsize]
    apply Nat.size_le.mpr
    exact Nat.lt_of_le_of_lt h.left.right.left (Nat.pow_lt_pow_right (by decide) (by omega))
  have heq : b = nBits := hb.resolve_right (by omega)
  have hlt : p < 2 ^ nBits := by
    rw [← hsize]
    exact Nat.lt_size_self p
  constructor
  · exact ⟨h.left.left, hlt, h.left.right.right⟩
  · intro x hx
    refine h.right ⟨hx.left, ?_, hx.right.right⟩
    rw [heq]
    exact hx.right.left.le

theorem lastRight_of_descent {T : IntType} (hmsb : forall a, T.getMSB a = Nat.size a)
    {nBits b m : Nat} (hb : b = nBits ∨ b + 1 < nBits) {w next : Nat -> Nat} {G : Nat -> Prop}
    {message : String} (h : Descent w next G (2 ^ b) (PrimesUpTo (2 ^ b) m))
    (hrun : forall fuel, T.lastPrime nBits m fuel =
      search Nat.Prime (fun c => 2 ^ b < c) next (.thrown message) fuel (w 0) >>=
        T.checkLength nBits)
    {y : Nat} (hy : y ∈ PrimesUpTo (2 ^ b) m) : LastRight T nBits m := by
  unfold LastRight
  rw [funext hrun]
  constructor
  · rcases h.returns (e := .thrown message) hy with ⟨fuel, p, hp⟩
    exact ends_checkLength ⟨fuel, Or.inl ⟨p, hp⟩⟩
  · intro fuel p hp
    rcases (checkLength_ok hmsb).mp hp with ⟨hsearch, hsize⟩
    exact ⟨isGreatest_below hb (h.isGreatest hy hsearch) hsize, hsize⟩

theorem two_of_prime_pow {b : Nat} (h : (2 ^ b).Prime) : 2 ^ b = 2 :=
  ((Nat.prime_dvd_prime_iff_eq Nat.prime_two h).mp
    (dvd_pow_self 2 (by
      rintro rfl
      exact Nat.not_prime_one h))).symm

/-! ## The search -/

section LastPrime

variable {nBits m : Nat} (hm : 1 <= m)

include hm

theorem lastPrime_big_run (fuel : Nat) :
    big.lastPrime nBits m fuel =
      search Nat.Prime (fun c => 2 ^ usshort nBits < c) (big.shrink m)
        (.thrown "overflow shrinking candidate") fuel
        (bigDown (lastMember (2 ^ usshort nBits) m) m 0) >>= big.checkLength nBits := by
  have hmod : big.mod (2 ^ usshort nBits) m = .ok (2 ^ usshort nBits % m) := if_neg (by omega)
  unfold lastPrime
  rw [if_neg (show ¬ big.tooLong nBits = true from Bool.false_ne_true), lShift_big]
  dsimp only
  rw [hmod, ok_bind, bigDown_zero]
  rfl

theorem lastPrime_big_iff (hbits : 2 <= nBits) :
    LastRight big nBits m <-> exists p, p ∈ PrimesUpTo (2 ^ usshort nBits) m := by
  have hle := lastMember_le hm (Nat.one_le_two_pow (n := usshort nBits))
  have hmem := mem_primesUpTo hm (q := 2 ^ usshort nBits) two_of_prime_pow
  constructor
  · rintro ⟨⟨fuel, hends⟩, _⟩
    by_contra hnone
    have hrunning := search_big_down_running (e := .thrown "overflow shrinking candidate")
      hle hmem (fun p hp => hnone ⟨p, hp⟩) fuel
    have hrun : big.lastPrime nBits m fuel = .error .running := by
      rw [lastPrime_big_run hm, bigDown_zero, hrunning]
      rfl
    rcases hends with ⟨p, hp⟩ | ⟨message, hthrown⟩
    · rw [hrun] at hp
      cases hp
    · rw [hrun] at hthrown
      cases hthrown
  · rintro ⟨y, hy⟩
    have hshort : usshort nBits = nBits ∨ usshort nBits + 1 < nBits := by
      unfold usshort
      omega
    exact lastRight_of_descent BigInteger.getMSB_eq_size hshort (bigDescent hle hmem)
      (lastPrime_big_run hm) hy

section Native

variable (hbits : 2 <= nBits) (hbits60 : nBits <= 60)

include hbits hbits60

theorem lastPrime_native_run (fuel : Nat) :
    native.lastPrime nBits m fuel =
      search Nat.Prime (fun c => 2 ^ nBits < c) (native.shrink m)
        (.thrown "overflow shrinking candidate") fuel
        (nativeDown (lastMember (2 ^ nBits) m) m 0) >>= native.checkLength nBits := by
  have hlong : native.tooLong nBits = false := decide_eq_false (by omega)
  have hword : (2 : Nat) ^ nBits <= 2 ^ 60 := Nat.pow_le_pow_right (by decide) hbits60
  have hfour : (2 : Nat) ^ 2 <= 2 ^ nBits := Nat.pow_le_pow_right (by decide) hbits
  have hmax : (2 : Nat) ^ 60 + 1 < 2 ^ maxBits := by decide
  have hle := Nat.mod_le (2 ^ nBits) m
  have hlast := lastMember_le hm (Nat.one_le_two_pow (n := nBits))
  have hadd : native.add (2 ^ nBits) 1 = 2 ^ nBits + 1 := by
    show word (1 + 2 ^ nBits) = 2 ^ nBits + 1
    rw [Nat.add_comm, word_eq (by omega)]
  have hsub : native.sub (2 ^ nBits + 1) (2 ^ nBits % m) = 2 ^ nBits + 1 - 2 ^ nBits % m :=
    subFast_eq (by omega) (by omega)
  have hmember : (if 2 ^ nBits % m < 2
      then native.sub (native.sub (native.add (2 ^ nBits) 1) (2 ^ nBits % m)) m
      else native.sub (native.add (2 ^ nBits) 1) (2 ^ nBits % m)) =
      nativeDown (lastMember (2 ^ nBits) m) m 0 := by
    rw [hadd, hsub, nativeDown_zero, word_eq (by omega)]
    unfold lastMember
    split
    next hsmall =>
        have hmle : m <= 2 ^ nBits := by
          by_contra hgt
          rw [Nat.mod_eq_of_lt (not_le.mp hgt)] at hsmall
          omega
        exact subFast_eq (by omega) (by omega)
    next => rfl
  have hmod : native.mod (2 ^ nBits) m = .ok (2 ^ nBits % m) := if_neg (by omega)
  unfold lastPrime
  rw [if_neg (by rw [hlong]; decide), lShift_native hbits60]
  dsimp only
  rw [hmod, ok_bind, hmember]

/-- With a modulus up to the start, the progression ends at a wrapped word above it. -/
theorem lastPrime_native_small (hle : m <= 2 ^ nBits) : LastRight native nBits m := by
  have hword : (2 : Nat) ^ nBits <= 2 ^ 60 := Nat.pow_le_pow_right (by decide) hbits60
  have hmax : (2 : Nat) ^ 60 + 2 ^ 60 < 2 ^ maxBits := by decide
  have hlast := lastMember_le hm (Nat.one_le_two_pow (n := nBits))
  have hdescent := nativeDescent hlast (mem_primesUpTo hm two_of_prime_pow)
    (show m < 2 ^ maxBits by omega) (show 2 ^ nBits < 2 ^ maxBits by omega)
  have hrun := lastPrime_native_run hm hbits hbits60
  by_cases hexists : exists y, y ∈ PrimesUpTo (2 ^ nBits) m
  · rcases hexists with ⟨y, hy⟩
    exact lastRight_of_descent BigInteger.getMSB_eq_size (Or.inl rfl) hdescent hrun hy
  · -- the step below the last member is thrown
    have hrest := Nat.mod_lt (lastMember (2 ^ nBits) m) hm
    have hdiv := Nat.div_add_mod' (lastMember (2 ^ nBits) m) m
    have hwrap : 2 ^ nBits < nativeDown (lastMember (2 ^ nBits) m) m
        (lastMember (2 ^ nBits) m / m + 1) := by
      have hbase := nativeDown_eq (show m < 2 ^ maxBits by omega)
        (show lastMember (2 ^ nBits) m < 2 ^ maxBits by omega) (Nat.div_mul_le_self _ m)
      rw [nativeDown_succ (show m < 2 ^ maxBits by omega), hbase]
      show 2 ^ nBits < subFast (lastMember (2 ^ nBits) m - lastMember (2 ^ nBits) m / m * m) m
      unfold subFast
      rw [word_eq (show m < 2 ^ maxBits by omega), word_eq (by omega)]
      omega
    unfold LastRight
    rw [funext hrun]
    constructor
    · exact ends_checkLength (ends_search hdescent.step _ ⟨_, Or.inr hwrap⟩)
    · intro fuel p hp
      have hsearch := ((checkLength_ok BigInteger.getMSB_eq_size).mp hp).left
      rcases search_eq_ok hdescent.step hsearch with ⟨k, rfl, hprime, hreach⟩
      have hk : k <= lastMember (2 ^ nBits) m / m := by
        by_contra hgt
        exact (hreach _ (not_le.mp hgt)).right hwrap
      have hgood := (Nat.mul_le_mul_right m hk).trans (Nat.div_mul_le_self _ m)
      exact absurd ⟨_, (hdescent.mem _).mpr ⟨hprime, k, hgood, rfl⟩⟩ hexists

omit hm hbits60 in
theorem lastMember_large (hgt : 2 ^ nBits < m) : lastMember (2 ^ nBits) m = 1 := by
  have hfour : (2 : Nat) ^ 2 <= 2 ^ nBits := Nat.pow_le_pow_right (by decide) hbits
  unfold lastMember
  rw [Nat.mod_eq_of_lt hgt, if_neg (by omega)]
  omega

theorem lastPrime_native_large_run (hgt : 2 ^ nBits < m) (fuel : Nat) :
    native.lastPrime nBits m fuel =
      search Nat.Prime (fun c => 2 ^ nBits < c) (native.shrink m)
        (.thrown "overflow shrinking candidate") fuel (nativeDown 1 m 0) >>=
          native.checkLength nBits := by
  rw [lastPrime_native_run hm hbits hbits60, lastMember_large hbits hgt]

omit hm hbits hbits60 in
theorem nativeDown_one {k : Nat} (hgt : 2 ^ nBits < m) (hm64 : m < 2 ^ maxBits)
    (hk : k = 0 ∨ 1 + (k - 1) * (2 ^ maxBits - m) <= 2 ^ nBits) :
    nativeDown 1 m k = 1 + k * (2 ^ maxBits - m) := by
  apply word_eq
  cases k with
  | zero =>
      rw [Nat.zero_mul]
      decide
  | succ k =>
      have hle := hk.resolve_left (Nat.succ_ne_zero k)
      rw [Nat.succ_sub_one] at hle
      rw [Nat.succ_mul]
      omega

omit hm hbits hbits60 in
/-- The progression of one that the wrapped words run through. -/
theorem mem_wrapped {d p : Nat} (hp : p.Prime) (hmod : p ≡ 1 [MOD d]) :
    exists i, p = 1 + i * d := by
  rcases (Nat.modEq_iff_dvd' hp.one_lt.le).mp hmod.symm with ⟨i, hi⟩
  have hone := hp.one_lt
  rw [Nat.mul_comm] at hi
  exact ⟨i, by omega⟩

theorem lastPrime_native_large_iff (hgt : 2 ^ nBits < m) (hm64 : m < 2 ^ maxBits) :
    LastRight native nBits m <->
      forall p, IsLeast { p | p.Prime ∧ p ≡ 1 [MOD 2 ^ maxBits - m] } p ->
        Nat.size p ≠ nBits := by
  have hrun := lastPrime_native_large_run hm hbits hbits60 hgt
  have hstep := nativeDown_succ hm64 1
  have hexact {k : Nat} := nativeDown_one (k := k) hgt hm64
  have hd : 0 < 2 ^ maxBits - m := Nat.sub_pos_of_lt hm64
  generalize 2 ^ maxBits - m = d at hexact hd
  constructor
  · rintro ⟨_, hright⟩ p hleast hsize
    rcases hleast.left with ⟨hprime, hmod⟩
    rcases mem_wrapped hprime hmod with ⟨i, rfl⟩
    have hlt : 1 + i * d < 2 ^ nBits := by
      rw [← hsize]
      exact Nat.lt_size_self _
    have hbelow {j : Nat} (hj : j <= i) : nativeDown 1 m j = 1 + j * d := by
      refine hexact (Or.inr ?_)
      have hle := Nat.mul_le_mul_right d (show j - 1 <= i by omega)
      omega
    have hreach : Reaches Nat.Prime (fun c => 2 ^ nBits < c) (nativeDown 1 m) i := by
      intro j hj
      constructor
      · rw [hbelow hj.le]
        intro hjprime
        have hle := hleast.right ⟨hjprime, Nat.add_mul_mod_self_right 1 j d⟩
        have hlt := Nat.mul_lt_mul_of_pos_right hj hd
        omega
      · rw [hbelow (Nat.succ_le_of_lt hj)]
        have hle := Nat.mul_le_mul_right d (Nat.succ_le_of_lt hj)
        exact not_lt.mpr (by omega)
    have hreturn := search_returns (e := .thrown "overflow shrinking candidate") hstep hreach
      (by rwa [hbelow (Nat.le_refl i)]) 0
    have hok : native.lastPrime nBits m (0 + 1 + i) = .ok (1 + i * d) := by
      rw [hrun, hreturn, hbelow (Nat.le_refl i)]
      exact (checkLength_ok BigInteger.getMSB_eq_size).mpr ⟨rfl, hsize⟩
    have hcong : (1 + i * d) % m = 1 % m := (hright _ _ hok).left.left.right.right
    have hone := hprime.one_lt
    rw [Nat.mod_eq_of_lt (by omega), Nat.mod_eq_of_lt (by omega)] at hcong
    omega
  · intro hnone
    have hpos : 1 <= 2 ^ nBits := Nat.one_le_two_pow
    -- the first word above the start
    have hlast := Nat.div_mul_le_self (2 ^ nBits - 1) d
    have hnext : 2 ^ nBits - 1 < (2 ^ nBits - 1) / d * d + d := Nat.lt_div_mul_add hd
    generalize (2 ^ nBits - 1) / d = top at hlast hnext
    have habove : 2 ^ nBits < nativeDown 1 m (top + 1) := by
      rw [hexact (Or.inr (show 1 + (top + 1 - 1) * d <= 2 ^ nBits by
        rw [Nat.add_sub_cancel]
        omega)), Nat.succ_mul]
      omega
    unfold LastRight
    rw [funext hrun]
    constructor
    · exact ends_checkLength (ends_search hstep _ ⟨top, Or.inr habove⟩)
    · intro fuel p hp
      rcases (checkLength_ok BigInteger.getMSB_eq_size).mp hp with ⟨hsearch, hsize⟩
      rcases search_eq_ok hstep hsearch with ⟨k, rfl, hprime, hreach⟩
      have hktop : k <= top := by
        by_contra hgt
        exact (hreach top (not_le.mp hgt)).right habove
      have hbelow {j : Nat} (hj : j <= top) : nativeDown 1 m j = 1 + j * d := by
        refine hexact (Or.inr ?_)
        have hle := Nat.mul_le_mul_right d (show j - 1 <= top by omega)
        omega
      rw [hbelow hktop] at hprime hsize
      refine absurd hsize (hnone _ ⟨⟨hprime, Nat.add_mul_mod_self_right 1 k d⟩, ?_⟩)
      rintro x ⟨hxprime, hxmod⟩
      rcases mem_wrapped hxprime hxmod with ⟨i, rfl⟩
      by_contra hlt
      have hik : i < k := by
        by_contra hge
        exact hlt (Nat.add_le_add_left (Nat.mul_le_mul_right d (not_lt.mp hge)) 1)
      have hnot := (hreach i hik).left
      rw [hbelow (by omega)] at hnot
      exact hnot hxprime

end Native

end LastPrime

/-! ## Contract -/

/-- Exactly where the four searches are right, for both integer types. -/
structure PrimeSearches (nBits q m : Nat) : Prop where
  firstNative (hbits : 2 <= nBits) (hbits60 : nBits <= 60) :
    FirstRight native nBits m <->
      (exists p, p ∈ PrimesAbove (2 ^ nBits) 1 m ∧ p < 2 ^ maxBits) ∨
        forall k, (nativeUp (firstMember (2 ^ nBits) m) m k).Prime ->
          exists j, 0 < j ∧ j <= k ∧ nativeUp (firstMember (2 ^ nBits) m) m j < 2 ^ nBits
  firstBig (hbits : 2 <= nBits) :
    FirstRight big nBits m <-> forall p, p ∈ PrimesAbove (2 ^ usshort nBits) 1 m -> 2 ^ nBits < p
  lastNative (hbits : 2 <= nBits) (hbits60 : nBits <= 60) :
    LastRight native nBits m <-> m <= 2 ^ nBits ∨
      forall p, IsLeast { p | p.Prime ∧ p ≡ 1 [MOD 2 ^ maxBits - m] } p -> Nat.size p ≠ nBits
  lastBig (hbits : 2 <= nBits) :
    LastRight big nBits m <-> exists p, p ∈ PrimesUpTo (2 ^ usshort nBits) m
  nextNative (hq : q < 2 ^ maxBits) :
    NextRight native q m <->
      (exists p, p ∈ PrimesAbove q q m ∧ p < 2 ^ maxBits) ∨
        forall k, (nativeUp (q + m) m k).Prime ->
          exists j, 0 < j ∧ j <= k ∧ nativeUp (q + m) m j < q
  nextBig : NextRight big q m
  previousNative (hq : q < 2 ^ maxBits) :
    PreviousRight native q m <->
      (exists p, p ∈ PrimesBelow q q m) ∨
        exists k, q < nativeBelow q m (k + 1) ∧ forall j, j <= k -> ¬ (nativeBelow q m j).Prime
  previousBig : PreviousRight big q m <-> exists p, p ∈ PrimesBelow q q m

end IntType
end Core
end OpenFHE
