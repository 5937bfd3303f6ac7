import Mathlib.Data.Nat.Totient
import Mathlib.FieldTheory.Finite.Basic
import Mathlib.RingTheory.ZMod.UnitsCyclic
import Mathlib.Tactic.IntervalCases
import Mathlib.Tactic.NormNum.Prime

/-!
# Generators of the units

A number generates the units modulo `q` when every residue coprime to `q` is a power of
it.  It does so exactly when none of its powers by the cofactors of the primes in the order
of the group is one.
-/

namespace OpenFHE
namespace Foundation

/-- A unit modulo `q` whose powers are all units. -/
def Generates (q g : Nat) : Prop :=
  Nat.Coprime g q ∧ forall a, Nat.Coprime a q -> exists k, g ^ k ≡ a [MOD q]

/-- No power of `g` by a cofactor of the order of the group is one. -/
def PassesTests (q g : Nat) : Prop :=
  forall r, r ∈ (Nat.totient q).primeFactors -> (g : ZMod q) ^ (Nat.totient q / r) ≠ 1

theorem natCast_pow_totient {q g : Nat} (hg : Nat.Coprime g q) :
    (g : ZMod q) ^ Nat.totient q = 1 := by
  rw [← ZMod.coe_unitOfCoprime g hg, ← Units.val_pow_eq_pow_val, ZMod.pow_totient,
    Units.val_one]

theorem generates_iff_orderOf {q g : Nat} (hq : 0 < q) (hg : Nat.Coprime g q) :
    Generates q g <-> orderOf (g : ZMod q) = Nat.totient q := by
  have : NeZero q := ⟨hq.ne'⟩
  have hunit : orderOf (ZMod.unitOfCoprime g hg) = orderOf (g : ZMod q) := by
    rw [← orderOf_units, ZMod.coe_unitOfCoprime]
  have hpow (a : Nat) (ha : Nat.Coprime a q) (k : Nat) : g ^ k ≡ a [MOD q] <->
      ZMod.unitOfCoprime g hg ^ k = ZMod.unitOfCoprime a ha := by
    rw [← ZMod.natCast_eq_natCast_iff, Units.ext_iff, Units.val_pow_eq_pow_val,
      ZMod.coe_unitOfCoprime, ZMod.coe_unitOfCoprime, Nat.cast_pow]
  rw [← hunit, ← ZMod.card_units_eq_totient, ← Nat.card_eq_fintype_card]
  constructor
  · intro h
    apply orderOf_eq_card_of_forall_mem_zpowers
    intro u
    have hu := ZMod.val_coe_unit_coprime u
    rcases h.right _ hu with ⟨k, hk⟩
    rw [hpow _ hu] at hk
    refine ⟨k, ?_⟩
    dsimp only
    rw [zpow_natCast, hk]
    apply Units.ext
    rw [ZMod.coe_unitOfCoprime, ZMod.natCast_zmod_val]
  · intro h
    refine ⟨hg, ?_⟩
    intro a ha
    have htop := Subgroup.eq_top_of_card_eq (Subgroup.zpowers (ZMod.unitOfCoprime g hg))
      (by rw [Nat.card_zpowers, h])
    have hmem : ZMod.unitOfCoprime a ha ∈ Subgroup.zpowers (ZMod.unitOfCoprime g hg) := by
      rw [htop]
      exact Subgroup.mem_top _
    rcases mem_powers_iff_mem_zpowers.mpr hmem with ⟨k, hk⟩
    exact ⟨k, (hpow a ha k).mpr hk⟩

theorem generates_iff_passesTests {q g : Nat} (hq : 0 < q) (hg : Nat.Coprime g q) :
    Generates q g <-> PassesTests q g := by
  have hpos : 0 < Nat.totient q := Nat.totient_pos.mpr hq
  rw [generates_iff_orderOf hq hg]
  constructor
  · intro horder r hr
    have hprime := Nat.prime_of_mem_primeFactors hr
    have hdvd := Nat.dvd_of_mem_primeFactors hr
    apply pow_ne_one_of_lt_orderOf
    · exact (Nat.div_pos (Nat.le_of_dvd hpos hdvd) hprime.pos).ne'
    · rw [horder]
      exact Nat.div_lt_self hpos hprime.one_lt
  · intro htests
    apply orderOf_eq_of_pow_and_pow_div_prime hpos (natCast_pow_totient hg)
    intro r hr hdvd
    exact htests r (Nat.mem_primeFactors.mpr ⟨hr, hdvd, hpos.ne'⟩)

theorem passesTests_of_not_coprime {q g : Nat} (hq : 0 < q) (hg : ¬Nat.Coprime g q) :
    PassesTests q g := by
  intro r hr hone
  have hpos : 0 < Nat.totient q := Nat.totient_pos.mpr hq
  have hquot : Nat.totient q / r ≠ 0 :=
    (Nat.div_pos (Nat.le_of_dvd hpos (Nat.dvd_of_mem_primeFactors hr))
      (Nat.prime_of_mem_primeFactors hr).pos).ne'
  apply hg
  rw [← ZMod.isUnit_iff_coprime, ← isUnit_pow_iff hquot, hone]
  exact isUnit_one

theorem exists_generates {q : Nat} (hq : 0 < q) [IsCyclic (ZMod q)ˣ] :
    exists g, g < q ∧ Generates q g := by
  have : NeZero q := ⟨hq.ne'⟩
  have hgenerator : exists u : (ZMod q)ˣ, forall x, x ∈ Subgroup.zpowers u :=
    IsCyclic.exists_generator
  rcases hgenerator with ⟨u, hu⟩
  have hcoprime := ZMod.val_coe_unit_coprime u
  refine ⟨(u : ZMod q).val, ZMod.val_lt _, (generates_iff_orderOf hq hcoprime).mpr ?_⟩
  rw [ZMod.natCast_zmod_val, orderOf_units, orderOf_eq_card_of_forall_mem_zpowers hu,
    Nat.card_eq_fintype_card, ZMod.card_units_eq_totient]

/-! ## Change of the modulus -/

theorem Generates.congr {q x y : Nat} (h : Generates q x) (hxy : x ≡ y [MOD q]) :
    Generates q y := by
  constructor
  · exact (Nat.ModEq.gcd_eq hxy).symm.trans h.left
  · intro a ha
    rcases h.right a ha with ⟨k, hk⟩
    exact ⟨k, (hxy.pow k).symm.trans hk⟩

theorem coprime_two_mul {n x : Nat} (hx : x % 2 = 1) :
    Nat.Coprime x (2 * n) <-> Nat.Coprime x n := by
  rw [Nat.coprime_mul_iff_right]
  constructor
  · intro h
    exact h.right
  · intro h
    exact ⟨Nat.coprime_two_right.mpr (Nat.odd_iff.mpr hx), h⟩

theorem generates_two_mul_iff {n x : Nat} (hn : n % 2 = 1) (hx : x % 2 = 1) :
    Generates (2 * n) x <-> Generates n x := by
  have hcoprime : Nat.Coprime 2 n := Nat.coprime_two_left.mpr (Nat.odd_iff.mpr hn)
  constructor
  · intro h
    refine ⟨(coprime_two_mul hx).mp h.left, ?_⟩
    intro a ha
    -- the odd one of `a` and `a + n`
    have hodd : exists b, b % 2 = 1 ∧ b ≡ a [MOD n] := by
      rcases Nat.mod_two_eq_zero_or_one a with heven | hodd
      · exact ⟨a + n, by omega, Nat.add_modEq_right⟩
      · exact ⟨a, hodd, Nat.ModEq.refl a⟩
    rcases hodd with ⟨b, hb, hba⟩
    have hbn : Nat.Coprime b n := (Nat.ModEq.gcd_eq hba).trans ha
    rcases h.right b ((coprime_two_mul hb).mpr hbn) with ⟨k, hk⟩
    exact ⟨k, (hk.of_mul_left 2).trans hba⟩
  · intro h
    refine ⟨(coprime_two_mul hx).mpr h.left, ?_⟩
    intro a ha
    have haodd : a % 2 = 1 := by
      have := Nat.coprime_two_right.mp (Nat.Coprime.coprime_mul_right_right ha)
      exact Nat.odd_iff.mp this
    rcases h.right a ((coprime_two_mul haodd).mp ha) with ⟨k, hk⟩
    refine ⟨k, (Nat.modEq_and_modEq_iff_modEq_mul hcoprime).mp ⟨?_, hk⟩⟩
    show x ^ k % 2 = a % 2
    rw [Nat.pow_mod, hx, one_pow, Nat.mod_eq_of_lt Nat.one_lt_two, haodd]

theorem pow_eq_one_of_not_generates {p k x : Nat} (hp : p.Prime) (hx : Generates p x)
    (hfails : ¬Generates (p ^ (k + 1)) x) :
    (x : ZMod (p ^ (k + 1))) ^ (p ^ k * (p - 1) / p) = 1 := by
  have : Fact p.Prime := ⟨hp⟩
  have hpos : 0 < p ^ (k + 1) := Nat.pow_pos hp.pos
  have hcoprime : Nat.Coprime x (p ^ (k + 1)) := Nat.Coprime.pow_right (k + 1) hx.left
  have htotient : Nat.totient (p ^ (k + 1)) = p ^ k * (p - 1) := Nat.totient_prime_pow_succ hp k
  rw [generates_iff_passesTests hpos hcoprime] at hfails
  unfold PassesTests at hfails
  push Not at hfails
  rcases hfails with ⟨r, hr, hone⟩
  rw [htotient] at hr hone
  have hprime := Nat.prime_of_mem_primeFactors hr
  by_cases hrp : r = p
  · rwa [hrp] at hone
  · exfalso
    have hdvd : r ∣ p - 1 := by
      rcases (hprime.dvd_mul).mp (Nat.dvd_of_mem_primeFactors hr) with hpow | hlow
      · exact absurd ((Nat.prime_dvd_prime_iff_eq hprime hp).mp (hprime.dvd_of_dvd_pow hpow)) hrp
      · exact hlow
    have htests := (generates_iff_passesTests hp.pos hx.left).mp hx r
    rw [Nat.totient_prime hp] at htests
    apply htests (Nat.mem_primeFactors.mpr ⟨hprime, hdvd, by have := hp.one_lt; omega⟩)
    have hcast := congrArg (ZMod.castHom (dvd_pow_self p (Nat.succ_ne_zero k)) (ZMod p)) hone
    rw [map_pow, map_natCast, map_one, Nat.mul_div_assoc _ hdvd, mul_comm, pow_mul,
      ZMod.pow_card_pow] at hcast
    exact hcast

theorem generates_lift {p k x y : Nat} (hp : p.Prime) (hodd : p ≠ 2) (hk : 0 < k)
    (hx : Generates p x) (hxy : x ≡ y [MOD p]) (hne : ¬x ≡ y [MOD p ^ 2]) :
    Generates (p ^ (k + 1)) x ∨ Generates (p ^ (k + 1)) y := by
  have : Fact p.Prime := ⟨hp⟩
  by_contra hfails
  push Not at hfails
  have hy : Generates p y := hx.congr hxy
  have hyunit : Nat.Coprime y (p ^ (k + 1)) := Nat.Coprime.pow_right (k + 1) hy.left
  have hxone := pow_eq_one_of_not_generates hp hx hfails.left
  have hyone := pow_eq_one_of_not_generates hp hy hfails.right
  have : NeZero (p ^ (k + 1)) := ⟨(Nat.pow_pos hp.pos).ne'⟩
  -- the quotient of the lifts is one modulo the prime and its order is prime to `p`
  generalize hz : ((x : ZMod (p ^ (k + 1))) * (y : ZMod (p ^ (k + 1)))⁻¹).val = z
  have hzy : (z : ZMod (p ^ (k + 1))) * y = x := by
    rw [← hz, ZMod.natCast_zmod_val, mul_assoc, mul_comm _ (y : ZMod (p ^ (k + 1))),
      ZMod.coe_mul_inv_eq_one y hyunit, mul_one]
  have hzone : (z : ZMod (p ^ (k + 1))) ^ (p ^ k * (p - 1) / p) = 1 := by
    rw [← hxone, ← hzy, mul_pow, hyone, mul_one]
  have hznat : z * y ≡ x [MOD p ^ (k + 1)] := by
    rw [← ZMod.natCast_eq_natCast_iff, Nat.cast_mul, hzy]
  have hzp : z ≡ 1 [MOD p] := by
    have hmul : z * y ≡ 1 * y [MOD p] := by
      rw [one_mul]
      exact (hznat.of_dvd (dvd_pow_self p (Nat.succ_ne_zero k))).trans hxy
    exact Nat.ModEq.cancel_right_of_coprime (Nat.Coprime.symm hy.left) hmul
  rcases (Nat.modEq_iff_dvd.mp hzp.symm) with ⟨a, ha⟩
  have hzcast : (z : ZMod (p ^ (k + 1))) = 1 + p * a := by
    have hint : (z : Int) = 1 + p * a := by
      rw [← ha]
      push_cast
      ring
    have := congrArg (Int.cast : Int -> ZMod (p ^ (k + 1))) hint
    push_cast at this
    exact this
  have hpa : (p : Int) ∣ a := by
    by_contra hndvd
    have horder := ZMod.orderOf_one_add_mul_prime hp hodd a hndvd k
    rw [← hzcast] at horder
    have hdvd := orderOf_dvd_of_pow_eq_one hzone
    rw [horder] at hdvd
    cases k with
    | zero => omega
    | succ k =>
        rw [pow_succ, mul_assoc, mul_comm p, ← mul_assoc, Nat.mul_div_cancel _ hp.pos] at hdvd
        have hp1 := Nat.dvd_of_mul_dvd_mul_left (Nat.pow_pos hp.pos) hdvd
        have hone := hp.one_lt
        have := Nat.le_of_dvd (by omega) hp1
        omega
  apply hne
  have hz2 : z ≡ 1 [MOD p ^ 2] := by
    apply Nat.ModEq.symm
    apply Nat.modEq_iff_dvd.mpr
    rcases hpa with ⟨b, rfl⟩
    refine ⟨b, ?_⟩
    rw [ha]
    push_cast
    ring
  have hsquare := (hznat.of_dvd (pow_dvd_pow p (show 2 <= k + 1 by omega))).symm
  refine hsquare.trans ?_
  have := hz2.mul_right y
  rwa [one_mul] at this

/-! ## Generators up to the order of the group -/

theorem Generates.pos {q g : Nat} (hq : 1 < q) (h : Generates q g) : 0 < g := by
  apply Nat.pos_of_ne_zero
  intro hzero
  have hcoprime := h.left
  rw [hzero, Nat.coprime_zero_left] at hcoprime
  omega

theorem exists_generates_prime {p : Nat} (hp : p.Prime) :
    exists g, 0 < g ∧ g < p ∧ Generates p g := by
  have : Fact p.Prime := ⟨hp⟩
  rcases exists_generates hp.pos with ⟨g, hlt, hg⟩
  exact ⟨g, hg.pos hp.one_lt, hlt, hg⟩

theorem exists_generates_below {p : Nat} (hp : p.Prime) (hfive : 5 <= p) :
    exists g, 0 < g ∧ g <= p - 2 ∧ Generates p g := by
  have : Fact p.Prime := ⟨hp⟩
  rcases exists_generates_prime hp with ⟨g, hpos, hlt, hg⟩
  refine ⟨g, hpos, ?_, hg⟩
  by_contra hlast
  have heq : g = p - 1 := by omega
  have horder := (generates_iff_orderOf hp.pos hg.left).mp hg
  have hsquare : (g : ZMod p) ^ 2 = 1 := by
    rw [heq, Nat.cast_sub hp.one_le, ZMod.natCast_self, Nat.cast_one, zero_sub, neg_one_sq]
  have hdvd := orderOf_dvd_of_pow_eq_one hsquare
  rw [horder, Nat.totient_prime hp] at hdvd
  have := Nat.le_of_dvd Nat.two_pos hdvd
  omega

theorem not_modEq_add {p x d : Nat} (hp : p.Prime) (hd : ¬p ∣ d) : ¬x ≡ x + p * d [MOD p ^ 2] := by
  intro h
  have hdvd := (Nat.modEq_iff_dvd' (Nat.le_add_right x (p * d))).mp h
  rw [Nat.add_sub_cancel_left, pow_two] at hdvd
  exact hd (Nat.dvd_of_mul_dvd_mul_left hp.pos hdvd)

theorem exists_generates_prime_pow {p k : Nat} (hp : p.Prime) (hodd : p ≠ 2) (hk : 0 < k) :
    exists g, 0 < g ∧ g <= Nat.totient (p ^ (k + 1)) ∧ Generates (p ^ (k + 1)) g := by
  have htwo := hp.two_le
  rcases exists_generates_prime hp with ⟨g, hpos, hlt, hg⟩
  have hroom : 2 * p <= Nat.totient (p ^ (k + 1)) := by
    rw [Nat.totient_prime_pow_succ hp, Nat.mul_comm]
    exact Nat.mul_le_mul (Nat.le_self_pow hk.ne' p) (by omega)
  have hshift : g ≡ g + p * 1 [MOD p] := Nat.ModEq.symm (by simp [Nat.ModEq])
  rcases generates_lift hp hodd hk hg hshift
    (not_modEq_add hp (by rw [Nat.dvd_one]; omega)) with h | h
  · exact ⟨g, hpos, by omega, h⟩
  · exact ⟨g + p * 1, by omega, by omega, h⟩

theorem totient_two_mul {n : Nat} (hn : n % 2 = 1) : Nat.totient (2 * n) = Nat.totient n := by
  have hcoprime : Nat.Coprime 2 n := Nat.coprime_two_left.mpr (Nat.odd_iff.mpr hn)
  rw [Nat.totient_mul hcoprime, Nat.totient_two, Nat.one_mul]

theorem generates_nine : Generates 9 5 := by
  have hcoprime : Nat.Coprime 5 9 := by decide
  rw [generates_iff_passesTests (by decide) hcoprime]
  intro r hr
  have htotient : Nat.totient 9 = 6 := by decide
  rw [htotient] at hr ⊢
  have hprime := Nat.prime_of_mem_primeFactors hr
  have hdvd := Nat.dvd_of_mem_primeFactors hr
  have hle := Nat.le_of_dvd (by decide) hdvd
  have htwo := hprime.two_le
  interval_cases r
  · decide
  · decide
  · omega
  · omega
  · exact absurd hprime (by norm_num)

theorem exists_generates_two_mul_prime_pow {p k : Nat} (hp : p.Prime) (hodd : p % 2 = 1)
    (hk : 0 < k) :
    exists g, 0 < g ∧ g <= Nat.totient (2 * p ^ (k + 1)) ∧ Generates (2 * p ^ (k + 1)) g := by
  have hpow : p ^ (k + 1) % 2 = 1 := by rw [Nat.pow_mod, hodd, one_pow, Nat.one_mod]
  have htwo : p ≠ 2 := by omega
  rw [totient_two_mul hpow, Nat.totient_prime_pow_succ hp]
  by_cases hnine : p = 3 ∧ k = 1
  · rw [hnine.left, hnine.right]
    exact ⟨5, by decide, by decide, (generates_two_mul_iff (by decide) (by decide)).mpr
      generates_nine⟩
  · have hroom : 4 * p <= p ^ k * (p - 1) + 1 := by
      have hle := Nat.le_self_pow hk.ne' p
      rcases Nat.lt_or_ge p 5 with hsmall | hlarge
      · have hthree : p = 3 := by
          have := hp.two_le
          omega
        have hsquare : 3 ^ 2 <= 3 ^ k := Nat.pow_le_pow_right (by decide) (by omega)
        rw [hthree]
        omega
      · have hmul := Nat.mul_le_mul hle (show 4 <= p - 1 by omega)
        omega
    rcases exists_generates_prime hp with ⟨g, hpos, hlt, hg⟩
    -- the first odd lift
    have hlift : exists x, 0 < x ∧ x < 2 * p ∧ x % 2 = 1 ∧ Generates p x := by
      rcases Nat.mod_two_eq_zero_or_one g with heven | hgodd
      · exact ⟨g + p, by omega, by omega, by omega, hg.congr (by simp [Nat.ModEq])⟩
      · exact ⟨g, hpos, by omega, hgodd, hg⟩
    rcases hlift with ⟨x, hxpos, hxlt, hxodd, hx⟩
    have hshift : x ≡ x + p * 2 [MOD p] := Nat.ModEq.symm (by simp [Nat.ModEq])
    have hndvd : ¬p ∣ 2 := by
      intro hdvd
      have := Nat.le_of_dvd (by decide) hdvd
      have := hp.two_le
      omega
    rcases generates_lift hp htwo hk hx hshift (not_modEq_add hp hndvd) with h | h
    · exact ⟨x, hxpos, by omega, (generates_two_mul_iff hpow hxodd).mpr h⟩
    · exact ⟨x + p * 2, by omega, by omega, (generates_two_mul_iff hpow (by omega)).mpr h⟩

theorem exists_generates_two_mul_prime_iff {p : Nat} (hp : p.Prime) (hodd : p % 2 = 1) :
    (exists g, 0 < g ∧ g <= Nat.totient (2 * p) ∧ Generates (2 * p) g) <->
      exists g, g < p ∧ g % 2 = 1 ∧ Generates p g := by
  rw [totient_two_mul hodd, Nat.totient_prime hp]
  constructor
  · intro h
    rcases h with ⟨g, hpos, hle, hg⟩
    have hgodd : g % 2 = 1 :=
      Nat.odd_iff.mp (Nat.coprime_two_right.mp (Nat.Coprime.coprime_mul_right_right hg.left))
    exact ⟨g, by omega, hgodd, (generates_two_mul_iff hodd hgodd).mp hg⟩
  · intro h
    rcases h with ⟨g, hlt, hgodd, hg⟩
    exact ⟨g, by omega, by omega, (generates_two_mul_iff hodd hgodd).mpr hg⟩

theorem exists_odd_generates {p : Nat} (hp : p.Prime) (hfour : p % 4 = 1) :
    exists g, g < p ∧ g % 2 = 1 ∧ Generates p g := by
  rcases exists_generates_prime hp with ⟨g, hpos, hlt, hg⟩
  rcases Nat.mod_two_eq_zero_or_one g with heven | hodd
  · have hcoprime : Nat.Coprime (p - g) p :=
      (hp.coprime_iff_not_dvd.mpr (Nat.not_dvd_of_pos_of_lt (by omega) (by omega))).symm
    refine ⟨p - g, by omega, by omega, ?_⟩
    rw [generates_iff_passesTests hp.pos hcoprime]
    intro r hr
    have htests := (generates_iff_passesTests hp.pos hg.left).mp hg r hr
    rw [Nat.totient_prime hp] at hr htests ⊢
    have hquot : Even ((p - 1) / r) := by
      have hprime := Nat.prime_of_mem_primeFactors hr
      have hcancel := Nat.div_mul_cancel (Nat.dvd_of_mem_primeFactors hr)
      rcases hprime.eq_two_or_odd with htwo | hrodd
      · rw [htwo, Nat.even_iff]
        omega
      · have hproduct : Even ((p - 1) / r * r) := by
          rw [hcancel, Nat.even_iff]
          omega
        rcases Nat.even_mul.mp hproduct with hleft | hright
        · exact hleft
        · rw [Nat.even_iff] at hright
          omega
    rw [Nat.cast_sub hlt.le, ZMod.natCast_self, zero_sub, hquot.neg_pow]
    exact htests
  · exact ⟨g, hlt, hodd, hg⟩

/--
Not four, and for twice a prime that is three modulo four an odd generator below the prime,
which three itself does not have.
-/
def GeneratorInRange (q : Nat) : Prop :=
  q ≠ 4 ∧ forall p, p.Prime -> p % 4 = 3 -> q = 2 * p ->
    exists g, g < p ∧ g % 2 = 1 ∧ Generates p g

theorem not_generates_four {g : Nat} (hle : g <= 2) : ¬Generates 4 g := by
  intro h
  have hcoprime := h.left
  rcases h.right 3 (by decide) with ⟨k, hk⟩
  interval_cases g
  · exact absurd hcoprime (by decide)
  · rw [one_pow] at hk
    exact absurd hk (by decide)
  · exact absurd hcoprime (by decide)

theorem not_generatorInRange_six : ¬GeneratorInRange 6 := by
  intro h
  rcases h.right 3 Nat.prime_three (by decide) rfl with ⟨g, hlt, hodd, hg⟩
  have hone : g = 1 := by omega
  rcases hg.right 2 (by decide) with ⟨k, hk⟩
  rw [hone, one_pow] at hk
  exact absurd hk (by decide)

theorem exists_generates_le_totient_iff {q : Nat} (hq : 1 < q) (hcyclic : IsCyclic (ZMod q)ˣ) :
    (exists g, 0 < g ∧ g <= Nat.totient q ∧ Generates q g) <-> GeneratorInRange q := by
  rcases (ZMod.isCyclic_units_iff q).mp hcyclic with h | h | h | h | ⟨p, m, hp, hodd, hm, h⟩
  · omega
  · omega
  · subst h
    constructor
    · intro _
      refine ⟨by decide, ?_⟩
      intro p hp _ heq
      have := hp.two_le
      omega
    · intro _
      have hcoprime : Nat.Coprime 1 2 := by decide
      refine ⟨1, by decide, by decide, ?_⟩
      rw [generates_iff_orderOf (by decide) hcoprime, Nat.cast_one, orderOf_one,
        Nat.totient_two]
  · subst h
    constructor
    · intro h
      rcases h with ⟨g, _, hle, hg⟩
      rw [show Nat.totient 4 = 2 by decide] at hle
      exact absurd hg (not_generates_four hle)
    · intro h
      exact absurd rfl h.left
  · have hpodd := Nat.odd_iff.mp hodd
    have hpow : p ^ m % 2 = 1 := by rw [Nat.pow_mod, hpodd, one_pow, Nat.one_mod]
    rcases h with h | h
    · subst h
      constructor
      · intro _
        refine ⟨by omega, ?_⟩
        intro p' _ _ heq
        omega
      · intro _
        cases m with
        | zero => omega
        | succ k =>
            rcases Nat.eq_zero_or_pos k with hzero | hpos
            · rw [hzero, Nat.zero_add, pow_one, Nat.totient_prime hp]
              rcases exists_generates_prime hp with ⟨g, hpos, hlt, hg⟩
              exact ⟨g, hpos, by omega, hg⟩
            · exact exists_generates_prime_pow hp (by omega) hpos
    · subst h
      cases m with
      | zero => omega
      | succ k =>
          rcases Nat.eq_zero_or_pos k with hzero | hpos
          · rw [hzero, Nat.zero_add, pow_one, exists_generates_two_mul_prime_iff hp hpodd]
            constructor
            · intro h
              refine ⟨by omega, ?_⟩
              intro p' _ _ heq
              rwa [show p' = p by omega]
            · intro h
              rcases Nat.lt_or_ge (p % 4) 2 with hone | hthree
              · exact exists_odd_generates hp (by omega)
              · exact h.right p hp (by omega) rfl
          · constructor
            · intro _
              refine ⟨by omega, ?_⟩
              intro p' hp' _ heq
              have hsame : p' = p ^ (k + 1) := by omega
              rw [hsame] at hp'
              exact absurd hp' (Nat.Prime.not_prime_pow (by omega))
            · intro _
              exact exists_generates_two_mul_prime_pow hp hpodd hpos

end Foundation
end OpenFHE
