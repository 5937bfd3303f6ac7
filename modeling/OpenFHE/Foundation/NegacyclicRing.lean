import OpenFHE.Foundation.Automorphism
import OpenFHE.Foundation.NegacyclicNorm
import Mathlib.Data.ZMod.Basic
import Mathlib.RingTheory.AdjoinRoot

/-!
# The ring of negacyclic polynomials

Polynomials modulo `X ^ n + 1` as a ring.  The variable is a unit of order `2 * n`, and an odd power
of it may be substituted for it.
-/

namespace OpenFHE
namespace Foundation

open Polynomial Finset

/-- `R[X]` modulo `X ^ n + 1`. -/
abbrev NegacyclicRing (n : Nat) (R : Type _) [CommRing R] : Type _ :=
  AdjoinRoot (X ^ n + 1 : R[X])

namespace NegacyclicRing

variable {R : Type _} [CommRing R] {n : Nat}

/-- The element with the first `n` values of `a` as coefficients. -/
noncomputable def element (n : Nat) (a : Nat -> R) : NegacyclicRing n R :=
  AdjoinRoot.mk _ (coeffPoly n a)

noncomputable def constant (n : Nat) (c : R) : NegacyclicRing n R := AdjoinRoot.of _ c

noncomputable def variableX (n : Nat) (R : Type _) [CommRing R] : NegacyclicRing n R :=
  AdjoinRoot.root _

theorem element_eq_sum (a : Nat -> R) :
    element n a = ∑ j ∈ range n, constant n (a j) * variableX n R ^ j := by
  unfold element coeffPoly
  rw [map_sum]
  apply sum_congr rfl
  intro j _
  rw [map_mul, map_pow, AdjoinRoot.mk_C, AdjoinRoot.mk_X]
  rfl

theorem element_congr {a b : Nat -> R} (h : forall i, i < n -> a i = b i) :
    element n a = element n b := by
  rw [element, coeffPoly_congr h, element]

theorem element_add (a b : Nat -> R) :
    element n (fun i => a i + b i) = element n a + element n b := by
  rw [element, coeffPoly_add, map_add, element, element]

theorem element_neg (a : Nat -> R) : element n (fun i => -a i) = -element n a := by
  rw [element, coeffPoly_neg, map_neg, element]

theorem element_sub (a b : Nat -> R) :
    element n (fun i => a i - b i) = element n a - element n b := by
  simp only [sub_eq_add_neg]
  rw [element_add, element_neg]

theorem element_scale (c : R) (a : Nat -> R) :
    element n (fun i => c * a i) = constant n c * element n a := by
  rw [element, coeffPoly_mul_left, map_mul, AdjoinRoot.mk_C, element]
  rfl

theorem element_zero : element n (fun _ => (0 : R)) = 0 := by
  have hzero := element_scale (n := n) (0 : R) (fun _ => 0)
  simp only [mul_zero] at hzero
  rw [hzero, constant, map_zero, zero_mul]

theorem element_sum {m : Nat} (a : Nat -> Nat -> R) :
    element n (fun i => ∑ j ∈ range m, a j i) = ∑ j ∈ range m, element n (a j) := by
  induction m with
  | zero =>
      simp only [range_zero, sum_empty]
      exact element_zero
  | succ m ih =>
      simp only [sum_range_succ]
      rw [element_add, ih]

theorem element_mul [Nontrivial R] (hn : 0 < n) (a b : Nat -> R) :
    element n (negacyclicMul n a b) = element n a * element n b := by
  rw [element, coeffPoly_negacyclicMul hn, element, element, <- map_mul, AdjoinRoot.mk_eq_mk]
  exact dvd_modByMonic_sub _ _

theorem element_single {i : Nat} (hi : i < n) (c : R) :
    element n (fun j => if j = i then c else 0) = constant n c * variableX n R ^ i := by
  rw [element_eq_sum, sum_eq_single_of_mem i (mem_range.mpr hi)]
  · rw [if_pos rfl]
  · intro j _ hj
    rw [if_neg hj, constant, map_zero, zero_mul]

theorem variableX_pow : variableX n R ^ n = -1 := by
  have hself : AdjoinRoot.mk (X ^ n + 1 : R[X]) (X ^ n + 1) = 0 := AdjoinRoot.mk_self
  rw [map_add, map_pow, AdjoinRoot.mk_X, map_one] at hself
  exact eq_neg_of_add_eq_zero_left hself

theorem variableX_pow_two_mul : variableX n R ^ (2 * n) = 1 := by
  rw [Nat.mul_comm, pow_mul, variableX_pow, neg_one_sq]

/-! ## The variable as a unit -/

/-- The variable and its powers with integer exponents. -/
noncomputable def unitX (n : Nat) (R : Type _) [CommRing R] [NeZero n] : (NegacyclicRing n R)ˣ :=
  Units.ofPowEqOne (variableX n R) (2 * n) variableX_pow_two_mul
    (Nat.mul_ne_zero two_ne_zero (NeZero.ne n))

/-- `X ^ e`. -/
noncomputable def monomial (n : Nat) (R : Type _) [CommRing R] [NeZero n] (e : Int) :
    NegacyclicRing n R :=
  ((unitX n R ^ e : (NegacyclicRing n R)ˣ) : NegacyclicRing n R)

section Monomial

variable [NeZero n]

theorem monomial_natCast (e : Nat) : monomial n R e = variableX n R ^ e := by
  rw [monomial, zpow_natCast, Units.val_pow_eq_pow_val]
  rfl

theorem monomial_zero : monomial n R 0 = 1 := by
  rw [monomial, zpow_zero, Units.val_one]

theorem monomial_add (e f : Int) : monomial n R (e + f) = monomial n R e * monomial n R f := by
  rw [monomial, zpow_add, Units.val_mul, monomial, monomial]

theorem monomial_mul_monomial_mul (e f : Int) (x : NegacyclicRing n R) :
    monomial n R e * (monomial n R f * x) = monomial n R (e + f) * x := by
  rw [<- mul_assoc, monomial_add]

theorem unitX_pow : unitX n R ^ (2 * n) = 1 := Units.pow_ofPowEqOne _ _

/-- Only the exponent modulo `2 * n` matters. -/
theorem monomial_congr {e f : Int} (h : e ≡ f [ZMOD (2 * n : Nat)]) :
    monomial n R e = monomial n R f := by
  rcases h.symm.dvd with ⟨d, hd⟩
  have hsplit : e = f + (2 * n : Nat) * d := by omega
  rw [monomial, monomial, hsplit, zpow_add, zpow_mul, zpow_natCast, unitX_pow, one_zpow, mul_one]

theorem monomial_emod (e : Int) : monomial n R (e % (2 * n : Nat)) = monomial n R e :=
  monomial_congr (Int.mod_modEq e _)

/-- Every power is one with an exponent below `2 * n`. -/
theorem exists_pow_eq_monomial (e : Int) :
    exists i, i < 2 * n ∧ monomial n R e = variableX n R ^ i := by
  have hpos : (0 : Int) < (2 * n : Nat) := by
    have := NeZero.pos n
    omega
  have hnonneg := Int.emod_nonneg e hpos.ne'
  refine ⟨(e % (2 * n : Nat)).toNat, ?_, ?_⟩
  · have := Int.emod_lt_of_pos e hpos
    omega
  · rw [<- monomial_natCast, Int.toNat_of_nonneg hnonneg, monomial_emod]

end Monomial

/-! ## Automorphisms -/

/-- Substituting the odd power `X ^ k` for the variable. -/
noncomputable def automorphism (n : Nat) (R : Type _) [CommRing R] (k : Nat) (hk : k % 2 = 1) :
    NegacyclicRing n R →+* NegacyclicRing n R :=
  AdjoinRoot.lift (AdjoinRoot.of _) (variableX n R ^ k) (by
    rw [eval₂_add, eval₂_pow, eval₂_X, eval₂_one, <- pow_mul, Nat.mul_comm, pow_mul, variableX_pow,
      (Nat.odd_iff.mpr hk).neg_one_pow, neg_add_cancel])

section Automorphism

variable {k : Nat} (hk : k % 2 = 1)

theorem automorphism_variableX : automorphism n R k hk (variableX n R) = variableX n R ^ k :=
  AdjoinRoot.lift_root _

theorem automorphism_constant (c : R) :
    automorphism n R k hk (constant n c) = constant n c :=
  AdjoinRoot.lift_of _

theorem automorphism_element [Nontrivial R] (hn : 0 < n) (a : Nat -> R) :
    automorphism n R k hk (element n a) = element n (negacyclicAutomorphism n k a) := by
  have hdegree : (expand R k (coeffPoly n a) %ₘ (X ^ n + 1)).degree < n := by
    rw [<- degree_X_pow_add_one (R := R) hn]
    exact degree_modByMonic_lt _ (monic_X_pow_add_one hn)
  have hreduced : element n (negacyclicAutomorphism n k a) =
      AdjoinRoot.mk _ (expand R k (coeffPoly n a)) := by
    rw [element, negacyclicAutomorphism, coeffPoly_coeff hdegree, AdjoinRoot.mk_eq_mk]
    exact dvd_modByMonic_sub _ _
  rw [hreduced, expand_eq_sum, element, automorphism, AdjoinRoot.lift_mk, eval₂_eq_sum, Polynomial.sum,
    Polynomial.sum, map_sum]
  apply sum_congr rfl
  intro j _
  rw [map_mul, map_pow, map_pow, AdjoinRoot.mk_C, AdjoinRoot.mk_X]
  rfl

theorem automorphism_monomial [NeZero n] (e : Int) :
    automorphism n R k hk (monomial n R e) = monomial n R (k * e) := by
  have hunit : Units.map (automorphism n R k hk).toMonoidHom (unitX n R) = unitX n R ^ (k : Int) := by
    ext
    rw [zpow_natCast, Units.val_pow_eq_pow_val]
    exact automorphism_variableX hk
  have hpow : automorphism n R k hk (monomial n R e) =
      ((Units.map (automorphism n R k hk).toMonoidHom (unitX n R ^ e) :
        (NegacyclicRing n R)ˣ) : NegacyclicRing n R) := rfl
  rw [hpow, map_zpow, hunit, <- zpow_mul, monomial]

end Automorphism

theorem automorphism_comp {j k l : Nat} (hj : j % 2 = 1) (hk : k % 2 = 1) (hl : l % 2 = 1)
    (hjk : j * k ≡ l [MOD 2 * n]) (x : NegacyclicRing n R) :
    automorphism n R j hj (automorphism n R k hk x) = automorphism n R l hl x := by
  have hcomp : (automorphism n R j hj).comp (automorphism n R k hk) = automorphism n R l hl := by
    apply AdjoinRoot.ringHom_ext
    · ext c
      exact (congrArg _ (automorphism_constant hk c)).trans
        ((automorphism_constant hj c).trans (automorphism_constant hl c).symm)
    · show automorphism n R j hj (automorphism n R k hk (variableX n R)) =
        automorphism n R l hl (variableX n R)
      rw [automorphism_variableX, map_pow, automorphism_variableX, automorphism_variableX, <- pow_mul]
      exact pow_eq_pow_of_modEq hjk variableX_pow_two_mul
  exact congrArg (fun f => f x) hcomp

theorem automorphism_one (h : 1 % 2 = 1) (x : NegacyclicRing n R) : automorphism n R 1 h x = x := by
  have hid : automorphism n R 1 h = RingHom.id _ := by
    apply AdjoinRoot.ringHom_ext
    · ext c
      exact automorphism_constant h c
    · show automorphism n R 1 h (variableX n R) = variableX n R
      rw [automorphism_variableX, pow_one]
  rw [hid, RingHom.id_apply]

theorem automorphism_congr {k l : Nat} (hk : k % 2 = 1) (hl : l % 2 = 1)
    (hkl : k ≡ l [MOD 2 * n]) (x : NegacyclicRing n R) :
    automorphism n R k hk x = automorphism n R l hl x := by
  have hone : 1 % 2 = 1 := rfl
  have hcomp := automorphism_comp hk hone hl (by rwa [Nat.mul_one]) x
  rwa [automorphism_one] at hcomp

theorem odd_pow {k : Nat} (hk : k % 2 = 1) (m : Nat) : k ^ m % 2 = 1 :=
  Nat.odd_iff.mp ((Nat.odd_iff.mpr hk).pow)

/-- The automorphism for an odd number, applied `m` times. -/
noncomputable def turn (n : Nat) (R : Type _) [CommRing R] {k : Nat} (hk : k % 2 = 1) (m : Nat) :
    NegacyclicRing n R →+* NegacyclicRing n R :=
  automorphism n R (k ^ m) (odd_pow hk m)

section Turn

variable {k : Nat} (hk : k % 2 = 1)

theorem turn_zero (x : NegacyclicRing n R) : turn n R hk 0 x = x := by
  have hone : k ^ 0 ≡ 1 [MOD 2 * n] := by rw [pow_zero]
  rw [turn, automorphism_congr _ rfl hone, automorphism_one]

theorem turn_add (a b : Nat) (x : NegacyclicRing n R) :
    turn n R hk (a + b) x = turn n R hk a (turn n R hk b x) :=
  (automorphism_comp _ _ _ (by rw [pow_add]) x).symm

theorem turn_monomial [NeZero n] (m : Nat) (e : Int) :
    turn n R hk m (monomial n R e) = monomial n R (k ^ m * e) := by
  rw [turn, automorphism_monomial, Nat.cast_pow]

end Turn

/-! ## Size -/

section Size

variable {q : Nat}

/-- The coefficients are residues of integers of absolute value at most `B`. -/
def Small (n q B : Nat) (x : NegacyclicRing n (ZMod q)) : Prop :=
  exists e : Nat -> Int, (forall i, i < n -> |e i| <= B) ∧ element n (fun i => (e i : ZMod q)) = x

variable {B C : Nat} {x y : NegacyclicRing n (ZMod q)}

theorem small_zero (n q B : Nat) : Small n q B 0 := by
  refine ⟨fun _ => 0, fun i _ => by simp, ?_⟩
  simp only [Int.cast_zero]
  exact element_zero

theorem Small.mono (hx : Small n q B x) (hle : B <= C) : Small n q C x := by
  rcases hx with ⟨e, he, hex⟩
  exact ⟨e, fun i hi => (he i hi).trans (by exact_mod_cast hle), hex⟩

theorem Small.neg (hx : Small n q B x) : Small n q B (-x) := by
  rcases hx with ⟨e, he, rfl⟩
  refine ⟨fun i => -e i, fun i hi => by rw [abs_neg]; exact he i hi, ?_⟩
  simp only [Int.cast_neg]
  exact element_neg _

theorem Small.add (hx : Small n q B x) (hy : Small n q C y) : Small n q (B + C) (x + y) := by
  rcases hx with ⟨e, he, rfl⟩
  rcases hy with ⟨f, hf, rfl⟩
  refine ⟨fun i => e i + f i, fun i hi => ?_, ?_⟩
  · push_cast
    exact (abs_add_le _ _).trans (add_le_add (he i hi) (hf i hi))
  · simp only [Int.cast_add]
    exact element_add _ _

theorem Small.sub (hx : Small n q B x) (hy : Small n q C y) : Small n q (B + C) (x - y) := by
  rw [sub_eq_add_neg]
  exact hx.add hy.neg

theorem Small.sum {m : Nat} {f : Nat -> NegacyclicRing n (ZMod q)}
    (hf : forall j, j < m -> Small n q B (f j)) : Small n q (m * B) (∑ j ∈ range m, f j) := by
  induction m with
  | zero => exact small_zero n q _
  | succ m ih =>
      rw [sum_range_succ, Nat.succ_mul]
      exact (ih fun j hj => hf j (Nat.lt_succ_of_lt hj)).add (hf m (Nat.lt_succ_self m))

theorem Small.mul [Fact (1 < q)] (hn : 0 < n) (hx : Small n q B x) (hy : Small n q C y) :
    Small n q (n * (B * C)) (x * y) := by
  rcases hx with ⟨e, he, rfl⟩
  rcases hy with ⟨f, hf, rfl⟩
  refine ⟨negacyclicMul n e f, fun i hi => ?_, ?_⟩
  · apply (abs_negacyclicMul_le e f he hi).trans
    have hsum : ∑ j ∈ range n, |f j| <= n * C := by
      apply (sum_le_card_nsmul (range n) (fun j => |f j|) C
        fun j hj => hf j (mem_range.mp hj)).trans
      rw [card_range, nsmul_eq_mul]
    calc
      (B : Int) * ∑ j ∈ range n, |f j| <= B * (n * C) :=
        mul_le_mul_of_nonneg_left hsum (by omega)
      _ = (n * (B * C) : Nat) := by
        push_cast
        ring
  · rw [<- element_mul hn]
    apply element_congr
    intro i _
    exact map_negacyclicMul (Int.castRingHom (ZMod q)) hn e f i

theorem Small.variableX_mul (hx : Small n q B x) : Small n q B (variableX n (ZMod q) * x) := by
  rcases hx with ⟨e, he, rfl⟩
  cases n with
  | zero =>
      refine ⟨fun _ => 0, fun i hi => absurd hi (Nat.not_lt_zero i), ?_⟩
      rw [element_eq_sum, element_eq_sum, range_zero, sum_empty, sum_empty, mul_zero]
  | succ n =>
      refine ⟨fun i => if i = 0 then -e n else e (i - 1), fun i hi => ?_, ?_⟩
      · dsimp only
        split
        · rw [abs_neg]
          exact he n (Nat.lt_succ_self n)
        · exact he (i - 1) (by omega)
      · have hlast : constant (n + 1) (e n : ZMod q) * variableX (n + 1) (ZMod q) ^ (n + 1) =
            constant (n + 1) ((-e n : Int) : ZMod q) := by
          rw [variableX_pow, mul_neg_one, Int.cast_neg, constant, constant, map_neg]
        rw [element_eq_sum, element_eq_sum, sum_range_succ', mul_sum, sum_range_succ]
        dsimp only
        rw [if_pos rfl, pow_zero, mul_one, mul_left_comm, <- pow_succ', hlast]
        apply congrArg₂ _ _ rfl
        apply sum_congr rfl
        intro i _
        rw [if_neg (Nat.succ_ne_zero i), Nat.add_sub_cancel, pow_succ (variableX _ _) i]
        ring

theorem Small.variableX_pow_mul (hx : Small n q B x) (i : Nat) :
    Small n q B (variableX n (ZMod q) ^ i * x) := by
  induction i with
  | zero =>
      rw [pow_zero, one_mul]
      exact hx
  | succ i ih =>
      rw [pow_succ', mul_assoc]
      exact ih.variableX_mul

theorem Small.monomial_mul [NeZero n] (hx : Small n q B x) (e : Int) :
    Small n q B (monomial n (ZMod q) e * x) := by
  have hpow : exists i, i < 2 * n ∧ monomial n (ZMod q) e = variableX n (ZMod q) ^ i :=
    exists_pow_eq_monomial e
  rcases hpow with ⟨i, _, hi⟩
  rw [hi]
  exact hx.variableX_pow_mul i

theorem Small.automorphism {κ k : Nat} {x : NegacyclicRing (2 ^ κ) (ZMod q)}
    (hx : Small (2 ^ κ) q B x) (hk : k % 2 = 1) :
    Small (2 ^ κ) q B (NegacyclicRing.automorphism (2 ^ κ) (ZMod q) k hk x) := by
  rcases hx with ⟨e, he, rfl⟩
  have hinverse : exists k', forall j, j < 2 ^ κ -> j * k % 2 ^ κ * k' % 2 ^ κ = j := by
    have hcoprime : Nat.Coprime k (2 ^ (κ + 1)) :=
      Nat.Coprime.pow_right _ (Nat.coprime_two_right.mpr (Nat.odd_iff.mpr hk))
    rcases Nat.exists_mul_mod_eq_one_of_coprime hcoprime
      (Nat.one_lt_two_pow (Nat.succ_ne_zero κ)) with ⟨k', _, hk'⟩
    refine ⟨k', fun j hj => ?_⟩
    have hmod : k * k' ≡ 1 [MOD 2 ^ (κ + 1)] := by
      rw [Nat.ModEq, hk', Nat.mod_eq_of_lt (Nat.one_lt_two_pow (Nat.succ_ne_zero κ))]
    have hone : k * k' ≡ 1 [MOD 2 ^ κ] := Nat.ModEq.of_dvd (pow_dvd_pow 2 (Nat.le_succ κ)) hmod
    have hj' := hone.mul_left j
    rw [Nat.mul_one] at hj'
    rw [Nat.mod_mul_mod, Nat.mul_assoc, hj', Nat.mod_eq_of_lt hj]
  rcases hinverse with ⟨k', hk'⟩
  -- The coefficient that moves to position `r` is that of position `r * k'`.
  refine ⟨fun r => if r * k' % 2 ^ κ * k / 2 ^ κ % 2 = 1 then -e (r * k' % 2 ^ κ)
    else e (r * k' % 2 ^ κ), fun r _ => ?_, ?_⟩
  · have hlt : r * k' % 2 ^ κ < 2 ^ κ := Nat.mod_lt _ (Nat.two_pow_pos κ)
    dsimp only
    split
    · rw [abs_neg]
      exact he _ hlt
    · exact he _ hlt
  · rw [element_eq_sum, element_eq_sum, map_sum]
    symm
    apply sum_nbij fun j => j * k % 2 ^ κ
    · intro j _
      exact mem_range.mpr (Nat.mod_lt _ (Nat.two_pow_pos κ))
    · intro j hj j' hj' heq
      exact mul_mod_injOn hk (mem_range.mp hj) (mem_range.mp hj') heq
    · intro r hr
      rcases exists_mul_mod_eq hk (mem_range.mp hr) with ⟨j, hj, heq⟩
      exact ⟨j, mem_range.mpr hj, heq⟩
    · intro j hj
      dsimp only
      rw [hk' j (mem_range.mp hj), map_mul, map_pow, automorphism_constant, automorphism_variableX,
        <- pow_mul, Nat.mul_comm k j, point_pow_eq variableX_pow (j * k)]
      split
      · rw [Int.cast_neg, constant, constant, map_neg]
        ring
      · ring

end Size

end NegacyclicRing

end Foundation
end OpenFHE
