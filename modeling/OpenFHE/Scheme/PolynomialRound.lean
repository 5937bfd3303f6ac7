import OpenFHE.Core.NativeInteger.ModInverse
import OpenFHE.Core.NativeVectorT
import OpenFHE.Foundation.BaseConversion
import OpenFHE.Foundation.Primality
import OpenFHE.Hal.DCRTPoly

/-!
# Rounding before interactive bootstrapping

`PolynomialRound` recomposes every coefficient of two towers and adds half of the modulus
to the coefficients in the middle half.  The two products of the recomposition are words.
-/

namespace OpenFHE
namespace Scheme

open OpenFHE.Core OpenFHE.Hal Foundation NativeInteger Finset

/-- The text of the check on the number of towers. -/
def roundMessage (size : Nat) : String :=
  "The input polynomial has " ++ toString size ++ " instead of 2 RNS limbs"

/-- The values that `PolynomialRound` computes from the two moduli. -/
structure RoundTables where
  qInv : Nat × Nat
  precon : Nat × Nat
  qHalf : Nat × Nat
deriving DecidableEq, Repr

def roundTables (q0 q1 : Nat) : Option RoundTables := do
  let qInv0 <- modInverse q1 q0
  let qInv1 <- modInverse q0 q1
  let precon0 <- prepModMulConst qInv0 q0
  let precon1 <- prepModMulConst qInv1 q1
  let half := doubleWord (q0 * q1) / 2
  return { qInv := (qInv0, qInv1), precon := (precon0, precon1),
           qHalf := (half % q0, half % q1) }

/-- `x128` before its reduction: the sum is wide, the products are words. -/
def recompose (q0 q1 : Nat) (tables : RoundTables) (x0 x1 : Nat) : Nat :=
  doubleWord
    (word (modMulFastConst x0 tables.qInv.1 q0 tables.precon.1 * q1) +
      word (modMulFastConst x1 tables.qInv.2 q1 tables.precon.2 * q0))

/-- The comparison with the quarters of the modulus. -/
def inMiddleHalf (Q x : Nat) : Bool := x > Q / 4 && x <= doubleWord (3 * Q) / 4

def roundCoefficient (q0 q1 : Nat) (tables : RoundTables) (x0 x1 : Nat) : Nat × Nat :=
  let Q := doubleWord (q0 * q1)
  let x128 := recompose q0 q1 tables x0 x1
  let x128 := if x128 > Q then x128 % Q else x128
  if inMiddleHalf Q x128 then
    (modAddFast x0 tables.qHalf.1 q0, modAddFast x1 tables.qHalf.2 q1)
  else (x0, x1)

/-- `PolynomialRound`; a failing inverse and a missing coefficient are undefined. -/
def polynomialRound (ringDimension : Nat) (dcrtpoly : DCRTPoly) : Except Fault DCRTPoly :=
  match dcrtpoly with
  | [poly0, poly1] => Fault.access do
      let tables <- roundTables poly0.modulus poly1.modulus
      let values <- (List.range ringDimension).mapM fun k => do
        let x0 <- poly0.values[k]?
        let x1 <- poly1.values[k]?
        return roundCoefficient poly0.modulus poly1.modulus tables x0 x1
      let rest (poly : Poly) := poly.values.drop ringDimension
      return [{ poly0 with values := values.map Prod.fst ++ rest poly0 },
              { poly1 with values := values.map Prod.snd ++ rest poly1 }]
  | _ => .error (.thrown (roundMessage dcrtpoly.length))

/-!
## The intended rounding
-/

/-- The coefficients above a quarter of the modulus and not above three quarters. -/
def MiddleHalf (Q x : Nat) : Prop := Q / 4 < x ∧ x <= 3 * Q / 4

instance (Q x : Nat) : Decidable (MiddleHalf Q x) :=
  inferInstanceAs (Decidable (_ ∧ _))

def rounded (Q x : Nat) : Nat := if MiddleHalf Q x then x + Q / 2 else x

/-- The digit of `x` at `q` beside the modulus `q'`, times its cofactor `q'`. -/
def digitProduct (q q' x : Nat) : Nat := ((x : ZMod q) * (q' : ZMod q)⁻¹).val * q'

/-- The sum of the products as words, reduced by the modulus when it is larger. -/
def wordSum (q0 q1 x : Nat) : Nat :=
  let sum := word (digitProduct q0 q1 x) + word (digitProduct q1 q0 x)
  if sum > q0 * q1 then sum % (q0 * q1) else sum

/--
The words keep every product up to the word size, and are below the middle half from
eight times the word size on; between the two the lost bits decide.
-/
def RoundsRight (q0 q1 x : Nat) : Prop :=
  q0 * q1 <= 2 ^ 64 ∨
    (q0 * q1 < 2 ^ 67 ∧ (MiddleHalf (q0 * q1) (wordSum q0 q1 x) <-> MiddleHalf (q0 * q1) x)) ∨
      (2 ^ 67 <= q0 * q1 ∧ ¬MiddleHalf (q0 * q1) x)

/-!
## The recomposition
-/

theorem pair_entry {q0 q1 i q : Nat} (h : [q0, q1][i]? = some q) :
    (i = 0 ∧ q0 = q) ∨ (i = 1 ∧ q1 = q) := by
  rcases i with _ | _ | i
  · exact Or.inl ⟨rfl, Option.some.inj h⟩
  · exact Or.inr ⟨rfl, Option.some.inj h⟩
  · cases h

section Recomposition

variable {q0 q1 : Nat} (h0 : q0.Prime) (h1 : q1.Prime) (hne : q0 ≠ q1)
  (hlt0 : q0 < 2 ^ 60) (hlt1 : q1 < 2 ^ 60)

include hlt0 hlt1 in
theorem product_lt : q0 * q1 < 2 ^ 120 := by
  calc q0 * q1 < 2 ^ 60 * 2 ^ 60 := Nat.mul_lt_mul'' hlt0 hlt1
    _ = 2 ^ 120 := by norm_num

include h0 h1 hne

theorem coprime_pair : Nat.gcd q1 q0 = 1 :=
  (Nat.coprime_primes h1 h0).mpr hne.symm

theorem inverse_spec (hlt : q0 < 2 ^ 60) :
    exists w, modInverse q1 q0 = some w ∧ w < q0 ∧ q1 * w % q0 = 1 ∧
      prepModMulConst w q0 = some (precon w q0) := by
  rcases modInverse_spec h0.one_lt (by omega) (coprime_pair h0 h1 hne) with
    ⟨w, hw, hwlt, hmul⟩
  exact ⟨w, hw, hwlt, hmul, prepModMulConst_eq (by simp only [maxBits]; omega) hwlt⟩

omit h1 hne in
theorem digitProduct_eq (hlt : q0 < 2 ^ 60) {w : Nat} (hw : w < q0) (hmul : q1 * w % q0 = 1)
    (x : Nat) : modMulFastConst (x % q0) w q0 (precon w q0) * q1 = digitProduct q0 q1 x := by
  have hpos : 0 < q0 := h0.pos
  have hfact : Fact q0.Prime := ⟨h0⟩
  have hx : x % q0 < q0 := Nat.mod_lt _ hpos
  have hinverse : (w : ZMod q0) = (q1 : ZMod q0)⁻¹ := by
    apply eq_inv_of_mul_eq_one_right
    have hcast : ((q1 * w % q0 : Nat) : ZMod q0) = 1 := by
      rw [hmul, Nat.cast_one]
    rw [← hcast, ZMod.natCast_mod, Nat.cast_mul]
  rw [modMulFastConst_eq (by omega) hw (by simp only [maxBits]; omega), digitProduct,
    ← hinverse, ← Nat.cast_mul, ZMod.val_natCast, Nat.mod_mul_mod]

omit hlt0 in
theorem digitProduct_add {x : Nat} (hx : x < q0 * q1) :
    digitProduct q0 q1 x + digitProduct q1 q0 x = x ∨
      digitProduct q0 q1 x + digitProduct q1 q0 x = x + q0 * q1 := by
  have hfact0 : Fact q0.Prime := ⟨h0⟩
  have hfact1 : Fact q1.Prime := ⟨h1⟩
  have hresidue {q q' : Nat} (hq : q.Prime) (hfact : Fact q.Prime) (hcop : Nat.gcd q' q = 1) :
      ((x : ZMod q) * (q' : ZMod q)⁻¹).val * q' % q = x % q := by
    apply (ZMod.natCast_eq_natCast_iff' _ _ q).mp
    have hunit : (q' : ZMod q) ≠ 0 := by
      intro hzero
      have hdvd := (ZMod.natCast_eq_zero_iff q' q).mp hzero
      exact hq.one_lt.ne' (Nat.dvd_one.mp (hcop ▸ Nat.dvd_gcd hdvd dvd_rfl))
    rw [Nat.cast_mul, ZMod.natCast_zmod_val, inv_mul_cancel_right₀ hunit]
  have hdigits : BaseDigits [q0, q1] x fun i =>
      if i = 0 then ((x : ZMod q0) * (q1 : ZMod q0)⁻¹).val
      else ((x : ZMod q1) * (q0 : ZMod q1)⁻¹).val := by
    have hcofactor0 : cofactor [q0, q1] 0 = q1 := by
      simp [cofactor, Nat.mul_div_cancel_left _ h0.pos]
    have hcofactor1 : cofactor [q0, q1] 1 = q0 := by
      simp [cofactor, Nat.mul_div_cancel _ h1.pos]
    constructor
    · intro i q hq
      rcases pair_entry hq with ⟨rfl, rfl⟩ | ⟨rfl, rfl⟩
      · exact ZMod.val_lt _
      · exact ZMod.val_lt _
    · intro i q hq
      rcases pair_entry hq with ⟨rfl, rfl⟩ | ⟨rfl, rfl⟩
      · rw [hcofactor0]
        exact hresidue h0 hfact0 (coprime_pair h0 h1 hne)
      · rw [hcofactor1]
        exact hresidue h1 hfact1 (coprime_pair h1 h0 hne.symm)
  have hcoprime : [q0, q1].Pairwise Nat.Coprime := by
    simp [Nat.Coprime, Nat.gcd_comm q0 q1, coprime_pair h0 h1 hne]
  have hone : forall q, q ∈ [q0, q1] -> 1 < q := by
    simp [h0.one_lt, h1.one_lt]
  have hprod : [q0, q1].prod = q0 * q1 := by simp
  have heq := digitSum_eq hcoprime hone hdigits (by rw [hprod]; exact hx) (by simp)
  have hsum : digitSum [q0, q1] (fun i =>
      if i = 0 then ((x : ZMod q0) * (q1 : ZMod q0)⁻¹).val
      else ((x : ZMod q1) * (q0 : ZMod q1)⁻¹).val) =
      digitProduct q0 q1 x + digitProduct q1 q0 x := by
    simp [digitSum, digitProduct, sum_range_succ, cofactor, Nat.mul_div_cancel _ h1.pos,
      Nat.mul_div_cancel_left _ h0.pos]
  rw [hsum, hprod] at heq
  rcases heq with ⟨heq, hlt⟩
  generalize digitOverflow [q0, q1] _ = u at heq hlt
  rcases Nat.le_one_iff_eq_zero_or_eq_one.mp (Nat.le_of_lt_succ hlt) with rfl | rfl
  · exact Or.inl (by rw [heq, Nat.zero_mul, Nat.add_zero])
  · exact Or.inr (by rw [heq, Nat.one_mul])

omit hne in
theorem digitProduct_lt {x : Nat} : digitProduct q0 q1 x < q0 * q1 := by
  have hfact : Fact q0.Prime := ⟨h0⟩
  exact Nat.mul_lt_mul_of_pos_right (ZMod.val_lt _) h1.pos

theorem wordSum_small {x : Nat} (hx : x < q0 * q1) (hQ : q0 * q1 <= 2 ^ 64) :
    MiddleHalf (q0 * q1) (wordSum q0 q1 x) <-> MiddleHalf (q0 * q1) x := by
  have hA := digitProduct_lt h0 h1 (x := x)
  have hB := digitProduct_lt h1 h0 (x := x)
  have hadd := digitProduct_add h0 h1 hne hx
  have hword {y : Nat} (hy : y < q0 * q1) : word y = y :=
    word_eq (by simp only [maxBits]; omega)
  unfold wordSum
  rw [hword hA, hword (by rw [Nat.mul_comm]; exact hB)]
  dsimp only
  rcases hadd with hadd | hadd
  · rw [hadd, if_neg (by omega)]
  · rw [hadd]
    rcases Nat.eq_zero_or_pos x with hzero | hpos
    · rw [hzero, Nat.zero_add, if_neg (Nat.lt_irrefl _)]
      unfold MiddleHalf
      omega
    · rw [if_pos (by omega), Nat.add_mod_right, Nat.mod_eq_of_lt hx]

omit h0 h1 hne in
theorem wordSum_large {x : Nat} (hQ : 2 ^ 67 <= q0 * q1) :
    ¬MiddleHalf (q0 * q1) (wordSum q0 q1 x) := by
  have hA := word_lt (digitProduct q0 q1 x)
  have hB := word_lt (digitProduct q1 q0 x)
  simp only [maxBits] at hA hB
  unfold wordSum MiddleHalf
  dsimp only
  rw [if_neg (by omega)]
  omega

theorem roundsRight_iff {x : Nat} (hx : x < q0 * q1) :
    (MiddleHalf (q0 * q1) (wordSum q0 q1 x) <-> MiddleHalf (q0 * q1) x) <->
      RoundsRight q0 q1 x := by
  unfold RoundsRight
  rcases Nat.lt_or_ge (2 ^ 64) (q0 * q1) with hbig | hsmall
  · rcases Nat.lt_or_ge (q0 * q1) (2 ^ 67) with hmiddle | hlarge
    · constructor
      · intro h
        exact Or.inr (Or.inl ⟨hmiddle, h⟩)
      · rintro (h | ⟨_, h⟩ | ⟨h, _⟩)
        · omega
        · exact h
        · omega
    · have hfalse := wordSum_large (x := x) hlarge
      constructor
      · intro h
        exact Or.inr (Or.inr ⟨hlarge, fun hx' => hfalse (h.mpr hx')⟩)
      · rintro (h | ⟨h, _⟩ | ⟨_, h⟩)
        · omega
        · omega
        · exact iff_of_false hfalse h
  · exact iff_of_true (wordSum_small h0 h1 hne hx hsmall) (Or.inl hsmall)

include hlt0 hlt1

theorem roundTables_spec :
    exists w0 w1, roundTables q0 q1 =
        some ⟨(w0, w1), (precon w0 q0, precon w1 q1),
          (q0 * q1 / 2 % q0, q0 * q1 / 2 % q1)⟩ ∧
      (w0 < q0 ∧ q1 * w0 % q0 = 1) ∧ w1 < q1 ∧ q0 * w1 % q1 = 1 := by
  rcases inverse_spec h0 h1 hne hlt0 with ⟨w0, hw0, hwlt0, hmul0, hprecon0⟩
  rcases inverse_spec h1 h0 hne.symm hlt1 with ⟨w1, hw1, hwlt1, hmul1, hprecon1⟩
  have hQ : doubleWord (q0 * q1) = q0 * q1 := by
    have hlt := product_lt hlt0 hlt1
    apply doubleWord_eq
    simp only [maxBits]
    omega
  refine ⟨w0, w1, ?_, ⟨hwlt0, hmul0⟩, hwlt1, hmul1⟩
  unfold roundTables
  rw [hw0, hw1, hQ]
  simp only [Option.bind_eq_bind, Option.bind_some, hprecon0, hprecon1]
  rfl

theorem roundCoefficient_spec {tables : RoundTables}
    (htables : roundTables q0 q1 = some tables) {x : Nat} :
    roundCoefficient q0 q1 tables (x % q0) (x % q1) =
      let y := if MiddleHalf (q0 * q1) (wordSum q0 q1 x) then x + q0 * q1 / 2 else x
      (y % q0, y % q1) := by
  rcases roundTables_spec h0 h1 hne hlt0 hlt1 with
    ⟨w0, w1, hspec, ⟨hwlt0, hmul0⟩, hwlt1, hmul1⟩
  cases htables.symm.trans hspec
  have hlt := product_lt hlt0 hlt1
  have hdouble {y : Nat} (hy : y < 2 ^ 122) : doubleWord y = y :=
    doubleWord_eq (by simp only [maxBits]; omega)
  have hsum : recompose q0 q1 ⟨(w0, w1), (precon w0 q0, precon w1 q1),
      (q0 * q1 / 2 % q0, q0 * q1 / 2 % q1)⟩ (x % q0) (x % q1) =
      word (digitProduct q0 q1 x) + word (digitProduct q1 q0 x) := by
    unfold recompose
    dsimp only
    rw [digitProduct_eq h0 hlt0 hwlt0 hmul0, digitProduct_eq h1 hlt1 hwlt1 hmul1]
    have hA := word_lt (digitProduct q0 q1 x)
    have hB := word_lt (digitProduct q1 q0 x)
    simp only [maxBits] at hA hB
    exact hdouble (by omega)
  have htest : inMiddleHalf (q0 * q1) (wordSum q0 q1 x) = true <->
      MiddleHalf (q0 * q1) (wordSum q0 q1 x) := by
    unfold inMiddleHalf MiddleHalf
    rw [hdouble (by omega), Bool.and_eq_true, decide_eq_true_iff, decide_eq_true_iff]
  have hadd {q : Nat} (hq : q.Prime) (hq60 : q < 2 ^ 60) :
     
      modAddFast (x % q) (q0 * q1 / 2 % q) q = (x + q0 * q1 / 2) % q := by
    rw [modAddFast_eq (by omega) (Nat.mod_lt _ hq.pos) (Nat.mod_lt _ hq.pos), ← Nat.add_mod]
  unfold roundCoefficient
  dsimp only
  rw [hsum, hdouble (show q0 * q1 < 2 ^ 122 by omega)]
  change (if inMiddleHalf (q0 * q1) (wordSum q0 q1 x) = true then _ else _) = _
  rw [hadd h0 hlt0, hadd h1 hlt1]
  simp only [htest]
  split <;> rfl

theorem polynomialRound_spec {n : Nat} {format : Format} {a : DCRTPoly}
    (ha : DCRTPoly.WellFormed n format [q0, q1] a) {x : Nat -> Nat}
    (hvalue : forall k, k < n -> forall i q,
      [q0, q1][i]? = some q -> DCRTPoly.value a i k = x k % q) :
    exists b, polynomialRound n a = .ok b ∧ DCRTPoly.WellFormed n format [q0, q1] b ∧
      forall k, k < n -> forall i q, [q0, q1][i]? = some q -> DCRTPoly.value b i k =
        (if MiddleHalf (q0 * q1) (wordSum q0 q1 (x k)) then x k + q0 * q1 / 2 else x k) % q := by
  rcases roundTables_spec h0 h1 hne hlt0 hlt1 with ⟨w0, w1, htables, _⟩
  rcases ha.exists_tower (i := 0) rfl with ⟨poly0, hpoly0, hwf0⟩
  rcases ha.exists_tower (i := 1) rfl with ⟨poly1, hpoly1, hwf1⟩
  have hlength := ha.length_eq
  have hpolys : a = [poly0, poly1] := by
    rcases List.length_eq_two.mp hlength with ⟨_, _, rfl⟩
    cases hpoly0
    cases hpoly1
    rfl
  subst hpolys
  let y k := if MiddleHalf (q0 * q1) (wordSum q0 q1 (x k)) then x k + q0 * q1 / 2 else x k
  have hread {q : Nat} {i : Nat} {poly : Poly} (hq : [q0, q1][i]? = some q)
      (hpoly : [poly0, poly1][i]? = some poly) (hwf : poly.WellFormed q n format) {k : Nat}
      (hk : k < n) : poly.values[k]? = some (x k % q) := by
    have hlt : k < poly.values.length := by
      rw [hwf.2.2.1]
      exact hk
    have heq := hvalue k hk i q hq
    rw [DCRTPoly.value_eq hpoly, Poly.value, List.getD_eq_getElem _ _ hlt] at heq
    rw [List.getElem?_eq_getElem hlt, heq]
  rcases mapM_range_spec (n := n)
    (f := fun k => do
      let x0 <- poly0.values[k]?
      let x1 <- poly1.values[k]?
      return roundCoefficient q0 q1 _ x0 x1)
    (fun k p => p = (y k % q0, y k % q1)) (by
      intro k hk
      refine ⟨_, ?_, rfl⟩
      rw [hread (i := 0) rfl rfl hwf0 hk, hread (i := 1) rfl rfl hwf1 hk]
      simp only [Option.bind_eq_bind, Option.bind_some]
      rw [roundCoefficient_spec h0 h1 hne hlt0 hlt1 htables]
      rfl) with ⟨values, hvalues, hlen, hget⟩
  have hdrop {q : Nat} {poly : Poly} (hwf : poly.WellFormed q n format) :
      poly.values.drop n = [] := by
    rw [List.drop_eq_nil_iff, hwf.2.2.1]
  refine ⟨[{ poly0 with values := values.map Prod.fst },
    { poly1 with values := values.map Prod.snd }], ?_, ⟨rfl, ?_⟩, ?_⟩
  · unfold polynomialRound
    dsimp only
    rw [hwf0.1, hwf1.1, htables]
    simp only [Option.bind_eq_bind, Option.bind_some]
    simp only [Option.bind_eq_bind] at hvalues
    rw [hvalues]
    simp only [Option.bind_some, hdrop hwf0, hdrop hwf1, List.append_nil]
    rfl
  · intro i q t hq ht
    rcases pair_entry hq with ⟨rfl, rfl⟩ | ⟨rfl, rfl⟩
    · cases ht
      refine ⟨hwf0.1, hwf0.2.1, by simpa using hlen, ?_⟩
      intro v hv
      rcases List.mem_map.mp hv with ⟨p, hp, rfl⟩
      rcases List.mem_iff_getElem?.mp hp with ⟨k, hk⟩
      rw [hget k p hk]
      exact Nat.mod_lt _ h0.pos
    · cases ht
      refine ⟨hwf1.1, hwf1.2.1, by simpa using hlen, ?_⟩
      intro v hv
      rcases List.mem_map.mp hv with ⟨p, hp, rfl⟩
      rcases List.mem_iff_getElem?.mp hp with ⟨k, hk⟩
      rw [hget k p hk]
      exact Nat.mod_lt _ h1.pos
  · intro k hk i q hq
    have hentry := List.getElem?_eq_getElem (show k < values.length by omega)
    have heq := hget k _ hentry
    rcases pair_entry hq with ⟨rfl, rfl⟩ | ⟨rfl, rfl⟩
    · rw [DCRTPoly.value_eq (i := 0) rfl, Poly.value, List.getD_eq_getElem?_getD,
        List.getElem?_map, hentry, heq]
      rfl
    · rw [DCRTPoly.value_eq (i := 1) rfl, Poly.value, List.getD_eq_getElem?_getD,
        List.getElem?_map, hentry, heq]
      rfl

omit hlt0 hlt1 in
theorem half_changes {x : Nat} (h : forall q, q ∈ [q0, q1] ->
    (x + q0 * q1 / 2) % q = x % q) : False := by
  have hcop : Nat.Coprime q0 q1 := (Nat.coprime_primes h0 h1).mpr hne
  have hdvd {q : Nat} (hq : q ∈ [q0, q1]) : q ∣ q0 * q1 / 2 := by
    have heq : x + q0 * q1 / 2 ≡ x + 0 [MOD q] := h q hq
    exact (Nat.modEq_zero_iff_dvd).mp (Nat.ModEq.add_left_cancel' x heq)
  have hprod : q0 * q1 ∣ q0 * q1 / 2 :=
    hcop.mul_dvd_of_dvd_of_dvd (hdvd (by simp)) (hdvd (by simp))
  have hfour : 2 * 2 <= q0 * q1 := Nat.mul_le_mul h0.two_le h1.two_le
  have hle := Nat.le_of_dvd (by omega) hprod
  omega

end Recomposition

end Scheme
end OpenFHE
