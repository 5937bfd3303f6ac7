import OpenFHE.Hal.Poly
import OpenFHE.Lattice.GaussSampGq
import Mathlib.Algebra.BigOperators.Fin
import Mathlib.Data.Matrix.Mul
import Mathlib.Data.Nat.Size

/-!
# Trapdoor sampling

`TrapdoorGen` hides the gadget vector behind a trapdoor and `GaussSamp` uses the
trapdoor to find a preimage of a syndrome.  An element of the ring stands for its
evaluation format; the change to the coefficient format is an additive bijection.
The draws of the samplers are arguments.
-/

namespace OpenFHE
namespace Lattice

open Finset Matrix

/-!
## The trapdoor
-/

/-- The number `k` of digits; `bal` asks for one more. -/
def digitCount (modulus base : Nat) (bal : Bool) : Nat :=
  -- `floor(log2(val - 1.0) + 1.0)`
  let nBits := Nat.size (modulus - 1)
  -- `ceil(nBits / log2(base))`
  let k := Nat.clog base (2 ^ nBits)
  if bal then k + 1 else k

theorem le_pow_digitCount (modulus : Nat) {base : Nat} (hbase : 2 <= base) (bal : Bool) :
    modulus <= base ^ digitCount modulus base bal := by
  have hsize := Nat.lt_size_self (modulus - 1)
  have hclog := Nat.le_pow_clog hbase (2 ^ Nat.size (modulus - 1))
  have hmono : base ^ Nat.clog base (2 ^ Nat.size (modulus - 1)) <=
      base ^ digitCount modulus base bal := by
    apply Nat.pow_le_pow_right (by omega)
    unfold digitCount
    dsimp only
    split <;> omega
  omega

structure RLWETrapdoorPair (R : Type _) (k : Nat) where
  r : Fin k -> R
  e : Fin k -> R

section Ring

variable {R : Type _} [CommRing R]

/-- The entries of `GadgetVector`, each the product of the one before and the base. -/
def gadgetVector (base : Nat) : Nat -> R
  | 0 => 1
  | i + 1 => gadgetVector base i * base

theorem gadgetVector_eq (base i : Nat) : (gadgetVector base i : R) = base ^ i := by
  induction i with
  | zero => rw [gadgetVector, pow_zero]
  | succ i ih => rw [gadgetVector, ih, pow_succ]

/-- `TrapdoorGen`; `a` is the uniform draw, `r` and `e` are the Gaussian ones. -/
def trapdoorGen {k : Nat} (base : Nat) (a : R) (r e : Fin k -> R) :
    (Fin (k + 2) -> R) × RLWETrapdoorPair R k :=
  (Fin.cons 1 (Fin.cons a fun i => gadgetVector base i - (a * r i + e i)), ⟨r, e⟩)

/-- The last lines of `GaussSamp`: perturbation and trapdoor combine with `zHat`. -/
def zHatPrime {k : Nat} (T : RLWETrapdoorPair R k) (pHat : Fin (k + 2) -> R)
    (zHat : Fin k -> R) : Fin (k + 2) -> R :=
  Fin.cons (pHat 0 + T.e ⬝ᵥ zHat)
    (Fin.cons (pHat 1 + T.r ⬝ᵥ zHat) fun i => pHat i.succ.succ + zHat i)

theorem trapdoorGen_mul_zHatPrime {k : Nat} (base : Nat) (a : R) (r e : Fin k -> R)
    (pHat : Fin (k + 2) -> R) (zHat : Fin k -> R) :
    (trapdoorGen base a r e).1 ⬝ᵥ zHatPrime (trapdoorGen base a r e).2 pHat zHat =
      (trapdoorGen base a r e).1 ⬝ᵥ pHat + ∑ i : Fin k, (base : R) ^ (i : Nat) * zHat i := by
  simp only [trapdoorGen, zHatPrime, dotProduct, Fin.sum_univ_succ, Fin.cons_zero,
    Fin.cons_succ, gadgetVector_eq, Fin.succ_zero_eq_one]
  have hterms : forall i : Fin k,
      ((base : R) ^ (i : Nat) - (a * r i + e i)) * (pHat i.succ.succ + zHat i) =
        ((base : R) ^ (i : Nat) - (a * r i + e i)) * pHat i.succ.succ +
          ((base : R) ^ (i : Nat) * zHat i - (a * (r i * zHat i) + e i * zHat i)) := by
    intro i
    ring
  simp only [hterms, Finset.sum_add_distrib, Finset.sum_sub_distrib, <- Finset.mul_sum]
  ring

end Ring

/-!
## Preimages
-/

/-- The assignment of signed integers to a polynomial; the subtraction stops at zero. -/
def ofInt64 (m : Nat) (x : Int) : Nat := if x < 0 then m - (-x).toNat else x.toNat

theorem cast_ofInt64 {m : Nat} {x : Int} (hx : -(m : Int) <= x) :
    ((ofInt64 m x : Nat) : ZMod m) = (x : ZMod m) := by
  have hnat : ((ofInt64 m x : Nat) : Int) = if x < 0 then m + x else x := by
    unfold ofInt64
    split <;> omega
  have hcast := congrArg (fun y : Int => (y : ZMod m)) hnat
  rw [Int.cast_natCast] at hcast
  rw [hcast]
  split
  · rw [Int.cast_add, Int.cast_natCast, ZMod.natCast_self, zero_add]
  · rfl

theorem ofInt64_eq_zero {m : Nat} {x : Int} (hx : x < -(m : Int)) : ofInt64 m x = 0 := by
  rw [ofInt64, if_pos (by omega)]
  omega

/-- What the two samplers of `GaussSamp` return. -/
structure GaussDraws (R : Type _) (k n : Nat) where
  pHat : Fin (k + 2) -> R
  zj : Fin n -> Nat -> Int

section Preimage

variable {R : Type _} [CommRing R] {q n k : Nat} (coefficients : R ≃+ (Fin n -> ZMod q))
  (base : Nat) (A : Fin (k + 2) -> R) (T : RLWETrapdoorPair R k) (u : R)
  (draws : GaussDraws R k n)

def perturbedSyndrome : R := u - A ⬝ᵥ draws.pHat

/-- The coefficient `j` of the perturbed syndrome, an integer below the modulus. -/
def syndromeCoefficient (j : Fin n) : Nat :=
  (coefficients (perturbedSyndrome A u draws) j).val

def zHatBBI (t : Nat) (j : Fin n) : Int :=
  gaussSampGq k q base (syndromeCoefficient coefficients A u draws j) (draws.zj j) t

/-- `SplitInt64AltIntoElements` and the change to the evaluation format. -/
def zHat (t : Fin k) : R :=
  coefficients.symm fun j => (ofInt64 q (zHatBBI coefficients base A u draws t j) : Nat)

def gaussSamp : Fin (k + 2) -> R :=
  zHatPrime T draws.pHat (zHat coefficients base A u draws)

/-- All columns recombine to the perturbed syndrome, and the result is a preimage. -/
def PreimageExact : Prop :=
  (forall j, ColumnExact k q base (syndromeCoefficient coefficients A u draws j)
    (draws.zj j)) ∧ A ⬝ᵥ gaussSamp coefficients base A T u draws = u

end Preimage

section Exact

variable {R : Type _} [CommRing R] {q n k : Nat} (coefficients : R ≃+ (Fin n -> ZMod q))
  {base : Nat} (a : R) (r e : Fin k -> R) (u : R) (draws : GaussDraws R k n)

theorem coefficients_sum (z : Fin k -> Fin n -> ZMod q) (j : Fin n) :
    coefficients (∑ i : Fin k, (base : R) ^ (i : Nat) * coefficients.symm (z i)) j =
      ∑ i : Fin k, (base : ZMod q) ^ (i : Nat) * z i j := by
  rw [map_sum, Finset.sum_apply]
  apply Finset.sum_congr rfl
  intro i _
  rw [<- Nat.cast_pow, <- nsmul_eq_mul, map_nsmul, AddEquiv.apply_symm_apply, Pi.smul_apply,
    nsmul_eq_mul, Nat.cast_pow]

theorem gaussSamp_preimage_iff :
    (trapdoorGen base a r e).1 ⬝ᵥ gaussSamp coefficients base (trapdoorGen base a r e).1
        (trapdoorGen base a r e).2 u draws = u <->
      forall j, ∑ i : Fin k, (base : ZMod q) ^ (i : Nat) *
          (ofInt64 q (zHatBBI coefficients base (trapdoorGen base a r e).1 u draws i j) : Nat) =
        coefficients (perturbedSyndrome (trapdoorGen base a r e).1 u draws) j := by
  rw [gaussSamp, trapdoorGen_mul_zHatPrime, <- eq_sub_iff_add_eq', <- perturbedSyndrome,
    <- coefficients.injective.eq_iff, funext_iff]
  apply forall_congr'
  intro j
  unfold zHat
  rw [coefficients_sum]

variable [NeZero q]

theorem cast_syndromeCoefficient (A : Fin (k + 2) -> R) (j : Fin n) :
    ((syndromeCoefficient coefficients A u draws j : Nat) : ZMod q) =
      coefficients (perturbedSyndrome A u draws) j :=
  ZMod.natCast_rightInverse _

theorem stored_sum_eq {A : Fin (k + 2) -> R} {j : Fin n}
    (hrange : forall t : Fin k, -(q : Int) <= zHatBBI coefficients base A u draws t j)
    (hexact : ColumnExact k q base (syndromeCoefficient coefficients A u draws j)
      (draws.zj j)) :
    ∑ i : Fin k, (base : ZMod q) ^ (i : Nat) *
        (ofInt64 q (zHatBBI coefficients base A u draws i j) : Nat) =
      coefficients (perturbedSyndrome A u draws) j := by
  rw [<- cast_syndromeCoefficient]
  have hcolumn := (ZMod.intCast_eq_intCast_iff _ _ q).mpr hexact
  rw [Int.cast_natCast] at hcolumn
  rw [<- hcolumn, Finset.sum_range, Int.cast_sum]
  apply Finset.sum_congr rfl
  intro i _
  rw [cast_ofInt64 (hrange i), Int.cast_mul, Int.cast_pow, Int.cast_natCast]
  rfl

omit [NeZero q] in
theorem syndromeCoefficient_constant {v : Nat} (hv : v < q) (zj : Nat -> Int)
    (A : Fin (k + 2) -> R) (j : Fin n) :
    syndromeCoefficient coefficients A (coefficients.symm fun _ => (v : ZMod q))
      ⟨0, fun _ => zj⟩ j = v := by
  rw [syndromeCoefficient, perturbedSyndrome, dotProduct_zero, sub_zero,
    AddEquiv.apply_symm_apply, ZMod.val_cast_of_lt hv]

omit [NeZero q] in
theorem exists_constant_run {v : Nat} (hv : v < q) (zj : Nat -> Int) :
    exists (u : R) (draws : GaussDraws R k n), forall (A : Fin (k + 2) -> R) (j : Fin n),
      syndromeCoefficient coefficients A u draws j = v ∧ draws.zj j = zj :=
  ⟨_, _, fun A j => ⟨syndromeCoefficient_constant coefficients hv zj A j, rfl⟩⟩

end Exact

/-!
## Exactness
-/

section Contract

variable {R : Type _} [CommRing R] {q n : Nat} (coefficients : R ≃+ (Fin n -> ZMod q))

/--
Every trapdoor, syndrome and outcome of the draws gives exact columns and an exact
preimage, as long as the entries of the columns stay in `[-bound, bound)`.
-/
def TrapdoorContract (base k : Nat) (bound : Int) : Prop :=
  forall (a : R) (r e : Fin k -> R) (u : R) (draws : GaussDraws R k n),
    (forall (t : Nat) (j : Fin n), t < k ->
      -bound <= zHatBBI coefficients base (trapdoorGen base a r e).1 u draws t j ∧
        zHatBBI coefficients base (trapdoorGen base a r e).1 u draws t j < bound) ->
    PreimageExact coefficients base (trapdoorGen base a r e).1 (trapdoorGen base a r e).2 u
      draws

variable {base k : Nat} {bound : Int} (hn : 0 < n) (hq : 2 <= q) (hk : 2 <= k)

include hn hk in
theorem base_of_trapdoorContract (hbound : 2 <= bound) (hbase : 2 <= base) [NeZero q]
    (h : TrapdoorContract coefficients base k bound) :
    (exists w, base = 2 ^ w) ∨ q < 2 ^ baseDigits base := by
  by_contra hnot
  rw [not_or, not_lt] at hnot
  rcases exists_not_columnExact hk hbase hnot.1 hnot.2 with ⟨v, zj, hv, hrows, hcolumn⟩
  rcases exists_constant_run coefficients hv zj with ⟨u, draws, hrun⟩
  have hexact := h 0 0 0 u draws ?_
  · have hfirst := hexact.1 ⟨0, hn⟩
    rw [(hrun _ _).1, (hrun 0 _).2] at hfirst
    exact hcolumn hfirst
  · intro t j ht
    rw [zHatBBI, (hrun _ _).1, (hrun 0 _).2]
    rcases hrows t ht with hzero | hone <;> omega

include hn hq hk in
theorem bound_of_trapdoorContract (hbase : 2 <= base)
    (hdigits : (exists w, base = 2 ^ w) ∨ q < 2 ^ baseDigits base)
    (h : TrapdoorContract coefficients base k bound) : bound <= q := by
  by_contra hnot
  have : NeZero q := ⟨by omega⟩
  have : Fact (1 < q) := ⟨by omega⟩
  rcases exists_saturating_column hk hbase hq hdigits with ⟨v, zj, hv, hfirst, hrest⟩
  rcases exists_constant_run coefficients hv zj with ⟨u, draws, hrun⟩
  have hexact := h 0 0 0 u draws ?_
  · have hpreimage := (gaussSamp_preimage_iff _ _ _ _ _ _).mp hexact.2 ⟨0, hn⟩
    have hcolumn := (ZMod.intCast_eq_intCast_iff _ _ q).mpr (hexact.1 ⟨0, hn⟩)
    rw [<- cast_syndromeCoefficient] at hpreimage
    rw [Int.cast_natCast, <- hpreimage, Finset.sum_range, Int.cast_sum] at hcolumn
    obtain ⟨l, rfl⟩ : exists l, k = l + 1 := ⟨k - 1, by omega⟩
    rw [Fin.sum_univ_succ, Fin.sum_univ_succ] at hcolumn
    have hrows : forall t : Fin (l + 1),
        zHatBBI coefficients base (trapdoorGen base 0 0 0).1 u draws t ⟨0, hn⟩ =
          gaussSampGq (l + 1) q base v zj t := by
      intro t
      rw [zHatBBI, (hrun _ _).1, (hrun 0 _).2]
    have hsame : forall i : Fin l,
        ((base ^ ((i.succ : Fin (l + 1)) : Nat) * gaussSampGq (l + 1) q base v zj i.succ :
          Int) : ZMod q) = (base : ZMod q) ^ ((i.succ : Fin (l + 1)) : Nat) *
            (ofInt64 q (gaussSampGq (l + 1) q base v zj i.succ) : Nat) := by
      intro i
      have hnonneg := (hrest i.succ (by simp) i.succ.isLt).1
      rw [cast_ofInt64 (by omega), Int.cast_mul, Int.cast_pow, Int.cast_natCast]
    simp only [hrows, (hrun _ _).1, (hrun 0 _).2, hsame, add_left_inj] at hcolumn
    rw [Fin.val_zero, hfirst, ofInt64_eq_zero (by omega)] at hcolumn
    simp at hcolumn
  · intro t j ht
    rw [zHatBBI, (hrun _ _).1, (hrun 0 _).2]
    rcases Nat.eq_zero_or_pos t with rfl | hpos
    · omega
    · have := hrest t hpos ht
      omega

include hn hq hk in
/--
The contract holds exactly if the digits belong to the base, or one digit is enough,
and if no entry below `-q` can occur.
-/
theorem trapdoorContract_iff (hbase : 2 <= base) (bal : Bool)
    (hcount : k = digitCount q base bal) (hbound : 2 <= bound) :
    TrapdoorContract coefficients base k bound <->
      ((exists w, base = 2 ^ w) ∨ q < 2 ^ baseDigits base) ∧ bound <= q := by
  have : NeZero q := ⟨by omega⟩
  constructor
  · intro h
    have hdigits := base_of_trapdoorContract coefficients hn hk hbound hbase h
    exact ⟨hdigits, bound_of_trapdoorContract coefficients hn hq hk hbase hdigits h⟩
  · rintro ⟨hdigits, hle⟩ a r e u draws hrange
    have hpow : q <= base ^ k := hcount ▸ le_pow_digitCount q hbase bal
    have hcolumns : forall j, ColumnExact k q base
        (syndromeCoefficient coefficients (trapdoorGen base a r e).1 u draws j)
        (draws.zj j) :=
      fun j => columnExact_of_digits hk hpow hdigits (ZMod.val_lt _) _
    refine ⟨hcolumns, (gaussSamp_preimage_iff _ _ _ _ _ _).mpr ?_⟩
    intro j
    apply stored_sum_eq _ _ _ _ (hcolumns j)
    intro t
    have hlow := (hrange t j t.isLt).1
    omega

end Contract

/-!
## Native polynomials

The formats of `NativePoly` are related by such a bijection: the transform of its tables.
-/

section Native

open Foundation Hal

variable {cache : Poly.TableCache} {l q psi : Nat} (hl : 0 < l) (hl31 : l <= 31)
  (h : Poly.Ready cache l q psi)

include h in
theorem isUnit_two_of_ready : IsUnit (2 : ZMod q) := by
  have hodd := h.modulus.odd
  apply (ZMod.isUnit_iff_coprime 2 q).mpr
  exact (Nat.coprime_two_left).mpr (Nat.odd_iff.mpr hodd)

noncomputable def nativeCoefficients (h : Poly.Ready cache l q psi) :
    (Fin (2 ^ l) -> ZMod q) ≃+ (Fin (2 ^ l) -> ZMod q) :=
  have : NeZero q := ⟨by have := h.modulus.one_lt; omega⟩
  (stageEquiv h.root (isUnit_two_of_ready h)).symm

end Native

/-!
## A small ring
-/

/-- The coefficients in `Z_17[x]/(x ^ 2 + 1)`, from the values at the powers of the root 4. -/
noncomputable def coefficientsSeventeen : (Fin (2 ^ 1) -> ZMod 17) ≃+ (Fin (2 ^ 1) -> ZMod 17) :=
  nativeCoefficients (Hal.Poly.smallReady (q := 17) (by decide))

theorem trapdoorContract_iff_seventeen :
    TrapdoorContract coefficientsSeventeen 2 5 17 <->
      ((exists w, 2 = 2 ^ w) ∨ 17 < 2 ^ baseDigits 2) ∧ (17 : Int) <= (17 : Nat) :=
  trapdoorContract_iff coefficientsSeventeen (by decide) (by decide) (by decide) (by decide)
    false (by decide) (by decide)

/--
With the base three the digits of the syndrome 4 are those of the base four.  With the
base two the entry -18 of a column is stored as zero.
-/
theorem gaussSamp_not_exact :
    digitCount 17 3 false = 4 ∧ digitCount 17 2 false = 5 ∧
      (forall (a : Fin (2 ^ 1) -> ZMod 17) (r e : Fin 4 -> Fin (2 ^ 1) -> ZMod 17),
        ¬ PreimageExact coefficientsSeventeen 3 (trapdoorGen 3 a r e).1 (trapdoorGen 3 a r e).2
          (coefficientsSeventeen.symm fun _ => (4 : Nat)) ⟨0, fun _ _ => 0⟩) ∧
      forall (a : Fin (2 ^ 1) -> ZMod 17) (r e : Fin 5 -> Fin (2 ^ 1) -> ZMod 17),
        ¬ PreimageExact coefficientsSeventeen 2 (trapdoorGen 2 a r e).1 (trapdoorGen 2 a r e).2
          (coefficientsSeventeen.symm fun _ => (0 : Nat))
          ⟨0, fun _ i => if i = 0 then -9 else 0⟩ := by
  refine ⟨by decide, by decide, ?_, ?_⟩
  · rintro a r e ⟨hcolumns, _⟩
    have hcolumn := hcolumns 0
    rw [syndromeCoefficient_constant coefficientsSeventeen (by decide)] at hcolumn
    revert hcolumn
    unfold ColumnExact
    decide
  · rintro a r e ⟨_, hpreimage⟩
    have hstored := (gaussSamp_preimage_iff _ _ _ _ _ _).mp hpreimage 0
    rw [<- cast_syndromeCoefficient] at hstored
    unfold zHatBBI at hstored
    rw [syndromeCoefficient_constant coefficientsSeventeen (by decide)] at hstored
    revert hstored
    decide

end Lattice
end OpenFHE
