import OpenFHE.Core.NumberTheory.IntVector
import Mathlib.Algebra.Polynomial.Div

/-!
# Synthetic division

`SyntheticRemainder` and `SyntheticPolynomialDivision` run through the coefficients from the
highest one down with the same step.  The values that the step passes through are the
coefficients of the quotient, and the last of them is the remainder.
-/

namespace OpenFHE
namespace Core

open Foundation NativeInteger

namespace IntVectorType

theorem usint_sub_one {n : Nat} (h : n + 1 < 2 ^ 32 + 1) :
    usint (((n + 1 : Nat) : Int) - 1) = n := by
  unfold usint
  omega

variable (T : IntVectorType)

/-- The body of the loop of `SyntheticRemainder`. -/
def remainderStep (dividend : List Nat) (a modulus mu val i : Nat) : Outcome Nat := do
  let x <- entry dividend i
  T.modMu (T.add x (T.mul a val)) modulus mu

def syntheticRemainder (dividend : IntVector) (a modulus : Nat) : Outcome Nat := do
  let mu <- T.computeMu modulus
  let val <- entry dividend.data (subFast dividend.getLength 1)
  (List.range (int32 ((dividend.getLength : Int) - 2) + 1).toNat).reverse.foldlM
    (T.remainderStep dividend.data a modulus mu) val

/-- The body of the loop of `SyntheticPolynomialDivision`, whose counter is one more than `k`. -/
def quotientStep (dividend : List Nat) (a modulus mu : Nat) (s : Nat × List Nat) (k : Nat) :
    Outcome (Nat × List Nat) := do
  let x <- entry dividend (k + 1)
  let val <- T.modMu (T.add (T.mul s.1 a) x) modulus mu
  let result <- store s.2 k val
  return (val, result)

def syntheticPolynomialDivision (dividend : IntVector) (a modulus : Nat) :
    Outcome IntVector := do
  let mu <- T.computeMu modulus
  let n := usint ((dividend.getLength : Int) - 1)
  let val <- entry dividend.data n
  let result <- store (List.replicate n 0) (usint ((n : Int) - 1)) val
  let s <- (List.range (int32 ((n : Int) - 1)).toNat).reverse.foldlM
    (T.quotientStep dividend.data a modulus mu) (val, result)
  return { data := s.2, modulus := modulus }

def syntheticValues (a modulus mu : Nat) : List Nat -> Outcome (List Nat)
  | [] => .ok []
  | x :: xs => do
      let values <- syntheticValues a modulus mu xs
      match values with
      | [] => return [x]
      | val :: _ => do
          let val' <- T.modMu (T.add x (T.mul a val)) modulus mu
          return val' :: values

section Values

variable {T} {a m mu : Nat}

theorem syntheticValues_length {xs values : List Nat}
    (h : T.syntheticValues a m mu xs = .ok values) : values.length = xs.length := by
  induction xs generalizing values with
  | nil =>
      cases h
      rfl
  | cons x xs ih =>
      rcases bind_eq_ok h with ⟨rest, hrest, hstep⟩
      have hlength := ih hrest
      cases rest with
      | nil =>
          cases hstep
          exact congrArg Nat.succ hlength
      | cons val rest =>
          rcases bind_eq_ok hstep with ⟨val', _, hvalues⟩
          cases hvalues
          exact congrArg Nat.succ hlength

theorem syntheticValues_cons {x val : Nat} {xs rest : List Nat}
    (h : T.syntheticValues a m mu xs = .ok (val :: rest)) :
    T.syntheticValues a m mu (x :: xs) =
      (T.modMu (T.add x (T.mul a val)) m mu >>= fun val' => .ok (val' :: val :: rest)) := by
  rw [syntheticValues, h]
  rfl

theorem syntheticValues_error {x : Nat} {xs : List Nat} {e : RuntimeFault}
    (h : T.syntheticValues a m mu xs = .error e) :
    T.syntheticValues a m mu (x :: xs) = .error e := by
  rw [syntheticValues, h]
  rfl

theorem syntheticValues_singleton (x : Nat) : T.syntheticValues a m mu [x] = .ok [x] := rfl

theorem syntheticValues_head {x : Nat} {xs values : List Nat}
    (h : T.syntheticValues a m mu (x :: xs) = .ok values) :
    exists val rest, values = val :: rest := by
  have hlength := syntheticValues_length h
  cases values with
  | nil => cases hlength
  | cons val rest => exact ⟨val, rest, rfl⟩

/-! ## The loops -/

theorem entry_cons_zero {x : Nat} {xs : List Nat} : entry (x :: xs) 0 = .ok x := rfl

theorem drop_cons {xs : List Nat} {k : Nat} (hk : k < xs.length) :
    xs.drop k = xs[k] :: xs.drop (k + 1) := List.drop_eq_getElem_cons hk

theorem remainderLoop_eq {xs : List Nat} {k : Nat} (hk : k < xs.length) :
    (T.syntheticValues a m mu (xs.drop k) >>= fun values => entry values 0 >>= fun val =>
      (List.range k).reverse.foldlM (T.remainderStep xs a m mu) val) =
    T.syntheticValues a m mu xs >>= fun values => entry values 0 := by
  induction k with
  | zero =>
      simp only [List.drop_zero, List.range_zero, List.reverse_nil, List.foldlM_nil, bind_pure]
  | succ k ih =>
      have hlt : k < xs.length := Nat.lt_of_succ_lt hk
      have hentry : entry xs k = .ok xs[k] := entry_ok (List.getElem?_eq_getElem hlt)
      rw [← ih hlt, drop_cons hlt, List.range_succ, List.reverse_append]
      cases hvalues : T.syntheticValues a m mu (xs.drop (k + 1)) with
      | error e => rw [syntheticValues_error hvalues, error_bind, error_bind]
      | ok values =>
          rw [drop_cons hk] at hvalues
          rcases syntheticValues_head hvalues with ⟨val, rest, rfl⟩
          rw [← drop_cons hk] at hvalues
          rw [syntheticValues_cons hvalues, ok_bind, entry_cons_zero, ok_bind,
            List.reverse_singleton, List.singleton_append, List.foldlM_cons, remainderStep, hentry,
            ok_bind, bind_assoc]
          simp only [ok_bind, entry_cons_zero]

theorem set_replicate_append (k x : Nat) (values : List Nat) :
    (List.replicate (k + 1) 0 ++ values).set k x = List.replicate k 0 ++ x :: values := by
  rw [List.replicate_succ', List.append_assoc, List.set_append_right _ _ (by simp),
    List.length_replicate, Nat.sub_self, List.singleton_append, List.set_cons_zero]

theorem quotientLoop_eq (hcomm : Commutes T) {x₀ : Nat} {xs : List Nat} {k : Nat}
    (hk : k < xs.length) :
    (T.syntheticValues a m mu (xs.drop k) >>= fun values => entry values 0 >>= fun val =>
      (List.range k).reverse.foldlM (T.quotientStep (x₀ :: xs) a m mu)
        (val, List.replicate k 0 ++ values)) =
    T.syntheticValues a m mu xs >>= fun values => entry values 0 >>= fun val =>
      .ok (val, values) := by
  induction k with
  | zero =>
      simp only [List.drop_zero, List.range_zero, List.reverse_nil, List.foldlM_nil,
        List.replicate_zero, List.nil_append]
      rfl
  | succ k ih =>
      have hlt : k < xs.length := Nat.lt_of_succ_lt hk
      have hentry : entry (x₀ :: xs) (k + 1) = .ok xs[k] :=
        entry_ok (by rw [List.getElem?_cons_succ, List.getElem?_eq_getElem hlt])
      rw [← ih hlt, drop_cons hlt, List.range_succ, List.reverse_append]
      cases hvalues : T.syntheticValues a m mu (xs.drop (k + 1)) with
      | error e => rw [syntheticValues_error hvalues, error_bind, error_bind]
      | ok values =>
          rw [drop_cons hk] at hvalues
          rcases syntheticValues_head hvalues with ⟨val, rest, rfl⟩
          rw [← drop_cons hk] at hvalues
          have hstore (v : Nat) : store (List.replicate (k + 1) 0 ++ val :: rest) k v =
              .ok (List.replicate k 0 ++ v :: val :: rest) := by
            rw [store_ok, set_replicate_append]
            simp only [List.length_append, List.length_replicate]
            omega
          rw [syntheticValues_cons hvalues, ok_bind, entry_cons_zero, ok_bind,
            List.reverse_singleton, List.singleton_append, List.foldlM_cons, quotientStep, hentry,
            ok_bind, bind_assoc, bind_assoc, hcomm.mul val a, hcomm.add _ xs[k]]
          simp only [ok_bind, entry_cons_zero, hstore]
          rfl

/-! ## What the functions return -/

section Returns

variable {dividend : IntVector} (hmu : T.computeMu m = .ok mu)

include hmu

theorem syntheticRemainder_eq (hpos : 1 <= dividend.getLength)
    (hint : dividend.getLength <= 2 ^ 31 + 1) :
    T.syntheticRemainder dividend a m =
      T.syntheticValues a m mu dividend.data >>= fun values => entry values 0 := by
  have hlength : dividend.data.length = dividend.getLength := rfl
  have hlast : dividend.getLength - 1 < dividend.data.length :=
    Nat.sub_lt hpos Nat.one_pos
  have hsub : subFast dividend.getLength 1 = dividend.getLength - 1 :=
    subFast_eq hpos (hint.trans_lt (by decide))
  have hcount : (int32 ((dividend.getLength : Int) - 2) + 1).toNat = dividend.getLength - 1 := by
    rw [int32_of_bounds (by omega) (by omega)]
    omega
  have hdrop : dividend.data.drop (dividend.getLength - 1) =
      [dividend.data[dividend.getLength - 1]] := by
    rw [drop_cons hlast, List.drop_eq_nil_of_le (by omega)]
  unfold syntheticRemainder
  rw [hmu, ok_bind, ← remainderLoop_eq hlast, hdrop, syntheticValues_singleton, ok_bind,
    entry_cons_zero, ok_bind, hsub, hcount, entry_ok (List.getElem?_eq_getElem hlast), ok_bind]

theorem syntheticRemainder_long (hlong : 2 ^ 31 + 1 < dividend.getLength)
    (hlt : dividend.getLength < 2 ^ 32) :
    T.syntheticRemainder dividend a m = entry dividend.data (dividend.getLength - 1) := by
  have hsub : subFast dividend.getLength 1 = dividend.getLength - 1 :=
    subFast_eq (by omega) (hlt.trans (by decide))
  have hcount : (int32 ((dividend.getLength : Int) - 2) + 1).toNat = 0 := by
    rw [int32_wraps (by omega) (by omega)]
    omega
  unfold syntheticRemainder
  rw [hmu, ok_bind, hsub, hcount]
  exact bind_pure _

theorem syntheticPolynomialDivision_constant (x : Nat) (modulus : Nat) :
    T.syntheticPolynomialDivision ⟨[x], modulus⟩ a m = .error .undefined := by
  have hn : usint (((IntVector.getLength ⟨[x], modulus⟩ : Nat) : Int) - 1) = 0 := rfl
  unfold syntheticPolynomialDivision
  rw [hmu, ok_bind]
  dsimp only
  rw [hn, entry_cons_zero, ok_bind, store_undefined _ (Nat.zero_le _), error_bind]

theorem syntheticPolynomialDivision_start {x₀ k modulus : Nat} {xs : List Nat}
    (hlength : xs.length = k + 1) (hlt : k + 1 < 2 ^ 32) :
    exists last, xs.drop k = [last] ∧
      T.syntheticPolynomialDivision ⟨x₀ :: xs, modulus⟩ a m =
        ((List.range (int32 k).toNat).reverse.foldlM (T.quotientStep (x₀ :: xs) a m mu)
          (last, List.replicate k 0 ++ [last]) >>= fun s => .ok ⟨s.2, m⟩) := by
  have hk : k < xs.length := by omega
  have hn : usint (((IntVector.getLength ⟨x₀ :: xs, modulus⟩ : Nat) : Int) - 1) = k + 1 := by
    show usint (((xs.length + 1 : Nat) : Int) - 1) = k + 1
    rw [hlength, usint_sub_one (by omega)]
  have hlast : usint (((k + 1 : Nat) : Int) - 1) = k := usint_sub_one (by omega)
  have hcount : (((k + 1 : Nat) : Int) - 1) = k := by omega
  refine ⟨xs[k], ?_, ?_⟩
  · rw [drop_cons hk, List.drop_eq_nil_of_le hlength.le]
  · have hentry : entry (x₀ :: xs) (k + 1) = .ok xs[k] :=
      entry_ok (by rw [List.getElem?_cons_succ, List.getElem?_eq_getElem hk])
    have hstore : store (List.replicate (k + 1) 0) k xs[k] =
        .ok (List.replicate k 0 ++ [xs[k]]) := by
      have hset := set_replicate_append k xs[k] []
      rw [List.append_nil] at hset
      rw [store_ok _ (by rw [List.length_replicate]; omega), hset]
    unfold syntheticPolynomialDivision
    rw [hmu, ok_bind]
    dsimp only
    rw [hn, hlast, hentry, ok_bind, hstore, ok_bind, hcount]
    rfl

theorem syntheticPolynomialDivision_eq (hcomm : Commutes T) {x₀ k modulus : Nat} {xs : List Nat}
    (hlength : xs.length = k + 1) (hint : k < 2 ^ 31) :
    T.syntheticPolynomialDivision ⟨x₀ :: xs, modulus⟩ a m =
      T.syntheticValues a m mu xs >>= fun values => .ok ⟨values, m⟩ := by
  rcases @syntheticPolynomialDivision_start T a m mu hmu x₀ k modulus xs hlength (by omega) with ⟨last, hdrop, hrun⟩
  have hloop := @quotientLoop_eq T a m mu hcomm x₀ xs k (by omega)
  rw [hdrop, syntheticValues_singleton, ok_bind, entry_cons_zero, ok_bind] at hloop
  rw [hrun, int32_natCast hint, Int.toNat_natCast, hloop, bind_assoc]
  cases hvalues : T.syntheticValues a m mu xs with
  | error e => rfl
  | ok values =>
      cases xs with
      | nil => cases hlength
      | cons x xs =>
          rcases syntheticValues_head hvalues with ⟨val, rest, rfl⟩
          rfl

theorem syntheticPolynomialDivision_long {x₀ k modulus : Nat} {xs : List Nat}
    (hlength : xs.length = k + 1) (hlong : 2 ^ 31 <= k) (hlt : k + 1 < 2 ^ 32) :
    exists last, xs.drop k = [last] ∧ T.syntheticPolynomialDivision ⟨x₀ :: xs, modulus⟩ a m =
      .ok ⟨List.replicate k 0 ++ [last], m⟩ := by
  rcases @syntheticPolynomialDivision_start T a m mu hmu x₀ k modulus xs hlength hlt with ⟨last, hdrop, hrun⟩
  have hcount : (int32 (k : Int)).toNat = 0 := by
    rw [int32_wraps (by omega) (by omega)]
    omega
  refine ⟨last, hdrop, ?_⟩
  rw [hrun, hcount]
  rfl

end Returns

end Values

/-! ## Quotients and remainders -/

section Polynomials

open Polynomial

/-- The remainder of every dividend with `L` coefficients is its value. -/
def RemainderRight (m L : Nat) : Prop :=
  forall (P : (ZMod m)[X]) (dividend : IntVector) (a : Nat), dividend.getLength = L ->
    Coefficients (IsResidue m) P dividend.data -> a < m ->
    exists y, T.syntheticRemainder dividend a m = .ok y ∧ IsResidue m (P.eval (a : ZMod m)) y

/-- The quotient of every dividend with `L` coefficients is right. -/
def QuotientRight (m L : Nat) : Prop :=
  forall (P : (ZMod m)[X]) (dividend : IntVector) (a : Nat), dividend.getLength = L ->
    Coefficients (IsResidue m) P dividend.data -> a < m ->
    exists (Q : (ZMod m)[X]) (quotient : IntVector),
      T.syntheticPolynomialDivision dividend a m = .ok quotient ∧ quotient.modulus = m ∧
      quotient.getLength = L - 1 ∧ Coefficients (IsResidue m) Q quotient.data ∧
      P = (X - C (a : ZMod m)) * Q + C (P.eval (a : ZMod m))

variable {T} {m mu a : Nat}

/-- The values are the coefficients of the quotient of the shifted polynomial. -/
structure QuotientValues (a : Nat) (P S : (ZMod m)[X]) : Prop where
  head : S.coeff 0 = P.eval (a : ZMod m)
  shifted : X * P = (X - C (a : ZMod m)) * S + C ((a : ZMod m) * P.eval (a : ZMod m))

theorem QuotientValues.constant {P : (ZMod m)[X]} {c : ZMod m} (h : P = C c) :
    QuotientValues a P P := by
  subst h
  constructor
  case head => rw [coeff_C_zero, eval_C]
  case shifted =>
    rw [eval_C, C_mul]
    ring

theorem QuotientValues.step {P S : (ZMod m)[X]} (h : QuotientValues a P.divX S) :
    QuotientValues a P (C (P.coeff 0 + a * P.divX.eval (a : ZMod m)) + X * S) := by
  have heval : P.eval (a : ZMod m) = P.coeff 0 + a * P.divX.eval (a : ZMod m) := by
    conv_lhs => rw [← divX_mul_X_add P]
    rw [eval_add, eval_mul, eval_X, eval_C]
    ring
  have hsplit := divX_mul_X_add P
  constructor
  case head => rw [coeff_add, coeff_C_zero, coeff_X_mul_zero, add_zero, heval]
  case shifted =>
    rw [heval]
    have hshifted := h.shifted
    generalize P.divX.eval (a : ZMod m) = d at hshifted ⊢
    simp only [C_add, C_mul] at hshifted ⊢
    linear_combination X * hshifted - X * hsplit

theorem syntheticValues_spec {xs : List Nat} (hred : 2 <= xs.length -> ReductionsRight T m mu)
    (ha : a < m) {P : (ZMod m)[X]} (h : Coefficients (IsResidue m) P xs) (hne : xs ≠ []) :
    exists values S, T.syntheticValues a m mu xs = .ok values ∧ values.length = xs.length ∧
      Coefficients (IsResidue m) S values ∧ QuotientValues a P S := by
  induction xs generalizing P with
  | nil => exact absurd rfl hne
  | cons x xs ih =>
      cases xs with
      | nil =>
          have hconstant : P = C (P.coeff 0) := by
            ext k
            cases k with
            | zero => rw [coeff_C_zero]
            | succ k =>
                rw [coeff_C_succ]
                exact h.coeff_eq_zero (k + 1) (Nat.le_add_left 1 k)
          exact ⟨[x], P, rfl, rfl, h, QuotientValues.constant hconstant⟩
      | cons y ys =>
          have hright := hred (Nat.le_add_left 2 ys.length)
          rcases ih (fun _ => hright) h.tail (List.cons_ne_nil y ys) with
            ⟨values, S, hrun, hlength, hcoeffs, hquotient⟩
          rcases syntheticValues_head hrun with ⟨val, rest, rfl⟩
          have hx := h.head
          have hval := hcoeffs.head
          rw [hquotient.head] at hval
          rcases hright x a val hx.lt ha hval.lt with ⟨z, hz, hres⟩
          rw [hx.cast, hval.cast] at hres
          refine ⟨z :: val :: rest, _, ?_, ?_, hcoeffs.cons hres, hquotient.step⟩
          · rw [syntheticValues_cons hrun, hz, ok_bind]
          · exact congrArg Nat.succ hlength

/-! ## Where they are right -/

section Right

variable (hm : 0 < m) (hmu : T.computeMu m = .ok mu) (hkeep : KeepsResidues T m mu)

theorem syntheticValues_zeros (ha : a < m) {n : Nat} {x : Nat} (hx : x < m)
    (hkeep : KeepsResidues T m mu) {values : List Nat}
    (h : T.syntheticValues a m mu (x :: List.replicate n 0) = .ok values) :
    exists rest, values = x :: rest := by
  induction n generalizing x values with
  | zero =>
      cases h
      exact ⟨[], rfl⟩
  | succ n ih =>
      rw [List.replicate_succ] at h
      cases hrest : T.syntheticValues a m mu (0 :: List.replicate n 0) with
      | error e =>
          rw [syntheticValues_error hrest] at h
          cases h
      | ok rest =>
          rcases ih (Nat.zero_lt_of_lt hx) hrest with ⟨rest', rfl⟩
          rw [syntheticValues_cons hrest] at h
          rcases bind_eq_ok h with ⟨z, hz, hvalues⟩
          cases hkeep x a z hx ha hz
          cases hvalues
          exact ⟨_, rfl⟩

theorem syntheticValues_two (ha : a < m) (hkeep : KeepsResidues T m mu) {r b : Nat}
    (hb : b < m) {n : Nat} {values : List Nat}
    (h : T.syntheticValues a m mu (r :: b :: List.replicate n 0) = .ok values) :
    exists z rest, values = z :: rest ∧ T.modMu (T.add r (T.mul a b)) m mu = .ok z := by
  cases hrest : T.syntheticValues a m mu (b :: List.replicate n 0) with
  | error e =>
      rw [syntheticValues_error hrest] at h
      cases h
  | ok rest =>
      rcases syntheticValues_zeros ha hb hkeep hrest with ⟨rest', rfl⟩
      rw [syntheticValues_cons hrest] at h
      rcases bind_eq_ok h with ⟨z, hz, hvalues⟩
      cases hvalues
      exact ⟨z, _, rfl, hz⟩

theorem quotient_unique [Nontrivial (ZMod m)] {P Q S : (ZMod m)[X]} {c d e : ZMod m}
    (hQ : P = (X - C c) * Q + C d) (hS : P = (X - C c) * S + C e) : Q = S := by
  have hdegree (d : ZMod m) : (C d).degree < (X - C c).degree := by
    rw [degree_X_sub_C]
    exact degree_C_le.trans_lt zero_lt_one
  have hfirst := (div_modByMonic_unique Q (C d) (monic_X_sub_C c)
    ⟨(add_comm _ _).trans hQ.symm, hdegree d⟩).1
  have hsecond := (div_modByMonic_unique S (C e) (monic_X_sub_C c)
    ⟨(add_comm _ _).trans hS.symm, hdegree e⟩).1
  rw [← hfirst, hsecond]

theorem eval_linear (r b c : ZMod m) : (C r + X * C b).eval c = r + c * b := by
  rw [eval_add, eval_C, eval_mul, eval_X, eval_C]

include hm hmu

omit hm in
theorem remainderRight_of_reductions {L : Nat} (hpos : 1 <= L) (hint : L <= 2 ^ 31 + 1)
    (hred : 2 <= L -> ReductionsRight T m mu) : RemainderRight T m L := by
  rintro P dividend a rfl hP ha
  have hne : dividend.data ≠ [] := List.ne_nil_of_length_pos hpos
  rcases syntheticValues_spec hred ha hP hne with ⟨values, S, hrun, _, hcoeffs, hquotient⟩
  rw [syntheticRemainder_eq hmu hpos hint, hrun, ok_bind]
  cases values with
  | nil =>
      have hlength := syntheticValues_length hrun
      exact absurd hlength.symm (Nat.ne_of_gt hpos)
  | cons y rest =>
      refine ⟨y, rfl, ?_⟩
      rw [← hquotient.head]
      exact hcoeffs.head

omit hm in
theorem quotientRight_of_reductions (hcomm : Commutes T) {L : Nat} (htwo : 2 <= L)
    (hint : L <= 2 ^ 31 + 1) (hred : 3 <= L -> ReductionsRight T m mu) : QuotientRight T m L := by
  rintro P ⟨data, modulus⟩ a rfl hP ha
  cases data with
  | nil => exact absurd htwo (show ¬ 2 <= 0 by decide)
  | cons x₀ xs =>
      have hlength : IntVector.getLength ⟨x₀ :: xs, modulus⟩ = xs.length + 1 := rfl
      have hne : xs ≠ [] := List.ne_nil_of_length_pos (by omega)
      rcases syntheticValues_spec (fun h => hred (by omega)) ha hP.tail hne with
        ⟨values, S, hrun, hvalues, hcoeffs, hquotient⟩
      refine ⟨S, ⟨values, m⟩, ?_, rfl, hvalues, hcoeffs, ?_⟩
      · rw [syntheticPolynomialDivision_eq hmu hcomm (k := xs.length - 1) (by omega) (by omega),
          hrun, ok_bind]
      · have hsplit := divX_mul_X_add P
        have hshifted := hquotient.shifted
        have heval : P.eval (a : ZMod m) = P.coeff 0 + a * P.divX.eval (a : ZMod m) := by
          conv_lhs => rw [← hsplit]
          rw [eval_add, eval_mul, eval_X, eval_C]
          ring
        rw [heval, C_add]
        linear_combination hshifted - hsplit

include hkeep

omit hm in
theorem reductions_of_remainderRight {L : Nat} (htwo : 2 <= L) (hint : L <= 2 ^ 31 + 1)
    (h : RemainderRight T m L) : ReductionsRight T m mu := by
  intro r a b hr ha hb
  have hlength : IntVector.getLength ⟨r :: b :: List.replicate (L - 2) 0, m⟩ = L := by
    show (r :: b :: List.replicate (L - 2) 0).length = L
    rw [List.length_cons, List.length_cons, List.length_replicate]
    omega
  rcases h _ _ a hlength (linear_coefficients hr hb (L - 2)) ha with ⟨y, hy, hres⟩
  rw [syntheticRemainder_eq hmu (by omega) (hlength.trans_le hint)] at hy
  rcases bind_eq_ok hy with ⟨values, hvalues, hentry⟩
  rcases syntheticValues_two ha hkeep hb hvalues with ⟨z, rest, rfl, hz⟩
  cases hentry
  rw [eval_linear] at hres
  exact ⟨_, hz, hres⟩

theorem reductions_of_quotientRight (hcomm : Commutes T) {L : Nat} (hthree : 3 <= L)
    (hint : L <= 2 ^ 31 + 1) (h : QuotientRight T m L) : ReductionsRight T m mu := by
  intro r a b hr ha hb
  have hlinear := linear_coefficients hr hb (L - 3)
  have hcoeffs := hlinear.cons (isResidue_zero hm)
  have hlength : (r :: b :: List.replicate (L - 3) 0).length = L - 2 + 1 := by
    rw [List.length_cons, List.length_cons, List.length_replicate]
    omega
  have htotal : IntVector.getLength ⟨0 :: r :: b :: List.replicate (L - 3) 0, m⟩ = L := by
    show (r :: b :: List.replicate (L - 3) 0).length + 1 = L
    omega
  rcases h _ _ a htotal hcoeffs ha with ⟨Q, quotient, hrun, _, _, hQ, hdivision⟩
  rw [syntheticPolynomialDivision_eq hmu hcomm hlength (by omega)] at hrun
  rcases bind_eq_ok hrun with ⟨values, hvalues, hquotient⟩
  cases hquotient
  rcases syntheticValues_two ha hkeep hb hvalues with ⟨z, rest, rfl, hz⟩
  refine ⟨z, hz, ?_⟩
  have hhead := hQ.head
  cases Nat.lt_or_ge 1 m with
  | inr hone =>
      cases (by omega : m = 1)
      exact ⟨hhead.lt, Subsingleton.elim _ _⟩
  | inl hone =>
      have hfact : Fact (1 < m) := ⟨hone⟩
      have hunique := quotient_unique hdivision
        (show C (0 : ZMod m) + X * (C (r : ZMod m) + X * C (b : ZMod m)) =
          (X - C (a : ZMod m)) * (C ((r : ZMod m) + a * b) + X * C (b : ZMod m)) +
            C ((a : ZMod m) * (r + a * b)) by
          simp only [C_0, C_add, C_mul]
          ring)
      rw [hunique, coeff_add, coeff_C_zero, coeff_X_mul_zero, add_zero] at hhead
      exact hhead

omit hkeep in
theorem remainderRight_long_iff {L : Nat} (hlong : 2 ^ 31 + 1 < L) (hlt : L < 2 ^ 32) :
    RemainderRight T m L <-> m = 1 := by
  constructor
  · intro h
    by_contra hne
    have hone : 1 < m := by omega
    have hnil : Coefficients (IsResidue m) 0 [] := coefficients_nil
    have hconstant := hnil.cons (isResidue_natCast hone)
    have hpower := hconstant.replicate_append (isResidue_zero hm) (L - 1)
    rw [mul_zero, add_zero, Nat.cast_one, C_1, mul_one] at hpower
    have hlength : IntVector.getLength ⟨List.replicate (L - 1) 0 ++ [1], m⟩ = L := by
      show (List.replicate (L - 1) 0 ++ [1]).length = L
      rw [List.length_append, List.length_replicate, List.length_singleton]
      omega
    rcases h _ _ 0 hlength hpower hm with ⟨y, hy, hres⟩
    rw [syntheticRemainder_long hmu (by omega) (by omega), hlength] at hy
    have hlast : entry (List.replicate (L - 1) 0 ++ [1]) (L - 1) = .ok 1 := by
      apply entry_ok
      rw [List.getElem?_append_right (by rw [List.length_replicate]), List.length_replicate,
        Nat.sub_self]
      rfl
    rw [hlast] at hy
    cases hy
    have hcast := hres.cast
    rw [Nat.cast_zero, eval_pow, eval_X, zero_pow (by omega)] at hcast
    have hdvd := (ZMod.natCast_eq_zero_iff 1 m).mp hcast
    exact hne (Nat.dvd_one.mp hdvd)
  · rintro rfl P dividend a rfl hP ha
    have hlast : dividend.getLength - 1 < dividend.data.length :=
      Nat.sub_lt (by omega) Nat.one_pos
    rcases hP.entry hlast with ⟨y, hy, hres⟩
    rw [syntheticRemainder_long hmu hlong hlt]
    exact ⟨y, entry_ok hy, hres.lt, Subsingleton.elim _ _⟩

omit hkeep in
theorem quotientRight_long_iff {L : Nat} (hlong : 2 ^ 31 + 1 < L) (hlt : L < 2 ^ 32) :
    QuotientRight T m L <-> m = 1 := by
  obtain ⟨k, rfl⟩ : exists k, L = k + 2 := ⟨L - 2, by omega⟩
  constructor
  · intro h
    by_contra hne
    have hone : 1 < m := by omega
    have hzero := isResidue_zero hm
    have hnil : Coefficients (IsResidue m) 0 [] := coefficients_nil
    have hconstant := hnil.cons hzero
    have hpower := (hconstant.cons (isResidue_natCast hone)).replicate_append hzero k
    rw [C_0, mul_zero, add_zero, mul_zero, add_zero, Nat.cast_one, C_1, mul_one] at hpower
    obtain ⟨n, rfl⟩ : exists n, k = n + 1 := ⟨k - 1, by omega⟩
    have hlength : (List.replicate n 0 ++ [1, 0]).length = n + 1 + 1 := by
      rw [List.length_append, List.length_replicate]
      rfl
    have htotal : IntVector.getLength ⟨0 :: (List.replicate n 0 ++ [1, 0]), m⟩ = n + 1 + 2 :=
      congrArg Nat.succ hlength
    rw [List.replicate_succ, List.cons_append] at hpower
    rcases h _ _ 0 htotal hpower hm with ⟨Q, quotient, hrun, _, _, hQ, hdivision⟩
    rcases @syntheticPolynomialDivision_long T 0 m mu hmu 0 (n + 1) m _ hlength (by omega)
      (by omega) with ⟨last, _, hlast⟩
    rw [hlast] at hrun
    cases hrun
    have hget := (hQ.get n 0 (by
      rw [List.getElem?_append_left (by rw [List.length_replicate]; omega),
        List.getElem?_replicate_of_lt (Nat.lt_succ_self n)])).cast
    have hcoeff := congrArg (fun R => R.coeff (n + 1)) hdivision
    rw [Nat.cast_zero, C_0, sub_zero, coeff_add, coeff_X_mul, ← hget, Nat.cast_zero, zero_add,
      coeff_C_succ, coeff_X_pow_self] at hcoeff
    have hdvd := (ZMod.natCast_eq_zero_iff 1 m).mp (by rw [Nat.cast_one]; exact hcoeff)
    exact hne (Nat.dvd_one.mp hdvd)
  · rintro rfl P ⟨data, modulus⟩ a hlength hP ha
    cases data with
    | nil => cases hlength
    | cons x₀ xs =>
        have hxs : xs.length = k + 1 := Nat.succ.inj hlength
        rcases @syntheticPolynomialDivision_long T a 1 mu hmu x₀ k modulus xs hxs (by omega)
          (by omega) with ⟨last, hdrop, hrun⟩
        have hget : (x₀ :: xs)[k + 1]? = some last := by
          have hfirst := congrArg (fun l => l[0]?) hdrop
          rwa [List.getElem?_drop] at hfirst
        have hres : IsResidue 1 0 last := by
          constructor
          case lt => exact (hP.get _ _ hget).lt
          case cast => exact Subsingleton.elim _ _
        refine ⟨_, _, hrun, rfl, ?_, (coefficients_nil.cons hres).replicate_append
          (isResidue_zero hm) k, Subsingleton.elim _ _⟩
        show (List.replicate k 0 ++ [last]).length = k + 2 - 1
        rw [List.length_append, List.length_replicate]
        rfl

theorem remainderRight_iff {L : Nat} (hpos : 1 <= L) (hlt : L < 2 ^ 32) :
    RemainderRight T m L <-> L = 1 ∨ (L <= 2 ^ 31 + 1 ∧ ReductionsRight T m mu) ∨
      (2 ^ 31 + 1 < L ∧ m = 1) := by
  cases Nat.lt_or_ge (2 ^ 31 + 1) L with
  | inl hlong =>
      rw [remainderRight_long_iff hm hmu hlong hlt]
      omega
  | inr hint =>
      constructor
      · intro h
        cases hpos.eq_or_lt with
        | inl hone => exact Or.inl hone.symm
        | inr htwo => exact Or.inr (Or.inl ⟨hint, reductions_of_remainderRight hmu hkeep htwo hint h⟩)
      · intro h
        apply remainderRight_of_reductions hmu hpos hint
        intro htwo
        rcases h with hone | ⟨_, hred⟩ | ⟨hlong, _⟩
        · omega
        · exact hred
        · omega

omit hkeep hm in
theorem not_quotientRight_one (hm : 0 < m) : ¬ QuotientRight T m 1 := by
  intro h
  have hnil : Coefficients (IsResidue m) 0 [] := coefficients_nil
  have hzero := hnil.cons (isResidue_zero hm)
  rcases h _ ⟨[0], m⟩ 0 rfl hzero hm with ⟨_, quotient, hrun, _⟩
  rw [syntheticPolynomialDivision_constant hmu] at hrun
  cases hrun

theorem quotientRight_iff (hcomm : Commutes T) {L : Nat} (hpos : 1 <= L) (hlt : L < 2 ^ 32) :
    QuotientRight T m L <-> 2 <= L ∧ (L = 2 ∨ (L <= 2 ^ 31 + 1 ∧ ReductionsRight T m mu) ∨
      (2 ^ 31 + 1 < L ∧ m = 1)) := by
  cases Nat.lt_or_ge (2 ^ 31 + 1) L with
  | inl hlong =>
      rw [quotientRight_long_iff hm hmu hlong hlt]
      omega
  | inr hint =>
      constructor
      · intro h
        have htwo : 2 <= L := by
          by_contra hone
          cases (by omega : L = 1)
          exact not_quotientRight_one hmu hm h
        refine ⟨htwo, ?_⟩
        cases htwo.eq_or_lt with
        | inl heq => exact Or.inl heq.symm
        | inr hthree =>
            exact Or.inr (Or.inl
              ⟨hint, reductions_of_quotientRight hm hmu hkeep hcomm hthree hint h⟩)
      · rintro ⟨htwo, h⟩
        apply quotientRight_of_reductions hmu hcomm htwo hint
        intro hthree
        rcases h with heq | ⟨_, hred⟩ | ⟨hlong, _⟩
        · omega
        · exact hred
        · omega

end Right

end Polynomials

end IntVectorType
end Core
end OpenFHE
