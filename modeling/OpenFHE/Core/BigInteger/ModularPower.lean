import OpenFHE.Core.BigInteger.DivisionOperations
import OpenFHE.Core.NativeInteger.Digits
import OpenFHE.Foundation.Outcome

/-!
# Modular powers of big integers

`ModExp` squares and multiplies reduced operands, and halves the exponent until its bit
length is zero.
-/

namespace OpenFHE
namespace Core
namespace BigInteger

open NativeInteger
open Foundation

namespace Ubint

variable (l : Nat)

/-- The outcome of an operation that may throw a text. -/
def raised {α : Type} : Option (Except String α) -> Outcome α
  | none => .error .undefined
  | some (.error message) => .error (.thrown message)
  | some (.ok x) => .ok x

/-- `ModMulFast`: the early returns and the rows are those of `Mul`. -/
def modMulFast (x b modulus : Ubint) : Outcome Ubint :=
  if x.msb = 0 ∨ b.msb = 0 then .ok zero
  else if b.msb = 1 then .ok x
  else if x.msb = 1 then .ok b
  else do
    let ans := mul l x b
    let c <- orUndefined (compare ans modulus)
    if c >= 0 then raised (mod l ans modulus) else return ans

structure PowerState where
  t : Ubint
  p : Ubint
  r : Ubint
deriving DecidableEq, Repr

def accumulate (modulus : Ubint) (s : PowerState) : Outcome PowerState := do
  let p0 <- entry s.p.value 0
  if p0 &&& 1 ≠ 0 then
    let r <- modMulFast l s.r s.t modulus
    return { s with r := r }
  else return s

def powerStep (modulus : Ubint) (s : PowerState) : Outcome PowerState := do
  let t <- modMulFast l s.t s.t modulus
  let s <- accumulate l modulus { s with t := t }
  let p <- orUndefined (rShift l s.p 1)
  return { s with p := p }

def modExp (x b modulus : Ubint) : Outcome Ubint := do
  let t <- raised (mod l x modulus)
  let s <- accumulate l modulus { t := t, p := b, r := ofLimb 1 }
  let p <- orUndefined (rShift l s.p 1)
  let s <- whileLoop (fun s => decide (s.p.msb ≠ 0)) (powerStep l modulus) (b.msb + 1)
    { s with p := p }
  return s.r

variable {l}

theorem Valid.eq_one {y : Ubint} (hy : Valid l y) (hmsb : y.msb = 1) : y.toNat l = 1 := by
  rw [hy.bitLength] at hmsb
  have hlt := Nat.lt_size_self (y.toNat l)
  have hpos := Nat.size_pos.mp (show 0 < Nat.size (y.toNat l) by omega)
  rw [hmsb] at hlt
  omega

theorem Denotes.valid {x : Ubint} {n : Nat} (h : Denotes l x n) : Valid l x := h.1

theorem Denotes.value {x : Ubint} {n : Nat} (h : Denotes l x n) : x.toNat l = n := h.2

/-! ## Multiplication -/

section Product

variable {modulus : Ubint} (hl : 0 < l) (hmodulus : Valid l modulus)
  (hone : 1 < modulus.toNat l)
  (hfits : Nat.size ((modulus.toNat l - 1) * (modulus.toNat l - 1)) < maxMSB)

include hl hmodulus hone hfits

theorem modMulFast_spec {x b : Ubint} (hx : Valid l x) (hb : Valid l b)
    (hxlt : x.toNat l < modulus.toNat l) (hblt : b.toNat l < modulus.toNat l) :
    exists r, modMulFast l x b modulus = .ok r ∧
      Denotes l r (x.toNat l * b.toNat l % modulus.toNat l) := by
  unfold modMulFast
  by_cases hzero : x.msb = 0 ∨ b.msb = 0
  · refine ⟨zero, if_pos hzero, zero_valid l, ?_⟩
    cases hzero with
    | inl h => rw [hx.msb_eq_zero_iff.mp h, Nat.zero_mul, Nat.zero_mod, toNat_zero]
    | inr h => rw [hb.msb_eq_zero_iff.mp h, Nat.mul_zero, Nat.zero_mod, toNat_zero]
  · rw [if_neg hzero]
    by_cases hbone : b.msb = 1
    · refine ⟨x, if_pos hbone, hx, ?_⟩
      rw [hb.eq_one hbone, Nat.mul_one, Nat.mod_eq_of_lt hxlt]
    · rw [if_neg hbone]
      by_cases hxone : x.msb = 1
      · refine ⟨b, if_pos hxone, hb, ?_⟩
        rw [hx.eq_one hxone, Nat.one_mul, Nat.mod_eq_of_lt hblt]
      · rw [if_neg hxone]
        have hle : x.toNat l * b.toNat l <= (modulus.toNat l - 1) * (modulus.toNat l - 1) :=
          Nat.mul_le_mul (Nat.le_sub_one_of_lt hxlt) (Nat.le_sub_one_of_lt hblt)
        rcases mul_spec hx hb (Nat.lt_of_le_of_lt (Nat.size_le_size hle) hfits) with
          ⟨hproduct, hvalue⟩
        rcases compare_sign hproduct hmodulus with ⟨c, hc, hneg, -⟩
        rw [hvalue] at hneg
        simp only [hc, orUndefined, ok_bind]
        by_cases hlt : x.toNat l * b.toNat l < modulus.toNat l
        · have hnegative := hneg.mpr hlt
          refine ⟨mul l x b, if_neg (by omega), hproduct, ?_⟩
          rw [hvalue, Nat.mod_eq_of_lt hlt]
        · have hnonneg := mt hneg.mp hlt
          rcases mod_spec hl hproduct hmodulus (by omega) with ⟨r, hr, hdenotes⟩
          rw [hvalue] at hdenotes
          refine ⟨r, ?_, hdenotes⟩
          rw [if_pos (by omega), hr]
          rfl

/-! ## The loop -/

/-- Reduced operands, and the whole power from what is left of the exponent. -/
structure PowerInv (l : Nat) (modulus : Ubint) (n exponent : Nat) (s : PowerState) : Prop where
  t_valid : Valid l s.t
  p_valid : Valid l s.p
  r_valid : Valid l s.r
  t_lt : s.t.toNat l < modulus.toNat l
  r_lt : s.r.toNat l < modulus.toNat l
  power : s.r.toNat l * s.t.toNat l ^ exponent ≡ n [MOD modulus.toNat l]

theorem accumulate_spec {n : Nat} {s : PowerState}
    (hs : PowerInv l modulus n (s.p.toNat l) s) :
    exists s', accumulate l modulus s = .ok s' ∧ s'.p = s.p ∧
      PowerInv l modulus n (2 * (s.p.toNat l / 2)) s' := by
  have hdivmod := Nat.div_add_mod (s.p.toNat l) 2
  have hpos := hs.p_valid.length_pos
  have hfirst := List.getElem?_eq_getElem hpos
  have hparity : s.p.toNat l % 2 = s.p.value[0] &&& 1 := mod_two hfirst
  unfold accumulate
  rw [entry_ok hfirst, ok_bind, ← hparity]
  by_cases hodd : s.p.toNat l % 2 = 0
  · refine ⟨s, if_neg (not_not.mpr hodd), rfl, ?_⟩
    rw [show 2 * (s.p.toNat l / 2) = s.p.toNat l by omega]
    exact hs
  · rcases modMulFast_spec hl hmodulus hone hfits hs.r_valid hs.t_valid hs.r_lt hs.t_lt with
      ⟨r, hr, hvalid, hvalue⟩
    refine ⟨{ s with r := r }, ?_, rfl, ?_⟩
    · rw [if_pos hodd, hr]
      rfl
    · constructor
      case t_valid => exact hs.t_valid
      case p_valid => exact hs.p_valid
      case r_valid => exact hvalid
      case t_lt => exact hs.t_lt
      case r_lt =>
        rw [hvalue]
        exact Nat.mod_lt _ (by omega)
      case power =>
        have hpower := hs.power
        rw [show s.p.toNat l = 2 * (s.p.toNat l / 2) + 1 by omega, pow_succ', ← mul_assoc]
          at hpower
        rw [hvalue]
        exact ((Nat.mod_modEq _ _).mul_right _).trans hpower

theorem powerStep_spec {n : Nat} {s : PowerState}
    (hs : PowerInv l modulus n (2 * s.p.toNat l) s) :
    exists s', powerStep l modulus s = .ok s' ∧ s'.p.toNat l = s.p.toNat l / 2 ∧
      PowerInv l modulus n (2 * s'.p.toNat l) s' := by
  rcases modMulFast_spec hl hmodulus hone hfits hs.t_valid hs.t_valid hs.t_lt hs.t_lt with
    ⟨t, ht, htvalid, htvalue⟩
  have hsquare : PowerInv l modulus n (s.p.toNat l) { s with t := t } := by
    constructor
    case t_valid => exact htvalid
    case p_valid => exact hs.p_valid
    case r_valid => exact hs.r_valid
    case t_lt =>
      rw [htvalue]
      exact Nat.mod_lt _ (by omega)
    case r_lt => exact hs.r_lt
    case power =>
      have hpower := hs.power
      rw [pow_mul, pow_two] at hpower
      rw [htvalue]
      exact (((Nat.mod_modEq _ _).pow _).mul_left _).trans hpower
  rcases accumulate_spec hl hmodulus hone hfits (s := { s with t := t }) hsquare with ⟨s₁, hs₁, hp, hinv⟩
  rcases rShift_spec hinv.p_valid 1 with ⟨p, hpshift, hpvalid, hpvalue⟩
  rw [hp, Nat.shiftRight_eq_div_pow, pow_one] at hpvalue
  refine ⟨{ s₁ with p := p }, ?_, hpvalue, ?_⟩
  · unfold powerStep
    rw [ht, ok_bind, hs₁, ok_bind, hpshift]
    rfl
  · constructor
    case t_valid => exact hinv.t_valid
    case p_valid => exact hpvalid
    case r_valid => exact hinv.r_valid
    case t_lt => exact hinv.t_lt
    case r_lt => exact hinv.r_lt
    case power =>
      rw [hpvalue]
      exact hinv.power

theorem modExp_spec {x b : Ubint} (hx : Valid l x) (hb : Valid l b) :
    exists r, modExp l x b modulus = .ok r ∧
      Denotes l r (x.toNat l ^ b.toNat l % modulus.toNat l) := by
  rcases mod_spec hl hx hmodulus (by omega) with ⟨t, ht, htvalid, htvalue⟩
  have hinit : PowerInv l modulus (x.toNat l ^ b.toNat l) (b.toNat l)
      { t := t, p := b, r := ofLimb 1 } := by
    constructor
    case t_valid => exact htvalid
    case p_valid => exact hb
    case r_valid => exact (one_denotes l).valid
    case t_lt =>
      rw [htvalue]
      exact Nat.mod_lt _ (by omega)
    case r_lt =>
      rw [(one_denotes l).value]
      exact hone
    case power =>
      rw [(one_denotes l).value, htvalue, Nat.one_mul]
      exact (Nat.mod_modEq _ _).pow _
  rcases accumulate_spec hl hmodulus hone hfits (s := { t := t, p := b, r := ofLimb 1 })
    hinit with ⟨s₁, hs₁, hp, hinv⟩
  rcases rShift_spec hinv.p_valid 1 with ⟨p, hpshift, hpvalid, hpvalue⟩
  rw [hp, Nat.shiftRight_eq_div_pow, pow_one] at hpvalue
  have hsize : Nat.size (p.toNat l) < b.msb + 1 := by
    rw [hpvalue, hb.bitLength]
    exact Nat.lt_succ_of_le (Nat.size_le_size (Nat.div_le_self _ _))
  rcases whileLoop_spec (c := fun s : PowerState => decide (s.p.msb ≠ 0))
    (f := powerStep l modulus)
    (fun s => PowerInv l modulus (x.toNat l ^ b.toNat l) (2 * s.p.toNat l) s)
    (fun s => Nat.size (s.p.toNat l))
    (by
      intro s hs htest
      have hmsb : s.p.msb ≠ 0 := of_decide_eq_true htest
      rcases powerStep_spec hl hmodulus hone hfits hs with ⟨s', hs', hhalf, hinv'⟩
      refine ⟨s', hs', hinv', ?_⟩
      rw [hs.p_valid.bitLength] at hmsb
      rw [hhalf, ← pow_one 2, ← Nat.shiftRight_eq_div_pow, size_shiftRight]
      omega)
    (b.msb + 1) { s₁ with p := p }
    ⟨hinv.t_valid, hpvalid, hinv.r_valid, hinv.t_lt, hinv.r_lt, by
      rw [hpvalue]
      exact hinv.power⟩ hsize with ⟨s, hrun, hfinal, hstop⟩
  have hmsb : s.p.msb = 0 := by simpa using hstop
  have hpower := hfinal.power
  rw [hfinal.p_valid.msb_eq_zero_iff.mp hmsb, Nat.mul_zero, pow_zero, Nat.mul_one] at hpower
  refine ⟨s.r, ?_, hfinal.r_valid, ?_⟩
  · unfold modExp
    rw [ht]
    show (do
      let s <- accumulate l modulus { t := t, p := b, r := ofLimb 1 }
      let p <- orUndefined (rShift l s.p 1)
      let s <- whileLoop (fun s => decide (s.p.msb ≠ 0)) (powerStep l modulus) (b.msb + 1)
        { s with p := p }
      return s.r : Outcome Ubint) = .ok s.r
    rw [hs₁, ok_bind, hpshift]
    show (do
      let s <- whileLoop (fun s => decide (s.p.msb ≠ 0)) (powerStep l modulus) (b.msb + 1)
        { s₁ with p := p }
      return s.r : Outcome Ubint) = .ok s.r
    rw [hrun]
    rfl
  · exact (Nat.mod_eq_of_lt hfinal.r_lt).symm.trans hpower

end Product

/-! ## Squares of the length that a `usint` no longer counts -/

theorem mulLoop_zero (A : List Nat) : mulLoop l 0 A 0 = List.replicate (A.length + 1) 0 := by
  induction A with
  | nil => simp [mulLoop, limb]
  | cons av A ih => simp [mulLoop, limb, dlimb, ih, List.replicate_succ]

theorem mulLoop_one {A : List Nat} (hA : IsLimbs (base l) A) : mulLoop l 1 A 0 = A ++ [0] := by
  induction A with
  | nil => simp [mulLoop, limb]
  | cons av A ih =>
      have hlt : av < base l * base l :=
        Nat.lt_of_lt_of_le hA.head (Nat.le_mul_of_pos_left _ (base_pos l))
      have hlimb : limb l av = av := Nat.mod_eq_of_lt hA.head
      have hcarry : av >>> limbBitLength l = 0 := by
        rw [Nat.shiftRight_eq_div_pow]
        exact Nat.div_eq_of_lt hA.head
      rw [mulLoop, Nat.one_mul, dlimb_of_lt hlt, Nat.zero_add, dlimb_of_lt hlt, hlimb, hcarry,
        ih hA.tail]
      rfl

theorem popZeros_replicate (n : Nat) : popZeros (List.replicate (n + 1) 0) = [0] := by
  induction n with
  | zero => rfl
  | succ n ih =>
      rw [List.replicate_succ, List.replicate_succ]
      exact ih

theorem ofLimbs_zeros (n : Nat) : ofLimbs l (List.replicate (n + 1) 0) = zero := by
  unfold ofLimbs
  rw [List.reverse_replicate, popZeros_replicate]
  simp [msbOf, zero, usint, getMSB]

theorem zeroRows (A : List Nat) (k i : Nat) :
    ((List.replicate k 0).zipIdx i).foldl
      (fun ans limbb =>
        add l ans (ofLimbs l (List.replicate limbb.2 0 ++ mulLoop l limbb.1 A 0))) zero =
      zero := by
  induction k generalizing i with
  | zero => rfl
  | succ k ih =>
      have hrow : List.replicate i 0 ++ mulLoop l 0 A 0 =
          List.replicate (i + A.length + 1) 0 := by
        rw [mulLoop_zero, List.replicate_append_replicate, Nat.add_assoc]
      rw [List.replicate_succ, List.zipIdx_cons, List.foldl_cons, hrow, ofLimbs_zeros]
      exact ih (i + 1)

theorem mul_topLimb_self {k : Nat} (hk : 0 < k) :
    mul l (topLimb l k 1) (topLimb l k 1) =
      { msb := usint (limbBitLength l * (k + k) + 1 : Nat)
        value := List.replicate (k + k) 0 ++ [1] } := by
  have hbit : 0 < limbBitLength l * k := Nat.mul_pos (limbBitLength_pos l) hk
  have hmsb : (topLimb l k 1).msb = limbBitLength l * k + 1 := rfl
  have hvalue : (topLimb l k 1).value = List.replicate k 0 ++ [1] := rfl
  have hlimbs : IsLimbs (base l) (List.replicate k 0 ++ [1]) :=
    (IsLimbs.zeros (base_pos l) k).append (IsLimbs.cons (one_lt_base l) IsLimbs.nil)
  have hrow : List.replicate k 0 ++ (List.replicate k 0 ++ [1] ++ [0]) =
      List.replicate (k + k) 0 ++ [1] ++ [0] := by
    rw [← List.append_assoc, ← List.append_assoc, List.replicate_append_replicate]
  have hpop : (popZeros (List.replicate (k + k) 0 ++ [1] ++ [0]).reverse).reverse =
      List.replicate (k + k) 0 ++ [1] := by
    have hreverse : (List.replicate (k + k) 0 ++ [1] ++ [0]).reverse =
        0 :: 1 :: List.replicate (k + k) 0 := by
      rw [List.reverse_append, List.reverse_append, List.reverse_replicate]
      rfl
    have htop : popZeros (0 :: 1 :: List.replicate (k + k) 0) =
        1 :: List.replicate (k + k) 0 := by
      cases List.replicate (k + k) 0 with
      | nil => rfl
      | cons x xs => rfl
    rw [hreverse, htop, List.reverse_cons, List.reverse_replicate]
  have hof : ofLimbs l (List.replicate k 0 ++ (List.replicate k 0 ++ [1] ++ [0])) =
      { msb := usint (limbBitLength l * (k + k) + 1 : Nat)
        value := List.replicate (k + k) 0 ++ [1] } := by
    have hone : getMSB 1 = 1 := rfl
    unfold ofLimbs
    rw [hrow, hpop]
    simp [msbOf, hone]
  unfold mul
  rw [if_neg (by omega), if_neg (by omega), if_neg (by omega), hvalue]
  simp only [Nat.lt_irrefl, if_false]
  rw [hvalue, List.zipIdx_append, List.foldl_append, zeroRows, List.length_replicate]
  simp only [List.zipIdx_cons, List.zipIdx_nil, List.foldl_cons, List.foldl_nil, Nat.zero_add]
  rw [mulLoop_one hlimbs, hof]
  have hlong : zero.value.length < (List.replicate (k + k) 0 ++ [1]).length := by
    rw [List.length_append, List.length_replicate]
    show 1 < k + k + 1
    omega
  unfold add
  simp only [if_pos hlong]
  exact if_pos rfl

theorem modExp_topLimb {k j top : Nat} (hk : limbBitLength 6 * (k + k) = maxMSB)
    (hlong : limbBitLength 6 * k + 1 < (topLimb 6 j top).msb) :
    modExp 6 (topLimb 6 k 1) (ofLimb 2) (topLimb 6 j top) = .ok (ofLimb 1) := by
  have hpos : 0 < k := by
    cases k with
    | zero => exact absurd hk (by decide)
    | succ k => exact Nat.succ_pos k
  have hbit : 0 < limbBitLength 6 * k := Nat.mul_pos (limbBitLength_pos 6) hpos
  have hmsb : (topLimb 6 k 1).msb = limbBitLength 6 * k + 1 := rfl
  have hmod : mod 6 (topLimb 6 k 1) (topLimb 6 j top) = some (.ok (topLimb 6 k 1)) := by
    have hcompare : compare (topLimb 6 k 1) (topLimb 6 j top) = some (-1) :=
      if_pos (by omega)
    unfold mod
    rw [if_neg (by omega), hcompare]
    rfl
  have hwrap : usint (limbBitLength 6 * (k + k) + 1 : Nat) = 1 := by
    rw [hk]
    rfl
  have hsquare : modMulFast 6 (topLimb 6 k 1) (topLimb 6 k 1) (topLimb 6 j top) =
      .ok { msb := 1, value := List.replicate (k + k) 0 ++ [1] } := by
    have hcompare : compare { msb := 1, value := List.replicate (k + k) 0 ++ [1] }
        (topLimb 6 j top) = some (-1) :=
      if_pos (by
        show 1 < (topLimb 6 j top).msb
        omega)
    unfold modMulFast
    rw [if_neg (by omega), if_neg (by omega), if_neg (by omega), mul_topLimb_self hpos, hwrap]
    dsimp only
    rw [hcompare]
    rfl
  have hstep : powerStep 6 (topLimb 6 j top)
      { t := topLimb 6 k 1, p := ofLimb 1, r := ofLimb 1 } =
      .ok { t := { msb := 1, value := List.replicate (k + k) 0 ++ [1] }
            p := ofLimb 0, r := ofLimb 1 } := by
    unfold powerStep
    rw [hsquare]
    rfl
  unfold modExp
  rw [hmod]
  show (do
    let s <- whileLoop (fun s => decide (s.p.msb ≠ 0)) (powerStep 6 (topLimb 6 j top)) 3
      { t := topLimb 6 k 1, p := ofLimb 1, r := ofLimb 1 }
    return s.r : Outcome Ubint) = .ok (ofLimb 1)
  rw [whileLoop_step 2 rfl hstep]
  rfl

theorem toNat_topLimb (k e : Nat) : (topLimb l k (2 ^ e)).toNat l = 2 ^ (limbBitLength l * k + e) := by
  unfold toNat topLimb
  rw [ofDigits_replicate_zero_append, Nat.ofDigits_singleton, base_pow, pow_add]

theorem square_mod_topLimb {k j e : Nat}
    (h : limbBitLength l * j + e <= limbBitLength l * (k + k)) :
    (topLimb l k 1).toNat l ^ 2 % (topLimb l j (2 ^ e)).toNat l = 0 := by
  have hone := toNat_topLimb (l := l) k 0
  rw [pow_zero] at hone
  rw [hone, toNat_topLimb, ← pow_mul]
  apply Nat.mod_eq_zero_of_dvd
  apply pow_dvd_pow
  rw [Nat.mul_add] at h
  omega

theorem two_le_topLimb {j e : Nat} (h : 0 < e) : 2 <= (topLimb l j (2 ^ e)).toNat l := by
  rw [toNat_topLimb]
  exact Nat.le_self_pow (by omega) 2

/-- The square of 2 ^ (2 ^ 31) modulo 2 ^ (2 ^ 32 - 2) is zero and not one. -/
theorem modExp_longest_wrong :
    Valid 6 (topLimb 6 33554432 1) ∧ Valid 6 (ofLimb 2) ∧
      Valid 6 (topLimb 6 67108863 (2 ^ 62)) ∧ 2 <= (topLimb 6 67108863 (2 ^ 62)).toNat 6 ∧
      modExp 6 (topLimb 6 33554432 1) (ofLimb 2) (topLimb 6 67108863 (2 ^ 62)) =
        .ok (ofLimb 1) ∧
      ¬ Denotes 6 (ofLimb 1) ((topLimb 6 33554432 1).toNat 6 ^ (ofLimb 2).toNat 6 %
        (topLimb 6 67108863 (2 ^ 62)).toNat 6) := by
  have hmsb : (topLimb 6 67108863 (2 ^ 62)).msb = 4294967295 := by
    show limbBitLength 6 * 67108863 + getMSB (2 ^ 62) = 4294967295
    decide
  refine ⟨topLimb_valid (by decide) (by decide) (by decide),
    ofLimb_valid (by decide) (by decide), topLimb_valid (by decide) (by decide) ?_,
    two_le_topLimb (by decide), ?_, ?_⟩
  · exact hmsb.trans_lt (by decide)
  · apply modExp_topLimb (by decide)
    rw [hmsb]
    decide
  · intro h
    have hzero := square_mod_topLimb (l := 6) (k := 33554432) (j := 67108863) (e := 62)
      (by decide)
    have hvalue := h.value
    rw [toNat_ofLimb, toNat_ofLimb, hzero] at hvalue
    exact absurd hvalue (by decide)

/-! ## Contract -/

structure ModularPowers (l : Nat) : Prop where
  native {a b m : Nat} (ha : a < 2 ^ maxBits) (hb : b < 2 ^ maxBits) (hm : 2 <= m)
    (hm63 : m < 2 ^ 63) : NativeInteger.modExp a b m = some (a ^ b % m)
  big {x b modulus : Ubint} (hx : Valid l x) (hb : Valid l b) (hmodulus : Valid l modulus)
    (hm : 2 <= modulus.toNat l)
    (hfits : Nat.size ((modulus.toNat l - 1) * (modulus.toNat l - 1)) < maxMSB) :
    exists r, modExp l x b modulus = .ok r ∧
      Denotes l r (x.toNat l ^ b.toNat l % modulus.toNat l)
  /-- The two versions agree on every native input. -/
  agree {a b m : Nat} {x y modulus : Ubint} (ha : a < 2 ^ maxBits) (hb : b < 2 ^ maxBits)
    (hm : 2 <= m) (hm63 : m < 2 ^ 63) (hx : Denotes l x a) (hy : Denotes l y b)
    (hmodulus : Denotes l modulus m) :
    exists r, modExp l x y modulus = .ok r ∧ Valid l r ∧
      NativeInteger.modExp a b m = some (r.toNat l)

theorem nativeModExp_eq {a b m : Nat} (ha : a < 2 ^ maxBits) (hb : b < 2 ^ maxBits)
    (hm : 2 <= m) (hm63 : m < 2 ^ maxBits) : NativeInteger.modExp a b m = some (a ^ b % m) := by
  rcases NativeInteger.modExp_spec hm hm63 ha hb with ⟨x, hx, hlt, hvalue⟩
  have hcast : ((x : Nat) : ZMod m) = ((a ^ b : Nat) : ZMod m) := by
    rw [hvalue, Nat.cast_pow]
  rw [hx, ← (ZMod.natCast_eq_natCast_iff' x (a ^ b) m).mp hcast, Nat.mod_eq_of_lt hlt]

theorem modularPowers {l : Nat} (hl : 0 < l) : ModularPowers l := by
  have hword : (2 : Nat) ^ 63 < 2 ^ maxBits := by decide
  constructor
  case native =>
    intro a b m ha hb hm hm63
    exact nativeModExp_eq ha hb hm (hm63.trans hword)
  case big =>
    intro x b modulus hx hb hmodulus hm hfits
    exact modExp_spec hl hmodulus hm hfits hx hb
  case agree =>
    intro a b m x y modulus ha hb hm hm63 hx hy hmodulus
    have hfits : Nat.size ((modulus.toNat l - 1) * (modulus.toNat l - 1)) < maxMSB := by
      rw [hmodulus.value]
      have hle : (m - 1) * (m - 1) < 2 ^ 126 := by
        have hsquare : (2 : Nat) ^ 126 = 2 ^ 63 * 2 ^ 63 := by decide
        rw [hsquare]
        exact Nat.mul_lt_mul'' (by omega) (by omega)
      exact Nat.lt_of_le_of_lt (Nat.size_le.mpr hle) (by decide)
    rcases modExp_spec hl hmodulus.valid (by rw [hmodulus.value]; exact hm) hfits hx.valid
      hy.valid with ⟨r, hr, hvalid, hvalue⟩
    rw [hx.value, hy.value, hmodulus.value] at hvalue
    refine ⟨r, hr, hvalid, ?_⟩
    rw [hvalue]
    exact nativeModExp_eq ha hb hm (hm63.trans hword)

theorem modularPowers_64 : 0 < 6 ∧ ModularPowers 6 := ⟨by decide, modularPowers (by decide)⟩

end Ubint

end BigInteger
end Core
end OpenFHE
