import OpenFHE.Core.NativeInteger.Barrett
import OpenFHE.Core.NumberTheory.IntegerType
import OpenFHE.Foundation.SequenceSearch
import OpenFHE.Foundation.CoefficientList

/-!
# Integers of vectors

The templates over vectors form products of entries and reduce them afterwards.  A product of
native integers is cut off at the word, and `Mod` and `ModSubEq` reduce it by the reciprocal;
those of big integers are exact and ignore the reciprocal.
-/

namespace OpenFHE
namespace Core

open Foundation NativeInteger

structure IntVector where
  data : List Nat
  modulus : Nat
deriving DecidableEq, Repr

namespace IntVector

def getLength (v : IntVector) : Nat := v.data.length

end IntVector

/-- The operations of `IntVector::Integer` that the templates use. -/
structure IntVectorType extends IntType where
  mul : Nat -> Nat -> Nat
  computeMu : Nat -> Outcome Nat
  modAddEq : Nat -> Nat -> Nat -> Nat
  modSubEqMu : Nat -> Nat -> Nat -> Nat -> Outcome Nat
  modMu : Nat -> Nat -> Nat -> Outcome Nat

namespace IntVectorType

namespace Native

/-- `Mod` with the reciprocal shifts by two bits less than the modulus has. -/
def modMu (a modulus mu : Nat) : Outcome Nat :=
  if NativeInteger.getMSB modulus < 2 then .error .undefined
  else .ok (modWithMu a modulus mu)

def modSubEqMu (a b modulus mu : Nat) : Outcome Nat := do
  let av <- if a >= modulus then modMu a modulus mu else .ok a
  let bv <- if b >= modulus then modMu b modulus mu else .ok b
  if av < bv then .ok (subFast (word (av + modulus)) bv)
  else .ok (subFast av bv)

end Native

namespace Big

/-- `ModSubEq` of big integers, with or without the reciprocal. -/
def modSubEq (a b modulus : Nat) : Nat :=
  let bv := if b >= modulus then b % modulus else b
  let av := if a >= modulus then a % modulus else a
  let av := if av < bv then modulus + av else av
  av - bv

end Big

def native : IntVectorType where
  toIntType := IntType.native
  mul := mulFast
  computeMu a :=
    match NativeInteger.computeMu a with
    | none => .error (.thrown "NativeIntegerT ComputeMu: Divide by zero")
    | some mu => .ok mu
  modAddEq := NativeInteger.modAdd
  modSubEqMu := Native.modSubEqMu
  modMu := Native.modMu

def big : IntVectorType where
  toIntType := IntType.big
  mul a b := a * b
  computeMu a :=
    if a = 0 then .error (.thrown "Divisor is zero")
    else .ok (IntType.big.lShift 1 (2 * NativeInteger.getMSB a + 3) / a)
  modAddEq := IntType.Big.modAdd
  modSubEqMu a b modulus _ := .ok (Big.modSubEq a b modulus)
  modMu a modulus _ := IntType.big.mod a modulus

/-! ## Residues -/

/-- A canonical entry, and the residue that it stands for. -/
structure IsResidue (m : Nat) (v : ZMod m) (x : Nat) : Prop where
  lt : x < m
  cast : (x : ZMod m) = v

theorem isResidue_mod {m : Nat} (hm : 0 < m) (x : Nat) : IsResidue m (x : ZMod m) (x % m) := by
  constructor
  case lt => exact Nat.mod_lt x hm
  case cast => exact ZMod.natCast_mod x m

theorem isResidue_zero {m : Nat} (hm : 0 < m) : IsResidue m 0 0 := by
  constructor
  case lt => exact hm
  case cast => exact Nat.cast_zero

theorem isResidue_natCast {m x : Nat} (hx : x < m) : IsResidue m (x : ZMod m) x := by
  constructor
  case lt => exact hx
  case cast => rfl

section Coefficients

open Polynomial

variable {m : Nat}

theorem coefficients_lt {P : (ZMod m)[X]} {data : List Nat}
    (h : Coefficients (IsResidue m) P data) : forall x, x ∈ data -> x < m := by
  intro x hx
  rcases List.mem_iff_getElem?.mp hx with ⟨i, hi⟩
  exact (h.get i x hi).lt

theorem constant_coefficients {x : Nat} (hx : x < m) (n : Nat) :
    Coefficients (IsResidue m) (C (x : ZMod m)) (x :: List.replicate n 0) := by
  have hzeros : Coefficients (IsResidue m) 0 (List.replicate n 0) :=
    coefficients_nil.append_replicate (isResidue_zero (Nat.zero_lt_of_lt hx)) n
  have hconstant := hzeros.cons (isResidue_natCast hx)
  rw [mul_zero, add_zero] at hconstant
  exact hconstant

theorem linear_coefficients {r b : Nat} (hr : r < m) (hb : b < m) (n : Nat) :
    Coefficients (IsResidue m) (C (r : ZMod m) + X * C (b : ZMod m))
      (r :: b :: List.replicate n 0) :=
  (constant_coefficients hb n).cons (isResidue_natCast hr)

end Coefficients

/-- Sums take products of words modulo the modulus. -/
structure SumsProducts (T : IntVectorType) (m : Nat) : Prop where
  modAddEq {r a b : Nat} : r < m -> a < m -> b < m ->
    T.modAddEq r (T.mul a b) m = (r + T.mul a b) % m

def ProductsRight (T : IntVectorType) (m : Nat) : Prop :=
  forall a b, a < m -> b < m -> ((T.mul a b : Nat) : ZMod m) = (a : ZMod m) * b

/-- Subtracting a product from a residue gives a residue. -/
def DifferencesRight (T : IntVectorType) (m mu : Nat) : Prop :=
  forall r a b, r < m -> a < m -> b < m ->
    exists z, T.modSubEqMu r (T.mul a b) m mu = .ok z ∧ IsResidue m (r - a * b) z

/-- Reducing the sum of a residue and a product gives a residue. -/
def ReductionsRight (T : IntVectorType) (m mu : Nat) : Prop :=
  forall r a b, r < m -> a < m -> b < m ->
    exists z, T.modMu (T.add r (T.mul a b)) m mu = .ok z ∧ IsResidue m (r + a * b) z

/-! ## Big integers -/

section Big

variable {m : Nat} (hm : 0 < m)

include hm

theorem big_computeMu : exists mu, big.computeMu m = .ok mu :=
  ⟨_, if_neg hm.ne'⟩

theorem big_sumsProducts : SumsProducts big m := by
  constructor
  intro r a b hr _ _
  show IntType.Big.modAdd r (a * b) m = (r + a * b) % m
  have hreduce : (if a * b >= m then a * b % m else a * b) = a * b % m := by
    split
    next => rfl
    next hlt => exact (Nat.mod_eq_of_lt (not_le.mp hlt)).symm
  have hlt := Nat.mod_lt (a * b) hm
  unfold IntType.Big.modAdd
  rw [hreduce, if_neg (not_le.mpr hr), ← Nat.add_mod_mod]
  generalize a * b % m = x at hlt ⊢
  dsimp only
  split
  next hge => rw [Nat.mod_eq_sub_mod hge, Nat.mod_eq_of_lt (by omega)]
  next hlt => exact (Nat.mod_eq_of_lt (not_le.mp hlt)).symm

omit hm in
theorem big_productsRight (m : Nat) : ProductsRight big m := by
  intro a b _ _
  exact Nat.cast_mul a b

omit hm in
theorem big_differencesRight (m mu : Nat) : DifferencesRight big m mu := by
  intro r a b hr _ _
  have hlt := Nat.mod_lt (a * b) (Nat.zero_lt_of_lt hr)
  have hreduce : (if a * b >= m then a * b % m else a * b) = a * b % m := by
    split
    next => rfl
    next hlt => exact (Nat.mod_eq_of_lt (not_le.mp hlt)).symm
  have hcast : ((a * b % m : Nat) : ZMod m) = a * b := by
    rw [ZMod.natCast_mod, Nat.cast_mul]
  refine ⟨Big.modSubEq r (a * b) m, rfl, ?_⟩
  unfold Big.modSubEq
  rw [hreduce, if_neg (not_le.mpr hr)]
  generalize a * b % m = x at hlt hcast
  dsimp only
  split
  next hborrow =>
      constructor
      case lt => omega
      case cast => rw [Nat.cast_sub (by omega), Nat.cast_add, ZMod.natCast_self, zero_add, hcast]
  next hle =>
      constructor
      case lt => omega
      case cast => rw [Nat.cast_sub (not_lt.mp hle), hcast]

theorem big_reductionsRight (mu : Nat) : ReductionsRight big m mu := by
  intro r a b _ _ _
  refine ⟨(r + a * b) % m, if_neg hm.ne', ?_⟩
  have hres := isResidue_mod hm (r + a * b)
  rw [Nat.cast_add, Nat.cast_mul] at hres
  exact hres

end Big

/-! ## Native integers -/

structure Commutes (T : IntVectorType) : Prop where
  add (a b : Nat) : T.add a b = T.add b a
  mul (a b : Nat) : T.mul a b = T.mul b a

theorem big_commutes : Commutes big := by
  constructor
  case add => exact Nat.add_comm
  case mul => exact Nat.mul_comm

theorem native_commutes : Commutes native := by
  constructor
  case add =>
    intro a b
    exact congrArg word (Nat.add_comm b a)
  case mul =>
    intro a b
    exact congrArg word (Nat.mul_comm b a)

/-- Reducing a residue, with a product by zero added, leaves it as it is. -/
def KeepsResidues (T : IntVectorType) (m mu : Nat) : Prop :=
  forall r a z, r < m -> a < m -> T.modMu (T.add r (T.mul a 0)) m mu = .ok z -> z = r

theorem big_keepsResidues (m mu : Nat) : KeepsResidues big m mu := by
  intro r a z hr _ hz
  have hpos : m ≠ 0 := (Nat.zero_lt_of_lt hr).ne'
  have hrun : big.modMu (big.add r (big.mul a 0)) m mu = .ok (r % m) := if_neg hpos
  rw [hrun, Nat.mod_eq_of_lt hr] at hz
  cases hz
  rfl

/-- Products of residues fit in a word, or what is cut off is a multiple of the modulus. -/
def FitsWord (m : Nat) : Prop := m <= 2 ^ 32 ∨ m ∣ 2 ^ maxBits

def FitsReciprocal (m : Nat) : Prop := FitsWord m ∧ m ≠ 2 ^ 59

instance (m : Nat) : Decidable (FitsWord m) := inferInstanceAs (Decidable (_ ∨ _))

instance (m : Nat) : Decidable (FitsReciprocal m) := inferInstanceAs (Decidable (_ ∧ _))

section Native

variable {m : Nat}

theorem product_fits (h32 : m <= 2 ^ 32) {r a b : Nat} (hr : r < m) (ha : a < m) (hb : b < m) :
    r + a * b < m * m ∧ r + a * b < 2 ^ maxBits := by
  have hlt : r + a * b < m * m := by
    calc
      r + a * b < m + a * b := Nat.add_lt_add_right hr _
      _ <= m + (m - 1) * m := by
        refine Nat.add_le_add_left (Nat.mul_le_mul (by omega) hb.le) _
      _ = m * m := by
        rw [Nat.sub_mul, Nat.one_mul]
        exact Nat.add_sub_cancel' (Nat.le_mul_of_pos_left m (by omega))
  refine ⟨hlt, lt_of_lt_of_le hlt ?_⟩
  calc
    m * m <= 2 ^ 32 * 2 ^ 32 := Nat.mul_le_mul h32 h32
    _ = 2 ^ maxBits := by decide

theorem product_wraps (h32 : 2 ^ 32 < m) (hm : m < 2 ^ maxBits) :
    exists b, b < m ∧ 2 ^ maxBits <= b * (m - 1) ∧ b * (m - 1) < 2 * 2 ^ maxBits := by
  have hsquare : 2 ^ 32 * 2 ^ 32 <= (m - 1) * (m - 1) :=
    Nat.mul_le_mul (by omega) (by omega)
  have hexists : exists b, 2 ^ maxBits <= b * (m - 1) := ⟨m - 1, hsquare⟩
  rcases exists_least (P := fun b => 2 ^ maxBits <= b * (m - 1)) hexists with ⟨b, hb, hleast⟩
  refine ⟨b, ?_, hb, ?_⟩
  · by_contra hge
    exact hleast (m - 1) (by omega) hsquare
  · cases b with
    | zero =>
        rw [Nat.zero_mul] at hb
        exact absurd hb (by decide)
    | succ b =>
        have hlast := hleast b (Nat.lt_succ_self b)
        rw [Nat.succ_mul]
        omega

theorem native_productsRight_iff (hm : m < 2 ^ maxBits) :
    ProductsRight native m <-> FitsWord m := by
  constructor
  · intro h
    by_contra hfits
    rcases not_or.mp hfits with ⟨h32, hdvd⟩
    rcases product_wraps (not_le.mp h32) hm with ⟨b, hb, hge, hlt⟩
    have hcast : ((word (b * (m - 1)) : Nat) : ZMod m) = ((m - 1 : Nat) : ZMod m) * b :=
      h (m - 1) b (by omega) hb
    have hword : word (b * (m - 1)) + 2 ^ maxBits = b * (m - 1) := by
      rw [word, Nat.mod_eq_sub_mod hge, Nat.mod_eq_of_lt (by omega)]
      exact Nat.sub_add_cancel hge
    apply hdvd
    rw [← ZMod.natCast_eq_zero_iff]
    have hsum := congrArg (Nat.cast : Nat -> ZMod m) hword
    rw [Nat.cast_add, hcast, Nat.cast_mul, mul_comm] at hsum
    exact add_eq_left.mp hsum
  · intro hfits a b ha hb
    show ((word (b * a) : Nat) : ZMod m) = a * b
    cases hfits with
    | inl h32 =>
        have hlt := (product_fits h32 (Nat.zero_lt_of_lt ha) hb ha).2
        rw [Nat.zero_add] at hlt
        rw [word_eq hlt, Nat.cast_mul, mul_comm]
    | inr hdvd => rw [word_cast hdvd, Nat.cast_mul, mul_comm]

theorem native_sumsProducts (h60 : m < 2 ^ 60) : SumsProducts native m := by
  constructor
  intro r a b hr _ _
  show NativeInteger.modAdd r (mulFast a b) m = (r + mulFast a b) % m
  have hlt := Nat.mod_lt (mulFast a b) (Nat.zero_lt_of_lt hr)
  have hreduce : (if mulFast a b >= m then mulFast a b % m else mulFast a b) =
      mulFast a b % m := by
    split
    next => rfl
    next hlt => exact (Nat.mod_eq_of_lt (not_le.mp hlt)).symm
  unfold NativeInteger.modAdd
  rw [if_neg (not_le.mpr hr), hreduce,
    modAddFast_eq (h60.trans (by decide)) hr hlt, Nat.add_mod_mod]

theorem native_computeMu (hpos : 0 < m) :
    exists mu, native.computeMu m = .ok mu ∧ NativeInteger.computeMu m = some mu := by
  have hsome : NativeInteger.computeMu m = some
      (word (doubleWord (1 <<< (2 * NativeInteger.getMSB m + 3)) / m)) := if_neg hpos.ne'
  refine ⟨_, ?_, hsome⟩
  unfold native
  dsimp only
  rw [hsome]

theorem native_mul_lt (a b : Nat) : native.mul a b < 2 ^ maxBits := word_lt _

theorem native_add_lt (a b : Nat) : native.add a b < 2 ^ maxBits := word_lt _

theorem native_sum_cast (hfits : FitsWord m) {r a b : Nat} (hr : r < m) (ha : a < m)
    (hb : b < m) : ((native.add r (native.mul a b) : Nat) : ZMod m) = r + a * b := by
  show ((word (word (b * a) + r) : Nat) : ZMod m) = r + a * b
  cases hfits with
  | inl h32 =>
      have hlt := (product_fits h32 hr hb ha).2
      rw [word_eq (show b * a < 2 ^ maxBits by omega), Nat.add_comm, word_eq hlt, Nat.cast_add,
        Nat.cast_mul, mul_comm (b : ZMod m)]
  | inr hdvd =>
      rw [word_cast hdvd, Nat.cast_add, word_cast hdvd, Nat.cast_mul, add_comm,
        mul_comm (b : ZMod m)]

theorem native_sum_lt (h32 : m <= 2 ^ 32) {r a b : Nat} (hr : r < m) (ha : a < m)
    (hb : b < m) : native.add r (native.mul a b) < m * m := by
  show word (word (b * a) + r) < m * m
  rcases product_fits h32 hr hb ha with ⟨hlt, hword⟩
  rw [word_eq (show b * a < 2 ^ maxBits by omega), Nat.add_comm, word_eq hword]
  exact hlt

theorem modWithMu_eq (h1 : 1 < m) (h60 : m < 2 ^ 60) (hfits : FitsReciprocal m) {mu x : Nat}
    (hmu : NativeInteger.computeMu m = some mu) (hx : x < 2 ^ maxBits)
    (hsmall : m <= 2 ^ 32 -> x < m * m) : modWithMu x m mu = x % m := by
  have hupper := (getMSB_bounds (by omega : 0 < m)).2
  rw [computeMu_eq hfits.2 h1 h60] at hmu
  cases hmu
  apply (modMu_iff h1 h60 hfits.2 hx).mpr
  cases hfits.1 with
  | inl h32 =>
      apply modLoss_lt h1 h60
      have hbound : m * m < 2 ^ (2 * NativeInteger.getMSB m) := by
        rw [two_mul, pow_add]
        exact Nat.mul_lt_mul'' hupper hupper
      exact ((hsmall h32).trans hbound).le.trans
        (Nat.pow_le_pow_right (by decide) (Nat.le_add_right _ 2))
  | inr hdvd =>
      have hlower := (getMSB_bounds (by omega : 0 < m)).1
      have hk := two_le_getMSB h1
      apply barrettLoss_lt_of_dvd (by positivity) (by positivity)
      · exact (Nat.pow_le_pow_right (by decide) (by omega)).trans hlower
      · rw [← scale_split h1]
        rcases (Nat.dvd_prime_pow Nat.prime_two).mp hdvd with ⟨j, _, rfl⟩
        have hj := (Nat.pow_lt_pow_iff_right (by decide)).mp hupper
        exact pow_dvd_pow 2 (by omega)

section Reciprocal

variable (hpos : 0 < m) (h60 : m < 2 ^ 60) {mu : Nat}
  (hmu : NativeInteger.computeMu m = some mu)

include hpos h60 hmu

omit hpos in
theorem modWithMu_cast (h1 : 1 < m) (hne : m ≠ 2 ^ 59) {x : Nat} (hx : x < 2 ^ maxBits) :
    ((modWithMu x m mu : Nat) : ZMod m) = x ∧ modWithMu x m mu <= x := by
  rw [computeMu_eq hne h1 h60] at hmu
  cases hmu
  rcases modMu_mod h1 h60 hne hx with ⟨hmod, hle⟩
  exact ⟨(ZMod.natCast_eq_natCast_iff _ _ _).mpr hmod, hle⟩

omit hpos h60 hmu in
theorem native_modMu_eq (h1 : 1 < m) (x : Nat) :
    native.modMu x m mu = .ok (modWithMu x m mu) :=
  if_neg (not_lt.mpr (two_le_getMSB h1))

theorem native_reductionsRight_iff :
    ReductionsRight native m mu <-> 1 < m ∧ FitsReciprocal m := by
  constructor
  · intro h
    have h1 : 1 < m := by
      by_contra hone
      cases (by omega : m = 1)
      rcases h 0 0 0 hpos hpos hpos with ⟨z, hz, _⟩
      cases hz
    have hne : m ≠ 2 ^ 59 := by
      intro heq
      subst heq
      rw [computeMu_two_pow] at hmu
      cases hmu
      rcases h 0 (2 ^ 30) (2 ^ 30) (by decide) (by decide) (by decide) with ⟨z, hz, hres⟩
      have hrun : native.modMu (native.add 0 (native.mul (2 ^ 30) (2 ^ 30))) (2 ^ 59) 0 =
          .ok (2 ^ 59) := by
        decide +kernel
      rw [hrun] at hz
      cases hz
      exact absurd hres.lt (by decide +kernel)
    refine ⟨h1, (native_productsRight_iff (h60.trans (by decide))).mp ?_, hne⟩
    intro a b ha hb
    rcases h 0 a b hpos ha hb with ⟨z, hz, hres⟩
    have hword : native.add 0 (native.mul a b) = native.mul a b := word_eq (word_lt _)
    rw [native_modMu_eq h1, hword] at hz
    cases hz
    rw [← (modWithMu_cast h60 hmu h1 hne (native_mul_lt a b)).1]
    exact hres.cast.trans (by rw [Nat.cast_zero, zero_add])
  · rintro ⟨h1, hfits⟩ r a b hr ha hb
    refine ⟨_, native_modMu_eq h1 _, ?_⟩
    rw [modWithMu_eq h1 h60 hfits hmu (native_add_lt r _) fun h32 => native_sum_lt h32 hr ha hb,
      ← native_sum_cast hfits.1 hr ha hb]
    exact isResidue_mod hpos _

omit hpos h60 hmu in
theorem modWithMu_zero {r : Nat} (hr : r < m) (hword : r < 2 ^ maxBits) :
    modWithMu r m 0 = r := by
  have hquot (z : TypeD) (n : Nat) : getD (multD (rShiftD z n) 0) = 0 := by
    simp [multD, getD, doubleWord, word]
  unfold modWithMu NativeInteger.modMu
  simp only [hquot, Nat.zero_shiftRight, Nat.zero_mul, show doubleWord 0 = 0 from rfl,
    show word 0 = 0 from rfl, subFast_eq (Nat.zero_le r) hword, Nat.sub_zero]
  exact if_neg (not_le.mpr hr)

omit hpos h60 hmu in
theorem native_modSubEqMu_eq (h1 : 1 < m) {r : Nat} (hr : r < m) (x : Nat) :
    exists bv, bv = (if x >= m then modWithMu x m mu else x) ∧
      native.modSubEqMu r x m mu =
        .ok (if r < bv then subFast (word (r + m)) bv else subFast r bv) := by
  refine ⟨_, rfl, ?_⟩
  show Native.modSubEqMu r x m mu = _
  unfold Native.modSubEqMu
  rw [if_neg (not_le.mpr hr), ok_bind]
  dsimp only
  split
  next hge =>
      rw [show Native.modMu x m mu = .ok (modWithMu x m mu) from native_modMu_eq h1 x, ok_bind]
      split <;> rfl
  next hlt =>
      rw [ok_bind]
      split <;> rfl

theorem native_differencesRight_of_fits (hfits : FitsReciprocal m) :
    DifferencesRight native m mu := by
  intro r a b hr ha hb
  cases (Nat.one_le_iff_ne_zero.mpr hpos.ne').eq_or_lt with
  | inl hone =>
      subst hone
      cases (by omega : r = 0)
      cases (by omega : a = 0)
      cases (by omega : b = 0)
      refine ⟨0, rfl, Nat.one_pos, Subsingleton.elim _ _⟩
  | inr h1 =>
      rcases @native_modSubEqMu_eq m mu h1 r hr (native.mul a b) with ⟨bv, hbv, hrun⟩
      have hcast : ((native.mul a b : Nat) : ZMod m) = a * b :=
        (native_productsRight_iff (h60.trans (by decide))).mpr hfits.1 a b ha hb
      have hmod : bv = native.mul a b % m := by
        rw [hbv]
        split
        next hge =>
            apply modWithMu_eq h1 h60 hfits hmu (native_mul_lt a b)
            intro h32
            have hlt := native_sum_lt h32 hpos ha hb
            rwa [show native.add 0 (native.mul a b) = native.mul a b from
              word_eq (native_mul_lt a b)] at hlt
        next hlt => exact (Nat.mod_eq_of_lt (not_le.mp hlt)).symm
      have hlt : bv < m := by
        rw [hmod]
        exact Nat.mod_lt _ hpos
      have hbvcast : (bv : ZMod m) = a * b := by
        rw [hmod, ZMod.natCast_mod, hcast]
      refine ⟨_, hrun, ?_⟩
      have hsum : r + m < 2 ^ maxBits := by
        simp only [maxBits]
        omega
      split
      next hborrow =>
          rw [word_eq hsum, subFast_eq (by omega) hsum]
          constructor
          case lt => omega
          case cast =>
            rw [Nat.cast_sub (by omega), Nat.cast_add, ZMod.natCast_self, add_zero, hbvcast]
      next hle =>
          rw [subFast_eq (not_lt.mp hle) (by omega)]
          constructor
          case lt => omega
          case cast => rw [Nat.cast_sub (not_lt.mp hle), hbvcast]

theorem native_productsRight_of_differences (h1 : 1 < m) (hne : m ≠ 2 ^ 59)
    (h : DifferencesRight native m mu) : ProductsRight native m := by
  intro a b ha hb
  rcases h 0 a b hpos ha hb with ⟨z, hz, hres⟩
  rcases @native_modSubEqMu_eq m mu h1 0 hpos (native.mul a b) with ⟨bv, hbv, hrun⟩
  have hclass : (bv : ZMod m) = (native.mul a b : Nat) ∧ bv <= native.mul a b := by
    rw [hbv]
    split
    next => exact modWithMu_cast h60 hmu h1 hne (native_mul_lt a b)
    next => exact ⟨rfl, le_rfl⟩
  have hword : bv < 2 ^ maxBits := hclass.2.trans_lt (native_mul_lt a b)
  rw [hrun] at hz
  cases hz
  rw [← hclass.1]
  have hlt := hres.lt
  have hcast := hres.cast
  rw [Nat.cast_zero, zero_sub] at hcast
  rw [Nat.zero_add, word_eq (h60.trans (by decide))] at hlt hcast
  split at hcast
  next hpositive =>
      rw [if_pos hpositive] at hlt
      have hle : bv <= m := by
        by_contra hgt
        have hwrap : subFast m bv = m + (2 ^ maxBits - bv) := by
          unfold subFast
          rw [word_eq hword, word_eq (by omega)]
        omega
      rw [subFast_eq hle (h60.trans (by decide)), Nat.cast_sub hle, ZMod.natCast_self,
        zero_sub] at hcast
      exact neg_injective hcast
  next hzero =>
      cases (by omega : bv = 0)
      rw [Nat.cast_zero]
      have hsub : subFast 0 0 = 0 := by decide
      rw [hsub, Nat.cast_zero] at hcast
      exact neg_injective (neg_zero.trans hcast)

theorem native_differencesRight_iff :
    DifferencesRight native m mu <-> FitsReciprocal m := by
  constructor
  · intro h
    have hne : m ≠ 2 ^ 59 := by
      intro heq
      subst heq
      rw [computeMu_two_pow] at hmu
      cases hmu
      rcases h 0 (3 * 2 ^ 29) (2 ^ 30) (by decide) (by decide) (by decide) with ⟨z, hz, hres⟩
      have hrun : native.modSubEqMu 0 (native.mul (3 * 2 ^ 29) (2 ^ 30)) (2 ^ 59) 0 =
          .ok (2 ^ 64 - 2 ^ 59) := by
        decide +kernel
      rw [hrun] at hz
      cases hz
      exact absurd hres.lt (by decide +kernel)
    refine ⟨?_, hne⟩
    cases Nat.lt_or_ge (2 ^ 32) m with
    | inl h32 =>
        have h1 : 1 < m := (by decide : 1 < 2 ^ 32).trans h32
        exact (native_productsRight_iff (h60.trans (by decide))).mp
          (native_productsRight_of_differences hpos h60 hmu h1 hne h)
    | inr h32 => exact Or.inl h32
  · exact native_differencesRight_of_fits hpos h60 hmu

omit hpos in
theorem native_keepsResidues : KeepsResidues native m mu := by
  intro r a z hr _ hz
  have hword : r < 2 ^ maxBits := (hr.trans h60).trans (by decide)
  have harg : native.add r (native.mul a 0) = r := by
    show word (word (0 * a) + r) = r
    rw [Nat.zero_mul, show word 0 = 0 from rfl, Nat.zero_add, word_eq hword]
  rw [harg] at hz
  cases Nat.lt_or_ge 1 m with
  | inr hone =>
      cases (by omega : m = 1)
      cases hz
  | inl h1 =>
      rw [native_modMu_eq h1] at hz
      cases hz
      by_cases hne : m = 2 ^ 59
      · subst hne
        rw [computeMu_two_pow] at hmu
        cases hmu
        exact modWithMu_zero hr hword
      · rcases modWithMu_cast h60 hmu h1 hne hword with ⟨hcast, hle⟩
        have hmod := (ZMod.natCast_eq_natCast_iff _ _ _).mp hcast
        exact hmod.eq_of_lt_of_lt (hle.trans_lt hr) hr

end Reciprocal

end Native

end IntVectorType
end Core
end OpenFHE
