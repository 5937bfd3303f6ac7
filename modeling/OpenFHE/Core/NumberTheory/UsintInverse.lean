import OpenFHE.Core.NativeInteger.ModInverse

/-!
# The inverse of a `usint`

The loop is the one of the signed inverse, with its coefficients in unsigned words.  The last
coefficient is at most half of the modulus and may be below zero; nothing is added to it then,
so that the result is the inverse exactly when the inverse is in the lower half.
-/

namespace OpenFHE
namespace Core

open Foundation NativeInteger

namespace Usint

structure InverseState where
  a : Nat
  b : Nat
  x0 : Nat
  x1 : Nat
deriving DecidableEq, Repr

def modInverseStep (s : InverseState) : Option InverseState :=
  if s.b = 0 then none
  else
    let q := s.a / s.b
    some
      { a := s.b
        b := s.a % s.b
        x0 := usint ((s.x1 : Int) - q * s.x0)
        x1 := s.x0 }

def modInverse (a b : Nat) : Option Nat :=
  if b = 1 then some 1
  else
    (whileFuel (fun s => decide (1 < s.a)) modInverseStep (b + 2)
      { a := a, b := b, x0 := 0, x1 := 1 }).map InverseState.x1

/-! ## The signed coefficients -/

/-- The unsigned variables stand for the signed ones. -/
structure Wraps (s : NativeInteger.InverseState) (u : InverseState) : Prop where
  a_eq : (u.a : Int) = s.a
  b_eq : (u.b : Int) = s.modulus
  x1_eq : u.x1 = usint s.x
  x0_eq : u.x0 = usint s.y

theorem usint_sub_mul (x y q : Int) :
    usint ((usint x : Int) - q * (usint y : Int)) = usint (x - q * y) := by
  have hcast (z : Int) : (usint z : Int) = z % 2 ^ 32 :=
    Int.toNat_of_nonneg (Int.emod_nonneg z (by decide))
  have hmod : ((usint x : Int) - q * (usint y : Int)) % 2 ^ 32 = (x - q * y) % 2 ^ 32 := by
    rw [hcast, hcast]
    exact (Int.mod_modEq x _).sub ((Int.mod_modEq y _).mul_left q)
  unfold usint at hmod ⊢
  rw [hmod]

/-- The signed step that the unsigned one stands for. -/
def signedStep (s : NativeInteger.InverseState) : NativeInteger.InverseState where
  a := s.modulus
  modulus := s.a % s.modulus
  x := s.y
  y := s.x - s.a / s.modulus * s.y

theorem Wraps.step {s : NativeInteger.InverseState} {u : InverseState} (h : Wraps s u)
    (hpos : 0 < s.modulus) : exists u', modInverseStep u = some u' ∧ Wraps (signedStep s) u' := by
  have hb := h.b_eq
  have hne : u.b ≠ 0 := by omega
  refine ⟨_, if_neg hne, ?_⟩
  constructor
  case a_eq => exact hb
  case b_eq =>
    show ((u.a % u.b : Nat) : Int) = s.a % s.modulus
    rw [Int.natCast_mod, h.a_eq, hb]
  case x1_eq => exact h.x0_eq
  case x0_eq =>
    show usint ((u.x1 : Int) - (u.a / u.b : Nat) * (u.x0 : Int)) = _
    rw [h.x1_eq, h.x0_eq, Int.natCast_div, h.a_eq, hb]
    exact usint_sub_mul s.x s.y _

/-- The coefficients stay in the lower half; one below zero is strictly inside. -/
structure HalfInv (value mod : Nat) (s : NativeInteger.InverseState) : Prop extends
    InverseInv value mod s where
  half : 2 * |s.x| <= mod
  strict : s.x < 0 -> 2 * |s.x| < mod
  x_zero : s.x = 0 -> 0 < s.y
  y_zero : s.y = 0 -> 0 < s.x

section Inverse

variable {value mod : Nat} {s : NativeInteger.InverseState}

theorem HalfInv.step (h : HalfInv value mod s) (hs : 1 < s.a) :
    HalfInv value mod (signedStep s) := by
  have hweight := h.weight
  have hpos := h.modulus_pos hs
  have hq := h.quotient_nonneg hs
  have htwo : 2 * |s.y| <= |s.y| * s.a := by
    rw [mul_comm]
    exact mul_le_mul_of_nonneg_left (by omega) (abs_nonneg s.y)
  have hfirst : 0 <= |s.x| * s.modulus := mul_nonneg (abs_nonneg s.x) hpos.le
  constructor
  case toInverseInv => exact h.toInverseInv.step hs
  case half =>
    show 2 * |s.y| <= mod
    omega
  case strict =>
    intro hneg
    change s.y < 0 at hneg
    show 2 * |s.y| < mod
    have hx : s.x ≠ 0 := by
      intro hzero
      have hy := h.x_zero hzero
      omega
    have hprod : 0 < |s.x| * s.modulus := mul_pos (abs_pos.mpr hx) hpos
    omega
  case x_zero =>
    intro hzero
    change s.y = 0 at hzero
    show 0 < s.x - s.a / s.modulus * s.y
    rw [hzero, mul_zero, sub_zero]
    exact h.y_zero hzero
  case y_zero =>
    intro hzero
    change s.x - s.a / s.modulus * s.y = 0 at hzero
    show 0 < s.y
    have habs := abs_sub_mul_of_opposite hq h.opposite
    rw [hzero, abs_zero] at habs
    have hx : |s.x| = 0 := by
      have hrest := mul_nonneg hq (abs_nonneg s.y)
      have hnonneg := abs_nonneg s.x
      omega
    exact h.x_zero (abs_eq_zero.mp hx)

theorem HalfInv.initial (hmod : 1 < mod) (hpos : 0 < value) (hlt : value < mod)
    (hgcd : Nat.gcd value mod = 1) :
    HalfInv value mod { a := value, modulus := mod, x := 1, y := 0 } := by
  have hbase := @InverseInv.initial value mod (Nat.zero_lt_of_lt hmod)
    (by rwa [Nat.mod_eq_of_lt hlt]) hgcd
  rw [Nat.mod_eq_of_lt hlt] at hbase
  constructor
  case toInverseInv => exact hbase
  case half =>
    show 2 * |(1 : Int)| <= mod
    rw [abs_one]
    omega
  case strict =>
    intro hneg
    exact absurd hneg (show ¬ (1 : Int) < 0 by decide)
  case x_zero =>
    intro hzero
    exact absurd hzero Int.one_ne_zero
  case y_zero =>
    intro _
    exact Int.one_pos

theorem HalfInv.afterFirst (hmod : 1 < mod) (hgcd : Nat.gcd value mod = 1) :
    HalfInv value mod
      (signedStep { a := value, modulus := mod, x := 1, y := 0 }) := by
  have hrem : 0 < value % mod := by
    apply Nat.pos_of_ne_zero
    intro hzero
    have hdvd : mod ∣ Nat.gcd value mod :=
      Nat.dvd_gcd (Nat.dvd_of_mod_eq_zero hzero) (Nat.dvd_refl mod)
    rw [hgcd] at hdvd
    exact absurd (Nat.le_of_dvd Nat.one_pos hdvd) (not_le.mpr hmod)
  have hlt := Nat.mod_lt value (Nat.zero_lt_of_lt hmod)
  have hstep : signedStep { a := value, modulus := mod, x := 1, y := 0 } =
      { a := mod, modulus := (value % mod : Nat), x := 0, y := 1 } := by
    unfold signedStep
    dsimp only
    rw [mul_zero, sub_zero, Int.natCast_mod]
  rw [hstep]
  constructor
  case toInverseInv =>
    constructor
    case a_pos => exact Int.natCast_pos.mpr (Nat.zero_lt_of_lt hmod)
    case modulus_nonneg => exact Int.natCast_nonneg _
    case a_le => exact le_refl _
    case modulus_le => exact Int.ofNat_le.mpr hlt.le
    case gcd_eq =>
      rw [Int.gcd_natCast_natCast, Nat.gcd_comm, ← Nat.gcd_rec, Nat.gcd_comm]
      exact hgcd
    case x_cong =>
      dsimp only
      rw [zero_mul]
      exact Int.modEq_zero_iff_dvd.mpr (dvd_refl _)
    case y_cong =>
      dsimp only
      rw [one_mul]
      exact Int.natCast_modEq_iff.mpr (Nat.mod_modEq value mod)
    case weight => simp
    case opposite => simp
    case x_le => simp
  case half => simp
  case strict =>
    intro hneg
    exact absurd hneg (lt_irrefl _)
  case x_zero =>
    intro _
    exact Int.one_pos
  case y_zero =>
    intro hzero
    exact absurd hzero Int.one_ne_zero

end Inverse

/-! ## The loop -/

section Loop

variable {a b : Nat}

theorem modInverseLoop_spec {u : InverseState} {s : NativeInteger.InverseState} {fuel : Nat}
    (hu : Wraps s u) (hs : HalfInv a b s) (hfuel : u.b < fuel) :
    exists u' s', whileFuel (fun s => decide (1 < s.a)) modInverseStep fuel u = some u' ∧
      Wraps s' u' ∧ HalfInv a b s' ∧ s'.a = 1 := by
  have hbody (u : InverseState) (hP : exists s, Wraps s u ∧ HalfInv a b s)
      (hc : decide (1 < u.a) = true) : exists u', modInverseStep u = some u' ∧
        (exists s, Wraps s u' ∧ HalfInv a b s) ∧ u'.b < u.b := by
    rcases hP with ⟨s, hu, hs⟩
    have hlt : 1 < s.a := by
      have hcond := of_decide_eq_true hc
      have ha := hu.a_eq
      omega
    have hpos := hs.modulus_pos hlt
    rcases hu.step hpos with ⟨u', hrun, hu'⟩
    refine ⟨u', hrun, ⟨_, hu', hs.step hlt⟩, ?_⟩
    have hrem : (u'.b : Int) < s.modulus := by
      rw [hu'.b_eq]
      exact Int.emod_lt_of_pos s.a hpos
    have hb := hu.b_eq
    omega
  rcases whileFuel_spec (fun u => exists s, Wraps s u ∧ HalfInv a b s) InverseState.b hbody fuel u
    ⟨s, hu, hs⟩ hfuel with ⟨u', hrun, ⟨s', hu', hs'⟩, hstop⟩
  refine ⟨u', s', hrun, hu', hs', ?_⟩
  have hend := of_decide_eq_false hstop
  have ha := hu'.a_eq
  have hpos := hs'.a_pos
  omega

/-- What is returned, as the unsigned word of a signed inverse in the lower half. -/
structure SignedInverse (a b : Nat) (x : Int) : Prop where
  run : modInverse a b = some (usint x)
  cong : a * x ≡ 1 [ZMOD b]
  half : 2 * |x| <= b
  strict : x < 0 -> 2 * |x| < b

theorem modInverse_run (ha : 1 <= a) (hb : 2 <= b) (hgcd : Nat.gcd a b = 1) :
    exists x, SignedInverse a b x := by
  have hinit : Wraps { a := a, modulus := b, x := 1, y := 0 } { a := a, b := b, x0 := 0, x1 := 1 } := by
    constructor <;> rfl
  have hloop : exists u s, whileFuel (fun s => decide (1 < s.a)) modInverseStep (b + 2)
      { a := a, b := b, x0 := 0, x1 := 1 } = some u ∧ Wraps s u ∧ HalfInv a b s ∧ s.a = 1 := by
    cases Nat.lt_or_ge a b with
    | inl hlt =>
        exact modInverseLoop_spec hinit (HalfInv.initial hb ha hlt hgcd)
          (Nat.lt_add_of_pos_right Nat.two_pos)
    | inr hge =>
        have hpos : (0 : Int) < b := Int.natCast_pos.mpr (Nat.zero_lt_of_lt hb)
        rcases hinit.step hpos with ⟨u, hrun, hu⟩
        have hrest : u.b < b + 1 := by
          have hrem : (u.b : Int) < b := by
            rw [hu.b_eq]
            exact Int.emod_lt_of_pos _ hpos
          omega
        have hfirst := whileFuel_step (c := fun s : InverseState => decide (1 < s.a))
          (f := modInverseStep) (b + 1) (decide_eq_true (show 1 < a from hb.trans hge)) hrun
        rw [hfirst]
        exact modInverseLoop_spec hu (HalfInv.afterFirst hb hgcd) hrest
  rcases hloop with ⟨u, s, hrun, hu, hs, hone⟩
  refine ⟨s.x, ?_⟩
  constructor
  case run =>
    unfold modInverse
    rw [if_neg (by omega), hrun, Option.map_some, hu.x1_eq]
  case cong =>
    have hcong := hs.x_cong
    rw [hone, mul_comm] at hcong
    exact hcong.symm
  case half => exact hs.half
  case strict => exact hs.strict

def ReturnsInverse (a b : Nat) : Prop :=
  exists x, modInverse a b = some x ∧ x < b ∧ a * x % b = 1

theorem mul_mod_eq_one_iff (hb : 2 <= b) {x : Nat} :
    a * x % b = 1 <-> (a * x : Int) ≡ 1 [ZMOD b] := by
  have hmod : (1 : Nat) % b = 1 := Nat.mod_eq_of_lt hb
  have hcast : (a * x : Int) ≡ 1 [ZMOD b] <-> a * x ≡ 1 [MOD b] := by
    rw [← Int.natCast_modEq_iff, Nat.cast_mul, Nat.cast_one]
  rw [hcast, Nat.ModEq, hmod]

/-- The loop ends, and its result is the inverse exactly when that is in the lower half. -/
theorem usintModInverse_iff (ha : 1 <= a) (hb : 2 <= b) (hb31 : b < 2 ^ 31)
    (hgcd : Nat.gcd a b = 1) : (exists x, modInverse a b = some x) ∧
      (ReturnsInverse a b <-> exists x, 2 * x <= b ∧ a * x % b = 1) := by
  rcases modInverse_run ha hb hgcd with ⟨x, hx⟩
  have hhalf := hx.half
  refine ⟨⟨_, hx.run⟩, ?_⟩
  cases le_or_gt 0 x with
  | inl hnonneg =>
      obtain ⟨y, rfl⟩ := Int.eq_ofNat_of_zero_le hnonneg
      rw [abs_of_nonneg hnonneg] at hhalf
      have hy : 2 * y <= b := by omega
      have hinverse : a * y % b = 1 := (mul_mod_eq_one_iff hb).mpr hx.cong
      have hrun := hx.run
      rw [usint_eq (by omega)] at hrun
      constructor
      · intro _
        exact ⟨y, hy, hinverse⟩
      · intro _
        exact ⟨y, hrun, by omega, hinverse⟩
  | inr hneg =>
      have hstrict := hx.strict hneg
      rw [abs_of_neg hneg] at hstrict
      constructor
      · rintro ⟨r, hr, hlt, _⟩
        have hrun := hx.run
        rw [hr] at hrun
        have hword : (usint x : Int) = x + 2 ^ 32 := by
          unfold usint
          omega
        cases hrun
        omega
      · rintro ⟨y, hy, hinverse⟩
        have hdiff : (a * ((y : Int) - x)) ≡ 0 [ZMOD b] := by
          have hsub := ((mul_mod_eq_one_iff hb).mp hinverse).sub hx.cong
          rw [← mul_sub, sub_self] at hsub
          exact hsub
        have hdvd : (b : Int) ∣ (y : Int) - x := by
          have hprod := Int.modEq_zero_iff_dvd.mp hdiff
          have hcoprime : Int.gcd (b : Int) a = 1 := by
            rw [Int.gcd_natCast_natCast, Nat.gcd_comm]
            exact hgcd
          exact Int.dvd_of_dvd_mul_right_of_gcd_one hprod hcoprime
        have hle := Int.le_of_dvd (by omega) hdvd
        omega

end Loop

theorem usintModInverse_iff_three : (exists x, modInverse 3 5 = some x) ∧
    (ReturnsInverse 3 5 <-> exists x, 2 * x <= 5 ∧ 3 * x % 5 = 1) :=
  usintModInverse_iff (by decide) (by decide) (by decide) (by decide)

/-- The inverse of two modulo five is three; the loop ends with `-2`. -/
theorem not_returnsInverse :
    modInverse 2 5 = some (2 ^ 32 - 2) ∧ 2 * 3 % 5 = 1 ∧ ¬ ReturnsInverse 2 5 := by
  have hrun : modInverse 2 5 = some (2 ^ 32 - 2) := by decide +kernel
  refine ⟨hrun, rfl, ?_⟩
  rintro ⟨x, hx, hlt, _⟩
  rw [hrun] at hx
  cases hx
  exact absurd hlt (by decide)

end Usint

end Core
end OpenFHE
