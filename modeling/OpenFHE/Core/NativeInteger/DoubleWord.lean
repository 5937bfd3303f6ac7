import OpenFHE.Core.NativeInteger.CheckedArithmetic
import OpenFHE.Core.NativeInteger.ModularArithmetic
import Mathlib.Data.Nat.ModEq

/-!
# Double words on all platforms

The preprocessor chooses one body of `MultD` for a word size and a platform.  Where the compiler
has integers of twice the size, or the processor an instruction for the high word, the product
is read off; elsewhere it is put together from four products of half-words.
-/

namespace OpenFHE
namespace Core
namespace NativeInteger

open Foundation

/-- The bodies of `MultD`. -/
inductive MultDPath where
  /-- `uint32_t`, through `uint64_t` -/
  | uint32
  /-- `uint64_t` with `HAVE_INT128` -/
  | int128
  /-- `uint64_t` on `__EMSCRIPTEN__` -/
  | emscripten
  /-- `uint64_t` on `__x86_64__` -/
  | x86_64
  /-- `uint64_t` on `__aarch64__` -/
  | aarch64
  /-- `uint64_t` on `__arm__` and `__powerpc__` -/
  | processor32
  /-- `uint128_t` -/
  | uint128
deriving DecidableEq, Repr

def MultDPath.width : MultDPath -> Nat
  | .uint32 => 32
  | .uint128 => 128
  | _ => 64

/-- Half-words without `uint128_t`: the high word is completed before the carries. -/
def multDEmscripten (a b : Nat) : TypeD :=
  let a1 := a >>> 32
  let a2 := a % 2 ^ 32
  let b1 := b >>> 32
  let b2 := b % 2 ^ 32
  let hi := wrapMul 64 a1 b1
  let lowBefore := wrapMul 64 a2 b2
  let p1 := wrapMul 64 a2 b1
  let p2 := wrapMul 64 a1 b2
  let temp := wrapAdd 64 p1 p2
  let hi := wrapAdd 64 hi (temp >>> 32)
  let lo := wrapAdd 64 lowBefore ((temp % 2 ^ 32) <<< 32 % 2 ^ 64)
  let hi := if lowBefore > lo then wrapAdd 64 hi 1 else hi
  let hi := if temp < p1 ∨ temp < p2 then wrapAdd 64 hi (1 <<< 32 % 2 ^ 64) else hi
  { hi := hi, lo := lo }

/-- Half-words of `uint128_t`: the high word is completed after the carries. -/
def multDUint128 (a b : Nat) : TypeD :=
  let masklo := 1 <<< 64 - 1
  let onehi := 1 <<< 64
  let a1 := a >>> 64
  let a2 := a &&& masklo
  let b1 := b >>> 64
  let b2 := b &&& masklo
  let a1b2 := wrapMul 128 a1 b2
  let a2b1 := wrapMul 128 a2 b1
  let tmp := wrapAdd 128 a1b2 a2b1
  let lo := wrapMul 128 a2 b2
  let hi := wrapMul 128 a1 b1
  let resLo := wrapAdd 128 lo (tmp <<< 64 % 2 ^ 128)
  let hi := if lo > resLo then wrapAdd 128 hi 1 else hi
  let hi := if tmp < a1b2 ∨ tmp < a2b1 then wrapAdd 128 hi onehi else hi
  let hi := wrapAdd 128 hi (tmp >>> 64)
  { hi := hi, lo := resLo }

/-- `umulh` gives the high word of a product. -/
def umulh (a b : Nat) : Nat := a * b / 2 ^ 64

def MultDPath.multD : MultDPath -> Nat -> Nat -> TypeD
  | .uint32, a, b =>
      let c := wrapMul 64 a b
      { hi := c >>> 32 % 2 ^ 32, lo := c % 2 ^ 32 }
  | .int128, a, b => NativeInteger.multD a b
  | .emscripten, a, b => multDEmscripten a b
  -- `mulq` leaves the product in two registers
  | .x86_64, a, b => { hi := a * b / 2 ^ 64, lo := a * b % 2 ^ 64 }
  | .aarch64, a, b =>
      let x : TypeD := { hi := 0, lo := a }
      { hi := wrapAdd 64 (umulh x.lo b) (wrapMul 64 x.hi b), lo := wrapMul 64 x.lo b }
  | .processor32, a, b =>
      let wres := wrapMul 64 a b
      { hi := wres >>> 32, lo := wres % 2 ^ 32 &&& 0xFFFFFFFF }
  | .uint128, a, b => multDUint128 a b

def subtractD (w : Nat) (res a : TypeD) : TypeD :=
  let uintMax := 2 ^ w - 1
  let res := if res.lo < a.lo
    then { hi := wrapSub w res.hi 1
           lo := wrapAdd w res.lo (wrapSub w (wrapAdd w uintMax 1) a.lo) }
    else { res with lo := wrapSub w res.lo a.lo }
  { res with hi := wrapSub w res.hi a.hi }

/-- `RShiftD` for words of `w` bits. -/
def rShiftWords (w : Nat) (x : TypeD) (shift : Nat) : Nat :=
  x.lo >>> shift ||| x.hi <<< (w - shift) % 2 ^ w

def TypeD.toNat (w : Nat) (x : TypeD) : Nat := x.hi * 2 ^ w + x.lo

structure TypeD.IsWords (w : Nat) (x : TypeD) : Prop where
  hi_lt : x.hi < 2 ^ w
  lo_lt : x.lo < 2 ^ w

/-! ## Products -/

def productWords (w a b : Nat) : TypeD where
  hi := a * b / 2 ^ w
  lo := a * b % 2 ^ w

section Product

variable {w a b : Nat}

theorem productWords_isWords (ha : a < 2 ^ w) (hb : b < 2 ^ w) :
    (productWords w a b).IsWords w := by
  constructor
  case hi_lt => exact Nat.div_lt_of_lt_mul (Nat.mul_lt_mul'' ha hb)
  case lo_lt => exact Nat.mod_lt _ (Nat.two_pow_pos w)

theorem productWords_toNat : (productWords w a b).toNat w = a * b := by
  show a * b / 2 ^ w * 2 ^ w + a * b % 2 ^ w = a * b
  rw [Nat.mul_comm (a * b / 2 ^ w), Nat.div_add_mod]

/-- The four products of half-words are exact; the sum `t` and the low word `l` wrap. -/
structure HalfWords (w h a b t l : Nat) : Prop where
  mul {x y : Nat} (hx : x < 2 ^ h) (hy : y < 2 ^ h) : wrapMul w x y = x * y
  shift : t % 2 ^ h * 2 ^ h % 2 ^ w = t % 2 ^ h * 2 ^ h
  carry : t < a / 2 ^ h * (b % 2 ^ h) <-> t < a % 2 ^ h * (b / 2 ^ h)
  lo : a * b % 2 ^ w = l
  hi : a * b / 2 ^ w = a / 2 ^ h * (b / 2 ^ h) + t / 2 ^ h +
    (if t < a % 2 ^ h * (b / 2 ^ h) then 1 else 0) * 2 ^ h +
    (if l < a % 2 ^ h * (b % 2 ^ h) then 1 else 0)

theorem halfWords {h : Nat} (hw : w = h + h) (ha : a < 2 ^ w) (hb : b < 2 ^ w) {t l : Nat}
    (ht : t = (a % 2 ^ h * (b / 2 ^ h) + a / 2 ^ h * (b % 2 ^ h)) % 2 ^ w)
    (hl : l = (a % 2 ^ h * (b % 2 ^ h) + t % 2 ^ h * 2 ^ h) % 2 ^ w) : HalfWords w h a b t l := by
  have hpow : 2 ^ w = 2 ^ h * 2 ^ h := by rw [hw, pow_add]
  have hmul {x y : Nat} (hx : x < 2 ^ h) (hy : y < 2 ^ h) : x * y < 2 ^ w := by
    rw [hpow]
    exact Nat.mul_lt_mul'' hx hy
  have hlow (x : Nat) : x % 2 ^ h < 2 ^ h := Nat.mod_lt x (Nat.two_pow_pos h)
  have hhigh {x : Nat} (hx : x < 2 ^ w) : x / 2 ^ h < 2 ^ h := by
    rw [hpow] at hx
    exact Nat.div_lt_of_lt_mul hx
  have hcarry := sum_mod_lt_comm (hmul (hlow a) (hhigh hb)) (hmul (hhigh ha) (hlow b))
  rw [← ht] at hcarry
  rw [hpow] at ha hb ht hl
  rcases schoolbook_div_mod ha hb ht hl with ⟨hhi, hlo⟩
  rw [← hpow] at hhi hlo
  constructor
  case mul =>
    intro x y hx hy
    exact Nat.mod_eq_of_lt (hmul hx hy)
  case shift =>
    apply Nat.mod_eq_of_lt
    rw [hpow]
    exact Nat.mul_lt_mul_of_pos_right (hlow t) (Nat.two_pow_pos h)
  case carry => exact hcarry
  case lo => exact hlo
  case hi => exact hhi

theorem multDEmscripten_eq (ha : a < 2 ^ 64) (hb : b < 2 ^ 64) :
    multDEmscripten a b = productWords 64 a b := by
  have halow : a % 2 ^ 32 < 2 ^ 32 := Nat.mod_lt a (by decide)
  have hblow : b % 2 ^ 32 < 2 ^ 32 := Nat.mod_lt b (by decide)
  have hahigh : a / 2 ^ 32 < 2 ^ 32 := Nat.div_lt_of_lt_mul ha
  have hbhigh : b / 2 ^ 32 < 2 ^ 32 := Nat.div_lt_of_lt_mul hb
  have hhalf := halfWords (h := 32) rfl ha hb rfl rfl
  have hlt := (productWords_isWords ha hb).hi_lt
  unfold multDEmscripten productWords wrapAdd
  dsimp only
  simp only [Nat.shiftRight_eq_div_pow, Nat.shiftLeft_eq, hhalf.mul halow hbhigh,
    hhalf.mul hahigh hblow, hhalf.mul halow hblow, hhalf.mul hahigh hbhigh, hhalf.shift,
    hhalf.carry, or_self, hhalf.lo]
  have hhi := hhalf.hi
  change a * b / 2 ^ 64 < 2 ^ 64 at hlt
  congr 1
  split_ifs at hhi ⊢ <;> omega

theorem multDUint128_eq (ha : a < 2 ^ 128) (hb : b < 2 ^ 128) :
    multDUint128 a b = productWords 128 a b := by
  have halow : a % 2 ^ 64 < 2 ^ 64 := Nat.mod_lt a (by decide)
  have hblow : b % 2 ^ 64 < 2 ^ 64 := Nat.mod_lt b (by decide)
  have hahigh : a / 2 ^ 64 < 2 ^ 64 := Nat.div_lt_of_lt_mul ha
  have hbhigh : b / 2 ^ 64 < 2 ^ 64 := Nat.div_lt_of_lt_mul hb
  have hmask (x : Nat) : x &&& (1 <<< 64 - 1) = x % 2 ^ 64 :=
    Nat.and_two_pow_sub_one_eq_mod x 64
  have hshift (t : Nat) : t <<< 64 % 2 ^ 128 = t % 2 ^ 64 * 2 ^ 64 := by
    rw [Nat.shiftLeft_eq]
    omega
  have hhalf := halfWords (h := 64) rfl ha hb rfl rfl
  have hcross := Nat.add_comm (a / 2 ^ 64 * (b % 2 ^ 64)) (a % 2 ^ 64 * (b / 2 ^ 64))
  have hlt := (productWords_isWords ha hb).hi_lt
  unfold multDUint128 productWords wrapAdd
  dsimp only
  simp only [hmask, hshift, Nat.shiftRight_eq_div_pow, hhalf.mul halow hbhigh,
    hhalf.mul hahigh hblow, hhalf.mul halow hblow, hhalf.mul hahigh hbhigh, hcross,
    hhalf.carry, or_self, hhalf.lo]
  have hhi := hhalf.hi
  change a * b / 2 ^ 128 < 2 ^ 128 at hlt
  congr 1
  split_ifs at hhi ⊢ <;> omega

theorem multD_eq_productWords {p : MultDPath} (hp : p ≠ .processor32)
    (ha : a < 2 ^ p.width) (hb : b < 2 ^ p.width) : p.multD a b = productWords p.width a b := by
  cases p with
  | uint32 =>
      have hlt : a * b < 2 ^ 32 * 2 ^ 32 := Nat.mul_lt_mul'' ha hb
      have hexact : wrapMul 64 a b = a * b := Nat.mod_eq_of_lt hlt
      have hhi : a * b / 2 ^ 32 < 2 ^ 32 := (productWords_isWords ha hb).hi_lt
      show TypeD.mk (wrapMul 64 a b >>> 32 % 2 ^ 32) (wrapMul 64 a b % 2 ^ 32) = _
      rw [hexact, Nat.shiftRight_eq_div_pow, Nat.mod_eq_of_lt hhi]
      rfl
  | int128 =>
      have hlt : a * b < 2 ^ 64 * 2 ^ 64 := Nat.mul_lt_mul'' ha hb
      exact multD_eq hlt
  | emscripten => exact multDEmscripten_eq ha hb
  | x86_64 => rfl
  | aarch64 =>
      have hhi : a * b / 2 ^ 64 < 2 ^ 64 := (productWords_isWords ha hb).hi_lt
      show TypeD.mk (wrapAdd 64 (umulh a b) (wrapMul 64 0 b)) (wrapMul 64 a b) = _
      have hzero : wrapMul 64 0 b = 0 := by rw [wrapMul, Nat.zero_mul, Nat.zero_mod]
      rw [hzero, wrapAdd, Nat.add_zero, umulh, Nat.mod_eq_of_lt hhi]
      rfl
  | processor32 => exact absurd rfl hp
  | uint128 => exact multDUint128_eq ha hb

theorem multD_processor32 (a b : Nat) : MultDPath.processor32.multD a b =
    { hi := a * b % 2 ^ 64 / 2 ^ 32, lo := a * b % 2 ^ 32 } := by
  show TypeD.mk (wrapMul 64 a b >>> 32) (wrapMul 64 a b % 2 ^ 32 &&& 0xFFFFFFFF) = _
  have hmask (x : Nat) : x &&& 0xFFFFFFFF = x % 2 ^ 32 :=
    Nat.and_two_pow_sub_one_eq_mod x 32
  rw [hmask, Nat.mod_mod, Nat.shiftRight_eq_div_pow, wrapMul,
    Nat.mod_mod_of_dvd (a * b) (pow_dvd_pow 2 (by decide : 32 <= 64))]

end Product

/-- The words of the body stand for the product, as those of all other bodies do. -/
structure MultDRight (p : MultDPath) (a b : Nat) : Prop where
  words : (p.multD a b).IsWords p.width
  value : (p.multD a b).toNat p.width = a * b
  agrees : forall p' : MultDPath, p'.width = p.width -> p' ≠ .processor32 ->
    p'.multD a b = p.multD a b

theorem multDRight_iff {p : MultDPath} {a b : Nat} (ha : a < 2 ^ p.width)
    (hb : b < 2 ^ p.width) :
    MultDRight p a b <-> (p = .processor32 -> a * b < 2 ^ 32) := by
  constructor
  · rintro h rfl
    have hvalue := h.value
    rw [multD_processor32] at hvalue
    change a * b % 2 ^ 64 / 2 ^ 32 * 2 ^ 64 + a * b % 2 ^ 32 = a * b at hvalue
    omega
  · intro h
    have hproduct : p.multD a b = productWords p.width a b := by
      by_cases hp : p = .processor32
      · have hlt := h hp
        cases hp
        rw [multD_processor32]
        show TypeD.mk _ _ = TypeD.mk (a * b / 2 ^ 64) (a * b % 2 ^ 64)
        congr 1 <;> omega
      · exact multD_eq_productWords hp ha hb
    constructor
    case words =>
      rw [hproduct]
      exact productWords_isWords ha hb
    case value =>
      rw [hproduct]
      exact productWords_toNat
    case agrees =>
      intro p' hwidth hp'
      rw [hproduct, ← hwidth]
      rw [← hwidth] at ha hb
      exact multD_eq_productWords hp' ha hb

/-! ## Differences -/

section Difference

variable {w : Nat}

theorem wrapSub_lt (w x y : Nat) : wrapSub w x y < 2 ^ w := Nat.mod_lt _ (Nat.two_pow_pos w)

theorem wrapSub_modEq (w x y : Nat) : wrapSub w x y + y ≡ x [MOD 2 ^ w] := by
  have hy := Nat.mod_lt y (Nat.two_pow_pos w)
  calc
    wrapSub w x y + y ≡ (x + (2 ^ w - y % 2 ^ w)) + y % 2 ^ w [MOD 2 ^ w] :=
      (Nat.mod_modEq _ _).add (Nat.mod_modEq y _).symm
    _ = x + 2 ^ w := by omega
    _ ≡ x [MOD 2 ^ w] := Nat.add_modEq_right

theorem wrapSub_eq {x y : Nat} (hyx : y <= x) (hx : x < 2 ^ w) : wrapSub w x y = x - y := by
  unfold wrapSub
  rw [Nat.mod_eq_of_lt (hyx.trans_lt hx), show x + (2 ^ w - y) = (x - y) + 2 ^ w by omega,
    Nat.add_mod_right, Nat.mod_eq_of_lt (by omega)]

theorem subtractD_spec {res a : TypeD} (hres : res.IsWords w) (ha : a.IsWords w) :
    (subtractD w res a).IsWords w ∧
      (subtractD w res a).toNat w + a.toNat w ≡ res.toNat w [MOD 2 ^ (2 * w)] := by
  have hpow : 2 ^ (2 * w) = 2 ^ w * 2 ^ w := by rw [two_mul, pow_add]
  have hpos := Nat.two_pow_pos w
  have hrlo := hres.lo_lt
  have halo := ha.lo_lt
  unfold TypeD.toNat
  rw [hpow]
  cases Nat.lt_or_ge res.lo a.lo with
  | inl hborrow =>
      have hzero : wrapAdd w (2 ^ w - 1) 1 = 0 := by
        rw [wrapAdd, Nat.sub_add_cancel hpos, Nat.mod_self]
      have hdiff : wrapSub w 0 a.lo = 2 ^ w - a.lo := by
        rw [wrapSub, Nat.mod_eq_of_lt halo, Nat.zero_add, Nat.mod_eq_of_lt (by omega)]
      have hlo : wrapAdd w res.lo (2 ^ w - a.lo) = res.lo + (2 ^ w - a.lo) :=
        Nat.mod_eq_of_lt (by omega)
      have hrun : subtractD w res a =
          { hi := wrapSub w (wrapSub w res.hi 1) a.hi, lo := res.lo + (2 ^ w - a.lo) } := by
        unfold subtractD
        dsimp only
        rw [if_pos hborrow, hzero, hdiff, hlo]
      rw [hrun]
      constructor
      · constructor
        case hi_lt => exact wrapSub_lt w _ _
        case lo_lt =>
          dsimp only
          omega
      · dsimp only
        have hhi : wrapSub w (wrapSub w res.hi 1) a.hi + a.hi + 1 ≡ res.hi [MOD 2 ^ w] :=
          ((wrapSub_modEq w _ a.hi).add_right 1).trans (wrapSub_modEq w res.hi 1)
        have hscaled := (hhi.mul_right' (2 ^ w)).add_right res.lo
        rw [Nat.add_mul, Nat.add_mul, Nat.one_mul] at hscaled
        generalize wrapSub w (wrapSub w res.hi 1) a.hi * 2 ^ w = hi at hscaled ⊢
        have hregroup : hi + (res.lo + (2 ^ w - a.lo)) + (a.hi * 2 ^ w + a.lo) =
            hi + a.hi * 2 ^ w + 2 ^ w + res.lo := by
          omega
        rw [hregroup]
        exact hscaled
  | inr hle =>
      have hrun : subtractD w res a = { hi := wrapSub w res.hi a.hi, lo := res.lo - a.lo } := by
        unfold subtractD
        dsimp only
        rw [if_neg (not_lt.mpr hle), wrapSub_eq hle hrlo]
      rw [hrun]
      constructor
      · constructor
        case hi_lt => exact wrapSub_lt w _ _
        case lo_lt =>
          dsimp only
          omega
      · dsimp only
        have hscaled := ((wrapSub_modEq w res.hi a.hi).mul_right' (2 ^ w)).add_right res.lo
        rw [Nat.add_mul] at hscaled
        generalize wrapSub w res.hi a.hi * 2 ^ w = hi at hscaled ⊢
        have hregroup : hi + (res.lo - a.lo) + (a.hi * 2 ^ w + a.lo) =
            hi + a.hi * 2 ^ w + res.lo := by
          omega
        rw [hregroup]
        exact hscaled

end Difference

/-! ## Shifts -/

theorem rShiftWords_eq {w shift : Nat} (hlt : shift < w) {x : TypeD}
    (hx : x.IsWords w) : rShiftWords w x shift = x.toNat w / 2 ^ shift % 2 ^ w := by
  have hpow : 2 ^ w = 2 ^ shift * 2 ^ (w - shift) := by
    rw [← pow_add, Nat.add_sub_cancel' hlt.le]
  have hlow : x.lo / 2 ^ shift < 2 ^ (w - shift) := by
    apply Nat.div_lt_of_lt_mul
    rw [← hpow]
    exact hx.lo_lt
  have hhigh : x.hi <<< (w - shift) % 2 ^ w = (x.hi % 2 ^ shift) <<< (w - shift) := by
    rw [Nat.shiftLeft_eq, Nat.shiftLeft_eq, hpow, Nat.mul_mod_mul_right]
  have hsum : x.toNat w / 2 ^ shift = x.hi * 2 ^ (w - shift) + x.lo / 2 ^ shift := by
    have hsplit : x.toNat w = 2 ^ shift * (x.hi * 2 ^ (w - shift)) + x.lo := by
      rw [TypeD.toNat, hpow]
      ring
    rw [hsplit, Nat.mul_add_div (Nat.two_pow_pos shift)]
  have hword : x.hi % 2 ^ shift * 2 ^ (w - shift) + x.lo / 2 ^ shift < 2 ^ w := by
    have hmod := Nat.mod_lt x.hi (Nat.two_pow_pos shift)
    calc
      x.hi % 2 ^ shift * 2 ^ (w - shift) + x.lo / 2 ^ shift <
          x.hi % 2 ^ shift * 2 ^ (w - shift) + 2 ^ (w - shift) := Nat.add_lt_add_left hlow _
      _ = (x.hi % 2 ^ shift + 1) * 2 ^ (w - shift) := by ring
      _ <= 2 ^ shift * 2 ^ (w - shift) := Nat.mul_le_mul_right _ hmod
      _ = 2 ^ w := hpow.symm
  unfold rShiftWords
  rw [hhigh, Nat.shiftRight_eq_div_pow, Nat.or_comm, ← Nat.shiftLeft_add_eq_or_of_lt hlow,
    Nat.shiftLeft_eq, hsum]
  have hreduce : x.hi * 2 ^ (w - shift) % 2 ^ w = x.hi % 2 ^ shift * 2 ^ (w - shift) := by
    rw [hpow, Nat.mul_mod_mul_right]
  rw [← Nat.mod_add_mod, hreduce, Nat.mod_eq_of_lt hword]

theorem rShiftD_eq_rShiftWords {x : TypeD} (hx : x.IsWords 64) {shift : Nat} :
    rShiftD x shift = rShiftWords 64 x shift := by
  have hlow : x.lo >>> shift < 2 ^ 64 := (Nat.shiftRight_le x.lo shift).trans_lt hx.lo_lt
  unfold rShiftD rShiftWords word
  rw [show maxBits = 64 from rfl, Nat.or_mod_two_pow, Nat.mod_eq_of_lt hlow]

/-- The three helpers; only the product of the body for 32-bit processors can go wrong. -/
theorem doubleWord_iff (p : MultDPath) {a b : Nat} (ha : a < 2 ^ p.width)
    (hb : b < 2 ^ p.width) :
    (MultDRight p a b <-> (p = .processor32 -> a * b < 2 ^ 32)) ∧
    (forall x y : TypeD, x.IsWords p.width -> y.IsWords p.width ->
      (subtractD p.width x y).IsWords p.width ∧
      (subtractD p.width x y).toNat p.width + y.toNat p.width ≡
        x.toNat p.width [MOD 2 ^ (2 * p.width)]) ∧
    forall (x : TypeD) (shift : Nat), x.IsWords p.width -> 1 <= shift -> shift < p.width ->
      rShiftWords p.width x shift = x.toNat p.width / 2 ^ shift % 2 ^ p.width := by
  refine ⟨multDRight_iff ha hb, ?_, ?_⟩
  · intro x y hx hy
    exact subtractD_spec hx hy
  · intro x shift hx _ hlt
    exact rShiftWords_eq hlt hx

theorem doubleWord_iff_six :
    (MultDRight .emscripten 6 7 <-> (MultDPath.emscripten = .processor32 -> 6 * 7 < 2 ^ 32)) ∧
    (forall x y : TypeD, x.IsWords 64 -> y.IsWords 64 ->
      (subtractD 64 x y).IsWords 64 ∧
      (subtractD 64 x y).toNat 64 + y.toNat 64 ≡ x.toNat 64 [MOD 2 ^ (2 * 64)]) ∧
    forall (x : TypeD) (shift : Nat), x.IsWords 64 -> 1 <= shift -> shift < 64 ->
      rShiftWords 64 x shift = x.toNat 64 / 2 ^ shift % 2 ^ 64 :=
  doubleWord_iff .emscripten (by decide) (by decide)

/-- On a 32-bit processor the product of `2 ^ 32` and one is `2 ^ 64`. -/
theorem not_multDRight :
    MultDPath.processor32.multD (2 ^ 32) 1 = { hi := 1, lo := 0 } ∧
    ¬ MultDRight .processor32 (2 ^ 32) 1 := by
  have hrun : MultDPath.processor32.multD (2 ^ 32) 1 = { hi := 1, lo := 0 } := by
    decide +kernel
  refine ⟨hrun, ?_⟩
  intro h
  have hvalue := h.value
  rw [hrun] at hvalue
  exact absurd hvalue (by decide)

end NativeInteger
end Core
end OpenFHE
