import OpenFHE.Core.BigInteger.DivisionOperations
import OpenFHE.Hal.CRTInterpolation

/-!
# Large polynomials

`PolyImpl` over the vectors of big integers.  `SwitchModulus` and `MultiplyAndRound` read the
values above half of the modulus as negative numbers, and the second one may leave the modulus
itself in the place of a zero.
-/

namespace OpenFHE
namespace Hal
namespace Poly

open Foundation OpenFHE.Core BigInteger

/-! ## Operations -/

def switchEntry (old modulus x : Nat) : Nat :=
  if old < modulus then
    if old >>> 1 < x then x + (modulus - old) else x
  else
    let diff := modulus - old % modulus
    let x := if old >>> 1 < x then x + diff else x
    if modulus <= x then x % modulus else x

/-- `SwitchModulus`; the remainder by zero throws. -/
def switchModulusLarge (a : Poly) (modulus : Nat) : Option Poly :=
  if modulus = 0 then none
  else some { a with
    modulus := modulus
    values := a.values.map (switchEntry a.modulus modulus) }

def multiplyAndRoundEntry (modulus p q x : Nat) : Option Nat :=
  if q = 0 then none
  else if modulus >>> 1 < x then some (modulus - Ubint.roundedDiv ((modulus - x) * p) q)
  else if modulus = 0 then none
  else some (Ubint.roundedDiv (x * p) q % modulus)

/-- `MultiplyAndRound`, which keeps the modulus. -/
def multiplyAndRound (a : Poly) (p q : Nat) : Option Poly :=
  (a.values.mapM (multiplyAndRoundEntry a.modulus p q)).map fun values =>
    { a with values := values }

def addEntryLarge (modulus x y : Nat) : Nat :=
  let y := if modulus <= y then y % modulus else y
  let x := if modulus <= x then x % modulus else x
  let sum := y + x
  if modulus <= sum then sum - modulus else sum

def plusEqLarge (a rhs : Poly) : Option Poly :=
  if a.modulus ≠ rhs.modulus then none
  else if a.values.length ≠ rhs.values.length then none
  else some { a with values := List.zipWith (addEntryLarge a.modulus) a.values rhs.values }

/-! ## Polynomials of the right size -/

/-- A large polynomial whose values may be the modulus itself. -/
structure Sized (q n : Nat) (a : Poly) : Prop where
  modulus_eq : a.modulus = q
  format_eq : a.format = .COEFFICIENT
  length_eq : a.values.length = n
  value_le : forall x, x ∈ a.values -> x <= q

theorem WellFormed.sized {q n : Nat} {a : Poly} (h : a.WellFormed q n .COEFFICIENT) :
    Sized q n a := by
  constructor
  case modulus_eq => exact h.1
  case format_eq => exact h.2.1
  case length_eq => exact h.2.2.1
  case value_le =>
    intro x hx
    exact Nat.le_of_lt (h.2.2.2 x hx)

theorem Sized.value_eq {q n : Nat} {a : Poly} (h : Sized q n a) {r : Nat} (hr : r < n) :
    a.values[r]? = some (a.value r) := by
  have hlength : r < a.values.length := by
    rw [h.length_eq]
    exact hr
  rw [value, List.getD_eq_getElem _ _ hlength, List.getElem?_eq_getElem hlength]

theorem Sized.value_at_le {q n : Nat} {a : Poly} (h : Sized q n a) {r : Nat} (hr : r < n) :
    a.value r <= q :=
  h.value_le _ (List.mem_of_getElem? (h.value_eq hr))

theorem switchEntry_le {q modulus x : Nat} (hpos : 0 < modulus) (hx : x <= q) :
    switchEntry q modulus x <= modulus := by
  unfold switchEntry
  split
  case isTrue hlt =>
    split
    next => omega
    next => omega
  case isFalse hge =>
    dsimp only
    have hmod (y : Nat) : (if modulus <= y then y % modulus else y) <= modulus := by
      have := Nat.mod_lt y hpos
      split <;> omega
    exact hmod _

section Operations

variable {q n : Nat} {a : Poly} (h : Sized q n a)

include h

theorem switchModulusLarge_spec {modulus : Nat} (hpos : 0 < modulus) :
    exists b, switchModulusLarge a modulus = some b ∧ b.modulus = modulus ∧
      b.format = .COEFFICIENT ∧ b.values.length = n ∧
      forall r, r < n -> b.values[r]? = some (switchEntry q modulus (a.value r)) := by
  refine ⟨_, if_neg (by omega), rfl, h.format_eq, ?_, ?_⟩
  · rw [List.length_map, h.length_eq]
  · intro r hr
    rw [List.getElem?_map, h.value_eq hr, h.modulus_eq]
    rfl

theorem switchModulusLarge_sized {modulus : Nat} (hpos : 0 < modulus) :
    exists b, switchModulusLarge a modulus = some b ∧ Sized modulus n b := by
  rcases switchModulusLarge_spec h hpos with ⟨b, hb, hmodulus, hformat, hlength, hvalues⟩
  refine ⟨b, hb, hmodulus, hformat, hlength, ?_⟩
  intro x hx
  rcases List.mem_iff_getElem?.mp hx with ⟨r, hr⟩
  have hlt : r < n := by
    rw [← hlength]
    exact (List.getElem?_eq_some_iff.mp hr).1
  rw [hvalues r hlt] at hr
  cases hr
  exact switchEntry_le hpos (h.value_at_le hlt)

theorem multiplyAndRound_spec (hq : 0 < q) {d : Nat} (p : Nat) (hd : 0 < d) :
    exists b, multiplyAndRound a p d = some b ∧ Sized q n b ∧
      forall r, r < n -> multiplyAndRoundEntry q p d (a.value r) = some (b.value r) := by
  have hentry (x : Nat) : exists y, multiplyAndRoundEntry q p d x = some y ∧ y <= q := by
    unfold multiplyAndRoundEntry
    rw [if_neg (by omega)]
    split
    next => exact ⟨_, rfl, Nat.sub_le _ _⟩
    next =>
      rw [if_neg (by omega)]
      exact ⟨_, rfl, Nat.le_of_lt (Nat.mod_lt _ hq)⟩
  rcases mapM_spec (l := a.values) (f := multiplyAndRoundEntry q p d)
    (fun x y => multiplyAndRoundEntry q p d x = some y ∧ y <= q) (by
      intro x _
      rcases hentry x with ⟨y, hy, hle⟩
      exact ⟨y, hy, hy, hle⟩) with ⟨values, hvalues, hlength, hget⟩
  have hsized : Sized q n { a with values := values } := by
    refine ⟨h.modulus_eq, h.format_eq, hlength.trans h.length_eq, ?_⟩
    intro y hy
    rcases List.mem_iff_getElem?.mp hy with ⟨r, hr⟩
    have hlt : r < a.values.length := by
      rw [← hlength]
      exact (List.getElem?_eq_some_iff.mp hr).1
    exact (hget r _ y (List.getElem?_eq_getElem hlt) hr).2
  refine ⟨{ a with values := values }, ?_, hsized, ?_⟩
  · unfold multiplyAndRound
    rw [h.modulus_eq, hvalues]
    rfl
  · intro r hr
    exact (hget r _ _ (h.value_eq hr) (hsized.value_eq hr)).1

theorem plusEqLarge_sized (hq : 0 < q) {b : Poly} (hmodulus : b.modulus = q)
    (hlength : b.values.length = n) : exists c, plusEqLarge a b = some c ∧ Sized q n c := by
  unfold plusEqLarge
  rw [if_neg (not_not.mpr (h.modulus_eq.trans hmodulus.symm)),
    if_neg (not_not.mpr (h.length_eq.trans hlength.symm))]
  refine ⟨_, rfl, h.modulus_eq, h.format_eq, ?_, ?_⟩
  · rw [List.length_zipWith, h.length_eq, hlength, Nat.min_self]
  · intro z hz
    rcases List.mem_iff_getElem?.mp hz with ⟨r, hr⟩
    rcases List.getElem?_zipWith_eq_some.mp hr with ⟨x, y, _, _, rfl⟩
    have hmod (x : Nat) : (if a.modulus <= x then x % a.modulus else x) < a.modulus := by
      have hpos : 0 < a.modulus := by
        rw [h.modulus_eq]
        exact hq
      have := Nat.mod_lt x hpos
      split <;> omega
    have hx := hmod x
    have hy := hmod y
    have hsame := h.modulus_eq
    unfold addEntryLarge
    dsimp only
    generalize (if a.modulus <= x then x % a.modulus else x) = x' at hx
    generalize (if a.modulus <= y then y % a.modulus else y) = y' at hy
    split <;> omega

end Operations

/-! ## Rounding near a multiple -/

theorem roundedDiv_near {a b y : Nat} (hlow : 2 * (y * b) < 2 * a + b)
    (hhigh : 2 * a < 2 * (y * b) + b) : Ubint.roundedDiv a b = y := by
  have hpos : 0 < b := by omega
  have htie : 2 * (a % b) ≠ b := by
    intro htie
    have hsplit := Nat.div_add_mod a b
    have hmul : 2 * (b * (a / b)) + b = 2 * a := by omega
    have hsucc : (a / b + 1) * b = b * (a / b) + b := by ring
    rcases Nat.lt_or_ge (a / b) y with hlt | hge
    · have := Nat.mul_le_mul_right b (show a / b + 1 <= y by omega)
      omega
    · have := Nat.mul_le_mul_left b hge
      rw [Nat.mul_comm b y] at this
      omega
  have hsucc : (y + 1) * b = y * b + b := by ring
  unfold Ubint.roundedDiv
  rw [if_neg htie]
  exact Nat.div_eq_of_lt_le (by omega) (by omega)

section Decode

variable {Q p delta : Nat} (hQ : Q = p * delta) (hp : 0 < p) (hlarge : 4 * p <= Q)

include hQ hp hlarge

theorem roundedDiv_noise {t : Nat} {y e : Int} (ht : 2 * t <= Q) (heq : (t : Int) = delta * y + e)
    (he : 4 * p * e.natAbs < Q) :
    exists Y : Nat, y = Y ∧ Ubint.roundedDiv (t * p) Q = Y ∧ 2 * Y <= p := by
  have hsmall : 4 * e.natAbs < delta := by
    have hmul : p * (4 * e.natAbs) < p * delta := by
      rw [← hQ]
      calc
        p * (4 * e.natAbs) = 4 * p * e.natAbs := by ring
        _ < Q := he
    exact Nat.lt_of_mul_lt_mul_left hmul
  have hnonneg : 0 <= y := by
    by_contra hneg
    have hmul : (delta : Int) * y <= delta * (-1) :=
      Int.mul_le_mul_of_nonneg_left (by omega) (by omega)
    omega
  rcases Int.eq_ofNat_of_zero_le hnonneg with ⟨Y, rfl⟩
  have hscaled : (t * p : Nat) = (Y * Q : Int) + p * e := by
    push_cast
    rw [heq, hQ]
    push_cast
    ring
  have hnoise : (p * e : Int).natAbs = p * e.natAbs := by
    rw [Int.natAbs_mul, Int.natAbs_natCast]
  have hquarter : 4 * (p * e.natAbs) < Q := by
    rw [← Nat.mul_assoc]
    exact he
  have hcast : ((Y * Q : Nat) : Int) = (Y * Q : Int) := by push_cast; ring
  refine ⟨Y, rfl, roundedDiv_near (by omega) (by omega), ?_⟩
  by_contra hgt
  have hmul : delta * (p + 1) <= delta * (2 * Y) := Nat.mul_le_mul_left _ (by omega)
  have hleft : delta * (p + 1) = Q + delta := by rw [hQ]; ring
  have hright : ((delta * (2 * Y) : Nat) : Int) = 2 * (delta * Y : Int) := by push_cast; ring
  omega

theorem decode_entry {v : Nat} {x e : Int} (hv : v <= Q) (he : 4 * p * e.natAbs < Q)
    (hphase : (v : Int) ≡ delta * x + e [ZMOD Q]) :
    exists w, multiplyAndRoundEntry Q p Q v = some w ∧
      ((switchEntry Q p w : Nat) : Int) = x % p := by
  rcases hphase.symm.dvd with ⟨z, hz⟩
  have hdvd : Q % p = 0 := by rw [hQ, Nat.mul_mod_right]
  have hmodulus : (Q : Int) * z = delta * (p * z) := by
    rw [hQ]
    push_cast
    ring
  have hhalf : Q >>> 1 = Q / 2 := Nat.shiftRight_eq_div_pow Q 1
  have hreduced (w : Nat) : (if p <= w then w % p else w) = w % p := by
    split
    next => rfl
    next hlt => exact (Nat.mod_eq_of_lt (by omega)).symm
  have hswitch (w : Nat) :
      switchEntry Q p w = (if Q / 2 < w then w + p else w) % p := by
    unfold switchEntry
    rw [if_neg (by omega), hdvd, Nat.sub_zero, hhalf]
    exact hreduced _
  have hreduce (y : Int) (Y : Nat) (hy : (Y : Int) ≡ x + p * y [ZMOD p]) :
      ((Y % p : Nat) : Int) = x % p := by
    have hdrop : (x + p * y) % p = x % p := Int.add_mul_emod_self_left x p y
    rw [Int.natCast_mod, hy, hdrop]
  unfold multiplyAndRoundEntry
  rw [if_neg (by omega), hhalf]
  rcases Nat.lt_or_ge (Q / 2) v with habove | hbelow
  · -- the value stands for `v - Q`
    have heq : ((Q - v : Nat) : Int) = delta * (-(x + p * (z - 1))) + -e := by
      have hexpand : (delta : Int) * (-(x + p * (z - 1))) =
          -(delta * x) - delta * (p * z) + delta * p := by ring
      have hprod : ((p * delta : Nat) : Int) = delta * p := by push_cast; ring
      rw [hexpand, ← hmodulus, ← hprod, ← hQ, Nat.cast_sub hv]
      omega
    rcases roundedDiv_noise hQ hp hlarge (t := Q - v) (by omega) heq
      (by rw [Int.natAbs_neg]; exact he) with ⟨Y, hY, hdiv, hle⟩
    refine ⟨Q - Y, by rw [if_pos habove, hdiv], ?_⟩
    rw [hswitch, if_pos (by omega)]
    apply hreduce (z - 1)
    have hcast : ((Q - Y + p : Nat) : Int) = -Y + p * (delta + 1) := by
      have hexpand : (p : Int) * (delta + 1) = p * delta + p := by ring
      have hprod : ((p * delta : Nat) : Int) = p * delta := by push_cast; ring
      rw [hexpand, ← hprod, ← hQ]
      omega
    have hneg : (-(Y : Int)) = x + p * (z - 1) := by omega
    rw [hcast, hneg]
    exact Int.ModEq.symm (Int.modEq_iff_dvd.mpr ⟨delta + 1, by ring⟩)
  · have heq : (v : Int) = delta * (x + p * z) + e := by
      have hexpand : (delta : Int) * (x + p * z) = delta * x + delta * (p * z) := by ring
      rw [hexpand, ← hmodulus]
      omega
    rcases roundedDiv_noise hQ hp hlarge (by omega) heq he with ⟨Y, hY, hdiv, hle⟩
    refine ⟨Y, ?_, ?_⟩
    · rw [if_neg (by omega), if_neg (by omega), hdiv, Nat.mod_eq_of_lt (by omega)]
    · rw [hswitch, if_neg (by omega)]
      apply hreduce z
      rw [← hY]

end Decode

end Poly
end Hal
end OpenFHE
