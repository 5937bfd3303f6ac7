import OpenFHE.Core.BigInteger.Digits
import OpenFHE.Foundation.InnerProduct
import OpenFHE.Hal.Rescale

/-!
# Gadget decomposition

`BaseDecompose` cuts the coefficients into digits and `PowersOfBase` multiplies by the powers
of the base.  A double-CRT polynomial is interpolated first, its digits are reduced modulo
every tower, and its powers start with the base itself.
-/

namespace OpenFHE
namespace Hal

open OpenFHE.Core Foundation NativeInteger DCRTPoly

/-! ## Large polynomials -/

namespace Poly

def digitPolyLarge (x : Poly) (baseBits i : Nat) : Option Poly := do
  let base <- shiftOne baseBits
  let values <- x.values.mapM fun v => BigInteger.getDigitAtIndexForBase v (i + 1) base
  return { x with values := values }

/-- `BaseDecompose` of a large polynomial in the coefficient format. -/
def baseDecomposeLarge (a : Poly) (baseBits : Nat) : Option (List Poly) :=
  if baseBits = 0 then none
  else (List.range (windows baseBits a.modulus)).mapM (digitPolyLarge a baseBits)

def powersOfBaseLarge (a : Poly) (baseBits : Nat) : Option (List Poly) :=
  if baseBits = 0 then none
  else
    some ((List.range (windows baseBits a.modulus)).map fun i =>
      { a with
        values := a.values.map fun v => v * (2 ^ (i * baseBits) % a.modulus) % a.modulus })

end Poly

/-! ## Double-CRT polynomials -/

namespace DCRTPoly

def baseDecompose (cache : Poly.TableCache) (ringDimension : Nat) (a : DCRTPoly)
    (baseBits : Nat) (evalModeAnswer : Bool) : Option (List DCRTPoly) := do
  let x <- crtInterpolate ringDimension a
  let bdV <- Poly.baseDecomposeLarge x baseBits
  bdV.mapM fun dv => do
    let result <- ofPolyLarge (a.map Poly.modulus) ringDimension dv
    if evalModeAnswer then switchFormat cache result else some result

/-- The loop shifts before it multiplies; the amount of the shift is a 16-bit number. -/
def powersLoop (a : DCRTPoly) (baseBits : Nat) : Nat -> Nat -> Option (List DCRTPoly)
  | 0, _ => some []
  | nWindows + 1, twoPow => do
      let twoPow := twoPow <<< (baseBits % 2 ^ 16)
      let x <- mapTowers (fun _ t => t.timesInteger (twoPow % t.modulus)) a
      let result <- powersLoop a baseBits nWindows twoPow
      return x :: result

def powersOfBase (a : DCRTPoly) (baseBits : Nat) : Option (List DCRTPoly) :=
  if baseBits = 0 then none
  else powersLoop a baseBits (windows baseBits (bigModulus a)) 1

end DCRTPoly

/-! ## Products through a gadget -/

/-- What a class of polynomials offers for a gadget. -/
structure GadgetOperations (α : Type) where
  setFormat : α -> Format -> Option α
  times : α -> α -> Option α
  plusEq : α -> α -> Option α
  baseDecompose : α -> Nat -> Bool -> Option (List α)
  powersOfBase : α -> Nat -> Option (List α)

def Poly.gadgetOperations (cache : Poly.TableCache) : GadgetOperations Poly where
  setFormat := Poly.setFormat cache
  times := Poly.times
  plusEq := Poly.plusEq
  baseDecompose := Poly.baseDecompose cache
  powersOfBase := Poly.powersOfBase

def DCRTPoly.gadgetOperations (cache : Poly.TableCache) (ringDimension : Nat) :
    GadgetOperations DCRTPoly where
  setFormat := DCRTPoly.setFormat cache
  times := DCRTPoly.times
  plusEq := DCRTPoly.plusEq
  baseDecompose := DCRTPoly.baseDecompose cache ringDimension
  powersOfBase := DCRTPoly.powersOfBase

namespace GadgetOperations

variable {α : Type} (ops : GadgetOperations α)

/-- The inner product of `BaseDecompose(x)` with `PowersOfBase(s)`. -/
def gadgetProduct (x s : α) (baseBits : Nat) : Option α := do
  let digits <- ops.baseDecompose x baseBits true
  let powers <- ops.powersOfBase s baseBits
  let powers <- powers.mapM fun p => ops.setFormat p .EVALUATION
  innerProduct ops.times ops.plusEq digits powers

def product (x s : α) : Option α := do
  let x <- ops.setFormat x .EVALUATION
  let s <- ops.setFormat s .EVALUATION
  ops.times x s

end GadgetOperations

/-- The polynomials are digits below `2 ^ b` that recompose to the integers `v`. -/
def Recomposes {α : Type} (Enc : (Nat -> Int) -> α -> Prop) (n Q b : Nat) (v : Nat -> Nat)
    (result : Option (List α)) : Prop :=
  exists (ds : List α) (digit : Nat -> Nat -> Nat), result = some ds ∧
    ds.length = (getLengthForBase Q + b - 1) / b ∧
    (forall (j : Nat) d, ds[j]? = some d -> Enc (fun r => digit j r) d) ∧
    (forall j r, digit j r < 2 ^ b) ∧
    forall r, r < n -> ∑ j ∈ Finset.range ds.length, 2 ^ (b * j) * digit j r = v r

/-- Digits of every polynomial of a format, and products through them. -/
structure Gadget {α : Type} (ops : GadgetOperations α)
    (Enc : Format -> (Nat -> Int) -> α -> Prop) (n Q : Nat) (format : Format) (b : Nat) : Prop where
  decompose : forall (v : Nat -> Nat) (x : α), (forall r, r < n -> v r < Q) ->
    Enc format (fun r => v r) x ->
    Recomposes (Enc .COEFFICIENT) n Q b v (ops.baseDecompose x b false)
  product : forall (v : Nat -> Nat) (w : Nat -> Int) (target : Format) (x s : α),
    (forall r, r < n -> v r < Q) -> Enc format (fun r => v r) x -> Enc target w s ->
    exists p, ops.gadgetProduct x s b = some p ∧ ops.product x s = some p

def PolyGadget (cache : Poly.TableCache) (k : Nat) (psi : Nat -> Nat) (q : Nat)
    (format : Format) (b : Nat) : Prop :=
  Gadget (Poly.gadgetOperations cache) (TowerEncodes k psi q) (2 ^ k) q format b

def DCRTPolyGadget (cache : Poly.TableCache) (k : Nat) (psi : Nat -> Nat) (moduli : List Nat)
    (format : Format) (b : Nat) : Prop :=
  Gadget (DCRTPoly.gadgetOperations cache (2 ^ k))
    (fun format x a => Encodes k psi format moduli x a) (2 ^ k) moduli.prod format b

/-- A large polynomial with the coefficients `v`. -/
def LargeEncodes (n Q : Nat) (v : Nat -> Int) (x : Poly) : Prop :=
  Poly.Denotes Q n .COEFFICIENT (fun r => (v r : ZMod Q)) x

def entryResidues (Q : Nat) (l : List Poly) (j r : Nat) : ZMod Q :=
  (((l[j]?).map fun p => p.value r).getD 0 : Nat)

/-- The gadget of the large polynomials, multiplied as elements of the ring. -/
structure LargeGadget (n Q b : Nat) : Prop where
  decompose : forall (v : Nat -> Nat) (x : Poly), (forall r, r < n -> v r < Q) ->
    LargeEncodes n Q (fun r => v r) x ->
    Recomposes (LargeEncodes n Q) n Q b v (Poly.baseDecomposeLarge x b)
  product : forall (v : Nat -> Nat) (w : Nat -> Int) (x s : Poly), (forall r, r < n -> v r < Q) ->
    LargeEncodes n Q (fun r => v r) x -> LargeEncodes n Q w s ->
    exists ds ps, Poly.baseDecomposeLarge x b = some ds ∧ Poly.powersOfBaseLarge s b = some ps ∧
      ds.length = ps.length ∧ forall r, r < n ->
        ∑ j ∈ Finset.range ds.length,
          negacyclicMul n (entryResidues Q ds j) (entryResidues Q ps j) r =
        negacyclicMul n (fun r => (v r : ZMod Q)) (fun r => (w r : ZMod Q)) r

/-! ## Digits -/

def digitAt (b : Nat) (v : Nat -> Nat) (j r : Nat) : Nat := v r / 2 ^ (j * b) % 2 ^ b

theorem windows_eq (b modulus : Nat) (hb : 0 < b) :
    windows b modulus = (getLengthForBase modulus + b - 1) / b := by
  have hdivmod := Nat.div_add_mod (getLengthForBase modulus) b
  have hmod := Nat.mod_lt (getLengthForBase modulus) hb
  unfold windows
  dsimp only
  symm
  split
  next hrest =>
      apply Nat.div_eq_of_lt_le
      · rw [Nat.add_mul, Nat.mul_comm _ b]
        omega
      · rw [Nat.add_mul, Nat.add_mul, Nat.mul_comm _ b]
        omega
  next hexact =>
      apply Nat.div_eq_of_lt_le
      · rw [Nat.add_zero, Nat.mul_comm _ b]
        omega
      · rw [Nat.add_zero, Nat.add_mul, Nat.mul_comm _ b]
        omega

theorem sum_digitAt {b Q : Nat} (hb : 0 < b) (hQ : 1 < Q) {v : Nat -> Nat} {r : Nat}
    (hv : v r < Q) :
    ∑ j ∈ Finset.range (windows b Q), 2 ^ (j * b) * digitAt b v j r = v r := by
  have hcover := (windows_bounds hb hQ).2
  have hsum := sum_digits (v r) b (windows b Q)
  rw [Nat.mod_eq_of_lt (lt_of_lt_of_le hv hcover)] at hsum
  rw [← hsum]
  apply Finset.sum_congr rfl
  intro j _
  exact Nat.mul_comm _ _

theorem recomposes_of_digits {α : Type} {Enc : (Nat -> Int) -> α -> Prop} {n Q b : Nat}
    (hb : 0 < b) (hQ : 1 < Q) {v : Nat -> Nat} (hv : forall r, r < n -> v r < Q)
    {result : Option (List α)} {ds : List α} (hds : result = some ds)
    (hlength : ds.length = windows b Q)
    (hget : forall (j : Nat) d, ds[j]? = some d -> Enc (fun r => digitAt b v j r) d) :
    Recomposes Enc n Q b v result := by
  refine ⟨ds, digitAt b v, hds, hlength.trans (windows_eq b Q hb), hget, ?_, ?_⟩
  · intro j r
    exact Nat.mod_lt _ (Nat.two_pow_pos b)
  · intro r hr
    rw [hlength, ← sum_digitAt hb hQ (hv r hr)]
    apply Finset.sum_congr rfl
    intro j _
    rw [Nat.mul_comm b j]

/-! ## Large polynomials -/

namespace Poly

theorem digitPolyLarge_eq {b : Nat} (hb : b <= 31) (x : Poly) (j : Nat) :
    digitPolyLarge x b j =
      some { x with values := x.values.map fun v => v / 2 ^ (j * b) % 2 ^ b } := by
  have hmap : x.values.mapM (fun v => BigInteger.getDigitAtIndexForBase v (j + 1) (2 ^ b)) =
      some (x.values.map fun v => v / 2 ^ (j * b) % 2 ^ b) := by
    simp only [BigInteger.getDigitAtIndexForBase_eq _ j hb]
    exact List.mapM_pure
  unfold digitPolyLarge
  rw [shiftOne_eq hb]
  simp only [Option.bind_eq_bind, Option.bind_some, hmap]
  rfl

theorem baseDecomposeLarge_spec {b n Q : Nat} (hpos : 0 < b) (hb : b <= 31) {x : Poly}
    {v : Nat -> Nat} (hv : forall r, r < n -> v r < Q) (hx : LargeEncodes n Q (fun r => v r) x) :
    exists ds, baseDecomposeLarge x b = some ds ∧ ds.length = windows b Q ∧
      forall (j : Nat) d, ds[j]? = some d -> LargeEncodes n Q (fun r => digitAt b v j r) d := by
  unfold baseDecomposeLarge
  rw [if_neg (by omega), hx.modulus_eq]
  apply mapM_range_spec
  intro j _
  refine ⟨_, digitPolyLarge_eq hb x j, hx.modulus_eq, hx.format_eq, ?_, ?_⟩
  · rw [List.length_map, hx.holds.length_eq]
  · intro r y hy
    rw [List.getElem?_map] at hy
    rcases Option.map_eq_some_iff.mp hy with ⟨z, hz, rfl⟩
    have hr : r < n := by
      rw [← hx.holds.length_eq]
      exact (List.getElem?_eq_some_iff.mp hz).1
    have hentry := hx.holds.getElem? hr (v := v r) ⟨hv r hr, (Int.cast_natCast _).symm⟩
    cases hz.symm.trans hentry
    constructor
    · exact lt_of_le_of_lt ((Nat.mod_le _ _).trans (Nat.div_le_self _ _)) (hv r hr)
    · exact (Int.cast_natCast _).symm

theorem baseDecomposeLarge_eq_none {b : Nat} (hb : 31 < b) {x : Poly} (hQ : 1 < x.modulus) :
    baseDecomposeLarge x b = none := by
  have hwindow := (windows_bounds (show 0 < b by omega) hQ).1
  unfold baseDecomposeLarge
  rw [if_neg (by omega)]
  apply mapM_eq_none (List.mem_range.mpr hwindow)
  unfold digitPolyLarge
  rw [shiftOne, if_neg (by omega)]
  rfl

end Poly

section LargeGadget

variable {n Q b : Nat} (hb : 0 < b)

include hb

theorem powersOfBaseLarge_spec (hQ : 0 < Q) {w : Nat -> Int} {s : Poly}
    (hs : LargeEncodes n Q w s) :
    exists ps, Poly.powersOfBaseLarge s b = some ps ∧ ps.length = windows b Q ∧
      forall (j : Nat) p, ps[j]? = some p ->
        LargeEncodes n Q (fun r => 2 ^ (j * b) * w r) p := by
  refine ⟨_, if_neg (by omega), ?_, ?_⟩
  · rw [List.length_map, List.length_range, hs.modulus_eq]
  · intro j p hp
    rw [List.getElem?_map] at hp
    rcases Option.map_eq_some_iff.mp hp with ⟨i, hi, rfl⟩
    rcases List.getElem?_eq_some_iff.mp hi with ⟨hlt, heq⟩
    rw [List.getElem_range] at heq
    subst heq
    refine ⟨hs.modulus_eq, hs.format_eq, ?_, ?_⟩
    · rw [List.length_map, hs.holds.length_eq]
    · intro r y hy
      rw [List.getElem?_map] at hy
      rcases Option.map_eq_some_iff.mp hy with ⟨z, hz, rfl⟩
      rw [hs.modulus_eq]
      refine ⟨Nat.mod_lt _ hQ, ?_⟩
      rw [ZMod.natCast_mod, Nat.cast_mul, ZMod.natCast_mod, (hs.holds.get r z hz).2, mul_comm]
      push_cast
      rfl

omit hb in
theorem entryResidues_eq {ds : List Poly} {m : Nat} (hlength : ds.length = m)
    {f : Nat -> Nat -> Int} (hds : forall (j : Nat) d, ds[j]? = some d -> LargeEncodes n Q (f j) d)
    {j r : Nat} (hj : j < m) (hr : r < n) : entryResidues Q ds j r = (f j r : ZMod Q) := by
  have hd := List.getElem?_eq_getElem (show j < ds.length by omega)
  rw [entryResidues, hd]
  exact (hds j _ hd).value_eq hr

theorem largeGadget_iff (hQ : 1 < Q) : LargeGadget n Q b <-> b <= 31 := by
  constructor
  · intro h
    by_contra hlarge
    have hzero : LargeEncodes n Q (fun _ => ((0 : Nat) : Int)) (Poly.zero Q n .COEFFICIENT) := by
      apply (Poly.zero_denotes (show 0 < Q by omega) n .COEFFICIENT).congr
      intro r _
      rw [Int.cast_natCast, Nat.cast_zero]
    rcases h.decompose (fun _ => 0) _ (fun _ _ => by omega) hzero with ⟨ds, _, hds, _⟩
    rw [Poly.baseDecomposeLarge_eq_none (by omega) (by rw [hzero.modulus_eq]; exact hQ)] at hds
    cases hds
  · intro hb31
    constructor
    · intro v x hv hx
      rcases Poly.baseDecomposeLarge_spec hb hb31 hv hx with ⟨ds, hds, hlength, hget⟩
      exact recomposes_of_digits hb hQ hv hds hlength hget
    · intro v w x s hv hx hs
      rcases Poly.baseDecomposeLarge_spec hb hb31 hv hx with ⟨ds, hds, hdsLength, hdsGet⟩
      rcases powersOfBaseLarge_spec hb (by omega) hs with ⟨ps, hps, hpsLength, hpsGet⟩
      refine ⟨ds, ps, hds, hps, hdsLength.trans hpsLength.symm, ?_⟩
      intro r _
      have hterm : forall j, j < windows b Q ->
          negacyclicMul n (entryResidues Q ds j) (entryResidues Q ps j) r =
            negacyclicMul n (fun i => (digitAt b v j i : ZMod Q))
              (fun i => (2 : ZMod Q) ^ (j * b) * (w i : ZMod Q)) r := by
        intro j hj
        apply congrFun
        apply negacyclicMul_congr
        · intro i hi
          rw [entryResidues_eq hdsLength hdsGet hj hi, Int.cast_natCast]
        · intro i hi
          rw [entryResidues_eq hpsLength hpsGet hj hi]
          push_cast
          rfl
      have hrecompose : forall i, i < n ->
          ∑ j ∈ Finset.range (windows b Q),
            (2 : ZMod Q) ^ (j * b) * (digitAt b v j i : ZMod Q) = (v i : ZMod Q) := by
        intro i hi
        rw [← sum_digitAt hb hQ (hv i hi)]
        push_cast
        rfl
      rw [hdsLength, Finset.sum_congr rfl fun j hj => hterm j (Finset.mem_range.mp hj),
        sum_negacyclicMul]
      apply congrFun
      exact negacyclicMul_congr hrecompose fun _ _ => rfl

end LargeGadget

/-! ## The residues of the products -/

section Residues

variable {k : Nat} {psi : Nat -> Nat} (format : Format)

theorem inFormat_congr {x y : Nat -> Int} (h : forall r, r < 2 ^ k -> x r = y r) (i q : Nat)
    {r : Nat} (hr : r < 2 ^ k) : inFormat k psi format (integerResidues x) i q r =
      inFormat k psi format (integerResidues y) i q r := by
  cases format with
  | COEFFICIENT => exact congrArg Int.cast (h r hr)
  | EVALUATION =>
      apply stageArray_congr
      intro j hj
      exact congrArg Int.cast (h j hj)

theorem inFormat_zero (i q r : Nat) :
    inFormat k psi format (integerResidues fun _ => 0) i q r = 0 := by
  have hlinear : inFormat k psi format (integerResidues fun _ => 0 + 1 * 0) i q r = _ :=
    inFormat_add_mul format (fun _ => 0) (fun _ => 0) 1 i q r
  simp only [mul_zero, add_zero, Int.cast_one, one_mul] at hlinear
  exact left_eq_add.mp hlinear

theorem inFormat_mul (x : Nat -> Int) (c : Int) (i q r : Nat) :
    inFormat k psi format (integerResidues fun j => c * x j) i q r =
      c * inFormat k psi format (integerResidues x) i q r := by
  have hlinear : inFormat k psi format (integerResidues fun j => 0 + c * x j) i q r = _ :=
    inFormat_add_mul format (fun _ => 0) x c i q r
  simp only [zero_add, inFormat_zero] at hlinear
  exact hlinear

theorem inFormat_sum (m : Nat) (c : Nat -> Int) (x : Nat -> Nat -> Int) (i q r : Nat) :
    inFormat k psi format (integerResidues fun s => ∑ j ∈ Finset.range m, c j * x j s) i q r =
      ∑ j ∈ Finset.range m,
        (c j : ZMod q) * inFormat k psi format (integerResidues (x j)) i q r := by
  induction m with
  | zero =>
      simp only [Finset.range_zero, Finset.sum_empty]
      exact inFormat_zero format i q r
  | succ m ih =>
      simp only [Finset.sum_range_succ]
      rw [inFormat_add_mul, ih]

theorem sum_digits_mul {b Q F : Nat} (hb : 0 < b) (hQ : 1 < Q) {v : Nat -> Nat}
    (hv : forall r, r < 2 ^ k -> v r < Q) (w : Nat -> Int) (i q : Nat) {r : Nat} (hr : r < 2 ^ k) :
    ∑ j ∈ Finset.range (windows b Q),
        inFormat k psi format (integerResidues fun s => digitAt b v j s) i q r *
          inFormat k psi format (integerResidues fun s => ((F * 2 ^ (j * b) : Nat) : Int) * w s)
            i q r =
      F * (inFormat k psi format (integerResidues fun s => v s) i q r *
        inFormat k psi format (integerResidues w) i q r) := by
  have hrecompose : forall s, s < 2 ^ k ->
      ∑ j ∈ Finset.range (windows b Q), ((2 ^ (j * b) : Nat) : Int) * (digitAt b v j s : Int) =
        v s := by
    intro s hs
    rw [← sum_digitAt hb hQ (hv s hs)]
    push_cast
    rfl
  have hdigits : ∑ j ∈ Finset.range (windows b Q), (((2 ^ (j * b) : Nat) : Int) : ZMod q) *
      inFormat k psi format (integerResidues fun s => digitAt b v j s) i q r =
        inFormat k psi format (integerResidues fun s => v s) i q r := by
    rw [← inFormat_sum, inFormat_congr format hrecompose i q hr]
  calc
    _ = ∑ j ∈ Finset.range (windows b Q),
        inFormat k psi format (integerResidues fun s => digitAt b v j s) i q r *
          ((((2 ^ (j * b) : Nat) : Int) : ZMod q) *
            (F * inFormat k psi format (integerResidues w) i q r)) := by
      apply Finset.sum_congr rfl
      intro j _
      rw [inFormat_mul]
      push_cast
      ring
    _ = _ := by
      rw [sum_mul_gadget _ hdigits]
      ring

end Residues

/-! ## Products by the operations -/

namespace GadgetOperations

structure Sound {α R : Type} [CommRing R] (ops : GadgetOperations α)
    (Enc : Format -> (Nat -> Int) -> α -> Prop) (T : (Nat -> Int) -> R) (Den : R -> α -> Prop) :
    Prop where
  setFormat : forall {format : Format} {v : Nat -> Int} {x : α}, Enc format v x ->
    forall target, exists y, ops.setFormat x target = some y ∧ Enc target v y
  evaluation : forall {v : Nat -> Int} {x : α}, Enc .EVALUATION v x -> Den (T v) x
  times : forall (v w : R) (x y : α), Den v x -> Den w y ->
    exists z, ops.times x y = some z ∧ Den (v * w) z
  plusEq : forall (v w : R) (x y : α), Den v x -> Den w y ->
    exists z, ops.plusEq x y = some z ∧ Den (v + w) z

namespace Sound

variable {α R : Type} [CommRing R] {ops : GadgetOperations α}
  {Enc : Format -> (Nat -> Int) -> α -> Prop} {T : (Nat -> Int) -> R} {Den : R -> α -> Prop}
  (h : Sound ops Enc T Den)

include h

theorem product_spec {format target : Format} {v w : Nat -> Int} {x s : α} (hx : Enc format v x)
    (hs : Enc target w s) : exists p, ops.product x s = some p ∧ Den (T v * T w) p := by
  rcases h.setFormat hx .EVALUATION with ⟨x', hx', hxenc⟩
  rcases h.setFormat hs .EVALUATION with ⟨s', hs', hsenc⟩
  rcases h.times _ _ _ _ (h.evaluation hxenc) (h.evaluation hsenc) with ⟨p, hp, hden⟩
  refine ⟨p, ?_, hden⟩
  unfold product
  rw [hx', hs']
  exact hp

theorem gadgetProduct_spec {target : Format} {x s : α} {b m : Nat} (hm : 0 < m)
    {d g : Nat -> Nat -> Int} {ds ps : List α} (hds : ops.baseDecompose x b true = some ds)
    (hdsLength : ds.length = m)
    (hdsGet : forall (j : Nat) y, ds[j]? = some y -> Enc .EVALUATION (d j) y)
    (hps : ops.powersOfBase s b = some ps) (hpsLength : ps.length = m)
    (hpsGet : forall (j : Nat) y, ps[j]? = some y -> Enc target (g j) y) :
    exists p, ops.gadgetProduct x s b = some p ∧
      Den (∑ j ∈ Finset.range m, T (d j) * T (g j)) p := by
  rcases mapM_spec (l := ps) (f := fun p => ops.setFormat p .EVALUATION)
    (fun y z => ops.setFormat y .EVALUATION = some z) (by
      intro y hy
      rcases List.mem_iff_getElem?.mp hy with ⟨j, hj⟩
      rcases h.setFormat (hpsGet j y hj) .EVALUATION with ⟨z, hz, _⟩
      exact ⟨z, hz, hz⟩) with ⟨ps', hps', hps'Length, hps'Get⟩
  have hentry : forall (j : Nat) z, ps'[j]? = some z -> Den (T (g j)) z := by
    intro j z hz
    have hj : j < ps.length := by
      rw [← hps'Length]
      exact (List.getElem?_eq_some_iff.mp hz).1
    have hy := List.getElem?_eq_getElem hj
    rcases h.setFormat (hpsGet j _ hy) .EVALUATION with ⟨z', hz', henc⟩
    cases (hps'Get j _ z hy hz).symm.trans hz'
    exact h.evaluation henc
  rcases innerProduct_spec h.times h.plusEq (by omega) (by omega)
    (fun j y hy => h.evaluation (hdsGet j y hy)) hentry with ⟨p, hp, hden⟩
  rw [hdsLength] at hden
  refine ⟨p, ?_, hden⟩
  unfold gadgetProduct
  rw [hds, hps]
  simp only [Option.bind_eq_bind, Option.bind_some, hps', hp]

end Sound

end GadgetOperations

end Hal
end OpenFHE
