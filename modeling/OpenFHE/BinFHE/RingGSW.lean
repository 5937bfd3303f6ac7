import OpenFHE.BinFHE.SignedDigitDecompose
import OpenFHE.Foundation.Blocks
import OpenFHE.Foundation.InnerProduct
import OpenFHE.Hal.RingElements

/-!
# External products

A key of the accumulator encrypts a small ring element in the rows of a gadget, the first power of
which is left out.  The product of a decomposed accumulator with the rows multiplies its phase by
that element, up to the noise of the rows and the digits that are left out.
-/

namespace OpenFHE
namespace BinFHE

open Core Foundation NativeInteger Hal NegacyclicRing

/-- The parameters of the accumulators and the tables of the transforms. -/
structure AccumulatorParams where
  gadget : GadgetParams
  q : Nat
  cache : Poly.TableCache

abbrev RLWECiphertext : Type := Poly × Poly

abbrev RingGSWEvalKey : Type := List (Poly × Poly)

namespace AccumulatorParams

variable (params : AccumulatorParams)

/-- `m_Gpower` as computed without sign evaluation. -/
def Gpower : List Nat := RingGSWAccumulator.powersG params.gadget.Q params.gadget.baseG
  params.gadget.digitsG 1

def digitsG2 : Nat := usint (RingGSWAccumulator.keptDigits params.gadget * 2 : Nat)

end AccumulatorParams

namespace RingGSWAccumulator

/-! ## Keys -/

/-- `ModAddFastEq` or `ModSubFastEq` at one coefficient. -/
def addAt (Q : Nat) (index : Nat) (negative : Bool) (power : Nat) (a : Poly) : Option Poly := do
  let v <- a.values[index]?
  return { a with
    values := a.values.set index (if negative then modSubFast v power Q else modAddFast v power Q) }

/-- The multiple of the gadget in row `i` goes to the first element for even `i`. -/
def addGadget (params : AccumulatorParams) (message : Option (Nat × Bool)) (i : Nat)
    (row : Poly × Poly) : Option (Poly × Poly) :=
  match message with
  | none => some row
  | some (index, negative) => do
      let power <- params.Gpower[i >>> 1 + 1]?
      if i &&& 1 = 0 then
        return (<- addAt params.gadget.Q index negative power row.1, row.2)
      else
        return (row.1, <- addAt params.gadget.Q index negative power row.2)

/-- The loop body of the key generations: `drawn` are the uniform and the Gaussian polynomial. -/
def keyRow (params : AccumulatorParams) (skNTT : Poly) (message : Option (Nat × Bool))
    (drawn : Nat -> Poly × Poly) (i : Nat) : Option (Poly × Poly) := do
  let tmp <- (drawn i).1.setFormat params.cache .EVALUATION
  let row <- addGadget params message i (drawn i)
  let first <- row.1.setFormat params.cache .EVALUATION
  let second <- row.2.setFormat params.cache .EVALUATION
  let product <- tmp.times skNTT
  return (first, <- second.plusEq product)

/-- A key for the message at a coefficient with a sign, or for zero. -/
def encryptKey (params : AccumulatorParams) (skNTT : Poly) (message : Option (Nat × Bool))
    (drawn : Nat -> Poly × Poly) : Option RingGSWEvalKey :=
  (List.range params.digitsG2).mapM (keyRow params skNTT message drawn)

/-! ## Products -/

def decomposeAcc (params : AccumulatorParams) (acc : RLWECiphertext) : Option (List Poly) := do
  let ct0 <- acc.1.setFormat params.cache .COEFFICIENT
  let ct1 <- acc.2.setFormat params.cache .COEFFICIENT
  let dct <- (signedDigitDecompose params.gadget (ct0.values, ct1.values)
    (zeroOutput params.digitsG2 params.gadget.N)).toOption
  dct.mapM fun row => Poly.setFormat params.cache ⟨params.gadget.Q, .COEFFICIENT, row⟩ .EVALUATION

def columnProduct (dct column : List Poly) : Option Poly :=
  if column.length < dct.length then none
  else Foundation.innerProduct Poly.times Poly.plusEq dct column

/-- `acc = dct * ek`. -/
def externalProduct (params : AccumulatorParams) (ek : RingGSWEvalKey) (acc : RLWECiphertext) :
    Option RLWECiphertext := do
  let dct <- decomposeAcc params acc
  return (<- columnProduct dct (ek.map Prod.fst), <- columnProduct dct (ek.map Prod.snd))

/-! ## Digits -/

/-- The parameters are consistent, and at least one digit is kept. -/
structure Consistent (params : AccumulatorParams) (k psi g : Nat) : Prop where
  pos : 0 < k
  le : k <= 24
  dimension : params.gadget.N = 2 ^ k
  ready : Poly.Ready params.cache k params.gadget.Q psi
  bits_pos : 0 < g
  bits_lt : g < 32
  base : params.gadget.baseG = 2 ^ g
  count : params.gadget.digitsG = Nat.clog (2 ^ g) params.gadget.Q
  two : 2 <= params.gadget.digitsG

/-- The lowest digit and what the carry out of the last one amounts to. -/
def droppedBound (Q g count : Nat) : Nat :=
  2 ^ (g - 1) + (((2 ^ g) ^ count : Int).bmod Q).natAbs

noncomputable def digitElement (params : AccumulatorParams) (k : Nat) (c : Poly) (i : Nat) :
    NegacyclicRing (2 ^ k) (ZMod params.gadget.Q) :=
  element (2 ^ k) fun r => (outputDigit params.gadget (c.value r) i : ZMod params.gadget.Q)

noncomputable def gadgetElement (params : AccumulatorParams) (k i : Nat) :
    NegacyclicRing (2 ^ k) (ZMod params.gadget.Q) :=
  constant (2 ^ k) ((params.Gpower.getD (i + 1) 0 : Nat) : ZMod params.gadget.Q)

section Digits

variable {params : AccumulatorParams} {k psi g : Nat} (h : Consistent params k psi g)

include h

theorem Consistent.modulus_lt : params.gadget.Q < 2 ^ 63 :=
  lt_trans h.ready.modulus.lt (by decide)

theorem Consistent.digitsG2_eq : params.digitsG2 = 2 * (params.gadget.digitsG - 1) := by
  have hkept := keptDigits_eq h.bits_pos h.ready.modulus.one_lt h.modulus_lt h.count
  rw [AccumulatorParams.digitsG2, hkept.1, usint_eq (by omega), Nat.mul_comm]

variable {c : Poly} (hc : Poly.WellFormed params.gadget.Q (2 ^ k) .COEFFICIENT c)

include hc

theorem digitElement_small {i : Nat} (hi : i + 1 < params.gadget.digitsG) :
    Small (2 ^ k) params.gadget.Q (2 ^ (g - 1)) (digitElement params k c i) := by
  refine ⟨fun r => signedDigit (2 ^ (g - 1)) (signedCarry (2 ^ (g - 1))
    (centeredCoefficient params.gadget.Q (c.value r)) (i + 1)), fun r hr => ?_, ?_⟩
  · have hbounds := signedDigit_bounds (H := 2 ^ (g - 1)) (by positivity) (signedCarry (2 ^ (g - 1))
      (centeredCoefficient params.gadget.Q (c.value r)) (i + 1))
    exact abs_le.mpr ⟨hbounds.1, hbounds.2.le⟩
  · apply element_congr
    intro r hr
    exact (outputDigit_represents h.bits_pos h.bits_lt h.base h.ready.modulus.one_lt h.modulus_lt
      h.count (hc.value_lt hr) hi).2.symm

theorem digits_recompose : exists rest, Small (2 ^ k) params.gadget.Q
      (droppedBound params.gadget.Q g params.gadget.digitsG) rest ∧
    ∑ i ∈ Finset.range (params.gadget.digitsG - 1),
        gadgetElement params k i * digitElement params k c i =
      element (2 ^ k) (fun r => (c.value r : ZMod params.gadget.Q)) - rest := by
  have hQ1 := h.ready.modulus.one_lt
  let rest : Nat -> Int := fun r =>
    signedDigit (2 ^ (g - 1)) (centeredCoefficient params.gadget.Q (c.value r)) +
      signedCarry (2 ^ (g - 1)) (centeredCoefficient params.gadget.Q (c.value r))
        params.gadget.digitsG * ((2 ^ g) ^ params.gadget.digitsG : Int).bmod params.gadget.Q
  refine ⟨element (2 ^ k) fun r => (rest r : ZMod params.gadget.Q), ⟨rest, fun r hr => ?_, rfl⟩, ?_⟩
  · have hbounds := signedDigit_bounds (H := 2 ^ (g - 1)) (by positivity)
      (centeredCoefficient params.gadget.Q (c.value r))
    have hdigit := abs_le.mpr ⟨hbounds.1, hbounds.2.le⟩
    have hcases := carry_cases h.bits_pos hQ1 (hc.value_lt hr)
    rw [<- h.count] at hcases
    dsimp only [rest]
    apply (abs_add_le _ _).trans
    rw [droppedBound, Nat.cast_add, Int.natCast_natAbs]
    apply add_le_add hdigit
    rcases hcases with ⟨hcarry, _⟩ | ⟨hcarry, _⟩
    · rw [hcarry, zero_mul, abs_zero]
      exact abs_nonneg _
    · rw [hcarry, one_mul]
  · simp only [gadgetElement, digitElement, <- element_scale]
    rw [<- element_sum, <- element_sub]
    apply element_congr
    intro r hr
    have hsum := sum_outputDigits h.bits_pos h.bits_lt h.base hQ1 h.modulus_lt h.count
      (hc.value_lt hr)
    have hcast : ((((2 ^ g) ^ params.gadget.digitsG : Int).bmod params.gadget.Q : Int) :
        ZMod params.gadget.Q) = (((2 ^ g) ^ params.gadget.digitsG : Int) : ZMod params.gadget.Q) :=
      (ZMod.intCast_eq_intCast_iff _ _ _).mpr Int.bmod_emod
    dsimp only [rest]
    rw [Int.cast_add, Int.cast_mul, hcast, <- Int.cast_mul, <- Int.cast_add, <- hsum]
    apply Finset.sum_congr rfl
    intro i _
    exact mul_comm _ _

end Digits

theorem addDigits_rows (N rows : Nat) (digit : Nat -> Nat -> Nat)
    (hdigit : forall e k, digit e k < 2 ^ maxBits) : addDigits N rows digit (zeroOutput rows N) =
      .ok ((List.range rows).map fun e => (List.range N).map fun k => digit e k) := by
  have hshape : ¬((zeroOutput rows N).length < rows ∨
      ∃ row ∈ (zeroOutput rows N).take rows, row.length < N) := by
    rintro (hlt | ⟨row, hrow, hlt⟩)
    · rw [zeroOutput, List.length_replicate] at hlt
      exact absurd hlt (Nat.lt_irrefl rows)
    · rw [List.eq_of_mem_replicate (List.mem_of_mem_take hrow), List.length_replicate] at hlt
      exact absurd hlt (Nat.lt_irrefl N)
  rw [addDigits, if_neg hshape]
  apply congrArg Except.ok
  apply List.ext_getElem
  · simp [zeroOutput]
  · intro e he _
    have he' : e < rows := by simpa [zeroOutput] using he
    apply List.ext_getElem
    · simp [zeroOutput, he']
    · intro k hk _
      have hk' : k < N := by simpa [zeroOutput, he'] using hk
      simp [zeroOutput, he', hk', addFast, word_eq (hdigit e k)]

section Decompose

variable {params : AccumulatorParams} {k psi g : Nat} (h : Consistent params k psi g)

include h

theorem outputDigit_denotes {c : Poly} (hc : Poly.WellFormed params.gadget.Q (2 ^ k) .COEFFICIENT c)
    {i : Nat} (hi : i + 1 < params.gadget.digitsG) :
    Poly.Denotes params.gadget.Q (2 ^ k) .COEFFICIENT
      (fun r => (outputDigit params.gadget (c.value r) i : ZMod params.gadget.Q))
      ⟨params.gadget.Q, .COEFFICIENT,
        (List.range (2 ^ k)).map fun r => outputDigit params.gadget (c.value r) i⟩ := by
  refine ⟨rfl, rfl, by simp, ?_⟩
  intro r x hx
  rcases List.getElem?_eq_some_iff.mp hx with ⟨hr, hget⟩
  rw [List.length_map, List.length_range] at hr
  rw [List.getElem_map, List.getElem_range] at hget
  rw [<- hget]
  exact ⟨(outputDigit_represents h.bits_pos h.bits_lt h.base h.ready.modulus.one_lt h.modulus_lt
    h.count (hc.value_lt hr) hi).1, rfl⟩

theorem decomposeAcc_spec {acc : RLWECiphertext}
    {x0 x1 : NegacyclicRing (2 ^ k) (ZMod params.gadget.Q)}
    (h0 : Poly.StandsFor k params.gadget.Q psi x0 acc.1)
    (h1 : Poly.StandsFor k params.gadget.Q psi x1 acc.2) :
    exists c0 c1 dct, decomposeAcc params acc = some dct ∧
      dct.length = 2 * (params.gadget.digitsG - 1) ∧
      Poly.WellFormed params.gadget.Q (2 ^ k) .COEFFICIENT c0 ∧
      Poly.WellFormed params.gadget.Q (2 ^ k) .COEFFICIENT c1 ∧
      element (2 ^ k) (fun r => (c0.value r : ZMod params.gadget.Q)) = x0 ∧
      element (2 ^ k) (fun r => (c1.value r : ZMod params.gadget.Q)) = x1 ∧
      forall i p, dct[i]? = some p -> Poly.StandsFor k params.gadget.Q psi
        (digitElement params k (if i % 2 = 0 then c0 else c1) (i / 2)) p := by
  have hk31 : k <= 31 := h.le.trans (by decide)
  rcases h0.coefficients h.pos h.ready hk31 with ⟨c0, hset0, hc0, hx0⟩
  rcases h1.coefficients h.pos h.ready hk31 with ⟨c1, hset1, hc1, hx1⟩
  have hlength0 : ¬(c0.values.length < params.gadget.N ∨ c1.values.length < params.gadget.N) := by
    rw [hc0.2.2.1, hc1.2.2.1, h.dimension]
    omega
  let digit : Nat -> Nat -> Nat := fun e r => outputDigit params.gadget
    ((if e % 2 = 0 then c0.values else c1.values).getD r 0) (e / 2)
  have hrows : signedDigitDecompose params.gadget (c0.values, c1.values)
      (zeroOutput params.digitsG2 params.gadget.N) =
        .ok ((List.range params.digitsG2).map fun e => (List.range (2 ^ k)).map fun r =>
          digit e r) := by
    rw [signedDigitDecompose, if_neg hlength0, <- h.dimension]
    exact addDigits_rows _ _ _ fun e r => ofSigned_lt _
  have htransforms := mapM_range_spec (n := params.digitsG2)
    (f := fun e => Poly.setFormat params.cache
      ⟨params.gadget.Q, .COEFFICIENT, (List.range (2 ^ k)).map fun r => digit e r⟩ .EVALUATION)
    (fun i p => Poly.StandsFor k params.gadget.Q psi
      (digitElement params k (if i % 2 = 0 then c0 else c1) (i / 2)) p) ?_
  · rcases htransforms with ⟨dct, hdct, hlength, hget⟩
    refine ⟨c0, c1, dct, ?_, by rw [hlength, h.digitsG2_eq], hc0, hc1, hx0, hx1, hget⟩
    rw [decomposeAcc, hset0]
    simp only [Option.bind_eq_bind, Option.bind_some, hset1, hrows, Except.toOption]
    rw [List.mapM_map]
    exact hdct
  · intro i hi
    rw [h.digitsG2_eq] at hi
    have hdigit : i / 2 + 1 < params.gadget.digitsG := by omega
    rcases Nat.mod_two_eq_zero_or_one i with heven | hodd
    · simp only [digit, heven, if_true]
      exact (outputDigit_denotes h hc0 hdigit).standsFor h.pos h.ready
    · simp only [digit, hodd, one_ne_zero, if_false]
      exact (outputDigit_denotes h hc1 hdigit).standsFor h.pos h.ready

end Decompose

/-! ## Phases -/

/-- The accumulator has the phase `x` under the secret `z`. -/
def HasPhaseRing (k q psi : Nat) (z x : NegacyclicRing (2 ^ k) (ZMod q)) (acc : RLWECiphertext) :
    Prop :=
  exists x0 x1, Poly.StandsFor k q psi x0 acc.1 ∧ Poly.StandsFor k q psi x1 acc.2 ∧ x1 - x0 * z = x

/-- What row `i` of a key for `m` adds to its noise. -/
noncomputable def rowMessage (params : AccumulatorParams) (k : Nat)
    (z m : NegacyclicRing (2 ^ k) (ZMod params.gadget.Q)) (i : Nat) :
    NegacyclicRing (2 ^ k) (ZMod params.gadget.Q) :=
  if i % 2 = 0 then -(m * gadgetElement params k (i / 2) * z) else m * gadgetElement params k (i / 2)

/-- A key for the ring element `m` with noise of size `E`. -/
structure IsKey (params : AccumulatorParams) (k psi : Nat)
    (z m : NegacyclicRing (2 ^ k) (ZMod params.gadget.Q)) (E : Nat) (ek : RingGSWEvalKey) : Prop where
  length_eq : ek.length = params.digitsG2
  rows : forall (i : Nat) row, ek[i]? = some row -> exists e,
    Small (2 ^ k) params.gadget.Q E e ∧
      HasPhaseRing k params.gadget.Q psi z (e + rowMessage params k z m i) row

def productBound (params : AccumulatorParams) (k g E Z : Nat) : Nat :=
  2 * (params.gadget.digitsG - 1) * (2 ^ k * (2 ^ (g - 1) * E)) +
    (droppedBound params.gadget.Q g params.gadget.digitsG +
      2 ^ k * (droppedBound params.gadget.Q g params.gadget.digitsG * Z))

/-- Multiplication by `m` does not make an element larger. -/
def Contracts {n q : Nat} (m : NegacyclicRing n (ZMod q)) : Prop :=
  forall B x, Small n q B x -> Small n q B (m * x)

section Product

variable {params : AccumulatorParams} {k psi g : Nat} (h : Consistent params k psi g)
  {z m : NegacyclicRing (2 ^ k) (ZMod params.gadget.Q)}

include h

theorem columnProduct_spec {dct column : List Poly}
    {D A : Nat -> NegacyclicRing (2 ^ k) (ZMod params.gadget.Q)} (hpos : 0 < dct.length)
    (hlength : dct.length = column.length)
    (hD : forall i p, dct[i]? = some p -> Poly.StandsFor k params.gadget.Q psi (D i) p)
    (hA : forall i p, column[i]? = some p -> Poly.StandsFor k params.gadget.Q psi (A i) p) :
    exists r, columnProduct dct column = some r ∧ Poly.StandsFor k params.gadget.Q psi
      (∑ i ∈ Finset.range dct.length, D i * A i) r := by
  rw [columnProduct, if_neg (by omega)]
  apply Foundation.innerProduct_spec
  · intro v w x y hx hy
    exact hx.times h.ready.modulus hy h.ready.root
  · intro v w x y hx hy
    exact hx.plusEq h.ready.modulus hy
  · exact hpos
  · exact hlength
  · exact hD
  · exact hA

theorem columnProducts_spec {E Z : Nat} {ek : RingGSWEvalKey}
    (hek : IsKey params k psi z m E ek) (hm : Contracts m) (hz : Small (2 ^ k) params.gadget.Q Z z)
    {acc : RLWECiphertext} {x : NegacyclicRing (2 ^ k) (ZMod params.gadget.Q)}
    (hacc : HasPhaseRing k params.gadget.Q psi z x acc) {dct : List Poly}
    (hdct : decomposeAcc params acc = some dct) :
    exists p0 p1 noise, columnProduct dct (ek.map Prod.fst) = some p0 ∧
      columnProduct dct (ek.map Prod.snd) = some p1 ∧
      Small (2 ^ k) params.gadget.Q (productBound params k g E Z) noise ∧
      HasPhaseRing k params.gadget.Q psi z (m * x + noise) (p0, p1) := by
  have : Fact (1 < params.gadget.Q) := ⟨h.ready.modulus.one_lt⟩
  have hN := Nat.two_pow_pos k
  have htwo := h.two
  rcases hacc with ⟨x0, x1, h0, h1, rfl⟩
  rcases decomposeAcc_spec h h0 h1 with
    ⟨c0, c1, dct', hdct', hlength, hc0, hc1, hx0, hx1, hD⟩
  cases hdct'.symm.trans hdct
  rcases digits_recompose h hc0 with ⟨r0, hr0, hsum0⟩
  rcases digits_recompose h hc1 with ⟨r1, hr1, hsum1⟩
  rw [hx0] at hsum0
  rw [hx1] at hsum1
  have hrows (i : Nat) : exists A B e, forall row, ek[i]? = some row ->
      Poly.StandsFor k params.gadget.Q psi A row.1 ∧
      Poly.StandsFor k params.gadget.Q psi B row.2 ∧ Small (2 ^ k) params.gadget.Q E e ∧
      B - A * z = e + rowMessage params k z m i := by
    cases hrow : ek[i]? with
    | none => exact ⟨0, 0, 0, fun row h => nomatch h⟩
    | some row =>
        rcases hek.rows i row hrow with ⟨e, he, A, B, hA, hB, hphase⟩
        refine ⟨A, B, e, fun row' h => ?_⟩
        cases h
        exact ⟨hA, hB, he, hphase⟩
  choose A B e hAB using hrows
  have hcount : dct.length = ek.length := by rw [hlength, hek.length_eq, h.digitsG2_eq]
  have hfirst (i : Nat) (p : Poly) (hp : (ek.map Prod.fst)[i]? = some p) :
      Poly.StandsFor k params.gadget.Q psi (A i) p := by
    rcases List.getElem?_map ▸ hp |> Option.map_eq_some_iff.mp with ⟨row, hrow, rfl⟩
    exact (hAB i row hrow).1
  have hsecond (i : Nat) (p : Poly) (hp : (ek.map Prod.snd)[i]? = some p) :
      Poly.StandsFor k params.gadget.Q psi (B i) p := by
    rcases List.getElem?_map ▸ hp |> Option.map_eq_some_iff.mp with ⟨row, hrow, rfl⟩
    exact (hAB i row hrow).2.1
  rcases columnProduct_spec h (by omega) (hcount.trans (List.length_map _).symm) hD hfirst with
    ⟨p0, hp0, hy0⟩
  rcases columnProduct_spec h (by omega) (hcount.trans (List.length_map _).symm) hD hsecond with
    ⟨p1, hp1, hy1⟩
  rw [hlength] at hy0 hy1
  refine ⟨p0, p1, ∑ i ∈ Finset.range (2 * (params.gadget.digitsG - 1)),
      digitElement params k (if i % 2 = 0 then c0 else c1) (i / 2) * e i - m * (r1 - r0 * z),
    hp0, hp1, ?_, _, _, hy0, hy1, ?_⟩
  · apply Small.sub
    · apply Small.sum
      intro i hi
      apply Small.mul hN
      · split
        · exact digitElement_small h hc0 (by omega)
        · exact digitElement_small h hc1 (by omega)
      · have hi' : i < ek.length := by omega
        exact (hAB i _ (List.getElem?_eq_getElem hi')).2.2.1
    · exact hm _ _ (hr1.sub (hr0.mul hN hz))
  · rw [Finset.sum_mul, <- Finset.sum_sub_distrib]
    have hterm (i : Nat) (hi : i ∈ Finset.range (2 * (params.gadget.digitsG - 1))) :
        digitElement params k (if i % 2 = 0 then c0 else c1) (i / 2) * B i -
            digitElement params k (if i % 2 = 0 then c0 else c1) (i / 2) * A i * z =
          digitElement params k (if i % 2 = 0 then c0 else c1) (i / 2) * e i +
            digitElement params k (if i % 2 = 0 then c0 else c1) (i / 2) *
              rowMessage params k z m i := by
      have hi' : i < ek.length := by
        have := Finset.mem_range.mp hi
        omega
      have hrow := (hAB i _ (List.getElem?_eq_getElem hi')).2.2.2
      rw [mul_assoc, <- mul_sub, hrow, mul_add]
    have hmessage : ∑ i ∈ Finset.range (2 * (params.gadget.digitsG - 1)),
        digitElement params k (if i % 2 = 0 then c0 else c1) (i / 2) * rowMessage params k z m i =
          m * ((x1 - r1) - (x0 - r0) * z) := by
      rw [sum_range_pairs, <- hsum0, <- hsum1, mul_sub, Finset.sum_mul, Finset.mul_sum,
        Finset.mul_sum, <- Finset.sum_sub_distrib]
      apply Finset.sum_congr rfl
      intro j _
      have heven : 2 * j % 2 = 0 := by omega
      have hodd : (2 * j + 1) % 2 ≠ 0 := by omega
      have hhalf : 2 * j / 2 = j := by omega
      have hhalf' : (2 * j + 1) / 2 = j := by omega
      rw [rowMessage, rowMessage, if_pos heven, if_pos heven, if_neg hodd, if_neg hodd, hhalf,
        hhalf']
      ring
    rw [Finset.sum_congr rfl hterm, Finset.sum_add_distrib, hmessage]
    ring

theorem HasPhaseRing.decompose {x : NegacyclicRing (2 ^ k) (ZMod params.gadget.Q)}
    {acc : RLWECiphertext} (hacc : HasPhaseRing k params.gadget.Q psi z x acc) :
    exists dct, decomposeAcc params acc = some dct := by
  rcases hacc with ⟨x0, x1, h0, h1, _⟩
  rcases decomposeAcc_spec h h0 h1 with ⟨_, _, dct, hdct, _⟩
  exact ⟨dct, hdct⟩

theorem externalProduct_spec {E Z : Nat} {ek : RingGSWEvalKey}
    (hek : IsKey params k psi z m E ek) (hm : Contracts m) (hz : Small (2 ^ k) params.gadget.Q Z z)
    {acc : RLWECiphertext} {x : NegacyclicRing (2 ^ k) (ZMod params.gadget.Q)}
    (hacc : HasPhaseRing k params.gadget.Q psi z x acc) :
    exists acc' noise, externalProduct params ek acc = some acc' ∧
      Small (2 ^ k) params.gadget.Q (productBound params k g E Z) noise ∧
      HasPhaseRing k params.gadget.Q psi z (m * x + noise) acc' := by
  rcases HasPhaseRing.decompose h hacc with ⟨dct, hdct⟩
  rcases columnProducts_spec h hek hm hz hacc hdct with ⟨p0, p1, noise, hp0, hp1, hnoise, hphase⟩
  refine ⟨(p0, p1), noise, ?_, hnoise, hphase⟩
  rw [externalProduct, hdct]
  simp only [Option.bind_eq_bind, Option.bind_some, hp0, hp1]
  rfl

end Product

/-! ## Phases with noise -/

/-- The accumulator has the phase `x` up to noise of size `B`. -/
def HasPhaseWithin (k q psi : Nat) (z : NegacyclicRing (2 ^ k) (ZMod q)) (B : Nat)
    (x : NegacyclicRing (2 ^ k) (ZMod q)) (acc : RLWECiphertext) : Prop :=
  exists noise, Small (2 ^ k) q B noise ∧ HasPhaseRing k q psi z (x + noise) acc

theorem HasPhaseRing.within {k q psi : Nat} {z x : NegacyclicRing (2 ^ k) (ZMod q)}
    {acc : RLWECiphertext} (h : HasPhaseRing k q psi z x acc) (B : Nat) :
    HasPhaseWithin k q psi z B x acc :=
  ⟨0, small_zero _ _ _, by rwa [add_zero]⟩

theorem HasPhaseWithin.mono {k q psi : Nat} {z x : NegacyclicRing (2 ^ k) (ZMod q)} {B C : Nat}
    {acc : RLWECiphertext} (h : HasPhaseWithin k q psi z B x acc) (hle : B <= C) :
    HasPhaseWithin k q psi z C x acc := by
  rcases h with ⟨noise, hnoise, hphase⟩
  exact ⟨noise, hnoise.mono hle, hphase⟩

theorem HasPhaseWithin.externalProduct {params : AccumulatorParams} {k psi g : Nat}
    (h : Consistent params k psi g) {z m x : NegacyclicRing (2 ^ k) (ZMod params.gadget.Q)}
    {E Z B : Nat} {ek : RingGSWEvalKey} (hek : IsKey params k psi z m E ek) (hm : Contracts m)
    (hz : Small (2 ^ k) params.gadget.Q Z z) {acc : RLWECiphertext}
    (hacc : HasPhaseWithin k params.gadget.Q psi z B x acc) :
    exists acc', RingGSWAccumulator.externalProduct params ek acc = some acc' ∧
      HasPhaseWithin k params.gadget.Q psi z (B + productBound params k g E Z) (m * x) acc' := by
  rcases hacc with ⟨noise, hnoise, hphase⟩
  rcases externalProduct_spec h hek hm hz hphase with ⟨acc', added, hacc', hadded, hphase'⟩
  refine ⟨acc', hacc', m * noise + added, (hm _ _ hnoise).add hadded, ?_⟩
  rw [<- add_assoc, <- mul_add]
  exact hphase'

end RingGSWAccumulator

end BinFHE
end OpenFHE
