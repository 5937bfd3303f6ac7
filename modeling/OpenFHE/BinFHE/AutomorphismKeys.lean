import OpenFHE.BinFHE.AccumulatorKeys

/-!
# Automorphisms of an accumulator

An automorphism maps the phase to one under the mapped secret.  The key of the automorphism leads
back to the secret itself, for the noise of one decomposed element.
-/

namespace OpenFHE
namespace BinFHE

open Core Foundation NativeInteger Hal NegacyclicRing

namespace RingGSWAccumulator

/-- The loop body of `KeyGenAuto`: `drawn` are the polynomials in the evaluation format. -/
def autoRow (params : AccumulatorParams) (skNTT skAuto : Poly) (drawn : Nat -> Poly × Poly)
    (i : Nat) : Option (Poly × Poly) := do
  let power <- params.Gpower[i + 1]?
  let message <- skAuto.timesInteger power
  let second <- (drawn i).2.minusEq message
  let product <- (drawn i).1.times skNTT
  return ((drawn i).1, <- second.plusEq product)

def keyGenAuto (params : AccumulatorParams) (skNTT : Poly) (k : Int) (drawn : Nat -> Poly × Poly) :
    Option RingGSWEvalKey := do
  let skAuto <- skNTT.automorphismTransform (usint k)
  (List.range (keptDigits params.gadget)).mapM (autoRow params skNTT skAuto drawn)

def decomposeElement (params : AccumulatorParams) (cta : Poly) : Option (List Poly) := do
  let cta <- cta.setFormat params.cache .COEFFICIENT
  let dcta <- (signedDigitDecomposeElement params.gadget cta.values
    (zeroOutput (keptDigits params.gadget) params.gadget.N)).toOption
  dcta.mapM fun row => Poly.setFormat params.cache ⟨params.gadget.Q, .COEFFICIENT, row⟩ .EVALUATION

/-- `acc += dcta[d] * column[d]` for every digit. -/
def addProducts (dcta column : List Poly) (acc : Poly) : Option Poly :=
  (List.range dcta.length).foldlM (fun acc d => do
    let digit <- dcta[d]?
    let entry <- column[d]?
    let product <- digit.times entry
    acc.plusEq product) acc

def setValuesToZero (a : Poly) : Poly := { a with values := List.replicate a.values.length 0 }

def automorphism (params : AccumulatorParams) (a : Nat) (ak : RingGSWEvalKey)
    (acc : RLWECiphertext) : Option RLWECiphertext := do
  let vec <- precomputeAutoMap params.gadget.N (usint a)
  let second <- acc.2.automorphismTransformMap (usint a) vec
  let cta <- acc.1.automorphismTransformMap (usint a) vec
  let dcta <- decomposeElement params cta
  let first <- addProducts dcta (ak.map Prod.fst) (setValuesToZero acc.1)
  return (first, <- addProducts dcta (ak.map Prod.snd) second)

/-! ## The key -/

/-- The drawn polynomials of a row in the evaluation format. -/
structure DrawnEvaluation (params : AccumulatorParams) (k psi E : Nat) (row : Poly × Poly) :
    Prop where
  uniform : Poly.WellFormed params.gadget.Q (2 ^ k) .EVALUATION row.1
  gaussian : exists e, Small (2 ^ k) params.gadget.Q E e ∧
    Poly.StandsFor k params.gadget.Q psi e row.2

/-- A key for the automorphism `i`: row `d` encrypts the mapped secret times the gadget. -/
structure IsAutoKey (params : AccumulatorParams) (k psi : Nat) {i : Nat} (hi : i % 2 = 1)
    (z : NegacyclicRing (2 ^ k) (ZMod params.gadget.Q)) (E : Nat) (ak : RingGSWEvalKey) : Prop where
  length_eq : ak.length = params.gadget.digitsG - 1
  rows : forall (d : Nat) row, ak[d]? = some row -> exists e,
    Small (2 ^ k) params.gadget.Q E e ∧
      HasPhaseRing k params.gadget.Q psi z
        (e - NegacyclicRing.automorphism (2 ^ k) (ZMod params.gadget.Q) i hi z *
          gadgetElement params k d) row

def autoBound (params : AccumulatorParams) (k g E Z : Nat) : Nat :=
  (params.gadget.digitsG - 1) * (2 ^ k * (2 ^ (g - 1) * E)) +
    2 ^ k * (droppedBound params.gadget.Q g params.gadget.digitsG * Z)

section AutoKey

variable {params : AccumulatorParams} {k psi g : Nat} (h : Consistent params k psi g)

include h

theorem Consistent.keptDigits_eq : keptDigits params.gadget = params.gadget.digitsG - 1 :=
  (RingGSWAccumulator.keptDigits_eq h.bits_pos h.ready.modulus.one_lt h.modulus_lt h.count).1

theorem keyGenAuto_spec {skNTT : Poly} {z : NegacyclicRing (2 ^ k) (ZMod params.gadget.Q)}
    (hz : Poly.StandsFor k params.gadget.Q psi z skNTT) {i : Nat} (hi : i % 2 = 1)
    (hi32 : i < 2 ^ 32) {E : Nat} {drawn : Nat -> Poly × Poly}
    (hdrawn : forall d, DrawnEvaluation params k psi E (drawn d)) :
    exists ak, keyGenAuto params skNTT i drawn = some ak ∧ IsAutoKey params k psi hi z E ak := by
  have hi' : usint (i : Int) = i := by rw [usint_natCast, Nat.mod_eq_of_lt hi32]
  have hkept := h.keptDigits_eq
  rcases hz.automorphism h.pos h.ready h.le hi hi32 with ⟨skAuto, hskAuto, hautoStands⟩
  have hrows := mapM_range_spec (n := keptDigits params.gadget)
    (f := autoRow params skNTT skAuto drawn)
    (fun d row => exists e, Small (2 ^ k) params.gadget.Q E e ∧
      HasPhaseRing k params.gadget.Q psi z
        (e - NegacyclicRing.automorphism (2 ^ k) (ZMod params.gadget.Q) i hi z *
          gadgetElement params k d) row) ?_
  · rcases hrows with ⟨ak, hak, hlength, hget⟩
    refine ⟨ak, ?_, hlength.trans hkept, hget⟩
    rw [keyGenAuto, hi', hskAuto]
    exact hak
  · intro d hd
    rcases h.power_getElem? (i := d) (by omega) with ⟨power, hpower, _, hgadget⟩
    rcases (hdrawn d).uniform.exists_standsFor h.pos h.ready (h.le.trans (by decide)) with
      ⟨a, haStands⟩
    rcases (hdrawn d).gaussian with ⟨e, he, heStands⟩
    rcases hautoStands.timesInteger h.ready.modulus power with ⟨message, hmessage, hmessageStands⟩
    rcases heStands.minusEq h.ready.modulus hmessageStands with ⟨second, hsecond, hsecondStands⟩
    rcases haStands.times h.ready.modulus hz h.ready.root with ⟨product, hproduct, hproductStands⟩
    rcases hsecondStands.plusEq h.ready.modulus hproductStands with ⟨sum, hsum, hsumStands⟩
    refine ⟨((drawn d).1, sum), ?_, e, he, _, _, haStands, hsumStands, ?_⟩
    · rw [autoRow, hpower]
      simp only [Option.bind_eq_bind, Option.bind_some, hmessage, hsecond, hproduct, hsum]
      rfl
    · rw [hgadget]
      ring

end AutoKey

/-! ## The automorphism -/

theorem setValuesToZero_standsFor {k q psi : Nat} (hq : Poly.NttModulus q)
    {x : NegacyclicRing (2 ^ k) (ZMod q)} {a : Poly} (ha : Poly.StandsFor k q psi x a) :
    Poly.StandsFor k q psi 0 (setValuesToZero a) := by
  have hone := hq.one_lt
  have hwf := ha.wellFormed
  have hzero : setValuesToZero a = Poly.zero q (2 ^ k) .EVALUATION := by
    rw [setValuesToZero, hwf.1, hwf.2.1, hwf.2.2.1]
    rfl
  rw [hzero]
  exact Poly.zero_standsFor (by omega) psi

section Automorphism

variable {params : AccumulatorParams} {k psi g : Nat} (h : Consistent params k psi g)

include h

theorem decomposeElement_spec {cta : Poly} {x : NegacyclicRing (2 ^ k) (ZMod params.gadget.Q)}
    (hx : Poly.StandsFor k params.gadget.Q psi x cta) :
    exists c dcta, decomposeElement params cta = some dcta ∧
      dcta.length = params.gadget.digitsG - 1 ∧
      Poly.WellFormed params.gadget.Q (2 ^ k) .COEFFICIENT c ∧
      element (2 ^ k) (fun r => (c.value r : ZMod params.gadget.Q)) = x ∧
      forall d p, dcta[d]? = some p ->
        Poly.StandsFor k params.gadget.Q psi (digitElement params k c d) p := by
  rcases hx.coefficients h.pos h.ready (h.le.trans (by decide)) with ⟨c, hset, hc, hcx⟩
  have hkept := h.keptDigits_eq
  have hlength : ¬c.values.length < params.gadget.N := by
    rw [hc.2.2.1, h.dimension]
    exact Nat.lt_irrefl _
  have hrows : signedDigitDecomposeElement params.gadget c.values
      (zeroOutput (keptDigits params.gadget) params.gadget.N) =
        .ok ((List.range (keptDigits params.gadget)).map fun d => (List.range (2 ^ k)).map fun r =>
          outputDigit params.gadget (c.value r) d) := by
    rw [signedDigitDecomposeElement, if_neg hlength, <- h.dimension]
    exact addDigits_rows _ _ _ fun d r => ofSigned_lt _
  rcases mapM_range_spec (n := keptDigits params.gadget) _ (fun d hd =>
    (outputDigit_denotes h hc (i := d) (by omega)).standsFor h.pos h.ready) with
    ⟨dcta, hdcta, hcount, hget⟩
  refine ⟨c, dcta, ?_, hcount.trans hkept, hc, hcx, hget⟩
  rw [decomposeElement, hset]
  simp only [Option.bind_eq_bind, Option.bind_some, hrows, Except.toOption]
  rw [List.mapM_map]
  exact hdcta

theorem addProducts_spec {dcta column : List Poly} {acc : Poly}
    {D A : Nat -> NegacyclicRing (2 ^ k) (ZMod params.gadget.Q)}
    {x : NegacyclicRing (2 ^ k) (ZMod params.gadget.Q)} (hlength : dcta.length = column.length)
    (hD : forall d p, dcta[d]? = some p -> Poly.StandsFor k params.gadget.Q psi (D d) p)
    (hA : forall d p, column[d]? = some p -> Poly.StandsFor k params.gadget.Q psi (A d) p)
    (hx : Poly.StandsFor k params.gadget.Q psi x acc) :
    exists r, addProducts dcta column acc = some r ∧ Poly.StandsFor k params.gadget.Q psi
      (x + ∑ d ∈ Finset.range dcta.length, D d * A d) r := by
  apply foldlM_range_spec (fun n r => Poly.StandsFor k params.gadget.Q psi
    (x + ∑ d ∈ Finset.range n, D d * A d) r)
  · rw [Finset.range_zero, Finset.sum_empty, add_zero]
    exact hx
  · intro d hd r hr
    have hdigit := List.getElem?_eq_getElem hd
    have hentry := List.getElem?_eq_getElem (hlength ▸ hd)
    rcases (hD d _ hdigit).times h.ready.modulus (hA d _ hentry) h.ready.root with
      ⟨product, hproduct, hproductStands⟩
    rcases hr.plusEq h.ready.modulus hproductStands with ⟨s, hs, hsStands⟩
    refine ⟨s, ?_, ?_⟩
    · rw [hdigit, hentry]
      simp only [Option.bind_eq_bind, Option.bind_some, hproduct, hs]
    · rw [Finset.sum_range_succ, <- add_assoc]
      exact hsStands

theorem automorphism_spec {i : Nat} (hi : i % 2 = 1) (hi32 : i < 2 ^ 32)
    {z : NegacyclicRing (2 ^ k) (ZMod params.gadget.Q)} {E Z : Nat} {ak : RingGSWEvalKey}
    (hak : IsAutoKey params k psi hi z E ak) (hz : Small (2 ^ k) params.gadget.Q Z z)
    {acc : RLWECiphertext} {x : NegacyclicRing (2 ^ k) (ZMod params.gadget.Q)}
    (hacc : HasPhaseRing k params.gadget.Q psi z x acc) :
    exists acc' noise, automorphism params i ak acc = some acc' ∧
      Small (2 ^ k) params.gadget.Q (autoBound params k g E Z) noise ∧
      HasPhaseRing k params.gadget.Q psi z
        (NegacyclicRing.automorphism (2 ^ k) (ZMod params.gadget.Q) i hi x + noise) acc' := by
  have : Fact (1 < params.gadget.Q) := ⟨h.ready.modulus.one_lt⟩
  have hN := Nat.two_pow_pos k
  have hi' : usint (i : Int) = i := by rw [usint_natCast, Nat.mod_eq_of_lt hi32]
  rcases hacc with ⟨x0, x1, h0, h1, rfl⟩
  rcases h1.automorphismMap h.pos h.ready h.le hi with ⟨vec, second, hvec, hsecond, hsecondStands⟩
  rcases h0.automorphismMap h.pos h.ready h.le hi with ⟨vec', cta, hvec', hcta, hctaStands⟩
  cases hvec'.symm.trans hvec
  rcases decomposeElement_spec h hctaStands with ⟨c, dcta, hdcta, hlength, hc, hcx, hD⟩
  rcases digits_recompose h hc with ⟨rest, hrest, hsum⟩
  rw [hcx] at hsum
  have hrows (d : Nat) : exists A B e, forall row, ak[d]? = some row ->
      Poly.StandsFor k params.gadget.Q psi A row.1 ∧
      Poly.StandsFor k params.gadget.Q psi B row.2 ∧ Small (2 ^ k) params.gadget.Q E e ∧
      B - A * z = e - NegacyclicRing.automorphism (2 ^ k) (ZMod params.gadget.Q) i hi z *
        gadgetElement params k d := by
    cases hrow : ak[d]? with
    | none => exact ⟨0, 0, 0, fun row h => nomatch h⟩
    | some row =>
        rcases hak.rows d row hrow with ⟨e, he, A, B, hA, hB, hphase⟩
        refine ⟨A, B, e, fun row' h => ?_⟩
        cases h
        exact ⟨hA, hB, he, hphase⟩
  choose A B e hAB using hrows
  have hcount : dcta.length = ak.length := by rw [hlength, hak.length_eq]
  have hfirst (d : Nat) (p : Poly) (hp : (ak.map Prod.fst)[d]? = some p) :
      Poly.StandsFor k params.gadget.Q psi (A d) p := by
    rcases List.getElem?_map ▸ hp |> Option.map_eq_some_iff.mp with ⟨row, hrow, rfl⟩
    exact (hAB d row hrow).1
  have hsecondRows (d : Nat) (p : Poly) (hp : (ak.map Prod.snd)[d]? = some p) :
      Poly.StandsFor k params.gadget.Q psi (B d) p := by
    rcases List.getElem?_map ▸ hp |> Option.map_eq_some_iff.mp with ⟨row, hrow, rfl⟩
    exact (hAB d row hrow).2.1
  have hzeros := setValuesToZero_standsFor h.ready.modulus h0
  rcases addProducts_spec h (hcount.trans (List.length_map _).symm) hD hfirst hzeros with
    ⟨p0, hp0, hy0⟩
  rcases addProducts_spec h (hcount.trans (List.length_map _).symm) hD hsecondRows hsecondStands with
    ⟨p1, hp1, hy1⟩
  rw [hlength] at hy0 hy1
  refine ⟨(p0, p1), ∑ d ∈ Finset.range (params.gadget.digitsG - 1),
      digitElement params k c d * e d +
      rest * NegacyclicRing.automorphism (2 ^ k) (ZMod params.gadget.Q) i hi z, ?_, ?_, _, _, hy0,
    hy1, ?_⟩
  · rw [automorphism, hi', h.dimension, hvec]
    simp only [Option.bind_eq_bind, Option.bind_some, hsecond, hcta, hdcta, hp0, hp1]
    rfl
  · apply Small.add
    · apply Small.sum
      intro d hd
      apply Small.mul hN (digitElement_small h hc (by omega))
      have hd' : d < ak.length := by omega
      exact (hAB d _ (List.getElem?_eq_getElem hd')).2.2.1
    · exact hrest.mul hN (hz.automorphism hi)
  · have hterm (d : Nat) (hd : d ∈ Finset.range (params.gadget.digitsG - 1)) :
        digitElement params k c d * B d - digitElement params k c d * A d * z =
          digitElement params k c d * e d - gadgetElement params k d * digitElement params k c d *
            NegacyclicRing.automorphism (2 ^ k) (ZMod params.gadget.Q) i hi z := by
      have hd' : d < ak.length := by
        have := Finset.mem_range.mp hd
        omega
      have hrow := (hAB d _ (List.getElem?_eq_getElem hd')).2.2.2
      rw [mul_assoc, <- mul_sub, hrow]
      ring
    have hproducts := Finset.sum_congr rfl hterm
    rw [Finset.sum_sub_distrib, Finset.sum_sub_distrib, <- Finset.sum_mul, <- Finset.sum_mul,
      hsum] at hproducts
    rw [map_sub, map_mul]
    linear_combination hproducts

end Automorphism

theorem HasPhaseWithin.automorphism {params : AccumulatorParams} {k psi g : Nat}
    (h : Consistent params k psi g) {i : Nat} (hi : i % 2 = 1) (hi32 : i < 2 ^ 32)
    {z x : NegacyclicRing (2 ^ k) (ZMod params.gadget.Q)} {E Z B : Nat} {ak : RingGSWEvalKey}
    (hak : IsAutoKey params k psi hi z E ak) (hz : Small (2 ^ k) params.gadget.Q Z z)
    {acc : RLWECiphertext} (hacc : HasPhaseWithin k params.gadget.Q psi z B x acc) :
    exists acc', RingGSWAccumulator.automorphism params i ak acc = some acc' ∧
      HasPhaseWithin k params.gadget.Q psi z (B + autoBound params k g E Z)
        (NegacyclicRing.automorphism (2 ^ k) (ZMod params.gadget.Q) i hi x) acc' := by
  rcases hacc with ⟨noise, hnoise, hphase⟩
  rcases automorphism_spec h hi hi32 hak hz hphase with ⟨acc', added, hacc', hadded, hphase'⟩
  refine ⟨acc', hacc', _, (hnoise.automorphism hi).add hadded, ?_⟩
  rw [<- add_assoc, <- map_add]
  exact hphase'

end RingGSWAccumulator

end BinFHE
end OpenFHE
