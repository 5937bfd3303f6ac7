import OpenFHE.BinFHE.AccumulatorKeys

/-!
# Accumulation for ternary secrets

Two keys for each entry of the secret say whether it is one and whether it is minus one.  The
external products with both are multiplied by `X ^ c - 1` and `X ^ (-c) - 1` and added to the
accumulator, which rotates the phase by `c` times the entry.
-/

namespace OpenFHE
namespace BinFHE

open Core Foundation NativeInteger Hal NegacyclicRing RingGSWAccumulator

/-- The parameters with `m_monomials`. -/
structure CGGIParams where
  ring : AccumulatorParams
  monomials : List Poly

namespace RingGSWAccumulatorCGGI

/-- `X ^ i - 1` or `-X ^ i - 1`. -/
def monomialPoly (params : AccumulatorParams) (negative : Bool) (i : Nat) : Option Poly := do
  let aPoly <- addAt params.gadget.Q 0 true 1
    (Poly.zero params.gadget.Q params.gadget.N .COEFFICIENT)
  let aPoly <- addAt params.gadget.Q i negative 1 aPoly
  aPoly.setFormat params.cache .EVALUATION

/-- The two loops of `PreCompute` that fill `m_monomials`. -/
def preComputeMonomials (params : AccumulatorParams) : Option (List Poly) := do
  let low <- (List.range params.gadget.N).mapM (monomialPoly params false)
  let high <- (List.range params.gadget.N).mapM (monomialPoly params true)
  return low ++ high

def keyGenCGGI (params : AccumulatorParams) (skNTT : Poly) (m : Bool)
    (drawn : Nat -> Poly × Poly) : Option RingGSWEvalKey :=
  encryptKey params skNTT (if m then some (0, false) else none) drawn

/-- `0 -> {0,0}, 1 -> {1,0}, -1 -> {0,1}`. -/
def keyGenAcc (params : AccumulatorParams) (skNTT : Poly) (sk : NativeVectorT)
    (drawn : Nat -> Nat -> Nat -> Poly × Poly) : Option RingGSWACCKey :=
  let neg := subFast sk.modulus 1
  generateKeys 1 2 sk.data.length fun _ j i => do
    let s <- sk.data[i]?
    let key <- keyGenCGGI params skNTT (if j = 0 then s = 1 else s = neg) (drawn j i)
    return some key

/-- `acc += dct * column * monomial` for one element of the accumulator. -/
def addTimes (dct column : List Poly) (monomial acc : Poly) : Option Poly := do
  let tmp <- columnProduct dct column
  let tmp <- tmp.times monomial
  acc.plusEq tmp

def getMonomial (params : CGGIParams) (index : Nat) : Option Poly :=
  params.monomials[if index = usint (2 * params.ring.gadget.N : Nat) then 0 else index]?

def addToAccCGGI (params : CGGIParams) (ek1 ek2 : RingGSWEvalKey) (a : Nat)
    (acc : RLWECiphertext) : Option RLWECiphertext := do
  let dct <- decomposeAcc params.ring acc
  let monomial <- getMonomial params (usint a)
  let monomialNeg <- getMonomial params
    (usint (modSubFast 0 a (usint (2 * params.ring.gadget.N : Nat))))
  let first <- addTimes dct (ek1.map Prod.fst) monomial acc.1
  let second <- addTimes dct (ek1.map Prod.snd) monomial acc.2
  let first <- addTimes dct (ek2.map Prod.fst) monomialNeg first
  let second <- addTimes dct (ek2.map Prod.snd) monomialNeg second
  return (first, second)

def coordinateStep (params : CGGIParams) (ek : RingGSWACCKey) (a : NativeVectorT)
    (acc : RLWECiphertext) (i : Nat) : Option RLWECiphertext :=
  if a.modulus = 0 then none
  else do
    let x <- a.data[i]?
    let ek1 <- keyAt ek 0 0 i
    let ek2 <- keyAt ek 0 1 i
    addToAccCGGI params ek1 ek2 (mulFast (modSubFast 0 x a.modulus)
      (usint (2 * params.ring.gadget.N : Nat) / a.modulus)) acc

def evalAcc (params : CGGIParams) (ek : RingGSWACCKey) (acc : RLWECiphertext)
    (a : NativeVectorT) : Option RLWECiphertext :=
  (List.range a.data.length).foldlM (coordinateStep params ek a) acc

/-! ## The table of monomials -/

section Table

variable {params : AccumulatorParams} {k psi g : Nat} (h : Consistent params k psi g)

include h

theorem monomialPoly_spec (negative : Bool) {i : Nat} (hi : i < 2 ^ k) :
    exists p, monomialPoly params negative i = some p ∧
      Poly.StandsFor k params.gadget.Q psi
        (messageElement k params.gadget.Q (some (i, negative)) - 1) p := by
  have hQ := h.ready.modulus.lt
  have hQ1 := h.ready.modulus.one_lt
  have hzero := Poly.zero_denotes (by omega : 0 < params.gadget.Q) (2 ^ k) .COEFFICIENT
  rcases addAt_spec hQ true (Nat.two_pow_pos k) hQ1 hzero with ⟨minus, hminus, hminusDenotes⟩
  rcases addAt_spec hQ negative hi hQ1 hminusDenotes with ⟨both, hboth, hbothDenotes⟩
  rcases hbothDenotes.standsFor h.pos h.ready with ⟨p, hp, hstands⟩
  refine ⟨p, ?_, ?_⟩
  · rw [monomialPoly, h.dimension, hminus]
    simp only [Option.bind_eq_bind, Option.bind_some, hboth]
    exact hp
  · rw [element_add, element_add, element_zero, element_single (Nat.two_pow_pos k),
      element_single hi] at hstands
    have helement : messageElement k params.gadget.Q (some (i, negative)) - 1 =
        0 + constant (2 ^ k) (if true then -((1 : Nat) : ZMod params.gadget.Q)
            else ((1 : Nat) : ZMod params.gadget.Q)) *
            variableX (2 ^ k) (ZMod params.gadget.Q) ^ 0 +
          constant (2 ^ k) (if negative then -((1 : Nat) : ZMod params.gadget.Q)
            else ((1 : Nat) : ZMod params.gadget.Q)) *
            variableX (2 ^ k) (ZMod params.gadget.Q) ^ i := by
      rw [messageElement, if_pos rfl, Nat.cast_one]
      cases negative with
      | true =>
          simp only [if_true, constant, map_neg, map_one]
          ring
      | false =>
          simp only [Bool.false_eq_true, if_false, constant, map_neg, map_one]
          ring
    rw [helement]
    exact hstands

/-- Entry `i` of the table is `X ^ i - 1`. -/
theorem preComputeMonomials_spec : exists monomials, preComputeMonomials params = some monomials ∧
    forall i, i < 2 * 2 ^ k -> exists p, monomials[i]? = some p ∧
      Poly.StandsFor k params.gadget.Q psi
        (variableX (2 ^ k) (ZMod params.gadget.Q) ^ i - 1) p := by
  rcases mapM_range_spec (n := 2 ^ k) _ (fun i hi => monomialPoly_spec h false hi) with
    ⟨low, hlow, hlowLength, hlowGet⟩
  rcases mapM_range_spec (n := 2 ^ k) _ (fun i hi => monomialPoly_spec h true hi) with
    ⟨high, hhigh, hhighLength, hhighGet⟩
  refine ⟨low ++ high, ?_, ?_⟩
  · rw [preComputeMonomials, h.dimension, hlow]
    simp only [Option.bind_eq_bind, Option.bind_some, hhigh]
    rfl
  · intro i hi
    by_cases hfirst : i < 2 ^ k
    · have hget : low[i]? = some low[i] := List.getElem?_eq_getElem (by omega)
      refine ⟨low[i], ?_, ?_⟩
      · rw [List.getElem?_append_left (by omega)]
        exact hget
      · have hstands := hlowGet i _ hget
        rw [messageElement, if_neg Bool.false_ne_true] at hstands
        exact hstands
    · have hget : high[i - 2 ^ k]? = some high[i - 2 ^ k] := List.getElem?_eq_getElem (by omega)
      refine ⟨high[i - 2 ^ k], ?_, ?_⟩
      · rw [List.getElem?_append_right (by omega), hlowLength]
        exact hget
      · have hstands := hhighGet (i - 2 ^ k) _ hget
        have hpow : variableX (2 ^ k) (ZMod params.gadget.Q) ^ i =
            -variableX (2 ^ k) (ZMod params.gadget.Q) ^ (i - 2 ^ k) := by
          have hsplit : i = 2 ^ k + (i - 2 ^ k) := by omega
          conv_lhs => rw [hsplit, pow_add, variableX_pow, neg_one_mul]
        rw [messageElement, if_pos rfl, <- hpow] at hstands
        exact hstands

end Table

/-- `params` holds the table that `PreCompute` fills. -/
structure CGGIConsistent (params : CGGIParams) (k psi g : Nat) : Prop where
  ring : Consistent params.ring k psi g
  table : preComputeMonomials params.ring = some params.monomials

section Step

variable {params : CGGIParams} {k psi g : Nat} (h : CGGIConsistent params k psi g)

include h

theorem getMonomial_spec {i : Nat} (hi : i < 2 * 2 ^ k) :
    exists p, getMonomial params (usint (i : Nat)) = some p ∧
      Poly.StandsFor k params.ring.gadget.Q psi
        (monomial (2 ^ k) (ZMod params.ring.gadget.Q) i - 1) p := by
  rcases preComputeMonomials_spec h.ring with ⟨monomials, hmonomials, hget⟩
  cases h.table.symm.trans hmonomials
  rcases hget i hi with ⟨p, hp, hstands⟩
  have hN : 2 ^ k <= 2 ^ 24 := Nat.pow_le_pow_right (by decide) h.ring.le
  refine ⟨p, ?_, ?_⟩
  · rw [getMonomial, h.ring.dimension, usint_natCast, usint_natCast,
      Nat.mod_eq_of_lt (by omega : i < 2 ^ 32), Nat.mod_eq_of_lt (by omega : 2 * 2 ^ k < 2 ^ 32),
      if_neg (by omega)]
    exact hp
  · rw [monomial_natCast]
    exact hstands

theorem addTimes_spec {dct column : List Poly} {p monomial acc : Poly}
    {x y u : NegacyclicRing (2 ^ k) (ZMod params.ring.gadget.Q)}
    (hp : columnProduct dct column = some p) (hy : Poly.StandsFor k params.ring.gadget.Q psi y p)
    (hu : Poly.StandsFor k params.ring.gadget.Q psi u monomial)
    (hx : Poly.StandsFor k params.ring.gadget.Q psi x acc) :
    exists r, addTimes dct column monomial acc = some r ∧
      Poly.StandsFor k params.ring.gadget.Q psi (x + y * u) r := by
  rcases hy.times h.ring.ready.modulus hu h.ring.ready.root with ⟨t, ht, htStands⟩
  rcases hx.plusEq h.ring.ready.modulus htStands with ⟨r, hr, hrStands⟩
  refine ⟨r, ?_, hrStands⟩
  rw [addTimes, hp]
  simp only [Option.bind_eq_bind, Option.bind_some, ht, hr]

variable {z : NegacyclicRing (2 ^ k) (ZMod params.ring.gadget.Q)} {E Z : Nat}
  (hz : Small (2 ^ k) params.ring.gadget.Q Z z)

include hz

theorem addToAccCGGI_spec {m1 m2 : NegacyclicRing (2 ^ k) (ZMod params.ring.gadget.Q)}
    {ek1 ek2 : RingGSWEvalKey} (hek1 : IsKey params.ring k psi z m1 E ek1) (hm1 : Contracts m1)
    (hek2 : IsKey params.ring k psi z m2 E ek2) (hm2 : Contracts m2) {c : Nat}
    (hc : c < 2 * 2 ^ k) {acc : RLWECiphertext}
    {x : NegacyclicRing (2 ^ k) (ZMod params.ring.gadget.Q)}
    (hacc : HasPhaseRing k params.ring.gadget.Q psi z x acc) :
    exists acc' noise, addToAccCGGI params ek1 ek2 c acc = some acc' ∧
      Small (2 ^ k) params.ring.gadget.Q (4 * productBound params.ring k g E Z) noise ∧
      HasPhaseRing k params.ring.gadget.Q psi z
        (x + (monomial (2 ^ k) (ZMod params.ring.gadget.Q) c - 1) * (m1 * x) +
          (monomial (2 ^ k) (ZMod params.ring.gadget.Q) (-c) - 1) * (m2 * x) + noise) acc' := by
  have hN : 2 ^ k <= 2 ^ 24 := Nat.pow_le_pow_right (by decide) h.ring.le
  have hNpos := Nat.two_pow_pos k
  have hM : usint (2 * params.ring.gadget.N : Nat) = 2 * 2 ^ k := by
    rw [h.ring.dimension, usint_natCast, Nat.mod_eq_of_lt (by omega)]
  rcases negated_modEq (by omega : 2 * 2 ^ k < 2 ^ 60) hc with ⟨hneg, hnegMod⟩
  rcases HasPhaseRing.decompose h.ring hacc with ⟨dct, hdct⟩
  rcases columnProducts_spec h.ring hek1 hm1 hz hacc hdct with
    ⟨p0, p1, n1, hp0, hp1, hn1, y0, y1, hy0, hy1, hphase1⟩
  rcases columnProducts_spec h.ring hek2 hm2 hz hacc hdct with
    ⟨r0, r1, n2, hr0, hr1, hn2, w0, w1, hw0, hw1, hphase2⟩
  rcases getMonomial_spec h hc with ⟨pos, hpos, hposStands⟩
  rcases getMonomial_spec h hneg with ⟨negative, hnegative, hnegativeStands⟩
  rw [monomial_congr hnegMod] at hnegativeStands
  rcases hacc with ⟨x0, x1, hx0, hx1, rfl⟩
  rcases addTimes_spec h hp0 hy0 hposStands hx0 with ⟨s0, hs0, hs0Stands⟩
  rcases addTimes_spec h hp1 hy1 hposStands hx1 with ⟨s1, hs1, hs1Stands⟩
  rcases addTimes_spec h hr0 hw0 hnegativeStands hs0Stands with ⟨t0, ht0, ht0Stands⟩
  rcases addTimes_spec h hr1 hw1 hnegativeStands hs1Stands with ⟨t1, ht1, ht1Stands⟩
  refine ⟨(t0, t1), (monomial (2 ^ k) (ZMod params.ring.gadget.Q) c * n1 - n1) +
      (monomial (2 ^ k) (ZMod params.ring.gadget.Q) (-c) * n2 - n2), ?_, ?_, _, _, ht0Stands,
    ht1Stands, ?_⟩
  · rw [addToAccCGGI, hdct]
    simp only [Option.bind_eq_bind, Option.bind_some, hM, hpos, hnegative, hs0, hs1, ht0, ht1]
    rfl
  · exact (((hn1.monomial_mul c).sub hn1).add ((hn2.monomial_mul (-c)).sub hn2)).mono (by omega)
  · linear_combination (monomial (2 ^ k) (ZMod params.ring.gadget.Q) c - 1) * hphase1 +
      (monomial (2 ^ k) (ZMod params.ring.gadget.Q) (-c) - 1) * hphase2

end Step

/-! ## The refreshing key -/

/-- A secret with the entries zero, one and minus one. -/
structure Ternary (n mod : Nat) (sk : NativeVectorT) : Prop where
  valid : NativeVectorT.Valid n mod sk
  two_lt : 2 < mod
  modulus_lt : mod < 2 ^ maxBits
  entry : forall i, i < n -> secretEntry sk i = 0 ∨ secretEntry sk i = 1 ∨ secretEntry sk i = -1

noncomputable def indicator (k q : Nat) (b : Bool) : NegacyclicRing (2 ^ k) (ZMod q) :=
  messageElement k q (if b then some (0, false) else none)

theorem indicator_true (k q : Nat) : indicator k q true = 1 := by
  rw [indicator, if_pos rfl, messageElement, if_neg Bool.false_ne_true, pow_zero]

theorem indicator_false (k q : Nat) : indicator k q false = 0 := by
  rw [indicator, if_neg Bool.false_ne_true, messageElement]

def IsTernaryKey (params : AccumulatorParams) (k psi n E : Nat) (sk : NativeVectorT)
    (z : NegacyclicRing (2 ^ k) (ZMod params.gadget.Q)) (ek : RingGSWACCKey) : Prop :=
  forall i, i < n -> exists ek1 ek2, keyAt ek 0 0 i = some ek1 ∧ keyAt ek 0 1 i = some ek2 ∧
    IsKey params k psi z (indicator k params.gadget.Q (secretEntry sk i = 1)) E ek1 ∧
    IsKey params k psi z (indicator k params.gadget.Q (secretEntry sk i = -1)) E ek2

theorem Ternary.entry_iff {n mod : Nat} {sk : NativeVectorT} (h : Ternary n mod sk) {i s : Nat}
    (hs : sk.data[i]? = some s) (hlt : s < mod) :
    (s = 1 <-> secretEntry sk i = 1) ∧ (s = subFast sk.modulus 1 <-> secretEntry sk i = -1) := by
  have htwo := h.two_lt
  have hsub : subFast sk.modulus 1 = mod - 1 := by
    rw [h.valid.modulus_eq]
    exact subFast_eq (by omega) h.modulus_lt
  rw [secretEntry, List.getD_eq_getElem?_getD, hs, Option.getD_some, hsub, NativeVector.centered,
    h.valid.modulus_eq, Nat.shiftRight_one]
  constructor
  · constructor <;> intro heq <;> split at * <;> omega
  · constructor <;> intro heq <;> split at * <;> omega

theorem keyGenCGGI_spec {params : AccumulatorParams} {k psi g E : Nat}
    (h : Consistent params k psi g) {skNTT : Poly}
    {z : NegacyclicRing (2 ^ k) (ZMod params.gadget.Q)}
    (hz : Poly.StandsFor k params.gadget.Q psi z skNTT) (m : Bool) {drawn : Nat -> Poly × Poly}
    (hdrawn : forall r, Drawn params k E (drawn r)) :
    exists key, keyGenCGGI params skNTT m drawn = some key ∧
      IsKey params k psi z (indicator k params.gadget.Q m) E key := by
  apply encryptKey_spec h hz _ fun r _ => hdrawn r
  intro pair hpair
  cases m with
  | true =>
      rw [if_pos rfl] at hpair
      rw [<- Option.some.inj hpair]
      exact Nat.two_pow_pos k
  | false =>
      rw [if_neg Bool.false_ne_true] at hpair
      cases hpair

theorem keyGenAcc_spec {params : AccumulatorParams} {k psi g n mod E : Nat}
    (h : Consistent params k psi g) {sk : NativeVectorT} (hsk : Ternary n mod sk) {skNTT : Poly}
    {z : NegacyclicRing (2 ^ k) (ZMod params.gadget.Q)}
    (hz : Poly.StandsFor k params.gadget.Q psi z skNTT)
    {drawn : Nat -> Nat -> Nat -> Poly × Poly}
    (hdrawn : forall j i r, Drawn params k E (drawn j i r)) :
    exists ek, keyGenAcc params skNTT sk drawn = some ek ∧
      IsTernaryKey params k psi n E sk z ek := by
  have hgenerated := generateKeys_spec (n := 1) (m := 2) (l := sk.data.length)
    (fun _ j i => do
      let s <- sk.data[i]?
      let key <- keyGenCGGI params skNTT
        (if j = 0 then s = 1 else s = subFast sk.modulus 1) (drawn j i)
      return some key)
    (fun _ j i y => exists key, y = some key ∧ IsKey params k psi z
      (indicator k params.gadget.Q
        (if j = 0 then secretEntry sk i = 1 else secretEntry sk i = -1)) E key)
    ?_
  · rcases hgenerated with ⟨ek, hek, hkeys⟩
    refine ⟨ek, hek, fun i hi => ?_⟩
    rw [<- hsk.valid.residues.1] at hi
    rcases hkeys 0 Nat.one_pos 0 (by decide) i hi with ⟨ek1, hek1, hIsKey1⟩
    rcases hkeys 0 Nat.one_pos 1 (by decide) i hi with ⟨ek2, hek2, hIsKey2⟩
    exact ⟨ek1, ek2, hek1, hek2, hIsKey1, hIsKey2⟩
  · intro _ _ j _ i hi
    rw [hsk.valid.residues.1] at hi
    rcases hsk.valid.residues.exists_entry hi with ⟨s, hs, hlt⟩
    rcases hsk.entry_iff hs hlt with ⟨hone, hminus⟩
    have hbit : (if j = 0 then decide (s = 1) else decide (s = subFast sk.modulus 1)) =
        if j = 0 then decide (secretEntry sk i = 1) else decide (secretEntry sk i = -1) := by
      rw [decide_eq_decide.mpr hone, decide_eq_decide.mpr hminus]
    rcases keyGenCGGI_spec h hz
      (if j = 0 then decide (secretEntry sk i = 1) else decide (secretEntry sk i = -1))
      (fun r => hdrawn j i r) with ⟨key, hkey, hIsKey⟩
    refine ⟨some key, ?_, key, rfl, hIsKey⟩
    rw [hs]
    simp only [Option.bind_eq_bind, Option.bind_some]
    rw [hbit, hkey]
    rfl

/-! ## The rotation -/

theorem ternary_rotation {k q : Nat} {s : Int} (hs : s = 0 ∨ s = 1 ∨ s = -1) (c : Nat)
    (x : NegacyclicRing (2 ^ k) (ZMod q)) :
    x + (monomial (2 ^ k) (ZMod q) c - 1) * (indicator k q (s = 1) * x) +
        (monomial (2 ^ k) (ZMod q) (-c) - 1) * (indicator k q (s = -1) * x) =
      monomial (2 ^ k) (ZMod q) (c * s) * x := by
  rcases hs with rfl | rfl | rfl
  · have hone : decide ((0 : Int) = 1) = false := by decide
    have hminus : decide ((0 : Int) = -1) = false := by decide
    rw [hone, hminus, indicator_false, mul_zero, monomial_zero]
    ring
  · have hone : decide ((1 : Int) = 1) = true := by decide
    have hminus : decide ((1 : Int) = -1) = false := by decide
    rw [hone, hminus, indicator_false, indicator_true, mul_one]
    ring
  · have hone : decide ((-1 : Int) = 1) = false := by decide
    have hminus : decide ((-1 : Int) = -1) = true := by decide
    rw [hone, hminus, indicator_false, indicator_true, mul_neg_one]
    ring

theorem coordinateStep_spec {params : CGGIParams} {k psi g n mod q E Z : Nat}
    (h : CGGIConsistent params k psi g) (hq : q ∣ 2 * 2 ^ k) {sk : NativeVectorT}
    (hsk : Ternary n mod sk) {z : NegacyclicRing (2 ^ k) (ZMod params.ring.gadget.Q)}
    (hz : Small (2 ^ k) params.ring.gadget.Q Z z) {ek : RingGSWACCKey}
    (hek : IsTernaryKey params.ring k psi n E sk z ek) {a : NativeVectorT}
    (ha : NativeVectorT.Valid n q a) {i B : Nat} (hi : i < n)
    {x : NegacyclicRing (2 ^ k) (ZMod params.ring.gadget.Q)} {acc : RLWECiphertext}
    (hacc : HasPhaseWithin k params.ring.gadget.Q psi z B x acc) :
    exists acc', coordinateStep params ek a acc i = some acc' ∧
      HasPhaseWithin k params.ring.gadget.Q psi z (B + 4 * productBound params.ring k g E Z)
        (monomial (2 ^ k) (ZMod params.ring.gadget.Q) (-((2 * 2 ^ k / q : Nat) *
          ((a.data.getD i 0 : Nat) * secretEntry sk i))) * x) acc' := by
  rcases ha.residues.exists_entry hi with ⟨v, hv, hlt⟩
  have hentry : a.data.getD i 0 = v := by
    rw [List.getD_eq_getElem?_getD, hv, Option.getD_some]
  have hN : 2 ^ k <= 2 ^ 24 := Nat.pow_le_pow_right (by decide) h.ring.le
  have hle : q <= 2 * 2 ^ k := Nat.le_of_dvd (by positivity) hq
  have hcancel := (Nat.mul_div_cancel' hq).symm
  have hM : usint (2 * params.ring.gadget.N : Nat) = 2 * 2 ^ k := by
    rw [h.ring.dimension, usint_natCast, Nat.mod_eq_of_lt (by omega)]
  rcases negated_scaled hcancel (by omega) hlt with ⟨hneg, hmod⟩
  have hrate : 0 < 2 * 2 ^ k / q := Nat.div_pos hle (by omega)
  have hindex : modSubFast 0 v q * (2 * 2 ^ k / q) < 2 * 2 ^ k := by
    conv_rhs => rw [hcancel]
    exact Nat.mul_lt_mul_of_pos_right hneg hrate
  have hword : mulFast (modSubFast 0 v q) (2 * 2 ^ k / q) =
      modSubFast 0 v q * (2 * 2 ^ k / q) := by
    rw [mulFast, Nat.mul_comm]
    exact word_eq (lt_trans hindex (by simp only [maxBits]; omega))
  generalize modSubFast 0 v q * (2 * 2 ^ k / q) = c at hmod hindex hword
  rcases hek i hi with ⟨ek1, ek2, hek1, hek2, hIsKey1, hIsKey2⟩
  rcases hacc with ⟨noise, hnoise, hphase⟩
  rcases addToAccCGGI_spec h hz hIsKey1 (messageElement_contracts _ _ _) hIsKey2
    (messageElement_contracts _ _ _) hindex hphase with ⟨acc', added, hacc', hadded, hphase'⟩
  have hexponent : (c : Int) * secretEntry sk i ≡
      -((2 * 2 ^ k / q : Nat) * (v * secretEntry sk i)) [ZMOD (2 * 2 ^ k : Nat)] := by
    have hscaled := hmod.mul_right (secretEntry sk i)
    convert hscaled using 1
    ring
  refine ⟨acc', ?_, monomial (2 ^ k) (ZMod params.ring.gadget.Q) (c * secretEntry sk i) * noise +
    added, (hnoise.monomial_mul _).add hadded, ?_⟩
  · rw [coordinateStep, ha.modulus_eq, if_neg (by omega), hv, hek1, hek2]
    simp only [Option.bind_eq_bind, Option.bind_some]
    rw [hM, hword, hacc']
  · rw [ternary_rotation (hsk.entry i hi)] at hphase'
    rw [hentry, <- monomial_congr hexponent, <- add_assoc, <- mul_add]
    exact hphase'

theorem evalAcc_spec {params : CGGIParams} {k psi g n mod q E Z : Nat}
    (h : CGGIConsistent params k psi g) (hq : q ∣ 2 * 2 ^ k) {sk : NativeVectorT}
    (hsk : Ternary n mod sk) {z : NegacyclicRing (2 ^ k) (ZMod params.ring.gadget.Q)}
    (hz : Small (2 ^ k) params.ring.gadget.Q Z z) {ek : RingGSWACCKey}
    (hek : IsTernaryKey params.ring k psi n E sk z ek) {a : NativeVectorT}
    (ha : NativeVectorT.Valid n q a) {B : Nat}
    {x : NegacyclicRing (2 ^ k) (ZMod params.ring.gadget.Q)} {acc : RLWECiphertext}
    (hacc : HasPhaseWithin k params.ring.gadget.Q psi z B x acc) :
    exists acc', evalAcc params ek acc a = some acc' ∧
      HasPhaseWithin k params.ring.gadget.Q psi z (B + n * (4 * productBound params.ring k g E Z))
        (monomial (2 ^ k) (ZMod params.ring.gadget.Q)
          (-((2 * 2 ^ k / q : Nat) * maskSum n a sk)) * x) acc' := by
  rcases rotations_run (fun i hi acc' x' B' hacc' =>
    coordinateStep_spec h hq hsk hz hek ha hi hacc') hacc with ⟨acc', hrun, hphase⟩
  refine ⟨acc', ?_, hphase⟩
  rw [evalAcc, ha.residues.1]
  exact hrun

/-- Accumulation with generated keys rotates every phase by the product of mask and secret. -/
theorem ternaryRotation {params : CGGIParams} {k psi g n mod q E Z : Nat}
    (h : CGGIConsistent params k psi g) (hq : q ∣ 2 * 2 ^ k) {sk : NativeVectorT}
    (hsk : Ternary n mod sk) {skNTT : Poly}
    {z : NegacyclicRing (2 ^ k) (ZMod params.ring.gadget.Q)}
    (hz : Poly.StandsFor k params.ring.gadget.Q psi z skNTT)
    (hsmall : Small (2 ^ k) params.ring.gadget.Q Z z)
    {drawn : Nat -> Nat -> Nat -> Poly × Poly}
    (hdrawn : forall j i r, Drawn params.ring k E (drawn j i r)) :
    exists ek, keyGenAcc params.ring skNTT sk drawn = some ek ∧
      forall a acc x B, NativeVectorT.Valid n q a ->
        HasPhaseWithin k params.ring.gadget.Q psi z B x acc ->
        exists acc', evalAcc params ek acc a = some acc' ∧
          HasPhaseWithin k params.ring.gadget.Q psi z
            (B + n * (4 * productBound params.ring k g E Z))
            (monomial (2 ^ k) (ZMod params.ring.gadget.Q)
              (-((2 * 2 ^ k / q : Nat) * maskSum n a sk)) * x) acc' := by
  rcases keyGenAcc_spec h.ring hsk hz hdrawn with ⟨ek, hgen, hek⟩
  exact ⟨ek, hgen, fun a acc x B ha hacc => evalAcc_spec h hq hsk hsmall hek ha hacc⟩

def smallTable : CGGIParams where
  ring := smallRing
  monomials := (preComputeMonomials smallRing).getD []

theorem ternaryRotation_four :
    exists ek acc', keyGenAcc smallRing (Poly.zero 17 2 .EVALUATION)
        { modulus := 5, data := [1, 4] }
        (fun _ _ _ => (Poly.zero 17 2 .COEFFICIENT, Poly.zero 17 2 .COEFFICIENT)) = some ek ∧
      evalAcc smallTable ek (Poly.zero 17 2 .EVALUATION, Poly.zero 17 2 .EVALUATION)
        { modulus := 4, data := [1, 3] } = some acc' ∧
      HasPhaseWithin 1 17 (Poly.smallRoot 17) 0 (0 + 2 * (4 * productBound smallRing 1 1 3 0))
        (monomial (2 ^ 1) (ZMod 17) (-((2 * 2 ^ 1 / 4 : Nat) *
          maskSum 2 { modulus := 4, data := [1, 3] } { modulus := 5, data := [1, 4] })) *
            (0 - 0 * 0)) acc' := by
  have hsk : Ternary 2 5 { modulus := 5, data := [1, 4] } := by
    refine ⟨⟨rfl, rfl, by decide⟩, by decide, by decide, fun i hi => ?_⟩
    have hcases : i = 0 ∨ i = 1 := by omega
    rcases hcases with rfl | rfl <;> decide
  have htable : CGGIConsistent smallTable 1 (Poly.smallRoot 17) 1 := by
    refine ⟨smallRing_consistent, ?_⟩
    rcases preComputeMonomials_spec smallRing_consistent with ⟨monomials, hmonomials, _⟩
    rw [smallTable, hmonomials]
    rfl
  have hzero := Poly.zero_standsFor (k := 1) (q := 17) (by decide) (Poly.smallRoot 17)
  rcases ternaryRotation htable (q := 4) (by decide) hsk hzero (small_zero _ _ 0) (E := 3)
    (fun _ _ _ => drawn_zero (by decide) 3) with ⟨ek, hek, hrotates⟩
  rcases hrotates { modulus := 4, data := [1, 3] }
      (Poly.zero 17 2 .EVALUATION, Poly.zero 17 2 .EVALUATION) _ 0 ⟨rfl, rfl, by decide⟩
      (HasPhaseRing.within ⟨0, 0, hzero, hzero, rfl⟩ 0) with ⟨acc', hacc', hphase⟩
  exact ⟨ek, acc', hek, hacc', hphase⟩

end RingGSWAccumulatorCGGI

end BinFHE
end OpenFHE
