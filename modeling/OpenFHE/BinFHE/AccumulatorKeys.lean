import OpenFHE.BinFHE.LWEEncryption
import OpenFHE.BinFHE.RingGSW

/-!
# Keys of the accumulators

The key generations encrypt a signed power of the variable, or zero.  The exponent is a message
that is reduced modulo `q` and scaled to the dimension of the ring.
-/

namespace OpenFHE
namespace BinFHE

open Core Foundation NativeInteger Hal NegacyclicRing

namespace RingGSWAccumulator

/-! ## Messages -/

/-- `isReducedMM` and the exponent below `N`. -/
def reducedMM (N mm : Nat) : Nat × Bool := if mm >= N then (mm - N, true) else (mm, false)

/-- Words without a sign: a negative message is converted first. -/
def exponentDM (N q : Nat) (m : Int) : Option Nat :=
  if q = 0 then none
  else some (mulFast (addFast (ofSigned m % q) q % q) (usint (2 * N : Nat) / q))

/-- Signed words, where the remainder takes the sign of the message. -/
def exponentLMKCDEY (N q : Nat) (m : Int) : Option Nat :=
  if q = 0 then none else some ((m.tmod q + q).tmod q * (2 * N / q : Nat)).toNat

noncomputable def messageElement (k q : Nat) :
    Option (Nat × Bool) -> NegacyclicRing (2 ^ k) (ZMod q)
  | none => 0
  | some (index, negative) =>
      if negative then -variableX (2 ^ k) (ZMod q) ^ index else variableX (2 ^ k) (ZMod q) ^ index

theorem messageElement_reducedMM {k q mm : Nat} (hmm : mm < 2 * 2 ^ k) :
    messageElement k q (some (reducedMM (2 ^ k) mm)) = variableX (2 ^ k) (ZMod q) ^ mm ∧
      (reducedMM (2 ^ k) mm).1 < 2 ^ k := by
  rw [reducedMM]
  split
  next hge =>
      have hsplit : mm = 2 ^ k + (mm - 2 ^ k) := by omega
      constructor
      · rw [messageElement, if_pos rfl]
        conv_rhs => rw [hsplit, pow_add, variableX_pow, neg_one_mul]
      · dsimp only
        omega
  next hlt =>
      exact ⟨by rw [messageElement, if_neg Bool.false_ne_true], by omega⟩

theorem messageElement_contracts (k q : Nat) (message : Option (Nat × Bool)) :
    Contracts (messageElement k q message) := by
  intro B x hx
  cases message with
  | none =>
      rw [messageElement, zero_mul]
      exact small_zero _ _ _
  | some pair =>
      rw [messageElement]
      split
      · rw [neg_mul]
        exact (hx.variableX_pow_mul _).neg
      · exact hx.variableX_pow_mul _

/-- A message modulo `q`, scaled to the order of the variable. -/
theorem exponent_scaled {q rate M : Nat} (hM : M = q * rate) (hpos : 0 < M) (m : Int) :
    (((m % (q : Int)).toNat * rate : Nat) : Int) ≡ rate * m [ZMOD M] ∧
      (m % (q : Int)).toNat * rate < M := by
  subst hM
  have hq : 0 < q := Nat.pos_of_mul_pos_right hpos
  have hrate : 0 < rate := Nat.pos_of_mul_pos_left hpos
  have hnonneg := Int.emod_nonneg m (show (q : Int) ≠ 0 by omega)
  have hlt := Int.emod_lt_of_pos m (show (0 : Int) < q by omega)
  constructor
  · apply Int.modEq_iff_dvd.mpr
    refine ⟨m / q, ?_⟩
    have hdiv := Int.emod_add_mul_ediv m q
    push_cast
    rw [Int.toNat_of_nonneg hnonneg]
    linear_combination (-rate : Int) * hdiv
  · exact Nat.mul_lt_mul_of_pos_right (by omega) hrate

theorem exponentDM_eq {k q : Nat} (hk : k <= 24) (hq : q ∣ 2 * 2 ^ k) (m : Int) :
    exponentDM (2 ^ k) q m = some ((m % (q : Int)).toNat * (2 * 2 ^ k / q)) := by
  have hN : 2 ^ k <= 2 ^ 24 := Nat.pow_le_pow_right (by decide) hk
  have hpos : 0 < q := Nat.pos_of_dvd_of_pos hq (by positivity)
  have hle : q <= 2 * 2 ^ k := Nat.le_of_dvd (by positivity) hq
  have hdvd : (q : Int) ∣ 2 ^ maxBits := by
    have hpow : 2 * 2 ^ k ∣ 2 ^ maxBits := by
      rw [<- pow_succ']
      exact pow_dvd_pow 2 (by simp only [maxBits]; omega)
    exact_mod_cast hq.trans hpow
  have hword : ofSigned m % q = (m % (q : Int)).toNat := by
    have hnonneg := Int.emod_nonneg m (show ((2 : Int) ^ maxBits) ≠ 0 by positivity)
    zify
    rw [ofSigned, Int.toNat_of_nonneg hnonneg, Int.emod_emod_of_dvd m hdvd,
      Int.toNat_of_nonneg (Int.emod_nonneg m (by omega))]
  have hlt : (m % (q : Int)).toNat < q := by
    have := Int.emod_lt_of_pos m (show (0 : Int) < q by omega)
    omega
  have hrate : 2 * 2 ^ k / q <= 2 * 2 ^ k := Nat.div_le_self _ _
  rw [exponentDM, if_neg hpos.ne', hword, addFast, word_eq (by simp only [maxBits]; omega),
    Nat.add_mod_left, Nat.mod_eq_of_lt hlt, usint_natCast, Nat.mod_eq_of_lt (by omega), mulFast,
    word_eq, Nat.mul_comm]
  calc
    2 * 2 ^ k / q * (m % (q : Int)).toNat <= (2 * 2 ^ 24) * (2 * 2 ^ 24) :=
      Nat.mul_le_mul (by omega) (by omega)
    _ < 2 ^ maxBits := by decide

theorem exponentLMKCDEY_eq {k q : Nat} (hq : q ∣ 2 * 2 ^ k) (m : Int) :
    exponentLMKCDEY (2 ^ k) q m = some ((m % (q : Int)).toNat * (2 * 2 ^ k / q)) := by
  have hpos : (0 : Int) < q := by
    exact_mod_cast Nat.pos_of_dvd_of_pos hq (by positivity)
  have hlow : 0 <= m.tmod q + q := by
    have := Int.lt_tmod_of_pos m hpos
    omega
  have hmod : (m.tmod q + q).tmod q = m % (q : Int) := by
    rw [Int.tmod_eq_emod_of_nonneg hlow, Int.add_emod_right]
    exact Int.modEq_iff_dvd.mpr Int.dvd_self_sub_tmod
  have hnonneg := Int.emod_nonneg m hpos.ne'
  rw [exponentLMKCDEY, if_neg (by omega), hmod]
  congr 1
  zify
  rw [Int.toNat_of_nonneg (by positivity), Int.toNat_of_nonneg hnonneg]

/-! ## Rows -/

/-- The drawn polynomials of a row: a uniform one, and one of size `E`. -/
structure Drawn (params : AccumulatorParams) (k E : Nat) (row : Poly × Poly) : Prop where
  uniform : Poly.WellFormed params.gadget.Q (2 ^ k) .COEFFICIENT row.1
  gaussian : exists e : Nat -> Int, (forall r, r < 2 ^ k -> |e r| <= E) ∧
    Poly.Denotes params.gadget.Q (2 ^ k) .COEFFICIENT (fun r => (e r : ZMod params.gadget.Q)) row.2

theorem powersG_lt {Q B : Nat} (hQ1 : 1 < Q) (hQ : Q < 2 ^ maxBits) (hB : B < 2 ^ maxBits)
    {count : Nat} : forall v x, v < Q -> x ∈ powersG Q B count v -> x < Q := by
  induction count with
  | zero =>
      intro v x _ hx
      exact absurd hx List.not_mem_nil
  | succ count ih =>
      intro v x hv hx
      rcases List.mem_cons.mp hx with rfl | htail
      · exact hv
      · apply ih _ x _ htail
        rw [modMulFastEq_eq (by omega) hQ (lt_trans hv hQ) hB]
        exact Nat.mod_lt _ (by omega)

theorem addAt_spec {Q n index power : Nat} (hQ : Q < 2 ^ 60) (negative : Bool)
    (hindex : index < n) (hpower : power < Q) {f : Nat -> ZMod Q} {a : Poly}
    (ha : Poly.Denotes Q n .COEFFICIENT f a) :
    exists b, addAt Q index negative power a = some b ∧
      Poly.Denotes Q n .COEFFICIENT (fun r => f r + if r = index then
        (if negative then -(power : ZMod Q) else (power : ZMod Q)) else 0) b := by
  rcases ha.holds.residues.exists_entry hindex with ⟨v, hv, _⟩
  have hrep := ha.holds.get index v hv
  let word := if negative then modSubFast v power Q else modAddFast v power Q
  refine ⟨{ a with values := a.values.set index word }, ?_, ha.modulus_eq, ha.format_eq, ?_, ?_⟩
  · rw [addAt, hv]
    rfl
  · rw [List.length_set]
    exact ha.holds.length_eq
  · intro r x hx
    have hlength : index < a.values.length := by
      rw [ha.holds.length_eq]
      exact hindex
    by_cases hr : r = index
    · subst hr
      rw [List.getElem?_set_self hlength] at hx
      cases hx
      rw [if_pos rfl]
      cases negative with
      | true =>
          have hsub := NativeVector.represents_sub_fast hQ hrep.1 hpower
          rw [hrep.2, sub_eq_add_neg] at hsub
          exact hsub
      | false =>
          have hadd := LWEEncryptionScheme.represents_addFast (lt_trans hQ (by decide)) hrep.1 hpower
          rw [hrep.2] at hadd
          exact hadd
    · rw [List.getElem?_set_ne (Ne.symm hr)] at hx
      rw [if_neg hr, add_zero]
      exact ha.holds.get r x hx

theorem addGadget_element {params : AccumulatorParams} {k : Nat}
    {f : Nat -> ZMod params.gadget.Q} {index power : Nat} {negative : Bool} (hindex : index < 2 ^ k) {i : Nat}
    (hgadget : gadgetElement params k i = constant (2 ^ k) (power : ZMod params.gadget.Q)) :
    element (2 ^ k) (fun r => f r + if r = index then
        (if negative then -(power : ZMod params.gadget.Q) else (power : ZMod params.gadget.Q))
        else 0) =
      element (2 ^ k) f + messageElement k params.gadget.Q (some (index, negative)) *
        gadgetElement params k i := by
  rw [element_add, element_single hindex, hgadget, messageElement]
  cases negative with
  | true =>
      rw [if_pos rfl, if_pos rfl, constant, constant, map_neg]
      ring
  | false =>
      rw [if_neg Bool.false_ne_true, if_neg Bool.false_ne_true]
      ring

section Rows

variable {params : AccumulatorParams} {k psi g : Nat} (h : Consistent params k psi g)

include h

theorem Consistent.power_getElem? {i : Nat} (hi : i + 1 < params.gadget.digitsG) :
    exists power, params.Gpower[i + 1]? = some power ∧ power < params.gadget.Q ∧
      gadgetElement params k i = constant (2 ^ k) (power : ZMod params.gadget.Q) := by
  have hQ1 := h.ready.modulus.one_lt
  have hQ : params.gadget.Q < 2 ^ maxBits := lt_trans h.modulus_lt (by decide)
  have hbase : params.gadget.baseG < 2 ^ maxBits := by
    rw [h.base]
    exact lt_trans (Nat.pow_lt_pow_right (by decide) h.bits_lt) (by decide)
  rcases powersG_getElem? hQ1 hQ hbase 1 (i + 1) hi (lt_trans hQ1 hQ) with ⟨power, hpower, _⟩
  refine ⟨power, hpower, powersG_lt hQ1 hQ hbase 1 power hQ1 (List.mem_of_getElem? hpower), ?_⟩
  rw [gadgetElement, AccumulatorParams.Gpower, List.getD_eq_getElem?_getD, hpower, Option.getD_some]

variable {skNTT : Poly} {z : NegacyclicRing (2 ^ k) (ZMod params.gadget.Q)}
  (hz : Poly.StandsFor k params.gadget.Q psi z skNTT) {message : Option (Nat × Bool)}
  (hmessage : forall pair, message = some pair -> pair.1 < 2 ^ k)

include hz hmessage

theorem keyRow_spec {E : Nat} {drawn : Nat -> Poly × Poly} {i : Nat}
    (hdrawn : Drawn params k E (drawn i)) (hi : i < params.digitsG2) :
    exists row, keyRow params skNTT message drawn i = some row ∧
      exists e, Small (2 ^ k) params.gadget.Q E e ∧
        HasPhaseRing k params.gadget.Q psi z
          (e + rowMessage params k z (messageElement k params.gadget.Q message) i) row := by
  have hi' : i / 2 + 1 < params.gadget.digitsG := by
    rw [h.digitsG2_eq] at hi
    omega
  rcases hdrawn.gaussian with ⟨e, he, hgaussian⟩
  -- The two elements of the row before they are transformed.
  have hrow : exists row f s, addGadget params message i (drawn i) = some row ∧
      Poly.Denotes params.gadget.Q (2 ^ k) .COEFFICIENT f row.1 ∧
      Poly.Denotes params.gadget.Q (2 ^ k) .COEFFICIENT s row.2 ∧
      element (2 ^ k) s - element (2 ^ k) f * z =
        element (2 ^ k) (fun r => (e r : ZMod params.gadget.Q)) +
          rowMessage params k z (messageElement k params.gadget.Q message) i -
          element (2 ^ k) (fun r => ((drawn i).1.value r : ZMod params.gadget.Q)) * z := by
    have hshift : i >>> 1 = i / 2 := Nat.shiftRight_one i
    cases message with
    | none =>
        refine ⟨drawn i, _, _, rfl, hdrawn.uniform.denotes, hgaussian, ?_⟩
        rw [rowMessage, messageElement]
        split <;> ring
    | some pair =>
        rcases h.power_getElem? hi' with ⟨power, hpower, hlt, hgadget⟩
        have hindex := hmessage pair rfl
        have hQ := h.ready.modulus.lt
        rw [addGadget, hshift, hpower]
        simp only [Option.bind_eq_bind, Option.bind_some, Nat.and_one_is_mod]
        rcases Nat.mod_two_eq_zero_or_one i with heven | hodd
        · rcases addAt_spec hQ pair.2 hindex hlt hdrawn.uniform.denotes with ⟨b, hb, hden⟩
          refine ⟨(b, (drawn i).2), _, _, ?_, hden, hgaussian, ?_⟩
          · rw [if_pos heven, hb]
            rfl
          · rw [addGadget_element hindex hgadget, rowMessage, if_pos heven]
            ring
        · rcases addAt_spec hQ pair.2 hindex hlt hgaussian with ⟨b, hb, hden⟩
          refine ⟨((drawn i).1, b), _, _, ?_, hdrawn.uniform.denotes, hden, ?_⟩
          · rw [if_neg (by omega), hb]
            rfl
          · rw [addGadget_element hindex hgadget, rowMessage, if_neg (by omega)]
  rcases hrow with ⟨row, f, s, hadd, hf, hs, hphase⟩
  rcases hdrawn.uniform.denotes.standsFor h.pos h.ready with ⟨tmp, htmp, htmpStands⟩
  rcases hf.standsFor h.pos h.ready with ⟨first, hfirst, hfirstStands⟩
  rcases hs.standsFor h.pos h.ready with ⟨second, hsecond, hsecondStands⟩
  rcases htmpStands.times h.ready.modulus hz h.ready.root with ⟨product, hproduct, hproductStands⟩
  rcases hsecondStands.plusEq h.ready.modulus hproductStands with ⟨sum, hsum, hsumStands⟩
  refine ⟨(first, sum), ?_, _, ⟨e, he, rfl⟩, _, _, hfirstStands, hsumStands, ?_⟩
  · rw [keyRow, htmp]
    simp only [Option.bind_eq_bind, Option.bind_some, hadd, hfirst, hsecond, hproduct, hsum]
    rfl
  · rw [add_sub_right_comm, hphase]
    ring

theorem encryptKey_spec {E : Nat} {drawn : Nat -> Poly × Poly}
    (hdrawn : forall i, i < params.digitsG2 -> Drawn params k E (drawn i)) :
    exists ek, encryptKey params skNTT message drawn = some ek ∧
      IsKey params k psi z (messageElement k params.gadget.Q message) E ek := by
  rcases mapM_range_spec (n := params.digitsG2) _
    (fun i hi => keyRow_spec h hz hmessage (hdrawn i hi) hi) with ⟨ek, hek, hlength, hrows⟩
  exact ⟨ek, hek, hlength, hrows⟩

omit hmessage in
theorem encryptReduced_spec {E mm : Nat} (hmm : mm < 2 * 2 ^ k) {drawn : Nat -> Poly × Poly}
    (hdrawn : forall i, i < params.digitsG2 -> Drawn params k E (drawn i)) :
    exists ek, encryptKey params skNTT (some (reducedMM (2 ^ k) mm)) drawn = some ek ∧
      IsKey params k psi z (monomial (2 ^ k) (ZMod params.gadget.Q) mm) E ek := by
  rcases messageElement_reducedMM (q := params.gadget.Q) hmm with ⟨helement, hindex⟩
  have hpair (pair : Nat × Bool) (heq : some (reducedMM (2 ^ k) mm) = some pair) :
      pair.1 < 2 ^ k :=
    Option.some.inj heq ▸ hindex
  rcases encryptKey_spec h hz hpair hdrawn with ⟨ek, hek, hIsKey⟩
  rw [helement, <- monomial_natCast] at hIsKey
  exact ⟨ek, hek, hIsKey⟩

end Rows

theorem drawn_zero {params : AccumulatorParams} {k : Nat} (hQ : 0 < params.gadget.Q) (E : Nat) :
    Drawn params k E (Poly.zero params.gadget.Q (2 ^ k) .COEFFICIENT,
      Poly.zero params.gadget.Q (2 ^ k) .COEFFICIENT) := by
  have hzero := Poly.zero_denotes hQ (2 ^ k) .COEFFICIENT
  refine ⟨hzero.wellFormed, fun _ => 0, fun r _ => ?_, hzero.congr fun r _ => ?_⟩
  · rw [abs_zero]
    exact Int.natCast_nonneg E
  · exact Int.cast_zero.symm

def smallRing : AccumulatorParams where
  gadget := { Q := 17, N := 2, baseG := 2, digitsG := 5 }
  q := 4
  cache := Poly.smallCache

theorem smallRing_consistent : Consistent smallRing 1 (Poly.smallRoot 17) 1 where
  pos := by decide
  le := by decide
  dimension := rfl
  ready := Poly.smallReady (by decide)
  bits_pos := by decide
  bits_lt := by decide
  base := rfl
  count := by decide +kernel
  two := by decide

/-! ## The refreshing key -/

/-- `RingGSWACCKeyImpl`: three dimensions of keys, some of which are never set. -/
abbrev RingGSWACCKey : Type := List (List (List (Option RingGSWEvalKey)))

/-- `(*ek)[i][j][k]`. -/
def keyAt (ek : RingGSWACCKey) (i j k : Nat) : Option RingGSWEvalKey := do
  let level <- ek[i]?
  let row <- level[j]?
  let key <- row[k]?
  key

def generateKeys (n m l : Nat) (key : Nat -> Nat -> Nat -> Option (Option RingGSWEvalKey)) :
    Option RingGSWACCKey :=
  (List.range n).mapM fun i => (List.range m).mapM fun j => (List.range l).mapM fun k => key i j k

theorem generateKeys_spec {n m l : Nat}
    (key : Nat -> Nat -> Nat -> Option (Option RingGSWEvalKey))
    (P : Nat -> Nat -> Nat -> Option RingGSWEvalKey -> Prop)
    (h : forall i, i < n -> forall j, j < m -> forall k, k < l ->
      exists y, key i j k = some y ∧ P i j k y) :
    exists ek, generateKeys n m l key = some ek ∧
      forall i, i < n -> forall j, j < m -> forall k, k < l -> P i j k (keyAt ek i j k) := by
  have hlevels := mapM_range_spec (n := n)
    (f := fun i => (List.range m).mapM fun j => (List.range l).mapM fun k => key i j k)
    (fun i level => forall j, j < m -> exists row, level[j]? = some row ∧
      forall k, k < l -> exists y, row[k]? = some y ∧ P i j k y) ?_
  · rcases hlevels with ⟨ek, hek, hlength, hget⟩
    refine ⟨ek, hek, fun i hi j hj k hk => ?_⟩
    have hlevel : ek[i]? = some ek[i] := List.getElem?_eq_getElem (by omega)
    rcases hget i _ hlevel j hj with ⟨row, hrow, hkeys⟩
    rcases hkeys k hk with ⟨y, hy, hP⟩
    rw [keyAt, hlevel]
    simp only [Option.bind_eq_bind, Option.bind_some, hrow, hy]
    exact hP
  · intro i hi
    have hrows := mapM_range_spec (n := m)
      (f := fun j => (List.range l).mapM fun k => key i j k)
      (fun j row => forall k, k < l -> exists y, row[k]? = some y ∧ P i j k y) ?_
    · rcases hrows with ⟨level, hlevel, hlength, hget⟩
      exact ⟨level, hlevel, fun j hj =>
        ⟨_, List.getElem?_eq_getElem (by omega), hget j _ (List.getElem?_eq_getElem (by omega))⟩⟩
    · intro j hj
      rcases mapM_range_spec (n := l) (P i j) (h i hi j hj) with ⟨row, hrow, hlength, hget⟩
      exact ⟨row, hrow, fun k hk =>
        ⟨_, List.getElem?_eq_getElem (by omega), hget k _ (List.getElem?_eq_getElem (by omega))⟩⟩

/-! ## Secrets in signed words -/

/-- A signed result; an overflow is undefined. -/
def checked32 (x : Int) : Option Int := if -2 ^ 31 <= x ∧ x < 2 ^ 31 then some x else none

/-- `s > modHalf ? s - mod : s`. -/
def centered32 (mod s : Nat) : Option Int :=
  if int32 s > int32 mod / 2 then checked32 (int32 s - int32 mod) else some (int32 s)

theorem checked32_eq {x : Int} (hlow : -2 ^ 31 <= x) (hhigh : x < 2 ^ 31) :
    checked32 x = some x := if_pos ⟨hlow, hhigh⟩

theorem checked32_of_natAbs {x : Int} (hx : x.natAbs < 2 ^ 31) : checked32 x = some x :=
  checked32_eq (by omega) (by omega)

theorem centered32_eq {mod s : Nat} (hmod : mod < 2 ^ 31) (hs : s < mod) :
    centered32 mod s = some (NativeVector.centered mod s) := by
  rw [centered32, int32_natCast hmod, int32_natCast (by omega), NativeVector.centered,
    Nat.shiftRight_one]
  by_cases hlarge : s > mod / 2
  · rw [if_pos (by omega), if_pos hlarge, checked32_eq (by omega) (by omega)]
  · rw [if_neg (by omega), if_neg hlarge]

def secretEntry (sk : NativeVectorT) (i : Nat) : Int :=
  NativeVector.centered sk.modulus (sk.data.getD i 0)

def maskSum (n : Nat) (a sk : NativeVectorT) : Int :=
  ∑ i ∈ Finset.range n, ((a.data.getD i 0 : Nat) : Int) * secretEntry sk i

/-! ## Rotations -/

theorem monomial_contracts (k q : Nat) (e : Int) :
    Contracts (monomial (2 ^ k) (ZMod q) e) :=
  fun _ _ hx => hx.monomial_mul e

theorem negated_modEq {q v : Nat} (hq : q < 2 ^ 60) (hv : v < q) :
    modSubFast 0 v q < q ∧ ((modSubFast 0 v q : Nat) : Int) ≡ -v [ZMOD q] := by
  have hneg := NativeVector.represents_sub_fast hq (by omega : 0 < q) hv
  refine ⟨hneg.1, ?_⟩
  rw [<- ZMod.intCast_eq_intCast_iff, Int.cast_natCast, hneg.2]
  push_cast
  ring

theorem negated_scaled {q rate M v : Nat} (hM : M = q * rate) (hq : q < 2 ^ 60) (hv : v < q) :
    modSubFast 0 v q < q ∧ (((modSubFast 0 v q : Nat) * rate : Nat) : Int) ≡ -(rate * v)
      [ZMOD M] := by
  rcases negated_modEq hq hv with ⟨hlt, hmod⟩
  refine ⟨hlt, ?_⟩
  rcases hmod.dvd with ⟨c, hc⟩
  apply Int.modEq_iff_dvd.mpr
  refine ⟨c, ?_⟩
  rw [hM]
  push_cast
  linear_combination (rate : Int) * hc

theorem rotations_run {k q psi n rate added B : Nat} {z x : NegacyclicRing (2 ^ k) (ZMod q)}
    {a sk : NativeVectorT} {step : RLWECiphertext -> Nat -> Option RLWECiphertext}
    (hstep : forall i, i < n -> forall acc x B, HasPhaseWithin k q psi z B x acc ->
      exists acc', step acc i = some acc' ∧ HasPhaseWithin k q psi z (B + added)
        (monomial (2 ^ k) (ZMod q) (-(rate * ((a.data.getD i 0 : Nat) * secretEntry sk i))) * x)
        acc')
    {acc : RLWECiphertext} (hacc : HasPhaseWithin k q psi z B x acc) :
    exists acc', (List.range n).foldlM step acc = some acc' ∧
      HasPhaseWithin k q psi z (B + n * added)
        (monomial (2 ^ k) (ZMod q) (-(rate * maskSum n a sk)) * x) acc' := by
  apply foldlM_range_spec (fun i acc' => HasPhaseWithin k q psi z (B + i * added)
    (monomial (2 ^ k) (ZMod q) (-(rate * maskSum i a sk)) * x) acc')
  · simpa [maskSum, monomial_zero] using hacc
  · intro i hi acc' hphase
    rcases hstep i hi acc' _ _ hphase with ⟨next, hnext, hphase'⟩
    refine ⟨next, hnext, ?_⟩
    rw [monomial_mul_monomial_mul] at hphase'
    rw [Nat.succ_mul, <- Nat.add_assoc, maskSum, Finset.sum_range_succ, mul_add, neg_add_rev]
    exact hphase'

end RingGSWAccumulator

end BinFHE
end OpenFHE
