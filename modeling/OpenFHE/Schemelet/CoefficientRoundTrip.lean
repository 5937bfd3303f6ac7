import OpenFHE.Schemelet.RlweMp

/-!
# Round trip of the coefficient packing

Encryption writes the entries at multiples of a gap, and decryption reads them at multiples of the
same gap.  Noise below `Q / (4 * p)` in every coefficient is rounded away, whichever of the two
moduli is larger.
-/

namespace OpenFHE
namespace Schemelet

open Foundation Hal

/-! ## The message -/

/-- The numbers of slots with which decryption reads the positions that encryption wrote. -/
def MatchingSlots (ringDimension numSlots length : Nat) : Prop :=
  (numSlots = length ∧ 2 * length <= ringDimension) ∨
    (2 * numSlots = ringDimension ∧ length = ringDimension)

/-- Entries of type `int64_t` above `-p / 2` and up to `p / 2`. -/
def InputRange (p : Nat) (input : List Int) : Prop :=
  forall x, x ∈ input -> -2 ^ 63 <= x ∧ x < 2 ^ 63 ∧ -(p : Int) < 2 * x ∧ 2 * x <= p

theorem reorder_reorders (bitReverse halves : Bool) {k : Nat} (hk : k <= 31) {xs : List Int}
    (hlength : xs.length = 2 ^ k) (hhalves : halves = true -> 0 < k) :
    exists ys, Reorders (reorder bitReverse halves) xs ys := by
  cases bitReverse with
  | false => exact ⟨xs, rfl, rfl, rfl, fun y hy => hy⟩
  | true =>
      cases halves with
      | false =>
          rcases bitReverseVector_reorders (show k <= 32 by omega) hlength with ⟨ys, hys⟩
          exact ⟨ys, hys.forward, hys.back, hys.length_eq, hys.mem⟩
      | true =>
          have hpos := hhalves rfl
          have hsucc : k - 1 + 1 = k := by omega
          rw [← hsucc] at hlength
          rcases bitReverseTwoHalves_reorders (by omega) hlength with ⟨ys, hys⟩
          exact ⟨ys, hys.forward, hys.back, hys.length_eq, hys.mem⟩

theorem writeAt_spec {values : List Nat} {i : Nat} (hi : i < values.length) (x : Nat) :
    exists ws, writeAt values i x = some ws ∧ ws.length = values.length ∧ ws[i]? = some x ∧
      forall j, j ≠ i -> ws[j]? = values[j]? := by
  refine ⟨values.set i x, if_pos hi, List.length_set, List.getElem?_set_self hi, ?_⟩
  intro j hj
  exact List.getElem?_set_ne (Ne.symm hj)

section Writing

variable {n gap : Nat} {input : List Int} (modulus delta : Nat) (hgap : 0 < gap)
  (hfits : forall i, i < input.length -> i * gap < n)
  (htwice : 1 < gap -> forall i, i < input.length -> (i + input.length) * gap < n)

include hgap hfits htwice

theorem writeEntry_spec {t : Nat} (ht : t < input.length) {values : List Nat}
    (hlength : values.length = n) :
    exists ws, writeEntry modulus delta gap input.length input values t = some ws ∧
      ws.length = n ∧ ws[t * gap]? = some (scaledEntry modulus delta input[t]) ∧
      forall i, i < t -> ws[i * gap]? = values[i * gap]? := by
  have hx := List.getElem?_eq_getElem ht
  have hdistinct {i j : Nat} (hij : i < j) : i * gap ≠ j * gap := by
    have := Nat.mul_lt_mul_of_pos_right hij hgap
    omega
  have hfirst : t * gap < values.length := by
    rw [hlength]
    exact hfits t ht
  rcases writeAt_spec hfirst (scaledEntry modulus delta input[t]) with
    ⟨us, hus, huslen, hset, hother⟩
  unfold writeEntry
  simp only [hx, Option.bind_eq_bind, Option.bind_some, hus]
  by_cases hone : 1 < gap
  · have hsecond : (t + input.length) * gap < us.length := by
      rw [huslen, hlength]
      exact htwice hone t ht
    rcases writeAt_spec hsecond (scaledEntry modulus delta input[t]) with
      ⟨ws, hws, hwslen, _, hother'⟩
    refine ⟨ws, ?_, ?_, ?_, ?_⟩
    · rw [if_pos hone, hws]
    · rw [hwslen, huslen, hlength]
    · rw [hother' _ (hdistinct (by omega)), hset]
    · intro i hi
      rw [hother' _ (hdistinct (by omega)), hother _ (hdistinct hi)]
  · refine ⟨us, ?_, ?_, hset, ?_⟩
    · rw [if_neg hone]
    · rw [huslen, hlength]
    · intro i hi
      exact hother _ (hdistinct hi)

theorem writeEntries_spec :
    exists values, (List.range input.length).foldlM
        (writeEntry modulus delta gap input.length input) (List.replicate n 0) = some values ∧
      values.length = n ∧ forall (i : Nat) x, input[i]? = some x ->
        values[i * gap]? = some (scaledEntry modulus delta x) := by
  rcases foldlM_range_spec (n := input.length) (s := List.replicate n 0)
    (f := writeEntry modulus delta gap input.length input)
    (fun t values => values.length = n ∧ forall (i : Nat) x, i < t -> input[i]? = some x ->
      values[i * gap]? = some (scaledEntry modulus delta x))
    (by
      refine ⟨List.length_replicate, ?_⟩
      intro i x hi _
      omega)
    (by
      intro t ht values hvalues
      rcases writeEntry_spec modulus delta hgap hfits htwice ht hvalues.1 with
        ⟨ws, hws, hlength, hnew, hold⟩
      refine ⟨ws, hws, hlength, ?_⟩
      intro i x hi hx
      rcases Nat.lt_succ_iff_lt_or_eq.mp hi with hlt | heq
      · rw [hold i hlt]
        exact hvalues.2 i x hlt hx
      · subst heq
        rw [List.getElem?_eq_getElem ht] at hx
        cases hx
        exact hnew) with ⟨values, hvalues, hlength, hget⟩
  refine ⟨values, hvalues, hlength, ?_⟩
  intro i x hx
  exact hget i x (List.getElem?_eq_some_iff.mp hx).1 hx

end Writing

theorem scaledEntry_modEq {modulus : Nat} (delta : Nat) {x : Int} (hx : x.natAbs <= modulus)
    (hdelta : (modulus : Int) ∣ delta * modulus) :
    (scaledEntry modulus delta x : Int) ≡ delta * x [ZMOD modulus] := by
  unfold scaledEntry
  rcases lt_or_ge x 0 with hneg | hpos
  · rw [if_pos hneg]
    have hcast : ((delta * (modulus - x.natAbs) : Nat) : Int) = delta * modulus + delta * x := by
      have hsum : ((modulus - x.natAbs : Nat) : Int) = modulus + x := by omega
      rw [Nat.cast_mul, hsum, mul_add]
    rw [hcast]
    exact Int.modEq_iff_dvd.mpr (by
      have hdiff : (delta * x - (delta * modulus + delta * x) : Int) = -(delta * modulus) := by
        ring
      rw [hdiff]
      exact (dvd_neg).mpr hdelta)
  · rw [if_neg (by omega), Nat.cast_mul, Int.toNat_of_nonneg hpos]

/-- The quotient of encryption and the gap that decryption has as well. -/
structure Layout (n numSlots length quotient gap : Nat) : Prop where
  inputGap_eq : inputGap n length = some quotient
  gap_eq : (if quotient = 0 then 1 else quotient) = gap
  halves_eq : decide (quotient = 0) = decide (numSlots < length)
  full : quotient = 0 -> length = n
  pos : 0 < gap
  fits : forall i, i < length -> i * gap < n
  twice : 1 < gap -> forall i, i < length -> (i + length) * gap < n
  length_le : length <= n
  slots_pos : 2 * numSlots % 2 ^ 32 ≠ 0
  slots_eq : n / (2 * numSlots % 2 ^ 32) = gap

theorem layout_of_matchingSlots {n numSlots length : Nat} (hn : 0 < n) (hn32 : n < 2 ^ 32)
    (hlength : 0 < length) (hslots : MatchingSlots n numSlots length) :
    exists quotient gap, Layout n numSlots length quotient gap := by
  rcases hslots with ⟨hsame, hle⟩ | ⟨hhalf, hfull⟩
  · subst hsame
    have hpos : 0 < n / (2 * numSlots) := Nat.div_pos hle (by omega)
    have hbound : 2 * numSlots * (n / (2 * numSlots)) <= n := Nat.mul_div_le n _
    have hindex {i : Nat} (hi : i < 2 * numSlots) : i * (n / (2 * numSlots)) < n := by
      have := Nat.mul_lt_mul_of_pos_right hi hpos
      omega
    have hmod : 2 * numSlots % 2 ^ 32 = 2 * numSlots := Nat.mod_eq_of_lt (by omega)
    refine ⟨n / (2 * numSlots), n / (2 * numSlots), ?_⟩
    constructor
    case inputGap_eq => rw [inputGap, if_neg (by omega)]
    case gap_eq => exact if_neg (by omega)
    case halves_eq =>
      rw [decide_eq_false (show ¬n / (2 * numSlots) = 0 by omega),
        decide_eq_false (Nat.lt_irrefl _)]
    case full =>
      intro hzero
      omega
    case pos => exact hpos
    case fits =>
      intro i hi
      exact hindex (by omega)
    case twice =>
      intro _ i hi
      exact hindex (by omega)
    case length_le => omega
    case slots_pos =>
      rw [hmod]
      omega
    case slots_eq => rw [hmod]
  · subst hfull
    have hmod : 2 * numSlots % 2 ^ 32 = length := by
      rw [hhalf]
      exact Nat.mod_eq_of_lt hn32
    refine ⟨0, 1, ?_⟩
    constructor
    case inputGap_eq => rw [inputGap, if_neg (by omega), Nat.div_eq_of_lt (by omega)]
    case gap_eq => rfl
    case halves_eq => rw [decide_eq_true (rfl : 0 = 0), decide_eq_true (by omega)]
    case full =>
      intro _
      rfl
    case pos => exact Nat.one_pos
    case fits =>
      intro i hi
      omega
    case twice =>
      intro hone
      omega
    case length_le => exact Nat.le_refl _
    case slots_pos =>
      rw [hmod]
      omega
    case slots_eq => rw [hmod, Nat.div_self hn]

theorem messagePolynomial_spec {n numSlots quotient gap : Nat} {input ys : List Int}
    (hlayout : Layout n numSlots input.length quotient gap) {Q p : Nat} (hp : 0 < p)
    {bitReverse : Bool} (hys : Reorders (reorder bitReverse (quotient = 0)) input ys) :
    exists m, messagePolynomial n Q p input bitReverse = some m ∧ m.modulus = Q ∧
      m.values.length = n ∧ forall (i : Nat) x, ys[i]? = some x ->
        m.values[i * gap]? = some (scaledEntry Q (Q / p) x) := by
  have hlength := hys.length_eq
  have hlimit : (if ys.length < n then ys.length else n) = ys.length := by
    have := hlayout.length_le
    split <;> omega
  have hfits := hlayout.fits
  have htwice := hlayout.twice
  rw [← hlength] at hfits htwice
  rcases writeEntries_spec Q (Q / p) hlayout.pos hfits htwice with ⟨values, hvalues, hvlen, hget⟩
  refine ⟨{ modulus := Q, format := .COEFFICIENT, values := values }, ?_, rfl, hvlen, hget⟩
  unfold messagePolynomial
  rw [if_neg (by omega), hlayout.inputGap_eq]
  simp only [Option.bind_eq_bind, Option.bind_some, hys.forward, hlayout.gap_eq, hlimit, hvalues]
  rfl

/-! ## The output -/

theorem outputEntry_eq {p : Nat} {m : Poly} {idx v : Nat} {x : Int}
    (hv : m.values[idx]? = some v) (hvalue : (v : Int) = x % p) (hlow : -2 ^ 63 <= x)
    (hhigh : x < 2 ^ 63) (hleft : -(p : Int) < 2 * x) (hright : 2 * x <= p) :
    outputEntry p m idx = some x := by
  have hhalf : p >>> 1 = p / 2 := Nat.shiftRight_eq_div_pow p 1
  have hself : Int.bmod x (2 ^ 64) = x := Int.bmod_eq_of_le (by omega) (by omega)
  unfold outputEntry convertToInt
  simp only [hv, Option.bind_eq_bind, Option.bind_some, hhalf]
  rcases lt_or_ge x 0 with hneg | hpos
  · have hsum : (v : Int) = x + p := by
      rw [hvalue, ← Int.add_emod_right, Int.emod_eq_of_lt (by omega) (by omega)]
    have hdiff : ((p - v : Nat) : Int) = -x := by omega
    rw [if_pos (by omega), hdiff, Int.bmod_neg_bmod, Int.neg_neg, hself]
    rfl
  · have hsame : (v : Int) = x := by
      rcases Int.lt_or_eq_of_le (show x <= p by omega) with hlt | heq
      · rw [hvalue, Int.emod_eq_of_lt hpos hlt]
      · have hzero : x = 0 := by omega
        rw [hvalue, hzero, Int.zero_emod]
    rw [if_neg (by omega), hsame, hself]
    rfl

section Decryption

variable {cache : Poly.TableCache} {k : Nat} {psi : Nat -> Nat} {moduli full : List Nat}
  (hk : 0 < k) (hk31 : k <= 31) (hready : DCRTPoly.ReadyChain cache k psi moduli)
  (hcoprime : moduli.Pairwise Nat.Coprime) (hne : moduli ≠ []) (hlevel : moduli <+: full)
  {secret : DCRTPoly} (hsecret : DCRTPoly.WellFormed (2 ^ k) .EVALUATION full secret)

section Secret

include hready hne hlevel hsecret

theorem timesSecret_wellFormed {a : DCRTPoly}
    (ha : DCRTPoly.WellFormed (2 ^ k) .EVALUATION moduli a) :
    exists r, timesSecret a secret = some r ∧
      DCRTPoly.WellFormed (2 ^ k) .EVALUATION moduli r := by
  have hpos : 0 < moduli.length := List.length_pos_of_ne_nil hne
  have htake : full.take moduli.length = moduli := (List.prefix_iff_eq_take.mp hlevel).symm
  have hscopy := hsecret.take moduli.length
  rw [htake] at hscopy
  rcases DCRTPoly.times_denotes (fun q hq => (hready q hq).modulus) ha.denotes hscopy.denotes
    hpos with ⟨r, hr, hdenotes⟩
  refine ⟨r, ?_, hdenotes.wellFormed⟩
  unfold timesSecret
  rw [ha.length_eq, hsecret.length_eq,
    DCRTPoly.dropLastElements_eq hsecret hpos hlevel.length_le]
  exact hr

end Secret

include hk hk31 hready hcoprime hne hlevel hsecret

theorem encryptCoeff_sized {Q : Nat} (hQ : 0 < Q) {a e : DCRTPoly}
    (ha : DCRTPoly.WellFormed (2 ^ k) .EVALUATION moduli a)
    (he : DCRTPoly.WellFormed (2 ^ k) .EVALUATION moduli e) {p : Nat} {input : List Int}
    {bitReverse : Bool} {m : Poly}
    (hm : messagePolynomial (2 ^ k) Q p input bitReverse = some m) (hmodulus : m.modulus = Q)
    (hlength : m.values.length = 2 ^ k) :
    exists b' a', encryptCoeff cache (2 ^ k) a e secret input Q p bitReverse = some [b', a'] ∧
      Poly.Sized Q (2 ^ k) b' ∧ Poly.Sized Q (2 ^ k) a' := by
  rcases timesSecret_wellFormed hready hne hlevel hsecret ha with ⟨product, hproduct, hwf⟩
  rcases DCRTPoly.minus_denotes (fun q hq => (hready q hq).modulus) he.denotes hwf.denotes with
    ⟨b, hb, hdenotes⟩
  rcases switchToModulus_interpolate hk hk31 hready hcoprime hQ ha with
    ⟨ac, aPoly, a', hac, _, haPoly, ha', hasized⟩
  rcases switchToModulus_interpolate hk hk31 hready hcoprime hQ hdenotes.wellFormed with
    ⟨bc, bPoly, b', hbc, hbig, hbPoly, hb', hbsized⟩
  rcases Poly.plusEqLarge_sized hbsized hQ hmodulus hlength with ⟨sum, hsum, hsized⟩
  refine ⟨sum, a', ?_, hsized, hasized⟩
  unfold encryptCoeff
  simp only [hproduct, hb, hac, haPoly, hbc, hbPoly, hbig, hb', ha', hm, hsum,
    Option.bind_eq_bind, Option.bind_some]
  rfl

theorem decryptedPolynomial_sized {Q : Nat} (hQ : 0 < Q) {b a : Poly}
    (hb : Poly.Sized Q (2 ^ k) b) (ha : Poly.Sized Q (2 ^ k) a) :
    exists phase, decryptedPolynomial cache moduli (2 ^ k) secret [b, a] Q = some phase ∧
      Poly.Sized Q (2 ^ k) phase := by
  rcases modSwitch_wellFormed hk hk31 hready hQ hb with ⟨b', hb', hbwf⟩
  rcases modSwitch_wellFormed hk hk31 hready hQ ha with ⟨a', ha', hawf⟩
  rcases timesSecret_wellFormed hready hne hlevel hsecret hawf with ⟨product, hproduct, hwf⟩
  rcases DCRTPoly.plus_denotes (fun q hq => (hready q hq).modulus) hbwf.denotes hwf.denotes
    (List.length_pos_of_ne_nil hne) with ⟨m, hm, hdenotes⟩
  rcases switchToModulus_interpolate hk hk31 hready hcoprime hQ hdenotes.wellFormed with
    ⟨mc, mPoly, phase, hmc, _, hmPoly, hphase, hsized⟩
  refine ⟨phase, ?_, hsized⟩
  unfold decryptedPolynomial
  simp only [List.getElem?_cons_zero, List.getElem?_cons_succ, hb', ha', hproduct, hm, hmc,
    hmPoly, hphase, Option.bind_eq_bind, Option.bind_some]

end Decryption

/-- Every coefficient differs from the message by less than `Q / (4 * p)` modulo `Q`. -/
def NoiseBelow (Q p n : Nat) (phase message : Poly) : Prop :=
  forall r, r < n -> exists e : Int, (phase.value r : Int) ≡ message.value r + e [ZMOD Q] ∧
    4 * p * e.natAbs < Q

theorem decryptCoeff_of_noise {cache : Poly.TableCache} {moduli : List Nat} {n : Nat}
    {secret : DCRTPoly} {ct : List Poly} {Q p numSlots quotient gap : Nat} {input ys : List Int}
    {bitReverse : Bool} (hp : 0 < p) (hdvd : p ∣ Q) (hlarge : 4 * p <= Q)
    (hinput : InputRange p input) (hnonempty : input ≠ [])
    (hlayout : Layout n numSlots input.length quotient gap)
    (hys : Reorders (reorder bitReverse (quotient = 0)) input ys) {m phase : Poly}
    (hm : forall (i : Nat) x, ys[i]? = some x ->
      m.values[i * gap]? = some (scaledEntry Q (Q / p) x))
    (hphase : decryptedPolynomial cache moduli n secret ct Q = some phase)
    (hsized : Poly.Sized Q n phase) (hnoise : NoiseBelow Q p n phase m) :
    decryptCoeff cache moduli n secret ct Q p numSlots input.length bitReverse = some input := by
  have hQ : Q = p * (Q / p) := (Nat.mul_div_cancel' hdvd).symm
  have hQpos : 0 < Q := by omega
  rcases Poly.multiplyAndRound_spec hsized hQpos p hQpos with ⟨rounded, hrounded, hrsized, hround⟩
  rcases Poly.switchModulusLarge_spec hrsized hp with ⟨out, hout, _, _, _, hvalues⟩
  have hentry (i : Nat) (hi : i < ys.length) : outputEntry p out (i * gap) = ys[i]? := by
    have hx := List.getElem?_eq_getElem hi
    have hfit : i * gap < n := hlayout.fits i (by rw [← hys.length_eq]; exact hi)
    rcases hinput _ (hys.mem _ (List.getElem_mem hi)) with ⟨hlow, hhigh, hleft, hright⟩
    rcases hnoise _ hfit with ⟨e, hmodEq, he⟩
    have hmessage : m.value (i * gap) = scaledEntry Q (Q / p) ys[i] := by
      rw [Poly.value, List.getD_eq_getElem?_getD, hm i _ hx]
      rfl
    have hscaled : (scaledEntry Q (Q / p) ys[i] : Int) ≡ (Q / p : Nat) * ys[i] [ZMOD Q] :=
      scaledEntry_modEq _ (by omega) (dvd_mul_left _ _)
    rw [hmessage] at hmodEq
    rcases Poly.decode_entry hQ hp hlarge (hsized.value_at_le hfit) he
      (hmodEq.trans (hscaled.add_right e)) with ⟨w, hw, hdecoded⟩
    rw [hround _ hfit] at hw
    cases hw
    rw [hx]
    exact outputEntry_eq (hvalues _ hfit) hdecoded hlow hhigh hleft hright
  have houtput : ((List.range input.length).mapM fun i => outputEntry p out (i * gap)) =
      some ys := by
    rw [← hys.length_eq]
    exact mapM_range_eq_some hentry
  have hlength : (if input.length = 0 then numSlots else input.length) = input.length :=
    if_neg fun hzero => hnonempty (List.length_eq_zero_iff.mp hzero)
  have hhalves : decide (numSlots < input.length) = decide (quotient = 0) := hlayout.halves_eq.symm
  unfold decryptCoeff
  simp only [hphase, Option.bind_eq_bind, Option.bind_some, hsized.length_eq, hlayout.slots_eq,
    hrounded, hout, hlength, houtput, hhalves, hys.back]
  exact if_neg hlayout.slots_pos

/--
Encryption and decryption succeed, and with little noise the output is the input.  The modulus of
the chain may be on either side of `Q`.
-/
theorem decryptCoeff_encryptCoeff {cache : Poly.TableCache} {k : Nat} {psi : Nat -> Nat}
    {moduli full : List Nat} (hk : 0 < k) (hk31 : k <= 31)
    (hready : DCRTPoly.ReadyChain cache k psi moduli) (hcoprime : moduli.Pairwise Nat.Coprime)
    (hne : moduli ≠ []) (hlevel : moduli <+: full) {a e secret : DCRTPoly}
    (ha : DCRTPoly.WellFormed (2 ^ k) .EVALUATION moduli a)
    (he : DCRTPoly.WellFormed (2 ^ k) .EVALUATION moduli e)
    (hsecret : DCRTPoly.WellFormed (2 ^ k) .EVALUATION full secret) {p Q : Nat}
    (hp : exists i, p = 2 ^ i) (hQ : exists j, Q = 2 ^ j) (hlarge : 4 * p ^ 2 <= Q)
    {input : List Int} (hlength : input.length ∣ 2 ^ k) (hinput : InputRange p input)
    {numSlots : Nat} (hslots : MatchingSlots (2 ^ k) numSlots input.length) (bitReverse : Bool) :
    exists message ct phase,
      messagePolynomial (2 ^ k) Q p input bitReverse = some message ∧
      encryptCoeff cache (2 ^ k) a e secret input Q p bitReverse = some ct ∧
      decryptedPolynomial cache moduli (2 ^ k) secret ct Q = some phase ∧
      (NoiseBelow Q p (2 ^ k) phase message ->
        decryptCoeff cache moduli (2 ^ k) secret ct Q p numSlots input.length bitReverse =
          some input) := by
  rcases hp with ⟨i, rfl⟩
  rcases hQ with ⟨j, rfl⟩
  rcases (Nat.dvd_prime_pow Nat.prime_two).mp hlength with ⟨d, hdk, hd⟩
  have hppos := Nat.two_pow_pos i
  have hQpos := Nat.two_pow_pos j
  have hle : 4 * 2 ^ i <= 2 ^ j := by
    have := Nat.mul_le_mul_left (4 * 2 ^ i) hppos
    rw [Nat.mul_one, Nat.mul_assoc, ← pow_two] at this
    omega
  have hdvdQ : 2 ^ i ∣ 2 ^ j := by
    apply pow_dvd_pow
    exact (Nat.pow_le_pow_iff_right (by decide)).mp (show 2 ^ i <= 2 ^ j by omega)
  have hn32 : 2 ^ k < 2 ^ 32 := Nat.pow_lt_pow_right (by decide) (by omega)
  have hinputPos : 0 < input.length := by
    rw [hd]
    exact Nat.two_pow_pos d
  rcases layout_of_matchingSlots (Nat.two_pow_pos k) hn32 hinputPos hslots with
    ⟨quotient, gap, hlayout⟩
  rcases reorder_reorders bitReverse (quotient = 0) (show d <= 31 by omega) hd (by
    intro hhalves
    have hfull := hlayout.full (of_decide_eq_true hhalves)
    rw [hd] at hfull
    rw [Nat.pow_right_injective (Nat.le_refl 2) hfull]
    exact hk) with ⟨ys, hys⟩
  rcases messagePolynomial_spec hlayout hppos hys (Q := 2 ^ j) with
    ⟨message, hmessage, hmodulus, hmlength, hget⟩
  rcases encryptCoeff_sized hk hk31 hready hcoprime hne hlevel hsecret hQpos ha he hmessage
    hmodulus hmlength with ⟨b', a', hct, hb', ha'⟩
  rcases decryptedPolynomial_sized hk hk31 hready hcoprime hne hlevel hsecret hQpos hb' ha' with
    ⟨phase, hphase, hsized⟩
  refine ⟨message, [b', a'], phase, hmessage, hct, hphase, ?_⟩
  intro hnoise
  exact decryptCoeff_of_noise hppos hdvdQ hle hinput (List.ne_nil_of_length_pos hinputPos)
    hlayout hys hget hphase hsized hnoise

/-- Two entries by halves, with a chain above `Q`. -/
theorem decryptCoeff_encryptCoeff_small :
    exists ct, encryptCoeff Poly.smallCache 2 (DCRTPoly.constant [13, 17] [4, 9])
        (DCRTPoly.constant [13, 17] [1, 1]) (DCRTPoly.constant [13, 17, 5] [1, 1]) [-1, 2] 64 4
        true = some ct ∧
      decryptCoeff Poly.smallCache [13, 17] 2 (DCRTPoly.constant [13, 17, 5] [1, 1]) ct 64 4 1 2
        true = some [-1, 2] := by
  have hready : DCRTPoly.ReadyChain Poly.smallCache 1 Poly.smallRoot [13, 17] := by
    have hsmall : forall q, q ∈ [13, 17] -> q ∈ [5, 13, 17, 29, 1152921504606846869] := by decide
    intro q hq
    exact Poly.smallReady (hsmall q hq)
  have ha : DCRTPoly.WellFormed (2 ^ 1) .EVALUATION [13, 17] (DCRTPoly.constant [13, 17] [4, 9]) :=
    DCRTPoly.constant_wellFormed [4, 9] rfl (by decide)
  have he : DCRTPoly.WellFormed (2 ^ 1) .EVALUATION [13, 17] (DCRTPoly.constant [13, 17] [1, 1]) :=
    DCRTPoly.constant_wellFormed [1, 1] rfl (by decide)
  have hsecret : DCRTPoly.WellFormed (2 ^ 1) .EVALUATION [13, 17, 5]
      (DCRTPoly.constant [13, 17, 5] [1, 1]) :=
    DCRTPoly.constant_wellFormed [1, 1] rfl (by decide)
  have hinput : InputRange 4 [-1, 2] := by
    unfold InputRange
    decide
  have hslots : MatchingSlots (2 ^ 1) 1 [(-1 : Int), 2].length := Or.inr ⟨rfl, rfl⟩
  rcases decryptCoeff_encryptCoeff (Q := 64) (by decide) (by decide) hready (by decide) (by decide)
    (by decide) ha he hsecret ⟨2, rfl⟩ ⟨6, rfl⟩ (by decide) (by decide) hinput hslots true with
    ⟨message, ct, phase, hmessage, hct, hphase, hdecrypt⟩
  have hmessage' : message = ⟨64, .COEFFICIENT, [1008, 32]⟩ :=
    Option.some.inj (hmessage.symm.trans (by decide +kernel))
  have hct' : ct = [⟨64, .COEFFICIENT, [14, 34]⟩, ⟨64, .COEFFICIENT, [34, 62]⟩] :=
    Option.some.inj (hct.symm.trans (by decide +kernel))
  subst hct'
  have hphase' : phase = ⟨64, .COEFFICIENT, [48, 32]⟩ :=
    Option.some.inj (hphase.symm.trans (by decide +kernel))
  subst hmessage' hphase'
  refine ⟨_, hct, hdecrypt ?_⟩
  intro r hr
  refine ⟨0, ?_, by decide⟩
  interval_cases r <;> decide

end Schemelet
end OpenFHE
