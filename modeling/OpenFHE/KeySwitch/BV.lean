import OpenFHE.KeySwitch.Gadget
import OpenFHE.Hal.Decompose

/-!
# Brakerski-Vaikuntanathan key switching

`KeySwitchBV` has one key component for each window of each tower of the whole
chain.  A ciphertext at a lower level has fewer towers, and its digits use the
first components.
-/

namespace OpenFHE
namespace KeySwitch

open OpenFHE.Core Foundation Hal NativeInteger

structure BVParameters where
  ringDimension : Nat
  moduliQ : List Nat
  digitSize : Nat
  noiseScale : Nat
deriving DecidableEq, Repr

namespace BV

variable (cache : Poly.TableCache) (params : BVParameters)

/-- The `b` component whose gadget part is `power` in tower `i`. -/
def keyComponent (sNew a e : DCRTPoly) (i : Nat) (power : Poly) : Option DCRTPoly := do
  let b := (DCRTPoly.zero params.moduliQ params.ringDimension .EVALUATION).set i power
  let masked <- DCRTPoly.times a sNew
  let noise <- DCRTPoly.timesInteger e params.noiseScale
  let sum <- DCRTPoly.plus masked noise
  DCRTPoly.minusEq b sum

/-- The components of tower `i`, from position `start` on. -/
def towerComponents (sOld sNew : DCRTPoly) (a e : List DCRTPoly) (start i : Nat) :
    Option (List DCRTPoly) := do
  let soi <- sOld[i]?
  let sOldDecomposed <- Poly.powersOfBase soi params.digitSize
  (List.range sOldDecomposed.length).mapM fun k => do
    let power <- sOldDecomposed[k]?
    let ak <- a[start + k]?
    let ek <- e[start + k]?
    keyComponent params sNew ak ek i power

def keySwitchGenInternal (sOld sNew : DCRTPoly) (a e : List DCRTPoly) : Option EvalKey :=
  let sizeSOld := sOld.length
  if params.digitSize > 0 then do
    let arrWindows := rowStart (sOld.map fun t => ceilDiv (getMSB t.modulus) params.digitSize)
    let nWindows := arrWindows sizeSOld
    let bv <- (List.range sizeSOld).foldlM
      (placeRows arrWindows fun i => towerComponents params sOld sNew a e (arrWindows i) i)
      (List.replicate nWindows [])
    return { av := a, bv := bv }
  else do
    let bv <- (List.range sizeSOld).mapM fun i => do
      let soi <- sOld[i]?
      let ai <- a[i]?
      let ei <- e[i]?
      keyComponent params sNew ai ei i soi
    return { av := a, bv := bv }

/-- `format` is the format of all towers. -/
def evalKeySwitchPrecomputeCore (format : Format) (c : DCRTPoly) : Option (List DCRTPoly) :=
  DCRTPoly.crtDecompose cache format c params.digitSize

def keyProduct (digits : List DCRTPoly) (evalKey : EvalKey) (diffQl i : Nat) :
    Option (DCRTPoly × DCRTPoly) := do
  let bi <- evalKey.bv[i]?
  let ai <- evalKey.av[i]?
  let digit <- digits[i]?
  let bi <- DCRTPoly.dropLastElements bi diffQl
  let bi <- DCRTPoly.timesEq bi digit
  let ai <- DCRTPoly.dropLastElements ai diffQl
  let ai <- DCRTPoly.timesEq ai digit
  return (bi, ai)

def addProduct (products : List (DCRTPoly × DCRTPoly)) (res : DCRTPoly × DCRTPoly)
    (i : Nat) : Option (DCRTPoly × DCRTPoly) := do
  let product <- products[i + 1]?
  let res0 <- DCRTPoly.plusEq res.1 product.1
  let res1 <- DCRTPoly.plusEq res.2 product.2
  return (res0, res1)

def evalFastKeySwitchCore (digits : List DCRTPoly) (evalKey : EvalKey) (sizeQl : Nat) :
    Option (DCRTPoly × DCRTPoly) := do
  let first <- evalKey.bv[0]?
  let diffQl := first.length - sizeQl
  let limit := digits.length
  let products <- (List.range limit).mapM (keyProduct digits evalKey diffQl)
  let res <- products[0]?
  (List.range (limit - 1)).foldlM (addProduct products) res

/-!
## The gadget
-/

structure Setting (cache : Poly.TableCache) (params : BVParameters) (k : Nat)
    (psi : Nat -> Nat) : Prop where
  ringDimension : params.ringDimension = 2 ^ k
  pos : 0 < k
  le : k <= 31
  ready : DCRTPoly.ReadyChain cache k psi params.moduliQ

/-- The factor of the old secret in tower `i` of component `t`. -/
def gadget (t i : Nat) : Nat :=
  if arrWindows params.digitSize params.moduliQ i <= t ∧
      t < arrWindows params.digitSize params.moduliQ (i + 1)
  then 2 ^ ((t - arrWindows params.digitSize params.moduliQ i) * params.digitSize)
  else 0

variable {cache params}

theorem gadget_eq {i q j : Nat} (hq : params.moduliQ[i]? = some q)
    (hj : j < windows params.digitSize q) (i' : Nat) :
    gadget params (arrWindows params.digitSize params.moduliQ i + j) i' =
      if i' = i then 2 ^ (j * params.digitSize) else 0 := by
  have hsucc := arrWindows_succ params.digitSize hq
  unfold gadget
  split
  next hin =>
      rcases Nat.lt_trichotomy i' i with hlt | heq | hgt
      · have hmono := rowStart_mono (params.moduliQ.map (windows params.digitSize))
          (Nat.succ_le_of_lt hlt)
        unfold arrWindows at hin hsucc
        rw [Nat.succ_eq_add_one] at hmono
        omega
      · rw [if_pos heq, heq, Nat.add_sub_cancel_left]
      · have hmono := rowStart_mono (params.moduliQ.map (windows params.digitSize))
          (Nat.succ_le_of_lt hgt)
        unfold arrWindows at hin hsucc
        rw [Nat.succ_eq_add_one] at hmono
        omega
  next hout =>
      rw [if_neg]
      intro heq
      rw [heq] at hout
      omega

/--
The evaluation key relates the secrets: in every tower of the chain its components
satisfy `b + a * sNew = g * sOld + ns * e`.
-/
structure KeyEquation (params : BVParameters) (k : Nat) (sNew sOld : DCRTPoly)
    (noise : Nat -> Nat -> Nat -> Int) (evalKey : EvalKey) : Prop where
  wellFormed : forall t, t < arrWindows params.digitSize params.moduliQ params.moduliQ.length ->
    exists b a, evalKey.bv[t]? = some b ∧ evalKey.av[t]? = some a ∧
      DCRTPoly.WellFormed (2 ^ k) .EVALUATION params.moduliQ b ∧
      DCRTPoly.WellFormed (2 ^ k) .EVALUATION params.moduliQ a
  equation : forall t, t < arrWindows params.digitSize params.moduliQ params.moduliQ.length ->
    forall i q, params.moduliQ[i]? = some q -> forall r, r < 2 ^ k ->
      (DCRTPoly.value (evalKey.bv.getD t []) i r : ZMod q) +
          DCRTPoly.value (evalKey.av.getD t []) i r * DCRTPoly.value sNew i r =
        gadget params t i * DCRTPoly.value sOld i r + params.noiseScale * noise t i r

/-!
## Products with the key
-/

/-- Well-formed towers that hold the sums of the first `c` products with the key. -/
structure Summed (params : BVParameters) (k l : Nat) (digits key : List DCRTPoly)
    (c : Nat) (element : DCRTPoly) : Prop where
  wellFormed : DCRTPoly.WellFormed (2 ^ k) .EVALUATION (params.moduliQ.take (l + 1)) element
  value_eq : forall i q, (params.moduliQ.take (l + 1))[i]? = some q -> forall r, r < 2 ^ k ->
    (DCRTPoly.value element i r : ZMod q) = ∑ t ∈ Finset.range c,
      (DCRTPoly.value (digits.getD t []) i r : ZMod q) *
        DCRTPoly.value (key.getD t []) i r

section Products

variable {k l : Nat} {psi : Nat -> Nat} (h : Setting cache params k psi)
  (hl : l < params.moduliQ.length) {digits : List DCRTPoly}
  (hdigits : forall (t : Nat) d, digits[t]? = some d ->
    DCRTPoly.WellFormed (2 ^ k) .EVALUATION (params.moduliQ.take (l + 1)) d)

include h

theorem Setting.modulus {q : Nat} (hq : q ∈ params.moduliQ.take (l + 1)) :
    Poly.NttModulus q :=
  (h.ready q (List.mem_of_mem_take hq)).modulus

include hl hdigits

theorem keyFactor_spec {digit key : DCRTPoly} {t : Nat} (hdigit : digits[t]? = some digit)
    (hkey : DCRTPoly.WellFormed (2 ^ k) .EVALUATION params.moduliQ key) :
    exists dropped product,
      DCRTPoly.dropLastElements key (params.moduliQ.length - (l + 1)) = some dropped ∧
      DCRTPoly.timesEq dropped digit = some product ∧
      DCRTPoly.WellFormed (2 ^ k) .EVALUATION (params.moduliQ.take (l + 1)) product ∧
      forall i q, (params.moduliQ.take (l + 1))[i]? = some q -> forall r, r < 2 ^ k ->
        (DCRTPoly.value product i r : ZMod q) =
          DCRTPoly.value digit i r * DCRTPoly.value key i r := by
  have hdrop := DCRTPoly.dropLastElements_eq hkey (Nat.succ_pos l) hl
  rcases DCRTPoly.timesEq_spec (fun q hq => h.modulus hq) (hkey.take (l + 1))
    (hdigits t digit hdigit) with ⟨product, hproduct, hwf, hvalue⟩
  refine ⟨key.take (l + 1), product, hdrop, hproduct, hwf, ?_⟩
  intro i q hq r hr
  have hi : i < l + 1 := by
    have hlt := (List.getElem?_eq_some_iff.mp hq).1
    rw [List.length_take] at hlt
    omega
  rw [hvalue i q hq r hr, DCRTPoly.value_take key hi, mul_comm]

omit hl hdigits in
theorem Summed.step {key : List DCRTPoly} {c : Nat} {element product kc digit : DCRTPoly}
    (helement : Summed params k l digits key c element) (hdigit : digits[c]? = some digit)
    (hkc : key[c]? = some kc)
    (hproduct : DCRTPoly.WellFormed (2 ^ k) .EVALUATION (params.moduliQ.take (l + 1)) product)
    (hvalue : forall i q, (params.moduliQ.take (l + 1))[i]? = some q -> forall r, r < 2 ^ k ->
      (DCRTPoly.value product i r : ZMod q) =
        DCRTPoly.value digit i r * DCRTPoly.value kc i r) :
    exists result, DCRTPoly.plusEq element product = some result ∧
      Summed params k l digits key (c + 1) result := by
  rcases DCRTPoly.plusEq_spec (fun q hq => h.modulus hq) helement.wellFormed hproduct with
    ⟨result, hresult, hwf, hsum⟩
  refine ⟨result, hresult, hwf, ?_⟩
  intro i q hq r hr
  rw [hsum i q hq r hr, helement.value_eq i q hq r hr, hvalue i q hq r hr,
    Finset.sum_range_succ, List.getD_eq_getElem?_getD, List.getD_eq_getElem?_getD, hdigit,
    hkc]
  rfl

theorem evalFastKeySwitchCore_spec {evalKey : EvalKey} (hne : 0 < digits.length)
    (hkey : forall t, t < digits.length -> exists b a, evalKey.bv[t]? = some b ∧
      evalKey.av[t]? = some a ∧ DCRTPoly.WellFormed (2 ^ k) .EVALUATION params.moduliQ b ∧
      DCRTPoly.WellFormed (2 ^ k) .EVALUATION params.moduliQ a) :
    exists u0 u1, evalFastKeySwitchCore digits evalKey (l + 1) = some (u0, u1) ∧
      Summed params k l digits evalKey.bv digits.length u0 ∧
      Summed params k l digits evalKey.av digits.length u1 := by
  rcases hkey 0 hne with ⟨b0, a0, hb0, ha0, hb0_wf, ha0_wf⟩
  unfold evalFastKeySwitchCore
  rw [hb0]
  simp only [Option.bind_eq_bind, Option.bind_some]
  rw [hb0_wf.length_eq]
  rcases mapM_range_spec (n := digits.length)
    (f := keyProduct digits evalKey (params.moduliQ.length - (l + 1)))
    (fun t p => forall digit b a, digits[t]? = some digit -> evalKey.bv[t]? = some b ->
      evalKey.av[t]? = some a ->
      (DCRTPoly.WellFormed (2 ^ k) .EVALUATION (params.moduliQ.take (l + 1)) p.1 ∧
        forall i q, (params.moduliQ.take (l + 1))[i]? = some q -> forall r, r < 2 ^ k ->
          (DCRTPoly.value p.1 i r : ZMod q) =
            DCRTPoly.value digit i r * DCRTPoly.value b i r) ∧
      DCRTPoly.WellFormed (2 ^ k) .EVALUATION (params.moduliQ.take (l + 1)) p.2 ∧
        forall i q, (params.moduliQ.take (l + 1))[i]? = some q -> forall r, r < 2 ^ k ->
          (DCRTPoly.value p.2 i r : ZMod q) =
            DCRTPoly.value digit i r * DCRTPoly.value a i r)
    (by
      intro t ht
      have hdigit := List.getElem?_eq_getElem ht
      rcases hkey t ht with ⟨b, a, hb, ha, hb_wf, ha_wf⟩
      rcases keyFactor_spec h hl hdigits hdigit hb_wf with
        ⟨db, pb, hdb, hpb, hpb_wf, hpb_value⟩
      rcases keyFactor_spec h hl hdigits hdigit ha_wf with
        ⟨da, pa, hda, hpa, hpa_wf, hpa_value⟩
      refine ⟨(pb, pa), ?_, ?_⟩
      · unfold keyProduct
        rw [hb, ha, hdigit]
        simp only [Option.bind_eq_bind, Option.bind_some]
        rw [hdb, Option.bind_some, hpb, Option.bind_some, hda, Option.bind_some, hpa]
        rfl
      · intro digit' b' a' hdigit' hb' ha'
        rw [hdigit] at hdigit'
        rw [hb] at hb'
        rw [ha] at ha'
        rw [← Option.some.inj hdigit', ← Option.some.inj hb', ← Option.some.inj ha']
        exact ⟨⟨hpb_wf, hpb_value⟩, hpa_wf, hpa_value⟩) with
    ⟨products, hproducts, hlength, hget⟩
  rw [hproducts]
  simp only [Option.bind_some]
  have hfirst := List.getElem?_eq_getElem (show 0 < products.length by omega)
  have hdigit0 := List.getElem?_eq_getElem hne
  rcases hget 0 _ hfirst _ b0 a0 hdigit0 hb0 ha0 with ⟨⟨hb_wf, hb_value⟩, ha_wf, ha_value⟩
  rw [hfirst]
  simp only [Option.bind_some]
  have hone : forall (key : List DCRTPoly) kc p, key[0]? = some kc ->
      DCRTPoly.WellFormed (2 ^ k) .EVALUATION (params.moduliQ.take (l + 1)) p ->
      (forall i q, (params.moduliQ.take (l + 1))[i]? = some q -> forall r, r < 2 ^ k ->
        (DCRTPoly.value p i r : ZMod q) =
          DCRTPoly.value digits[0] i r * DCRTPoly.value kc i r) ->
      Summed params k l digits key 1 p := by
    intro key kc p hkc hwf hvalue
    refine ⟨hwf, ?_⟩
    intro i q hq r hr
    rw [hvalue i q hq r hr, Finset.sum_range_one, List.getD_eq_getElem?_getD,
      List.getD_eq_getElem?_getD, hdigit0, hkc]
    rfl
  rcases foldlM_range_spec (n := digits.length - 1) (s := products[0])
    (f := addProduct products)
    (fun c (res : DCRTPoly × DCRTPoly) =>
      Summed params k l digits evalKey.bv (c + 1) res.1 ∧
      Summed params k l digits evalKey.av (c + 1) res.2)
    ⟨hone _ b0 _ hb0 hb_wf hb_value, hone _ a0 _ ha0 ha_wf ha_value⟩
    (by
      intro c hc res ⟨hb, ha⟩
      have hproduct := List.getElem?_eq_getElem (show c + 1 < products.length by omega)
      have hdigit := List.getElem?_eq_getElem (show c + 1 < digits.length by omega)
      rcases hkey (c + 1) (by omega) with ⟨b, a, hbc, hac, _, _⟩
      rcases hget (c + 1) _ hproduct _ b a hdigit hbc hac with
        ⟨⟨hpb_wf, hpb_value⟩, hpa_wf, hpa_value⟩
      rcases hb.step h hdigit hbc hpb_wf hpb_value with ⟨res0, hres0, hstep0⟩
      rcases ha.step h hdigit hac hpa_wf hpa_value with ⟨res1, hres1, hstep1⟩
      refine ⟨(res0, res1), ?_, hstep0, hstep1⟩
      unfold addProduct
      rw [hproduct]
      simp only [Option.bind_eq_bind, Option.bind_some]
      rw [hres0, Option.bind_some, hres1]
      rfl) with ⟨⟨u0, u1⟩, hrun, hu0, hu1⟩
  rw [Nat.sub_add_cancel hne] at hu0 hu1
  exact ⟨u0, u1, hrun, hu0, hu1⟩

end Products

/-!
## Key generation
-/

theorem ceilDiv_eq_windows {baseBits : Nat} (hr : 0 < baseBits) (modulus : Nat) :
    ceilDiv (getMSB modulus) baseBits = windows baseBits modulus := by
  have hdivmod := Nat.div_add_mod' (getMSB modulus) baseBits
  have hmod := Nat.mod_lt (getMSB modulus) hr
  unfold ceilDiv windows getLengthForBase
  dsimp only
  split
  next hrest =>
      refine Nat.div_eq_of_lt_le ?_ ?_
      · rw [add_mul, one_mul]
        omega
      · rw [add_mul, add_mul, one_mul]
        omega
  next hexact =>
      rw [add_zero]
      refine Nat.div_eq_of_lt_le ?_ ?_
      · omega
      · rw [add_mul, one_mul]
        omega

theorem arrWindows_zero {moduli : List Nat} (hmoduli : forall q, q ∈ moduli -> 1 < q) {i : Nat}
    (hi : i <= moduli.length) : arrWindows 0 moduli i = i := by
  induction i with
  | zero => rfl
  | succ i ih =>
      have hq := List.getElem?_eq_getElem (show i < moduli.length by omega)
      rw [arrWindows_succ 0 hq, ih (by omega),
        windows_zero (hmoduli _ (List.mem_of_getElem? hq))]

/-- Component `t` satisfies the key equation with the negated sample as noise. -/
structure ComponentOf (params : BVParameters) (k : Nat) (sNew sOld : DCRTPoly)
    (a e : List DCRTPoly) (t : Nat) (b : DCRTPoly) : Prop where
  wellFormed : DCRTPoly.WellFormed (2 ^ k) .EVALUATION params.moduliQ b
  equation : forall m q, params.moduliQ[m]? = some q -> forall r, r < 2 ^ k ->
    (DCRTPoly.value b m r : ZMod q) +
        DCRTPoly.value (a.getD t []) m r * DCRTPoly.value sNew m r =
      gadget params t m * DCRTPoly.value sOld m r +
        params.noiseScale * (-(DCRTPoly.value (e.getD t []) m r : Int) : Int)

section KeyGeneration

variable {k : Nat} {psi : Nat -> Nat} (h : Setting cache params k psi) {sNew sOld : DCRTPoly}
  (hsNew : DCRTPoly.WellFormed (2 ^ k) .EVALUATION params.moduliQ sNew)
  (hsOld : DCRTPoly.WellFormed (2 ^ k) .EVALUATION params.moduliQ sOld)
  {a e : List DCRTPoly}
  (ha : forall t, t < arrWindows params.digitSize params.moduliQ params.moduliQ.length ->
    exists a', a[t]? = some a' ∧
      DCRTPoly.WellFormed (2 ^ k) .EVALUATION params.moduliQ a')
  (he : forall t, t < arrWindows params.digitSize params.moduliQ params.moduliQ.length ->
    exists et, e[t]? = some et ∧
      DCRTPoly.WellFormed (2 ^ k) .EVALUATION params.moduliQ et)

include h hsNew ha he

theorem keyComponent_spec {i q j : Nat} (hq : params.moduliQ[i]? = some q)
    (hj : j < windows params.digitSize q) {power : Poly}
    (hpower : Poly.Denotes q (2 ^ k) .EVALUATION
      (fun r => (DCRTPoly.value sOld i r : ZMod q) * 2 ^ (j * params.digitSize)) power) :
    exists aj ej b,
      a[arrWindows params.digitSize params.moduliQ i + j]? = some aj ∧
      e[arrWindows params.digitSize params.moduliQ i + j]? = some ej ∧
      keyComponent params sNew aj ej i power = some b ∧
      ComponentOf params k sNew sOld a e
        (arrWindows params.digitSize params.moduliQ i + j) b := by
  have hmoduli : forall q, q ∈ params.moduliQ -> Poly.NttModulus q :=
    fun q hq => (h.ready q hq).modulus
  have hi := (List.getElem?_eq_some_iff.mp hq).1
  have hposition : arrWindows params.digitSize params.moduliQ i + j <
      arrWindows params.digitSize params.moduliQ params.moduliQ.length := by
    have hsucc := arrWindows_succ params.digitSize hq
    have hmono := rowStart_mono (params.moduliQ.map (windows params.digitSize))
      (Nat.succ_le_of_lt hi)
    unfold arrWindows at hsucc ⊢
    rw [Nat.succ_eq_add_one] at hmono
    omega
  rcases ha _ hposition with ⟨aj, haj, haj_wf⟩
  rcases he _ hposition with ⟨ej, hej, hej_wf⟩
  have hpos : 0 < params.moduliQ.length := by omega
  rcases DCRTPoly.times_spec hmoduli haj_wf hsNew hpos with
    ⟨masked, hmasked, hmasked_wf, hmasked_value⟩
  rcases DCRTPoly.timesInteger_spec hmoduli hej_wf params.noiseScale with
    ⟨noise, hnoise, hnoise_wf, hnoise_value⟩
  rcases DCRTPoly.plus_spec hmoduli hmasked_wf hnoise_wf hpos with
    ⟨sum, hsum, hsum_wf, hsum_value⟩
  rcases DCRTPoly.zero_set_spec (fun q hq => by have := (hmoduli q hq).one_lt; omega) hq
    hpower with ⟨hgadget_wf, hown, hother⟩
  rcases DCRTPoly.minusEq_spec hmoduli hgadget_wf hsum_wf with ⟨b, hb, hb_wf, hb_value⟩
  refine ⟨aj, ej, b, haj, hej, ?_, hb_wf, ?_⟩
  · unfold keyComponent
    simp only [Option.bind_eq_bind]
    rw [hmasked, Option.bind_some, hnoise, Option.bind_some, hsum, Option.bind_some,
      h.ringDimension, hb]
  · intro m q' hq' r hr
    have hgadget := gadget_eq hq hj m
    rw [hb_value m q' hq' r hr, hsum_value m q' hq' r hr, hmasked_value m q' hq' r hr,
      hnoise_value m q' hq' r hr, List.getD_eq_getElem?_getD, List.getD_eq_getElem?_getD,
      haj, hej, Option.getD_some, Option.getD_some, hgadget]
    by_cases hmi : m = i
    · rw [hmi, hq] at hq'
      cases hq'
      rw [hmi, hown r hr, if_pos rfl]
      push_cast
      ring
    · rw [hother m q' hq' hmi r hr, if_neg hmi]
      push_cast
      ring

include hsOld

theorem towerComponents_spec (hr : 0 < params.digitSize) {i q : Nat}
    (hq : params.moduliQ[i]? = some q) :
    exists row, towerComponents params sOld sNew a e
        (arrWindows params.digitSize params.moduliQ i) i = some row ∧
      row.length = windows params.digitSize q ∧
      forall j b, row[j]? = some b -> ComponentOf params k sNew sOld a e
        (arrWindows params.digitSize params.moduliQ i + j) b := by
  have hmodulus := (h.ready q (List.mem_of_getElem? hq)).modulus
  rcases hsOld.exists_tower hq with ⟨soi, hsoi, hsoi_wf⟩
  rcases Poly.powersOfBase_spec hmodulus hsoi_wf hr with ⟨powers, hpowers, hlength, hget⟩
  unfold towerComponents
  rw [hsoi]
  simp only [Option.bind_eq_bind, Option.bind_some]
  rw [hpowers]
  simp only [Option.bind_some]
  rw [hlength]
  refine mapM_range_spec _ fun j hj => ?_
  have hpower := List.getElem?_eq_getElem (show j < powers.length by omega)
  have hdenotes := hget j _ hpower
  simp only [← DCRTPoly.value_eq hsoi] at hdenotes
  rcases keyComponent_spec h hsNew ha he hq hj hdenotes with ⟨aj, ej, b, haj, hej, hb, hspec⟩
  refine ⟨b, ?_, hspec⟩
  rw [hpower, haj, hej]
  exact hb

theorem keySwitchGenInternal_keyEquation :
    exists evalKey, keySwitchGenInternal params sOld sNew a e = some evalKey ∧
      KeyEquation params k sNew sOld
        (fun t i r => -(DCRTPoly.value (e.getD t []) i r : Int)) evalKey := by
  have hkey : forall bv : List DCRTPoly,
      (forall t, t < arrWindows params.digitSize params.moduliQ params.moduliQ.length ->
        exists b, bv[t]? = some b ∧ ComponentOf params k sNew sOld a e t b) ->
      KeyEquation params k sNew sOld
        (fun t i r => -(DCRTPoly.value (e.getD t []) i r : Int)) { av := a, bv := bv } := by
    intro bv hbv
    constructor
    · intro t ht
      rcases hbv t ht with ⟨b, hb, hspec⟩
      rcases ha t ht with ⟨a', hat, hat_wf⟩
      exact ⟨b, a', hb, hat, hspec.wellFormed, hat_wf⟩
    · intro t ht i q hq r hr
      rcases hbv t ht with ⟨b, hb, hspec⟩
      rw [List.getD_eq_getElem?_getD, hb, Option.getD_some]
      exact hspec.equation i q hq r hr
  have hsize : sOld.length = params.moduliQ.length := hsOld.length_eq
  unfold keySwitchGenInternal
  dsimp only
  rw [hsize]
  rcases Nat.eq_zero_or_pos params.digitSize with hzero | hr
  · have hone : forall q, q ∈ params.moduliQ -> 1 < q :=
      fun q hq => (h.ready q hq).modulus.one_lt
    rw [if_neg (by omega)]
    rcases mapM_range_spec (n := params.moduliQ.length)
      (f := fun i => sOld[i]?.bind fun soi => a[i]?.bind fun ai => e[i]?.bind fun ei =>
        keyComponent params sNew ai ei i soi)
      (fun i b => ComponentOf params k sNew sOld a e i b)
      (by
        intro i hi
        have hq := List.getElem?_eq_getElem hi
        rcases hsOld.exists_tower hq with ⟨soi, hsoi, hsoi_wf⟩
        have hj : 0 < windows params.digitSize params.moduliQ[i] := by
          rw [hzero, windows_zero (hone _ (List.mem_of_getElem? hq))]
          exact Nat.one_pos
        have hdenotes := hsoi_wf.denotes
        simp only [← DCRTPoly.value_eq hsoi] at hdenotes
        have hpower : Poly.Denotes params.moduliQ[i] (2 ^ k) .EVALUATION
            (fun r => (DCRTPoly.value sOld i r : ZMod params.moduliQ[i]) *
              2 ^ (0 * params.digitSize)) soi := by
          simpa using hdenotes
        rcases keyComponent_spec h hsNew ha he hq hj hpower with
          ⟨ai, ei, b, hai, hei, hb, hspec⟩
        have hindex : arrWindows params.digitSize params.moduliQ i + 0 = i := by
          rw [hzero, add_zero]
          exact arrWindows_zero hone hi.le
        rw [hindex] at hai hei hspec
        refine ⟨b, ?_, hspec⟩
        rw [hsoi, hai, hei]
        exact hb) with ⟨bv, hbv, hlength, hget⟩
    refine ⟨{ av := a, bv := bv }, ?_, hkey bv ?_⟩
    · simp only [Option.bind_eq_bind]
      rw [hbv]
      rfl
    · intro t ht
      rw [hzero, arrWindows_zero hone le_rfl] at ht
      have hb := List.getElem?_eq_getElem (show t < bv.length by omega)
      exact ⟨_, hb, hget t _ hb⟩
  · rw [if_pos hr]
    have hstart : rowStart (sOld.map fun t => ceilDiv (getMSB t.modulus) params.digitSize) =
        arrWindows params.digitSize params.moduliQ := by
      funext i
      have hmap : (sOld.map fun t => ceilDiv (getMSB t.modulus) params.digitSize) =
          (sOld.map Poly.modulus).map (windows params.digitSize) := by
        rw [List.map_map]
        exact List.map_congr_left fun t _ => ceilDiv_eq_windows hr t.modulus
      rw [hmap, hsOld.moduli_eq]
      rfl
    rw [hstart]
    rcases placeRows_spec (n := params.moduliQ.length)
      (arrWindows params.digitSize params.moduliQ)
      (fun i => towerComponents params sOld sNew a e
        (arrWindows params.digitSize params.moduliQ i) i)
      (List.replicate
        (arrWindows params.digitSize params.moduliQ params.moduliQ.length) [])
      (fun i row => forall j b, row[j]? = some b -> ComponentOf params k sNew sOld a e
        (arrWindows params.digitSize params.moduliQ i + j) b)
      (by
        intro i hi
        have hq := List.getElem?_eq_getElem hi
        rcases towerComponents_spec h hsNew hsOld ha he hr hq with ⟨row, hrow, hlength, hspec⟩
        exact ⟨row, hrow, by rw [arrWindows_succ _ hq, hlength], hspec⟩)
      List.length_replicate with ⟨bv, hbv, hlength, hget⟩
    refine ⟨{ av := a, bv := bv }, ?_, hkey bv ?_⟩
    · simp only [Option.bind_eq_bind]
      rw [hbv]
      rfl
    · intro t ht
      rcases exists_row (by rw [List.length_map]) ht with ⟨i, c, j, hi, hc, hj, rfl⟩
      rcases hget i hi with ⟨row, hspec, hnext, hrow⟩
      rw [List.getElem?_map, Option.map_eq_some_iff] at hc
      rcases hc with ⟨q, hq, rfl⟩
      rw [arrWindows_succ _ hq] at hnext
      have hb := List.getElem?_eq_getElem (show j < row.length by omega)
      exact ⟨_, (hrow j (by omega)).trans hb, hspec j _ hb⟩

end KeyGeneration

/-!
## Correctness
-/

theorem arrWindows_take (baseBits : Nat) (moduli : List Nat) {i m : Nat} (hi : i <= m) :
    arrWindows baseBits (moduli.take m) i = arrWindows baseBits moduli i := by
  rw [arrWindows, arrWindows, List.map_take, rowStart_take _ hi]

/--
What key switching of `c` at level `l` achieves.  The digits recompose to the towers
of `c`; the digit of a window meets the key component of that window; and the two
elements satisfy `u0 + u1 * sNew = c * sOld + ns * sum of d_t * e_t` in all towers.
-/
structure Switched (params : BVParameters) (k l : Nat) (c sNew sOld : DCRTPoly)
    (noise : Nat -> Nat -> Nat -> Int) (digits : List DCRTPoly) (u0 u1 : DCRTPoly) :
    Prop where
  digits_spec :
    DCRTPoly.Digits k (params.moduliQ.take (l + 1)) params.digitSize c digits
  paired : forall i q, (params.moduliQ.take (l + 1))[i]? = some q ->
    forall j, j < windows params.digitSize q -> forall i',
      gadget params
          (arrWindows params.digitSize (params.moduliQ.take (l + 1)) i + j) i' =
        if i' = i then 2 ^ (j * params.digitSize) else 0
  u0_wellFormed : DCRTPoly.WellFormed (2 ^ k) .EVALUATION (params.moduliQ.take (l + 1)) u0
  u1_wellFormed : DCRTPoly.WellFormed (2 ^ k) .EVALUATION (params.moduliQ.take (l + 1)) u1
  equation : forall i q, (params.moduliQ.take (l + 1))[i]? = some q -> forall r, r < 2 ^ k ->
    (DCRTPoly.value u0 i r : ZMod q) + DCRTPoly.value u1 i r * DCRTPoly.value sNew i r =
      DCRTPoly.value c i r * DCRTPoly.value sOld i r +
        params.noiseScale * ∑ t ∈ Finset.range digits.length,
          (DCRTPoly.value (digits.getD t []) i r : ZMod q) * noise t i r

section Correctness

variable {k l : Nat} {psi : Nat -> Nat} (h : Setting cache params k psi)
  (hl : l < params.moduliQ.length) {format : Format} {c : DCRTPoly}
  (hc : DCRTPoly.WellFormed (2 ^ k) format (params.moduliQ.take (l + 1)) c)

include hl

theorem paired_gadget {i q : Nat} (hq : (params.moduliQ.take (l + 1))[i]? = some q) {j : Nat}
    (hj : j < windows params.digitSize q) (i' : Nat) :
    gadget params (arrWindows params.digitSize (params.moduliQ.take (l + 1)) i + j) i' =
      if i' = i then 2 ^ (j * params.digitSize) else 0 := by
  have hi := (List.getElem?_eq_some_iff.mp hq).1
  rw [List.length_take] at hi
  rw [List.getElem?_take_of_lt (by omega)] at hq
  rw [arrWindows_take _ _ (by omega)]
  exact gadget_eq hq hj i'

theorem sum_gadget {eval : DCRTPoly} {digits : List DCRTPoly}
    (hdigits : DCRTPoly.Digits k (params.moduliQ.take (l + 1)) params.digitSize eval digits)
    {i q r : Nat} (hq : (params.moduliQ.take (l + 1))[i]? = some q) (hr : r < 2 ^ k) :
    ∑ t ∈ Finset.range digits.length,
        (DCRTPoly.value (digits.getD t []) i r : ZMod q) * gadget params t i =
      DCRTPoly.value eval i r := by
  have hi := (List.getElem?_eq_some_iff.mp hq).1
  rw [hdigits.length_eq, arrWindows, sum_rows _ (by rw [List.length_map]),
    Finset.sum_eq_single_of_mem i (Finset.mem_range.mpr hi)]
  · rw [List.getD_eq_getElem?_getD, List.getElem?_map, hq, Option.map_some,
      Option.getD_some, ← hdigits.sum_eq i q hq r hr]
    refine Finset.sum_congr rfl fun j hj => ?_
    have hgadget := paired_gadget hl hq (Finset.mem_range.mp hj) i
    rw [if_pos rfl] at hgadget
    unfold arrWindows at hgadget ⊢
    rw [hgadget]
    push_cast
    rfl
  · intro i' hi' hne
    have hq' := List.getElem?_eq_getElem (Finset.mem_range.mp hi')
    rw [List.getD_eq_getElem?_getD, List.getElem?_map, hq', Option.map_some,
      Option.getD_some]
    refine Finset.sum_eq_zero fun j hj => ?_
    have hgadget := paired_gadget hl hq' (Finset.mem_range.mp hj) i
    rw [if_neg (Ne.symm hne)] at hgadget
    unfold arrWindows at hgadget
    rw [hgadget, Nat.cast_zero, mul_zero]

include h hc

theorem evalKeySwitch_switched {sNew sOld : DCRTPoly} {noise : Nat -> Nat -> Nat -> Int}
    {evalKey : EvalKey} (hkey : KeyEquation params k sNew sOld noise evalKey)
    (hdecomposable :
      DCRTPoly.Decomposable params.digitSize (params.moduliQ.take (l + 1))) :
    exists eval digits u0 u1, DCRTPoly.setFormat cache c .EVALUATION = some eval ∧
      evalKeySwitchPrecomputeCore cache params format c = some digits ∧
      evalFastKeySwitchCore digits evalKey (l + 1) = some (u0, u1) ∧
      Switched params k l eval sNew sOld noise digits u0 u1 := by
  have hready : DCRTPoly.ReadyChain cache k psi (params.moduliQ.take (l + 1)) :=
    fun q hq => h.ready q (List.mem_of_mem_take hq)
  rcases DCRTPoly.crtDecompose_spec h.pos h.le hready hc hdecomposable with
    ⟨eval, digits, heval, hrun, hdigits⟩
  have htotal : (params.moduliQ.take (l + 1)).length = l + 1 := by
    rw [List.length_take]
    omega
  have hlength := hdigits.length_eq
  rw [htotal, arrWindows_take _ _ le_rfl] at hlength
  have hq0 := List.getElem?_eq_getElem (show 0 < params.moduliQ.length by omega)
  have hne : 0 < digits.length := by
    have hone := (h.ready _ (List.mem_of_getElem? hq0)).modulus.one_lt
    have hmono := rowStart_mono (params.moduliQ.map (windows params.digitSize))
      (Nat.succ_le_succ (Nat.zero_le l))
    have hsucc := arrWindows_succ params.digitSize hq0
    have hpos : 0 < windows params.digitSize params.moduliQ[0] := by
      rcases Nat.eq_zero_or_pos params.digitSize with hzero | hr
      · rw [hzero, windows_zero hone]
        exact Nat.one_pos
      · exact (windows_bounds hr hone).1
    unfold arrWindows at hsucc hlength
    simp only [Nat.succ_eq_add_one] at hmono
    omega
  have hle : digits.length <=
      arrWindows params.digitSize params.moduliQ params.moduliQ.length := by
    rw [hlength]
    exact rowStart_mono _ hl
  rcases evalFastKeySwitchCore_spec h hl hdigits.wellFormed hne
    (fun t ht => hkey.wellFormed t (by omega)) with ⟨u0, u1, hfast, hu0, hu1⟩
  refine ⟨eval, digits, u0, u1, heval, hrun, hfast, hdigits,
    fun i q hq j hj i' => paired_gadget hl hq hj i', hu0.wellFormed, hu1.wellFormed, ?_⟩
  intro i q hq r hr
  have hi := (List.getElem?_eq_some_iff.mp hq).1
  have hfull : params.moduliQ[i]? = some q := by
    rwa [List.getElem?_take_of_lt (by omega)] at hq
  have hgadget : IsGadgetKey (Finset.range digits.length)
      (fun t => (gadget params t i : ZMod q)) (fun t => (noise t i r : ZMod q))
      (fun t => (DCRTPoly.value (evalKey.av.getD t []) i r : ZMod q))
      (fun t => (DCRTPoly.value (evalKey.bv.getD t []) i r : ZMod q))
      (DCRTPoly.value sNew i r) (DCRTPoly.value sOld i r) params.noiseScale := by
    intro t ht
    exact hkey.equation t (by have := Finset.mem_range.mp ht; omega) i q hfull r hr
  rw [hu0.value_eq i q hq r hr, hu1.value_eq i q hq r hr,
    hgadget.switch (sum_gadget hl hdigits hq hr)]

omit hl in
theorem evalKeySwitchPrecomputeCore_eq_none
    (hdecomposable :
      ¬ DCRTPoly.Decomposable params.digitSize (params.moduliQ.take (l + 1))) :
    evalKeySwitchPrecomputeCore cache params format c = none :=
  DCRTPoly.crtDecompose_eq_none h.pos h.le (fun q hq => h.ready q (List.mem_of_mem_take hq))
    hc hdecomposable

/-- The key switch is correct exactly for the digit sizes that every tower can read. -/
theorem evalKeySwitch_bv_iff {sNew sOld : DCRTPoly} {noise : Nat -> Nat -> Nat -> Int}
    {evalKey : EvalKey} (hkey : KeyEquation params k sNew sOld noise evalKey) :
    (exists eval digits u0 u1, DCRTPoly.setFormat cache c .EVALUATION = some eval ∧
        evalKeySwitchPrecomputeCore cache params format c = some digits ∧
        evalFastKeySwitchCore digits evalKey (l + 1) = some (u0, u1) ∧
        Switched params k l eval sNew sOld noise digits u0 u1) <->
      params.digitSize = 0 ∨ params.digitSize <= 31 ∧
        forall q, q ∈ params.moduliQ.take (l + 1) ->
          windows params.digitSize q * params.digitSize <= maxBits := by
  have hpos : 0 < (params.moduliQ.take (l + 1)).length := by
    rw [List.length_take]
    omega
  have hcondition : DCRTPoly.Decomposable params.digitSize (params.moduliQ.take (l + 1)) <->
      params.digitSize = 0 ∨ params.digitSize <= 31 ∧
        forall q, q ∈ params.moduliQ.take (l + 1) ->
          windows params.digitSize q * params.digitSize <= maxBits := by
    constructor
    · rintro (hzero | hreadable)
      · exact Or.inl hzero
      · exact Or.inr ⟨(hreadable _ (List.getElem_mem hpos)).1,
          fun q hq => (hreadable q hq).2⟩
    · rintro (hzero | ⟨hsmall, hbits⟩)
      · exact Or.inl hzero
      · exact Or.inr fun q hq => ⟨hsmall, hbits q hq⟩
  rw [← hcondition]
  constructor
  · rintro ⟨eval, digits, u0, u1, _, hrun, _⟩
    by_contra hnot
    rw [evalKeySwitchPrecomputeCore_eq_none h hc hnot] at hrun
    cases hrun
  · exact evalKeySwitch_switched h hl hc hkey

end Correctness

def smallParameters : BVParameters where
  ringDimension := 2
  moduliQ := [5, 13, 17]
  digitSize := 2
  noiseScale := 1

/-- One tower of 60 bits whose third window of 25 bits ends past the word. -/
def wideParameters : BVParameters where
  ringDimension := 2
  moduliQ := [1152921504606846869]
  digitSize := 25
  noiseScale := 1

theorem sample_wellFormed (count : Nat) (values : List Nat) {moduli : List Nat}
    (hlength : values.length = 2)
    (hlt : forall q, q ∈ moduli -> forall x, x ∈ values -> x < q) (t : Nat)
    (ht : t < count) :
    exists a, (List.replicate count (DCRTPoly.constant moduli values))[t]? = some a ∧
      DCRTPoly.WellFormed (2 ^ 1) .EVALUATION moduli a :=
  ⟨_, List.getElem?_replicate_of_lt ht, DCRTPoly.constant_wellFormed values hlength hlt⟩

/-- Switching a ciphertext of two towers with a generated key of three. -/
theorem evalKeySwitch_bv_iff_small :
    exists evalKey eval digits u0 u1,
      keySwitchGenInternal smallParameters
        (DCRTPoly.constant smallParameters.moduliQ [3, 1])
        (DCRTPoly.constant smallParameters.moduliQ [2, 4])
        (List.replicate 7 (DCRTPoly.constant smallParameters.moduliQ [4, 3]))
        (List.replicate 7 (DCRTPoly.constant smallParameters.moduliQ [1, 2])) =
          some evalKey ∧
      DCRTPoly.setFormat Poly.smallCache (DCRTPoly.constant [5, 13] [4, 2]) .EVALUATION =
        some eval ∧
      evalKeySwitchPrecomputeCore Poly.smallCache smallParameters .EVALUATION
        (DCRTPoly.constant [5, 13] [4, 2]) = some digits ∧
      evalFastKeySwitchCore digits evalKey 2 = some (u0, u1) ∧
      Switched smallParameters 1 1 eval (DCRTPoly.constant smallParameters.moduliQ [2, 4])
        (DCRTPoly.constant smallParameters.moduliQ [3, 1])
        (fun t i r => -(DCRTPoly.value ((List.replicate 7
          (DCRTPoly.constant smallParameters.moduliQ [1, 2])).getD t []) i r : Int))
        digits u0 u1 := by
  have hsetting : Setting Poly.smallCache smallParameters 1 Poly.smallRoot :=
    ⟨rfl, by decide, by decide, fun q hq => Poly.smallReady (by
      have hsub : smallParameters.moduliQ ⊆ [5, 13, 17, 29, 1152921504606846869] := by decide
      exact hsub hq)⟩
  rcases keySwitchGenInternal_keyEquation hsetting
    (DCRTPoly.constant_wellFormed [2, 4] rfl (by decide))
    (DCRTPoly.constant_wellFormed [3, 1] rfl (by decide))
    (sample_wellFormed 7 [4, 3] rfl (by decide))
    (sample_wellFormed 7 [1, 2] rfl (by decide)) with ⟨evalKey, hevalKey, hequation⟩
  rcases (evalKeySwitch_bv_iff hsetting (show 1 < smallParameters.moduliQ.length by decide)
    (DCRTPoly.constant_wellFormed [4, 2] rfl (by decide)) hequation).mpr (by decide) with
    ⟨eval, digits, u0, u1, heval, hdigits, hrun, hswitched⟩
  exact ⟨evalKey, eval, digits, u0, u1, hevalKey, heval, hdigits, hrun, hswitched⟩

/-- With 60-bit moduli and windows of 25 bits a correct key switches nothing. -/
theorem not_evalKeySwitch_bv_wide :
    exists evalKey noise,
      KeyEquation wideParameters 1 (DCRTPoly.constant wideParameters.moduliQ [2, 4])
        (DCRTPoly.constant wideParameters.moduliQ [3, 1]) noise evalKey ∧
      ¬ exists eval digits u0 u1,
        DCRTPoly.setFormat Poly.smallCache (DCRTPoly.constant wideParameters.moduliQ [4, 2])
          .EVALUATION = some eval ∧
        evalKeySwitchPrecomputeCore Poly.smallCache wideParameters .EVALUATION
          (DCRTPoly.constant wideParameters.moduliQ [4, 2]) = some digits ∧
        evalFastKeySwitchCore digits evalKey 1 = some (u0, u1) ∧
        Switched wideParameters 1 0 eval (DCRTPoly.constant wideParameters.moduliQ [2, 4])
          (DCRTPoly.constant wideParameters.moduliQ [3, 1]) noise digits u0 u1 := by
  have hsetting : Setting Poly.smallCache wideParameters 1 Poly.smallRoot :=
    ⟨rfl, by decide, by decide, fun q hq => Poly.smallReady (by
      have hsub : wideParameters.moduliQ ⊆ [5, 13, 17, 29, 1152921504606846869] := by decide
      exact hsub hq)⟩
  rcases keySwitchGenInternal_keyEquation hsetting
    (DCRTPoly.constant_wellFormed [2, 4] rfl (by decide))
    (DCRTPoly.constant_wellFormed [3, 1] rfl (by decide))
    (sample_wellFormed 3 [4, 3] rfl (by decide))
    (sample_wellFormed 3 [1, 2] rfl (by decide)) with
    ⟨evalKey, _, hequation⟩
  refine ⟨evalKey, _, hequation, ?_⟩
  rintro ⟨eval, digits, u0, u1, _, hrun, _⟩
  have hnone : evalKeySwitchPrecomputeCore Poly.smallCache wideParameters .EVALUATION
      (DCRTPoly.constant wideParameters.moduliQ [4, 2]) = none :=
    evalKeySwitchPrecomputeCore_eq_none (l := 0) hsetting
      (DCRTPoly.constant_wellFormed [4, 2] rfl (by decide)) (by
      rintro (hzero | hreadable)
      · cases hzero
      · have hbits := (hreadable _ List.mem_cons_self).2
        revert hbits
        decide)
  rw [hnone] at hrun
  cases hrun

end BV

end KeySwitch
end OpenFHE
