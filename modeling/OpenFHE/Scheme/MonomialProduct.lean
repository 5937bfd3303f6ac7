import OpenFHE.Core.AutomorphismMap
import OpenFHE.Hal.Residues

/-!
# Multiplication by a monomial

`MultByMonomial` builds the monomial in the first tower, copies it to the other ones by a
modulus switch and multiplies every element of the ciphertext by it.
-/

namespace OpenFHE
namespace Scheme

open OpenFHE.Core OpenFHE.Core.NativeInteger Foundation Hal

def monomial (modulus ringDimension power : Nat) : Poly :=
  let powerReduced := power % usint (2 * ringDimension : Nat)
  let sign := if powerReduced < ringDimension then 1 else subFast modulus 1
  { Poly.zero modulus ringDimension .COEFFICIENT with
    values := (List.replicate ringDimension 0).set (power % ringDimension) sign }

/-- `operator=` of a polynomial with one tower: all but the first modulus are switched to. -/
def assignTower (moduli : List Nat) (rhs : Poly) : DCRTPoly :=
  moduli.zipIdx.map fun p => if p.2 = 0 then rhs else Poly.switchModulus rhs p.1

/-- The order of the ring is zero when it does not fit in a word, which `%` faults on. -/
def multByMonomialInPlace (cache : Poly.TableCache) (cv : List DCRTPoly) (power : Nat) :
    Option (List DCRTPoly) := do
  let c0 <- cv[0]?
  let tower0 <- c0[0]?
  let ringDimension := tower0.values.length
  if usint (2 * ringDimension : Nat) = 0 then none
  else
    let tower := monomial tower0.modulus ringDimension power
    let monomialDCRT <-
      DCRTPoly.setFormat cache (assignTower (c0.map Poly.modulus) tower) .EVALUATION
    cv.mapM fun c => DCRTPoly.timesEq c monomialDCRT

/-! ## The monomial -/

section Monomial

variable {n : Nat} (hn : 0 < n) (horder : 2 * n < 2 ^ 32) (p : Nat)

include hn horder

theorem reduced_lt_iff : p % usint (2 * n : Nat) < n <-> p / n % 2 = 0 := by
  rw [usint_natCast, Nat.mod_eq_of_lt horder, Nat.mul_comm, ← Nat.div_lt_one_iff hn,
    Nat.mod_mul_right_div_self]
  omega

theorem centered_monomial {q : Nat} (hq : Poly.NttModulus q) (i : Nat) :
    NativeVector.centered q ((monomial q n p).values.getD i 0) =
      if i = p % n then (-1) ^ (p / n) else 0 := by
  have hone := hq.one_lt
  have hodd := hq.odd
  have hrem := Nat.mod_lt p hn
  unfold monomial NativeVector.centered
  rw [Nat.shiftRight_eq_div_pow, pow_one, List.getD_eq_getElem?_getD]
  by_cases hi : i = p % n
  · rw [if_pos hi, hi, List.getElem?_set_self (by rwa [List.length_replicate]),
      Option.getD_some]
    rcases Nat.mod_two_eq_zero_or_one (p / n) with heven | hodd'
    · rw [if_pos ((reduced_lt_iff hn horder p).mpr heven), if_neg (by omega),
        (Nat.even_iff.mpr heven).neg_one_pow, Nat.cast_one]
    · have hge : ¬p % usint (2 * n : Nat) < n := by
        rw [reduced_lt_iff hn horder p]
        omega
      rw [if_neg hge, subFast_eq (by omega) (hq.lt.trans (by decide)), if_pos (by omega),
        (Nat.odd_iff.mpr hodd').neg_one_pow]
      omega
  · rw [if_neg hi, List.getElem?_set_ne (Ne.symm hi), List.getElem?_replicate]
    split
    next => exact if_neg (Nat.not_lt_zero _)
    next => exact if_neg (Nat.not_lt_zero _)

omit hn horder in
theorem monomial_residues {q : Nat} (hq : Poly.NttModulus q) :
    Residues n q (monomial q n p).values := by
  have hone := hq.one_lt
  have hzero : Residues n q (List.replicate n 0) := by
    refine ⟨List.length_replicate, ?_⟩
    intro x hx
    rw [List.eq_of_mem_replicate hx]
    omega
  apply hzero.set
  split
  next => exact hone
  next =>
      rw [subFast_eq (by omega) (hq.lt.trans (by decide))]
      omega

theorem assignTower_denotes {moduli : List Nat}
    (hmoduli : forall q, q ∈ moduli -> Poly.NttModulus q) {q0 : Nat}
    (hq0 : moduli[0]? = some q0) {i q : Nat} {t : Poly} (hq : moduli[i]? = some q)
    (ht : (assignTower moduli (monomial q0 n p))[i]? = some t) :
    Poly.Denotes q n .COEFFICIENT (monomialResidue n p) t := by
  have hfirst := hmoduli q0 (List.mem_of_getElem? hq0)
  have hntt := hmoduli q (List.mem_of_getElem? hq)
  have hresidues := monomial_residues (n := n) p hfirst
  have hvalue (m j : Nat) :
      (NativeVector.centered q0 ((monomial q0 n p).values.getD j 0) : ZMod m) =
        monomialResidue n p j := by
    rw [centered_monomial hn horder p hfirst, monomialResidue]
    split
    next => rw [Int.cast_pow, Int.cast_neg, Int.cast_one]
    next => exact Int.cast_zero
  rw [assignTower, List.getElem?_map, List.getElem?_zipIdx, hq, Nat.zero_add] at ht
  cases ht
  cases i with
  | zero =>
      rw [hq0] at hq
      cases hq
      refine ⟨rfl, rfl, hresidues.holds.congr ?_⟩
      intro j _
      rw [← hvalue q0 j, NativeVector.centered_natCast]
      rfl
  | succ i =>
      have hone := hntt.one_lt
      have hswitch := NativeVector.switchModulus_spec (hfirst.lt.trans (by decide)) hntt.lt
        (by omega) hresidues
      exact ⟨rfl, rfl, hswitch.congr fun j _ => hvalue q j⟩

end Monomial

/-! ## The transform of the monomial -/

section Transform

variable {cache : Poly.TableCache} {k q psi : Nat} (h : Poly.Ready cache k q psi)

include h

theorem switchFormat_one (hk : k = 0) {f : Nat -> ZMod q} {a : Poly}
    (ha : Poly.Denotes q (2 ^ k) .COEFFICIENT f a) :
    exists r, Poly.switchFormat cache a = some r ∧
      Poly.Denotes q (2 ^ k) .EVALUATION (stageArray f psi 1 k) r := by
  subst hk
  rcases h.tables with ⟨tables, hcache, _⟩
  refine ⟨{ a with format := .EVALUATION }, ?_, ha.modulus_eq, rfl, ha.holds.congr ?_⟩
  · have hlength : a.values.length = 1 := ha.holds.length_eq
    rw [Poly.switchFormat, ha.modulus_eq, hcache, ha.format_eq]
    unfold Transform.forwardTransform Transform.forwardTransformToBitReverseInPlace
    rw [hlength]
    rfl
  · intro i hi
    exact (stageArray_first f (psi : ZMod q) hi).symm

theorem setFormat_evaluation {f : Nat -> ZMod q} {a : Poly}
    (ha : Poly.Denotes q (2 ^ k) .COEFFICIENT f a) :
    exists r, Poly.setFormat cache a .EVALUATION = some r ∧
      Poly.Denotes q (2 ^ k) .EVALUATION (stageArray f psi 1 k) r := by
  rw [Poly.setFormat, ha.format_eq, if_neg (by decide)]
  rcases Nat.eq_zero_or_pos k with hzero | hpos
  · exact switchFormat_one h hzero ha
  · exact Poly.switchFormat_evaluation hpos h ha

theorem exists_coefficients (hk31 : k <= 31) {t : Poly}
    (ht : Poly.WellFormed q (2 ^ k) .EVALUATION t) :
    exists f, Poly.Denotes q (2 ^ k) .EVALUATION (stageArray f psi 1 k) t := by
  rcases Nat.eq_zero_or_pos k with hzero | hpos
  · subst hzero
    refine ⟨fun r => (t.value r : ZMod q), ht.denotes.congr ?_⟩
    intro i hi
    exact (stageArray_first (fun r => (t.value r : ZMod q)) (psi : ZMod q) hi).symm
  · rcases h.tables with ⟨tables, _, htables⟩
    have hone := h.modulus.one_lt
    rcases Transform.exists_coefficients hpos h.modulus.lt (by omega) htables h.root hk31
      ht.2.2 with ⟨f, hf⟩
    exact ⟨f, ht.1, ht.2.1, hf⟩

omit h in
theorem point_pow (hroot : (psi : ZMod q) ^ 2 ^ k = -1) (i : Nat) :
    ((psi : ZMod q) ^ (2 * bitReverse k i + 1)) ^ 2 ^ k = -1 := by
  rw [← pow_mul, Nat.mul_comm, pow_mul, hroot]
  exact Odd.neg_one_pow ⟨_, rfl⟩

theorem stageArray_monomialResidue (p i : Nat) :
    stageArray (monomialResidue (2 ^ k) p) (psi : ZMod q) 1 k i =
      ((psi : ZMod q) ^ (2 * bitReverse k i + 1)) ^ p := by
  have heval := eval_monomialResidue (Nat.two_pow_pos k) p (point_pow h.root i)
  simp only [← pow_mul] at heval
  rw [stageArray_last, heval, ← pow_mul]

theorem stageArray_timesMonomial (p : Nat) (f : Nat -> ZMod q) (i : Nat) :
    stageArray (timesMonomial (2 ^ k) p f) (psi : ZMod q) 1 k i =
      stageArray f psi 1 k i * ((psi : ZMod q) ^ (2 * bitReverse k i + 1)) ^ p := by
  have : Fact (1 < q) := ⟨h.modulus.one_lt⟩
  have heval := eval_timesMonomial (Nat.two_pow_pos k) p f (point_pow h.root i)
  simp only [← pow_mul] at heval
  rw [stageArray_last, stageArray_last, heval, ← pow_mul]

end Transform

/-! ## Products with the monomial -/

/-- The second tower is the product of the first one with `X ^ p` modulo `X ^ (2 ^ k) + 1`. -/
def TowerTimesMonomial (k q psi p : Nat) (t t' : Poly) : Prop :=
  exists f : Nat -> ZMod q, Poly.Denotes q (2 ^ k) .EVALUATION (stageArray f psi 1 k) t ∧
    Poly.Denotes q (2 ^ k) .EVALUATION (stageArray (timesMonomial (2 ^ k) p f) psi 1 k) t'

/-- Every tower of every element has been multiplied. -/
def TimesMonomial (k : Nat) (psi : Nat -> Nat) (moduli : List Nat) (p : Nat)
    (cv cv' : List DCRTPoly) : Prop :=
  cv'.length = cv.length ∧ forall (j : Nat) x y, cv[j]? = some x -> cv'[j]? = some y ->
    DCRTPoly.WellFormed (2 ^ k) .EVALUATION moduli y ∧
      forall (i q : Nat) t t', moduli[i]? = some q -> x[i]? = some t -> y[i]? = some t' ->
        TowerTimesMonomial k q (psi q) p t t'

section Products

variable {cache : Poly.TableCache} {k : Nat} {psi : Nat -> Nat} {moduli : List Nat}
  (horder : 2 * 2 ^ k < 2 ^ 32)
  (hready : DCRTPoly.ReadyChain cache k psi moduli)

/-- The values of the monomial: powers of the points of the transform. -/
def monomialValues (k : Nat) (psi : Nat -> Nat) (p : Nat) : TowerResidues :=
  fun _ q r => ((psi q : ZMod q) ^ (2 * bitReverse k r + 1)) ^ p

theorem monomialValues_add (k : Nat) (psi : Nat -> Nat) (p₁ p₂ : Nat) :
    monomialValues k psi p₁ * monomialValues k psi p₂ = monomialValues k psi (p₁ + p₂) := by
  funext i q r
  exact (pow_add _ p₁ p₂).symm

include hready in
theorem monomialValues_congr {p p' : Nat} (hp : p ≡ p' [MOD 2 * 2 ^ k]) (i : Nat) {q : Nat}
    (hq : q ∈ moduli) (r : Nat) :
    monomialValues k psi p i q r = monomialValues k psi p' i q r := by
  have hpoint : ((psi q : ZMod q) ^ (2 * bitReverse k r + 1)) ^ (2 * 2 ^ k) = 1 := by
    rw [Nat.mul_comm 2 (2 ^ k), pow_mul, point_pow (hready q hq).root, neg_one_sq]
  have hreduce (e : Nat) : ((psi q : ZMod q) ^ (2 * bitReverse k r + 1)) ^ e =
      ((psi q : ZMod q) ^ (2 * bitReverse k r + 1)) ^ (e % (2 * 2 ^ k)) := by
    conv_lhs => rw [← Nat.div_add_mod e (2 * 2 ^ k)]
    rw [pow_add, pow_mul, hpoint, one_pow, one_mul]
  unfold monomialValues
  rw [hreduce p, hreduce p', hp]

include hready in
theorem denotes_twice {p₁ p₂ p : Nat} (hp : p ≡ p₁ + p₂ [MOD 2 * 2 ^ k]) {c c₁ c₂ : DCRTPoly}
    (h₁ : DCRTPoly.Denotes (2 ^ k) .EVALUATION moduli
      (DCRTPoly.residues c * monomialValues k psi p₁) c₁)
    (h₂ : DCRTPoly.Denotes (2 ^ k) .EVALUATION moduli
      (DCRTPoly.residues c₁ * monomialValues k psi p₂) c₂) :
    DCRTPoly.Denotes (2 ^ k) .EVALUATION moduli
      (DCRTPoly.residues c * monomialValues k psi p) c₂ := by
  apply h₂.congr
  intro i q hq r hr
  calc
    (DCRTPoly.residues c₁ * monomialValues k psi p₂) i q r =
        (DCRTPoly.residues c * monomialValues k psi p₁) i q r *
          monomialValues k psi p₂ i q r := by
      rw [← h₁.value_eq i q hq r hr]
      rfl
    _ = DCRTPoly.residues c i q r * monomialValues k psi (p₁ + p₂) i q r := by
      rw [← monomialValues_add]
      exact mul_assoc _ _ _
    _ = (DCRTPoly.residues c * monomialValues k psi p) i q r := by
      rw [← monomialValues_congr hready hp i (List.mem_of_getElem? hq) r]
      rfl

include horder hready

theorem setFormat_monomial (p : Nat) {q0 : Nat} (hq0 : moduli[0]? = some q0) :
    exists m, DCRTPoly.setFormat cache (assignTower moduli (monomial q0 (2 ^ k) p)) .EVALUATION =
        some m ∧
      DCRTPoly.Denotes (2 ^ k) .EVALUATION moduli (monomialValues k psi p) m := by
  have hmoduli (q : Nat) (hq : q ∈ moduli) : Poly.NttModulus q := (hready q hq).modulus
  have hdenotes : DCRTPoly.Denotes (2 ^ k) .COEFFICIENT moduli
      (fun _ _ => monomialResidue (2 ^ k) p) (assignTower moduli (monomial q0 (2 ^ k) p)) := by
    apply DCRTPoly.denotes_of_towers
    · rw [assignTower, List.length_map, List.length_zipIdx]
    · intro i q t hq ht
      exact assignTower_denotes (Nat.two_pow_pos k) horder p hmoduli hq0 hq ht
  apply DCRTPoly.setFormat_of_towers hdenotes
  intro i q t hq ht
  have hqready := hready q (List.mem_of_getElem? hq)
  rcases setFormat_evaluation hqready ht with ⟨u, hu, heval⟩
  exact ⟨u, hu, heval.congr fun r _ => stageArray_monomialResidue hqready p r⟩

variable (hnonempty : moduli ≠ []) {cv : List DCRTPoly} (hcv : cv ≠ [])
  (hwf : forall c, c ∈ cv -> DCRTPoly.WellFormed (2 ^ k) .EVALUATION moduli c)

include hnonempty hcv hwf

theorem multByMonomialInPlace_values (p : Nat) :
    exists cv', multByMonomialInPlace cache cv p = some cv' ∧ cv'.length = cv.length ∧
      forall (j : Nat) c c', cv[j]? = some c -> cv'[j]? = some c' ->
        DCRTPoly.Denotes (2 ^ k) .EVALUATION moduli
          (DCRTPoly.residues c * monomialValues k psi p) c' := by
  have hc0 := List.getElem?_eq_getElem (List.length_pos_of_ne_nil hcv)
  have hq0 := List.getElem?_eq_getElem (List.length_pos_of_ne_nil hnonempty)
  have hwf0 := hwf _ (List.mem_of_getElem? hc0)
  rcases hwf0.exists_tower hq0 with ⟨tower0, htower0, htower_wf⟩
  rcases setFormat_monomial horder hready p hq0 with ⟨m, hm, hdenotes⟩
  have hmoduli (q : Nat) (hq : q ∈ moduli) : Poly.NttModulus q := (hready q hq).modulus
  rcases mapM_spec (f := fun c => DCRTPoly.timesEq c m) (l := cv)
    (fun c c' => DCRTPoly.Denotes (2 ^ k) .EVALUATION moduli
      (DCRTPoly.residues c * monomialValues k psi p) c')
    (fun c hc => DCRTPoly.timesEq_denotes hmoduli (hwf c hc).denotes hdenotes) with
    ⟨cv', hcv', hlength, hget⟩
  refine ⟨cv', ?_, hlength, hget⟩
  have hring : tower0.values.length = 2 ^ k := htower_wf.2.2.1
  have hfits : usint (2 * 2 ^ k : Nat) ≠ 0 := by
    have hpos := Nat.two_pow_pos k
    rw [usint_natCast, Nat.mod_eq_of_lt horder]
    omega
  unfold multByMonomialInPlace
  simp only [hc0, Option.bind_eq_bind, Option.bind_some, htower0]
  rw [hring, if_neg hfits, htower_wf.1, hwf0.moduli_eq, hm]
  exact hcv'

theorem multByMonomialInPlace_spec (p : Nat) :
    exists cv', multByMonomialInPlace cache cv p = some cv' ∧
      TimesMonomial k psi moduli p cv cv' := by
  have hk31 : k <= 31 := by
    by_contra hlarge
    have := Nat.pow_le_pow_right (show 0 < 2 by decide) (show 32 <= k by omega)
    omega
  rcases multByMonomialInPlace_values horder hready hnonempty hcv hwf p with
    ⟨cv', hcv', hlength, hget⟩
  refine ⟨cv', hcv', hlength, ?_⟩
  intro j c c' hc hc'
  have hdenotes := hget j c c' hc hc'
  refine ⟨hdenotes.wellFormed, ?_⟩
  intro i q t t' hq ht ht'
  have htower := (hwf c (List.mem_of_getElem? hc)).get i q t hq ht
  have hqready := hready q (List.mem_of_getElem? hq)
  rcases exists_coefficients hqready hk31 htower with ⟨f, hf⟩
  refine ⟨f, hf, (hdenotes.tower_denotes hq ht').congr ?_⟩
  intro r hr
  rw [stageArray_timesMonomial hqready, ← hf.value_eq hr, ← DCRTPoly.value_eq ht]
  rfl

theorem multByMonomialInPlace_twice (p₁ p₂ : Nat) {p : Nat} (hp : p ≡ p₁ + p₂ [MOD 2 * 2 ^ k]) :
    (multByMonomialInPlace cache cv p₁).bind (fun cv₁ => multByMonomialInPlace cache cv₁ p₂) =
      multByMonomialInPlace cache cv p := by
  rcases multByMonomialInPlace_values horder hready hnonempty hcv hwf p₁ with
    ⟨cv₁, hcv₁, hlength₁, hget₁⟩
  have hcv₁' : cv₁ ≠ [] := by
    apply List.ne_nil_of_length_pos
    rw [hlength₁]
    exact List.length_pos_of_ne_nil hcv
  have hentry (j : Nat) {l : List DCRTPoly} (hlength : l.length = cv.length) (c' : DCRTPoly)
      (hc' : l[j]? = some c') : exists c, cv[j]? = some c := by
    have hlt := (List.getElem?_eq_some_iff.mp hc').1
    exact ⟨_, List.getElem?_eq_getElem (show j < cv.length by omega)⟩
  have hwf₁ (c : DCRTPoly) (hc : c ∈ cv₁) :
      DCRTPoly.WellFormed (2 ^ k) .EVALUATION moduli c := by
    rcases List.mem_iff_getElem?.mp hc with ⟨j, hj⟩
    rcases hentry j hlength₁ c hj with ⟨c', hc'⟩
    exact (hget₁ j c' c hc' hj).wellFormed
  rcases multByMonomialInPlace_values horder hready hnonempty hcv₁' hwf₁ p₂ with
    ⟨cv₂, hcv₂, hlength₂, hget₂⟩
  rcases multByMonomialInPlace_values horder hready hnonempty hcv hwf p with
    ⟨cv', hcv', hlength', hget'⟩
  rw [hcv₁, Option.bind_some, hcv₂, hcv', Option.some.injEq]
  apply List.ext_getElem?
  intro j
  rcases Nat.lt_or_ge j cv.length with hlt | hge
  · have hc := List.getElem?_eq_getElem hlt
    have hc₁ := List.getElem?_eq_getElem (show j < cv₁.length by omega)
    have hc₂ := List.getElem?_eq_getElem (show j < cv₂.length by omega)
    have hc' := List.getElem?_eq_getElem (show j < cv'.length by omega)
    have hboth := denotes_twice hready hp (hget₁ j _ _ hc hc₁) (hget₂ j _ _ hc₁ hc₂)
    rw [hc₂, hc', hboth.unique (hget' j _ _ hc hc')]
  · rw [List.getElem?_eq_none (by omega), List.getElem?_eq_none (by omega)]

/--
Every element is multiplied by the power of `X`, and two products in a row are the one with
any exponent congruent to the sum modulo the order of the ring.
-/
theorem multByMonomialInPlace_times :
    (forall p, exists cv', multByMonomialInPlace cache cv p = some cv' ∧
      TimesMonomial k psi moduli p cv cv') ∧
    forall p₁ p₂ p, p ≡ p₁ + p₂ [MOD 2 * 2 ^ k] ->
      (multByMonomialInPlace cache cv p₁).bind
          (fun cv₁ => multByMonomialInPlace cache cv₁ p₂) =
        multByMonomialInPlace cache cv p := by
  constructor
  · intro p
    exact multByMonomialInPlace_spec horder hready hnonempty hcv hwf p
  · intro p₁ p₂ p hp
    exact multByMonomialInPlace_twice horder hready hnonempty hcv hwf p₁ p₂ hp

end Products

theorem multByMonomialInPlace_times_small :
    (forall p, exists cv', multByMonomialInPlace Poly.smallCache
        [DCRTPoly.constant [5, 13] [1, 2]] p = some cv' ∧
      TimesMonomial 1 Poly.smallRoot [5, 13] p [DCRTPoly.constant [5, 13] [1, 2]] cv') ∧
    forall p₁ p₂ p, p ≡ p₁ + p₂ [MOD 2 * 2 ^ 1] ->
      (multByMonomialInPlace Poly.smallCache [DCRTPoly.constant [5, 13] [1, 2]] p₁).bind
          (fun cv₁ => multByMonomialInPlace Poly.smallCache cv₁ p₂) =
        multByMonomialInPlace Poly.smallCache [DCRTPoly.constant [5, 13] [1, 2]] p := by
  apply multByMonomialInPlace_times (by decide)
  · intro q hq
    apply Poly.smallReady
    rcases List.mem_cons.mp hq with rfl | hq
    · decide
    · rw [List.mem_singleton.mp hq]
      decide
  · decide
  · decide
  · intro c hc
    rw [List.mem_singleton.mp hc]
    exact DCRTPoly.constant_wellFormed [1, 2] rfl (by decide)

end Scheme
end OpenFHE
