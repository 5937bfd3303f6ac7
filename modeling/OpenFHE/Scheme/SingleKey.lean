import OpenFHE.Scheme.Relinearization

/-!
# Products with a single key

`EvalMult` with one key, `KeySwitchInPlace` and `RelinearizeCore` switch one element with
the key for the square of the secret and keep two elements.
-/

namespace OpenFHE
namespace Scheme

open OpenFHE.Core Foundation Hal KeySwitch Polynomial

/-- An exception, or an access outside of the vector of elements. -/
inductive Failure where
  | exception
  | outOfRange
deriving DecidableEq, Repr

namespace SingleKey

def orException {α : Type} : Option α -> Except Failure α
  | none => .error .exception
  | some x => .ok x

def entry (cv : List DCRTPoly) (i : Nat) : Except Failure DCRTPoly :=
  match cv[i]? with
  | none => .error .outOfRange
  | some c => .ok c

/-! ## Operations -/

section Operations

variable {F : Type} [Mul F] {n : Nat} {moduliQ : List Nat} (cache : Poly.TableCache)
  (ks : KeySwitching n moduliQ)

def relinearizeThird (cv : List DCRTPoly) (evalKey : EvalKey) :
    Except Failure (List DCRTPoly) := do
  let c <- entry cv 2
  let ab <- orException (keySwitchCore ks c evalKey)
  let cv0 <- entry cv 0
  let cv0 <- orException (DCRTPoly.plusEq cv0 ab.1)
  let cv1 <- entry cv 1
  let cv1 <- orException (DCRTPoly.plusEq cv1 ab.2)
  return resizeTwo ((cv.set 0 cv0).set 1 cv1)

def evalMult (t : Nat) (ciphertext1 ciphertext2 : Ciphertext F) (evalKey : EvalKey) :
    Except Failure (Ciphertext F) := do
  let ciphertext <- orException (evalMultCore t ciphertext1 ciphertext2)
  let cv <- relinearizeThird ks ciphertext.elements evalKey
  return { ciphertext with elements := cv }

def addInEvaluation (c u : DCRTPoly) : Except Failure DCRTPoly := do
  let c <- orException (DCRTPoly.setFormat cache c .EVALUATION)
  orException (DCRTPoly.plusEq c u)

def keySwitchInPlace (cv : List DCRTPoly) (ek : EvalKey) : Except Failure (List DCRTPoly) := do
  let back <- entry cv (cv.length - 1)
  let ba <- orException (keySwitchCore ks back ek)
  let cv0 <- entry cv 0
  let cv0 <- addInEvaluation cache cv0 ba.1
  let cv1 <- entry cv 1
  let cv1 <- (if cv.length > 2 then addInEvaluation cache cv1 ba.2 else .ok ba.2)
  return resizeTwo ((cv.set 0 cv0).set 1 cv1)

/-- For two elements this is a key switch, for more a relinearization. -/
def relinearizeCore (cv : List DCRTPoly) (evalKey : EvalKey) :
    Except Failure (List DCRTPoly) := do
  let sel := if cv.length = 2 then 1 else 2
  let c <- entry cv sel
  let c <- orException (DCRTPoly.setFormat cache c .EVALUATION)
  let ab <- orException (keySwitchCore ks c evalKey)
  let cv0 <- entry cv 0
  let cv0 <- addInEvaluation cache cv0 ab.1
  let cv1 <- entry cv 1
  let cv1 <- (if cv.length = 2 then .ok ab.2 else addInEvaluation cache cv1 ab.2)
  return resizeTwo ((cv.set 0 cv0).set 1 cv1)

/-- Element `sel` is switched; of two elements the second one is replaced. -/
def foldElement (sel : Nat) (cv : List DCRTPoly) (evalKey : EvalKey) :
    Except Failure (List DCRTPoly) := do
  let c <- entry cv sel
  let ab <- orException (keySwitchCore ks c evalKey)
  let cv0 <- entry cv 0
  let cv0 <- orException (DCRTPoly.plusEq cv0 ab.1)
  let cv1 <- entry cv 1
  let cv1 <- (if cv.length = 2 then .ok ab.2 else orException (DCRTPoly.plusEq cv1 ab.2))
  return resizeTwo ((cv.set 0 cv0).set 1 cv1)

end Operations

/-! ## Elements in the evaluation format -/

section Evaluation

variable {cache : Poly.TableCache} {n : Nat} {moduliQ moduli : List Nat}
  (ks : KeySwitching n moduliQ) {cv : List DCRTPoly} (evalKey : EvalKey)

theorem entry_eq {c : DCRTPoly} {i : Nat} (h : cv[i]? = some c) : entry cv i = .ok c := by
  rw [entry, h]

theorem entry_outOfRange {i : Nat} (h : cv.length <= i) :
    entry cv i = .error .outOfRange := by
  rw [entry, List.getElem?_eq_none h]

theorem relinearizeThird_eq : relinearizeThird ks cv evalKey = foldElement ks 2 cv evalKey := by
  unfold relinearizeThird foldElement
  rcases Nat.lt_or_ge 2 cv.length with hlt | hge
  · simp only [if_neg (show ¬ cv.length = 2 by omega)]
  · rw [entry_outOfRange hge]
    rfl

variable (hcv : WellFormedElements n moduli cv)

include hcv

theorem setFormat_eq {c : DCRTPoly} (hc : c ∈ cv) :
    orException (DCRTPoly.setFormat cache c .EVALUATION) = .ok c := by
  rw [DCRTPoly.setFormat_self fun _ ht => (hcv c hc).format_eq ht]
  rfl

theorem addInEvaluation_eq {c : DCRTPoly} (hc : c ∈ cv) (u : DCRTPoly) :
    addInEvaluation cache c u = orException (DCRTPoly.plusEq c u) := by
  rw [addInEvaluation, setFormat_eq hcv hc]
  rfl

theorem keySwitchInPlace_eq : keySwitchInPlace cache ks cv evalKey =
    foldElement ks (cv.length - 1) cv evalKey := by
  have hadd : forall c, c ∈ cv -> forall u,
      addInEvaluation cache c u = orException (DCRTPoly.plusEq c u) :=
    fun c hc u => addInEvaluation_eq hcv hc u
  unfold keySwitchInPlace foldElement
  match cv, hadd with
  | [], _ => rfl
  | [a], hadd => simp [entry, hadd, bind, Except.bind]
  | [a, b], hadd => simp [entry, hadd, bind, Except.bind]
  | a :: b :: c :: rest, hadd => simp [entry, hadd, bind, Except.bind]

theorem relinearizeCore_eq : relinearizeCore cache ks cv evalKey =
    foldElement ks (if cv.length = 2 then 1 else 2) cv evalKey := by
  have hadd : forall c, c ∈ cv -> forall u,
      addInEvaluation cache c u = orException (DCRTPoly.plusEq c u) :=
    fun c hc u => addInEvaluation_eq hcv hc u
  have hself : forall c, c ∈ cv ->
      orException (DCRTPoly.setFormat cache c .EVALUATION) = .ok c :=
    fun c hc => setFormat_eq hcv hc
  unfold relinearizeCore foldElement
  match cv, hadd, hself with
  | [], _, _ => rfl
  | [a], _, _ => rfl
  | [a, b], hadd, hself => simp [entry, hadd, hself, bind, Except.bind]
  | a :: b :: c :: rest, hadd, hself => simp [entry, hadd, hself, bind, Except.bind]

end Evaluation

/-! ## Results without the kind of failure -/

section Results

variable {cache : Poly.TableCache} {n : Nat} {moduliQ : List Nat}
  (ks : KeySwitching n moduliQ)

theorem toOption_bind {α β : Type} (x : Except Failure α) (f : α -> Except Failure β) :
    (x >>= f).toOption = x.toOption.bind fun a => (f a).toOption := by
  cases x <;> rfl

theorem toOption_orException {α : Type} (x : Option α) : (orException x).toOption = x := by
  cases x <;> rfl

theorem toOption_entry (cv : List DCRTPoly) (i : Nat) : (entry cv i).toOption = cv[i]? := by
  unfold entry
  cases cv[i]? <;> rfl

theorem toOption_addInEvaluation (c u : DCRTPoly) : (addInEvaluation cache c u).toOption =
    (DCRTPoly.setFormat cache c .EVALUATION).bind fun c => DCRTPoly.plusEq c u := by
  simp only [addInEvaluation, toOption_bind, toOption_orException]

theorem toOption_keySwitchInPlace (cv : List DCRTPoly) (ek : EvalKey) :
    (keySwitchInPlace cache ks cv ek).toOption = Scheme.keySwitchInPlace cache ks cv ek := by
  have hok : forall {α : Type} (a : α), (pure a : Except Failure α).toOption = some a :=
    fun _ => rfl
  simp only [keySwitchInPlace, Scheme.keySwitchInPlace, toOption_bind, toOption_orException,
    toOption_entry, toOption_addInEvaluation, hok, Option.bind_eq_bind]
  rcases cv with _ | ⟨a, _ | ⟨b, _ | ⟨c, rest⟩⟩⟩
  · rfl
  · simp
  · simp [Except.toOption, resizeTwo, Option.bind_assoc]
  · rw [List.getLast?_eq_getElem?]
    simp [toOption_addInEvaluation, resizeTwo, Option.bind_assoc]

end Results

/-! ## Folding of one element -/

section Folding

variable {n l : Nat} {moduliQ : List Nat} (ks : NoisySwitching n moduliQ)
  {s : DCRTPoly} {cv : List DCRTPoly}

/-- What the first two elements keep: of two elements only the first one. -/
def keptValue (q : Nat) (cv : List DCRTPoly) (s : DCRTPoly) (i r : Nat) : ZMod q :=
  DCRTPoly.value (cv.getD 0 []) i r +
    if cv.length = 2 then 0 else
      (DCRTPoly.value (cv.getD 1 []) i r : ZMod q) * DCRTPoly.value s i r

/-- The switch of `c` with a key for the square of the secret, and its noise. -/
structure SquareSwitch (ks : NoisySwitching n moduliQ) (draw l : Nat) (s : DCRTPoly)
    (evalKey : EvalKey) (c u0 u1 : DCRTPoly) (e : TowerResidues) : Prop where
  switched : keySwitchCore ks.toKeySwitching c evalKey = some (u0, u1)
  noise : ks.Noise draw l c e
  phase_eq : forall i q, (moduliQ.take (l + 1))[i]? = some q -> forall r, r < n ->
    phase q u0 u1 s i r =
      (DCRTPoly.value c i r : ZMod q) * (DCRTPoly.value s i r : ZMod q) ^ 2 + e i q r

/-- The key switches from the square of the secret to the secret. -/
structure SquareKey (ks : NoisySwitching n moduliQ) (draw : Nat) (s : DCRTPoly)
    (evalKey : EvalKey) : Prop where
  secret : DCRTPoly.WellFormed n .EVALUATION moduliQ s
  generated : exists power,
    DCRTPoly.Denotes n .EVALUATION moduliQ (DCRTPoly.residues s ^ 2) power ∧
      ks.keySwitchGen draw power s = some evalKey

variable {draw : Nat} {evalKey : EvalKey} (hkey : SquareKey ks draw s evalKey)
  (hl : l < moduliQ.length)

include hkey hl

theorem SquareKey.switch {c : DCRTPoly}
    (hc : DCRTPoly.WellFormed n .EVALUATION (moduliQ.take (l + 1)) c) :
    exists u0 u1 e, SquareSwitch ks draw l s evalKey c u0 u1 e ∧
      DCRTPoly.WellFormed n .EVALUATION (moduliQ.take (l + 1)) u0 ∧
      DCRTPoly.WellFormed n .EVALUATION (moduliQ.take (l + 1)) u1 := by
  rcases hkey.generated with ⟨power, hpower, hgen⟩
  have hlength : c.length = l + 1 := by
    rw [hc.length_eq, List.length_take]
    omega
  rcases ks.switches draw power s evalKey l c hgen hpower.wellFormed hkey.secret hl hc with
    ⟨digits, u0, u1, hdigits, hrun, hu0, hu1⟩
  rcases ks.noisy draw power s evalKey l c digits u0 u1 hgen hpower.wellFormed hkey.secret hl hc
    hdigits hrun with ⟨e, hnoise, hphase⟩
  refine ⟨u0, u1, e, ⟨?_, hnoise, ?_⟩, hu0, hu1⟩
  · unfold keySwitchCore
    rw [hdigits, hlength]
    exact hrun
  · intro i q hq r hr
    have hfull : moduliQ[i]? = some q := by
      have hi := (List.getElem?_eq_some_iff.mp hq).1
      rw [List.length_take] at hi
      rwa [List.getElem?_take_of_lt (by omega)] at hq
    rw [hphase i q hq r hr, hpower.value_eq i q hfull r hr]
    rfl

theorem foldElement_outOfRange (hmoduli : forall q, q ∈ moduliQ -> Poly.NttModulus q)
    (hcv : WellFormedElements n (moduliQ.take (l + 1)) cv) {sel : Nat}
    (hrange : cv.length <= sel ∨ cv.length < 2) :
    foldElement ks.toKeySwitching sel cv evalKey = .error .outOfRange := by
  have htake : forall q, q ∈ moduliQ.take (l + 1) -> Poly.NttModulus q :=
    fun q hq => hmoduli q (List.mem_of_mem_take hq)
  unfold foldElement
  rcases Nat.lt_or_ge sel cv.length with hlt | hge
  · have hc := List.getElem?_eq_getElem hlt
    have h0 := List.getElem?_eq_getElem (show 0 < cv.length by omega)
    rcases hkey.switch ks hl (hcv _ (List.mem_of_getElem? hc)) with ⟨u0, u1, e, hswitch, hu0, _⟩
    rcases DCRTPoly.plusEq_spec htake (hcv _ (List.mem_of_getElem? h0)) hu0 with ⟨x, hx, _⟩
    rw [entry_eq hc, entry_eq h0]
    simp only [bind, Except.bind, hswitch.switched, orException, hx]
    rw [entry_outOfRange (by omega)]
  · rw [entry_outOfRange hge]
    rfl

theorem foldElement_spec (hmoduli : forall q, q ∈ moduliQ -> Poly.NttModulus q)
    (hcv : WellFormedElements n (moduliQ.take (l + 1)) cv) {sel : Nat} {c : DCRTPoly}
    (hc : cv[sel]? = some c) (htwo : 2 <= cv.length) :
    exists x y u0 u1 e, foldElement ks.toKeySwitching sel cv evalKey = .ok [x, y] ∧
      SquareSwitch ks draw l s evalKey c u0 u1 e ∧
      DCRTPoly.WellFormed n .EVALUATION (moduliQ.take (l + 1)) x ∧
      DCRTPoly.WellFormed n .EVALUATION (moduliQ.take (l + 1)) y ∧
      forall i q, (moduliQ.take (l + 1))[i]? = some q -> forall r, r < n ->
        phase q x y s i r = keptValue q cv s i r + phase q u0 u1 s i r := by
  have htake : forall q, q ∈ moduliQ.take (l + 1) -> Poly.NttModulus q :=
    fun q hq => hmoduli q (List.mem_of_mem_take hq)
  rcases hkey.switch ks hl (hcv c (List.mem_of_getElem? hc)) with ⟨u0, u1, e, hswitch, hu0, hu1⟩
  match cv with
  | a :: b :: rest =>
      have ha := hcv a List.mem_cons_self
      have hb := hcv b (List.mem_cons_of_mem a List.mem_cons_self)
      rcases DCRTPoly.plusEq_spec htake ha hu0 with ⟨x, hx, hxwf, hxvalue⟩
      rcases DCRTPoly.plusEq_spec htake hb hu1 with ⟨y, hy, hywf, hyvalue⟩
      have hrun : foldElement ks.toKeySwitching sel (a :: b :: rest) evalKey =
          .ok [x, if (a :: b :: rest).length = 2 then u1 else y] := by
        unfold foldElement
        rw [entry_eq hc]
        simp only [bind, Except.bind, hswitch.switched, orException, entry,
          List.getElem?_cons_zero, List.getElem?_cons_succ, hx, hy]
        rcases eq_or_ne (a :: b :: rest).length 2 with heq | hne
        · rw [if_pos heq, if_pos heq]
          rfl
        · rw [if_neg hne, if_neg hne]
          rfl
      refine ⟨x, _, u0, u1, e, hrun, hswitch, hxwf, ?_, ?_⟩
      · split
        · exact hu1
        · exact hywf
      · intro i q hq r hr
        unfold phase keptValue
        rw [hxvalue i q hq r hr]
        split
        · simp only [List.getD_cons_zero]
          ring
        · rw [hyvalue i q hq r hr]
          simp only [List.getD_cons_zero, List.getD_cons_succ]
          ring

end Folding

/-! ## Soundness -/

section Soundness

variable {F : Type} [Mul F] {n : Nat} {moduliQ : List Nat}

/--
The operation throws, or the result decrypts to the value up to the noise of the switch of
the selected element.
-/
def Sound (cache : Poly.TableCache) (ks : NoisySwitching n moduliQ) (draw l : Nat)
    (s : DCRTPoly) (evalKey : EvalKey) (selected : Option DCRTPoly)
    (decryption : (i q r : Nat) -> ZMod q) : Except Failure (List DCRTPoly) -> Prop
  | .error .exception => True
  | .error .outOfRange => False
  | .ok cv => exists c u0 u1 e b, selected = some c ∧ SquareSwitch ks draw l s evalKey c u0 u1 e ∧
      decryptCore cache s cv = some b ∧
      forall i q, (moduliQ.take (l + 1))[i]? = some q -> forall r, r < n ->
        (DCRTPoly.value b i r : ZMod q) = decryption i q r + e i q r

/-- Elements of this number are relinearized or refused. -/
def SwitchesSoundly (cache : Poly.TableCache) (ks : NoisySwitching n moduliQ) (l : Nat)
    (operation : List DCRTPoly -> EvalKey -> Except Failure (List DCRTPoly))
    (sel count : Nat) : Prop :=
  forall (draw : Nat) s evalKey cv, SquareKey ks draw s evalKey ->
    WellFormedElements n (moduliQ.take (l + 1)) cv -> cv.length = count ->
    Sound cache ks draw l s evalKey cv[sel]?
      (fun i q r => secretValue q cv s i r) (operation cv evalKey)

/-- Products of ciphertexts with these numbers of elements are relinearized or refused. -/
def MultipliesSoundly (F : Type) [Mul F] (cache : Poly.TableCache)
    (ks : NoisySwitching n moduliQ) (t l count1 count2 : Nat) : Prop :=
  forall (draw : Nat) s evalKey (ciphertext1 ciphertext2 : Ciphertext F),
    SquareKey ks draw s evalKey ->
    WellFormedElements n (moduliQ.take (l + 1)) ciphertext1.elements ->
    WellFormedElements n (moduliQ.take (l + 1)) ciphertext2.elements ->
    ciphertext1.elements.length = count1 -> ciphertext2.elements.length = count2 ->
    exists product, evalMultCore t ciphertext1 ciphertext2 = some product ∧
      Sound cache ks draw l s evalKey product.elements[2]?
        (fun i q r => secretValue q ciphertext1.elements s i r *
          secretValue q ciphertext2.elements s i r)
        ((evalMult ks.toKeySwitching t ciphertext1 ciphertext2 evalKey).map
          Ciphertext.elements)

variable {cache : Poly.TableCache} (ks : NoisySwitching n moduliQ) {l draw : Nat}
  {s : DCRTPoly} {evalKey : EvalKey} (hkey : SquareKey ks draw s evalKey)
  (hmoduli : forall q, q ∈ moduliQ -> Poly.NttModulus q) (hl : l < moduliQ.length)

include hkey hmoduli hl

theorem sound_iff {cv : List DCRTPoly}
    (hcv : WellFormedElements n (moduliQ.take (l + 1)) cv) {sel : Nat}
    (htwo : 2 <= cv.length) {c : DCRTPoly} (hc : cv[sel]? = some c)
    (decryption : (i q r : Nat) -> ZMod q) :
    Sound cache ks draw l s evalKey cv[sel]? decryption
        (foldElement ks.toKeySwitching sel cv evalKey) <->
      forall i q, (moduliQ.take (l + 1))[i]? = some q -> forall r, r < n ->
        decryption i q r = keptValue q cv s i r +
          (DCRTPoly.value c i r : ZMod q) * (DCRTPoly.value s i r : ZMod q) ^ 2 := by
  rcases foldElement_spec ks hkey hl hmoduli hcv hc htwo with
    ⟨x, y, u0, u1, e, hrun, hswitch, hx, hy, hphase⟩
  have hpair : exists b, decryptCore cache s [x, y] = some b ∧ _ :=
    decryptCore_pair hmoduli hl hkey.secret hx hy
  rcases hpair with ⟨b, hb, hvalue⟩
  rw [hrun]
  constructor
  · rintro ⟨c', u0', u1', e', b', hc', hswitch', hb', hsound⟩ i q hq r hr
    cases hc.symm.trans hc'
    cases hb.symm.trans hb'
    cases hswitch.switched.symm.trans hswitch'.switched
    have h1 := hsound i q hq r hr
    have h2 := hvalue i q hq r hr
    have h3 := hphase i q hq r hr
    have h4 := hswitch'.phase_eq i q hq r hr
    linear_combination -h1 + h2 + h3 + h4
  · intro heq
    refine ⟨c, u0, u1, e, b, hc, hswitch, hb, ?_⟩
    intro i q hq r hr
    have h1 := heq i q hq r hr
    have h2 := hvalue i q hq r hr
    have h3 := hphase i q hq r hr
    have h4 := hswitch.phase_eq i q hq r hr
    linear_combination -h1 + h2 + h3 + h4

omit hkey hmoduli hl in
theorem secretValue_three {cv : List DCRTPoly} (hthree : cv.length = 3) {c : DCRTPoly}
    (hc : cv[2]? = some c) (q i r : Nat) :
    secretValue q cv s i r = keptValue q cv s i r +
      (DCRTPoly.value c i r : ZMod q) * (DCRTPoly.value s i r : ZMod q) ^ 2 := by
  have hget : cv.getD 2 [] = c := by
    rw [List.getD_eq_getElem?_getD, hc]
    rfl
  rw [secretValue, keptValue, hthree, if_neg (by decide), Finset.sum_range_succ,
    Finset.sum_range_succ, Finset.sum_range_one, pow_zero, pow_one, mul_one, hget]

end Soundness

/-! ## Single elements -/

section Units

variable {n : Nat} {moduli : List Nat}

def constantElement (n : Nat) (moduli : List Nat) (v : Nat) : DCRTPoly :=
  DCRTPoly.constant moduli (List.replicate n v)

theorem constantElement_denotes {v : Nat} (hv : forall q, q ∈ moduli -> v < q) :
    DCRTPoly.Denotes n .EVALUATION moduli v (constantElement n moduli v) := by
  refine ⟨DCRTPoly.constant_wellFormed _ List.length_replicate ?_, ?_⟩
  · intro q hq x hx
    rw [List.eq_of_mem_replicate hx]
    exact hv q hq
  · intro i q hq r hr
    have htower : (constantElement n moduli v)[i]? = some
        { modulus := q, format := .EVALUATION, values := List.replicate n v } := by
      rw [constantElement, DCRTPoly.constant, List.getElem?_map, hq]
      rfl
    have hvalue : DCRTPoly.value (constantElement n moduli v) i r = v := by
      rw [DCRTPoly.value_eq htower, Poly.value, List.getD_eq_getElem _ _ (by
        rw [List.length_replicate]
        exact hr), List.getElem_replicate]
    rw [hvalue]
    rfl

def unitElements (n : Nat) (moduli : List Nat) (count a : Nat) : List DCRTPoly :=
  (List.range count).map fun k => constantElement n moduli (if k = a then 1 else 0)

theorem unitElements_spec (hone : forall q, q ∈ moduli -> 1 < q) {count a : Nat}
    (ha : a < count) : Elements n moduli (X ^ a) (unitElements n moduli count a) := by
  constructor
  · intro k c hc
    have hk := (List.getElem?_eq_some_iff.mp hc).1
    rw [unitElements, List.length_map, List.length_range] at hk
    rw [unitElements, List.getElem?_map, List.getElem?_range hk] at hc
    cases hc
    dsimp only
    rw [coeff_X_pow]
    rcases eq_or_ne k a with heq | hne
    · rw [if_pos heq, if_pos heq, ← Nat.cast_one]
      exact constantElement_denotes hone
    · rw [if_neg hne, if_neg hne, ← Nat.cast_zero]
      exact constantElement_denotes fun q hq => Nat.lt_of_succ_lt (hone q hq)
  · intro k hk
    rw [unitElements, List.length_map, List.length_range] at hk
    rw [coeff_X_pow, if_neg (by omega)]

variable {cv : List DCRTPoly} {a : Nat} (h : Elements n moduli (X ^ a) cv) {i q r : Nat}
  (hq : moduli[i]? = some q) (hr : r < n)

include h hq hr

theorem unit_value {k : Nat} (hk : k < cv.length) :
    (DCRTPoly.value (cv.getD k []) i r : ZMod q) = if k = a then 1 else 0 := by
  rcases h.entry hk with ⟨c, hc, hden⟩
  rw [List.getD_eq_getElem?_getD, hc, Option.getD_some, hden.value_eq i q hq r hr, coeff_X_pow]
  split <;> rfl

theorem unit_secretValue (s : DCRTPoly) :
    secretValue q cv s i r = (DCRTPoly.value s i r : ZMod q) ^ a := by
  rw [h.secretValue_eq s hq hr, eval_pow, eval_X]
  rfl

end Units

/-! ## The sizes -/

section Sizes

variable {F : Type} [Mul F] [Inhabited F] {cache : Poly.TableCache} {n l : Nat}
  {moduliQ : List Nat} (ks : NoisySwitching n moduliQ)
  (hmoduli : forall q, q ∈ moduliQ -> Poly.NttModulus q) (hl : l < moduliQ.length)

include hmoduli

theorem exists_squareKey (hl : l < moduliQ.length) {v : Nat}
    (hv : forall q, q ∈ moduliQ -> v < q) :
    exists evalKey, SquareKey ks 0 (constantElement n moduliQ v) evalKey := by
  have hs := constantElement_denotes (n := n) hv
  rcases DCRTPoly.times_denotes hmoduli hs.wellFormed.denotes hs.wellFormed.denotes (by omega)
    with ⟨power, _, hpower⟩
  rcases ks.generates 0 power _ hpower.wellFormed hs.wellFormed with ⟨evalKey, hgen⟩
  rw [← pow_two] at hpower
  exact ⟨evalKey, hs.wellFormed, power, hpower, hgen⟩

include hl

omit hmoduli in
theorem value_constantElement {v : Nat} (hv : forall q, q ∈ moduliQ -> v < q) {i q r : Nat}
    (hq : (moduliQ.take (l + 1))[i]? = some q) (hr : r < n) :
    (DCRTPoly.value (constantElement n moduliQ v) i r : ZMod q) = v := by
  have hfull : moduliQ[i]? = some q := by
    have hi := (List.getElem?_eq_some_iff.mp hq).1
    rw [List.length_take] at hi
    rwa [List.getElem?_take_of_lt (by omega)] at hq
  exact (constantElement_denotes hv).value_eq i q hfull r hr

theorem not_sound_unit (hn : 0 < n) {cv : List DCRTPoly} {a sel : Nat}
    (h : Elements n (moduliQ.take (l + 1)) (X ^ a) cv) (htwo : 2 <= a) (ha : a < cv.length)
    (hsel : sel < cv.length) (hne : sel ≠ a) {evalKey : EvalKey}
    (hkey : SquareKey ks 0 (constantElement n moduliQ 1) evalKey)
    {decryption : (i q r : Nat) -> ZMod q}
    (hdecryption : forall i q, (moduliQ.take (l + 1))[i]? = some q -> forall r, r < n ->
      decryption i q r = 1) :
    ¬ Sound cache ks 0 l (constantElement n moduliQ 1) evalKey cv[sel]? decryption
      (foldElement ks.toKeySwitching sel cv evalKey) := by
  intro hsound
  have hc := List.getElem?_eq_getElem hsel
  have hequation := (sound_iff ks hkey hmoduli hl h.wellFormed (by omega) hc _).mp hsound
  have h0 : 0 < (moduliQ.take (l + 1)).length := by
    rw [List.length_take]
    omega
  have hq := List.getElem?_eq_getElem h0
  have hone := (hmoduli _ (List.mem_of_mem_take (List.mem_of_getElem? hq))).one_lt
  have heq := hequation 0 _ hq 0 hn
  have hget : cv.getD sel [] = cv[sel] := by
    rw [List.getD_eq_getElem?_getD, hc]
    rfl
  rw [hdecryption 0 _ hq 0 hn, keptValue, unit_value h hq hn (by omega),
    unit_value h hq hn (by omega), ← hget, unit_value h hq hn hsel, if_neg (show ¬ 0 = a by omega), if_neg (show ¬ 1 = a by omega),
    if_neg hne, zero_mul, zero_mul, ite_self, add_zero, add_zero] at heq
  have : Fact (1 < (moduliQ.take (l + 1))[0]) := ⟨hone⟩
  exact one_ne_zero heq

theorem not_sound_two (hn : 0 < n) {cv : List DCRTPoly}
    (h : Elements n (moduliQ.take (l + 1)) (X ^ 1) cv) (htwo : cv.length = 2)
    (hodd : forall q, q ∈ moduliQ -> 2 < q) {evalKey : EvalKey}
    (hkey : SquareKey ks 0 (constantElement n moduliQ 2) evalKey) :
    ¬ Sound cache ks 0 l (constantElement n moduliQ 2) evalKey cv[1]?
      (fun i q r => secretValue q cv (constantElement n moduliQ 2) i r)
      (foldElement ks.toKeySwitching 1 cv evalKey) := by
  intro hsound
  have hc := List.getElem?_eq_getElem (show 1 < cv.length by omega)
  have hequation := (sound_iff ks hkey hmoduli hl h.wellFormed (by omega) hc _).mp hsound
  have h0 : 0 < (moduliQ.take (l + 1)).length := by
    rw [List.length_take]
    omega
  have hq := List.getElem?_eq_getElem h0
  have hmem := List.mem_of_mem_take (List.mem_of_getElem? hq)
  have heq := hequation 0 _ hq 0 hn
  have hget : cv.getD 1 [] = cv[1] := by
    rw [List.getD_eq_getElem?_getD, hc]
    rfl
  rw [keptValue, unit_value h hq hn (by omega), ← hget, unit_value h hq hn (by omega),
    unit_secretValue h hq hn, value_constantElement hl hodd hq hn, if_neg (by decide),
    if_pos htwo, if_pos rfl] at heq
  have htwo' : ((2 : Nat) : ZMod (moduliQ.take (l + 1))[0]) = 0 := by
    push_cast at heq ⊢
    linear_combination -heq
  have hdvd := (ZMod.natCast_eq_zero_iff _ _).mp htwo'
  have hle := Nat.le_of_dvd (by decide) hdvd
  have hlt := hodd _ hmem
  omega

theorem switchesSoundly_iff (hn : 0 < n) (hodd : forall q, q ∈ moduliQ -> 2 < q)
    {operation : List DCRTPoly -> EvalKey -> Except Failure (List DCRTPoly)} {sel count : Nat}
    (hoperation : forall cv evalKey, WellFormedElements n (moduliQ.take (l + 1)) cv ->
      cv.length = count -> operation cv evalKey = foldElement ks.toKeySwitching sel cv evalKey)
    (hcount : 0 < count) (hsel : sel = count - 1 ∨ count ≠ 2 ∧ sel = 2) :
    SwitchesSoundly cache ks l operation sel count <-> count = 3 := by
  have hone : forall q, q ∈ moduliQ -> 1 < q := fun q hq => (hmoduli q hq).one_lt
  have htake : forall q, q ∈ moduliQ.take (l + 1) -> 1 < q :=
    fun q hq => hone q (List.mem_of_mem_take hq)
  have hlength : forall a, (unitElements n (moduliQ.take (l + 1)) count a).length = count := by
    intro a
    rw [unitElements, List.length_map, List.length_range]
  rcases exists_squareKey ks hmoduli hl hone with ⟨evalKey1, hkey1⟩
  rcases exists_squareKey ks hmoduli hl hodd with ⟨evalKey2, hkey2⟩
  constructor
  · intro h
    rcases Nat.lt_trichotomy count 3 with hlt | heq | hgt
    · rcases Nat.lt_or_ge count 2 with hone' | htwo
      · have hcv := (unitElements_spec (n := n) htake hcount).wellFormed
        have hsound := h 0 _ evalKey1 _ hkey1 hcv (hlength 0)
        rw [hoperation _ _ hcv (hlength 0), foldElement_outOfRange ks hkey1 hl hmoduli hcv
          (Or.inr (by rw [hlength]; exact hone'))] at hsound
        exact hsound.elim
      · have hcv := unitElements_spec (n := n) htake (show 1 < count by omega)
        have hsel' : sel = 1 := by omega
        have hsound := h 0 _ evalKey2 _ hkey2 hcv.wellFormed (hlength 1)
        rw [hoperation _ _ hcv.wellFormed (hlength 1), hsel'] at hsound
        exact absurd hsound (not_sound_two ks hmoduli hl hn hcv (by rw [hlength]; omega) hodd hkey2)
    · exact heq
    · have hother : exists a, 2 <= a ∧ a < count ∧ sel ≠ a ∧ sel < count := by
        rcases eq_or_ne sel 2 with htwo | hne
        · exact ⟨3, by omega, by omega, by omega, by omega⟩
        · exact ⟨2, by omega, by omega, hne, by omega⟩
      rcases hother with ⟨a, htwo, ha, hne, hselt⟩
      have hcv := unitElements_spec (n := n) htake ha
      have hsound := h 0 _ evalKey1 _ hkey1 hcv.wellFormed (hlength a)
      rw [hoperation _ _ hcv.wellFormed (hlength a)] at hsound
      refine absurd hsound (not_sound_unit ks hmoduli hl hn hcv htwo (by rw [hlength]; exact ha)
        (by rw [hlength]; exact hselt) hne hkey1 ?_)
      intro i q hq r hr
      rw [unit_secretValue hcv hq hr, value_constantElement hl hone hq hr, Nat.cast_one, one_pow]
  · rintro rfl draw s evalKey cv hkey hcv hlen
    have hsel' : sel = 2 := by omega
    cases hsel'
    have hc := List.getElem?_eq_getElem (show 2 < cv.length by omega)
    rw [hoperation cv evalKey hcv hlen, sound_iff ks hkey hmoduli hl hcv (by omega) hc]
    intro i q _ r _
    exact secretValue_three hlen hc q i r

omit [Inhabited F] hmoduli hl in
theorem evalMult_elements {t : Nat} {ciphertext1 ciphertext2 product : Ciphertext F}
    (hproduct : evalMultCore t ciphertext1 ciphertext2 = some product) (evalKey : EvalKey) :
    (evalMult ks.toKeySwitching t ciphertext1 ciphertext2 evalKey).map Ciphertext.elements =
      foldElement ks.toKeySwitching 2 product.elements evalKey := by
  rw [← relinearizeThird_eq]
  unfold evalMult
  rw [hproduct]
  cases hrun : relinearizeThird ks.toKeySwitching product.elements evalKey with
  | error failure =>
      simp only [bind, Except.bind, orException, hrun]
      rfl
  | ok cv =>
      simp only [bind, Except.bind, orException, hrun]
      rfl

omit [Mul F] hmoduli hl in
/-- A ciphertext of the highest power that its number of elements allows. -/
def unitCiphertext (F : Type) [Inhabited F] (n : Nat) (moduli : List Nat) (count : Nat) :
    Ciphertext F where
  elements := unitElements n moduli count (count - 1)
  noiseScaleDeg := 1
  scalingFactor := default
  scalingFactorInt := 1
  level := 0
  hopslevel := 0
  slots := 0

theorem not_sound_product (hn : 0 < n) (t : Nat) {count1 count2 : Nat} (h1 : 0 < count1)
    (h2 : 0 < count2) (hsizes : count1 + count2 ≠ 4) :
    exists evalKey product, SquareKey ks 0 (constantElement n moduliQ 1) evalKey ∧
      evalMultCore t (unitCiphertext F n (moduliQ.take (l + 1)) count1)
        (unitCiphertext F n (moduliQ.take (l + 1)) count2) = some product ∧
      ¬ Sound cache ks 0 l (constantElement n moduliQ 1) evalKey product.elements[2]?
        (fun i q r =>
          secretValue q (unitCiphertext F n (moduliQ.take (l + 1)) count1).elements
              (constantElement n moduliQ 1) i r *
            secretValue q (unitCiphertext F n (moduliQ.take (l + 1)) count2).elements
              (constantElement n moduliQ 1) i r)
        ((evalMult ks.toKeySwitching t (unitCiphertext F n (moduliQ.take (l + 1)) count1)
          (unitCiphertext F n (moduliQ.take (l + 1)) count2) evalKey).map
            Ciphertext.elements) := by
  have hone : forall q, q ∈ moduliQ -> 1 < q := fun q hq => (hmoduli q hq).one_lt
  have htake : forall q, q ∈ moduliQ.take (l + 1) -> Poly.NttModulus q :=
    fun q hq => hmoduli q (List.mem_of_mem_take hq)
  have hne : 0 < (moduliQ.take (l + 1)).length := by
    rw [List.length_take]
    omega
  have hunit : forall count, 0 < count -> Elements n (moduliQ.take (l + 1)) (X ^ (count - 1))
      (unitCiphertext F n (moduliQ.take (l + 1)) count).elements := by
    intro count hcount
    exact unitElements_spec (fun q hq => (htake q hq).one_lt) (by omega)
  have hlength : forall count,
      (unitCiphertext F n (moduliQ.take (l + 1)) count).elements.length = count := by
    intro count
    rw [unitCiphertext, unitElements, List.length_map, List.length_range]
  rcases exists_squareKey (n := n) ks hmoduli hl hone with ⟨evalKey, hkey⟩
  rcases evalMultCore_spec htake hne t (hunit count1 h1) (hunit count2 h2)
    (by rw [hlength]; exact h1) (by rw [hlength]; exact h2) with ⟨cvr, hrun, hcvr, helements⟩
  refine ⟨evalKey, _, hkey, hrun, ?_⟩
  rw [← pow_add] at helements
  rw [hlength, hlength] at hcvr
  rw [evalMult_elements ks hrun]
  rcases Nat.lt_trichotomy cvr.length 3 with hlt | heq | hgt
  · rw [foldElement_outOfRange ks hkey hl hmoduli helements.wellFormed
      (Or.inl (Nat.le_of_lt_succ hlt))]
    exact id
  · omega
  · apply not_sound_unit ks hmoduli hl hn helements (by omega) (by omega) (by omega) (by omega)
      hkey
    intro i q hq r hr
    rw [unit_secretValue (hunit count1 h1) hq hr, unit_secretValue (hunit count2 h2) hq hr,
      value_constantElement hl hone hq hr, Nat.cast_one, one_pow, one_pow, one_mul]

theorem multipliesSoundly_iff (hn : 0 < n) (t : Nat) {count1 count2 : Nat}
    (h1 : 0 < count1) (h2 : 0 < count2) :
    MultipliesSoundly F cache ks t l count1 count2 <-> count1 + count2 = 4 := by
  have htake : forall q, q ∈ moduliQ.take (l + 1) -> Poly.NttModulus q :=
    fun q hq => hmoduli q (List.mem_of_mem_take hq)
  have hne : 0 < (moduliQ.take (l + 1)).length := by
    rw [List.length_take]
    omega
  constructor
  · intro h
    by_contra hsizes
    rcases @not_sound_product F _ _ cache n l moduliQ ks hmoduli hl hn t _ _ h1 h2 hsizes with
      ⟨evalKey, product, hkey, hproduct, hnot⟩
    have hone : forall q, q ∈ moduliQ.take (l + 1) -> 1 < q := fun q hq => (htake q hq).one_lt
    have hunit : forall count, 0 < count -> WellFormedElements n (moduliQ.take (l + 1))
        (unitCiphertext F n (moduliQ.take (l + 1)) count).elements :=
      fun count hcount => (unitElements_spec hone (show count - 1 < count by omega)).wellFormed
    have hlength : forall count,
        (unitCiphertext F n (moduliQ.take (l + 1)) count).elements.length = count := by
      intro count
      rw [unitCiphertext, unitElements, List.length_map, List.length_range]
    rcases h 0 _ evalKey _ _ hkey (hunit count1 h1) (hunit count2 h2) (hlength count1)
      (hlength count2) with ⟨product', hproduct', hsound⟩
    cases hproduct.symm.trans hproduct'
    exact hnot hsound
  · intro hfour draw s evalKey ciphertext1 ciphertext2 hkey hcv1 hcv2 hlen1 hlen2
    rcases hcv1.exists_elements with ⟨A, hA⟩
    rcases hcv2.exists_elements with ⟨B, hB⟩
    rcases evalMultCore_spec htake hne t hA hB (by omega) (by omega) with
      ⟨cvr, hrun, hcvr, hAB⟩
    have hthree : cvr.length = 3 := by omega
    have hc := List.getElem?_eq_getElem (show 2 < cvr.length by omega)
    refine ⟨_, hrun, ?_⟩
    rw [evalMult_elements ks hrun, sound_iff ks hkey hmoduli hl hAB.wellFormed (by omega) hc]
    intro i q hq r hr
    rw [← secretValue_three hthree hc, hAB.secretValue_eq s hq hr, hA.secretValue_eq s hq hr,
      hB.secretValue_eq s hq hr, eval_mul]
    rfl

end Sizes

theorem smallModuli (q : Nat) (hq : q ∈ BV.smallParameters.moduliQ) : Poly.NttModulus q :=
  (smallSetting.ready q hq).modulus

end SingleKey

end Scheme
end OpenFHE
