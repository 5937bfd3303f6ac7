import OpenFHE.Scheme.CiphertextProduct

/-!
# Relinearization

The elements from the third one on are switched, each with the key for its power of the
secret.
-/

namespace OpenFHE
namespace Scheme

open OpenFHE.Core Foundation Hal KeySwitch Polynomial

/--
A technique whose switched pairs have the phase of the product with the old secret, up to
the noise of that draw, level and element.
-/
structure NoisySwitching (n : Nat) (moduliQ : List Nat) extends KeySwitching n moduliQ where
  Noise : Nat -> Nat -> DCRTPoly -> TowerResidues -> Prop
  noisy : forall draw sOld sNew evalKey l c digits u0 u1,
    keySwitchGen draw sOld sNew = some evalKey ->
    DCRTPoly.WellFormed n .EVALUATION moduliQ sOld ->
    DCRTPoly.WellFormed n .EVALUATION moduliQ sNew -> l < moduliQ.length ->
    DCRTPoly.WellFormed n .EVALUATION (moduliQ.take (l + 1)) c ->
    evalKeySwitchPrecomputeCore c = some digits ->
    evalFastKeySwitchCore digits evalKey (l + 1) = some (u0, u1) ->
    exists e, Noise draw l c e ∧
      forall i q, (moduliQ.take (l + 1))[i]? = some q -> forall r, r < n ->
        phase q u0 u1 sNew i r =
          DCRTPoly.value c i r * DCRTPoly.value sOld i r + e i q r

/-! ## Formats -/

/-- In the evaluation format the elements are `ev`. -/
structure EvaluationForm (cache : Poly.TableCache) (towers : Nat) (cv ev : List DCRTPoly) :
    Prop where
  mapM_eq : cv.mapM (fun c => DCRTPoly.setFormat cache c .EVALUATION) = some ev
  length_eq : ev.length = cv.length
  towers_eq : forall c, c ∈ cv -> c.length = towers
  setFormat_eq : forall (k : Nat) c e, cv[k]? = some c -> ev[k]? = some e ->
    DCRTPoly.setFormat cache c .EVALUATION = some e

section Formats

variable {cache : Poly.TableCache} {k : Nat} {psi : Nat -> Nat} {moduli : List Nat}
  {cv : List DCRTPoly}

theorem exists_evaluationForm (hk : 0 < k) (hk31 : k <= 31)
    (hready : DCRTPoly.ReadyChain cache k psi moduli)
    (hcv : forall c, c ∈ cv -> exists format, DCRTPoly.WellFormed (2 ^ k) format moduli c) :
    exists ev, EvaluationForm cache moduli.length cv ev ∧
      WellFormedElements (2 ^ k) moduli ev := by
  rcases mapM_spec (l := cv) (f := fun c => DCRTPoly.setFormat cache c .EVALUATION)
    (fun c e => DCRTPoly.setFormat cache c .EVALUATION = some e ∧
      DCRTPoly.WellFormed (2 ^ k) .EVALUATION moduli e)
    (by
      intro c hc
      rcases hcv c hc with ⟨format, hwf⟩
      rcases DCRTPoly.setFormat_wellFormed hk hk31 (fun q hq => ⟨psi q, hready q hq⟩) hwf
        .EVALUATION with ⟨e, he, hewf⟩
      exact ⟨e, he, he, hewf⟩) with ⟨ev, hev, hlength, hget⟩
  refine ⟨ev, ⟨hev, hlength, ?_, ?_⟩, ?_⟩
  · intro c hc
    rcases hcv c hc with ⟨format, hwf⟩
    exact hwf.length_eq
  · intro j c e hc he
    exact (hget j c e hc he).1
  · intro e he
    rcases List.mem_iff_getElem?.mp he with ⟨j, hj⟩
    have hrange := (List.getElem?_eq_some_iff.mp hj).1
    rw [hlength] at hrange
    exact (hget j _ e (List.getElem?_eq_getElem hrange) hj).2

theorem evaluationForm_self {n : Nat} (hcv : WellFormedElements n moduli cv) :
    EvaluationForm cache moduli.length cv cv := by
  have hself : forall c, c ∈ cv -> DCRTPoly.setFormat cache c .EVALUATION = some c :=
    fun c hc => DCRTPoly.setFormat_self fun _ ht => (hcv c hc).format_eq ht
  refine ⟨?_, rfl, fun c hc => (hcv c hc).length_eq, ?_⟩
  · clear hcv
    induction cv with
    | nil => rfl
    | cons c cv ih =>
        rw [List.mapM_cons, hself c List.mem_cons_self,
          ih fun c' hc' => hself c' (List.mem_cons_of_mem c hc')]
        rfl
  · intro j c e hc he
    cases hc.symm.trans he
    exact hself c (List.mem_of_getElem? hc)

end Formats

/-! ## Decryption -/

section Decryption

variable {cache : Poly.TableCache} {n l : Nat} {moduliQ : List Nat} {s : DCRTPoly}
  {cv ev : List DCRTPoly}
  (hmoduli : forall q, q ∈ moduliQ -> Poly.NttModulus q) (hl : l < moduliQ.length)
  (hs : DCRTPoly.WellFormed n .EVALUATION moduliQ s)

include hmoduli hl hs

theorem decryptCore_spec (hform : EvaluationForm cache (l + 1) cv ev) {A : TowerResidues[X]}
    (hev : Elements n (moduliQ.take (l + 1)) A ev) (hpos : 0 < cv.length) :
    exists b, decryptCore cache s cv = some b ∧
      DCRTPoly.Denotes n .EVALUATION (moduliQ.take (l + 1))
        (A.eval (DCRTPoly.residues s)) b := by
  have htake : forall q, q ∈ moduliQ.take (l + 1) -> Poly.NttModulus q :=
    fun q hq => hmoduli q (List.mem_of_mem_take hq)
  have hne : 0 < (moduliQ.take (l + 1)).length := by
    rw [List.length_take]
    omega
  have hscopy : DCRTPoly.Denotes n .EVALUATION (moduliQ.take (l + 1)) (DCRTPoly.residues s)
      (s.take (l + 1)) := by
    refine ⟨hs.take (l + 1), ?_⟩
    intro i q hq r _
    have hi := (List.getElem?_eq_some_iff.mp hq).1
    rw [List.length_take] at hi
    rw [DCRTPoly.value_take s (by omega)]
    rfl
  have hc0 := List.getElem?_eq_getElem hpos
  rcases hev.entry (k := 0) (by rw [hform.length_eq]; exact hpos) with ⟨e0, he0, hden0⟩
  have hlength := hform.towers_eq _ (List.mem_of_getElem? hc0)
  have hdrop := DCRTPoly.dropLastElements_eq hs (Nat.succ_pos l) hl
  rcases foldlM_range_spec (n := cv.length - 1) (s := (e0, s.take (l + 1)))
    (f := fun (st : DCRTPoly × DCRTPoly) i => do
      let ci <- cv[i + 1]?
      let ci <- DCRTPoly.setFormat cache ci .EVALUATION
      let term <- DCRTPoly.times st.2 ci
      let b <- DCRTPoly.plusEq st.1 term
      let sPower <- DCRTPoly.timesEq st.2 (s.take (l + 1))
      return (b, sPower))
    (fun i st =>
      DCRTPoly.Denotes n .EVALUATION (moduliQ.take (l + 1))
        (∑ j ∈ Finset.range (i + 1), A.coeff j * DCRTPoly.residues s ^ j) st.1 ∧
      DCRTPoly.Denotes n .EVALUATION (moduliQ.take (l + 1))
        (DCRTPoly.residues s ^ (i + 1)) st.2)
    (by
      rw [Finset.sum_range_one, pow_zero, mul_one, zero_add, pow_one]
      exact ⟨hden0, hscopy⟩)
    (by
      intro i hi st hst
      rcases hst with ⟨hb, hpower⟩
      have hc := List.getElem?_eq_getElem (show i + 1 < cv.length by omega)
      rcases hev.entry (k := i + 1) (by rw [hform.length_eq]; omega) with ⟨e, he, hden⟩
      rcases DCRTPoly.times_denotes htake hpower hden hne with ⟨term, hterm, htermden⟩
      rcases DCRTPoly.plusEq_denotes htake hb htermden with ⟨b, hb', hbden⟩
      rcases DCRTPoly.timesEq_denotes htake hpower hscopy with ⟨p, hp, hpden⟩
      refine ⟨(b, p), ?_, ?_, ?_⟩
      · rw [hc]
        simp only [Option.bind_eq_bind, Option.bind_some]
        rw [hform.setFormat_eq _ _ _ hc he]
        simp only [Option.bind_some, hterm, hb', hp]
        rfl
      · rw [Finset.sum_range_succ, mul_comm (A.coeff (i + 1))]
        exact hbden
      · rw [pow_succ]
        exact hpden) with ⟨st, hst, hspec, _⟩
  refine ⟨st.1, ?_, ?_⟩
  · unfold decryptCore
    rw [hc0]
    simp only [Option.bind_eq_bind, Option.bind_some] at hst ⊢
    rw [hlength, hs.length_eq, if_neg (by omega), hdrop, Option.bind_some,
      hform.setFormat_eq _ _ _ hc0 he0, Option.bind_some, hst]
    rfl
  · rw [Nat.sub_add_cancel hpos, ← hform.length_eq] at hspec
    rw [hev.eval_eq]
    exact hspec

omit hmoduli hl hs in
theorem wellFormedElements_pair {moduli : List Nat} {x y : DCRTPoly}
    (hx : DCRTPoly.WellFormed n .EVALUATION moduli x)
    (hy : DCRTPoly.WellFormed n .EVALUATION moduli y) : WellFormedElements n moduli [x, y] := by
  intro c hc
  rcases List.mem_pair.mp hc with heq | heq
  · cases heq
    exact hx
  · cases heq
    exact hy

theorem decryptCore_pair {x y : DCRTPoly}
    (hx : DCRTPoly.WellFormed n .EVALUATION (moduliQ.take (l + 1)) x)
    (hy : DCRTPoly.WellFormed n .EVALUATION (moduliQ.take (l + 1)) y) :
    exists b, decryptCore cache s [x, y] = some b ∧
      forall i q, (moduliQ.take (l + 1))[i]? = some q -> forall r, r < n ->
        (DCRTPoly.value b i r : ZMod q) = phase q x y s i r := by
  have hxy := wellFormedElements_pair hx hy
  have hform : EvaluationForm cache (moduliQ.take (l + 1)).length [x, y] [x, y] :=
    evaluationForm_self hxy
  rw [List.length_take, Nat.min_eq_left hl] at hform
  rcases hxy.exists_elements with ⟨A, hA⟩
  rcases decryptCore_spec hmoduli hl hs hform hA (Nat.succ_pos 1) with ⟨b, hb, hden⟩
  refine ⟨b, hb, ?_⟩
  intro i q hq r hr
  have hsecret : secretValue q [x, y] s i r = phase q x y s i r := by
    rw [secretValue, List.length_cons, List.length_singleton, Finset.sum_range_succ,
      Finset.sum_range_one, pow_zero, pow_one, mul_one]
    rfl
  rw [hden.value_eq i q hq r hr, ← hA.secretValue_eq s hq hr, hsecret]

end Decryption

/-! ## Keys -/

section Keys

variable {n : Nat} {moduliQ : List Nat} (ks : KeySwitching n moduliQ) {s : DCRTPoly}

/-- Key `j` belongs to the power `j + 2` of the secret. -/
def PowerKeys (s : DCRTPoly) (count : Nat) (evalKeyVec : List EvalKey) : Prop :=
  forall j, j < count -> exists power evalKey, evalKeyVec[j]? = some evalKey ∧
    DCRTPoly.Denotes n .EVALUATION moduliQ (DCRTPoly.residues s ^ (j + 2)) power ∧
    ks.keySwitchGen j power s = some evalKey

theorem evalMultKeysGen_spec (hmoduli : forall q, q ∈ moduliQ -> Poly.NttModulus q)
    (hne : 0 < moduliQ.length) (hs : DCRTPoly.WellFormed n .EVALUATION moduliQ s)
    (maxRelinSkDeg : Nat) :
    exists evalKeyVec, evalMultKeysGen ks s maxRelinSkDeg = some evalKeyVec ∧
      evalKeyVec.length = maxRelinSkDeg - 1 ∧ PowerKeys ks s (maxRelinSkDeg - 1) evalKeyVec := by
  rcases foldlM_range_spec (n := maxRelinSkDeg - 1) (s := (s, ([] : List EvalKey)))
    (f := fun (st : DCRTPoly × List EvalKey) i => do
      let power <- DCRTPoly.times s st.1
      let evalKey <- ks.keySwitchGen i power s
      return (power, st.2 ++ [evalKey]))
    (fun i st =>
      DCRTPoly.Denotes n .EVALUATION moduliQ (DCRTPoly.residues s ^ (i + 1)) st.1 ∧
      st.2.length = i ∧ PowerKeys ks s i st.2)
    (by
      rw [zero_add, pow_one]
      exact ⟨hs.denotes, rfl, fun j hj => absurd hj (Nat.not_lt_zero j)⟩)
    (by
      intro i _ st hst
      rcases hst with ⟨hpower, hlength, hkeys⟩
      rcases DCRTPoly.times_denotes hmoduli hs.denotes hpower hne with ⟨power, hp, hpden⟩
      rw [← pow_succ'] at hpden
      rcases ks.generates i power s hpden.wellFormed hs with ⟨evalKey, hkey⟩
      refine ⟨(power, st.2 ++ [evalKey]), ?_, hpden, ?_, ?_⟩
      · simp only [Option.bind_eq_bind, Option.bind_some, hp, hkey]
        rfl
      · rw [List.length_append, List.length_singleton, hlength]
      · intro j hj
        rcases Nat.lt_succ_iff_lt_or_eq.mp hj with hlt | heq
        · rcases hkeys j hlt with ⟨p, key, hget, hrest⟩
          refine ⟨p, key, ?_, hrest⟩
          rw [List.getElem?_append_left (by omega)]
          exact hget
        · cases heq
          refine ⟨power, evalKey, ?_, hpden, hkey⟩
          rw [← hlength]
          exact List.getElem?_concat_length) with ⟨st, hst, _, hlength, hkeys⟩
  refine ⟨st.2, ?_, hlength, hkeys⟩
  unfold evalMultKeysGen
  rw [hst]
  rfl

end Keys

/-! ## Folding of the higher elements -/

section Relinearization

variable {cache : Poly.TableCache} {n l : Nat} {moduliQ : List Nat}
  (ks : NoisySwitching n moduliQ) {s : DCRTPoly} {cv ev : List DCRTPoly}
  {evalKeyVec : List EvalKey}

/-- The first `j` of the higher elements are folded into the first two. -/
structure Folded (n : Nat) (moduli : List Nat) (s : DCRTPoly) (ev : List DCRTPoly)
    (noise : Nat -> TowerResidues) (j : Nat) (st : List DCRTPoly) : Prop where
  length_eq : st.length = ev.length
  get : forall (k : Nat), 2 <= k -> st[k]? = ev[k]?
  phase_eq : exists x y, st[0]? = some x ∧ st[1]? = some y ∧
    DCRTPoly.WellFormed n .EVALUATION moduli x ∧ DCRTPoly.WellFormed n .EVALUATION moduli y ∧
    forall i q, moduli[i]? = some q -> forall r, r < n ->
      phase q x y s i r =
        (∑ k ∈ Finset.range (j + 2),
          (DCRTPoly.value (ev.getD k []) i r : ZMod q) * (DCRTPoly.value s i r : ZMod q) ^ k) +
        ∑ m ∈ Finset.range j, noise m i q r

variable (hmoduli : forall q, q ∈ moduliQ -> Poly.NttModulus q) (hl : l < moduliQ.length)
  (hs : DCRTPoly.WellFormed n .EVALUATION moduliQ s)
  (hev : WellFormedElements n (moduliQ.take (l + 1)) ev)

include hl hs hev in
theorem switch_element {count : Nat} (hkeys : PowerKeys ks.toKeySwitching s count evalKeyVec)
    {j : Nat} (hj : j < count) {c : DCRTPoly} (hc : ev[j + 2]? = some c) :
    exists evalKey u0 u1 e, evalKeyVec[j]? = some evalKey ∧
      keySwitchCore ks.toKeySwitching c evalKey = some (u0, u1) ∧ ks.Noise j l c e ∧
      DCRTPoly.WellFormed n .EVALUATION (moduliQ.take (l + 1)) u0 ∧
      DCRTPoly.WellFormed n .EVALUATION (moduliQ.take (l + 1)) u1 ∧
      forall i q, (moduliQ.take (l + 1))[i]? = some q -> forall r, r < n ->
        phase q u0 u1 s i r = (DCRTPoly.value (ev.getD (j + 2) []) i r : ZMod q) *
          (DCRTPoly.value s i r : ZMod q) ^ (j + 2) + e i q r := by
  rcases hkeys j hj with ⟨power, evalKey, hget, hpower, hgen⟩
  have hwf := hev c (List.mem_of_getElem? hc)
  have hlength : c.length = l + 1 := by
    rw [hwf.length_eq, List.length_take]
    omega
  rcases ks.switches j power s evalKey l c hgen hpower.wellFormed hs hl hwf with
    ⟨digits, u0, u1, hdigits, hrun, hu0, hu1⟩
  rcases ks.noisy j power s evalKey l c digits u0 u1 hgen hpower.wellFormed hs hl hwf hdigits
    hrun with ⟨e, hnoise, hphase⟩
  refine ⟨evalKey, u0, u1, e, hget, ?_, hnoise, hu0, hu1, ?_⟩
  · unfold keySwitchCore
    rw [hdigits, hlength]
    exact hrun
  · intro i q hq r hr
    have hfull : moduliQ[i]? = some q := by
      have hi := (List.getElem?_eq_some_iff.mp hq).1
      rw [List.length_take] at hi
      rwa [List.getElem?_take_of_lt (by omega)] at hq
    rw [hphase i q hq r hr, hpower.value_eq i q hfull r hr, List.getD_eq_getElem?_getD, hc]
    rfl

include hmoduli in
theorem Folded.step {noise : Nat -> TowerResidues} {j : Nat} {st : List DCRTPoly}
    (h : Folded n (moduliQ.take (l + 1)) s ev noise j st) (htwo : 2 <= ev.length)
    {u0 u1 : DCRTPoly}
    (hu0 : DCRTPoly.WellFormed n .EVALUATION (moduliQ.take (l + 1)) u0)
    (hu1 : DCRTPoly.WellFormed n .EVALUATION (moduliQ.take (l + 1)) u1)
    (hphase : forall i q, (moduliQ.take (l + 1))[i]? = some q -> forall r, r < n ->
      phase q u0 u1 s i r = (DCRTPoly.value (ev.getD (j + 2) []) i r : ZMod q) *
        (DCRTPoly.value s i r : ZMod q) ^ (j + 2) + noise j i q r) :
    exists st', addSwitched st (u0, u1) = some st' ∧
      Folded n (moduliQ.take (l + 1)) s ev noise (j + 1) st' := by
  have htake : forall q, q ∈ moduliQ.take (l + 1) -> Poly.NttModulus q :=
    fun q hq => hmoduli q (List.mem_of_mem_take hq)
  rcases h.phase_eq with ⟨x, y, hx, hy, hxwf, hywf, heq⟩
  rcases DCRTPoly.plusEq_spec htake hxwf hu0 with ⟨x', hx', hx'wf, hxvalue⟩
  rcases DCRTPoly.plusEq_spec htake hywf hu1 with ⟨y', hy', hy'wf, hyvalue⟩
  have hlength := h.length_eq
  refine ⟨(st.set 0 x').set 1 y', ?_, ?_, ?_, x', y', ?_, ?_, hx'wf, hy'wf, ?_⟩
  · unfold addSwitched
    simp only [Option.bind_eq_bind, Option.bind_some, hx, hx', hy, hy']
    rfl
  · rw [List.length_set, List.length_set, hlength]
  · intro k hk
    rw [List.getElem?_set_ne (by omega), List.getElem?_set_ne (by omega), h.get k hk]
  · rw [List.getElem?_set_ne (by omega), List.getElem?_set_self (by omega)]
  · rw [List.getElem?_set_self (by rw [List.length_set]; omega)]
  · intro i q hq r hr
    have hold := heq i q hq r hr
    have hnew := hphase i q hq r hr
    unfold phase at hold hnew ⊢
    rw [hxvalue i q hq r hr, hyvalue i q hq r hr, Finset.sum_range_succ (n := j + 2),
      Finset.sum_range_succ (n := j)]
    linear_combination hold + hnew

include hmoduli hl hs hev

theorem relinearizeInPlace_spec (hform : EvaluationForm cache (l + 1) cv ev)
    (htwo : 2 <= cv.length) {count : Nat} (hcount : cv.length - 2 <= count)
    (hkeys : PowerKeys ks.toKeySwitching s count evalKeyVec) :
    exists x y, exists noise : Nat -> TowerResidues,
      relinearizeInPlace cache ks.toKeySwitching cv evalKeyVec = some [x, y] ∧
      DCRTPoly.WellFormed n .EVALUATION (moduliQ.take (l + 1)) x ∧
      DCRTPoly.WellFormed n .EVALUATION (moduliQ.take (l + 1)) y ∧
      (forall j c, j + 2 < cv.length -> ev[j + 2]? = some c -> ks.Noise j l c (noise j)) ∧
      forall i q, (moduliQ.take (l + 1))[i]? = some q -> forall r, r < n ->
        phase q x y s i r =
          secretValue q ev s i r + ∑ m ∈ Finset.range (cv.length - 2), noise m i q r := by
  have hlength := hform.length_eq
  have hswitch : forall j, exists e : TowerResidues, j < cv.length - 2 ->
      exists c evalKey u0 u1, ev[j + 2]? = some c ∧ evalKeyVec[j]? = some evalKey ∧
        keySwitchCore ks.toKeySwitching c evalKey = some (u0, u1) ∧ ks.Noise j l c e ∧
        DCRTPoly.WellFormed n .EVALUATION (moduliQ.take (l + 1)) u0 ∧
        DCRTPoly.WellFormed n .EVALUATION (moduliQ.take (l + 1)) u1 ∧
        forall i q, (moduliQ.take (l + 1))[i]? = some q -> forall r, r < n ->
          phase q u0 u1 s i r = (DCRTPoly.value (ev.getD (j + 2) []) i r : ZMod q) *
            (DCRTPoly.value s i r : ZMod q) ^ (j + 2) + e i q r := by
    intro j
    rcases Nat.lt_or_ge j (cv.length - 2) with hj | hj
    · have hc := List.getElem?_eq_getElem (show j + 2 < ev.length by omega)
      rcases switch_element ks hl hs hev hkeys (show j < count by omega) hc with
        ⟨evalKey, u0, u1, e, hrest⟩
      exact ⟨e, fun _ => ⟨_, evalKey, u0, u1, hc, hrest⟩⟩
    · exact ⟨0, fun hlt => absurd hlt (by omega)⟩
  choose noise hnoise using hswitch
  have h0 := List.getElem?_eq_getElem (show 0 < ev.length by omega)
  have h1 := List.getElem?_eq_getElem (show 1 < ev.length by omega)
  rcases foldlM_range_spec (n := ev.length - 2) (s := ev)
    (f := fun cv i => do
      let c <- cv[i + 2]?
      let evalKey <- evalKeyVec[i]?
      let ab <- keySwitchCore ks.toKeySwitching c evalKey
      addSwitched cv ab)
    (fun j st => Folded n (moduliQ.take (l + 1)) s ev noise j st)
    (by
      refine ⟨rfl, fun _ _ => rfl, _, _, h0, h1, hev _ (List.mem_of_getElem? h0),
        hev _ (List.mem_of_getElem? h1), ?_⟩
      intro i q _ r _
      rw [Finset.sum_range_succ, Finset.sum_range_one, Finset.sum_range_zero,
        List.getD_eq_getElem?_getD, List.getD_eq_getElem?_getD, h0, h1, pow_zero, pow_one,
        mul_one, add_zero]
      rfl)
    (by
      intro j hj st hst
      rcases hnoise j (by omega) with ⟨c, evalKey, u0, u1, hc, hkey, hrun, _, hu0, hu1, hphase⟩
      rcases hst.step hmoduli (by omega) hu0 hu1 hphase with ⟨st', hst', hnext⟩
      refine ⟨st', ?_, hnext⟩
      rw [hst.get (j + 2) (by omega), hc]
      simp only [Option.bind_eq_bind, Option.bind_some, hkey, hrun]
      exact hst') with ⟨st, hst, hfolded⟩
  rcases hfolded.phase_eq with ⟨x, y, hx, hy, hxwf, hywf, hphase⟩
  have htake : resizeTwo st = [x, y] := by
    have hstlength := hfolded.length_eq
    cases st with
    | nil => cases hx
    | cons x' st =>
        cases st with
        | nil => cases hy
        | cons y' st =>
            cases hx
            cases hy
            rfl
  refine ⟨x, y, noise, ?_, hxwf, hywf, ?_, ?_⟩
  · unfold relinearizeInPlace
    rw [hform.mapM_eq]
    simp only [Option.bind_eq_bind, Option.bind_some] at hst ⊢
    rw [hst, Option.bind_some, htake]
    rfl
  · intro j c hj hc
    rcases hnoise j (by omega) with ⟨c', _, _, _, hc', _, _, hn, _⟩
    cases hc.symm.trans hc'
    exact hn
  · intro i q hq r hr
    rw [hphase i q hq r hr, secretValue, hlength, Nat.sub_add_cancel htwo]

end Relinearization

/-! ## Bookkeeping of degrees -/

section Bookkeeping

variable {F : Type} [Mul F]

/-- Two elements with the decryption of `cv`, up to one noise for each higher element. -/
def Relinearizes (cache : Poly.TableCache) {n : Nat} {moduliQ : List Nat}
    (ks : NoisySwitching n moduliQ) (l : Nat) (s : DCRTPoly) (evalKeyVec : List EvalKey)
    (cv : List DCRTPoly) : Prop :=
  exists x y b b', exists noise : Nat -> TowerResidues,
    relinearizeInPlace cache ks.toKeySwitching cv evalKeyVec = some [x, y] ∧
    decryptCore cache s cv = some b ∧ decryptCore cache s [x, y] = some b' ∧
    (forall (j : Nat) c e, cv[j + 2]? = some c ->
      DCRTPoly.setFormat cache c .EVALUATION = some e -> ks.Noise j l e (noise j)) ∧
    forall i q, (moduliQ.take (l + 1))[i]? = some q -> forall r, r < n ->
      (DCRTPoly.value b' i r : ZMod q) =
        DCRTPoly.value b i r + ∑ j ∈ Finset.range (cv.length - 2), noise j i q r

/--
The product of two ciphertexts, the square of the first and the relinearization of `cv` with
the keys for the powers of the secret up to `d`.
-/
structure BookkeepsDegrees (cache : Poly.TableCache) {n : Nat} {moduliQ : List Nat}
    (ks : NoisySwitching n moduliQ) (t d l : Nat) (s : DCRTPoly)
    (ctxt1 ctxt2 : Ciphertext F) (cv : List DCRTPoly) : Prop where
  product : exists ctxt, evalMultCore t ctxt1 ctxt2 = some ctxt ∧
    ctxt.elements.length = ctxt1.elements.length + ctxt2.elements.length - 1 ∧
    WellFormedElements n (moduliQ.take (l + 1)) ctxt.elements ∧
    forall i q, (moduliQ.take (l + 1))[i]? = some q -> forall r, r < n ->
      secretValue q ctxt.elements s i r =
        secretValue q ctxt1.elements s i r * secretValue q ctxt2.elements s i r
  square : evalSquareCore t ctxt1 = evalMultCore t ctxt1 ctxt1
  relinearizes : exists evalKeyVec, evalMultKeysGen ks.toKeySwitching s d = some evalKeyVec ∧
    Relinearizes cache ks l s evalKeyVec cv

variable {cache : Poly.TableCache} {k l : Nat} {psi : Nat -> Nat} {moduliQ : List Nat}
  (ks : NoisySwitching (2 ^ k) moduliQ) {s : DCRTPoly}

theorem decryptCore_missing (s x : DCRTPoly) : decryptCore cache s [x, []] = none := by
  have htimes : forall a : DCRTPoly, DCRTPoly.times a [] = none := by
    intro a
    cases a <;> rfl
  simp [decryptCore, DCRTPoly.setFormat, htimes, List.range_succ]

theorem not_relinearizes_one {evalKeyVec : List EvalKey} (c : DCRTPoly) :
    ¬ Relinearizes cache ks l s evalKeyVec [c] := by
  rintro ⟨x, y, b, b', noise, hrun, -, hdecrypt, -⟩
  have hempty : y = [] := by
    rw [relinearizeInPlace, List.mapM_cons] at hrun
    cases hc : DCRTPoly.setFormat cache c .EVALUATION with
    | none =>
        rw [hc] at hrun
        cases hrun
    | some e =>
        rw [hc] at hrun
        cases hrun
        rfl
  rw [hempty, decryptCore_missing] at hdecrypt
  cases hdecrypt

variable (hk : 0 < k) (hk31 : k <= 31) (hready : DCRTPoly.ReadyChain cache k psi moduliQ)
  (hl : l < moduliQ.length) (hs : DCRTPoly.WellFormed (2 ^ k) .EVALUATION moduliQ s)

include hk hk31 hready hl hs

theorem relinearizes_of_two_le {cv : List DCRTPoly} (hcv : forall c, c ∈ cv ->
      exists format, DCRTPoly.WellFormed (2 ^ k) format (moduliQ.take (l + 1)) c)
    (htwo : 2 <= cv.length) {count : Nat} (hcount : cv.length - 2 <= count)
    {evalKeyVec : List EvalKey} (hkeys : PowerKeys ks.toKeySwitching s count evalKeyVec) :
    Relinearizes cache ks l s evalKeyVec cv := by
  have hmoduli : forall q, q ∈ moduliQ -> Poly.NttModulus q := fun q hq => (hready q hq).modulus
  have htotal : (moduliQ.take (l + 1)).length = l + 1 := by
    rw [List.length_take]
    omega
  rcases exists_evaluationForm hk hk31 (fun q hq => hready q (List.mem_of_mem_take hq)) hcv with
    ⟨ev, hform, hev⟩
  rw [htotal] at hform
  rcases hev.exists_elements with ⟨A, hA⟩
  rcases relinearizeInPlace_spec ks hmoduli hl hs hev hform htwo hcount hkeys with
    ⟨x, y, noise, hrun, hx, hy, hnoise, hphase⟩
  rcases decryptCore_spec hmoduli hl hs hform hA (by omega) with ⟨b, hb, hbden⟩
  rcases decryptCore_pair hmoduli hl hs hx hy with ⟨b', hb', hpair⟩
  refine ⟨x, y, b, b', noise, hrun, hb, hb', ?_, ?_⟩
  · intro j c e hc he
    have hj := (List.getElem?_eq_some_iff.mp hc).1
    have hget := List.getElem?_eq_getElem (show j + 2 < ev.length by rw [hform.length_eq]; exact hj)
    have heq := hform.setFormat_eq _ _ _ hc hget
    rw [he] at heq
    cases heq
    exact hnoise j _ hj hget
  · intro i q hq r hr
    rw [hbden.value_eq i q hq r hr, hpair i q hq r hr, ← hA.secretValue_eq s hq hr,
      hphase i q hq r hr]

variable {ctxt1 ctxt2 : Ciphertext F}
  (h1 : WellFormedElements (2 ^ k) (moduliQ.take (l + 1)) ctxt1.elements)
  (h2 : WellFormedElements (2 ^ k) (moduliQ.take (l + 1)) ctxt2.elements)
  (hpos1 : 0 < ctxt1.elements.length) (hpos2 : 0 < ctxt2.elements.length)

include h1 h2 hpos1 hpos2

/--
Products and squares of all sizes are right, and so is the relinearization of at least two
elements; a single element is not relinearized.
-/
theorem bookkeepsDegrees_iff (t : Nat) {d : Nat} {cv : List DCRTPoly}
    (hcv : forall c, c ∈ cv ->
      exists format, DCRTPoly.WellFormed (2 ^ k) format (moduliQ.take (l + 1)) c)
    (hpos : 0 < cv.length) (hd : cv.length <= d + 1) :
    BookkeepsDegrees cache ks t d l s ctxt1 ctxt2 cv <-> 2 <= cv.length := by
  have hmoduli : forall q, q ∈ moduliQ -> Poly.NttModulus q := fun q hq => (hready q hq).modulus
  have htake : forall q, q ∈ moduliQ.take (l + 1) -> Poly.NttModulus q :=
    fun q hq => hmoduli q (List.mem_of_mem_take hq)
  have hne : 0 < (moduliQ.take (l + 1)).length := by
    rw [List.length_take]
    omega
  constructor
  · intro h
    rcases h.relinearizes with ⟨evalKeyVec, _, hrelin⟩
    rcases Nat.lt_or_ge cv.length 2 with hlt | hge
    · rcases List.length_eq_one_iff.mp (show cv.length = 1 by omega) with ⟨c, rfl⟩
      exact absurd hrelin (not_relinearizes_one ks c)
    · exact hge
  · intro htwo
    rcases h1.exists_elements with ⟨A, hA⟩
    rcases h2.exists_elements with ⟨B, hB⟩
    constructor
    · rcases evalMultCore_spec htake hne t hA hB hpos1 hpos2 with ⟨cvr, hrun, hlength, hAB⟩
      refine ⟨_, hrun, hlength, hAB.wellFormed, ?_⟩
      intro i q hq r hr
      rw [hAB.secretValue_eq s hq hr, hA.secretValue_eq s hq hr, hB.secretValue_eq s hq hr,
        eval_mul]
      rfl
    · exact evalSquareCore_eq htake hne t hA hpos1
    · rcases evalMultKeysGen_spec ks.toKeySwitching hmoduli (by omega) hs d with
        ⟨evalKeyVec, hgen, _, hkeys⟩
      exact ⟨evalKeyVec, hgen,
        relinearizes_of_two_le ks hk hk31 hready hl hs hcv htwo (by omega) hkeys⟩

end Bookkeeping

/-!
## Small parameters
-/

/-- The noise of the windows: every digit meets the noise of its key component. -/
def windowNoisySwitching {cache : Poly.TableCache} {params : BVParameters} {k : Nat}
    {psi : Nat -> Nat} (h : BV.Setting cache params k psi)
    (hdecomposable : forall l, l < params.moduliQ.length ->
      DCRTPoly.Decomposable params.digitSize (params.moduliQ.take (l + 1)))
    (a e : Nat -> List DCRTPoly)
    (ha : forall draw t, t < arrWindows params.digitSize params.moduliQ
      params.moduliQ.length -> exists a', (a draw)[t]? = some a' ∧
        DCRTPoly.WellFormed (2 ^ k) .EVALUATION params.moduliQ a')
    (he : forall draw t, t < arrWindows params.digitSize params.moduliQ
      params.moduliQ.length -> exists e', (e draw)[t]? = some e' ∧
        DCRTPoly.WellFormed (2 ^ k) .EVALUATION params.moduliQ e') :
    NoisySwitching (2 ^ k) params.moduliQ where
  toKeySwitching := windowKeySwitching h hdecomposable a e ha he
  Noise draw l c v := exists digits,
    BV.evalKeySwitchPrecomputeCore cache params .EVALUATION c = some digits ∧
    forall i q, (params.moduliQ.take (l + 1))[i]? = some q -> forall r, r < 2 ^ k ->
      v i q r = -params.noiseScale * ∑ t ∈ Finset.range digits.length,
        (DCRTPoly.value (digits.getD t []) i r : ZMod q) *
          DCRTPoly.value ((e draw).getD t []) i r
  noisy := by
    intro draw sOld sNew evalKey l c digits u0 u1 hgen hsOld hsNew hl hc hdigits hrun
    rcases BV.keySwitchGenInternal_keyEquation h hsNew hsOld (ha draw) (he draw) with
      ⟨evalKey', hgen', hequation⟩
    cases hgen.symm.trans hgen'
    rcases BV.evalKeySwitch_switched h hl hc hequation (hdecomposable l hl) with
      ⟨eval, digits', u0', u1', heval, hdigits', hrun', hswitched⟩
    cases hdigits.symm.trans hdigits'
    cases hrun.symm.trans hrun'
    cases heval.symm.trans (DCRTPoly.setFormat_self fun _ ht => hc.format_eq ht)
    refine ⟨fun i q r => -params.noiseScale * ∑ t ∈ Finset.range digits.length,
      (DCRTPoly.value (digits.getD t []) i r : ZMod q) *
        DCRTPoly.value ((e draw).getD t []) i r, ⟨digits, hdigits, fun _ _ _ _ _ => rfl⟩, ?_⟩
    intro i q hq r hr
    rw [phase, hswitched.equation i q hq r hr]
    dsimp only
    rw [neg_mul, Finset.mul_sum, Finset.mul_sum, ← Finset.sum_neg_distrib]
    congr 1
    apply Finset.sum_congr rfl
    intro t _
    push_cast
    ring

def smallNoisySwitching : NoisySwitching (2 ^ 1) BV.smallParameters.moduliQ :=
  windowNoisySwitching smallSetting smallDecomposable
    (fun _ => List.replicate 7 (DCRTPoly.constant BV.smallParameters.moduliQ [4, 3]))
    (fun _ => List.replicate 7 (DCRTPoly.constant BV.smallParameters.moduliQ [1, 2]))
    smallMasks_wellFormed smallErrors_wellFormed

def smallElement (x y : Nat) : DCRTPoly := DCRTPoly.constant [5, 13] [x, y]

def smallCiphertext (elements : List DCRTPoly) : Ciphertext Nat where
  elements := elements
  noiseScaleDeg := 1
  scalingFactor := 4
  scalingFactorInt := 1
  level := 1
  hopslevel := 0
  slots := 1

theorem smallElements (values : List (Nat × Nat))
    (hlt : forall p, p ∈ values -> p.1 < 5 ∧ p.2 < 5) :
    WellFormedElements (2 ^ 1) (BV.smallParameters.moduliQ.take (1 + 1))
      (values.map fun p => smallElement p.1 p.2) := by
  intro c hc
  rcases List.mem_map.mp hc with ⟨p, hp, rfl⟩
  have hbounds := hlt p hp
  change DCRTPoly.WellFormed 2 .EVALUATION [5, 13] (DCRTPoly.constant [5, 13] [p.1, p.2])
  apply DCRTPoly.constant_wellFormed [p.1, p.2] rfl
  intro q hq x hx
  fin_cases hq <;> fin_cases hx <;> omega

/-- Products of two and three elements, and four elements relinearized with two keys. -/
theorem bookkeepsDegrees_four :
    BookkeepsDegrees Poly.smallCache smallNoisySwitching 2 3 1
      (DCRTPoly.constant BV.smallParameters.moduliQ [2, 4])
      (smallCiphertext [smallElement 1 2, smallElement 3 4])
      (smallCiphertext [smallElement 4 2, smallElement 0 3, smallElement 1 1])
      [smallElement 1 2, smallElement 3 4, smallElement 2 2, smallElement 4 1] :=
  (bookkeepsDegrees_iff smallNoisySwitching (by decide) (by decide) smallSetting.ready
    (by decide) (DCRTPoly.constant_wellFormed _ rfl (by decide))
    (smallElements [(1, 2), (3, 4)] (by decide))
    (smallElements [(4, 2), (0, 3), (1, 1)] (by decide)) (by decide) (by decide) 2
    (fun c hc => ⟨_, smallElements [(1, 2), (3, 4), (2, 2), (4, 1)] (by decide) c hc⟩)
    (by decide) (by decide)).mpr (by decide)

/-- One element is not relinearized to two that can be decrypted. -/
theorem not_bookkeepsDegrees_one :
    ¬ BookkeepsDegrees Poly.smallCache smallNoisySwitching 2 3 1
      (DCRTPoly.constant BV.smallParameters.moduliQ [2, 4])
      (smallCiphertext [smallElement 1 2, smallElement 3 4])
      (smallCiphertext [smallElement 4 2, smallElement 0 3, smallElement 1 1])
      [smallElement 1 2] := by
  intro h
  rcases h.relinearizes with ⟨evalKeyVec, _, hrelin⟩
  exact not_relinearizes_one smallNoisySwitching (smallElement 1 2) hrelin

end Scheme
end OpenFHE
