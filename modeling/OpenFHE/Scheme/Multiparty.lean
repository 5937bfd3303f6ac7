import OpenFHE.Hal.Residues
import OpenFHE.KeySwitch.Hybrid

/-!
# Multiparty relinearization keys

`MultipartyBase` adds the evaluation keys of the parties, and `MultipartyRNS`
multiplies the sum by the secret of each party.  The products add up to a key for
the square of the joint secret, whatever the order of the additions.
-/

namespace OpenFHE
namespace Scheme

open OpenFHE.Core Foundation Hal KeySwitch NativeInteger

inductive KeySwitchTechnique where
  | INVALID_KS_TECH
  | BV
  | HYBRID
deriving DecidableEq, Repr

structure MultipartyParameters where
  technique : KeySwitchTechnique
  moduliQ : List Nat
  moduliP : List Nat
  noiseScale : Nat
deriving DecidableEq, Repr

def MultipartyParameters.keyModuli (params : MultipartyParameters) : List Nat :=
  if params.technique = .BV then params.moduliQ else params.moduliQ ++ params.moduliP

/-- The vector `a` of the first key with the sums of the vectors `b`. -/
def multiAddEvalKeys (evalKey1 evalKey2 : EvalKey) : Option EvalKey := do
  let b <- (List.range evalKey1.av.length).mapM fun i => do
    let b1 <- evalKey1.bv[i]?
    let b2 <- evalKey2.bv[i]?
    DCRTPoly.plus b1 b2
  return { av := evalKey1.av, bv := b }

def multiAddEvalMultKeys (evalKey1 evalKey2 : EvalKey) : Option EvalKey := do
  let a <- (List.range evalKey1.av.length).mapM fun i => do
    let a1 <- evalKey1.av[i]?
    let a2 <- evalKey2.av[i]?
    DCRTPoly.plus a1 a2
  let b <- (List.range evalKey1.av.length).mapM fun i => do
    let b1 <- evalKey1.bv[i]?
    let b2 <- evalKey2.bv[i]?
    DCRTPoly.plus b1 b2
  return { av := a, bv := b }

/-- The secret in the basis of the evaluation keys. -/
def extendPrivate (cache : Poly.TableCache) (params : MultipartyParameters) (s : DCRTPoly) :
    Option DCRTPoly :=
  if params.technique = .BV then some s
  else do
    let s <- DCRTPoly.setFormat cache s .COEFFICIENT
    let towersQ <- (List.range params.moduliQ.length).mapM fun i => s[i]?
    let towersP <- params.moduliP.mapM fun pj => do
      let sNew0 <- s[0]?
      return Poly.switchModulus sNew0 pj
    DCRTPoly.setFormat cache (towersQ ++ towersP) .EVALUATION

/-- A component times the secret, plus scaled fresh noise. -/
def multComponent (params : MultipartyParameters) (s x noise : DCRTPoly) : Option DCRTPoly := do
  let product <- DCRTPoly.times x s
  let scaled <- DCRTPoly.timesInteger noise params.noiseScale
  DCRTPoly.plus product scaled

/-- The noise of component `i` is drawn for `a` first and then for `b`. -/
def multiMultEvalKey (cache : Poly.TableCache) (params : MultipartyParameters)
    (draw : Nat -> DCRTPoly) (privateKey : DCRTPoly) (evalKey : EvalKey) : Option EvalKey := do
  let s <- extendPrivate cache params privateKey
  let ab <- (List.range evalKey.av.length).mapM fun i => do
    let a0 <- evalKey.av[i]?
    let a <- multComponent params s a0 (draw (2 * i))
    let b0 <- evalKey.bv[i]?
    let b <- multComponent params s b0 (draw (2 * i + 1))
    return (a, b)
  return { av := ab.map Prod.fst, bv := ab.map Prod.snd }

/-!
## Orders of addition
-/

/-- An order in which the contributions of parties are added. -/
inductive Folding where
  | party (i : Nat)
  | add (left right : Folding)
deriving DecidableEq, Repr

namespace Folding

def parties : Folding -> List Nat
  | .party i => [i]
  | .add left right => left.parties ++ right.parties

def run (op : EvalKey -> EvalKey -> Option EvalKey) (key : Nat -> Option EvalKey) :
    Folding -> Option EvalKey
  | .party i => key i
  | .add left right => do
      let x <- run op key left
      let y <- run op key right
      op x y

end Folding

/--
The key of `n` parties: their keys are added, each party multiplies the sum by its
secret, and the products are added.
-/
def relinearizationKey (cache : Poly.TableCache) (params : MultipartyParameters)
    (privateKey : Nat -> DCRTPoly) (evalKey : Nat -> EvalKey) (draw : Nat -> Nat -> DCRTPoly)
    (first second : Folding) : Option EvalKey := do
  let sum <- first.run multiAddEvalKeys fun i => some (evalKey i)
  second.run multiAddEvalMultKeys fun i =>
    multiMultEvalKey cache params (draw i) (privateKey i) sum

/-!
## What the operations add and multiply
-/

/-- The two vectors of a key with `size` components stand for `a` and `b`. -/
structure KeyDenotes (n : Nat) (moduli : List Nat) (size : Nat) (a b : Nat -> TowerResidues)
    (key : EvalKey) : Prop where
  av_length : key.av.length = size
  bv_length : key.bv.length = size
  av_get : forall (j : Nat) x, key.av[j]? = some x ->
    DCRTPoly.Denotes n .EVALUATION moduli (a j) x
  bv_get : forall (j : Nat) x, key.bv[j]? = some x ->
    DCRTPoly.Denotes n .EVALUATION moduli (b j) x

section KeyDenotes

variable {n size : Nat} {moduli : List Nat}
  (hmoduli : forall q, q ∈ moduli -> Poly.NttModulus q) (hne : 0 < moduli.length)
  {a a' b b' : Nat -> TowerResidues} {key key' : EvalKey}

theorem KeyDenotes.exists_av (h : KeyDenotes n moduli size a b key) {j : Nat} (hj : j < size) :
    exists x, key.av[j]? = some x ∧ DCRTPoly.Denotes n .EVALUATION moduli (a j) x := by
  have hx := List.getElem?_eq_getElem (show j < key.av.length by rw [h.av_length]; exact hj)
  exact ⟨_, hx, h.av_get j _ hx⟩

theorem KeyDenotes.exists_bv (h : KeyDenotes n moduli size a b key) {j : Nat} (hj : j < size) :
    exists x, key.bv[j]? = some x ∧ DCRTPoly.Denotes n .EVALUATION moduli (b j) x := by
  have hx := List.getElem?_eq_getElem (show j < key.bv.length by rw [h.bv_length]; exact hj)
  exact ⟨_, hx, h.bv_get j _ hx⟩

include hmoduli hne

theorem plusVectors_denotes {xs ys : List DCRTPoly} {v w : Nat -> TowerResidues}
    (hxs : forall j, j < size -> exists x, xs[j]? = some x ∧
      DCRTPoly.Denotes n .EVALUATION moduli (v j) x)
    (hys : forall j, j < size -> exists y, ys[j]? = some y ∧
      DCRTPoly.Denotes n .EVALUATION moduli (w j) y) :
    exists zs, ((List.range size).mapM fun i => do
        let x <- xs[i]?
        let y <- ys[i]?
        DCRTPoly.plus x y) = some zs ∧ zs.length = size ∧
      forall (j : Nat) z, zs[j]? = some z ->
        DCRTPoly.Denotes n .EVALUATION moduli (v j + w j) z := by
  apply mapM_range_spec
  intro j hj
  rcases hxs j hj with ⟨x, hx, hx_denotes⟩
  rcases hys j hj with ⟨y, hy, hy_denotes⟩
  rcases DCRTPoly.plus_denotes hmoduli hx_denotes hy_denotes hne with ⟨z, hz, hz_denotes⟩
  refine ⟨z, ?_, hz_denotes⟩
  rw [hx, hy]
  exact hz

theorem multiAddEvalKeys_denotes (h : KeyDenotes n moduli size a b key)
    (h' : KeyDenotes n moduli size a' b' key') :
    exists r, multiAddEvalKeys key key' = some r ∧
      KeyDenotes n moduli size a (fun j => b j + b' j) r := by
  rcases plusVectors_denotes hmoduli hne (fun _ hj => h.exists_bv hj) (fun _ hj => h'.exists_bv hj)
    with ⟨bs, hbs, hlength, hget⟩
  refine ⟨{ av := key.av, bv := bs }, ?_, h.av_length, hlength, h.av_get, hget⟩
  unfold multiAddEvalKeys
  rw [h.av_length, hbs]
  rfl

theorem multiAddEvalMultKeys_denotes (h : KeyDenotes n moduli size a b key)
    (h' : KeyDenotes n moduli size a' b' key') :
    exists r, multiAddEvalMultKeys key key' = some r ∧
      KeyDenotes n moduli size (fun j => a j + a' j) (fun j => b j + b' j) r := by
  rcases plusVectors_denotes hmoduli hne (fun _ hj => h.exists_av hj) (fun _ hj => h'.exists_av hj)
    with ⟨as, has, ha_length, ha_get⟩
  rcases plusVectors_denotes hmoduli hne (fun _ hj => h.exists_bv hj) (fun _ hj => h'.exists_bv hj)
    with ⟨bs, hbs, hb_length, hb_get⟩
  refine ⟨{ av := as, bv := bs }, ?_, ha_length, hb_length, ha_get, hb_get⟩
  unfold multiAddEvalMultKeys
  rw [h.av_length, has, hbs]
  rfl

theorem multComponent_denotes (params : MultipartyParameters) {s x noise : DCRTPoly}
    {v w u : TowerResidues} (hs : DCRTPoly.Denotes n .EVALUATION moduli v s)
    (hx : DCRTPoly.Denotes n .EVALUATION moduli w x)
    (hnoise : DCRTPoly.Denotes n .EVALUATION moduli u noise) :
    exists r, multComponent params s x noise = some r ∧
      DCRTPoly.Denotes n .EVALUATION moduli (w * v + params.noiseScale * u) r := by
  rcases DCRTPoly.times_denotes hmoduli hx hs hne with ⟨product, hproduct, hproduct_denotes⟩
  rcases DCRTPoly.timesInteger_denotes hmoduli hnoise params.noiseScale with
    ⟨scaled, hscaled, hscaled_denotes⟩
  rcases DCRTPoly.plus_denotes hmoduli hproduct_denotes hscaled_denotes hne with
    ⟨r, hr, hr_denotes⟩
  refine ⟨r, ?_, hr_denotes⟩
  unfold multComponent
  rw [hproduct, hscaled]
  exact hr

theorem multiMultEvalKey_denotes {cache : Poly.TableCache} {params : MultipartyParameters}
    {draw : Nat -> DCRTPoly} {privateKey s : DCRTPoly}
    (hextend : extendPrivate cache params privateKey = some s)
    (hs : s.WellFormed n .EVALUATION moduli)
    (hdraw : forall t, (draw t).WellFormed n .EVALUATION moduli)
    (h : KeyDenotes n moduli size a b key) :
    exists r, multiMultEvalKey cache params draw privateKey key = some r ∧
      KeyDenotes n moduli size
        (fun j => a j * s.residues + params.noiseScale * (draw (2 * j)).residues)
        (fun j => b j * s.residues + params.noiseScale * (draw (2 * j + 1)).residues) r := by
  rcases mapM_range_spec (n := size) (f := fun i => do
      let a0 <- key.av[i]?
      let a <- multComponent params s a0 (draw (2 * i))
      let b0 <- key.bv[i]?
      let b <- multComponent params s b0 (draw (2 * i + 1))
      return (a, b))
    (fun j p =>
      DCRTPoly.Denotes n .EVALUATION moduli
        (a j * s.residues + params.noiseScale * (draw (2 * j)).residues) p.1 ∧
      DCRTPoly.Denotes n .EVALUATION moduli
        (b j * s.residues + params.noiseScale * (draw (2 * j + 1)).residues) p.2)
    (by
      intro j hj
      rcases h.exists_av hj with ⟨a0, ha0, ha0_denotes⟩
      rcases h.exists_bv hj with ⟨b0, hb0, hb0_denotes⟩
      rcases multComponent_denotes hmoduli hne params hs.denotes ha0_denotes
        (hdraw (2 * j)).denotes with ⟨x, hx, hx_denotes⟩
      rcases multComponent_denotes hmoduli hne params hs.denotes hb0_denotes
        (hdraw (2 * j + 1)).denotes with ⟨y, hy, hy_denotes⟩
      refine ⟨(x, y), ?_, hx_denotes, hy_denotes⟩
      rw [ha0, hb0]
      simp only [Option.bind_eq_bind, Option.bind_some]
      rw [hx, Option.bind_some, hy]
      rfl) with ⟨ab, hab, hlength, hget⟩
  refine ⟨{ av := ab.map Prod.fst, bv := ab.map Prod.snd }, ?_, ?_, ?_, ?_, ?_⟩
  · unfold multiMultEvalKey
    rw [hextend, h.av_length, Option.bind_eq_bind, Option.bind_some, hab]
    rfl
  · rw [List.length_map, hlength]
  · rw [List.length_map, hlength]
  · intro j x hx
    rw [List.getElem?_map, Option.map_eq_some_iff] at hx
    rcases hx with ⟨p, hp, rfl⟩
    exact (hget j p hp).1
  · intro j x hx
    rw [List.getElem?_map, Option.map_eq_some_iff] at hx
    rcases hx with ⟨p, hp, rfl⟩
    exact (hget j p hp).2

end KeyDenotes

/-!
## The extended secret
-/

/--
The coefficients of the extended secret: those of the special towers come from the
centered residues of the first tower.
-/
def extendedCoefficients (moduliQ : List Nat) (coef : DCRTPoly) : TowerResidues :=
  fun m q r => if m < moduliQ.length then (DCRTPoly.value coef m r : ZMod q)
    else (NativeVector.centered (moduliQ.getD 0 0) (DCRTPoly.value coef 0 r) : ZMod q)

section Secret

variable {cache : Poly.TableCache} {params : MultipartyParameters} {k : Nat}
  {psi : Nat -> Nat} (hk : 0 < k) (hk31 : k <= 31)
  (hready : DCRTPoly.ReadyChain cache k psi (params.moduliQ ++ params.moduliP))
  (hne : 0 < params.moduliQ.length) {privateKey : DCRTPoly}
  (hprivate : privateKey.WellFormed (2 ^ k) .EVALUATION params.moduliQ)

include hk hk31 hready hne hprivate

theorem extendPrivate_denotes (htechnique : params.technique ≠ .BV) :
    exists coef s, DCRTPoly.setFormat cache privateKey .COEFFICIENT = some coef ∧
      extendPrivate cache params privateKey = some s ∧
      DCRTPoly.Denotes (2 ^ k) .EVALUATION params.keyModuli
        (DCRTPoly.transform k psi (extendedCoefficients params.moduliQ coef)) s := by
  have hready' : DCRTPoly.ReadyChain cache k psi params.moduliQ :=
    fun q hq => hready q (List.mem_append_left _ hq)
  rcases DCRTPoly.exists_coefficients hk hready' hk31 hprivate with ⟨coef, hcoef, hcoef_wf, _⟩
  have hq0 := List.getElem?_eq_getElem hne
  rcases hcoef_wf.exists_tower hq0 with ⟨first, hfirst, hfirst_wf⟩
  have hmodulus := fun q hq => (hready q hq).modulus
  rcases mapM_spec (l := params.moduliP) (f := fun pj => do
      let sNew0 <- coef[0]?
      return Poly.switchModulus sNew0 pj)
    (fun pj t => t = Poly.switchModulus first pj)
    (by
      intro pj _
      refine ⟨Poly.switchModulus first pj, ?_, rfl⟩
      rw [hfirst]
      rfl) with ⟨towersP, htowersP, hlength, hget⟩
  have hdenotes : DCRTPoly.Denotes (2 ^ k) .COEFFICIENT (params.moduliQ ++ params.moduliP)
      (extendedCoefficients params.moduliQ coef) (coef ++ towersP) := by
    apply DCRTPoly.denotes_of_towers
    · rw [List.length_append, List.length_append, hcoef_wf.length_eq, hlength]
    · intro m q t hq ht
      rcases Nat.lt_or_ge m params.moduliQ.length with hlt | hge
      · rw [List.getElem?_append_left hlt] at hq
        rw [List.getElem?_append_left (by rw [hcoef_wf.length_eq]; exact hlt)] at ht
        have ht_denotes := hcoef_wf.denotes.tower_denotes hq ht
        unfold extendedCoefficients
        simp only [if_pos hlt]
        exact ht_denotes
      · have hmem := List.mem_of_getElem? hq
        rw [List.getElem?_append_right hge] at hq
        rw [List.getElem?_append_right (by rw [hcoef_wf.length_eq]; exact hge),
          hcoef_wf.length_eq] at ht
        rw [hget _ q t hq ht]
        have hq_pos := (hmodulus q hmem).one_lt
        have hholds := NativeVector.switchModulus_spec
          (lt_trans (hmodulus _ (List.mem_append_left _ (List.mem_of_getElem? hq0))).lt (by decide))
          (hmodulus q hmem).lt (by omega : 0 < q) hfirst_wf.2.2
        unfold extendedCoefficients
        simp only [if_neg (not_lt.mpr hge)]
        refine ⟨rfl, hfirst_wf.2.1, ?_⟩
        rw [Poly.switchModulus, hfirst_wf.1]
        apply hholds.congr
        intro r _
        rw [List.getD_eq_getElem?_getD (l := params.moduliQ), hq0, DCRTPoly.value_eq hfirst]
        rfl
  rcases DCRTPoly.setFormat_transform hk hready hdenotes with ⟨s, hs, hs_denotes⟩
  refine ⟨coef, s, hcoef, ?_, ?_⟩
  · unfold extendPrivate
    simp only [Option.bind_eq_bind] at htowersP ⊢
    rw [if_neg htechnique, hcoef, Option.bind_some, ← hcoef_wf.length_eq, mapM_range_getElem?,
      Option.bind_some, htowersP]
    exact hs
  · unfold MultipartyParameters.keyModuli
    rw [if_neg htechnique]
    exact hs_denotes

theorem extendPrivate_wellFormed : exists s, extendPrivate cache params privateKey = some s ∧
    s.WellFormed (2 ^ k) .EVALUATION params.keyModuli := by
  by_cases htechnique : params.technique = .BV
  · refine ⟨privateKey, ?_, ?_⟩
    · unfold extendPrivate
      rw [if_pos htechnique]
    · unfold MultipartyParameters.keyModuli
      rw [if_pos htechnique]
      exact hprivate
  · rcases extendPrivate_denotes hk hk31 hready hne hprivate htechnique with
      ⟨coef, s, _, hs, hdenotes⟩
    exact ⟨s, hs, hdenotes.wellFormed⟩

end Secret

/-!
## The joint key
-/

namespace Folding

theorem run_spec {M : Type} [AddCommMonoid M] (op : EvalKey -> EvalKey -> Option EvalKey)
    (P : M -> EvalKey -> Prop)
    (hop : forall u v x y, P u x -> P v y -> exists z, op x y = some z ∧ P (u + v) z)
    {key : Nat -> Option EvalKey} (f : Nat -> M) (t : Folding)
    (hkey : forall i, i ∈ t.parties -> exists x, key i = some x ∧ P (f i) x) :
    exists z, t.run op key = some z ∧ P (t.parties.map f).sum z := by
  induction t with
  | party i =>
      rcases hkey i (List.mem_singleton_self i) with ⟨x, hx, hPx⟩
      refine ⟨x, hx, ?_⟩
      simpa [parties] using hPx
  | add left right ihLeft ihRight =>
      rcases ihLeft (fun i hi => hkey i (List.mem_append_left _ hi)) with ⟨x, hx, hPx⟩
      rcases ihRight (fun i hi => hkey i (List.mem_append_right _ hi)) with ⟨y, hy, hPy⟩
      rcases hop _ _ x y hPx hPy with ⟨z, hz, hPz⟩
      refine ⟨z, ?_, ?_⟩
      · unfold run
        rw [hx, hy]
        exact hz
      · rw [parties, List.map_append, List.sum_append]
        exact hPz

theorem sum_parties {M : Type} [AddCommMonoid M] {t : Folding} {n : Nat}
    (h : t.parties.Perm (List.range n)) (f : Nat -> M) :
    (t.parties.map f).sum = ∑ i ∈ Finset.range n, f i := by
  rw [(h.map f).sum_eq, ← List.sum_toFinset _ List.nodup_range, List.toFinset_range]

end Folding

/--
The key of a party: the shared vector `a`, and in every tower the phase of the
gadget times the secret, up to scaled noise.
-/
structure IsPartyKey (n : Nat) (moduli : List Nat) (ns : Nat) (a : List DCRTPoly)
    (gadget : Nat -> TowerResidues) (s : DCRTPoly) (e : Nat -> TowerResidues) (key : EvalKey) :
    Prop where
  av_eq : key.av = a
  bv_length : key.bv.length = a.length
  bv_wellFormed : forall b, b ∈ key.bv -> DCRTPoly.WellFormed n .EVALUATION moduli b
  equation : forall (j : Nat) x y, a[j]? = some x -> key.bv[j]? = some y ->
    forall m q, moduli[m]? = some q -> forall r, r < n ->
      (DCRTPoly.value y m r : ZMod q) + DCRTPoly.value x m r * DCRTPoly.value s m r =
        gadget j m q r * DCRTPoly.value s m r + ns * e j m q r

section Joint

variable {cache : Poly.TableCache} {params : MultipartyParameters} {k n : Nat}
  {psi : Nat -> Nat} (hk : 0 < k) (hk31 : k <= 31)
  (hready : DCRTPoly.ReadyChain cache k psi (params.moduliQ ++ params.moduliP))
  (hne : 0 < params.moduliQ.length) {privateKey s : Nat -> DCRTPoly}
  (hprivate : forall i, i < n -> (privateKey i).WellFormed (2 ^ k) .EVALUATION params.moduliQ)
  (hextend : forall i, i < n -> extendPrivate cache params (privateKey i) = some (s i))
  {a : List DCRTPoly} (ha : forall x, x ∈ a ->
    DCRTPoly.WellFormed (2 ^ k) .EVALUATION params.keyModuli x)
  {gadget : Nat -> TowerResidues} {e : Nat -> Nat -> TowerResidues} {evalKey : Nat -> EvalKey}
  (hkey : forall i, i < n -> IsPartyKey (2 ^ k) params.keyModuli params.noiseScale a gadget (s i)
    (e i) (evalKey i))
  {draw : Nat -> Nat -> DCRTPoly}
  (hdraw : forall i t, (draw i t).WellFormed (2 ^ k) .EVALUATION params.keyModuli)
  (first second : Folding) (hfirst : first.parties.Perm (List.range n))
  (hsecond : second.parties.Perm (List.range n))

include hk hk31 hready hne hprivate hextend ha hkey hdraw hfirst hsecond

end Joint

/-!
## Two parties
-/

def smallMultiparty : MultipartyParameters where
  technique := .HYBRID
  moduliQ := [13]
  moduliP := [17]
  noiseScale := 1

/-- Constants in a tower modulo 13 and a special tower modulo 17. -/
def smallComponent (x y : Nat) : DCRTPoly :=
  [⟨13, .EVALUATION, [x, x]⟩, ⟨17, .EVALUATION, [y, y]⟩]

/-- The gadget is the special modulus, which vanishes in its own tower. -/
def smallGadget : Nat -> TowerResidues := fun _ m _ _ => if m = 0 then 17 else 0

def smallEvalKey (i : Nat) : EvalKey where
  av := [smallComponent 5 5]
  bv := [if i = 0 then smallComponent 0 13 else smallComponent 12 8]

theorem smallComponent_wellFormed {x y : Nat} (hx : x < 13) (hy : y < 17) :
    (smallComponent x y).WellFormed (2 ^ 1) .EVALUATION smallMultiparty.keyModuli := by
  refine ⟨rfl, ?_⟩
  intro i q t hq ht
  rcases i with _ | _ | i
  · cases hq
    cases ht
    refine ⟨rfl, rfl, rfl, ?_⟩
    intro z hz
    rw [List.eq_of_mem_replicate (n := 2) hz]
    exact hx
  · cases hq
    cases ht
    refine ⟨rfl, rfl, rfl, ?_⟩
    intro z hz
    rw [List.eq_of_mem_replicate (n := 2) hz]
    exact hy
  · cases hq

theorem smallExtend (i : Nat) (hi : i < 2) : extendPrivate Poly.smallCache smallMultiparty
    (DCRTPoly.constant [13] [i + 1, i + 1]) = some (smallComponent (i + 1) (i + 1)) := by
  interval_cases i <;> decide +kernel

theorem smallPartyKey (i : Nat) (hi : i < 2) :
    IsPartyKey (2 ^ 1) smallMultiparty.keyModuli 1 [smallComponent 5 5] smallGadget
      (smallComponent (i + 1) (i + 1)) (fun _ _ _ _ => 1) (smallEvalKey i) := by
  refine ⟨rfl, rfl, ?_, ?_⟩
  · intro b hb
    rw [List.mem_singleton.mp hb]
    split
    · exact smallComponent_wellFormed (by decide) (by decide)
    · exact smallComponent_wellFormed (by decide) (by decide)
  · intro j x y hx hy m q hq r hr
    rcases j with _ | j
    · cases hx
      cases hy
      rcases m with _ | _ | m
      · cases hq
        interval_cases i <;> interval_cases r <;> decide
      · cases hq
        interval_cases i <;> interval_cases r <;> decide
      · cases hq
    · cases hx

end Scheme
end OpenFHE
