import OpenFHE.BinFHE.BTKeys
import OpenFHE.BinFHE.LWECiphertext
import OpenFHE.Foundation.SharedLoop

/-!
# Sign and digit evaluation of large ciphertexts

`EvalSign` and `EvalDecomp` reduce the modulus of a ciphertext step by step.  With
three keys in the map they change the gadget base of the shared parameters to fit the
modulus, and change it back after the last step.
-/

namespace OpenFHE
namespace BinFHE

open Core Foundation NativeInteger

/--
The functional bootstrapping and the modulus switching, which read the shared
parameters and may throw, the modulus `Getq` and the number of digits of a base.
-/
structure LargePrecision (Key : Type _) where
  q : Nat
  digitCount : Nat -> Nat
  BootstrapFunc : RingGSWCryptoParams -> RingGSWBTKey Key -> LWECiphertextImpl ->
    (Nat -> Nat -> Nat -> Nat) -> Nat -> Except Fault LWECiphertextImpl
  ModSwitch : Nat -> LWECiphertextImpl -> Except Fault LWECiphertextImpl

/-- The variables of the loop; `ret` are the digits of `EvalDecomp`. -/
structure LoopState (Key : Type _) where
  mod : Nat
  curEK : RingGSWBTKey Key
  cttmp : LWECiphertextImpl
  ret : List LWECiphertextImpl

/-- A computation on the shared parameters, which an exception does not roll back. -/
abbrev Shared (α : Type _) : Type _ := RingGSWCryptoParams -> Except Fault α × RingGSWCryptoParams

namespace LargePrecision

open LWEEncryptionScheme

variable {Key : Type _} (scheme : LargePrecision Key)

/-- `EvalFloor` with `roundbits` zero. -/
def evalFloor (params : RingGSWCryptoParams) (EK : RingGSWBTKey Key) (ct : LWECiphertextImpl)
    (beta : Nat) : Except Fault LWECiphertextImpl := do
  let q := scheme.q
  let mod := ct.getModulus
  let ct1 := evalAddConstEq ct.copy beta
  let ct1Modq <- ct1.copy.setModulus q
  let f1 := fun x q Q => if x < q >>> 1 then subFast Q (q >>> 2) else q >>> 2
  let ct2 <- scheme.BootstrapFunc params EK ct1Modq f1 mod
  let ct1 <- evalSubEq ct1 ct2
  let ct2Modq <- ct1.copy.setModulus q
  let f2 := fun x q Q =>
    if x < q >>> 2 then subFast (subFast Q (q >>> 1)) x
    else if q >>> 2 <= x ∧ x < 3 * (q >>> 2) then x
    else subFast (addFast Q (q >>> 1)) x
  let ct3 <- scheme.BootstrapFunc params EK ct2Modq f2 mod
  evalSubEq ct1 ct3

/-- The base for a modulus of `binLog` bits; zero keeps the base. -/
def selectBase (binLog : Nat) : Nat :=
  if binLog <= 17 then 1 <<< 27 else if binLog <= 26 then 1 <<< 18 else 0

def missingMessage (curBase : Nat) : String :=
  "No key [" ++ toString curBase ++ "] found in the map"

/-- The end of an iteration: change the base and look up its key. -/
def changeBase (EKs : AList fun _ : Nat => RingGSWBTKey Key) (curBase binLog : Nat)
    (s : LoopState Key) : Shared (LoopState Key) := fun params =>
  if EKs.keys.length = 3 then
    let base := selectBase binLog
    if 0 ≠ base then
      let params := params.changeBaseG scheme.digitCount base
      match EKs.lookup base with
      | none => (.error (.thrown (missingMessage curBase)), params)
      | some key => (.ok { s with curEK := key }, params)
    else (.ok s, params)
  else (.ok s, params)

/-- The body of the loop of `EvalSign` up to the change of the base. -/
def signStep (beta : Nat) (s : LoopState Key) (params : RingGSWCryptoParams) :
    Except Fault (LoopState Key) := do
  let cttmp <- scheme.evalFloor params s.curEK s.cttmp beta
  let mod := mulFast (lShift s.mod 1) beta / scheme.q
  let cttmp <- scheme.ModSwitch mod cttmp
  return { s with mod := mod, cttmp := cttmp }

/--
The body of the loop of `EvalDecomp`.  With dynamic bases it ends with the logarithm of the
modulus, which is undefined for zero.
-/
def decompStep (beta : Nat) (dynamic : Bool) (s : LoopState Key)
    (params : RingGSWCryptoParams) : Except Fault (LoopState Key) := do
  let ctq <- s.cttmp.copy.setModulus scheme.q
  let cttmp <- scheme.evalFloor params s.curEK s.cttmp beta
  let mod := mulFast (mulFast (s.mod / scheme.q) 2) beta
  let cttmp <- scheme.ModSwitch mod cttmp
  if dynamic ∧ mod = 0 then throw .undefined
  return { s with mod := mod, cttmp := cttmp, ret := s.ret ++ [ctq] }

def signFinish (beta : Nat) (schemeSwitch : Bool) (s : LoopState Key)
    (params : RingGSWCryptoParams) : Except Fault LWECiphertextImpl := do
  let q := scheme.q
  let cttmp := evalAddConstEq s.cttmp beta
  if !schemeSwitch then
    let f3 := fun x q Q => if x < q / 2 then Q / 4 else subFast Q (Q / 4)
    let cttmp <- scheme.BootstrapFunc params s.curEK cttmp f3 q
    return evalSubConstEq cttmp (q >>> 2)
  else
    let f3 := fun x q Q => if x < q / 2 then subFast Q (Q / 4) else Q / 4
    scheme.BootstrapFunc params s.curEK cttmp f3 q

def decompFinish (s : LoopState Key) (_ : RingGSWCryptoParams) :
    Except Fault (List LWECiphertextImpl) :=
  .ok (s.ret ++ [s.cttmp])

structure Procedure (Key α : Type _) where
  step : LoopState Key -> RingGSWCryptoParams -> Except Fault (LoopState Key)
  binLog : Nat -> Nat
  finish : LoopState Key -> RingGSWCryptoParams -> Except Fault α
  smallMessage : String

def iteration {α : Type _} (proc : Procedure Key α)
    (EKs : AList fun _ : Nat => RingGSWBTKey Key) (curBase : Nat) (s : LoopState Key) :
    Shared (LoopState Key) := fun params =>
  match proc.step s params with
  | .error e => (.error e, params)
  | .ok s => changeBase scheme EKs curBase (proc.binLog s.mod) s params

def large (s : LoopState Key) : Bool := s.mod > scheme.q

def firstState (ct : LWECiphertextImpl) (key : RingGSWBTKey Key) : LoopState Key where
  mod := ct.getModulus
  curEK := key
  cttmp := ct.copy
  ret := []

/-- After the loop: an exception of the loop leaves the parameters as they are. -/
def conclude {α : Type _} (proc : Procedure Key α) (curBase : Nat) :
    Except Fault (LoopState Key) × RingGSWCryptoParams -> Except Fault α × RingGSWCryptoParams
  | (.error e, params) => (.error e, params)
  | (.ok s, params) =>
      match proc.finish s params with
      | .error e => (.error e, params)
      | .ok result => (.ok result, params.changeBaseG scheme.digitCount curBase)

/-- A call; the fuel bounds the iterations, which need not end. -/
def call {α : Type _} (proc : Procedure Key α) (EKs : AList fun _ : Nat => RingGSWBTKey Key)
    (ct : Option LWECiphertextImpl) (fuel : Nat) (params : RingGSWCryptoParams) :
    Option (Except Fault α × RingGSWCryptoParams) :=
  match ct with
  | none => some (.error (.thrown "Ciphertext is empty"), params)
  | some ct =>
      if ct.getModulus <= scheme.q then some (.error (.thrown proc.smallMessage), params)
      else
        match EKs.lookup params.baseG with
        | none => some (.error (.thrown (missingMessage params.baseG)), params)
        | some key =>
            (runWhile scheme.large (scheme.iteration proc EKs params.baseG) fuel
              (firstState ct key) params).map (scheme.conclude proc params.baseG)

def signProcedure (beta : Nat) (schemeSwitch : Bool) : Procedure Key LWECiphertextImpl where
  step := scheme.signStep beta
  binLog := fun mod => usint ((getMSB mod : Int) - 1)
  finish := scheme.signFinish beta schemeSwitch
  smallMessage :=
    "This function only for large precision. For small precision, use bootstrapping directly"

def decompProcedure (beta : Nat) (dynamic : Bool) :
    Procedure Key (List LWECiphertextImpl) where
  step := scheme.decompStep beta dynamic
  binLog := Nat.clog 2
  finish := decompFinish
  smallMessage :=
    "Function only for large precision. For small precision, use bootstrapping directly"

def evalSign (EKs : AList fun _ : Nat => RingGSWBTKey Key) (ct : Option LWECiphertextImpl)
    (beta : Nat) (schemeSwitch : Bool) (fuel : Nat) (params : RingGSWCryptoParams) :
    Option (Except Fault LWECiphertextImpl × RingGSWCryptoParams) :=
  scheme.call (scheme.signProcedure beta schemeSwitch) EKs ct fuel params

def evalDecomp (EKs : AList fun _ : Nat => RingGSWBTKey Key) (ct : Option LWECiphertextImpl)
    (beta : Nat) (fuel : Nat) (params : RingGSWCryptoParams) :
    Option (Except Fault (List LWECiphertextImpl) × RingGSWCryptoParams) :=
  scheme.call (scheme.decompProcedure beta (decide (EKs.keys.length = 3))) EKs ct fuel params

end LargePrecision

/-!
## The shared parameters
-/

namespace RingGSWCryptoParams

def mapPowers (params : RingGSWCryptoParams) (base : Nat) : List Nat :=
  (params.Gpower_map.lookup base).getD []

/-- The base, the digit count and the powers are the same. -/
structure Unchanged (params params' : RingGSWCryptoParams) : Prop where
  baseG : params'.baseG = params.baseG
  digitsG : params'.digitsG = params.digitsG
  Gpower : params'.Gpower = params.Gpower

variable (digitCount : Nat -> Nat) (params : RingGSWCryptoParams) (base : Nat)

@[simp] theorem changeBaseG_mapPowers (b : Nat) :
    (params.changeBaseG digitCount base).mapPowers b = params.mapPowers b := by
  unfold changeBaseG mapPowers
  split
  · dsimp only
    split
    · rfl
    · rename_i hmem
      by_cases hb : b = base
      · subst hb
        rw [AList.lookup_insert, AList.lookup_eq_none.mpr hmem]
        rfl
      · rw [AList.lookup_insert_ne hb]
  · rfl

theorem changeBaseG_Gpower (hne : params.baseG ≠ base) :
    (params.changeBaseG digitCount base).Gpower = params.mapPowers base := by
  rw [changeBaseG, if_pos hne]
  rfl

@[simp] theorem changeBaseG_self : params.changeBaseG digitCount params.baseG = params := by
  rw [changeBaseG, if_neg (by simp)]

theorem Unchanged.refl : Unchanged params params := by
  constructor <;> rfl

/-- The fields of the base are those that a change to it from `params` would write. -/
structure Selected (params' : RingGSWCryptoParams) : Prop where
  mapPowers : forall b, params'.mapPowers b = params.mapPowers b
  digitsG : params'.digitsG = digitCount params'.baseG
  Gpower : params'.Gpower = params.mapPowers params'.baseG

structure Follows (params' : RingGSWCryptoParams) : Prop where
  mapPowers : forall b, params'.mapPowers b = params.mapPowers b
  fields : Unchanged params params' ∨ Selected digitCount params params'

variable {digitCount params} {params' : RingGSWCryptoParams}

theorem Follows.refl : Follows digitCount params params := by
  constructor
  · intro b
    rfl
  · exact Or.inl (Unchanged.refl params)

theorem Follows.change (h : Follows digitCount params params')
    (hne : params'.baseG ≠ base) :
    Selected digitCount params (params'.changeBaseG digitCount base) := by
  constructor
  · intro b
    rw [changeBaseG_mapPowers, h.mapPowers]
  · rw [changeBaseG_baseG, changeBaseG, if_pos hne]
  · rw [changeBaseG_baseG, changeBaseG_Gpower digitCount params' base hne, h.mapPowers]

theorem Selected.follows (h : Selected digitCount params params') :
    Follows digitCount params params' := by
  constructor
  · exact h.mapPowers
  · exact Or.inr h

theorem Selected.changeBaseG (h : Selected digitCount params params') :
    Selected digitCount params (params'.changeBaseG digitCount base) := by
  by_cases heq : params'.baseG = base
  · subst heq
    rw [changeBaseG_self]
    exact h
  · exact h.follows.change base heq

theorem Follows.changeBaseG (h : Follows digitCount params params') :
    Follows digitCount params (params'.changeBaseG digitCount base) := by
  by_cases heq : params'.baseG = base
  · subst heq
    rw [changeBaseG_self]
    exact h
  · exact (h.change base heq).follows

theorem Selected.unchanged (h : Selected digitCount params params')
    (hstart : Selected digitCount params params) (hbase : params'.baseG = params.baseG) :
    Unchanged params params' := by
  constructor
  · exact hbase
  · rw [h.digitsG, hbase, hstart.digitsG]
  · rw [h.Gpower, hbase, hstart.Gpower]

theorem Selected.of_unchanged (h : Selected digitCount params params')
    (hunchanged : Unchanged params params') : Selected digitCount params params := by
  constructor
  · intro b
    rfl
  · rw [<- hunchanged.digitsG, h.digitsG, hunchanged.baseG]
  · rw [<- hunchanged.Gpower, h.Gpower, hunchanged.baseG]

theorem Follows.unchanged (h : Follows digitCount params params')
    (hstart : Unchanged params params' ∨ Selected digitCount params params)
    (hbase : params'.baseG = params.baseG) : Unchanged params params' := by
  rcases h.fields with hsame | hselected
  · exact hsame
  · rcases hstart with hsame | hstart
    · exact hsame
    · exact hselected.unchanged hstart hbase

end RingGSWCryptoParams

/-! ## Calls that leave the shared parameters unchanged -/

namespace LargePrecision

open RingGSWCryptoParams

section Unchanged

variable {Key : Type _} {α : Type _} (scheme : LargePrecision Key) (proc : Procedure Key α)
  (EKs : AList fun _ : Nat => RingGSWBTKey Key) (params : RingGSWCryptoParams)

/--
What a state before a test must satisfy: what throws there throws at the base of the
start, the selected base has a key, and at another base the fields of `params` can be
selected again.
-/
structure Restores (s : LoopState Key) (p : RingGSWCryptoParams) : Prop where
  step : scheme.large s = true -> forall e, proc.step s p = .error e ->
    p.baseG = params.baseG
  keys : scheme.large s = true -> forall s', proc.step s p = .ok s' ->
    EKs.keys.length = 3 -> selectBase (proc.binLog s'.mod) ≠ 0 ->
    selectBase (proc.binLog s'.mod) ∈ EKs
  finish : scheme.large s = false -> forall e, proc.finish s p = .error e ->
    p.baseG = params.baseG
  fields : p.baseG ≠ params.baseG -> Selected scheme.digitCount params params

variable {scheme proc EKs params}

theorem changeBase_cases {curBase binLog : Nat} {s : LoopState Key} {p p' : RingGSWCryptoParams}
    {r : Except Fault (LoopState Key)}
    (h : changeBase scheme EKs curBase binLog s p = (r, p')) :
    (p' = p ∧ r = .ok s) ∨
      (p' = p.changeBaseG scheme.digitCount (selectBase binLog) ∧
        ((exists key, r = .ok { s with curEK := key }) ∨
          (EKs.keys.length = 3 ∧ selectBase binLog ≠ 0 ∧ selectBase binLog ∉ EKs))) := by
  unfold changeBase at h
  split at h
  · rename_i hlength
    dsimp only at h
    split at h
    · rename_i hbase
      split at h
      · rename_i hlookup
        cases h
        exact Or.inr ⟨rfl, Or.inr ⟨hlength, hbase.symm, AList.lookup_eq_none.mp hlookup⟩⟩
      · rename_i key _
        cases h
        exact Or.inr ⟨rfl, Or.inl ⟨key, rfl⟩⟩
    · cases h
      exact Or.inl ⟨rfl, rfl⟩
  · cases h
    exact Or.inl ⟨rfl, rfl⟩

theorem changeBase_missing {curBase binLog : Nat} (hlength : EKs.keys.length = 3)
    (hbase : selectBase binLog ≠ 0) (hmissing : selectBase binLog ∉ EKs)
    (s : LoopState Key) (p : RingGSWCryptoParams) :
    changeBase scheme EKs curBase binLog s p =
      (.error (.thrown (missingMessage curBase)),
        p.changeBaseG scheme.digitCount (selectBase binLog)) := by
  unfold changeBase
  rw [if_pos hlength]
  dsimp only
  rw [if_pos hbase.symm, AList.lookup_eq_none.mpr hmissing]

theorem iteration_throws {curBase : Nat} {s : LoopState Key} {p : RingGSWCryptoParams}
    {e : Fault} (h : proc.step s p = .error e) :
    iteration scheme proc EKs curBase s p = (.error e, p) := by
  rw [iteration, h]

theorem iteration_ok {curBase : Nat} {s s' : LoopState Key} {p : RingGSWCryptoParams}
    (h : proc.step s p = .ok s') :
    iteration scheme proc EKs curBase s p =
      changeBase scheme EKs curBase (proc.binLog s'.mod) s' p := by
  rw [iteration, h]

theorem iteration_params {curBase : Nat} {s : LoopState Key} {p p' : RingGSWCryptoParams}
    {r : Except Fault (LoopState Key)}
    (h : iteration scheme proc EKs curBase s p = (r, p')) :
    p' = p ∨ exists base, p' = p.changeBaseG scheme.digitCount base := by
  cases hstep : proc.step s p with
  | error e =>
      rw [iteration_throws hstep] at h
      cases h
      exact Or.inl rfl
  | ok s' =>
      rw [iteration_ok hstep] at h
      rcases changeBase_cases h with ⟨hp, _⟩ | ⟨hp, _⟩
      · exact Or.inl hp
      · exact Or.inr ⟨_, hp⟩

theorem iteration_selected {curBase : Nat} {s : LoopState Key} {p p' : RingGSWCryptoParams}
    {r : Except Fault (LoopState Key)} (hp : Selected scheme.digitCount params p)
    (h : iteration scheme proc EKs curBase s p = (r, p')) :
    Selected scheme.digitCount params p' := by
  rcases iteration_params h with rfl | ⟨base, rfl⟩
  · exact hp
  · exact hp.changeBaseG base

theorem runWhile_selected {curBase fuel : Nat} {s : LoopState Key} {p p' : RingGSWCryptoParams}
    {r : Except Fault (LoopState Key)} (hp : Selected scheme.digitCount params p)
    (hrun : runWhile scheme.large (iteration scheme proc EKs curBase) fuel s p = some (r, p')) :
    Selected scheme.digitCount params p' := by
  rcases runWhile_outcome hrun with ⟨s₁, p₁, hvisits, hend⟩
  have hp₁ : Selected scheme.digitCount params p₁ := by
    apply hvisits.invariant hp
    intro s p s' p' _ hselected _ hbody
    exact iteration_selected hselected hbody
  rcases hend with ⟨_, _, rfl⟩ | ⟨e, _, hbody, _⟩
  · exact hp₁
  · exact iteration_selected hp₁ hbody

theorem visits_follows {s s₀ : LoopState Key} {p : RingGSWCryptoParams}
    (hvisits : Visits scheme.large (iteration scheme proc EKs params.baseG) s₀ params s p) :
    Follows scheme.digitCount params p := by
  apply hvisits.invariant Follows.refl
  intro s p s' p' _ hfollows _ hbody
  rcases iteration_params hbody with rfl | ⟨base, rfl⟩
  · exact hfollows
  · exact hfollows.changeBaseG base

theorem visits_restorable {s s₀ : LoopState Key} {p : RingGSWCryptoParams}
    (hvisits : Visits scheme.large (iteration scheme proc EKs params.baseG) s₀ params s p)
    (hall : forall s p,
      Visits scheme.large (iteration scheme proc EKs params.baseG) s₀ params s p ->
        Restores scheme proc EKs params s p) :
    Unchanged params p ∨ Selected scheme.digitCount params params := by
  apply hvisits.invariant (Or.inl (Unchanged.refl params))
  intro s₁ p₁ s₂ p₂ hvisit hrestorable hlarge hbody
  rcases hrestorable with hsame | hstart
  · by_cases hbase : p₂.baseG = params.baseG
    · rcases iteration_params hbody with rfl | ⟨base, rfl⟩
      · exact Or.inl hsame
      · rw [changeBaseG_baseG] at hbase
        rw [hbase, <- hsame.baseG, changeBaseG_self]
        exact Or.inl hsame
    · exact Or.inr ((hall s₂ p₂ (hvisit.snoc hlarge hbody)).fields hbase)
  · exact Or.inr hstart

theorem conclude_throws {curBase : Nat} {s : LoopState Key} {p : RingGSWCryptoParams} {e : Fault}
    (h : proc.finish s p = .error e) :
    conclude scheme proc curBase (.ok s, p) = (.error e, p) := by
  simp only [conclude, h]

theorem conclude_ok {curBase : Nat} {s : LoopState Key} {p : RingGSWCryptoParams} {result : α}
    (h : proc.finish s p = .ok result) :
    conclude scheme proc curBase (.ok s, p) =
      (.ok result, p.changeBaseG scheme.digitCount curBase) := by
  simp only [conclude, h]

theorem conclude_unchanged {s₀ : LoopState Key} {fuel : Nat} {r : Except Fault (LoopState Key)}
    {p : RingGSWCryptoParams}
    (hall : forall s p,
      Visits scheme.large (iteration scheme proc EKs params.baseG) s₀ params s p ->
        Restores scheme proc EKs params s p)
    (hrun : runWhile scheme.large (iteration scheme proc EKs params.baseG) fuel s₀ params =
      some (r, p)) :
    Unchanged params (conclude scheme proc params.baseG (r, p)).2 := by
  rcases runWhile_outcome hrun with ⟨s₁, p₁, hvisits, hend⟩
  have hfollows := visits_follows hvisits
  have hrestorable := visits_restorable hvisits hall
  have hrestores := hall s₁ p₁ hvisits
  rcases hend with ⟨hsmall, rfl, rfl⟩ | ⟨e, hlarge, hbody, rfl⟩
  · cases hfinish : proc.finish s₁ p with
    | error e =>
        rw [conclude_throws hfinish]
        exact hfollows.unchanged hrestorable (hrestores.finish hsmall e hfinish)
    | ok result =>
        rw [conclude_ok hfinish]
        rcases hrestorable with hsame | hstart
        · rw [<- hsame.baseG, changeBaseG_self]
          exact hsame
        · exact (hfollows.changeBaseG params.baseG).unchanged (Or.inr hstart)
            (changeBaseG_baseG _ _ _)
  · cases hstep : proc.step s₁ p₁ with
    | error _ =>
        rw [iteration_throws hstep] at hbody
        cases hbody
        exact hfollows.unchanged hrestorable (hrestores.step hlarge e hstep)
    | ok s' =>
        rw [iteration_ok hstep] at hbody
        rcases changeBase_cases hbody with ⟨_, hr⟩ | ⟨_, ⟨key, hr⟩ | ⟨hlength, hbase, hmissing⟩⟩
        · cases hr
        · cases hr
        · exact absurd (hrestores.keys hlarge s' hstep hlength hbase) hmissing

theorem restores_of_conclude {s₀ s : LoopState Key} {fuel : Nat}
    {r : Except Fault (LoopState Key)} {p p' : RingGSWCryptoParams}
    (hstart : params.baseG ∈ EKs)
    (hvisits : Visits scheme.large (iteration scheme proc EKs params.baseG) s₀ params s p)
    (hrun : runWhile scheme.large (iteration scheme proc EKs params.baseG) fuel s₀ params =
      some (r, p'))
    (hend : Unchanged params (conclude scheme proc params.baseG (r, p')).2) :
    Restores scheme proc EKs params s p := by
  rcases hvisits.run hrun with ⟨fuel', hrun'⟩
  cases fuel' with
  | zero =>
      cases hrun'
  | succ fuel' =>
      constructor
      · intro hlarge e hstep
        rw [runWhile_throw fuel' hlarge (iteration_throws hstep)] at hrun'
        cases hrun'
        exact hend.baseG
      · intro hlarge s' hstep hlength hbase
        by_contra hmissing
        have hbody : iteration scheme proc EKs params.baseG s p =
            (.error (.thrown (missingMessage params.baseG)),
              p.changeBaseG scheme.digitCount (selectBase (proc.binLog s'.mod))) := by
          rw [iteration_ok hstep, changeBase_missing hlength hbase hmissing]
        rw [runWhile_throw fuel' hlarge hbody] at hrun'
        cases hrun'
        have hsame := hend.baseG
        rw [conclude, changeBaseG_baseG] at hsame
        rw [hsame] at hmissing
        exact hmissing hstart
      · intro hsmall e hfinish
        rw [runWhile_stop fuel' hsmall] at hrun'
        cases hrun'
        rw [conclude_throws hfinish] at hend
        exact hend.baseG
      · intro hbase
        have hselected : Selected scheme.digitCount params p := by
          rcases (visits_follows hvisits).fields with hsame | hselected
          · exact absurd hsame.baseG hbase
          · exact hselected
        have hp' := runWhile_selected hselected hrun'
        apply Selected.of_unchanged _ hend
        cases r with
        | error e =>
            exact hp'
        | ok s' =>
            cases hfinish : proc.finish s' p' with
            | error e =>
                rw [conclude_throws hfinish]
                exact hp'
            | ok result =>
                rw [conclude_ok hfinish]
                exact hp'.changeBaseG params.baseG

variable (scheme proc EKs params)

/-- A call that gets to its loop visits only states that restore the parameters. -/
def Restoring (ct : Option LWECiphertextImpl) : Prop :=
  forall c key, ct = some c -> scheme.q < c.getModulus -> EKs.lookup params.baseG = some key ->
    forall s p,
      Visits scheme.large (iteration scheme proc EKs params.baseG) (firstState c key) params s p ->
        Restores scheme proc EKs params s p

variable {scheme proc EKs params}

theorem call_unchanged_iff {ct : Option LWECiphertextImpl} {fuel : Nat} {r : Except Fault α}
    {params' : RingGSWCryptoParams}
    (h : call scheme proc EKs ct fuel params = some (r, params')) :
    Unchanged params params' <-> Restoring scheme proc EKs params ct := by
  unfold call at h
  cases ct with
  | none =>
      cases h
      constructor
      · intro _ c key hc
        cases hc
      · intro _
        exact Unchanged.refl params
  | some ct =>
      dsimp only at h
      split at h
      · rename_i hsmall
        cases h
        constructor
        · intro _ c key hc hlarge
          cases hc
          exact absurd hlarge (Nat.not_lt.mpr hsmall)
        · intro _
          exact Unchanged.refl params
      · rename_i hlarge
        split at h
        · rename_i hnone
          cases h
          constructor
          · intro _ c key _ _ hkey
            rw [hnone] at hkey
            cases hkey
          · intro _
            exact Unchanged.refl params
        · rename_i key hkey
          rcases Option.map_eq_some_iff.mp h with ⟨⟨loop, p⟩, hrun, hend⟩
          have hp : (conclude scheme proc params.baseG (loop, p)).2 = params' := by rw [hend]
          rw [<- hp]
          constructor
          · intro hunchanged c key' hc _ hkey' s p₁ hvisits
            cases hc
            rw [hkey] at hkey'
            cases hkey'
            have hmem : params.baseG ∈ EKs := by
              rw [<- AList.lookup_isSome, hkey]
              rfl
            exact restores_of_conclude hmem hvisits hrun hunchanged
          · intro hrestoring
            exact conclude_unchanged
              (hrestoring ct key rfl (Nat.not_le.mp hlarge) hkey) hrun

end Unchanged

variable {Key : Type _} (scheme : LargePrecision Key)

/-- Bootstrapping without noise of ciphertexts whose mask is zero. -/
def noiseless : LargePrecision Unit where
  q := 4096
  digitCount := fun base => (53 + base.log2) / base.log2
  BootstrapFunc := fun _ EK ct f fmod =>
    match EK.BSkey with
    | none =>
        .error (.thrown
          "Bootstrapping keys not generated. Please call BTKeyGen before bootstrapping.")
    | some _ =>
        .ok { m_a := NativeVectorT.zeros ct.getLength fmod
              m_b := f ct.m_b ct.getModulus fmod % fmod }
  ModSwitch := fun mod ct =>
    .ok { m_a := NativeVectorT.zeros ct.getLength mod
          m_b := (2 * ct.m_b * mod + ct.getModulus) / (2 * ct.getModulus) % mod }

def generatedKey : RingGSWBTKey Unit where
  BSkey := some ()
  KSkey := some ()
  Pkey := none

def powers54 : AList fun _ : Nat => List Nat :=
  AList.insert (2 ^ 14) [1, 2 ^ 14, 2 ^ 28, 2 ^ 42]
    (AList.insert (2 ^ 18) [1, 2 ^ 18, 2 ^ 36] (AList.insert (2 ^ 27) [1, 2 ^ 27] ∅))

def params2to14 : RingGSWCryptoParams where
  baseG := 2 ^ 14
  digitsG := 4
  Gpower := [1, 2 ^ 14, 2 ^ 28, 2 ^ 42]
  Gpower_map := powers54

def keysFor (bases : List Nat) : AList fun _ : Nat => RingGSWBTKey Unit :=
  bases.foldr (fun base EKs => EKs.insert base generatedKey) ∅

def ciphertext20 : LWECiphertextImpl where
  m_a := NativeVectorT.zeros 2 (2 ^ 20)
  m_b := 123456

end LargePrecision

end BinFHE
end OpenFHE
