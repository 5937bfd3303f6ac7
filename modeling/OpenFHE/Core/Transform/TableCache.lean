import OpenFHE.Core.Transform.NegacyclicTransform
import OpenFHE.Core.Transform.Variants

/-!
# The static tables

`ChineseRemainderTransformFTTNat` keeps its tables in static maps.  The key is the
modulus alone, and tables of the right length are taken for the tables of the
root at hand.  A call therefore sees the tables of the last call that built them.
-/

namespace OpenFHE
namespace Core
namespace Transform

open Foundation NativeInteger

structure ReverseTables where
  reverse : List Nat
  inverseReverse : List Nat
  preconReverse : List Nat
  inversePreconReverse : List Nat
deriving DecidableEq, Repr

structure OrderTables where
  inverse : List Nat
  inversePrecon : List Nat
deriving DecidableEq, Repr

/-- The static maps, by modulus. -/
structure TableMaps where
  roots : Nat -> Option ReverseTables
  orders : Nat -> Option OrderTables

def TableMaps.reset : TableMaps where
  roots := fun _ => none
  orders := fun _ => none

def computeRoots (rootOfUnity ringDim modulus : Nat) : Option ReverseTables := do
  let msb := getMSB (usint ((ringDim : Int) - 1))
  let mu <- computeMu modulus
  let rootOfUnityInverse <- modInverse rootOfUnity modulus
  let zeros := List.replicate ringDim 0
  let roots <- (List.range ringDim).foldlM
    (rootStep rootOfUnity rootOfUnityInverse modulus mu msb)
    { x := 1, xinv := 1, table := zeros, tableI := zeros,
      preconTable := zeros, preconTableI := zeros }
  return {
    reverse := roots.table
    inverseReverse := roots.tableI
    preconReverse := roots.preconTable
    inversePreconReverse := roots.preconTableI }

def computeOrders (ringDim modulus : Nat) : Option OrderTables := do
  let msb := getMSB (usint ((ringDim : Int) - 1))
  let zeros := List.replicate (msb + 1) 0
  let orders <- (List.range (msb + 1)).foldlM (orderStep modulus)
    { coInv := 1, tableCOI := zeros, preconTableCOI := zeros }
  return { inverse := orders.tableCOI, inversePrecon := orders.preconTableCOI }

def transformTables (roots : ReverseTables) (orders : OrderTables) : TransformTables where
  rootOfUnityReverseTable := roots.reverse
  rootOfUnityInverseReverseTable := roots.inverseReverse
  rootOfUnityPreconReverseTable := roots.preconReverse
  rootOfUnityInversePreconReverseTable := roots.inversePreconReverse
  cycloOrderInverseTable := orders.inverse
  cycloOrderInversePreconTable := orders.inversePrecon

/-- On reset maps `PreCompute` stores what its two loops compute. -/
theorem preCompute_eq (rootOfUnity cycloOrder modulus : Nat) :
    preCompute rootOfUnity cycloOrder modulus =
      (computeRoots rootOfUnity (cycloOrder >>> 1) modulus).bind fun roots =>
        (computeOrders (cycloOrder >>> 1) modulus).map fun orders =>
          transformTables roots orders := by
  unfold preCompute computeRoots computeOrders
  simp only [Option.bind_eq_bind, Option.bind_assoc, Option.map_bind]
  rfl

def setAt {α : Type _} (map : Nat -> Option α) (key : Nat) (value : α) : Nat -> Option α :=
  fun k => if k = key then some value else map k

@[simp] theorem setAt_self {α : Type _} (map : Nat -> Option α) (key : Nat) (value : α) :
    setAt map key value key = some value :=
  if_pos rfl

theorem setAt_ne {α : Type _} (map : Nat -> Option α) {key k : Nat} (value : α)
    (h : k ≠ key) : setAt map key value k = map k :=
  if_neg h

/-- The body behind the search of `PreCompute`.  An exception leaves what was stored. -/
def rebuild (maps : TableMaps) (rootOfUnity ringDim modulus : Nat) : TableMaps × Bool :=
  match computeRoots rootOfUnity ringDim modulus with
  | none => (maps, false)
  | some roots =>
      match computeOrders ringDim modulus with
      | none => ({ maps with roots := setAt maps.roots modulus roots }, false)
      | some orders =>
          ({ roots := setAt maps.roots modulus roots
             orders := setAt maps.orders modulus orders }, true)

/-- The maps after `PreCompute`, and whether it returned. -/
def preComputeCached (maps : TableMaps) (rootOfUnity cycloOrder modulus : Nat) :
    TableMaps × Bool :=
  let ringDim := cycloOrder >>> 1
  match maps.roots modulus with
  | some tables =>
      if tables.reverse.length ≠ ringDim then rebuild maps rootOfUnity ringDim modulus
      else (maps, true)
  | none => rebuild maps rootOfUnity ringDim modulus

/-- The calls of the class; `element` has the modulus of the call. -/
inductive Call where
  | PreCompute
  | ForwardTransformToBitReverseInPlace (element : List Nat)
  | ForwardTransformToBitReverse (element result : List Nat)
  | InverseTransformFromBitReverseInPlace (element : List Nat)
  | InverseTransformFromBitReverse (element result : List Nat)
deriving DecidableEq, Repr

/-- A call with its root, cyclotomic order and modulus. -/
structure Request where
  call : Call
  rootOfUnity : Nat
  cycloOrder : Nat
  modulus : Nat
deriving DecidableEq, Repr

/-- `operator[]` of the maps; an absent entry is an empty vector. -/
def TableMaps.tables (maps : TableMaps) (modulus : Nat) : TransformTables :=
  transformTables ((maps.roots modulus).getD ⟨[], [], [], []⟩)
    ((maps.orders modulus).getD ⟨[], []⟩)

/-- What a call computes from the tables of its modulus. -/
def transformWith (tables : TransformTables) (request : Request) : Option (List Nat) :=
  match request.call with
  | .PreCompute => some []
  | .ForwardTransformToBitReverseInPlace element =>
      forwardTransform request.modulus tables element
  | .ForwardTransformToBitReverse element result =>
      forwardShoup request.modulus element tables.rootOfUnityReverseTable
        tables.rootOfUnityPreconReverseTable result
  | .InverseTransformFromBitReverseInPlace element =>
      inverseTransform request.modulus request.cycloOrder tables element
  | .InverseTransformFromBitReverse element result =>
      -- the copy loop writes all entries of `element` into `result`
      if result.length < element.length then none
      else inverseTransform request.modulus (2 * element.length) tables
        (element ++ result.drop element.length)

def Call.element : Call -> List Nat
  | .PreCompute => []
  | .ForwardTransformToBitReverseInPlace element => element
  | .ForwardTransformToBitReverse element _ => element
  | .InverseTransformFromBitReverseInPlace element => element
  | .InverseTransformFromBitReverse element _ => element

/-- The transforms return their argument for the roots zero and one. -/
def Request.trivial (request : Request) : Prop :=
  request.call ≠ .PreCompute ∧ (request.rootOfUnity = 1 ∨ request.rootOfUnity = 0)

instance (request : Request) : Decidable request.trivial :=
  inferInstanceAs (Decidable (_ ∧ _))

/-- One call: the maps it leaves, and its result unless it throws. -/
def step (maps : TableMaps) (request : Request) : TableMaps × Option (List Nat) :=
  if request.trivial then (maps, some request.call.element)
  else
    let pre := preComputeCached maps request.rootOfUnity request.cycloOrder request.modulus
    (pre.1, if pre.2 then transformWith (pre.1.tables request.modulus) request else none)

def results : TableMaps -> List Request -> List (Option (List Nat))
  | _, [] => []
  | maps, request :: requests =>
      (step maps request).2 :: results (step maps request).1 requests

/-!
## Owners of tables

The history of the calls decides whose tables the maps hold: those of the last
call that did not find tables of its length.
-/

/-- The call that built the tables of a modulus, and whether it returned. -/
structure Owner where
  rootOfUnity : Nat
  ringDim : Nat
  complete : Bool
deriving DecidableEq, Repr

abbrev Owners := Nat -> Option Owner

def record (owners : Owners) (request : Request) : Owners :=
  let ringDim := request.cycloOrder >>> 1
  if request.trivial then owners
  else if (owners request.modulus).any fun owner => owner.ringDim = ringDim then owners
  else if (computeRoots request.rootOfUnity ringDim request.modulus).isSome then
    setAt owners request.modulus
      { rootOfUnity := request.rootOfUnity
        ringDim := ringDim
        complete := (computeOrders ringDim request.modulus).isSome }
  else owners

/-- Tables of the right length come from a finished call with the same root. -/
def Coherent (owners : Owners) (request : Request) : Prop :=
  request.trivial ∨ (owners request.modulus).all fun owner =>
    owner.ringDim = request.cycloOrder >>> 1 ->
      owner.rootOfUnity = request.rootOfUnity ∧ owner.complete

instance (owners : Owners) (request : Request) : Decidable (Coherent owners request) :=
  inferInstanceAs (Decidable (_ ∨ _))

/-- Every call of a sequence is coherent with the calls before it. -/
def CoherentRun : Owners -> List Request -> Prop
  | _, [] => True
  | owners, request :: requests =>
      Coherent owners request ∧ CoherentRun (record owners request) requests

/-- The maps hold for each modulus what its owner built. -/
def Owned (maps : TableMaps) (owners : Owners) : Prop :=
  forall modulus, match owners modulus with
    | none => maps.roots modulus = none
    | some owner => exists tables, maps.roots modulus = some tables ∧
        computeRoots owner.rootOfUnity owner.ringDim modulus = some tables ∧
        (owner.complete -> exists orders, maps.orders modulus = some orders ∧
          computeOrders owner.ringDim modulus = some orders)

theorem rootSteps_length {rootOfUnity inv modulus mu msb : Nat} (indices : List Nat)
    {s s' : RootState}
    (h : indices.foldlM (rootStep rootOfUnity inv modulus mu msb) s = some s') :
    s'.table.length = s.table.length := by
  refine foldlM_invariant (fun t : RootState => t.table.length = s.table.length) ?_ rfl h
  intro i _ t t' ht hstep
  rw [rootStep_length hstep, ht]

theorem computeRoots_length {rootOfUnity ringDim modulus : Nat} {tables : ReverseTables}
    (h : computeRoots rootOfUnity ringDim modulus = some tables) :
    tables.reverse.length = ringDim := by
  simp only [computeRoots, Option.bind_eq_bind, Option.bind_eq_some_iff] at h
  rcases h with ⟨mu, _, inv, _, roots, hroots, htables⟩
  rw [← Option.some.inj htables]
  exact (rootSteps_length _ hroots).trans List.length_replicate

theorem owned_reset : Owned TableMaps.reset (fun _ => none) :=
  fun _ => rfl

theorem Owned.set {maps : TableMaps} {owners : Owners} (h : Owned maps owners)
    {modulus : Nat} (owner : Owner) {tables : ReverseTables}
    (htables : computeRoots owner.rootOfUnity owner.ringDim modulus = some tables)
    {orders : Nat -> Option OrderTables}
    (horders : forall m, m ≠ modulus -> orders m = maps.orders m)
    (hcomplete : owner.complete -> exists t, orders modulus = some t ∧
      computeOrders owner.ringDim modulus = some t) :
    Owned { roots := setAt maps.roots modulus tables, orders := orders }
      (setAt owners modulus owner) := by
  intro m
  by_cases hm : m = modulus
  · rw [hm, setAt_self]
    exact ⟨tables, setAt_self _ _ _, htables, hcomplete⟩
  · rw [setAt_ne owners owner hm]
    have hold := h m
    dsimp only
    rw [setAt_ne maps.roots tables hm, horders m hm]
    exact hold

section Step

variable {maps : TableMaps} {owners : Owners} (h : Owned maps owners)

include h

theorem rebuild_owned (rootOfUnity ringDim modulus : Nat) :
    Owned (rebuild maps rootOfUnity ringDim modulus).1
      (if (computeRoots rootOfUnity ringDim modulus).isSome then
        setAt owners modulus ⟨rootOfUnity, ringDim, (computeOrders ringDim modulus).isSome⟩
      else owners) := by
  unfold rebuild
  cases hroots : computeRoots rootOfUnity ringDim modulus with
  | none => exact h
  | some roots =>
      cases horders : computeOrders ringDim modulus with
      | none =>
          exact h.set ⟨rootOfUnity, ringDim, false⟩ hroots (fun _ _ => rfl)
            (fun hfalse => absurd hfalse Bool.false_ne_true)
      | some orders =>
          exact h.set ⟨rootOfUnity, ringDim, true⟩ hroots
            (fun m hm => setAt_ne _ _ hm)
            (fun _ => ⟨orders, setAt_self _ _ _, horders⟩)

omit h in
theorem rebuild_fresh (maps : TableMaps) (rootOfUnity ringDim modulus : Nat) :
    (rebuild maps rootOfUnity ringDim modulus).2 =
        (rebuild TableMaps.reset rootOfUnity ringDim modulus).2 ∧
      ((rebuild maps rootOfUnity ringDim modulus).2 = true ->
        (rebuild maps rootOfUnity ringDim modulus).1.tables modulus =
          (rebuild TableMaps.reset rootOfUnity ringDim modulus).1.tables modulus) := by
  unfold rebuild
  cases computeRoots rootOfUnity ringDim modulus with
  | none => exact ⟨rfl, fun hfalse => absurd hfalse Bool.false_ne_true⟩
  | some roots =>
      cases computeOrders ringDim modulus with
      | none => exact ⟨rfl, fun hfalse => absurd hfalse Bool.false_ne_true⟩
      | some orders =>
          refine ⟨rfl, fun _ => ?_⟩
          simp only [TableMaps.tables, setAt_self]

theorem preComputeCached_cases (rootOfUnity cycloOrder modulus : Nat) :
    (exists owner, owners modulus = some owner ∧ owner.ringDim = cycloOrder >>> 1 ∧
        preComputeCached maps rootOfUnity cycloOrder modulus = (maps, true)) ∨
      ((owners modulus).any (fun owner => owner.ringDim = cycloOrder >>> 1) = false ∧
        preComputeCached maps rootOfUnity cycloOrder modulus =
          rebuild maps rootOfUnity (cycloOrder >>> 1) modulus) := by
  have hmodulus := h modulus
  unfold preComputeCached
  cases howner : owners modulus with
  | none =>
      rw [howner] at hmodulus
      right
      rw [hmodulus]
      exact ⟨rfl, rfl⟩
  | some owner =>
      rw [howner] at hmodulus
      rcases hmodulus with ⟨tables, hfound, htables, _⟩
      have hlength := computeRoots_length htables
      rw [hfound]
      dsimp only
      by_cases hdim : owner.ringDim = cycloOrder >>> 1
      · left
        exact ⟨owner, rfl, hdim, if_neg (not_not.mpr (hlength.trans hdim))⟩
      · right
        rw [if_pos (by rwa [hlength])]
        exact ⟨by simpa using hdim, rfl⟩

theorem step_owned (request : Request) : Owned (step maps request).1 (record owners request) := by
  unfold step record
  by_cases htrivial : request.trivial
  · rw [if_pos htrivial, if_pos htrivial]
    exact h
  · rw [if_neg htrivial, if_neg htrivial]
    dsimp only
    rcases preComputeCached_cases h request.rootOfUnity request.cycloOrder request.modulus with
      ⟨owner, howner, hdim, hpre⟩ | ⟨hany, hpre⟩
    · rw [hpre, if_pos (by rw [howner]; simpa using hdim)]
      exact h
    · rw [hpre, if_neg (by rw [hany]; exact Bool.false_ne_true)]
      exact rebuild_owned h _ _ _

theorem step_coherent {request : Request} (hcoherent : Coherent owners request) :
    (step maps request).2 = (step TableMaps.reset request).2 := by
  unfold step
  by_cases htrivial : request.trivial
  · rw [if_pos htrivial, if_pos htrivial]
  · rw [if_neg htrivial, if_neg htrivial]
    have hfresh : preComputeCached TableMaps.reset request.rootOfUnity request.cycloOrder
        request.modulus = rebuild TableMaps.reset request.rootOfUnity (request.cycloOrder >>> 1)
          request.modulus := rfl
    dsimp only
    rw [hfresh]
    rcases preComputeCached_cases h request.rootOfUnity request.cycloOrder request.modulus with
      ⟨owner, howner, hdim, hpre⟩ | ⟨_, hpre⟩
    · rw [hpre]
      have hall := hcoherent.resolve_left htrivial
      rw [howner] at hall
      have hsame : owner.rootOfUnity = request.rootOfUnity ∧ owner.complete := by
        simpa [hdim] using hall
      have hmodulus := h request.modulus
      rw [howner] at hmodulus
      rcases hmodulus with ⟨tables, hfound, htables, hcomplete⟩
      rcases hcomplete hsame.2 with ⟨orders, hfoundOrders, horders⟩
      rw [hsame.1, hdim] at htables
      rw [hdim] at horders
      have hrebuild : rebuild TableMaps.reset request.rootOfUnity (request.cycloOrder >>> 1)
          request.modulus =
            ({ roots := setAt TableMaps.reset.roots request.modulus tables
               orders := setAt TableMaps.reset.orders request.modulus orders }, true) := by
        unfold rebuild
        rw [htables, horders]
      rw [hrebuild]
      simp only [TableMaps.tables, setAt_self, hfound, hfoundOrders]
    · rw [hpre]
      rcases rebuild_fresh maps request.rootOfUnity (request.cycloOrder >>> 1)
        request.modulus with ⟨hflag, htables⟩
      rw [← hflag]
      by_cases hok : (rebuild maps request.rootOfUnity (request.cycloOrder >>> 1)
          request.modulus).2 = true
      · rw [htables hok]
      · rw [if_neg hok, if_neg hok]

end Step

theorem results_of_owned {maps : TableMaps} {owners : Owners} (h : Owned maps owners)
    {requests : List Request} (hrun : CoherentRun owners requests) :
    results maps requests = requests.map fun request => (step TableMaps.reset request).2 := by
  induction requests generalizing maps owners with
  | nil => rfl
  | cons request requests ih =>
      rw [results, List.map_cons, step_coherent h hrun.1, ih (step_owned h request) hrun.2]

theorem results_coherent {requests : List Request}
    (hrun : CoherentRun (fun _ => none) requests) :
    results TableMaps.reset requests =
      requests.map fun request => (step TableMaps.reset request).2 :=
  results_of_owned owned_reset hrun

/-- Two rings over one modulus, with one root each. -/
def coherentRequests : List Request :=
  [⟨.PreCompute, 2, 8, 17⟩,
    ⟨.ForwardTransformToBitReverseInPlace [1, 2, 3, 4], 2, 8, 17⟩,
    ⟨.ForwardTransformToBitReverse [5, 6] [0, 0], 4, 4, 17⟩,
    ⟨.InverseTransformFromBitReverseInPlace [7, 8], 4, 4, 17⟩]

theorem results_coherentRequests :
    results TableMaps.reset coherentRequests =
      coherentRequests.map fun request => (step TableMaps.reset request).2 :=
  results_coherent ⟨by decide +kernel, by decide +kernel, by decide +kernel,
    by decide +kernel, trivial⟩

/-- The second root of the same order is transformed with the tables of the first. -/
theorem not_results_two_roots :
    results TableMaps.reset
        [⟨.ForwardTransformToBitReverseInPlace [0, 1, 0, 0], 2, 8, 17⟩,
          ⟨.ForwardTransformToBitReverseInPlace [0, 1, 0, 0], 8, 8, 17⟩] ≠
      [⟨.ForwardTransformToBitReverseInPlace [0, 1, 0, 0], 2, 8, 17⟩,
          ⟨.ForwardTransformToBitReverseInPlace [0, 1, 0, 0], 8, 8, 17⟩].map
        fun request => (step TableMaps.reset request).2 := by
  decide +kernel

end Transform
end Core
end OpenFHE
