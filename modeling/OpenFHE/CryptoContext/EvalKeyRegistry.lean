import OpenFHE.Core.NativeInteger.Word
import OpenFHE.Foundation.KeyedMap
import Mathlib.Algebra.Group.Nat.Defs
import Mathlib.Logic.Function.Basic

/-!
# Registries of evaluation keys

`CryptoContextImpl` keeps the relinearization keys and the automorphism keys of
all contexts in two static maps by key tag.  The maps of automorphism keys are
shared objects: the registry stores the pointer it is given, and later inserts
write through it.
-/

namespace OpenFHE
namespace CryptoContext

open OpenFHE.Core Foundation NativeInteger

structure EvalKey (Context Data : Type _) where
  keyTag : String
  cryptoContext : Context
  data : Data
deriving DecidableEq, Repr

/-- A private key with the bound on the powers from its crypto parameters. -/
structure PrivateKey (Context Element : Type _) where
  keyTag : String
  cryptoContext : Context
  privateElement : Element
  maxRelinSkDeg : Nat
deriving DecidableEq, Repr

/-- `KeySwitchGen oldKey newKey` of the scheme; `none` is an exception. -/
structure KeySource (Element Draw Data : Type _) where
  KeySwitchGen : Element -> Element -> Draw -> Option Data

/-- The two static maps, and the maps of automorphism keys as objects. -/
structure Registries (Context Data : Type _) where
  objects : Nat -> AList fun _ : Nat => EvalKey Context Data
  evalMultKeyMap : AList fun _ : String => List (EvalKey Context Data)
  evalAutomorphismKeyMap : AList fun _ : String => Nat

/-- The calls.  A null pointer is the key `none`. -/
inductive RegistryCall (Context Element Draw Data : Type _) where
  | EvalMultKeyGen (cc : Context) (key : Option (PrivateKey Context Element)) (draw : Draw)
  | EvalMultKeysGen (cc : Context) (key : Option (PrivateKey Context Element))
      (draws : Nat -> Draw)
  | InsertEvalMultKey (vectorToInsert : List (EvalKey Context Data)) (keyTag : String)
  | ClearEvalMultKeys
  | ClearEvalMultKeysOfTag (keyTag : String)
  | ClearEvalMultKeysOfContext (cc : Context)
  | InsertEvalAutomorphismKey (mapToInsert : Nat) (keyTag : String)
  | ClearEvalAutomorphismKeys
  | ClearEvalAutomorphismKeysOfTag (keyTag : String)
  | ClearEvalAutomorphismKeysOfContext (cc : Context)

section Generation

variable {Context Element Draw Data : Type _} [Mul Element]

/-- The loop of the scheme: one key for each further power of the secret. -/
def multKeysLoop (source : KeySource Element Draw Data) (key : PrivateKey Context Element)
    (draws : Nat -> Draw) : Nat -> Nat -> Element -> Option (List (EvalKey Context Data))
  | 0, _, _ => some []
  | count + 1, i, privateKeyPower =>
      let privateKeyPower := key.privateElement * privateKeyPower
      match source.KeySwitchGen privateKeyPower key.privateElement (draws i) with
      | none => none
      | some data =>
          (multKeysLoop source key draws count (i + 1) privateKeyPower).map
            (⟨key.keyTag, key.cryptoContext, data⟩ :: ·)

def schemeEvalMultKeysGen (source : KeySource Element Draw Data)
    (key : PrivateKey Context Element) (draws : Nat -> Draw) :
    Option (List (EvalKey Context Data)) :=
  multKeysLoop source key draws (usint ((key.maxRelinSkDeg : Int) - 1)) 0 key.privateElement

def schemeEvalMultKeyGen (source : KeySource Element Draw Data)
    (key : PrivateKey Context Element) (draw : Draw) : Option (EvalKey Context Data) :=
  (source.KeySwitchGen (key.privateElement * key.privateElement) key.privateElement draw).map
    fun data => ⟨key.keyTag, key.cryptoContext, data⟩

end Generation

namespace Registries

variable {Context Element Draw Data : Type _}

/-- The key `begin()` points to. -/
def firstKey (map : AList fun _ : Nat => EvalKey Context Data) :
    Option (EvalKey Context Data) :=
  map.keys.min?.bind map.lookup

/-- The registries of a new process, over the maps its callers will pass. -/
def start (objects : Nat -> AList fun _ : Nat => EvalKey Context Data) :
    Registries Context Data where
  objects := objects
  evalMultKeyMap := ∅
  evalAutomorphismKeyMap := ∅

/-! ## The relinearization keys -/

/-- Position `i` holds a switching key from the power `i + 2` of the secret. -/
def HoldsPowers [Monoid Element] (source : KeySource Element Draw Data)
    (key : PrivateKey Context Element) (vector : List (EvalKey Context Data)) : Prop :=
  forall i, i < usint ((key.maxRelinSkDeg : Int) - 1) ->
    exists evalKey draw, vector[i]? = some evalKey ∧
      source.KeySwitchGen (key.privateElement ^ (i + 2)) key.privateElement draw =
        some evalKey.data

theorem multKeysLoop_powers [Monoid Element] {source : KeySource Element Draw Data}
    {key : PrivateKey Context Element} {draws : Nat -> Draw} {count i : Nat}
    {vector : List (EvalKey Context Data)}
    (h : multKeysLoop source key draws count i (key.privateElement ^ (i + 1)) = some vector) :
    forall j, j < count -> exists evalKey draw, vector[j]? = some evalKey ∧
      source.KeySwitchGen (key.privateElement ^ (i + j + 2)) key.privateElement draw =
        some evalKey.data := by
  induction count generalizing i vector with
  | zero =>
      intro j hj
      exact absurd hj (Nat.not_lt_zero j)
  | succ count ih =>
      simp only [multKeysLoop, ← pow_succ'] at h
      cases hdata : source.KeySwitchGen (key.privateElement ^ (i + 1 + 1)) key.privateElement
          (draws i) with
      | none =>
          rw [hdata] at h
          cases h
      | some data =>
          simp only [hdata, Option.map_eq_some_iff] at h
          rcases h with ⟨rest, hrest, rfl⟩
          intro j hj
          cases j with
          | zero =>
              exact ⟨_, draws i, rfl, hdata⟩
          | succ j =>
              rcases ih hrest j (by omega) with ⟨evalKey, draw, hget, hpower⟩
              refine ⟨evalKey, draw, by simpa using hget, ?_⟩
              rw [show i + (j + 1) + 2 = i + 1 + j + 2 by omega]
              exact hpower

theorem schemeEvalMultKeysGen_holdsPowers [Monoid Element]
    {source : KeySource Element Draw Data} {key : PrivateKey Context Element}
    {draws : Nat -> Draw} {vector : List (EvalKey Context Data)}
    (h : schemeEvalMultKeysGen source key draws = some vector) :
    HoldsPowers source key vector := by
  unfold schemeEvalMultKeysGen at h
  rw [← pow_one key.privateElement] at h
  intro i hi
  simpa using multKeysLoop_powers (i := 0) (by simpa using h) i hi

/-! ## The automorphism keys -/

/-- The tag under which a map with this first key is inserted. -/
def insertTag (first : EvalKey Context Data) (keyTag : String) : String :=
  if keyTag = "" then first.keyTag else keyTag

/-- The write through a registered pointer. -/
def addMissing (s : Registries Context Data) (keyMap : Nat)
    (new : AList fun _ : Nat => EvalKey Context Data) : Registries Context Data :=
  { s with
    objects := Function.update s.objects keyMap (mergeMissing (s.objects keyMap) new) }

def insertEvalAutomorphismKey (mapToInsert : Nat) (keyTag : String)
    (s : Registries Context Data) : Registries Context Data :=
  match firstKey (s.objects mapToInsert) with
  | none => s
  | some first =>
      let id := insertTag first keyTag
      let registered :=
        { s with evalAutomorphismKeyMap := s.evalAutomorphismKeyMap.insert id mapToInsert }
      match s.evalAutomorphismKeyMap.lookup id with
      | none => registered
      | some keyMap =>
          if (s.objects keyMap).keys = [] then registered
          else s.addMissing keyMap (s.objects mapToInsert)

def automorphismKey (s : Registries Context Data) (tag : String) (index : Nat) :
    Option (EvalKey Context Data) :=
  (s.evalAutomorphismKeyMap.lookup tag).bind fun object => (s.objects object).lookup index

/-- The keys inserted under each tag since its last clear; the first one of an index wins. -/
abbrev Inserted (Context Data : Type _) := String -> Nat -> Option (EvalKey Context Data)

/-- Under every tag exactly the inserted keys, and no empty map. -/
structure Holds (s : Registries Context Data) (inserted : Inserted Context Data) : Prop where
  union : forall tag index, s.automorphismKey tag index = inserted tag index
  nonempty : forall tag object, s.evalAutomorphismKeyMap.lookup tag = some object ->
    (s.objects object).keys ≠ []

theorem Holds.congr {s s' : Registries Context Data} {inserted : Inserted Context Data}
    (h : s.Holds inserted) (hobjects : s'.objects = s.objects)
    (hmap : s'.evalAutomorphismKeyMap = s.evalAutomorphismKeyMap) : s'.Holds inserted := by
  constructor
  · intro tag index
    rw [← h.union tag index]
    unfold automorphismKey
    rw [hobjects, hmap]
  · intro tag object hobject
    rw [hmap] at hobject
    rw [hobjects]
    exact h.nonempty tag object hobject

theorem Holds.clear {s : Registries Context Data} {inserted : Inserted Context Data}
    (h : s.Holds inserted) {map : AList fun _ : String => Nat} (cleared : String -> Prop)
    [DecidablePred cleared]
    (hmap : forall tag, map.lookup tag =
      if cleared tag then none else s.evalAutomorphismKeyMap.lookup tag) :
    ({ s with evalAutomorphismKeyMap := map } : Registries Context Data).Holds
      fun tag index => if cleared tag then none else inserted tag index := by
  constructor
  · intro tag index
    rw [← h.union tag index]
    simp only [automorphismKey, hmap tag]
    split
    · rfl
    · rfl
  · intro tag object hobject
    rw [hmap tag] at hobject
    split at hobject
    · cases hobject
    · exact h.nonempty tag object hobject

theorem firstKey_isSome {map : AList fun _ : Nat => EvalKey Context Data} :
    (firstKey map).isSome <-> map.keys ≠ [] := by
  unfold firstKey
  constructor
  · intro h hnil
    rw [hnil] at h
    simp at h
  · intro h
    rcases hmin : map.keys.min? with _ | index
    · exact absurd (List.min?_eq_none_iff.mp hmin) h
    · have hin : index ∈ map := AList.mem_keys.mpr (List.min?_mem hmin)
      rw [Option.bind_some]
      exact AList.lookup_isSome.mpr hin

/-- What an insert of the map `new` under `id` adds to the record. -/
def insertedAt (inserted : Inserted Context Data) (id : String)
    (new : AList fun _ : Nat => EvalKey Context Data) : Inserted Context Data :=
  fun tag index =>
    if tag = id then (inserted tag index).or (new.lookup index) else inserted tag index

theorem Holds.register {s : Registries Context Data} {inserted : Inserted Context Data}
    (h : s.Holds inserted) {id : String} {mapToInsert : Nat}
    (hid : s.evalAutomorphismKeyMap.lookup id = none)
    (hnonempty : (s.objects mapToInsert).keys ≠ []) :
    ({ s with evalAutomorphismKeyMap := s.evalAutomorphismKeyMap.insert id mapToInsert } :
        Registries Context Data).Holds
      (insertedAt inserted id (s.objects mapToInsert)) := by
  constructor
  · intro tag index
    unfold automorphismKey insertedAt
    by_cases htag : tag = id
    · subst htag
      have hnone : inserted tag index = none := by
        rw [← h.union tag index]
        simp [automorphismKey, hid]
      simp [AList.lookup_insert, hnone]
    · rw [if_neg htag, ← h.union tag index, AList.lookup_insert_ne htag]
      rfl
  · intro tag object hobject
    by_cases htag : tag = id
    · subst htag
      rw [AList.lookup_insert] at hobject
      cases hobject
      exact hnonempty
    · rw [AList.lookup_insert_ne htag] at hobject
      exact h.nonempty tag object hobject

theorem automorphismKey_addMissing (s : Registries Context Data) (keyMap : Nat)
    (new : AList fun _ : Nat => EvalKey Context Data) (tag : String) (index : Nat) :
    (s.addMissing keyMap new).automorphismKey tag index =
      if s.evalAutomorphismKeyMap.lookup tag = some keyMap then
        (s.automorphismKey tag index).or (new.lookup index)
      else s.automorphismKey tag index := by
  unfold automorphismKey addMissing
  cases hlookup : s.evalAutomorphismKeyMap.lookup tag with
  | none =>
      simp
  | some object =>
      by_cases heq : object = keyMap
      · subst heq
        simp [mergeMissing_lookup]
      · simp [heq]

theorem Holds.addMissing_iff {s : Registries Context Data} {inserted : Inserted Context Data}
    (h : s.Holds inserted) {id : String} {keyMap : Nat}
    (hid : s.evalAutomorphismKeyMap.lookup id = some keyMap)
    (new : AList fun _ : Nat => EvalKey Context Data) :
    (s.addMissing keyMap new).Holds (insertedAt inserted id new) <->
      (missingKeys (s.objects keyMap) new ≠ [] ->
        forall tag, s.evalAutomorphismKeyMap.lookup tag = some keyMap -> tag = id) := by
  constructor
  · intro hafter hmissing tag htag
    rcases List.exists_mem_of_ne_nil _ hmissing with ⟨index, hindex⟩
    have hindex' : index ∈ new ∧ index ∉ s.objects keyMap := by
      simpa [missingKeys, AList.mem_keys] using hindex
    have hold : s.automorphismKey tag index = none := by
      simp [automorphismKey, htag, AList.lookup_eq_none.mpr hindex'.2]
    have hread := hafter.union tag index
    rw [automorphismKey_addMissing, if_pos htag, hold, Option.none_or] at hread
    by_contra htag'
    rw [insertedAt, if_neg htag', ← h.union tag index, hold] at hread
    exact AList.lookup_eq_none.mp hread hindex'.1
  · intro halone
    constructor
    · intro tag index
      rw [automorphismKey_addMissing, insertedAt, ← h.union tag index]
      by_cases htag : tag = id
      · subst htag
        rw [if_pos hid, if_pos rfl]
      · rw [if_neg htag]
        by_cases halias : s.evalAutomorphismKeyMap.lookup tag = some keyMap
        · rw [if_pos halias]
          -- the map is shared, so nothing is missing in it
          have hnil : missingKeys (s.objects keyMap) new = [] := by
            by_contra hmissing
            exact htag (halone hmissing tag halias)
          cases hnew : new.lookup index with
          | none =>
              simp
          | some key =>
              have hin : index ∈ s.objects keyMap :=
                (missingKeys_eq_nil_iff _ _).mp hnil index
                  (AList.lookup_isSome.mp (by simp [hnew]))
              rcases Option.isSome_iff_exists.mp (AList.lookup_isSome.mpr hin) with
                ⟨key', hkey'⟩
              simp [automorphismKey, halias, hkey']
        · rw [if_neg halias]
    · intro tag object hobject
      have hbefore := h.nonempty tag object hobject
      by_cases heq : object = keyMap
      · subst heq
        rcases List.exists_mem_of_ne_nil _ hbefore with ⟨index, hindex⟩
        have hin : index ∈ mergeMissing (s.objects object) new := by
          have hold := AList.lookup_isSome.mpr (AList.mem_keys.mpr hindex)
          rcases Option.isSome_iff_exists.mp hold with ⟨key, hkey⟩
          exact AList.lookup_isSome.mp (by simp [mergeMissing_lookup, hkey])
        simpa [addMissing] using List.ne_nil_of_mem (AList.mem_keys.mp hin)
      · simpa [addMissing, heq] using hbefore

/-! ## The calls -/

/-- `InsertEvalMultKey`; reading the tag of an absent first key is undefined. -/
def insertEvalMultKey (vectorToInsert : List (EvalKey Context Data)) (keyTag : String)
    (s : Registries Context Data) : Option (Bool × Registries Context Data) :=
  let tag := if keyTag = "" then vectorToInsert.head?.map EvalKey.keyTag else some keyTag
  tag.map fun tag =>
    match s.evalMultKeyMap.lookup tag with
    | some _ => (false, s)
    | none =>
        (true, { s with evalMultKeyMap := s.evalMultKeyMap.insert tag vectorToInsert })

variable [DecidableEq Context]

def validateKey (cc : Context) (key : Option (PrivateKey Context Element)) :
    Option (PrivateKey Context Element) :=
  key.filter fun key => key.cryptoContext = cc

section

variable [Mul Element] (source : KeySource Element Draw Data)

/-- `EvalMultKeyGen`; `false` reports an exception. -/
def evalMultKeyGen (cc : Context) (key : Option (PrivateKey Context Element)) (draw : Draw)
    (s : Registries Context Data) : Bool × Registries Context Data :=
  match validateKey cc key with
  | none => (false, s)
  | some key =>
      match s.evalMultKeyMap.lookup key.keyTag with
      | some _ => (true, s)
      | none =>
          match schemeEvalMultKeyGen source key draw with
          | none => (false, s)
          | some evalKey =>
              (true, { s with
                evalMultKeyMap := s.evalMultKeyMap.insert key.keyTag [evalKey] })

def evalMultKeysGen (cc : Context) (key : Option (PrivateKey Context Element))
    (draws : Nat -> Draw) (s : Registries Context Data) :
    Bool × Registries Context Data :=
  match validateKey cc key with
  | none => (false, s)
  | some key =>
      match s.evalMultKeyMap.lookup key.keyTag with
      | some _ => (true, s)
      | none =>
          match schemeEvalMultKeysGen source key draws with
          | none => (false, s)
          | some evalKeys =>
              (true, { s with
                evalMultKeyMap := s.evalMultKeyMap.insert key.keyTag evalKeys })

/-- One call: `none` is undefined behaviour, `false` an exception. -/
def step (s : Registries Context Data) :
    RegistryCall Context Element Draw Data -> Option (Bool × Registries Context Data)
  | .EvalMultKeyGen cc key draw => some (evalMultKeyGen source cc key draw s)
  | .EvalMultKeysGen cc key draws => some (evalMultKeysGen source cc key draws s)
  | .InsertEvalMultKey vectorToInsert keyTag => insertEvalMultKey vectorToInsert keyTag s
  | .ClearEvalMultKeys => some (true, { s with evalMultKeyMap := ∅ })
  | .ClearEvalMultKeysOfTag keyTag =>
      some (true, { s with evalMultKeyMap := s.evalMultKeyMap.erase keyTag })
  | .ClearEvalMultKeysOfContext cc =>
      (eraseWhere (fun vector => vector.head?.map fun key => decide (key.cryptoContext = cc))
          s.evalMultKeyMap).map fun map => (true, { s with evalMultKeyMap := map })
  | .InsertEvalAutomorphismKey mapToInsert keyTag =>
      some (true, insertEvalAutomorphismKey mapToInsert keyTag s)
  | .ClearEvalAutomorphismKeys => some (true, { s with evalAutomorphismKeyMap := ∅ })
  | .ClearEvalAutomorphismKeysOfTag keyTag =>
      some (true, { s with evalAutomorphismKeyMap := s.evalAutomorphismKeyMap.erase keyTag })
  | .ClearEvalAutomorphismKeysOfContext cc =>
      (eraseWhere (fun object =>
          (firstKey (s.objects object)).map fun key => decide (key.cryptoContext = cc))
        s.evalAutomorphismKeyMap).map fun map =>
          (true, { s with evalAutomorphismKeyMap := map })

end

/-! ## What the registries should hold -/

/-- The tags that a clear for `cc` concerns: their map begins with a key of `cc`. -/
def belongsTo (s : Registries Context Data) (cc : Context) (tag : String) : Bool :=
  (((s.evalAutomorphismKeyMap.lookup tag).bind fun object => firstKey (s.objects object)).any
    fun key => decide (key.cryptoContext = cc))

/-- What a call inserts or clears, with the content of the map at the call. -/
def insertedStep (s : Registries Context Data) (inserted : Inserted Context Data) :
    RegistryCall Context Element Draw Data -> Inserted Context Data
  | .InsertEvalAutomorphismKey mapToInsert keyTag =>
      match firstKey (s.objects mapToInsert) with
      | none => inserted
      | some first => insertedAt inserted (insertTag first keyTag) (s.objects mapToInsert)
  | .ClearEvalAutomorphismKeys => fun _ _ => none
  | .ClearEvalAutomorphismKeysOfTag keyTag => fun tag index =>
      if tag = keyTag then none else inserted tag index
  | .ClearEvalAutomorphismKeysOfContext cc => fun tag index =>
      if s.belongsTo cc tag then none else inserted tag index
  | _ => inserted

/-- After a returning `EvalMultKeysGen` the tag holds the powers of its key. -/
def PowersHeld [Monoid Element] (source : KeySource Element Draw Data)
    (returned : Bool) (s : Registries Context Data) :
    RegistryCall Context Element Draw Data -> Prop
  | .EvalMultKeysGen _ (some key) _ => returned = true ->
      exists vector, s.evalMultKeyMap.lookup key.keyTag = some vector ∧
        HoldsPowers source key vector
  | _ => True

/-- The requirement on every state that a run reaches. -/
def Correct [Monoid Element] (source : KeySource Element Draw Data)
    (s : Registries Context Data) (inserted : Inserted Context Data) :
    List (RegistryCall Context Element Draw Data) -> Prop
  | [] => Holds s inserted
  | call :: calls => Holds s inserted ∧
      forall returned s', step source s call = some (returned, s') ->
        PowersHeld source returned s' call ∧
          Correct source s' (insertedStep s inserted call) calls

/--
The state before a call fits it: `EvalMultKeysGen` finds no vector or one with
all powers, and an insert that adds keys to a registered map finds it registered
under one tag only.
-/
def Fits [Monoid Element] (source : KeySource Element Draw Data)
    (s : Registries Context Data) : RegistryCall Context Element Draw Data -> Prop
  | .EvalMultKeysGen cc (some key) _ => key.cryptoContext = cc ->
      forall vector, s.evalMultKeyMap.lookup key.keyTag = some vector ->
        HoldsPowers source key vector
  | .InsertEvalAutomorphismKey mapToInsert keyTag =>
      forall first, firstKey (s.objects mapToInsert) = some first ->
        forall keyMap, s.evalAutomorphismKeyMap.lookup (insertTag first keyTag) = some keyMap ->
          missingKeys (s.objects keyMap) (s.objects mapToInsert) ≠ [] ->
            forall tag, s.evalAutomorphismKeyMap.lookup tag = some keyMap ->
              tag = insertTag first keyTag
  | _ => True

def AllFit [Monoid Element] (source : KeySource Element Draw Data)
    (s : Registries Context Data) : List (RegistryCall Context Element Draw Data) -> Prop
  | [] => True
  | call :: calls => Fits source s call ∧
      forall returned s', step source s call = some (returned, s') -> AllFit source s' calls

theorem powersHeld_evalMultKeysGen_iff [Monoid Element]
    {source : KeySource Element Draw Data} {cc : Context} {key : PrivateKey Context Element}
    {draws : Nat -> Draw} {s s' : Registries Context Data} {returned : Bool}
    (h : evalMultKeysGen source cc (some key) draws s = (returned, s')) :
    PowersHeld source returned s' (.EvalMultKeysGen cc (some key) draws) <->
      Fits source s (.EvalMultKeysGen cc (some key) draws) := by
  unfold evalMultKeysGen validateKey at h
  simp only [PowersHeld, Fits]
  by_cases hcc : key.cryptoContext = cc
  · simp only [hcc, Option.filter_some, decide_true, if_true] at h
    cases hlookup : s.evalMultKeyMap.lookup key.keyTag with
    | some vector =>
        simp only [hlookup, Prod.mk.injEq] at h
        rcases h with ⟨rfl, rfl⟩
        simp [hcc, hlookup]
    | none =>
        rw [hlookup] at h
        cases hgen : schemeEvalMultKeysGen source key draws with
        | none =>
            simp only [hgen, Prod.mk.injEq] at h
            rcases h with ⟨rfl, rfl⟩
            simp
        | some vector =>
            simp only [hgen, Prod.mk.injEq] at h
            rcases h with ⟨rfl, rfl⟩
            simp [AList.lookup_insert, schemeEvalMultKeysGen_holdsPowers hgen]
  · simp only [Option.filter_some, hcc, decide_false, Bool.false_eq_true, if_false,
      Prod.mk.injEq] at h
    rcases h with ⟨rfl, rfl⟩
    simp [hcc]

theorem holds_insert_iff [Monoid Element] {source : KeySource Element Draw Data}
    {s : Registries Context Data} {inserted : Inserted Context Data} (h : s.Holds inserted)
    (mapToInsert : Nat) (keyTag : String) :
    (insertEvalAutomorphismKey mapToInsert keyTag s).Holds
        (insertedStep s inserted (.InsertEvalAutomorphismKey mapToInsert keyTag :
          RegistryCall Context Element Draw Data)) <->
      Fits source s (.InsertEvalAutomorphismKey mapToInsert keyTag) := by
  simp only [insertEvalAutomorphismKey, insertedStep, Fits]
  cases hfirst : firstKey (s.objects mapToInsert) with
  | none =>
      simp [h]
  | some first =>
      cases hid : s.evalAutomorphismKeyMap.lookup (insertTag first keyTag) with
      | none =>
          have hnonempty := firstKey_isSome.mp (Option.isSome_of_eq_some hfirst)
          simp [hid, h.register hid hnonempty]
      | some keyMap =>
          simp only [if_neg (h.nonempty _ _ hid), Option.some.injEq, forall_eq', hid]
          exact h.addMissing_iff hid (s.objects mapToInsert)

theorem step_none_fits [Monoid Element] {source : KeySource Element Draw Data}
    {s : Registries Context Data} {call : RegistryCall Context Element Draw Data}
    (h : step source s call = none) : Fits source s call := by
  cases call <;> simp_all [step, Fits]

theorem evalMultKeyGen_keeps [Mul Element] {source : KeySource Element Draw Data} {cc : Context}
    {key : Option (PrivateKey Context Element)} {draw : Draw} {s s' : Registries Context Data}
    {returned : Bool} (h : evalMultKeyGen source cc key draw s = (returned, s')) :
    s'.objects = s.objects ∧ s'.evalAutomorphismKeyMap = s.evalAutomorphismKeyMap := by
  unfold evalMultKeyGen at h
  repeat' split at h
  all_goals
    cases h
    exact ⟨rfl, rfl⟩

theorem evalMultKeysGen_keeps [Mul Element] {source : KeySource Element Draw Data} {cc : Context}
    {key : Option (PrivateKey Context Element)} {draws : Nat -> Draw}
    {s s' : Registries Context Data} {returned : Bool}
    (h : evalMultKeysGen source cc key draws s = (returned, s')) :
    s'.objects = s.objects ∧ s'.evalAutomorphismKeyMap = s.evalAutomorphismKeyMap := by
  unfold evalMultKeysGen at h
  repeat' split at h
  all_goals
    cases h
    exact ⟨rfl, rfl⟩

omit [DecidableEq Context] in
theorem insertEvalMultKey_keeps {vectorToInsert : List (EvalKey Context Data)} {keyTag : String}
    {s s' : Registries Context Data} {returned : Bool}
    (h : insertEvalMultKey vectorToInsert keyTag s = some (returned, s')) :
    s'.objects = s.objects ∧ s'.evalAutomorphismKeyMap = s.evalAutomorphismKeyMap := by
  simp only [insertEvalMultKey, Option.map_eq_some_iff] at h
  rcases h with ⟨tag, -, h⟩
  split at h
  all_goals
    cases h
    exact ⟨rfl, rfl⟩

theorem erase_lookup (map : AList fun _ : String => Nat) (keyTag tag : String) :
    (map.erase keyTag).lookup tag = if tag = keyTag then none else map.lookup tag := by
  by_cases htag : tag = keyTag
  · subst htag
    simp [AList.lookup_erase]
  · simp [htag, AList.lookup_erase_ne htag]

theorem eraseContext_lookup {s : Registries Context Data} {cc : Context}
    {map : AList fun _ : String => Nat}
    (h : eraseWhere (fun object => (firstKey (s.objects object)).map fun key =>
      decide (key.cryptoContext = cc)) s.evalAutomorphismKeyMap = some map) (tag : String) :
    map.lookup tag =
      if s.belongsTo cc tag = true then none else s.evalAutomorphismKeyMap.lookup tag := by
  rw [eraseWhere_lookup h]
  unfold belongsTo
  cases s.evalAutomorphismKeyMap.lookup tag with
  | none =>
      simp
  | some object =>
      cases hkey : firstKey (s.objects object) <;> simp [hkey]

theorem step_correct_iff [Monoid Element] {source : KeySource Element Draw Data}
    {s s' : Registries Context Data} {inserted : Inserted Context Data}
    {call : RegistryCall Context Element Draw Data} {returned : Bool}
    (h : s.Holds inserted) (hstep : step source s call = some (returned, s')) :
    (PowersHeld source returned s' call ∧ s'.Holds (insertedStep s inserted call)) <->
      Fits source s call := by
  cases call with
  | EvalMultKeyGen cc key draw =>
      have hkeep := evalMultKeyGen_keeps (Option.some.inj hstep : evalMultKeyGen source cc key draw s = _)
      simp [PowersHeld, Fits, insertedStep, h.congr hkeep.1 hkeep.2]
  | EvalMultKeysGen cc key draws =>
      simp only [step, Option.some.injEq] at hstep
      have hkeep := evalMultKeysGen_keeps hstep
      have hholds : s'.Holds (insertedStep s inserted
          (.EvalMultKeysGen cc key draws : RegistryCall Context Element Draw Data)) :=
        h.congr hkeep.1 hkeep.2
      rw [and_iff_left hholds]
      cases key with
      | none =>
          simp [PowersHeld, Fits]
      | some key =>
          exact powersHeld_evalMultKeysGen_iff hstep
  | InsertEvalMultKey vectorToInsert keyTag =>
      have hkeep := insertEvalMultKey_keeps hstep
      simp [PowersHeld, Fits, insertedStep, h.congr hkeep.1 hkeep.2]
  | ClearEvalMultKeys =>
      cases hstep
      simp [PowersHeld, Fits, insertedStep, h.congr]
  | ClearEvalMultKeysOfTag keyTag =>
      cases hstep
      simp [PowersHeld, Fits, insertedStep, h.congr]
  | ClearEvalMultKeysOfContext cc =>
      simp only [step, Option.map_eq_some_iff] at hstep
      rcases hstep with ⟨map, -, hstep⟩
      cases hstep
      simp [PowersHeld, Fits, insertedStep, h.congr]
  | InsertEvalAutomorphismKey mapToInsert keyTag =>
      cases hstep
      simp only [PowersHeld, true_and]
      exact holds_insert_iff h mapToInsert keyTag
  | ClearEvalAutomorphismKeys =>
      cases hstep
      have hclear := @Holds.clear _ _ _ _ h ∅ (fun _ => True) _ (by simp)
      simpa [PowersHeld, Fits, insertedStep] using hclear
  | ClearEvalAutomorphismKeysOfTag keyTag =>
      cases hstep
      have hclear := h.clear (· = keyTag) (erase_lookup s.evalAutomorphismKeyMap keyTag)
      simpa [PowersHeld, Fits, insertedStep] using hclear
  | ClearEvalAutomorphismKeysOfContext cc =>
      simp only [step, Option.map_eq_some_iff] at hstep
      rcases hstep with ⟨map, herase, hstep⟩
      cases hstep
      have hclear := h.clear (fun tag => s.belongsTo cc tag = true)
        (eraseContext_lookup herase)
      simpa [PowersHeld, Fits, insertedStep] using hclear

theorem Correct.holds [Monoid Element] {source : KeySource Element Draw Data}
    {s : Registries Context Data} {inserted : Inserted Context Data}
    {calls : List (RegistryCall Context Element Draw Data)}
    (h : Correct source s inserted calls) : s.Holds inserted := by
  cases calls with
  | nil => exact h
  | cons call calls => exact h.1

theorem correct_iff_allFit [Monoid Element] {source : KeySource Element Draw Data}
    {s : Registries Context Data} {inserted : Inserted Context Data}
    (calls : List (RegistryCall Context Element Draw Data)) (h : s.Holds inserted) :
    Correct source s inserted calls <-> AllFit source s calls := by
  induction calls generalizing s inserted with
  | nil =>
      simp [Correct, AllFit, h]
  | cons call calls ih =>
      simp only [Correct, AllFit, h, true_and]
      constructor
      · intro hcorrect
        constructor
        · cases hstep : step source s call with
          | none =>
              exact step_none_fits hstep
          | some result =>
              rcases hcorrect result.1 result.2 hstep with ⟨hpowers, hrest⟩
              exact (step_correct_iff h hstep).mp ⟨hpowers, hrest.holds⟩
        · intro returned s' hstep
          rcases hcorrect returned s' hstep with ⟨hpowers, hrest⟩
          exact (ih hrest.holds).mp hrest
      · rintro ⟨hfits, hrest⟩ returned s' hstep
        rcases (step_correct_iff h hstep).mpr hfits with ⟨hpowers, hholds⟩
        exact ⟨hpowers, (ih hholds).mpr (hrest returned s' hstep)⟩

/--
In every run of a process the registries are right after every call exactly
when every call fits the state it finds.
-/
theorem registries_correct_iff [Monoid Element] (source : KeySource Element Draw Data)
    (objects : Nat -> AList fun _ : Nat => EvalKey Context Data)
    (calls : List (RegistryCall Context Element Draw Data)) :
    Correct source (start objects) (fun _ _ => none) calls <->
      AllFit source (start objects) calls := by
  apply correct_iff_allFit
  constructor
  · intro tag index
    simp [automorphismKey, start]
  · intro tag object hobject
    simp [start] at hobject

def recordingSource : KeySource Nat Unit (Nat × Nat) where
  KeySwitchGen := fun oldKey newKey _ => some (oldKey, newKey)

def cubicKey : PrivateKey Nat Nat where
  keyTag := "alice"
  cryptoContext := 0
  privateElement := 2
  maxRelinSkDeg := 3

/-- Object `i` holds one automorphism key, of index `2 * i + 3`. -/
def oneKeyObjects (i : Nat) : AList fun _ : Nat => EvalKey Nat (Nat × Nat) :=
  AList.singleton (2 * i + 3) ⟨"alice", 0, (i, i)⟩

/--
A key of `EvalMultKeyGen` satisfies the later request for two keys; an object
registered under two tags takes a key of one tag to the other.
-/
theorem registries_not_correct :
    Not (Correct recordingSource (start oneKeyObjects) (fun _ _ => none)
        [.EvalMultKeyGen 0 (some cubicKey) (), .EvalMultKeysGen 0 (some cubicKey) fun _ => ()]) ∧
      Not (Correct recordingSource (start oneKeyObjects) (fun _ _ => none)
        [.InsertEvalAutomorphismKey 0 "alice", .InsertEvalAutomorphismKey 0 "bob",
          .InsertEvalAutomorphismKey 1 "alice"]) := by
  constructor
  · intro h
    have hsecond := (h.2 _ _ rfl).2.2 _ _ rfl
    rcases hsecond.1 rfl with ⟨vector, hvector, hpowers⟩
    have hone : vector = [⟨"alice", 0, (4, 2)⟩] := (Option.some.inj hvector).symm
    subst hone
    rcases hpowers 1 (by decide) with ⟨evalKey, draw, hget, -⟩
    simp at hget
  · intro h
    have hthird := ((h.2 _ _ rfl).2.2 _ _ rfl).2.2 _ _ rfl
    have hbob := hthird.2.union "bob" 5
    revert hbob
    decide

end Registries

end CryptoContext
end OpenFHE
