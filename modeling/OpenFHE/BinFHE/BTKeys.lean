import Mathlib.Data.List.AList
import Mathlib.Data.List.Sort

/-!
# Bootstrapping keys of a context

A `BinFHEContext` keeps one bootstrapping key and a map of keys by gadget base.
`BTKeyGen` decides from the map whether it generates a key, and works on the
parameters of the context, whose base it changes and restores.
-/

namespace OpenFHE
namespace BinFHE

/-- `RingGSWBTKey`: three pointers, all null in a default key. -/
structure RingGSWBTKey (Key : Type _) where
  BSkey : Option Key
  KSkey : Option Key
  Pkey : Option Key
deriving DecidableEq, Repr

namespace RingGSWBTKey

def null {Key : Type _} : RingGSWBTKey Key where
  BSkey := none
  KSkey := none
  Pkey := none

end RingGSWBTKey

inductive KEYGEN_MODE where
  | SYM_ENCRYPT
  | PUB_ENCRYPT
deriving DecidableEq, Repr

/-- The fields of `RingGSWCryptoParams` that depend on the gadget base. -/
structure RingGSWCryptoParams where
  baseG : Nat
  digitsG : Nat
  Gpower : List Nat
  Gpower_map : AList fun _ : Nat => List Nat

namespace RingGSWCryptoParams

/--
`Change_BaseG`.  The access to the map creates an empty entry for an unknown
base; `digitCount` is the rounded quotient of logarithms.
-/
def changeBaseG (digitCount : Nat -> Nat) (params : RingGSWCryptoParams) (base : Nat) :
    RingGSWCryptoParams :=
  if params.baseG ≠ base then
    { baseG := base
      digitsG := digitCount base
      Gpower := (params.Gpower_map.lookup base).getD []
      Gpower_map :=
        if base ∈ params.Gpower_map then params.Gpower_map
        else params.Gpower_map.insert base [] }
  else params

@[simp] theorem changeBaseG_baseG (digitCount : Nat -> Nat) (params : RingGSWCryptoParams)
    (base : Nat) : (params.changeBaseG digitCount base).baseG = base := by
  unfold changeBaseG
  split
  · rfl
  · rename_i h
    exact not_not.mp h

/-- The bases of the map in the order of its iterator. -/
def bases (params : RingGSWCryptoParams) : List Nat :=
  params.Gpower_map.keys.insertionSort (· ≤ ·)

end RingGSWCryptoParams

/-- `BinFHEContext` as far as `BTKeyGen` and the loading functions use it. -/
structure BinFHEContext (Key : Type _) where
  params : RingGSWCryptoParams
  m_BTKey : RingGSWBTKey Key
  m_BTKey_map : AList fun _ : Nat => RingGSWBTKey Key
  m_timeOptimization : Bool

/--
What a context is used with: the number of digits of a base, and the generator
of a bootstrapping key, which draws its randomness and may throw.
-/
structure BinFHEScheme (SecretKey Draw Key : Type _) where
  digitCount : Nat -> Nat
  KeyGen : RingGSWCryptoParams -> SecretKey -> KEYGEN_MODE -> Draw ->
    Option (RingGSWBTKey Key)

/-- A key that the scheme generates from `sk`, whatever the base, mode and draw. -/
def BinFHEScheme.GeneratedFrom {SecretKey Draw Key : Type _}
    (scheme : BinFHEScheme SecretKey Draw Key) (sk : SecretKey) (key : RingGSWBTKey Key) :
    Prop :=
  exists params mode draw, scheme.KeyGen params sk mode draw = some key

/-- A call on a context.  A null pointer is the secret key `none`. -/
inductive Call (SecretKey Draw Key : Type _) where
  | BTKeyGen (sk : Option SecretKey) (keygenMode : KEYGEN_MODE) (draws : Nat -> Draw)
  | BTKeyLoad (key : RingGSWBTKey Key)
  | BTKeyMapLoadSingleElement (baseG : Nat) (key : RingGSWBTKey Key)
  | ClearBTKeys

namespace BinFHEContext

variable {SecretKey Draw Key : Type _} (scheme : BinFHEScheme SecretKey Draw Key)

/-- A context of generated parameters holds no key. -/
def create (params : RingGSWCryptoParams) (timeOptimization : Bool) : BinFHEContext Key where
  params := params
  m_BTKey := RingGSWBTKey.null
  m_BTKey_map := ∅
  m_timeOptimization := timeOptimization

/-- The loop over the bases; `false` reports an exception. -/
def renewKeys (sk : SecretKey) (mode : KEYGEN_MODE) (draws : Nat -> Draw) :
    List Nat -> BinFHEContext Key -> Bool × BinFHEContext Key
  | [], c => (true, c)
  | base :: bases, c =>
      let params := c.params.changeBaseG scheme.digitCount base
      match scheme.KeyGen params sk mode (draws base) with
      | none => (false, { c with params := params })
      | some key =>
          renewKeys sk mode draws bases
            { c with params := params, m_BTKey_map := c.m_BTKey_map.insert base key }

/-- The first part of `BTKeyGen`, under time optimization. -/
def renewAllBases (sk : SecretKey) (mode : KEYGEN_MODE) (draws : Nat -> Draw)
    (c : BinFHEContext Key) : Bool × BinFHEContext Key :=
  if c.m_timeOptimization then
    match renewKeys scheme sk mode draws c.params.bases c with
    | (false, c') => (false, c')
    | (true, c') =>
        (true, { c' with params := c'.params.changeBaseG scheme.digitCount c.params.baseG })
  else (true, c)

/-- The second part of `BTKeyGen`.  `operator[]` creates an absent entry. -/
def selectKey (sk : SecretKey) (mode : KEYGEN_MODE) (draw : Draw) (temp : Nat)
    (c : BinFHEContext Key) : Bool × BinFHEContext Key :=
  if c.m_BTKey_map.keys.length ≠ 0 then
    match c.m_BTKey_map.lookup temp with
    | some key => (true, { c with m_BTKey := key })
    | none =>
        (true,
          { c with
            m_BTKey := RingGSWBTKey.null
            m_BTKey_map := c.m_BTKey_map.insert temp RingGSWBTKey.null })
  else
    match scheme.KeyGen c.params sk mode draw with
    | none => (false, c)
    | some key =>
        (true, { c with m_BTKey := key, m_BTKey_map := c.m_BTKey_map.insert temp key })

def btKeyGen (sk : Option SecretKey) (mode : KEYGEN_MODE) (draws : Nat -> Draw)
    (c : BinFHEContext Key) : Bool × BinFHEContext Key :=
  match sk with
  | none => (false, c)
  | some sk =>
      match renewAllBases scheme sk mode draws c with
      | (false, c') => (false, c')
      | (true, c') => selectKey scheme sk mode (draws c.params.baseG) c.params.baseG c'

/-- One call; the context is the one after the call, also when it throws. -/
def step (c : BinFHEContext Key) : Call SecretKey Draw Key -> BinFHEContext Key
  | .BTKeyGen sk mode draws => (btKeyGen scheme sk mode draws c).2
  | .BTKeyLoad key => { c with m_BTKey := key }
  | .BTKeyMapLoadSingleElement baseG key =>
      { c with m_BTKey_map := c.m_BTKey_map.insert baseG key }
  | .ClearBTKeys => { c with m_BTKey := RingGSWBTKey.null, m_BTKey_map := ∅ }

def run (c : BinFHEContext Key) (calls : List (Call SecretKey Draw Key)) :
    BinFHEContext Key :=
  calls.foldl (step scheme) c

/-! ## What one call does -/

variable {scheme} {sk : SecretKey} {mode : KEYGEN_MODE} {draws : Nat -> Draw}

/-- The bases whose entries a call of `BTKeyGen` generates anew. -/
def renewedBases (c : BinFHEContext Key) : List Nat :=
  if c.m_timeOptimization then c.params.bases else []

/-- A loop that ends has replaced the entries of its bases and no others. -/
structure Renewed (scheme : BinFHEScheme SecretKey Draw Key) (sk : SecretKey)
    (bases : List Nat) (c c' : BinFHEContext Key) : Prop where
  timeOptimization : c'.m_timeOptimization = c.m_timeOptimization
  generated : forall base, base ∈ bases ->
    exists key, c'.m_BTKey_map.lookup base = some key ∧ scheme.GeneratedFrom sk key
  kept : forall base, base ∉ bases ->
    c'.m_BTKey_map.lookup base = c.m_BTKey_map.lookup base

theorem renewKeys_renewed {bases : List Nat} {c c' : BinFHEContext Key}
    (h : renewKeys scheme sk mode draws bases c = (true, c')) :
    Renewed scheme sk bases c c' := by
  induction bases generalizing c with
  | nil =>
      cases h
      exact ⟨rfl, fun base hbase => by simp at hbase, fun _ _ => rfl⟩
  | cons base bases ih =>
      simp only [renewKeys] at h
      cases hkey : scheme.KeyGen (c.params.changeBaseG scheme.digitCount base) sk mode
          (draws base) with
      | none =>
          rw [hkey] at h
          simp at h
      | some key =>
          rw [hkey] at h
          have tail := ih h
          constructor
          · exact tail.timeOptimization
          · intro k hk
            by_cases hin : k ∈ bases
            · exact tail.generated k hin
            · have heq : k = base := by simpa [hin] using hk
              subst heq
              refine ⟨key, ?_, _, _, _, hkey⟩
              rw [tail.kept k hin]
              exact AList.lookup_insert _
          · intro k hk
            rw [List.mem_cons, not_or] at hk
            rw [tail.kept k hk.2]
            exact AList.lookup_insert_ne hk.1

theorem renewAllBases_renewed {c c' : BinFHEContext Key}
    (h : renewAllBases scheme sk mode draws c = (true, c')) :
    Renewed scheme sk c.renewedBases c c' ∧ c'.params.baseG = c.params.baseG := by
  unfold renewAllBases renewedBases at *
  cases ht : c.m_timeOptimization with
  | false =>
      simp only [ht, Bool.false_eq_true, if_false] at h ⊢
      cases h
      exact ⟨⟨rfl, fun base hbase => by simp at hbase, fun _ _ => rfl⟩, rfl⟩
  | true =>
      simp only [ht, if_true] at h ⊢
      cases hloop : renewKeys scheme sk mode draws c.params.bases c with
      | mk returned c₁ =>
          rw [hloop] at h
          cases returned with
          | false =>
              simp at h
          | true =>
              simp only [Prod.mk.injEq, true_and] at h
              subst h
              have hrenewed := renewKeys_renewed hloop
              exact ⟨⟨hrenewed.timeOptimization, hrenewed.generated, hrenewed.kept⟩,
                RingGSWCryptoParams.changeBaseG_baseG _ _ _⟩

/-! ## The keys after a call -/

/-- The key and the entry of `base` come from `sk`, under time optimization every entry. -/
structure KeysFrom (scheme : BinFHEScheme SecretKey Draw Key) (sk : SecretKey) (base : Nat)
    (c : BinFHEContext Key) : Prop where
  key : scheme.GeneratedFrom sk c.m_BTKey
  entry : exists key, c.m_BTKey_map.lookup base = some key ∧ scheme.GeneratedFrom sk key
  entries : c.m_timeOptimization = true -> forall k key,
    c.m_BTKey_map.lookup k = some key -> scheme.GeneratedFrom sk key

/-- What `operator[]` of the map reads. -/
def entryOrNull (c : BinFHEContext Key) (base : Nat) : RingGSWBTKey Key :=
  (c.m_BTKey_map.lookup base).getD RingGSWBTKey.null

/-- Taking the entry of `base` gives keys of `sk`, or there is no entry at all. -/
def Selectable (scheme : BinFHEScheme SecretKey Draw Key) (sk : SecretKey) (base : Nat)
    (c : BinFHEContext Key) : Prop :=
  (forall k, c.m_BTKey_map.lookup k = none) ∨
    scheme.GeneratedFrom sk (c.entryOrNull base) ∧
      (c.m_timeOptimization = true -> forall k key,
        c.m_BTKey_map.lookup k = some key -> scheme.GeneratedFrom sk key)

theorem keys_length_eq_zero_iff (c : BinFHEContext Key) :
    c.m_BTKey_map.keys.length = 0 <-> forall k, c.m_BTKey_map.lookup k = none := by
  rw [List.length_eq_zero_iff, List.eq_nil_iff_forall_not_mem]
  constructor
  · intro h k
    exact AList.lookup_eq_none.mpr fun hk => h k (AList.mem_keys.mp hk)
  · intro h k hk
    exact AList.lookup_eq_none.mp (h k) (AList.mem_keys.mpr hk)

theorem selectKey_spec {draw : Draw} {temp : Nat} {c c' : BinFHEContext Key}
    (h : selectKey scheme sk mode draw temp c = (true, c')) :
    c'.params.baseG = c.params.baseG ∧
      (c'.KeysFrom scheme sk temp <-> c.Selectable scheme sk temp) := by
  unfold selectKey at h
  by_cases hempty : c.m_BTKey_map.keys.length = 0
  · rw [if_neg (not_not.mpr hempty)] at h
    cases hkey : scheme.KeyGen c.params sk mode draw with
    | none =>
        rw [hkey] at h
        simp at h
    | some key =>
        rw [hkey] at h
        simp only [Prod.mk.injEq, true_and] at h
        subst h
        have hnone := (keys_length_eq_zero_iff c).mp hempty
        have hgen : scheme.GeneratedFrom sk key := ⟨_, _, _, hkey⟩
        refine ⟨rfl, fun _ => Or.inl hnone, fun _ => ⟨hgen, ⟨key, ?_, hgen⟩, ?_⟩⟩
        · exact AList.lookup_insert _
        · intro _ k key' hk
          by_cases heq : k = temp
          · subst heq
            rw [AList.lookup_insert] at hk
            cases hk
            exact hgen
          · rw [AList.lookup_insert_ne heq, hnone k] at hk
            cases hk
  · rw [if_pos hempty] at h
    have hnonempty : Not (forall k, c.m_BTKey_map.lookup k = none) :=
      fun hnone => hempty ((keys_length_eq_zero_iff c).mpr hnone)
    cases hentry : c.m_BTKey_map.lookup temp with
    | some key =>
        rw [hentry] at h
        simp only [Prod.mk.injEq, true_and] at h
        subst h
        have hread : c.entryOrNull temp = key := by simp [entryOrNull, hentry]
        refine ⟨rfl, fun hkeys => Or.inr ⟨?_, hkeys.entries⟩, ?_⟩
        · rw [hread]
          exact hkeys.key
        · rintro (hnone | ⟨hgen, hentries⟩)
          · exact absurd hnone hnonempty
          · rw [hread] at hgen
            exact ⟨hgen, ⟨key, hentry, hgen⟩, hentries⟩
    | none =>
        rw [hentry] at h
        simp only [Prod.mk.injEq, true_and] at h
        subst h
        have hread : c.entryOrNull temp = RingGSWBTKey.null := by simp [entryOrNull, hentry]
        constructor
        · rfl
        · constructor
          · intro hkeys
            refine Or.inr ⟨hread ▸ hkeys.key, fun ht k key hk => hkeys.entries ht k key ?_⟩
            have hne : k ≠ temp := by
              rintro rfl
              rw [hentry] at hk
              cases hk
            exact (AList.lookup_insert_ne hne).trans hk
          · rintro (hnone | ⟨hgen, hentries⟩)
            · exact absurd hnone hnonempty
            · rw [hread] at hgen
              refine ⟨hgen, ⟨_, AList.lookup_insert _, hgen⟩, fun ht k key hk => ?_⟩
              by_cases heq : k = temp
              · subst heq
                rw [AList.lookup_insert] at hk
                cases hk
                exact hgen
              · rw [AList.lookup_insert_ne heq] at hk
                exact hentries ht k key hk

/--
Before the call: the map is empty and stays so, or every entry that the call
does not replace and its result reads comes from `sk`.
-/
def StaleFree (scheme : BinFHEScheme SecretKey Draw Key) (sk : SecretKey)
    (c : BinFHEContext Key) : Prop :=
  (c.renewedBases = [] ∧ forall k, c.m_BTKey_map.lookup k = none) ∨
    (c.params.baseG ∈ c.renewedBases ∨
        scheme.GeneratedFrom sk (c.entryOrNull c.params.baseG)) ∧
      (c.m_timeOptimization = true -> forall k, k ∉ c.renewedBases -> forall key,
        c.m_BTKey_map.lookup k = some key -> scheme.GeneratedFrom sk key)

/-- After the loop the entry of the base comes from `sk` iff it did or was replaced. -/
theorem Renewed.generated_entryOrNull_iff {bases : List Nat} {c c' : BinFHEContext Key}
    (h : Renewed scheme sk bases c c') (base : Nat) :
    scheme.GeneratedFrom sk (c'.entryOrNull base) <->
      base ∈ bases ∨ scheme.GeneratedFrom sk (c.entryOrNull base) := by
  by_cases hin : base ∈ bases
  · rcases h.generated base hin with ⟨key, hkey, hgen⟩
    simpa [entryOrNull, hkey, hin] using hgen
  · simp only [entryOrNull, h.kept base hin, hin, false_or]

theorem Renewed.entries_iff {bases : List Nat} {c c' : BinFHEContext Key}
    (h : Renewed scheme sk bases c c') :
    (forall k key, c'.m_BTKey_map.lookup k = some key -> scheme.GeneratedFrom sk key) <->
      forall k, k ∉ bases -> forall key,
        c.m_BTKey_map.lookup k = some key -> scheme.GeneratedFrom sk key := by
  constructor
  · intro hall k hk key hkey
    exact hall k key ((h.kept k hk).trans hkey)
  · intro hkept k key hkey
    by_cases hin : k ∈ bases
    · rcases h.generated k hin with ⟨key', hkey', hgen⟩
      rw [hkey'] at hkey
      cases hkey
      exact hgen
    · rw [h.kept k hin] at hkey
      exact hkept k hin key hkey

theorem Renewed.empty_iff {bases : List Nat} {c c' : BinFHEContext Key}
    (h : Renewed scheme sk bases c c') :
    (forall k, c'.m_BTKey_map.lookup k = none) <->
      bases = [] ∧ forall k, c.m_BTKey_map.lookup k = none := by
  constructor
  · intro hnone
    have hbases : bases = [] := by
      refine List.eq_nil_iff_forall_not_mem.mpr fun k hk => ?_
      rcases h.generated k hk with ⟨key, hkey, -⟩
      rw [hnone k] at hkey
      cases hkey
    subst hbases
    exact ⟨rfl, fun k => (h.kept k (by simp)).symm.trans (hnone k)⟩
  · rintro ⟨rfl, hnone⟩ k
    exact (h.kept k (by simp)).trans (hnone k)

theorem btKeyGen_spec {c c' : BinFHEContext Key}
    (h : btKeyGen scheme (some sk) mode draws c = (true, c')) :
    c'.params.baseG = c.params.baseG ∧
      (c'.KeysFrom scheme sk c.params.baseG <-> c.StaleFree scheme sk) := by
  unfold btKeyGen at h
  cases hfirst : renewAllBases scheme sk mode draws c with
  | mk returned c₁ =>
      cases returned with
      | false =>
          simp [hfirst] at h
      | true =>
          simp only [hfirst] at h
          rcases renewAllBases_renewed hfirst with ⟨hrenewed, hbase⟩
          rcases selectKey_spec h with ⟨hbase', hkeys⟩
          refine ⟨hbase'.trans hbase, hkeys.trans ?_⟩
          unfold Selectable StaleFree
          rw [hrenewed.empty_iff, hrenewed.generated_entryOrNull_iff, hrenewed.entries_iff,
            hrenewed.timeOptimization]

/-! ## Histories -/

/--
After any history, a call of `BTKeyGen` that returns leaves keys of its secret
key and the old base exactly when no old entry stood in its way.
-/
theorem btKeyGen_keysFrom_iff (params : RingGSWCryptoParams) (timeOptimization : Bool)
    (calls : List (Call SecretKey Draw Key)) {c' : BinFHEContext Key}
    (h : btKeyGen scheme (some sk) mode draws
      (run scheme (create params timeOptimization) calls) = (true, c')) :
    (c'.KeysFrom scheme sk (run scheme (create params timeOptimization) calls).params.baseG ∧
        c'.params.baseG = (run scheme (create params timeOptimization) calls).params.baseG) <->
      (run scheme (create params timeOptimization) calls).StaleFree scheme sk := by
  rcases btKeyGen_spec h with ⟨hbase, hkeys⟩
  rw [and_iff_left hbase]
  exact hkeys

/-- A scheme on small keys: a key records its secret key and its base. -/
def recordingScheme : BinFHEScheme Nat Nat (Nat × Nat) where
  digitCount := fun base => 28 / base.log2
  KeyGen := fun params sk _ _ =>
    some ⟨some (sk, params.baseG), some (sk, params.baseG), none⟩

def params512 : RingGSWCryptoParams where
  baseG := 512
  digitsG := 3
  Gpower := [1, 512, 262144]
  Gpower_map := ∅

theorem recordingScheme_generatedFrom {sk : Nat} {key : RingGSWBTKey (Nat × Nat)}
    (h : recordingScheme.GeneratedFrom sk key) : key.BSkey.map Prod.fst = some sk := by
  rcases h with ⟨params, mode, draw, hkey⟩
  cases hkey
  rfl

theorem btKeyGen_keysFrom_first :
    exists c' : BinFHEContext (Nat × Nat),
      btKeyGen recordingScheme (some 1) .SYM_ENCRYPT (fun _ => 0)
        (run recordingScheme (create params512 false) []) = (true, c') ∧
        c'.KeysFrom recordingScheme 1 512 ∧ c'.params.baseG = 512 := by
  have h : btKeyGen recordingScheme (some 1) .SYM_ENCRYPT (fun _ => 0)
      (run recordingScheme (create params512 false) []) = (true, _) := rfl
  have hfresh : (run recordingScheme (create params512 false) []).StaleFree recordingScheme 1 :=
    Or.inl ⟨rfl, fun _ => rfl⟩
  exact ⟨_, h, (btKeyGen_keysFrom_iff params512 false [] h).mpr hfresh⟩

/-- A second secret key: the context keeps the key of the first. -/
theorem btKeyGen_keeps_old_key :
    exists c' : BinFHEContext (Nat × Nat),
      btKeyGen recordingScheme (some 2) .SYM_ENCRYPT (fun _ => 0)
        (run recordingScheme (create params512 false)
          [.BTKeyGen (some 1) .SYM_ENCRYPT fun _ => 0]) = (true, c') ∧
        Not (recordingScheme.GeneratedFrom 2 c'.m_BTKey) := by
  refine ⟨_, rfl, fun h => ?_⟩
  have hfirst := recordingScheme_generatedFrom h
  revert hfirst
  decide

end BinFHEContext

end BinFHE
end OpenFHE
