import Mathlib.Data.List.AList

/-!
# Maps with loops over their entries

Two loops on maps by key: one erases the entries that pass a test, the other
adds the entries of a second map whose keys are missing in the first.  Both are
described by what they do to every lookup.
-/

namespace OpenFHE
namespace Foundation

variable {K V : Type _} [DecidableEq K]

/-! ## Erasing entries -/

/-- The loop over `keys`; the test of an entry may fail as a whole. -/
def eraseKeys (test : V -> Option Bool) (map : AList fun _ : K => V) :
    List K -> (AList fun _ : K => V) -> Option (AList fun _ : K => V)
  | [], rest => some rest
  | key :: keys, rest =>
      match (map.lookup key).bind test with
      | none => none
      | some true => eraseKeys test map keys (rest.erase key)
      | some false => eraseKeys test map keys rest

def eraseWhere (test : V -> Option Bool) (map : AList fun _ : K => V) :
    Option (AList fun _ : K => V) :=
  eraseKeys test map map.keys map

theorem eraseKeys_lookup {test : V -> Option Bool} {map rest rest' : AList fun _ : K => V}
    {keys : List K} (h : eraseKeys test map keys rest = some rest') (key : K) :
    rest'.lookup key =
      if key ∈ keys ∧ (map.lookup key).bind test = some true then none
      else rest.lookup key := by
  induction keys generalizing rest with
  | nil =>
      cases h
      simp
  | cons k keys ih =>
      simp only [eraseKeys] at h
      cases htest : (map.lookup k).bind test with
      | none =>
          rw [htest] at h
          cases h
      | some passes =>
          rw [htest] at h
          cases passes with
          | true =>
              rw [ih h]
              by_cases heq : key = k
              · subst heq
                simp [htest]
              · simp [heq, AList.lookup_erase_ne heq]
          | false =>
              rw [ih h]
              by_cases heq : key = k
              · subst heq
                simp [htest]
              · simp [heq]

theorem eraseWhere_lookup {test : V -> Option Bool} {map map' : AList fun _ : K => V}
    (h : eraseWhere test map = some map') (key : K) :
    map'.lookup key =
      if (map.lookup key).bind test = some true then none else map.lookup key := by
  rw [eraseKeys_lookup h key]
  by_cases hkey : key ∈ map.keys
  · simp [hkey]
  · have hnone : map.lookup key = none :=
      AList.lookup_eq_none.mpr fun hin => hkey (AList.mem_keys.mp hin)
    simp [hnone]

/-! ## Adding missing entries -/

/-- The keys of `new` that `old` lacks. -/
def missingKeys (old new : AList fun _ : K => V) : List K :=
  new.keys.filter fun key => key ∉ old

/-- The loop that copies the entries of `keys` from `new`. -/
def copyKeys (new : AList fun _ : K => V) (keys : List K) (old : AList fun _ : K => V) :
    AList fun _ : K => V :=
  keys.foldl (fun map key =>
    match new.lookup key with
    | some value => map.insert key value
    | none => map) old

/-- Add the entries of `new` whose keys are missing in `old`. -/
def mergeMissing (old new : AList fun _ : K => V) : AList fun _ : K => V :=
  copyKeys new (missingKeys old new) old

theorem copyKeys_lookup (new : AList fun _ : K => V) (keys : List K)
    (old : AList fun _ : K => V) (key : K) :
    (copyKeys new keys old).lookup key =
      if key ∈ keys ∧ key ∈ new then new.lookup key else old.lookup key := by
  induction keys generalizing old with
  | nil =>
      simp [copyKeys]
  | cons k keys ih =>
      have hstep : copyKeys new (k :: keys) old = copyKeys new keys
          (match new.lookup k with
            | some value => old.insert k value
            | none => old) := rfl
      rw [hstep, ih]
      by_cases heq : key = k
      · subst heq
        cases hlookup : new.lookup key with
        | none =>
            have hnot : key ∉ new := AList.lookup_eq_none.mp hlookup
            simp [hnot]
        | some value =>
            have hin : key ∈ new := AList.lookup_isSome.mp (by simp [hlookup])
            simp [hin, AList.lookup_insert]
      · cases hlookup : new.lookup k with
        | none =>
            simp [heq]
        | some value =>
            simp [heq, AList.lookup_insert_ne heq]

theorem mergeMissing_lookup (old new : AList fun _ : K => V) (key : K) :
    (mergeMissing old new).lookup key = (old.lookup key).or (new.lookup key) := by
  unfold mergeMissing
  rw [copyKeys_lookup]
  by_cases hold : key ∈ old
  · rcases Option.isSome_iff_exists.mp (AList.lookup_isSome.mpr hold) with ⟨value, hvalue⟩
    simp [missingKeys, hold, hvalue]
  · have hnone : old.lookup key = none := AList.lookup_eq_none.mpr hold
    by_cases hnew : key ∈ new
    · simp [missingKeys, hold, hnone, hnew, AList.mem_keys.mp hnew]
    · have hnone' : new.lookup key = none := AList.lookup_eq_none.mpr hnew
      simp [hnone, hnone', hnew]

theorem missingKeys_eq_nil_iff (old new : AList fun _ : K => V) :
    missingKeys old new = [] <-> forall key, key ∈ new -> key ∈ old := by
  simp [missingKeys, List.filter_eq_nil_iff, AList.mem_keys]

end Foundation
end OpenFHE
