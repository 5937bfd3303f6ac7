import OpenFHE.Foundation.Loop

/-!
# Outcomes of a call

A call returns a value, throws an exception, or reaches what C++ leaves undefined: an access
outside of a vector or through a pointer that was not set.  A `while` loop that has not ended
after the tests that it is given is still running.
-/

namespace OpenFHE
namespace Foundation

inductive RuntimeFault where
  | thrown (message : String)
  | undefined
  | running
deriving DecidableEq, Repr

abbrev Outcome (α : Type _) := Except RuntimeFault α

@[simp] theorem ok_bind {α β : Type _} (x : α) (f : α -> Outcome β) :
    (Except.ok x : Outcome α) >>= f = f x := rfl

@[simp] theorem error_bind {α β : Type _} (e : RuntimeFault) (f : α -> Outcome β) :
    (Except.error e : Outcome α) >>= f = .error e := rfl

theorem bind_eq_ok {α β : Type _} {m : Outcome α} {f : α -> Outcome β} {y : β}
    (h : m >>= f = .ok y) : exists x, m = .ok x ∧ f x = .ok y := by
  cases m with
  | error e => cases h
  | ok x => exact ⟨x, rfl, h⟩

section Vectors

variable {α : Type _}

def orUndefined : Option α -> Outcome α
  | none => .error .undefined
  | some x => .ok x

def entry (v : List α) (i : Nat) : Outcome α :=
  orUndefined v[i]?

/-- `v.back()`. -/
def back (v : List α) : Outcome α :=
  orUndefined v.getLast?

/-- The object behind an entry of a vector of pointers. -/
def load (v : List (Option α)) (i : Nat) : Outcome α := do
  let p <- entry v i
  orUndefined p

def store (v : List α) (i : Nat) (x : α) : Outcome (List α) :=
  if i < v.length then .ok (v.set i x) else .error .undefined

theorem entry_ok {v : List α} {i : Nat} {x : α} (h : v[i]? = some x) : entry v i = .ok x := by
  rw [entry, h]
  rfl

theorem entry_getD {v : List α} (z : α) {i : Nat} (h : i < v.length) :
    entry v i = .ok (v.getD i z) ∧ v.getD i z ∈ v := by
  have hget : v.getD i z = v[i] := by
    rw [List.getD_eq_getElem?_getD, List.getElem?_eq_getElem h, Option.getD_some]
  rw [hget]
  exact ⟨entry_ok (List.getElem?_eq_getElem h), List.getElem_mem h⟩

theorem entry_undefined {v : List α} {i : Nat} (h : v.length <= i) :
    entry v i = .error .undefined := by
  rw [entry, List.getElem?_eq_none h]
  rfl

theorem load_ok {v : List (Option α)} {i : Nat} {x : α} (h : v[i]? = some (some x)) :
    load v i = .ok x := by
  rw [load, entry_ok h]
  rfl

theorem load_null {v : List (Option α)} {i : Nat} (h : v[i]? = some none) :
    load v i = .error .undefined := by
  rw [load, entry_ok h]
  rfl

theorem store_ok {v : List α} {i : Nat} (x : α) (h : i < v.length) :
    store v i x = .ok (v.set i x) :=
  if_pos h

theorem store_undefined {v : List α} {i : Nat} (x : α) (h : v.length <= i) :
    store v i x = .error .undefined :=
  if_neg (not_lt.mpr h)

end Vectors

/-!
## Loops
-/

section Loops

variable {σ : Type _}

/-- Run `body` while `cond` holds, for at most `fuel` tests. -/
def whileLoop (cond : σ -> Bool) (body : σ -> Outcome σ) : Nat -> σ -> Outcome σ
  | 0, _ => .error .running
  | fuel + 1, s =>
      if cond s then (body s).bind (whileLoop cond body fuel) else .ok s

theorem whileLoop_stop {c : σ -> Bool} {f : σ -> Outcome σ} {s : σ} (fuel : Nat)
    (hs : c s = false) : whileLoop c f (fuel + 1) s = .ok s := by
  simp [whileLoop, hs]

theorem whileLoop_step {c : σ -> Bool} {f : σ -> Outcome σ} {s s' : σ} (fuel : Nat)
    (hs : c s = true) (hbody : f s = .ok s') :
    whileLoop c f (fuel + 1) s = whileLoop c f fuel s' := by
  simp only [whileLoop, hs, if_true, hbody]
  rfl

theorem whileLoop_spec {c : σ -> Bool} {f : σ -> Outcome σ} (P : σ -> Prop) (μ : σ -> Nat)
    (hbody : forall s, P s -> c s = true -> exists s', f s = .ok s' ∧ P s' ∧ μ s' < μ s)
    (fuel : Nat) (s : σ) (hP : P s) (hfuel : μ s < fuel) :
    exists s', whileLoop c f fuel s = .ok s' ∧ P s' ∧ c s' = false := by
  induction fuel generalizing s with
  | zero => exact absurd hfuel (Nat.not_lt_zero _)
  | succ fuel ih =>
      cases hc : c s with
      | false => exact ⟨s, whileLoop_stop fuel hc, hP, hc⟩
      | true =>
          rcases hbody s hP hc with ⟨s', hs', hP', hlt⟩
          rw [whileLoop_step fuel hc hs']
          exact ih s' hP' (Nat.lt_of_lt_of_le hlt (Nat.le_of_lt_succ hfuel))

theorem whileLoop_fuel {c : σ -> Bool} {f : σ -> Outcome σ} {fuel more : Nat} {s : σ}
    (h : whileLoop c f fuel s ≠ .error .running) (hmore : fuel <= more) :
    whileLoop c f more s = whileLoop c f fuel s := by
  induction fuel generalizing s more with
  | zero => exact absurd rfl h
  | succ fuel ih =>
      cases more with
      | zero => exact absurd hmore (Nat.not_succ_le_zero fuel)
      | succ more =>
          cases hc : c s with
          | false => rw [whileLoop_stop more hc, whileLoop_stop fuel hc]
          | true =>
              simp only [whileLoop, hc, if_true] at h ⊢
              cases hs : f s with
              | error e => rfl
              | ok s' =>
                  rw [hs] at h
                  exact ih h (Nat.le_of_succ_le_succ hmore)

/-- The loop of a body without exceptions, with its undefined case. -/
theorem whileLoop_orUndefined {c : σ -> Bool} {f : σ -> Option σ} {fuel : Nat} {s s' : σ}
    (h : whileFuel c f fuel s = some s') :
    whileLoop c (fun s => orUndefined (f s)) fuel s = .ok s' := by
  induction fuel generalizing s with
  | zero => cases h
  | succ fuel ih =>
      cases hc : c s with
      | false =>
          rw [whileFuel_stop fuel hc] at h
          cases h
          exact whileLoop_stop fuel hc
      | true =>
          rw [whileFuel, hc, if_pos rfl] at h
          rcases Option.bind_eq_some_iff.mp h with ⟨s₁, hstep, hrest⟩
          rw [whileLoop_step fuel hc (show orUndefined (f s) = .ok s₁ by rw [hstep]; rfl)]
          exact ih hrest

/-- A loop that only the failure of its body ends, when the body decreases `μ`. -/
theorem whileLoop_fails {c : σ -> Bool} {f : σ -> Outcome σ} {e : RuntimeFault}
    (P : σ -> Prop) (μ : σ -> Nat)
    (hbody : forall s, P s -> c s = true ∧
      (f s = .error e ∨ exists s', f s = .ok s' ∧ P s' ∧ μ s' < μ s))
    (fuel : Nat) (s : σ) (hP : P s) (hfuel : μ s < fuel) :
    whileLoop c f fuel s = .error e := by
  induction fuel generalizing s with
  | zero => exact absurd hfuel (Nat.not_lt_zero _)
  | succ fuel ih =>
      rcases hbody s hP with ⟨hc, hfail | ⟨s', hs', hP', hlt⟩⟩
      · simp only [whileLoop, hc, if_true, hfail]
        rfl
      · rw [whileLoop_step fuel hc hs']
        exact ih s' hP' (Nat.lt_of_lt_of_le hlt (Nat.le_of_lt_succ hfuel))

theorem whileLoop_running {c : σ -> Bool} {f : σ -> Outcome σ} (P : σ -> Prop)
    (hbody : forall s, P s -> c s = true ∧ exists s', f s = .ok s' ∧ P s')
    (fuel : Nat) (s : σ) (hP : P s) : whileLoop c f fuel s = .error .running := by
  induction fuel generalizing s with
  | zero => rfl
  | succ fuel ih =>
      rcases hbody s hP with ⟨hc, s', hs', hP'⟩
      rw [whileLoop_step fuel hc hs']
      exact ih s' hP'

theorem foldlM_ok_invariant {ι : Type _} {f : σ -> ι -> Outcome σ} (P : σ -> Prop)
    {xs : List ι} {s s' : σ} (hP : P s)
    (hbody : forall x, x ∈ xs -> forall s s', P s -> f s x = .ok s' -> P s')
    (hrun : xs.foldlM f s = .ok s') : P s' := by
  induction xs generalizing s with
  | nil =>
      cases hrun
      exact hP
  | cons x xs ih =>
      rw [List.foldlM_cons] at hrun
      rcases bind_eq_ok hrun with ⟨s₁, hs₁, hrest⟩
      exact ih (hbody x List.mem_cons_self s s₁ hP hs₁)
        (fun y hy => hbody y (List.mem_cons_of_mem _ hy)) hrest

/-- A loop over a range whose step `K` fails where the invariant holds. -/
theorem foldlM_range_fails {f : σ -> Nat -> Outcome σ} {e : RuntimeFault}
    (P : Nat -> σ -> Prop) {n K : Nat} {s : σ} (hK : K < n) (hinit : P 0 s)
    (hbody : forall i, i < K -> forall s, P i s -> exists s', f s i = .ok s' ∧ P (i + 1) s')
    (hfail : forall s, P K s -> f s K = .error e) :
    (List.range n).foldlM f s = .error e := by
  rcases foldlM_range_ok P hinit hbody with ⟨s', hrun, hP⟩
  obtain ⟨d, rfl⟩ : exists d, n = K + (d + 1) := ⟨n - K - 1, by omega⟩
  have hrange : List.range (K + (d + 1)) =
      List.range K ++ K :: (List.range d).map fun i => K + (i + 1) := by
    rw [List.range_add, List.range_succ_eq_map, List.map_cons, List.map_map]
    rfl
  rw [hrange, List.foldlM_append, hrun]
  show (List.foldlM f s' (K :: _)) = .error e
  rw [List.foldlM_cons, hfail s' hP, error_bind]

theorem foldlM_store_eq {α : Type _} {v : List α} {z : α} {read : Nat -> Outcome α}
    (hread : forall i x, v[i]? = some x -> read i = .ok x) :
    (List.range v.length).foldlM (fun result i => read i >>= store result i)
      (List.replicate v.length z) = .ok v := by
  rcases foldlM_range_ok (n := v.length) (s := List.replicate v.length z)
    (f := fun result i => read i >>= store result i)
    (fun i result => result = v.take i ++ List.replicate (v.length - i) z)
    (by rw [List.take_zero, List.nil_append, Nat.sub_zero])
    (by
      rintro i hi result rfl
      have hlength : (v.take i).length = i := List.length_take_of_le hi.le
      obtain ⟨k, hk⟩ : exists k, v.length - i = k + 1 := ⟨v.length - i - 1, by omega⟩
      refine ⟨v.take (i + 1) ++ List.replicate k z, ?_, ?_⟩
      · rw [hread i _ (List.getElem?_eq_getElem hi), ok_bind, hk, store_ok]
        · rw [List.set_append_right _ _ hlength.le, hlength, Nat.sub_self, List.replicate_succ,
            List.set_cons_zero, List.take_add_one, List.getElem?_eq_getElem hi, List.append_assoc]
          rfl
        · rw [List.length_append, hlength, List.length_replicate]
          omega
      · congr 2
        omega) with ⟨result, hrun, hresult⟩
  rw [hrun, hresult, List.take_length, Nat.sub_self, List.replicate_zero, List.append_nil]

end Loops

/-!
## Calls that may stop earlier

Fixed-width arithmetic does what exact arithmetic does, or its behaviour is undefined.
-/

section Stops

variable {α β σ : Type _}

/-- `m` is undefined or does what `m'` does. -/
def Stops (m m' : Outcome α) : Prop :=
  m = .error .undefined ∨ m = m'

theorem Stops.refl (m : Outcome α) : Stops m m :=
  Or.inr rfl

theorem Stops.eq {m m' : Outcome α} (h : Stops m m') (hdefined : m ≠ .error .undefined) :
    m = m' :=
  h.resolve_left hdefined

theorem Stops.bind {m m' : Outcome α} {f f' : α -> Outcome β} (h : Stops m m')
    (hf : forall x, Stops (f x) (f' x)) : Stops (m >>= f) (m' >>= f') := by
  cases h with
  | inl hundefined =>
      rw [hundefined]
      exact Or.inl rfl
  | inr heq =>
      rw [heq]
      cases m' with
      | error e => exact Or.inr rfl
      | ok x => exact hf x

theorem Stops.ite {c : Prop} [Decidable c] {m m' k k' : Outcome α} (h : Stops m m')
    (hk : Stops k k') : Stops (if c then m else k) (if c then m' else k') := by
  by_cases hc : c
  · rw [if_pos hc, if_pos hc]
    exact h
  · rw [if_neg hc, if_neg hc]
    exact hk

theorem Stops.mapM {f f' : α -> Outcome β} (hf : forall x, Stops (f x) (f' x)) (l : List α) :
    Stops (l.mapM f) (l.mapM f') := by
  induction l with
  | nil => exact Stops.refl _
  | cons x l ih =>
      rw [List.mapM_cons, List.mapM_cons]
      apply (hf x).bind
      intro y
      apply ih.bind
      intro ys
      exact Stops.refl _

theorem Stops.whileLoop {c : σ -> Bool} {f f' : σ -> Outcome σ}
    (hf : forall s, Stops (f s) (f' s)) (fuel : Nat) (s : σ) :
    Stops (whileLoop c f fuel s) (whileLoop c f' fuel s) := by
  induction fuel generalizing s with
  | zero => exact Stops.refl _
  | succ fuel ih =>
      apply Stops.ite
      · exact (hf s).bind ih
      · exact Stops.refl _

end Stops

/-!
## Calls without exceptions
-/

section NoThrow

variable {α β σ : Type _}

def NoThrow (m : Outcome α) : Prop :=
  forall message, m ≠ .error (.thrown message)

theorem NoThrow.ok (x : α) : NoThrow (.ok x : Outcome α) := by
  intro message h
  cases h

theorem NoThrow.bind {m : Outcome α} {f : α -> Outcome β} (hm : NoThrow m)
    (hf : forall x, m = .ok x -> NoThrow (f x)) : NoThrow (m >>= f) := by
  cases m with
  | error e =>
      intro message h
      cases h
      exact hm message rfl
  | ok x => exact hf x rfl

theorem NoThrow.orUndefined (o : Option α) : NoThrow (orUndefined o) := by
  intro message h
  cases o <;> cases h

theorem NoThrow.store (v : List α) (i : Nat) (x : α) : NoThrow (store v i x) := by
  intro message h
  unfold Foundation.store at h
  split at h <;> cases h

theorem NoThrow.whileLoop {c : σ -> Bool} {f : σ -> Outcome σ} (hf : forall s, NoThrow (f s))
    (fuel : Nat) (s : σ) : NoThrow (whileLoop c f fuel s) := by
  induction fuel generalizing s with
  | zero =>
      intro message h
      cases h
  | succ fuel ih =>
      rw [Foundation.whileLoop]
      split
      · exact (hf s).bind fun s' _ => ih s'
      · exact NoThrow.ok s

end NoThrow

end Foundation
end OpenFHE
