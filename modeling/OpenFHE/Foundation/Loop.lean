import Mathlib.Data.List.Basic
import Mathlib.Data.List.Range

/-!
# Bounded loops

The imperative loops of the modelled code become folds over a range and
fuel-bounded `while` loops in the `Option` monad.  An out-of-range access, a
thrown exception or an exhausted fuel is the value `none`.  This module proves
the invariant rule of each loop form once.
-/

namespace OpenFHE
namespace Foundation

/-- Run `body` while `cond` holds, for at most `fuel` tests. -/
def whileFuel {σ : Type _} (cond : σ -> Bool) (body : σ -> Option σ) :
    Nat -> σ -> Option σ
  | 0, _ => none
  | fuel + 1, s =>
      if cond s then (body s).bind (whileFuel cond body fuel) else some s

theorem whileFuel_stop {σ : Type _} {c : σ -> Bool} {f : σ -> Option σ}
    {s : σ} (fuel : Nat) (hs : c s = false) :
    whileFuel c f (fuel + 1) s = some s := by
  simp [whileFuel, hs]

theorem whileFuel_step {σ : Type _} {c : σ -> Bool} {f : σ -> Option σ}
    {s s' : σ} (fuel : Nat) (hs : c s = true) (hbody : f s = some s') :
    whileFuel c f (fuel + 1) s = whileFuel c f fuel s' := by
  simp [whileFuel, hs, hbody]

/--
Invariant rule with a variant: a body that keeps `P` and decreases
`μ` makes the loop end in a state where `P` holds and the test fails.
-/
theorem whileFuel_spec {σ : Type _} {c : σ -> Bool} {f : σ -> Option σ}
    (P : σ -> Prop) (μ : σ -> Nat)
    (hbody : forall s, P s -> c s = true ->
      exists s', f s = some s' ∧ P s' ∧ μ s' < μ s)
    (fuel : Nat) (s : σ) (hP : P s) (hfuel : μ s < fuel) :
    exists s', whileFuel c f fuel s = some s' ∧ P s' ∧ c s' = false := by
  induction fuel generalizing s with
  | zero =>
      exact absurd hfuel (Nat.not_lt_zero _)
  | succ fuel ih =>
      cases hc : c s with
      | false =>
          exact ⟨s, whileFuel_stop fuel hc, hP, hc⟩
      | true =>
          rcases hbody s hP hc with ⟨s', hs', hP', hlt⟩
          rw [whileFuel_step fuel hc hs']
          exact ih s' hP' (by omega)

theorem whileFuel_more {σ : Type _} {c : σ -> Bool} {f : σ -> Option σ} {fuel more : Nat}
    {s s' : σ} (h : whileFuel c f fuel s = some s') (hmore : fuel <= more) :
    whileFuel c f more s = some s' := by
  induction fuel generalizing s more with
  | zero => cases h
  | succ fuel ih =>
      cases more with
      | zero => exact absurd hmore (Nat.not_succ_le_zero fuel)
      | succ more =>
          cases hc : c s with
          | false =>
              rw [whileFuel_stop fuel hc] at h
              rw [whileFuel_stop more hc]
              exact h
          | true =>
              rw [whileFuel, hc, if_pos rfl] at h
              rcases Option.bind_eq_some_iff.mp h with ⟨s₁, hstep, hrest⟩
              rw [whileFuel_step more hc hstep]
              exact ih hrest (Nat.le_of_succ_le_succ hmore)

theorem whileFuel_invariant {σ : Type _} {c : σ -> Bool} {f : σ -> Option σ} (P : σ -> Prop)
    (hbody : forall s s', P s -> c s = true -> f s = some s' -> P s') {fuel : Nat} {s s' : σ}
    (hP : P s) (h : whileFuel c f fuel s = some s') : P s' ∧ c s' = false := by
  induction fuel generalizing s with
  | zero =>
      cases h
  | succ fuel ih =>
      cases hs : c s with
      | false =>
          rw [whileFuel_stop fuel hs] at h
          cases h
          exact ⟨hP, hs⟩
      | true =>
          rw [whileFuel, if_pos hs] at h
          rcases Option.bind_eq_some_iff.mp h with ⟨s₁, hs₁, hrun⟩
          exact ih (hbody s s₁ hP hs hs₁) hrun

/-- Invariant rule of a `for` loop whose counter runs over `range n`. -/
theorem foldlM_range_spec {σ : Type _} {f : σ -> Nat -> Option σ}
    (P : Nat -> σ -> Prop) {n : Nat} {s : σ} (hinit : P 0 s)
    (hbody : forall i, i < n -> forall s, P i s ->
      exists s', f s i = some s' ∧ P (i + 1) s') :
    exists s', (List.range n).foldlM f s = some s' ∧ P n s' := by
  induction n with
  | zero =>
      exact ⟨s, rfl, hinit⟩
  | succ n ih =>
      rcases ih (fun i hi => hbody i (by omega)) with ⟨s₁, hs₁, hP₁⟩
      rcases hbody n (by omega) s₁ hP₁ with ⟨s₂, hs₂, hP₂⟩
      refine ⟨s₂, ?_, hP₂⟩
      rw [List.range_succ, List.foldlM_append, hs₁]
      simpa using hs₂

theorem foldlM_range_ok {ε σ : Type _} {f : σ -> Nat -> Except ε σ}
    (P : Nat -> σ -> Prop) {n : Nat} {s : σ} (hinit : P 0 s)
    (hbody : forall i, i < n -> forall s, P i s ->
      exists s', f s i = .ok s' ∧ P (i + 1) s') :
    exists s', (List.range n).foldlM f s = .ok s' ∧ P n s' := by
  induction n with
  | zero =>
      exact ⟨s, rfl, hinit⟩
  | succ n ih =>
      rcases ih (fun i hi => hbody i (by omega)) with ⟨s₁, hs₁, hP₁⟩
      rcases hbody n (by omega) s₁ hP₁ with ⟨s₂, hs₂, hP₂⟩
      refine ⟨s₂, ?_, hP₂⟩
      rw [List.range_succ, List.foldlM_append, hs₁]
      show (List.foldlM f s₁ [n]) = .ok s₂
      rw [List.foldlM_cons, hs₂]
      rfl

theorem foldlM_range'_spec {σ : Type _} {f : σ -> Nat -> Option σ} (start : Nat)
    (P : Nat -> σ -> Prop) {n : Nat} {s : σ} (hinit : P 0 s)
    (hbody : forall i, i < n -> forall s, P i s ->
      exists s', f s (start + i) = some s' ∧ P (i + 1) s') :
    exists s', (List.range' start n).foldlM f s = some s' ∧ P n s' := by
  rw [List.range'_eq_map_range, List.foldlM_map]
  exact foldlM_range_spec P hinit hbody

theorem foldlM_spec {σ ι : Type _} {f : σ -> ι -> Option σ} (P : Nat -> σ -> Prop)
    {xs : List ι} {s : σ} (hinit : P 0 s)
    (hbody : forall i x, xs[i]? = some x -> forall s, P i s ->
      exists s', f s x = some s' ∧ P (i + 1) s') :
    exists s', xs.foldlM f s = some s' ∧ P xs.length s' := by
  induction xs generalizing P s with
  | nil =>
      exact ⟨s, rfl, hinit⟩
  | cons x xs ih =>
      rcases hbody 0 x rfl s hinit with ⟨s₁, hs₁, hP₁⟩
      rcases ih (fun i => P (i + 1)) hP₁ (fun i y hy => hbody (i + 1) y hy) with ⟨s', hs', hP'⟩
      refine ⟨s', ?_, hP'⟩
      rw [List.foldlM_cons, hs₁]
      exact hs'

theorem mapM_range_spec {β : Type _} {f : Nat -> Option β} (Q : Nat -> β -> Prop)
    {n : Nat} (h : forall i, i < n -> exists y, f i = some y ∧ Q i y) :
    exists ys, (List.range n).mapM f = some ys ∧ ys.length = n ∧
      forall i y, ys[i]? = some y -> Q i y := by
  induction n with
  | zero =>
      exact ⟨[], rfl, rfl, by simp⟩
  | succ n ih =>
      rcases ih (fun i hi => h i (by omega)) with ⟨ys, hys, hlen, hQ⟩
      rcases h n (by omega) with ⟨y, hy, hQy⟩
      refine ⟨ys ++ [y], ?_, by simp [hlen], ?_⟩
      · rw [List.range_succ, List.mapM_append, hys]
        simp [hy]
      · intro i z hz
        rcases Nat.lt_trichotomy i n with hlt | heq | hgt
        · rw [List.getElem?_append_left (by omega)] at hz
          exact hQ i z hz
        · subst heq
          rw [← hlen, List.getElem?_concat_length] at hz
          cases hz
          exact hQy
        · rw [List.getElem?_eq_none (by simp; omega)] at hz
          cases hz

/-- The vector that a loop fills with the results of operations that may throw. -/
theorem mapM_range_ok {ε β : Type _} {f : Nat -> Except ε β} (Q : Nat -> β -> Prop)
    {n : Nat} (h : forall i, i < n -> exists y, f i = .ok y ∧ Q i y) :
    exists ys, (List.range n).mapM f = .ok ys ∧ ys.length = n ∧
      forall i, i < n -> exists y, ys[i]? = some y ∧ Q i y := by
  induction n with
  | zero =>
      exact ⟨[], rfl, rfl, fun i hi => absurd hi (Nat.not_lt_zero i)⟩
  | succ n ih =>
      rcases ih (fun i hi => h i (by omega)) with ⟨ys, hys, hlen, hQ⟩
      rcases h n (by omega) with ⟨y, hy, hQy⟩
      refine ⟨ys ++ [y], ?_, by simp [hlen], ?_⟩
      · rw [List.range_succ, List.mapM_append, hys, List.mapM_cons, hy]
        rfl
      · intro i hi
        rcases Nat.lt_or_ge i n with hlt | hge
        · rw [List.getElem?_append_left (by omega)]
          exact hQ i hlt
        · cases (by omega : i = n)
          rw [← hlen, List.getElem?_concat_length]
          exact ⟨y, rfl, by rwa [hlen]⟩

theorem mapM_spec {α β : Type _} {f : α -> Option β} (Q : α -> β -> Prop) {l : List α}
    (h : forall x, x ∈ l -> exists y, f x = some y ∧ Q x y) :
    exists ys, l.mapM f = some ys ∧ ys.length = l.length ∧
      forall (i : Nat) x y, l[i]? = some x -> ys[i]? = some y -> Q x y := by
  induction l with
  | nil =>
      exact ⟨[], rfl, rfl, by simp⟩
  | cons x xs ih =>
      rcases ih (fun z hz => h z (List.mem_cons_of_mem _ hz)) with ⟨ys, hys, hlen, hQ⟩
      rcases h x List.mem_cons_self with ⟨y, hy, hQy⟩
      refine ⟨y :: ys, ?_, by simp [hlen], ?_⟩
      · rw [List.mapM_cons, hy, hys]
        rfl
      · intro i u v hu hv
        cases i with
        | zero =>
            cases hu
            cases hv
            exact hQy
        | succ i =>
            exact hQ i u v hu hv

theorem mapM_zipIdx_spec {α β : Type _} {l : List α} {f : α × Nat -> Option β}
    (Q : Nat -> α -> β -> Prop) (h : forall (i : Nat) x, l[i]? = some x ->
      exists y, f (x, i) = some y ∧ Q i x y) :
    exists ys, l.zipIdx.mapM f = some ys ∧ ys.length = l.length ∧
      forall (i : Nat) x y, l[i]? = some x -> ys[i]? = some y -> Q i x y := by
  have hentry : forall (i : Nat) p, l.zipIdx[i]? = some p ->
      exists x, l[i]? = some x ∧ p = (x, i) := by
    intro i p hp
    rw [List.getElem?_zipIdx, Nat.zero_add, Option.map_eq_some_iff] at hp
    rcases hp with ⟨x, hx, rfl⟩
    exact ⟨x, hx, rfl⟩
  rcases mapM_spec (l := l.zipIdx) (f := f) (fun p y => Q p.2 p.1 y)
    (by
      intro p hp
      rcases List.mem_iff_getElem?.mp hp with ⟨i, hi⟩
      rcases hentry i p hi with ⟨x, hx, rfl⟩
      exact h i x hx) with ⟨ys, hys, hlength, hget⟩
  refine ⟨ys, hys, by rw [hlength, List.length_zipIdx], ?_⟩
  intro i x y hx hy
  apply hget i (x, i) y _ hy
  rw [List.getElem?_zipIdx, hx, Nat.zero_add]
  rfl

theorem mapM_zipIdx_eq_zip {α β : Type _} {l : List α} {vec : List β}
    (h : l.length <= vec.length) :
    l.zipIdx.mapM (fun p => (vec[p.2]?).bind fun y => some (p.1, y)) = some (l.zip vec) := by
  rcases mapM_zipIdx_spec (l := l) (f := fun p => (vec[p.2]?).bind fun y => some (p.1, y))
    (fun i x z => exists y, vec[i]? = some y ∧ z = (x, y))
    (by
      intro i x hx
      have hi := (List.getElem?_eq_some_iff.mp hx).1
      have hy := List.getElem?_eq_getElem (show i < vec.length by omega)
      exact ⟨(x, vec[i]), by rw [hy]; rfl, vec[i], hy, rfl⟩) with ⟨zs, hzs, hlength, hget⟩
  rw [hzs]
  apply congrArg some
  apply List.ext_getElem?
  intro i
  rcases Nat.lt_or_ge i l.length with hi | hi
  · have hx := List.getElem?_eq_getElem hi
    have hz := List.getElem?_eq_getElem (show i < zs.length by omega)
    rcases hget i _ _ hx hz with ⟨y, hy, hzy⟩
    rw [hz, hzy]
    exact (List.getElem?_zip_eq_some.mpr ⟨hx, hy⟩).symm
  · rw [List.getElem?_eq_none (by omega), List.getElem?_eq_none (by simp; omega)]

theorem mapM_range_eq_some {α : Type _} {f : Nat -> Option α} {l : List α}
    (h : forall i, i < l.length -> f i = l[i]?) : (List.range l.length).mapM f = some l := by
  rcases mapM_range_spec (n := l.length) (f := f) (fun i x => l[i]? = some x)
    (fun i hi => ⟨l[i], (h i hi).trans (List.getElem?_eq_getElem hi),
      List.getElem?_eq_getElem hi⟩) with ⟨ys, hys, hlength, hget⟩
  rw [hys]
  apply congrArg some
  apply List.ext_getElem hlength
  intro i h₁ h₂
  have hentry := hget i _ (List.getElem?_eq_getElem h₁)
  rw [List.getElem?_eq_getElem h₂] at hentry
  exact (Option.some.inj hentry).symm

theorem mapM_range_getElem? {α : Type _} (l : List α) :
    ((List.range l.length).mapM fun i => l[i]?) = some l :=
  mapM_range_eq_some fun _ _ => rfl

theorem mapM_mem {α β : Type _} {f : α -> Option β} {l : List α} {ys : List β}
    (h : l.mapM f = some ys) {y : β} (hy : y ∈ ys) : exists x, x ∈ l ∧ f x = some y := by
  induction l generalizing ys with
  | nil =>
      cases h
      cases hy
  | cons x l ih =>
      rw [List.mapM_cons] at h
      rcases Option.bind_eq_some_iff.mp h with ⟨z, hz, hrest⟩
      rcases Option.bind_eq_some_iff.mp hrest with ⟨zs, hzs, hcons⟩
      cases hcons
      rcases List.mem_cons.mp hy with rfl | hmem
      · exact ⟨x, List.mem_cons_self, hz⟩
      · rcases ih hzs hmem with ⟨x', hx', hfx'⟩
        exact ⟨x', List.mem_cons_of_mem x hx', hfx'⟩

theorem mapM_getElem? {α β : Type _} {f : α -> Option β} {l : List α} {ys : List β}
    (h : l.mapM f = some ys) {i : Nat} {x : α} (hx : l[i]? = some x) :
    exists y, ys[i]? = some y ∧ f x = some y := by
  induction l generalizing ys i with
  | nil => cases hx
  | cons a l ih =>
      rw [List.mapM_cons] at h
      rcases Option.bind_eq_some_iff.mp h with ⟨z, hz, hrest⟩
      rcases Option.bind_eq_some_iff.mp hrest with ⟨zs, hzs, hcons⟩
      cases hcons
      cases i with
      | zero =>
          cases hx
          exact ⟨z, rfl, hz⟩
      | succ i => exact ih hzs hx

theorem mapM_eq_none {α β : Type _} {f : α -> Option β} {l : List α} {x : α} (hx : x ∈ l)
    (hfail : f x = none) : l.mapM f = none := by
  induction l with
  | nil =>
      cases hx
  | cons y l ih =>
      rw [List.mapM_cons]
      rcases List.mem_cons.mp hx with rfl | hmem
      · rw [hfail]
        rfl
      · cases hy : f y with
        | none => rfl
        | some z => simp [ih hmem]

theorem foldlM_eq_none {σ ι : Type _} {f : σ -> ι -> Option σ} {l : List ι} {x : ι}
    (hx : x ∈ l) (hfail : forall s, f s x = none) (s : σ) : l.foldlM f s = none := by
  induction l generalizing s with
  | nil =>
      cases hx
  | cons y l ih =>
      rw [List.foldlM_cons]
      rcases List.mem_cons.mp hx with rfl | hmem
      · rw [hfail]
        rfl
      · cases hy : f s y with
        | none => rfl
        | some s' => exact ih hmem s'

theorem foldlM_invariant {σ ι : Type _} {f : σ -> ι -> Option σ}
    (P : σ -> Prop) {xs : List ι} {s s' : σ}
    (hbody : forall x, x ∈ xs -> forall s s', P s -> f s x = some s' -> P s')
    (hP : P s) (hrun : xs.foldlM f s = some s') : P s' := by
  induction xs generalizing s with
  | nil =>
      cases hrun
      exact hP
  | cons x xs ih =>
      rw [List.foldlM_cons] at hrun
      rcases Option.bind_eq_some_iff.mp hrun with ⟨s₁, hs₁, hrest⟩
      exact ih (fun y hy => hbody y (List.mem_cons_of_mem _ hy))
        (hbody x List.mem_cons_self s s₁ hP hs₁) hrest

theorem length_of_mapM {α β : Type _} {f : α -> Option β} {l : List α} {ys : List β}
    (h : l.mapM f = some ys) : ys.length = l.length := by
  induction l generalizing ys with
  | nil =>
      cases h
      rfl
  | cons x l ih =>
      rw [List.mapM_cons] at h
      rcases Option.bind_eq_some_iff.mp h with ⟨y, _, hrest⟩
      rcases Option.bind_eq_some_iff.mp hrest with ⟨zs, hzs, heq⟩
      cases heq
      rw [List.length_cons, List.length_cons, ih hzs]

theorem foldlM_range_invariant {σ : Type _} {f : σ -> Nat -> Option σ} (P : Nat -> σ -> Prop)
    {s : σ} (hinit : P 0 s)
    (hstep : forall i s s', P i s -> f s i = some s' -> P (i + 1) s') {n : Nat} {s' : σ}
    (hrun : (List.range n).foldlM f s = some s') : P n s' := by
  induction n generalizing s' with
  | zero =>
      cases hrun
      exact hinit
  | succ n ih =>
      rw [List.range_succ, List.foldlM_append] at hrun
      rcases Option.bind_eq_some_iff.mp hrun with ⟨s1, hs1, hlast⟩
      rw [List.foldlM_cons] at hlast
      rcases Option.bind_eq_some_iff.mp hlast with ⟨s2, hs2, heq⟩
      have heq' : s2 = s' := Option.some.inj heq
      rw [← heq']
      exact hstep n s1 s2 (ih hs1) hs2

theorem foldlM_agree {σ ι : Type _} {f g : σ -> ι -> Option σ} (P : σ -> Prop)
    {xs : List ι} {s : σ} (hP : P s)
    (hbody : forall x, x ∈ xs -> forall s, P s ->
      exists s', f s x = some s' ∧ g s x = some s' ∧ P s') :
    exists s', xs.foldlM f s = some s' ∧ xs.foldlM g s = some s' ∧ P s' := by
  induction xs generalizing s with
  | nil => exact ⟨s, rfl, rfl, hP⟩
  | cons x xs ih =>
      rcases hbody x List.mem_cons_self s hP with ⟨s₁, hf, hg, hP₁⟩
      rcases ih hP₁ (fun y hy => hbody y (List.mem_cons_of_mem _ hy)) with
        ⟨s', hf', hg', hP'⟩
      refine ⟨s', ?_, ?_, hP'⟩
      · rw [List.foldlM_cons, hf]
        exact hf'
      · rw [List.foldlM_cons, hg]
        exact hg'

end Foundation
end OpenFHE
