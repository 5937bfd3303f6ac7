import Mathlib.Logic.Relation

/-!
# Runs of calls on registers

A program keeps values in registers.  A call reads two of them and adds its result as
a new register, or overwrites one.  A property of the values that the calls keep under a
condition holds in every state of a run whose calls meet the condition.
-/

namespace OpenFHE
namespace Foundation

/-- The operands of a call, and the register that an operation in place overwrites. -/
structure RegisterCall (ι : Type _) where
  op : ι
  first : Nat
  second : Nat
  target : Option Nat

def putRegister {α : Type _} (s : List α) (target : Option Nat) (r : α) : List α :=
  match target with
  | none => s ++ [r]
  | some i => s.set i r

theorem putRegister_forall {α : Type _} {P : α -> Prop} {s : List α}
    (hs : forall a, a ∈ s -> P a) {r : α} (hr : P r) (target : Option Nat) :
    forall a, a ∈ putRegister s target r -> P a := by
  intro a ha
  cases target with
  | none =>
      rcases List.mem_append.mp ha with hold | hnew
      · exact hs a hold
      · rw [List.mem_singleton.mp hnew]
        exact hr
  | some i =>
      rcases List.mem_or_eq_of_mem_set ha with hold | rfl
      · exact hs a hold
      · exact hr

section Runs

variable {α ι : Type _} (apply : ι -> α -> α -> Option α)

/-- One call that returns. -/
inductive RegisterStep (call : RegisterCall ι) (s : List α) : List α -> Prop where
  | intro {a b r : α} (hfirst : (s)[call.first]? = some a)
      (hsecond : (s)[call.second]? = some b) (hcall : apply call.op a b = some r) :
      RegisterStep call s (putRegister s call.target r)

def RegisterCall.Meets (keeps : ι -> α -> α -> Prop) (call : RegisterCall ι) (s : List α) :
    Prop :=
  forall a b, (s)[call.first]? = some a -> (s)[call.second]? = some b -> keeps call.op a b

def RegisterRun : List α -> List α -> Prop :=
  Relation.ReflTransGen fun s s' => exists call, RegisterStep apply call s s'

/-- The states that a run reaches whose calls all meet their condition. -/
def KeepingRun (keeps : ι -> α -> α -> Prop) : List α -> List α -> Prop :=
  Relation.ReflTransGen fun s s' =>
    exists call : RegisterCall ι, call.Meets keeps s ∧ RegisterStep apply call s s'

variable {apply} {keeps : ι -> α -> α -> Prop} {P : α -> Prop}

theorem RegisterStep.run {call : RegisterCall ι} {s s' : List α}
    (hstep : RegisterStep apply call s s') : RegisterRun apply s s' :=
  Relation.ReflTransGen.single ⟨call, hstep⟩

theorem RegisterStep.keepingRun {call : RegisterCall ι} {s s' : List α}
    (hstep : RegisterStep apply call s s') (hmeets : call.Meets keeps s) :
    KeepingRun apply keeps s s' :=
  Relation.ReflTransGen.single ⟨call, hmeets, hstep⟩

theorem RegisterStep.invariant
    (hop : forall op a b r, P a -> P b -> keeps op a b -> apply op a b = some r -> P r)
    {call : RegisterCall ι} {s s' : List α} (hstep : RegisterStep apply call s s')
    (hmeets : call.Meets keeps s) (hs : forall a, a ∈ s -> P a) : forall a, a ∈ s' -> P a := by
  cases hstep with
  | intro hfirst hsecond hcall =>
      have ha := hs _ (List.mem_of_getElem? hfirst)
      have hb := hs _ (List.mem_of_getElem? hsecond)
      exact putRegister_forall hs (hop _ _ _ _ ha hb (hmeets _ _ hfirst hsecond) hcall) _

theorem KeepingRun.invariant
    (hop : forall op a b r, P a -> P b -> keeps op a b -> apply op a b = some r -> P r)
    {s s' : List α} (hrun : KeepingRun apply keeps s s') (hs : forall a, a ∈ s -> P a) :
    forall a, a ∈ s' -> P a := by
  induction hrun with
  | refl => exact hs
  | tail _ hstep ih =>
      rcases hstep with ⟨call, hmeets, hstep⟩
      exact hstep.invariant hop hmeets ih

theorem RegisterStep.not_forall {call : RegisterCall ι} {s : List α} {a b r : α}
    (hfirst : (s)[call.first]? = some a) (hsecond : (s)[call.second]? = some b)
    (hcall : apply call.op a b = some r) (htarget : call.target = none) (hr : ¬ P r) :
    exists s', RegisterStep apply call s s' ∧ ¬ forall a, a ∈ s' -> P a := by
  refine ⟨_, RegisterStep.intro hfirst hsecond hcall, ?_⟩
  intro hall
  rw [htarget] at hall
  exact hr (hall r (List.mem_append_right _ (List.mem_singleton.mpr rfl)))

end Runs

end Foundation
end OpenFHE
