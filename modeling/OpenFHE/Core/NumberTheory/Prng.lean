import OpenFHE.Core.NativeInteger.ModularArithmetic

/-!
# Random numbers

The functions of number theory take the values of their distributions from a list, so that
a statement about every list is one about every sequence of random draws.  A run that is
not over when the list ends is the value `none`.
-/

namespace OpenFHE
namespace Core

open NativeInteger

/-! ## Random computations -/

/--
The state of a run: the values that the distributions still return, and the numbers that
the primality test has accepted.  No function reads the second list.
-/
structure Prng where
  draws : List Nat
  accepted : List Nat
deriving DecidableEq, Repr

abbrev Random := StateT Prng Option

namespace Random

variable {α β : Type}

/-- A call that throws, or reads out of bounds, has no value. -/
def ofOption (x : Option α) : Random α := fun s => x.map fun a => (a, s)

/-- A value of `uniform_int_distribution` from zero up to `bound`. -/
def draw (bound : Nat) : Random Nat := fun s =>
  match s.draws with
  | [] => none
  | x :: rest => if x <= bound then some (x, { s with draws := rest }) else none

/-- Run a body until it gives a value, for at most `fuel` times. -/
def retry (body : Random (Option α)) : Nat -> Random α
  | 0 => fun _ => none
  | fuel + 1 => do
      match <- body with
      | some a => pure a
      | none => retry body fuel

/-- Run a body that takes at least one draw until it gives a value. -/
def repeatUntil (body : Random (Option α)) : Random α := fun s =>
  retry body (s.draws.length + 1) s

theorem bind_eq_some {x : Random α} {f : α -> Random β} {s s' : Prng} {b : β} :
    (x >>= f) s = some (b, s') <->
      exists a s₁, x s = some (a, s₁) ∧ f a s₁ = some (b, s') := by
  show Option.bind (x s) (fun p => f p.1 p.2) = some (b, s') <-> _
  rw [Option.bind_eq_some_iff]
  constructor
  · intro h
    rcases h with ⟨⟨a, s₁⟩, hx, hf⟩
    exact ⟨a, s₁, hx, hf⟩
  · intro h
    rcases h with ⟨a, s₁, hx, hf⟩
    exact ⟨(a, s₁), hx, hf⟩

theorem bind_eq_bind {x : Random α} {f g : α -> Random β} {s : Prng}
    (h : forall a s₁, x s = some (a, s₁) -> f a s₁ = g a s₁) : (x >>= f) s = (x >>= g) s := by
  show Option.bind (x s) (fun p => f p.1 p.2) = Option.bind (x s) (fun p => g p.1 p.2)
  cases hx : x s with
  | none => rfl
  | some p => exact h p.1 p.2 hx

theorem pure_eq_some {a b : α} {s s' : Prng} :
    (pure a : Random α) s = some (b, s') <-> a = b ∧ s = s' := by
  show some (a, s) = some (b, s') <-> _
  rw [Option.some.injEq, Prod.mk.injEq]

theorem ofOption_eq_some {x : Option α} {b : α} {s s' : Prng} :
    ofOption x s = some (b, s') <-> x = some b ∧ s = s' := by
  cases x with
  | none =>
      constructor
      · intro h
        cases h
      · intro h
        cases h.left
  | some a =>
      show some (a, s) = some (b, s') <-> _
      rw [Option.some.injEq, Option.some.injEq, Prod.mk.injEq]

/-- A computation that takes no more than the draws and forgets no accepted number. -/
def Grows (x : Random α) : Prop :=
  forall s a s', x s = some (a, s') ->
    s.accepted ⊆ s'.accepted ∧ s'.draws.length <= s.draws.length

def Consumes (x : Random α) : Prop :=
  forall s a s', x s = some (a, s') -> s'.draws.length < s.draws.length

theorem grows_pure (a : α) : Grows (pure a : Random α) := by
  intro s b s' h
  rcases pure_eq_some.mp h with ⟨_, rfl⟩
  exact ⟨List.Subset.refl _, Nat.le_refl _⟩

theorem grows_ofOption (x : Option α) : Grows (ofOption x) := by
  intro s b s' h
  rcases ofOption_eq_some.mp h with ⟨_, rfl⟩
  exact ⟨List.Subset.refl _, Nat.le_refl _⟩

theorem Grows.bind {x : Random α} {f : α -> Random β} (hx : Grows x) (hf : forall a, Grows (f a)) :
    Grows (x >>= f) := by
  intro s b s' h
  rcases bind_eq_some.mp h with ⟨a, s₁, h₁, h₂⟩
  rcases hx s a s₁ h₁ with ⟨hsub₁, hlen₁⟩
  rcases hf a s₁ b s' h₂ with ⟨hsub₂, hlen₂⟩
  exact ⟨List.Subset.trans hsub₁ hsub₂, hlen₂.trans hlen₁⟩

theorem Consumes.bind {x : Random α} {f : α -> Random β} (hx : Consumes x)
    (hf : forall a, Grows (f a)) : Consumes (x >>= f) := by
  intro s b s' h
  rcases bind_eq_some.mp h with ⟨a, s₁, h₁, h₂⟩
  exact Nat.lt_of_le_of_lt (hf a s₁ b s' h₂).right (hx s a s₁ h₁)

theorem Grows.bind_consumes {x : Random α} {f : α -> Random β} (hx : Grows x)
    (hf : forall a, Consumes (f a)) : Consumes (x >>= f) := by
  intro s b s' h
  rcases bind_eq_some.mp h with ⟨a, s₁, h₁, h₂⟩
  exact Nat.lt_of_lt_of_le (hf a s₁ b s' h₂) (hx s a s₁ h₁).right

theorem draw_eq_some {bound x : Nat} {s s' : Prng} :
    draw bound s = some (x, s') <->
      x <= bound ∧ s.draws = x :: s'.draws ∧ s.accepted = s'.accepted := by
  unfold draw
  cases hs : s.draws with
  | nil =>
      constructor
      · intro h
        cases h
      · intro h
        cases h.right.left
  | cons y rest =>
      dsimp only
      constructor
      · intro h
        split at h
        next hle =>
            cases h
            exact ⟨hle, rfl, rfl⟩
        next => cases h
      · intro h
        rcases h with ⟨hle, hcons, haccepted⟩
        cases hcons
        rw [if_pos hle, haccepted]

theorem grows_draw (bound : Nat) : Grows (draw bound) := by
  intro s x s' h
  rcases draw_eq_some.mp h with ⟨_, hdraws, haccepted⟩
  rw [hdraws, haccepted]
  exact ⟨List.Subset.refl _, Nat.le_succ _⟩

theorem consumes_draw (bound : Nat) : Consumes (draw bound) := by
  intro s x s' h
  rcases draw_eq_some.mp h with ⟨_, hdraws, _⟩
  rw [hdraws]
  exact Nat.lt_succ_self _

theorem retry_eq_some {body : Random (Option α)} (hbody : Grows body) {fuel : Nat} {s s' : Prng}
    {a : α} (h : retry body fuel s = some (a, s')) :
    exists s₁, s.accepted ⊆ s₁.accepted ∧ s₁.draws.length <= s.draws.length ∧
      body s₁ = some (some a, s') := by
  induction fuel generalizing s with
  | zero => cases h
  | succ fuel ih =>
      rcases bind_eq_some.mp h with ⟨x, s₁, hx, hrest⟩
      cases x with
      | some b =>
          rcases pure_eq_some.mp hrest with ⟨rfl, rfl⟩
          exact ⟨s, List.Subset.refl _, Nat.le_refl _, hx⟩
      | none =>
          rcases ih hrest with ⟨s₂, hsub, hlen, hlast⟩
          rcases hbody s none s₁ hx with ⟨hsub₁, hlen₁⟩
          exact ⟨s₂, List.Subset.trans hsub₁ hsub, hlen.trans hlen₁, hlast⟩

theorem retry_fuel {body : Random (Option α)} (hbody : Consumes body) {fuel more : Nat}
    {s : Prng} (hfuel : s.draws.length < fuel) (hmore : fuel <= more) :
    retry body more s = retry body fuel s := by
  induction fuel generalizing s more with
  | zero => omega
  | succ fuel ih =>
      cases more with
      | zero => omega
      | succ more =>
          show Option.bind (body s) _ = Option.bind (body s) _
          cases hx : body s with
          | none => rfl
          | some p =>
              rcases p with ⟨x, s₁⟩
              cases x with
              | some a => rfl
              | none =>
                  have hlt := hbody s none s₁ hx
                  exact ih (by omega) (by omega)

theorem repeatUntil_eq_some {body : Random (Option α)} (hbody : Grows body) {s s' : Prng} {a : α}
    (h : repeatUntil body s = some (a, s')) :
    exists s₁, s.accepted ⊆ s₁.accepted ∧ s₁.draws.length <= s.draws.length ∧
      body s₁ = some (some a, s') :=
  retry_eq_some hbody h

theorem Grows.repeatUntil {body : Random (Option α)} (hbody : Grows body) :
    Grows (repeatUntil body) := by
  intro s a s' h
  rcases repeatUntil_eq_some hbody h with ⟨s₁, hsub, hlen, hlast⟩
  rcases hbody s₁ (some a) s' hlast with ⟨hsub', hlen'⟩
  exact ⟨List.Subset.trans hsub hsub', hlen'.trans hlen⟩

theorem Consumes.repeatUntil {body : Random (Option α)} (hgrows : Grows body)
    (hbody : Consumes body) : Consumes (repeatUntil body) := by
  intro s a s' h
  rcases repeatUntil_eq_some hgrows h with ⟨s₁, _, hlen, hlast⟩
  exact Nat.lt_of_lt_of_le (hbody s₁ (some a) s' hlast) hlen

theorem repeatUntil_of_some {body : Random (Option α)} {s s' : Prng} {a : α}
    (h : body s = some (some a, s')) : repeatUntil body s = some (a, s') :=
  bind_eq_some.mpr ⟨some a, s', h, rfl⟩

theorem Grows.foldlM {f : β -> α -> Random β} (hf : forall b a, Grows (f b a)) (l : List α)
    (b : β) : Grows (l.foldlM f b) := by
  induction l generalizing b with
  | nil => exact grows_pure b
  | cons a l ih =>
      rw [List.foldlM_cons]
      exact (hf b a).bind fun b' => ih b'

end Random

/-! ## `RNG` -/

open Random

/-- The value that `RNG` puts together from chunks of 32 bits, the last one bounded. -/
def rngCandidate (modulus : Nat) : Random Nat := do
  let chunksPerValue := usint ((getMSB modulus : Int) - 1) / 32
  let shiftChunk := chunksPerValue * 32
  let result <- (List.range chunksPerValue).foldlM (fun result i => do
    let x <- draw (2 ^ 32 - 1)
    return addFast result (lShift x (i * 32))) 0
  let x <- draw (rShift modulus shiftChunk)
  return addFast result (lShift x shiftChunk)

/-- `RNG`: the first candidate below the modulus. -/
def rng (modulus : Nat) : Random Nat :=
  repeatUntil do
    let result <- rngCandidate modulus
    return if result < modulus then some result else none

theorem consumes_rngCandidate (modulus : Nat) : Consumes (rngCandidate modulus) := by
  apply Grows.bind_consumes
  · exact Grows.foldlM (fun _ _ => (grows_draw _).bind fun _ => grows_pure _) _ _
  · intro result
    exact (consumes_draw _).bind fun _ => grows_pure _

theorem grows_rngCandidate (modulus : Nat) : Grows (rngCandidate modulus) :=
  (Grows.foldlM (fun _ _ => (grows_draw _).bind fun _ => grows_pure _) _ _).bind fun _ =>
    (grows_draw _).bind fun _ => grows_pure _

theorem grows_rng (modulus : Nat) : Grows (rng modulus) :=
  Grows.repeatUntil ((grows_rngCandidate modulus).bind fun _ => grows_pure _)

theorem consumes_rng (modulus : Nat) : Consumes (rng modulus) :=
  Consumes.repeatUntil ((grows_rngCandidate modulus).bind fun _ => grows_pure _)
    ((consumes_rngCandidate modulus).bind fun _ => grows_pure _)

theorem rng_lt {modulus r : Nat} {s s' : Prng} (h : rng modulus s = some (r, s')) :
    r < modulus := by
  rcases repeatUntil_eq_some ((grows_rngCandidate modulus).bind fun _ => grows_pure _) h with
    ⟨s₁, _, _, hlast⟩
  rcases bind_eq_some.mp hlast with ⟨result, s₂, _, hpure⟩
  rcases pure_eq_some.mp hpure with ⟨heq, _⟩
  split at heq
  next hlt =>
      cases heq
      exact hlt
  next => cases heq

theorem lShift_mod_add (x : Nat) (hx : x < 2 ^ maxBits) :
    addFast (addFast 0 (lShift (x % 2 ^ 32) 0)) (lShift (x / 2 ^ 32) 32) = x := by
  have hdiv := Nat.div_add_mod x (2 ^ 32)
  simp only [maxBits] at hx
  have hlow : word (x % 2 ^ 32) = x % 2 ^ 32 := word_eq (by simp only [maxBits]; omega)
  have hhigh : word (x / 2 ^ 32 * 2 ^ 32) = x / 2 ^ 32 * 2 ^ 32 :=
    word_eq (by simp only [maxBits]; omega)
  unfold addFast lShift
  rw [Nat.shiftLeft_zero, Nat.shiftLeft_eq, Nat.add_zero, hlow, hlow, hhigh,
    word_eq (by simp only [maxBits]; omega)]
  omega

theorem rngCandidate_surjective {modulus v : Nat} (hmodulus : modulus < 2 ^ maxBits)
    (hv : v < modulus) :
    exists draws, forall rest accepted,
      rngCandidate modulus ⟨draws ++ rest, accepted⟩ = some (v, ⟨rest, accepted⟩) := by
  have hmsb : getMSB modulus = Nat.log2 modulus + 1 := if_neg (by omega)
  have hword : v < 2 ^ maxBits := by omega
  have husint : usint ((getMSB modulus : Int) - 1) = Nat.log2 modulus := by
    have hlog := Nat.log2_lt (by omega) |>.mpr hmodulus
    simp only [maxBits] at hlog
    unfold usint
    omega
  rcases Nat.lt_or_ge modulus (2 ^ 32) with hsmall | hlarge
  · have hchunks : usint ((getMSB modulus : Int) - 1) / 32 = 0 := by
      have hlog := Nat.log2_lt (by omega) |>.mpr hsmall
      omega
    refine ⟨[v], ?_⟩
    intro rest accepted
    unfold rngCandidate
    rw [hchunks]
    refine bind_eq_some.mpr ⟨0, ⟨v :: rest, accepted⟩, rfl, ?_⟩
    refine bind_eq_some.mpr ⟨v, ⟨rest, accepted⟩, ?_, ?_⟩
    · exact draw_eq_some.mpr ⟨hv.le, rfl, rfl⟩
    · refine pure_eq_some.mpr ⟨?_, rfl⟩
      unfold addFast lShift
      rw [Nat.zero_mul, Nat.shiftLeft_zero, Nat.add_zero, word_eq hword, word_eq hword]
  · have hchunks : usint ((getMSB modulus : Int) - 1) / 32 = 1 := by
      have hlow := (Nat.le_log2 (by omega)).mpr hlarge
      have hhigh := Nat.log2_lt (by omega) |>.mpr hmodulus
      simp only [maxBits] at hhigh
      omega
    refine ⟨[v % 2 ^ 32, v / 2 ^ 32], ?_⟩
    intro rest accepted
    unfold rngCandidate
    rw [hchunks]
    refine bind_eq_some.mpr ⟨addFast 0 (lShift (v % 2 ^ 32) 0),
      ⟨v / 2 ^ 32 :: rest, accepted⟩, ?_, ?_⟩
    · refine bind_eq_some.mpr ⟨_, _, bind_eq_some.mpr ⟨v % 2 ^ 32, ⟨v / 2 ^ 32 :: rest, accepted⟩,
        draw_eq_some.mpr ⟨?_, rfl, rfl⟩, rfl⟩, rfl⟩
      have hmod := Nat.mod_lt v (show 0 < 2 ^ 32 by decide)
      omega
    · refine bind_eq_some.mpr ⟨v / 2 ^ 32, ⟨rest, accepted⟩, ?_, ?_⟩
      · refine draw_eq_some.mpr ⟨?_, rfl, rfl⟩
        unfold rShift
        rw [Nat.shiftRight_eq_div_pow]
        exact Nat.div_le_div_right hv.le
      · exact pure_eq_some.mpr ⟨lShift_mod_add v hword, rfl⟩

theorem rng_surjective {modulus v : Nat} (hmodulus : modulus < 2 ^ maxBits) (hv : v < modulus) :
    exists draws, forall rest accepted,
      rng modulus ⟨draws ++ rest, accepted⟩ = some (v, ⟨rest, accepted⟩) := by
  rcases rngCandidate_surjective hmodulus hv with ⟨draws, hdraws⟩
  refine ⟨draws, ?_⟩
  intro rest accepted
  apply repeatUntil_of_some
  refine bind_eq_some.mpr ⟨v, ⟨rest, accepted⟩, hdraws rest accepted, ?_⟩
  exact pure_eq_some.mpr ⟨if_pos hv, rfl⟩

end Core
end OpenFHE
