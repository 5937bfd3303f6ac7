import OpenFHE.Foundation.Blocks
import OpenFHE.Foundation.Outcome
import Mathlib.Algebra.BigOperators.Group.List.Basic
import Mathlib.Algebra.BigOperators.Intervals
import Mathlib.Algebra.Ring.Int.Defs
import Mathlib.Data.List.GetD
import Mathlib.Tactic.Ring

/-!
# Sums and products of many ciphertexts

`EvalAddMany` and `EvalMultMany` combine two at a time, where the results so far are
addressed as if they followed the inputs in one vector.  `EvalAddManyInPlace` combines
entries whose distance doubles.  A ciphertext is an element of a commutative ring; a product
is relinearized and rescaled, which keeps the element.
-/

namespace OpenFHE
namespace Scheme
namespace TreeReduction

open Foundation

section Definitions

variable {R : Type _} (op : R -> R -> R) (inSize : Nat) (vec : List R)

/-- The vector of results, null at first, and the position of the next one. -/
structure Reduction (R : Type _) where
  computed : List (Option R)
  ctrIndex : Nat

def Reduction.empty (R : Type _) (inSize : Nat) : Reduction R :=
  { computed := List.replicate (inSize - 1) none, ctrIndex := 0 }

/-- `ciphertextSumVec[ctrIndex++] = x`. -/
def Reduction.push (s : Reduction R) (x : R) : Outcome (Reduction R) := do
  let computed <- store s.computed s.ctrIndex (some x)
  return { computed := computed, ctrIndex := s.ctrIndex + 1 }

/-- `i < inSize ? ciphertextVec[i] : ciphertextSumVec[i - inSize]`. -/
def operand (s : Reduction R) (i : Nat) : Outcome R :=
  if i < inSize then entry vec i else load s.computed (i - inSize)

def flatStep (s : Reduction R) (i : Nat) : Outcome (Reduction R) := do
  let a <- operand inSize vec s i
  let b <- operand inSize vec s (i + 1)
  s.push (op a b)

/-- The loop `for (i = 0; i < lim; i = i + 2)`. -/
def flatLoop (lim : Nat) : Outcome (Reduction R) :=
  (List.range ((lim + 1) / 2)).foldlM (fun s t => flatStep op inSize vec s (2 * t))
    (Reduction.empty R inSize)

end Definitions

section Operations

variable {R : Type _} [CommRing R]

def evalAddMany (ciphertextVec : List R) : Outcome (Option R) := do
  let inSize := ciphertextVec.length
  if inSize = 0 then throw (RuntimeFault.thrown "Input ciphertext vector is empty.")
  else if inSize = 1 then
    let ct <- entry ciphertextVec 0
    return some ct
  else
    let lim := inSize * 2 - 2
    let s <- flatLoop (fun a b => a + b) inSize ciphertextVec lim
    back s.computed

/-- `AdvancedSHEBase::EvalMultMany`. -/
def evalMultMany (ciphertextVec : List R) : Outcome (Option R) := do
  let inSize := ciphertextVec.length
  if inSize < 1 then throw (RuntimeFault.thrown "Input ciphertext vector size should be 1 or more")
  else
    let lim := inSize * 2 - 2
    let s <- flatLoop (fun a b => a * b) inSize ciphertextVec lim
    back s.computed

def inputStep (vec : List R) (s : Reduction R) (i : Nat) : Outcome (Reduction R) := do
  let a <- entry vec i
  let b <- entry vec (i + 1)
  s.push (a * b)

/-- The last input of an odd number of them and the first result. -/
def mixedStep (inSize : Nat) (vec : List R) (s : Reduction R) (i : Nat) :
    Outcome (Reduction R) := do
  let a <- entry vec i
  let b <- load s.computed (i + 1 - inSize)
  s.push (a * b)

def resultStep (inSize : Nat) (s : Reduction R) (i : Nat) : Outcome (Reduction R) := do
  let a <- load s.computed (i - inSize)
  let b <- load s.computed (i + 1 - inSize)
  s.push (a * b)

/-- `AdvancedSHECKKSRNS::EvalMultMany`, whose sizes are 32-bit words. -/
def evalMultManyCKKS (ciphertextVec : List R) : Outcome (Option R) := do
  let inSize := ciphertextVec.length % 2 ^ 32
  if inSize = 0 then throw (RuntimeFault.thrown "Input ciphertext vector is empty.")
  else if inSize = 1 then
    let ct <- entry ciphertextVec 0
    return some ct
  else
    let lim := (inSize * 2 + 2 ^ 32 - 2) % 2 ^ 32
    let s <- (List.range (inSize / 2)).foldlM
      (fun s t => inputStep ciphertextVec s (2 * t)) (Reduction.empty R inSize)
    let i := 2 * (inSize / 2)
    let s <- (if i < inSize then mixedStep inSize ciphertextVec s i else return s)
    let i := if i < inSize then i + 2 else i
    let s <- (List.range ((lim - i + 1) / 2)).foldlM
      (fun s t => resultStep inSize s (i + 2 * t)) s
    back s.computed

/-- The body of `EvalAddManyInPlace` at position `i` with stride `j`; entries may be null. -/
def addStride (j : Nat) (vec : List (Option R)) (i : Nat) : Outcome (List (Option R)) := do
  if i + j < vec.length then
    let low <- entry vec i
    let high <- entry vec (i + j)
    match low, high with
    | some a, some b => store vec i (some (a + b))
    | none, some b => store vec i (some b)
    | _, none => return vec
  else return vec

/-- One round: `i = 0, 2 * j, 4 * j, ...` up to the size. -/
def addRound (j : Nat) (vec : List (Option R)) : Outcome (List (Option R)) :=
  (List.range ((vec.length + 2 * j - 1) / (2 * j))).foldlM
    (fun vec t => addStride j vec (2 * j * t)) vec

def evalAddManyInPlace (ciphertextVec : List (Option R)) : Outcome R := do
  if ciphertextVec.length < 1 then
    throw (RuntimeFault.thrown "Input ciphertext vector size should be 1 or more")
  else
    let _ <- load ciphertextVec 0
    let s <- whileLoop (fun s : Nat × List (Option R) => decide (s.1 < s.2.length))
      (fun s => do
        let vec <- addRound s.1 s.2
        return (s.1 * 2, vec)) (ciphertextVec.length + 1) (1, ciphertextVec)
    load s.2 0

end Operations

/-!
## The queue of unread results

The inputs followed by the results so far, without the `2 * j` entries that were read, are a
queue: a step takes two entries from its front and adds one at its end.
-/

section Queue

variable {R : Type _} {op : R -> R -> R} {vec : List R}

structure Reduced (vec done : List R) (s : Reduction R) : Prop where
  computed : s.computed =
    done.map some ++ List.replicate (vec.length - 1 - done.length) none
  ctrIndex : s.ctrIndex = done.length

theorem Reduced.empty (vec : List R) : Reduced vec [] (Reduction.empty R vec.length) := by
  constructor <;> simp [Reduction.empty]

theorem Reduced.push {done : List R} {s : Reduction R} (h : Reduced vec done s) (x : R)
    (hlt : done.length + 1 < vec.length) :
    exists s', s.push x = .ok s' ∧ Reduced vec (done ++ [x]) s' := by
  have hrest : vec.length - 1 - done.length = vec.length - 1 - (done.length + 1) + 1 := by omega
  refine ⟨⟨s.computed.set s.ctrIndex (some x), s.ctrIndex + 1⟩, ?_, ?_⟩
  · unfold Reduction.push
    rw [store_ok _ (by rw [h.computed, h.ctrIndex]; simp; omega)]
    rfl
  · constructor
    · show s.computed.set s.ctrIndex (some x) = _
      rw [h.computed, h.ctrIndex, hrest, List.replicate_succ, List.set_append_right _ _ (by simp)]
      simp
    · show s.ctrIndex + 1 = _
      rw [h.ctrIndex, List.length_append]
      rfl

theorem Reduced.load {done : List R} {s : Reduction R} (h : Reduced vec done s) {i : Nat} {x : R}
    (hx : done[i]? = some x) : load s.computed i = .ok x := by
  have hi := (List.getElem?_eq_some_iff.mp hx).1
  apply load_ok
  rw [h.computed, List.getElem?_append_left (by simpa using hi), List.getElem?_map, hx]
  rfl

theorem Reduced.operand {done : List R} {s : Reduction R} (h : Reduced vec done s) {i : Nat}
    {x : R} (hx : (vec ++ done)[i]? = some x) : operand vec.length vec s i = .ok x := by
  unfold TreeReduction.operand
  rcases Nat.lt_or_ge i vec.length with hlt | hge
  · rw [if_pos hlt]
    rw [List.getElem?_append_left hlt] at hx
    exact entry_ok hx
  · rw [if_neg (by omega)]
    rw [List.getElem?_append_right hge] at hx
    exact h.load hx

theorem front_of_queue {done : List R} (hlt : done.length + 1 < vec.length) :
    exists a b rest, (vec ++ done).drop (2 * done.length) = a :: b :: rest ∧
      (vec ++ done)[2 * done.length]? = some a ∧ (vec ++ done)[2 * done.length + 1]? = some b := by
  have hlen : (vec ++ done).length = vec.length + done.length := List.length_append
  have hfirst : 2 * done.length < (vec ++ done).length := by omega
  have hsecond : 2 * done.length + 1 < (vec ++ done).length := by omega
  refine ⟨(vec ++ done)[2 * done.length], (vec ++ done)[2 * done.length + 1],
    (vec ++ done).drop (2 * done.length + 1 + 1), ?_, List.getElem?_eq_getElem hfirst,
    List.getElem?_eq_getElem hsecond⟩
  rw [List.drop_eq_getElem_cons hfirst, List.drop_eq_getElem_cons hsecond]

variable {total : List R -> R}

/-- The total of the queue is kept when two entries become one. -/
structure IsTotal (op : R -> R -> R) (total : List R -> R) : Prop where
  single : forall x, total [x] = x
  combine : forall a b rest, total (rest ++ [op a b]) = total (a :: b :: rest)

/-- Any body that reads the front of the queue and pushes the combination. -/
structure IsStep (op : R -> R -> R) (vec : List R) (body : Reduction R -> Outcome (Reduction R))
    (j : Nat) : Prop where
  runs : forall s done a b, Reduced vec done s -> done.length = j ->
    (vec ++ done)[2 * j]? = some a -> (vec ++ done)[2 * j + 1]? = some b ->
    body s = s.push (op a b)

structure QueueInvariant (vec : List R) (total : List R -> R) (j : Nat) (s : Reduction R) :
    Prop where
  state : exists done, Reduced vec done s ∧ done.length = j ∧
    total ((vec ++ done).drop (2 * j)) = total vec

theorem QueueInvariant.step (htotal : IsTotal op total) {j : Nat} {s : Reduction R}
    (h : QueueInvariant vec total j s) {body : Reduction R -> Outcome (Reduction R)}
    (hbody : IsStep op vec body j) (hlt : j + 1 < vec.length) :
    exists s', body s = .ok s' ∧ QueueInvariant vec total (j + 1) s' := by
  rcases h.state with ⟨done, hs, hlen, hkept⟩
  rcases front_of_queue (show done.length + 1 < vec.length by omega) with
    ⟨a, b, rest, hqueue, ha, hb⟩
  rw [hlen] at hqueue ha hb
  rcases hs.push (op a b) (by omega) with ⟨s', hs', hreduced⟩
  refine ⟨s', (hbody.runs s done a b hs hlen ha hb).trans hs', ?_⟩
  constructor
  refine ⟨done ++ [op a b], hreduced, by simp [hlen], ?_⟩
  have hrest : (vec ++ (done ++ [op a b])).drop (2 * (j + 1)) = rest ++ [op a b] := by
    have hdrop : 2 * (j + 1) = 2 * j + 2 := by ring
    have hle : 2 * j + 2 <= (vec ++ done).length := by
      rw [List.length_append]
      omega
    rw [<- List.append_assoc, hdrop, List.drop_append_of_le_length hle,
      <- List.drop_drop, hqueue]
    rfl
  rw [hrest, htotal.combine, <- hqueue, hkept]

theorem QueueInvariant.back (htotal : IsTotal op total) {s : Reduction R} {n : Nat}
    (hn : vec.length = n + 2) (h : QueueInvariant vec total (n + 1) s) :
    back s.computed = .ok (some (total vec)) := by
  rcases h.state with ⟨done, hs, hlen, hkept⟩
  rcases List.eq_nil_or_concat done with hnil | ⟨front, last, hlast⟩
  · rw [hnil] at hlen
    cases hlen
  · rw [List.concat_eq_append] at hlast
    have hqueue : (vec ++ done).drop (2 * (n + 1)) = [last] := by
      have hcut : 2 * (n + 1) = (vec ++ front).length := by
        have hfront := congrArg List.length hlast
        simp only [List.length_append, List.length_singleton] at hfront ⊢
        omega
      rw [hlast, <- List.append_assoc, hcut, List.drop_left]
    rw [hqueue, htotal.single] at hkept
    have hcomputed : s.computed = front.map some ++ [some last] := by
      rw [hs.computed, show vec.length - 1 - done.length = 0 by omega, hlast]
      simp
    rw [Foundation.back, hcomputed, List.getLast?_concat, hkept]
    rfl

theorem QueueInvariant.back_null {j : Nat} {s : Reduction R}
    (h : QueueInvariant vec total j s) (hlt : j + 1 < vec.length) :
    Foundation.back s.computed = .ok none := by
  rcases h.state with ⟨done, hs, hlen, -⟩
  have hrest : vec.length - 1 - done.length = vec.length - 2 - done.length + 1 := by omega
  rw [Foundation.back, hs.computed, hrest, List.replicate_succ', <- List.append_assoc,
    List.getLast?_concat]
  rfl

theorem flatStep_isStep (j : Nat) :
    IsStep op vec (fun s => flatStep op vec.length vec s (2 * j)) j := by
  constructor
  intro s done a b hs _ ha hb
  unfold flatStep
  rw [hs.operand ha, hs.operand hb]
  rfl

theorem flatLoop_back (htotal : IsTotal op total) {n : Nat} (hn : vec.length = n + 2) :
    exists s, flatLoop op vec.length vec (vec.length * 2 - 2) = .ok s ∧
      back s.computed = .ok (some (total vec)) := by
  have hcount : (vec.length * 2 - 2 + 1) / 2 = n + 1 := by omega
  rcases foldlM_range_ok (QueueInvariant vec total) (n := n + 1)
    (f := fun s t => flatStep op vec.length vec s (2 * t))
    (s := Reduction.empty R vec.length) ⟨[], Reduced.empty vec, rfl, by simp⟩
    (fun j hj s hs => hs.step htotal (flatStep_isStep j) (by omega)) with ⟨s, hrun, hs⟩
  refine ⟨s, ?_, hs.back htotal hn⟩
  unfold flatLoop
  rw [hcount]
  exact hrun

end Queue

section FlatReductions

variable {R : Type _} [CommRing R]

theorem sum_isTotal : IsTotal (fun a b : R => a + b) List.sum where
  single x := by simp
  combine a b rest := by
    simp only [List.sum_append, List.sum_cons, List.sum_nil]
    ring

theorem prod_isTotal : IsTotal (fun a b : R => a * b) List.prod where
  single x := by simp
  combine a b rest := by
    simp only [List.prod_append, List.prod_cons, List.prod_nil]
    ring

theorem evalAddMany_sum {vec : List R} (hne : vec ≠ []) :
    evalAddMany vec = .ok (some vec.sum) := by
  cases vec with
  | nil => exact absurd rfl hne
  | cons x rest =>
      cases rest with
      | nil => simp [evalAddMany, entry, orUndefined]
      | cons y rest =>
          have hcount : (x :: y :: rest).length = rest.length + 2 := rfl
          rcases flatLoop_back sum_isTotal hcount with
            ⟨s, hrun, hback⟩
          unfold evalAddMany
          rw [if_neg (by simp), if_neg (by simp)]
          simp only [hrun, ok_bind]
          exact hback

theorem evalMultMany_prod {vec : List R} {n : Nat} (hn : vec.length = n + 2) :
    evalMultMany vec = .ok (some vec.prod) := by
  rcases flatLoop_back (n := n) prod_isTotal hn with ⟨s, hrun, hback⟩
  unfold evalMultMany
  rw [if_neg (by omega)]
  simp only [hrun, ok_bind]
  exact hback

theorem evalMultMany_single (x : R) : evalMultMany [x] = .error .undefined := by
  simp [evalMultMany, flatLoop, Reduction.empty, back, orUndefined]

/-- The products of the CKKS version before those of two results. -/
def firstProducts (inSize : Nat) (vec : List R) : Outcome (Reduction R) := do
  let s <- (List.range (inSize / 2)).foldlM (fun s t => inputStep vec s (2 * t))
    (Reduction.empty R inSize)
  if 2 * (inSize / 2) < inSize then mixedStep inSize vec s (2 * (inSize / 2)) else return s

theorem firstProducts_spec {vec : List R} {m : Nat} (hm : 2 <= m) (hle : m <= vec.length) :
    exists s, firstProducts m vec = .ok s ∧
      QueueInvariant (vec.take m) List.prod ((m + 1) / 2) s := by
  have hlen : (vec.take m).length = m := by simp [hle]
  have hread : forall (done : List R) (i : Nat) a, i < m -> (vec.take m ++ done)[i]? = some a ->
      entry vec i = .ok a := by
    intro done i a hi ha
    rw [List.getElem?_append_left (by omega), List.getElem?_take_of_lt hi] at ha
    exact entry_ok ha
  have hinit : QueueInvariant (vec.take m) List.prod 0 (Reduction.empty R m) := by
    constructor
    refine ⟨[], ?_, rfl, by simp⟩
    have hempty := Reduced.empty (vec.take m)
    rwa [hlen] at hempty
  rcases foldlM_range_ok (QueueInvariant (vec.take m) List.prod) (n := m / 2)
    (f := fun s t => inputStep vec s (2 * t)) (s := Reduction.empty R m) hinit
    (by
      intro j hj s hs
      apply hs.step prod_isTotal ⟨?_⟩ (by omega)
      intro s done a b hred _ ha hb
      unfold inputStep
      rw [hread done _ a (by omega) ha, hread done _ b (by omega) hb]
      rfl) with ⟨s, hrun, hs⟩
  by_cases hodd : 2 * (m / 2) < m
  · have hhalf : (m + 1) / 2 = m / 2 + 1 := by omega
    have hmixed : IsStep (fun a b : R => a * b) (vec.take m)
        (fun s => mixedStep m vec s (2 * (m / 2))) (m / 2) := by
      constructor
      intro s done a b hred _ ha hb
      rw [List.getElem?_append_right (by omega), hlen] at hb
      unfold mixedStep
      rw [hread done _ a hodd ha, hred.load hb]
      rfl
    rcases hs.step prod_isTotal hmixed (by omega) with ⟨s', hs', hinv⟩
    refine ⟨s', ?_, hhalf ▸ hinv⟩
    unfold firstProducts
    rw [hrun, ok_bind, if_pos hodd]
    exact hs'
  · have hhalf : (m + 1) / 2 = m / 2 := by omega
    refine ⟨s, ?_, hhalf ▸ hs⟩
    unfold firstProducts
    rw [hrun, ok_bind, if_neg hodd]
    rfl

theorem evalMultManyCKKS_eq {vec : List R} {m : Nat} (hm : vec.length % 2 ^ 32 = m)
    (htwo : 2 <= m) :
    evalMultManyCKKS vec = (do
      let s <- firstProducts m vec
      let i := 2 * ((m + 1) / 2)
      let s <- (List.range (((m * 2 + 2 ^ 32 - 2) % 2 ^ 32 - i + 1) / 2)).foldlM
        (fun s t => resultStep m s (i + 2 * t)) s
      back s.computed) := by
  have hi : (if 2 * (m / 2) < m then 2 * (m / 2) + 2 else 2 * (m / 2)) = 2 * ((m + 1) / 2) := by
    split <;> omega
  unfold evalMultManyCKKS firstProducts
  simp only [hm, hi]
  rw [if_neg (by omega), if_neg (by omega), bind_assoc]

theorem evalMultManyCKKS_prod {vec : List R} {m : Nat} (hm : vec.length % 2 ^ 32 = m)
    (htwo : 2 <= m) (hfits : m <= 2 ^ 31) :
    evalMultManyCKKS vec = .ok (some (vec.take m).prod) := by
  have hle : m <= vec.length := hm ▸ Nat.mod_le _ _
  have hlen : (vec.take m).length = m := by simp [hle]
  have hlim : ((m * 2 + 2 ^ 32 - 2) % 2 ^ 32 - 2 * ((m + 1) / 2) + 1) / 2 =
      m - 1 - (m + 1) / 2 := by omega
  rcases firstProducts_spec htwo hle with ⟨s, hfirst, hs⟩
  rcases foldlM_range_ok (n := m - 1 - (m + 1) / 2) (s := s)
    (fun t => QueueInvariant (vec.take m) List.prod ((m + 1) / 2 + t))
    (f := fun s t => resultStep m s (2 * ((m + 1) / 2) + 2 * t)) hs
    (by
      intro t ht s hs
      apply hs.step prod_isTotal ⟨?_⟩ (by omega)
      intro s done a b hred _ ha hb
      rw [Nat.mul_add] at ha hb
      rw [List.getElem?_append_right (by omega), hlen] at ha hb
      unfold resultStep
      rw [hred.load ha, hred.load hb]
      rfl) with ⟨s', hrun, hs'⟩
  have hcount : (m + 1) / 2 + (m - 1 - (m + 1) / 2) = m - 2 + 1 := by omega
  rw [hcount] at hs'
  have hback := hs'.back prod_isTotal (hlen.trans (by omega))
  rw [evalMultManyCKKS_eq hm htwo, hfirst]
  simp only [ok_bind, hlim, hrun]
  exact hback

/-- Above `2 ^ 31` inputs the limit wraps, and the last result is never computed. -/
theorem evalMultManyCKKS_null {vec : List R} {m : Nat} (hm : vec.length % 2 ^ 32 = m)
    (hlarge : 2 ^ 31 < m) : evalMultManyCKKS vec = .ok none := by
  have hword : m < 2 ^ 32 := hm ▸ Nat.mod_lt _ (by decide)
  have hle : m <= vec.length := hm ▸ Nat.mod_le _ _
  have hlen : (vec.take m).length = m := by simp [hle]
  have hlim : ((m * 2 + 2 ^ 32 - 2) % 2 ^ 32 - 2 * ((m + 1) / 2) + 1) / 2 = 0 := by omega
  rcases firstProducts_spec (by omega) hle with ⟨s, hfirst, hs⟩
  rw [evalMultManyCKKS_eq hm (by omega), hfirst]
  simp only [ok_bind, hlim]
  exact hs.back_null (by omega)

theorem evalMultManyCKKS_result {vec : List R} {m : Nat} (hm : vec.length % 2 ^ 32 = m)
    {x : R} (hx : evalMultManyCKKS vec = .ok (some x)) :
    m <= 2 ^ 31 ∧ x = (vec.take m).prod := by
  rcases Nat.lt_or_ge (2 ^ 31) m with hlarge | hfits
  · rw [evalMultManyCKKS_null hm hlarge] at hx
    cases hx
  · refine ⟨hfits, ?_⟩
    rcases Nat.lt_or_ge m 2 with hlt | htwo
    · cases vec with
      | nil =>
          cases hx
      | cons y rest =>
          unfold evalMultManyCKKS at hx
          simp only [hm] at hx
          rcases Nat.lt_or_ge 0 m with hpos | hzero
          · rw [if_neg (by omega), if_pos (by omega)] at hx
            cases hx
            rw [show m = 1 by omega]
            simp
          · rw [if_pos (by omega)] at hx
            cases hx
    · rw [evalMultManyCKKS_prod hm htwo hfits] at hx
      cases hx
      rfl

end FlatReductions

/-!
## Doubling strides
-/

section Strides

variable {R : Type _} [CommRing R]

/-- A null pointer and a position outside of the vector count as zero. -/
def value (vec : List (Option R)) (i : Nat) : R :=
  (vec.getD i none).getD 0

theorem value_of_le {vec : List (Option R)} {i : Nat} (h : vec.length <= i) :
    value vec i = 0 := by
  rw [value, List.getD_eq_default vec none h]
  rfl

theorem value_of_getElem? {vec : List (Option R)} {i : Nat} {p : Option R}
    (h : vec[i]? = some p) : value vec i = p.getD 0 := by
  rw [value, List.getD_eq_getElem?_getD, h]
  rfl

theorem value_set {vec : List (Option R)} {i : Nat} (hi : i < vec.length) (x : R) (k : Nat) :
    value (vec.set i (some x)) k = if k = i then x else value vec k := by
  by_cases hk : k = i
  · rw [if_pos hk, hk, value_of_getElem? (List.getElem?_set_self hi)]
    rfl
  · rw [if_neg hk, value, value, List.getD_eq_getElem?_getD, List.getD_eq_getElem?_getD,
      List.getElem?_set_ne (fun h => hk h.symm)]

def KeepsPointers (vec vec' : List (Option R)) : Prop :=
  forall (k : Nat) x, vec[k]? = some (some x) -> exists y, vec'[k]? = some (some y)

omit [CommRing R] in
theorem keepsPointers_set (vec : List (Option R)) (i : Nat) (x : R) :
    KeepsPointers vec (vec.set i (some x)) := by
  intro k y hy
  by_cases hk : i = k
  · have hlt := (List.getElem?_eq_some_iff.mp hy).1
    exact ⟨x, by rw [hk, List.getElem?_set_self hlt]⟩
  · exact ⟨y, by rw [List.getElem?_set_ne hk, hy]⟩

structure AddsAt (j i : Nat) (vec vec' : List (Option R)) : Prop where
  length : vec'.length = vec.length
  pointers : KeepsPointers vec vec'
  values : forall k, value vec' k =
    if k = i then value vec i + value vec (i + j) else value vec k

theorem AddsAt.of_set {j i : Nat} {vec : List (Option R)} {x : R} (hi : i < vec.length)
    (hx : x = value vec i + value vec (i + j)) : AddsAt j i vec (vec.set i (some x)) := by
  constructor
  · exact List.length_set
  · exact keepsPointers_set vec i x
  · intro k
    rw [value_set hi, hx]

theorem AddsAt.of_zero {j i : Nat} {vec : List (Option R)} (hx : value vec (i + j) = 0) :
    AddsAt j i vec vec := by
  constructor
  · rfl
  · intro k x hkx
    exact ⟨x, hkx⟩
  · intro k
    by_cases hk : k = i
    · rw [if_pos hk, hx, hk, add_zero]
    · rw [if_neg hk]

theorem addStride_spec {j i : Nat} {vec : List (Option R)} (hi : i < vec.length) :
    exists vec', addStride j vec i = .ok vec' ∧ AddsAt j i vec vec' := by
  unfold addStride
  rcases Nat.lt_or_ge (i + j) vec.length with hlt | hge
  · have hlow := List.getElem?_eq_getElem hi
    have hhigh := List.getElem?_eq_getElem hlt
    rw [if_pos hlt, entry_ok hlow, entry_ok hhigh]
    simp only [ok_bind]
    cases hb : vec[i + j] with
    | none =>
        refine ⟨vec, ?_, AddsAt.of_zero ?_⟩
        · cases vec[i] <;> rfl
        · rw [value_of_getElem? hhigh, hb]
          rfl
    | some b =>
        cases ha : vec[i] with
        | none =>
            refine ⟨vec.set i (some b), store_ok _ hi, AddsAt.of_set hi ?_⟩
            rw [value_of_getElem? hlow, value_of_getElem? hhigh, ha, hb]
            exact (zero_add b).symm
        | some a =>
            refine ⟨vec.set i (some (a + b)), store_ok _ hi, AddsAt.of_set hi ?_⟩
            rw [value_of_getElem? hlow, value_of_getElem? hhigh, ha, hb]
            rfl
  · rw [if_neg (by omega)]
    exact ⟨vec, rfl, AddsAt.of_zero (value_of_le hge)⟩

/-- The vector after the first `t` positions of a round. -/
structure RoundInvariant (j : Nat) (vec : List (Option R)) (t : Nat) (v : List (Option R)) :
    Prop where
  length : v.length = vec.length
  pointers : KeepsPointers vec v
  added : forall s, s < t -> value v (2 * j * s) =
    value vec (2 * j * s) + value vec (2 * j * s + j)
  others : forall k, (forall s, s < t -> k ≠ 2 * j * s) -> value v k = value vec k

theorem RoundInvariant.step {j t : Nat} {vec v : List (Option R)} (hj : 0 < j)
    (h : RoundInvariant j vec t v) (hlt : 2 * j * t < vec.length) :
    exists v', addStride j v (2 * j * t) = .ok v' ∧ RoundInvariant j vec (t + 1) v' := by
  have hbelow : forall s, s < t -> 2 * j * s < 2 * j * t := by
    intro s hs
    exact Nat.mul_lt_mul_of_pos_left hs (by omega)
  have hfits : 2 * j * t < v.length := h.length.symm ▸ hlt
  rcases @addStride_spec R _ j _ v hfits with ⟨v', hv', hadds⟩
  refine ⟨v', hv', ?_⟩
  constructor
  · exact hadds.length.trans h.length
  · intro k x hx
    rcases h.pointers k x hx with ⟨y, hy⟩
    exact hadds.pointers k y hy
  · intro s hs
    rw [hadds.values]
    rcases Nat.lt_succ_iff_lt_or_eq.mp hs with hst | hst
    · rw [if_neg (hbelow s hst).ne]
      exact h.added s hst
    · rw [if_pos (by rw [hst]), hst,
        h.others _ (fun s hs => (hbelow s hs).ne'),
        h.others _ (fun s hs => by have := hbelow s hs; omega)]
  · intro k hk
    rw [hadds.values, if_neg (hk t (Nat.lt_succ_self t))]
    exact h.others k fun s hs => hk s (Nat.lt_succ_of_lt hs)

theorem addRound_spec {j : Nat} (hj : 0 < j) (vec : List (Option R)) :
    exists v, addRound j vec = .ok v ∧ v.length = vec.length ∧ KeepsPointers vec v ∧
      forall s, value v (2 * j * s) = value vec (2 * j * s) + value vec (2 * j * s + j) := by
  have hcount : forall t, t < (vec.length + 2 * j - 1) / (2 * j) -> 2 * j * t < vec.length := by
    intro t ht
    have hle : 2 * j * (t + 1) <= vec.length + 2 * j - 1 :=
      (Nat.mul_comm _ _).trans_le ((Nat.le_div_iff_mul_le (by omega)).mp ht)
    rw [Nat.mul_succ] at hle
    omega
  have hinit : RoundInvariant j vec 0 vec := by
    constructor
    · rfl
    · intro k x hx
      exact ⟨x, hx⟩
    · intro s hs
      exact absurd hs (Nat.not_lt_zero s)
    · intro k _
      rfl
  rcases foldlM_range_ok (RoundInvariant j vec) (f := fun v t => addStride j v (2 * j * t)) hinit
    (fun t ht v hv => hv.step hj (hcount t ht)) with ⟨v, hrun, hv⟩
  refine ⟨v, hrun, hv.length, hv.pointers, ?_⟩
  intro s
  rcases Nat.lt_or_ge s ((vec.length + 2 * j - 1) / (2 * j)) with hs | hs
  · exact hv.added s hs
  · have hout : vec.length <= 2 * j * s := by
      by_contra hlt
      have hle : 2 * j * (s + 1) <= vec.length + 2 * j - 1 := by
        rw [Nat.mul_succ]
        omega
      exact absurd ((Nat.le_div_iff_mul_le (show 0 < 2 * j by omega)).mpr
        ((Nat.mul_comm _ _).trans_le hle)) (not_le.mpr (Nat.lt_succ_of_le hs))
    rw [value_of_le (hv.length.symm ▸ hout), value_of_le hout, value_of_le (by omega), add_zero]

def strideSum (vec : List (Option R)) (j : Nat) : R :=
  ∑ s ∈ Finset.range vec.length, value vec (j * s)

theorem strideSum_eq {vec : List (Option R)} {j n : Nat} (hj : 0 < j) (hn : vec.length <= n) :
    strideSum vec j = ∑ s ∈ Finset.range n, value vec (j * s) := by
  apply Finset.sum_subset (Finset.range_mono hn)
  intro s _ hs
  have hle : vec.length <= s := not_lt.mp fun h => hs (Finset.mem_range.mpr h)
  exact value_of_le (hle.trans (Nat.le_mul_of_pos_left s hj))

theorem strideSum_round {j : Nat} (hj : 0 < j) {vec v : List (Option R)}
    (hlen : v.length = vec.length)
    (hadded : forall s, value v (2 * j * s) =
      value vec (2 * j * s) + value vec (2 * j * s + j)) :
    strideSum v (j * 2) = strideSum vec j := by
  rw [strideSum_eq hj (show vec.length <= 2 * vec.length by omega), sum_range_pairs, strideSum,
    hlen]
  apply Finset.sum_congr rfl
  intro s _
  rw [Nat.mul_comm j 2, hadded s, show j * (2 * s) = 2 * j * s by ring,
    show j * (2 * s + 1) = 2 * j * s + j by ring]

theorem strideSum_one (vec : List (Option R)) :
    strideSum vec 1 = (vec.map fun p => p.getD 0).sum := by
  induction vec with
  | nil => rfl
  | cons p vec ih =>
      rw [List.map_cons, List.sum_cons, <- ih, strideSum, List.length_cons,
        Finset.sum_range_succ', add_comm]
      rfl

theorem strideSum_last {vec : List (Option R)} {j : Nat} (hne : 0 < vec.length)
    (hj : vec.length <= j) : strideSum vec j = value vec 0 := by
  rw [strideSum, Finset.sum_eq_single 0]
  · rfl
  · intro s _ hs
    exact value_of_le (hj.trans (Nat.le_mul_of_pos_right j (Nat.pos_of_ne_zero hs)))
  · intro h
    exact absurd (Finset.mem_range.mpr hne) h

theorem evalAddManyInPlace_sum {vec : List (Option R)} {x : R} (hx : vec[0]? = some (some x)) :
    evalAddManyInPlace vec = .ok (vec.map fun p => p.getD 0).sum := by
  have hpos : 0 < vec.length := (List.getElem?_eq_some_iff.mp hx).1
  rcases whileLoop_spec (c := fun s : Nat × List (Option R) => decide (s.1 < s.2.length))
    (f := fun s => do
      let vec <- addRound s.1 s.2
      return (s.1 * 2, vec))
    (fun s => 0 < s.1 ∧ s.2.length = vec.length ∧ strideSum s.2 s.1 = strideSum vec 1 ∧
      exists y, s.2[0]? = some (some y))
    (fun s => vec.length - s.1)
    (by
      rintro ⟨j, v⟩ ⟨hj, hlen, hsum, y, hy⟩ hcond
      have hlt : j < v.length := of_decide_eq_true hcond
      rcases addRound_spec hj v with ⟨v', hv', hlen', hpointers, hadded⟩
      rcases hpointers 0 y hy with ⟨z, hz⟩
      refine ⟨(j * 2, v'), ?_, ⟨Nat.mul_pos hj (by decide), hlen'.trans hlen, ?_, z, hz⟩, ?_⟩
      · simp only [hv', ok_bind]
        rfl
      · exact (strideSum_round hj hlen' hadded).trans hsum
      · have hbelow : j < vec.length := hlen ▸ hlt
        show vec.length - j * 2 < vec.length - j
        omega)
    (vec.length + 1) (1, vec) ⟨Nat.one_pos, rfl, rfl, x, hx⟩
    (Nat.lt_succ_of_le (Nat.sub_le _ _)) with ⟨⟨j, v⟩, hrun, ⟨hj, hlen, hsum, y, hy⟩, hstop⟩
  have hge : v.length <= j := not_lt.mp (of_decide_eq_false hstop)
  have hresult : y = (vec.map fun p => p.getD 0).sum := by
    rw [<- strideSum_one, <- hsum, strideSum_last (hlen.symm ▸ hpos) hge, value_of_getElem? hy]
    rfl
  unfold evalAddManyInPlace
  rw [if_neg (by omega), load_ok hx, ok_bind]
  simp only [hrun, ok_bind]
  rw [load_ok hy, hresult]

end Strides

/-!
## All reductions
-/

/-- The sums of `n` ciphertexts, of which none is null. -/
structure SumsUp (n : Nat) : Prop where
  addMany : forall (R : Type) [CommRing R] (vec : List R), vec.length = n ->
    evalAddMany vec = .ok (some vec.sum)
  addManyInPlace : forall (R : Type) [CommRing R] (vec : List R), vec.length = n ->
    evalAddManyInPlace (vec.map some) = .ok vec.sum

structure ReducesTrees (n : Nat) : Prop extends SumsUp n where
  multMany : forall (R : Type) [CommRing R] (vec : List R), vec.length = n ->
    evalMultMany vec = .ok (some vec.prod)
  multManyCKKS : forall (R : Type) [CommRing R] (vec : List R), vec.length = n ->
    evalMultManyCKKS vec = .ok (some vec.prod)

theorem sumsUp_of_pos {n : Nat} (hn : 0 < n) : SumsUp n := by
  constructor
  · intro R _ vec hlen
    exact evalAddMany_sum (List.ne_nil_of_length_pos (by omega))
  · intro R _ vec hlen
    have hfirst : (vec.map some)[0]? = some (some (vec.get ⟨0, by omega⟩)) := by
      rw [List.getElem?_map, List.getElem?_eq_getElem (by omega)]
      rfl
    rw [evalAddManyInPlace_sum hfirst, List.map_map]
    exact congrArg (fun v => Except.ok (List.sum v)) (List.map_id vec)

theorem evalMultManyCKKS_all {R : Type _} [CommRing R] {vec : List R} (hne : 0 < vec.length)
    (hfits : vec.length <= 2 ^ 31) : evalMultManyCKKS vec = .ok (some vec.prod) := by
  have hmod : vec.length % 2 ^ 32 = vec.length := Nat.mod_eq_of_lt (by omega)
  rcases Nat.lt_or_ge 1 vec.length with htwo | hone
  · rw [evalMultManyCKKS_prod hmod htwo hfits, List.take_length]
  · rcases List.length_eq_one_iff.mp (show vec.length = 1 by omega) with ⟨x, rfl⟩
    simp [evalMultManyCKKS, entry, orUndefined]

theorem not_reducesTrees_one : ¬ ReducesTrees 1 := by
  intro h
  have hone := h.multMany Int [7] rfl
  rw [evalMultMany_single] at hone
  cases hone

theorem treeReductions_iff {n : Nat} (hn : 0 < n) :
    SumsUp n ∧ (ReducesTrees n <-> 2 <= n ∧ n <= 2 ^ 31) := by
  refine ⟨sumsUp_of_pos hn, ?_⟩
  constructor
  · intro h
    constructor
    · by_contra hlt
      cases (show n = 1 by omega)
      exact not_reducesTrees_one h
    · have hresult := h.multManyCKKS Int (List.replicate n 2) List.length_replicate
      rcases evalMultManyCKKS_result (m := n % 2 ^ 32) (by rw [List.length_replicate])
        hresult with ⟨hfits, hprod⟩
      rw [List.take_replicate, List.prod_replicate, List.prod_replicate,
        Nat.min_eq_left (Nat.mod_le _ _)] at hprod
      have hpow : (2 : Nat) ^ n = 2 ^ (n % 2 ^ 32) := by exact_mod_cast hprod
      exact (Nat.pow_right_injective le_rfl hpow).trans_le hfits
  · rintro ⟨htwo, hfits⟩
    constructor
    · exact sumsUp_of_pos hn
    · intro R _ vec hlen
      exact evalMultMany_prod (n := n - 2) (by omega)
    · intro R _ vec hlen
      exact evalMultManyCKKS_all (by omega) (by omega)

theorem treeReductions_three : ReducesTrees 3 :=
  (treeReductions_iff (show 0 < 3 by decide)).2.mpr ⟨by decide, by decide⟩

theorem evalMultMany_one : evalMultMany [(7 : Int)] = .error .undefined ∧ ¬ ReducesTrees 1 :=
  ⟨evalMultMany_single 7, not_reducesTrees_one⟩

end TreeReduction
end Scheme
end OpenFHE
