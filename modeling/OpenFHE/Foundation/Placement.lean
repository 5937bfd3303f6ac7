import OpenFHE.Foundation.Loop
import Mathlib.Algebra.Order.BigOperators.Group.List
import Mathlib.Algebra.Order.Ring.Nat
import Mathlib.Algebra.BigOperators.Group.Finset.Basic

/-!
# Rows placed one after another

Two nested loops write the rows of a ragged table into one array, row `i` from
position `start i` on.  When the starts are the partial sums of the row lengths,
every entry keeps its place.
-/

namespace OpenFHE
namespace Foundation

section Placement

variable {α : Type _}

def placeEntry (start : Nat) (row : List α) (result : List α) (j : Nat) : Option (List α) :=
  row[j]?.bind fun x =>
    if j + start < result.length then some (result.set (j + start) x) else none

def placeRow (start : Nat) (result row : List α) : Option (List α) :=
  (List.range row.length).foldlM (placeEntry start row) result

def placeRows (start : Nat -> Nat) (rows : Nat -> Option (List α)) (result : List α)
    (i : Nat) : Option (List α) :=
  (rows i).bind (placeRow (start i) result)

theorem placeRow_spec {start : Nat} {result row : List α}
    (hfit : start + row.length <= result.length) :
    exists r, placeRow start result row = some r ∧ r.length = result.length ∧
      (forall j, j < row.length -> r[start + j]? = row[j]?) ∧
      forall t, t < start -> r[t]? = result[t]? := by
  rcases foldlM_range_spec (n := row.length) (f := placeEntry start row)
    (fun c r => r.length = result.length ∧ (forall j, j < c -> r[start + j]? = row[j]?) ∧
      forall t, t < start -> r[t]? = result[t]?)
    (s := result) ⟨rfl, fun j hj => absurd hj (Nat.not_lt_zero j), fun _ _ => rfl⟩
    (by
      intro c hc r ⟨hlength, hplaced, hkept⟩
      have hrange : c + start < r.length := by omega
      refine ⟨r.set (c + start) row[c], ?_, ?_, ?_, ?_⟩
      · rw [placeEntry, List.getElem?_eq_getElem hc, Option.bind_some, if_pos hrange]
      · rw [List.length_set, hlength]
      · intro j hj
        rcases Nat.lt_or_ge j c with hlt | hge
        · rw [List.getElem?_set_ne (by omega)]
          exact hplaced j hlt
        · have heq : j = c := by omega
          rw [heq, add_comm start, List.getElem?_set_self hrange,
            List.getElem?_eq_getElem hc]
      · intro t ht
        rw [List.getElem?_set_ne (by omega)]
        exact hkept t ht) with ⟨r, hrun, hspec⟩
  exact ⟨r, hrun, hspec⟩

theorem placeRows_spec (start : Nat -> Nat) (rows : Nat -> Option (List α)) {n : Nat}
    (result : List α) (Q : Nat -> List α -> Prop)
    (hrows : forall i, i < n -> exists row, rows i = some row ∧
      start (i + 1) = start i + row.length ∧ Q i row)
    (hlength : result.length = start n) :
    exists r, (List.range n).foldlM (placeRows start rows) result = some r ∧
      r.length = start n ∧
      forall i, i < n -> exists row, Q i row ∧ start (i + 1) = start i + row.length ∧
        forall j, j < row.length -> r[start i + j]? = row[j]? := by
  have hmono : forall d i, i + d <= n -> start i <= start (i + d) := by
    intro d
    induction d with
    | zero => exact fun i _ => le_rfl
    | succ d ih =>
        intro i hi
        rcases hrows (i + d) (by omega) with ⟨row, _, hstart, _⟩
        have hbefore := ih i (by omega)
        rw [← add_assoc, hstart]
        omega
  have hle : forall i, i <= n -> start i <= start n := by
    intro i hi
    have hstep := hmono (n - i) i (by omega)
    rwa [Nat.add_sub_cancel' hi] at hstep
  rcases foldlM_range_spec (n := n) (f := placeRows start rows)
    (fun c r => r.length = start n ∧ forall i, i < c -> exists row, Q i row ∧
      start (i + 1) = start i + row.length ∧
      forall j, j < row.length -> r[start i + j]? = row[j]?)
    (s := result) ⟨hlength, fun i hi => absurd hi (Nat.not_lt_zero i)⟩
    (by
      intro c hc r ⟨hr, hplaced⟩
      rcases hrows c hc with ⟨row, hrow, hstart, hQ⟩
      have hfit : start c + row.length <= r.length := by
        have hnext := hle (c + 1) hc
        omega
      rcases placeRow_spec hfit with ⟨r', hr', hlength', hnew, hkept⟩
      refine ⟨r', ?_, hlength'.trans hr, ?_⟩
      · rw [placeRows, hrow, Option.bind_some, hr']
      · intro i hi
        rcases Nat.lt_or_ge i c with hlt | hge
        · rcases hplaced i hlt with ⟨row', hQ', hstart', hget⟩
          refine ⟨row', hQ', hstart', fun j hj => ?_⟩
          have hbelow := hmono (c - (i + 1)) (i + 1) (by omega)
          rw [Nat.add_sub_cancel' (by omega)] at hbelow
          rw [hkept _ (by omega)]
          exact hget j hj
        · have heq : i = c := by omega
          rw [heq]
          exact ⟨row, hQ, hstart, hnew⟩) with ⟨r, hrun, hspec⟩
  exact ⟨r, hrun, hspec⟩

/-!
## Partial sums of the row lengths
-/

def rowStart (lengths : List Nat) (i : Nat) : Nat := (lengths.take i).sum

theorem rowStart_zero (lengths : List Nat) : rowStart lengths 0 = 0 := rfl

theorem rowStart_succ {lengths : List Nat} {i c : Nat} (hc : lengths[i]? = some c) :
    rowStart lengths (i + 1) = rowStart lengths i + c := by
  rw [rowStart, rowStart, List.take_add_one, hc]
  simp

theorem rowStart_take (lengths : List Nat) {i m : Nat} (hi : i <= m) :
    rowStart (lengths.take m) i = rowStart lengths i := by
  rw [rowStart, rowStart, List.take_take, Nat.min_eq_left hi]

theorem rowStart_mono (lengths : List Nat) {i j : Nat} (hij : i <= j) :
    rowStart lengths i <= rowStart lengths j := by
  have hsub : (lengths.take i).Sublist (lengths.take j) := by
    have htake := List.take_sublist i (lengths.take j)
    rwa [List.take_take, Nat.min_eq_left hij] at htake
  exact hsub.sum_le_sum (fun _ _ => Nat.zero_le _)

theorem exists_row {lengths : List Nat} {i t : Nat} (hi : i <= lengths.length)
    (ht : t < rowStart lengths i) :
    exists i' c j, i' < i ∧ lengths[i']? = some c ∧ j < c ∧ t = rowStart lengths i' + j := by
  induction i with
  | zero =>
      rw [rowStart_zero] at ht
      omega
  | succ i ih =>
      have hc := List.getElem?_eq_getElem (show i < lengths.length by omega)
      rcases Nat.lt_or_ge t (rowStart lengths i) with hlt | hge
      · rcases ih (by omega) hlt with ⟨i', c, j, hi', hrest⟩
        exact ⟨i', c, j, by omega, hrest⟩
      · rw [rowStart_succ hc] at ht
        exact ⟨i, _, t - rowStart lengths i, by omega, hc, by omega, by omega⟩

theorem sum_rows {M : Type _} [AddCommMonoid M] {lengths : List Nat} (f : Nat -> M) {i : Nat}
    (hi : i <= lengths.length) :
    ∑ t ∈ Finset.range (rowStart lengths i), f t =
      ∑ i' ∈ Finset.range i, ∑ j ∈ Finset.range (lengths.getD i' 0),
        f (rowStart lengths i' + j) := by
  induction i with
  | zero => rfl
  | succ i ih =>
      have hc := List.getElem?_eq_getElem (show i < lengths.length by omega)
      rw [rowStart_succ hc, Finset.sum_range_add, Finset.sum_range_succ, ih (by omega),
        List.getD_eq_getElem?_getD, hc, Option.getD_some]

end Placement

end Foundation
end OpenFHE
