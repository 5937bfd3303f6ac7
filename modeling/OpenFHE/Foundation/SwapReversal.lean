import OpenFHE.Foundation.BitReversal
import Mathlib.Data.List.Basic

/-!
# Permutation by swaps

A loop goes through the indices of a block and swaps each one with its image under an
involution when the image is larger.  In the end the block is permuted by the involution, so
that a second run restores it.
-/

namespace OpenFHE
namespace Foundation

variable {α : Type _}

/-- Exchange two entries; an index past the end is out of bounds. -/
def swapEntries (xs : List α) (i j : Nat) : Option (List α) := do
  let x <- xs[i]?
  let y <- xs[j]?
  return (xs.set i y).set j x

/-- Exchange an index of the block with its image when the image is larger. -/
def swapStep (σ : Nat -> Nat) (base : Nat) (xs : List α) (i : Nat) : Option (List α) :=
  if i < σ i then swapEntries xs (base + i) (base + σ i) else some xs

/-- Where the entry at `m` comes from after the indices below `t`. -/
def swapSource (σ : Nat -> Nat) (t m : Nat) : Nat := if m < t ∨ σ m < t then σ m else m

/-- The block of length `n` from `base` on after the indices below `t`. -/
structure SwappedUpTo (σ : Nat -> Nat) (base n t : Nat) (xs ys : List α) : Prop where
  length_eq : ys.length = xs.length
  inside : forall m, m < n -> ys[base + m]? = xs[base + swapSource σ t m]?
  outside : forall i, i < base ∨ base + n <= i -> ys[i]? = xs[i]?

theorem swapEntries_spec {xs : List α} {i j : Nat} (hi : i < xs.length) (hj : j < xs.length) :
    exists ys, swapEntries xs i j = some ys ∧ ys.length = xs.length ∧ ys[i]? = xs[j]? ∧
      ys[j]? = xs[i]? ∧ forall m, m ≠ i -> m ≠ j -> ys[m]? = xs[m]? := by
  have hx := List.getElem?_eq_getElem hi
  have hy := List.getElem?_eq_getElem hj
  refine ⟨(xs.set i xs[j]).set j xs[i], ?_, ?_, ?_, ?_, ?_⟩
  · unfold swapEntries
    rw [hx, hy]
    rfl
  · rw [List.length_set, List.length_set]
  · by_cases heq : j = i
    · subst heq
      rw [List.getElem?_set_self (by rwa [List.length_set]), hx]
    · rw [List.getElem?_set_ne heq, List.getElem?_set_self hi, hy]
  · rw [List.getElem?_set_self (by rwa [List.length_set]), hx]
  · intro m hmi hmj
    rw [List.getElem?_set_ne (Ne.symm hmj), List.getElem?_set_ne (Ne.symm hmi)]

section Swaps

variable {σ : Nat -> Nat} {base n : Nat} (hrange : forall i, i < n -> σ i < n)
  (hinvolution : forall i, i < n -> σ (σ i) = i) {xs : List α} (hfits : base + n <= xs.length)

include hinvolution in
theorem swapSource_succ_of_le {t m : Nat} (ht : t < n) (hm : m < n) (hle : σ t <= t) :
    swapSource σ (t + 1) m = swapSource σ t m := by
  unfold swapSource
  by_cases hmt : m = t
  · subst hmt
    rw [if_pos (by omega)]
    split
    next => rfl
    next => omega
  · by_cases himage : σ m = t
    · have hback := hinvolution m hm
      rw [himage] at hback
      rw [if_pos (by omega), if_pos (by omega)]
    · have hiff : (m < t + 1 ∨ σ m < t + 1) <-> (m < t ∨ σ m < t) := by omega
      rw [if_congr hiff rfl rfl]

include hrange hinvolution hfits

theorem SwappedUpTo.step {t : Nat} {ys : List α} (h : SwappedUpTo σ base n t xs ys) (ht : t < n) :
    exists zs, swapStep σ base ys t = some zs ∧ SwappedUpTo σ base n (t + 1) xs zs := by
  unfold swapStep
  rcases Nat.lt_or_ge t (σ t) with hlt | hle
  · have himage := hrange t ht
    have hback := hinvolution t ht
    have hlength := h.length_eq
    rcases swapEntries_spec (show base + t < ys.length by omega)
      (show base + σ t < ys.length by omega) with
      ⟨zs, hzs, hzsLength, hfirst, hsecond, hother⟩
    refine ⟨zs, ?_, hzsLength.trans hlength, ?_, ?_⟩
    · rw [if_pos hlt, hzs]
    · intro m hm
      -- before the step neither of the two indices has been moved
      by_cases hmt : m = t
      · subst hmt
        rw [hfirst, h.inside (σ m) himage]
        unfold swapSource
        rw [if_neg (by omega), if_pos (by omega)]
      · by_cases hms : m = σ t
        · subst hms
          rw [hsecond, h.inside t ht]
          unfold swapSource
          rw [if_neg (by omega), if_pos (by omega), hback]
        · rw [hother (base + m) (by omega) (by omega), h.inside m hm]
          have hne : σ m ≠ t := by
            intro heq
            have := hinvolution m hm
            rw [heq] at this
            exact hms this.symm
          have hiff : (m < t ∨ σ m < t) <-> (m < t + 1 ∨ σ m < t + 1) := by omega
          unfold swapSource
          rw [if_congr hiff rfl rfl]
    · intro i hi
      rw [hother i (by omega) (by omega), h.outside i hi]
  · refine ⟨ys, ?_, h.length_eq, ?_, h.outside⟩
    · rw [if_neg (by omega)]
    · intro m hm
      rw [h.inside m hm, swapSource_succ_of_le hinvolution ht hm hle]

end Swaps

theorem swappedUpTo_start {σ : Nat -> Nat} {base n t : Nat} (xs : List α)
    (h : forall m, m < n -> swapSource σ t m = m) : SwappedUpTo σ base n t xs xs := by
  constructor
  case length_eq => rfl
  case inside =>
    intro m hm
    rw [h m hm]
  case outside =>
    intro i _
    rfl

theorem SwappedUpTo.permuted {σ : Nat -> Nat} {base n : Nat} {xs ys : List α}
    (h : SwappedUpTo σ base n n xs ys) {m : Nat} (hm : m < n) :
    ys[base + m]? = xs[base + σ m]? := by
  rw [h.inside m hm, swapSource, if_pos (Or.inl hm)]

theorem SwappedUpTo.mem {σ : Nat -> Nat} {base n t : Nat} {xs ys : List α}
    (h : SwappedUpTo σ base n t xs ys) {y : α} (hy : y ∈ ys) : y ∈ xs := by
  rcases List.mem_iff_getElem?.mp hy with ⟨i, hi⟩
  by_cases hin : base <= i ∧ i < base + n
  · have hinside := h.inside (i - base) (by omega)
    rw [Nat.add_sub_cancel' hin.1, hi] at hinside
    exact List.mem_of_getElem? hinside.symm
  · rw [h.outside i (by omega)] at hi
    exact List.mem_of_getElem? hi

theorem SwappedUpTo.restores {σ : Nat -> Nat} {base n : Nat} (hrange : forall i, i < n -> σ i < n)
    (hinvolution : forall i, i < n -> σ (σ i) = i) {xs ys zs : List α}
    (h : SwappedUpTo σ base n n xs ys) (h' : SwappedUpTo σ base n n ys zs) : zs = xs := by
  apply List.ext_getElem?
  intro i
  rcases Nat.lt_or_ge i base with hlow | hhigh
  · rw [h'.outside i (Or.inl hlow), h.outside i (Or.inl hlow)]
  · rcases Nat.lt_or_ge i (base + n) with hin | hout
    · have hm : i - base < n := by omega
      have hfirst := h'.permuted hm
      rw [h.permuted (hrange _ hm), hinvolution _ hm, Nat.add_sub_cancel' hhigh] at hfirst
      exact hfirst
    · rw [h'.outside i (Or.inr hout), h.outside i (Or.inr hout)]

end Foundation
end OpenFHE
