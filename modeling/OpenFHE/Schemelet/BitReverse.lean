import OpenFHE.Foundation.BitReversal
import OpenFHE.Foundation.Loop
import OpenFHE.Foundation.SwapReversal

/-!
# Bit reversal of a vector

The loops count with the reversed index: from the top bit on, ones are cleared until a zero is
found and set.  The vector is permuted as one block or as two halves.
-/

namespace OpenFHE
namespace Schemelet

open Foundation

variable {α : Type _}

/-- `for (; j >= base + bit; bit >>= 1) j -= bit`; with no bit left it would not end. -/
def carryLoop (base : Nat) : Nat -> Nat -> Nat -> Option (Nat × Nat)
  | 0, _, _ => none
  | fuel + 1, j, bit =>
      if base + bit <= j then carryLoop base fuel (j - bit) (bit >>> 1) else some (j, bit)

def bitReverseStep (base size : Nat) (s : List α × Nat) (i : Nat) : Option (List α × Nat) := do
  let (j, bit) <- carryLoop base 33 s.2 (size >>> 1)
  let j := j + bit
  let vals <- if i < j then swapEntries s.1 i j else some s.1
  return (vals, j)

/-- The loop over the block of length `size` from `base` on. -/
def bitReverseBlock (base size : Nat) (vals : List α) : Option (List α) :=
  ((List.range' (base + 1) (size - 1)).foldlM (bitReverseStep base size) (vals, base)).map
    Prod.fst

/-- `BitReverse` -/
def bitReverseVector (vals : List α) : Option (List α) := bitReverseBlock 0 vals.length vals

def bitReverseTwoHalves (vals : List α) : Option (List α) := do
  let size := vals.length / 2
  let vals <- bitReverseBlock 0 size vals
  bitReverseBlock size size vals

/-! ## The reversed counter -/

/-- The loop finds the bit that turns the reversal of `i` into the one of `i + 1`. -/
theorem carryLoop_spec (base : Nat) {k i : Nat} (hi : i + 1 < 2 ^ (k + 1)) {fuel : Nat}
    (hfuel : k < fuel) :
    exists j bit, carryLoop base fuel (base + bitReverse (k + 1) i) (2 ^ k) = some (j, bit) ∧
      j + bit = base + bitReverse (k + 1) (i + 1) := by
  induction k generalizing i fuel with
  | zero =>
      cases fuel with
      | zero => omega
      | succ fuel =>
          have hzero : i = 0 := by omega
          subst hzero
          refine ⟨base, 1, ?_, ?_⟩
          · rw [carryLoop, bitReverse_zero, if_neg (by omega)]
            rfl
          · rfl
  | succ k ih =>
      cases fuel with
      | zero => omega
      | succ fuel =>
          have hlt := bitReverse_lt (k + 1) (i / 2)
          rw [bitReverse_succ (k + 1) i, bitReverse_succ (k + 1) (i + 1), carryLoop]
          rcases Nat.mod_two_eq_zero_or_one i with heven | hodd
          · refine ⟨base + bitReverse (k + 1) (i / 2), 2 ^ (k + 1), ?_, ?_⟩
            · rw [heven, Nat.zero_mul, Nat.zero_add, if_neg (by omega)]
            · rw [show (i + 1) % 2 = 1 by omega, show (i + 1) / 2 = i / 2 by omega]
              omega
          · have hhalf : i / 2 + 1 < 2 ^ (k + 1) := by
              rw [pow_succ] at hi
              omega
            have hbit : 2 ^ (k + 1) >>> 1 = 2 ^ k := by
              rw [Nat.shiftRight_eq_div_pow, pow_one, pow_succ, Nat.mul_div_cancel _ (by decide)]
            have hclear : base + (1 * 2 ^ (k + 1) + bitReverse (k + 1) (i / 2)) - 2 ^ (k + 1) =
                base + bitReverse (k + 1) (i / 2) := by omega
            rcases ih hhalf (show k < fuel by omega) with ⟨j, bit, hrun, hnext⟩
            refine ⟨j, bit, ?_, ?_⟩
            · rw [hodd, if_pos (by omega), hclear, hbit, hrun]
            · rw [show (i + 1) % 2 = 0 by omega, show (i + 1) / 2 = i / 2 + 1 by omega, hnext]
              omega

/-! ## The permutation -/

section Block

variable {k : Nat} (hk : k <= 32) (base : Nat) {xs : List α}

include hk

theorem bitReverseStep_eq {t : Nat} (ht : t + 1 < 2 ^ k) (ys : List α) :
    bitReverseStep base (2 ^ k) (ys, base + bitReverse k t) (base + 1 + t) =
      (swapStep (bitReverse k) base ys (t + 1)).map fun zs =>
        (zs, base + bitReverse k (t + 1)) := by
  cases k with
  | zero =>
      rw [pow_zero] at ht
      omega
  | succ k =>
      have hbit : 2 ^ (k + 1) >>> 1 = 2 ^ k := by
        rw [Nat.shiftRight_eq_div_pow, pow_one, pow_succ, Nat.mul_div_cancel _ (by decide)]
      rcases carryLoop_spec base ht (show k < 33 by omega) with ⟨j, bit, hrun, hnext⟩
      have hindex : base + 1 + t = base + (t + 1) := by omega
      unfold bitReverseStep swapStep
      simp only [hbit, hrun, Option.bind_eq_bind, Option.bind_some, hnext, hindex]
      by_cases hlt : t + 1 < bitReverse (k + 1) (t + 1)
      · rw [if_pos (by omega), if_pos hlt]
        cases swapEntries ys (base + (t + 1)) (base + bitReverse (k + 1) (t + 1)) <;> rfl
      · rw [if_neg (by omega), if_neg hlt]
        rfl

theorem bitReverseBlock_spec (hfits : base + 2 ^ k <= xs.length) :
    exists ys, bitReverseBlock base (2 ^ k) xs = some ys ∧
      SwappedUpTo (bitReverse k) base (2 ^ k) (2 ^ k) xs ys := by
  have hpos := Nat.two_pow_pos k
  have hrange (i : Nat) (_ : i < 2 ^ k) : bitReverse k i < 2 ^ k := bitReverse_lt k i
  have hinvolution (i : Nat) (hi : i < 2 ^ k) : bitReverse k (bitReverse k i) = i :=
    bitReverse_bitReverse k hi
  -- index zero is its own reversal, so that the loop may begin at one
  have hstart : SwappedUpTo (bitReverse k) base (2 ^ k) (0 + 1) xs xs := by
    apply swappedUpTo_start
    intro m hm
    unfold swapSource
    split
    next hmoved =>
      rcases hmoved with hzero | hzero
      · have hm0 : m = 0 := by omega
        rw [hm0, bitReverse_zero]
      · have himage : bitReverse k m = 0 := by omega
        have hback := hinvolution m hm
        rw [himage, bitReverse_zero] at hback
        rw [himage, hback]
    next => rfl
  rcases foldlM_range'_spec (f := bitReverseStep base (2 ^ k)) (n := 2 ^ k - 1) (s := (xs, base))
    (base + 1)
    (fun t s => SwappedUpTo (bitReverse k) base (2 ^ k) (t + 1) xs s.1 ∧
      s.2 = base + bitReverse k t)
    ⟨hstart, by rw [bitReverse_zero]; rfl⟩ (by
      intro t ht s hs
      rcases s with ⟨ys, j⟩
      rcases hs with ⟨hys, hj⟩
      rcases hys.step hrange hinvolution hfits (show t + 1 < 2 ^ k by omega) with ⟨zs, hzs, hnext⟩
      refine ⟨(zs, base + bitReverse k (t + 1)), ?_, hnext, rfl⟩
      dsimp only at hj
      rw [hj, bitReverseStep_eq hk base (by omega), hzs]
      rfl) with ⟨s, hs, hswapped, _⟩
  refine ⟨s.1, ?_, ?_⟩
  · rw [bitReverseBlock, hs]
    rfl
  · have hlast : 2 ^ k - 1 + 1 = 2 ^ k := by omega
    rw [hlast] at hswapped
    exact hswapped

end Block

/-! ## Reversing twice -/

/-- The operation moves the entries of a vector, and a second run moves them back. -/
structure Reorders (f : List α -> Option (List α)) (xs ys : List α) : Prop where
  forward : f xs = some ys
  back : f ys = some xs
  length_eq : ys.length = xs.length
  mem : forall y, y ∈ ys -> y ∈ xs

theorem bitReverseVector_reorders {k : Nat} (hk : k <= 32) {xs : List α}
    (hlength : xs.length = 2 ^ k) : exists ys, Reorders bitReverseVector xs ys := by
  have hfits : 0 + 2 ^ k <= xs.length := by omega
  rcases bitReverseBlock_spec hk 0 hfits with ⟨ys, hys, hswapped⟩
  rw [← hswapped.length_eq] at hfits
  rcases bitReverseBlock_spec hk 0 hfits with ⟨zs, hzs, hback⟩
  refine ⟨ys, ?_, ?_, hswapped.length_eq, fun y hy => hswapped.mem hy⟩
  · rw [bitReverseVector, hlength, hys]
  · rw [bitReverseVector, hswapped.length_eq, hlength, hzs,
      hswapped.restores (fun i _ => bitReverse_lt k i) (fun i hi => bitReverse_bitReverse k hi)
        hback]

theorem bitReverseTwoHalves_blocks {k : Nat} (hk : k <= 32) {xs : List α}
    (hlength : xs.length = 2 ^ (k + 1)) :
    exists ys zs, bitReverseTwoHalves xs = some zs ∧
      SwappedUpTo (bitReverse k) 0 (2 ^ k) (2 ^ k) xs ys ∧
      SwappedUpTo (bitReverse k) (2 ^ k) (2 ^ k) (2 ^ k) ys zs := by
  have hhalf : xs.length / 2 = 2 ^ k := by
    rw [hlength, pow_succ, Nat.mul_div_cancel _ (by decide)]
  rw [pow_succ] at hlength
  have hfits : 0 + 2 ^ k <= xs.length := by omega
  have hfits' : 2 ^ k + 2 ^ k <= xs.length := by omega
  rcases bitReverseBlock_spec hk 0 hfits with ⟨ys, hys, hlower⟩
  rw [← hlower.length_eq] at hfits'
  rcases bitReverseBlock_spec hk (2 ^ k) hfits' with ⟨zs, hzs, hupper⟩
  refine ⟨ys, zs, ?_, hlower, hupper⟩
  unfold bitReverseTwoHalves
  simp only [hhalf, hys, Option.bind_eq_bind, Option.bind_some, hzs]

theorem bitReverseTwoHalves_reorders {k : Nat} (hk : k <= 32) {xs : List α}
    (hlength : xs.length = 2 ^ (k + 1)) : exists ys, Reorders bitReverseTwoHalves xs ys := by
  have hrange (i : Nat) := bitReverse_lt k i
  have hinvolution (i : Nat) (hi : i < 2 ^ k) := bitReverse_bitReverse k hi
  rcases bitReverseTwoHalves_blocks hk hlength with ⟨ys, zs, hrun, hlower, hupper⟩
  have hsame : zs.length = xs.length := hupper.length_eq.trans hlower.length_eq
  rcases bitReverseTwoHalves_blocks hk (hsame.trans hlength) with
    ⟨us, vs, hback, hlower', hupper'⟩
  refine ⟨zs, hrun, ?_, hsame, fun z hz => hlower.mem (hupper.mem hz)⟩
  rw [hback]
  apply congrArg some
  apply List.ext_getElem?
  intro i
  rcases Nat.lt_or_ge i (2 ^ k) with hlow | hhigh
  · -- the runs over the upper half leave the index alone
    have hfirst := hlower.permuted (hrange i)
    have hsecond := hlower'.permuted hlow
    rw [hinvolution i hlow] at hfirst
    rw [Nat.zero_add] at hfirst hsecond
    rw [Nat.zero_add] at hfirst hsecond
    rw [hupper'.outside i (Or.inl hlow), hsecond,
      hupper.outside _ (Or.inl (hrange i)), hfirst]
  · rcases Nat.lt_or_ge i (2 ^ k + 2 ^ k) with hin | hout
    · have hm : i - 2 ^ k < 2 ^ k := by omega
      have hfirst := hupper.permuted (hrange (i - 2 ^ k))
      have hsecond := hupper'.permuted hm
      rw [hinvolution _ hm, Nat.add_sub_cancel' hhigh] at hfirst
      rw [Nat.add_sub_cancel' hhigh] at hsecond
      rw [hsecond, hlower'.outside _ (Or.inr (by omega)), hfirst,
        hlower.outside i (Or.inr (by omega))]
    · rw [hupper'.outside i (Or.inr hout), hlower'.outside i (Or.inr (by omega)),
        hupper.outside i (Or.inr hout), hlower.outside i (Or.inr (by omega))]

end Schemelet
end OpenFHE
