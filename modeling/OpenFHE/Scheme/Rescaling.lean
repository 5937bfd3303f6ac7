import OpenFHE.Scheme.Bgvrns.LevelAdjustment
import OpenFHE.Scheme.DecryptionPolynomial

/-!
# Rescaling of all elements

The divisions by the last moduli, on the integers that the elements of a ciphertext stand for.
The loops of CKKS and BFV divide all elements by one modulus after the other, the one of BGV
divides one element after the other.
-/

namespace OpenFHE
namespace Scheme

open OpenFHE.Core Foundation Hal NativeInteger
open Ckksrns (Leveled)

/-! ## Elements -/

section Elements

variable {k : Nat} {psi : Nat -> Nat}

theorem mapM_encodes {source target : List Nat} {format format' : Format}
    {R : (Nat -> Int) -> (Nat -> Int) -> Prop} {f : DCRTPoly -> Option DCRTPoly}
    {xs : List (Nat -> Int)} {cv : List DCRTPoly}
    (h : EncodesAll k psi format source xs cv)
    (hf : forall x c, DCRTPoly.Encodes k psi format source x c ->
      exists y d, f c = some d ∧ DCRTPoly.Encodes k psi format' target y d ∧ R x y) :
    exists ys cv', cv.mapM f = some cv' ∧ EncodesAll k psi format' target ys cv' ∧
      List.Forall₂ R xs ys := by
  induction h with
  | nil => exact ⟨[], [], rfl, List.Forall₂.nil, List.Forall₂.nil⟩
  | @cons x c xs cv hxc _ ih =>
      rcases hf x c hxc with ⟨y, d, hd, hyd, hR⟩
      rcases ih with ⟨ys, cv', hcv', hys, hRs⟩
      refine ⟨y :: ys, d :: cv', ?_, List.Forall₂.cons hyd hys, List.Forall₂.cons hR hRs⟩
      rw [List.mapM_cons, hd, hcv']
      rfl

theorem forall₂_trans {α : Type _} {R S T : α -> α -> Prop}
    (hRST : forall x y z, R x y -> S y z -> T x z) {xs ys zs : List α}
    (hR : List.Forall₂ R xs ys) (hS : List.Forall₂ S ys zs) : List.Forall₂ T xs zs := by
  induction hR generalizing zs with
  | nil =>
      cases hS
      exact List.Forall₂.nil
  | cons hxy _ ih =>
      cases hS with
      | cons hyz hrest => exact List.Forall₂.cons (hRST _ _ _ hxy hyz) (ih hrest)

theorem forall₂_refl {α : Type _} {R : α -> α -> Prop} (hR : forall x, R x x) (xs : List α) :
    List.Forall₂ R xs xs := by
  induction xs with
  | nil => exact List.Forall₂.nil
  | cons x xs ih => exact List.Forall₂.cons (hR x) ih

theorem dividedBy_trans {t P P' : Nat} {x y z : Nat -> Int}
    (h : DCRTPoly.DividedBy t P x y) (h' : DCRTPoly.DividedBy t P' y z) :
    DCRTPoly.DividedBy t (P' * P) x z := by
  intro j
  rcases h j with ⟨d, hd, hdlt⟩
  rcases h' j with ⟨e, he, helt⟩
  refine ⟨d + P * e, ?_, ?_⟩
  · rw [Nat.cast_mul]
    linear_combination hd + (P : Int) * he
  · have hP : (0 : Int) < P := lt_of_le_of_lt (abs_nonneg d) hdlt
    have hmul : (P : Int) * (|e| + 1) <= P * P' := mul_le_mul_of_nonneg_left helt hP.le
    have habs : |d + P * e| <= |d| + P * |e| := by
      calc
        |d + P * e| <= |d| + |P * e| := abs_add_le _ _
        _ = |d| + P * |e| := by rw [abs_mul, abs_of_pos hP]
    rw [Nat.cast_mul]
    linarith

theorem dividedAll_trans {t P P' : Nat} {xs ys zs : List (Nat -> Int)}
    (h : List.Forall₂ (DCRTPoly.DividedBy t P) xs ys)
    (h' : List.Forall₂ (DCRTPoly.DividedBy t P') ys zs) :
    List.Forall₂ (DCRTPoly.DividedBy t (P' * P)) xs zs := by
  have htrans : forall x y z, DCRTPoly.DividedBy t P x y -> DCRTPoly.DividedBy t P' y z ->
      DCRTPoly.DividedBy t (P' * P) x z := fun _ _ _ => dividedBy_trans
  exact forall₂_trans htrans h h'

theorem exists_encodesAll {cache : Poly.TableCache} (hk : 0 < k) (hk31 : k <= 31)
    {moduli : List Nat} (hready : DCRTPoly.ReadyChain cache k psi moduli)
    (hcoprime : moduli.Pairwise Nat.Coprime) {cv : List DCRTPoly}
    (hcv : WellFormedElements (2 ^ k) moduli cv) :
    exists xs, EncodesAll k psi .EVALUATION moduli xs cv := by
  induction cv with
  | nil => exact ⟨[], List.Forall₂.nil⟩
  | cons c cv ih =>
      rcases ih fun d hd => hcv d (List.mem_cons_of_mem c hd) with ⟨xs, hxs⟩
      rcases (hcv c List.mem_cons_self).exists_encodes hk hk31 hready hcoprime with
        ⟨p, _, _, hencodes⟩
      exact ⟨_ :: xs, List.Forall₂.cons hencodes hxs⟩

theorem dropLastElements_encodes {moduli : List Nat} {format : Format} {x : Nat -> Int}
    {c : DCRTPoly} (hc : DCRTPoly.Encodes k psi format moduli x c) {m : Nat} (hm : 0 < m)
    (hle : m <= moduli.length) :
    exists d, DCRTPoly.dropLastElements c (moduli.length - m) = some d ∧
      DCRTPoly.Encodes k psi format (moduli.take m) x d := by
  have hwf := DCRTPoly.Denotes.wellFormed hc
  refine ⟨c.take m, DCRTPoly.dropLastElements_eq hwf hm hle, hwf.take m, ?_⟩
  intro i q hq r hr
  have hi : i < m := by
    have hlt := (List.getElem?_eq_some_iff.mp hq).1
    rw [List.length_take] at hlt
    omega
  rw [DCRTPoly.value_take c hi]
  rw [List.getElem?_take_of_lt hi] at hq
  exact hc.value_eq i q hq r hr

end Elements

/-! ## Divisions by the last moduli -/

section Divisions

variable (cache : Poly.TableCache) (moduliQ : List Nat)

/-- The tables of `PrecomputeCRTTables`, by the number of dropped towers. -/
def qlQlInvTable (k : Nat) : List Nat :=
  let l := moduliQ.length - (k + 1)
  (moduliQ[l]?.bind fun ql => DCRTPoly.qlQlInvModqlDivqlModq (moduliQ.take l) ql).getD []

def qlInvTable (k : Nat) : List Nat :=
  let l := moduliQ.length - (k + 1)
  (moduliQ[l]?.bind fun ql => DCRTPoly.qlInvModq (moduliQ.take l) ql).getD []

/-- All elements are divided by their last modulus; the format is that of the polynomials. -/
def divideElements (format : Format) (diffQl : Nat) (cv : List DCRTPoly) (l : Nat) :
    Option (List DCRTPoly) :=
  cv.mapM fun c => DCRTPoly.dropLastElementAndScale cache (qlQlInvTable moduliQ (diffQl + l))
    (qlInvTable moduliQ (diffQl + l)) format c

variable {cache moduliQ} {k : Nat} {psi : Nat -> Nat} (hk : 0 < k) (hk31 : k <= 31)
  (hready : DCRTPoly.ReadyChain cache k psi moduliQ) (hcoprime : moduliQ.Pairwise Nat.Coprime)

include hk hk31 hready hcoprime

theorem divideElements_encodes {m diffQl l : Nat} (hm : 0 < m)
    (hindex : diffQl + l + 1 + m = moduliQ.length) {xs : List (Nat -> Int)} {cv : List DCRTPoly}
    (h : EncodesAll k psi .EVALUATION (moduliQ.take (m + 1)) xs cv) :
    exists ys cv', divideElements cache moduliQ .EVALUATION diffQl cv l = some cv' ∧
      EncodesAll k psi .EVALUATION (moduliQ.take m) ys cv' ∧
      List.Forall₂ (DCRTPoly.DividedBy 1 (moduliQ.getD m 1)) xs ys := by
  have hl : m < moduliQ.length := by omega
  have hql := List.getElem?_eq_getElem hl
  have hsplit : moduliQ.take (m + 1) = moduliQ.take m ++ [moduliQ[m]] :=
    (List.take_append_getElem hl).symm
  have htake : moduliQ.take m ≠ [] := by
    rw [<- List.length_pos_iff, List.length_take]
    omega
  have hready' : DCRTPoly.ReadyChain cache k psi (moduliQ.take m ++ [moduliQ[m]]) :=
    fun q hq => hready q (by rw [<- hsplit] at hq; exact List.mem_of_mem_take hq)
  have hcoprime' : (moduliQ.take m ++ [moduliQ[m]]).Pairwise Nat.Coprime := by
    rw [<- hsplit]
    exact hcoprime.sublist (List.take_sublist _ _)
  have hentry : moduliQ.getD m 1 = moduliQ[m] := List.getD_eq_getElem _ _ hl
  have hone : 2 <= moduliQ[m] := (hready _ (List.getElem_mem hl)).modulus.one_lt
  unfold divideElements
  apply mapM_encodes h
  intro x c hxc
  rw [hsplit] at hxc
  rcases DCRTPoly.dropLastElementAndScale_encodes hk hk31 hready' htake hxc
    (fun q hq => (List.pairwise_append.mp hcoprime').2.2 q hq _ (List.mem_singleton_self _)) with
    ⟨consts, inverses, r, y, hconsts, hinverses, hr, hy, hencodes⟩
  refine ⟨y, r, ?_, hencodes, ?_⟩
  · rw [qlQlInvTable, qlInvTable, show moduliQ.length - (diffQl + l + 1) = m by omega]
    simp only [hql, Option.bind_some, hconsts, hinverses, Option.getD_some]
    exact hr
  · rw [hentry, <- mul_one moduliQ[m]]
    apply (DCRTPoly.DividedBy.refl 1 x).step hone
    intro j
    refine ⟨-DCRTPoly.centeredRemainder moduliQ[m] (x j), ?_, ?_⟩
    · rw [hy j]
      push_cast
      ring
    · rw [abs_neg]
      exact DCRTPoly.two_mul_abs_centeredRemainder_le (by omega) (x j)

theorem divideElements_run {sizeQl n : Nat} (hn : n < sizeQl) (hle : sizeQl <= moduliQ.length)
    {xs : List (Nat -> Int)} {cv : List DCRTPoly}
    (h : EncodesAll k psi .EVALUATION (moduliQ.take sizeQl) xs cv) :
    exists ys cv', (List.range n).foldlM
        (divideElements cache moduliQ .EVALUATION (moduliQ.length - sizeQl)) cv = some cv' ∧
      EncodesAll k psi .EVALUATION (moduliQ.take (sizeQl - n)) ys cv' ∧
      List.Forall₂ (DCRTPoly.DividedBy 1
        ((moduliQ.take sizeQl).drop (sizeQl - n)).prod) xs ys := by
  rcases foldlM_range_spec (n := n) (s := cv)
    (f := divideElements cache moduliQ .EVALUATION (moduliQ.length - sizeQl))
    (fun i cv' => exists ys, EncodesAll k psi .EVALUATION (moduliQ.take (sizeQl - i)) ys cv' ∧
      List.Forall₂ (DCRTPoly.DividedBy 1
        ((moduliQ.take sizeQl).drop (sizeQl - i)).prod) xs ys)
    (by
      refine ⟨xs, h, forall₂_refl (fun x => ?_) xs⟩
      rw [Nat.sub_zero, List.drop_of_length_le (by rw [List.length_take]; omega), List.prod_nil]
      exact DCRTPoly.DividedBy.refl _ x)
    (by
      rintro i hi cv' ⟨ys, hys, hdivided⟩
      have hlt : sizeQl - i - 1 < moduliQ.length := by omega
      rw [show sizeQl - i = sizeQl - i - 1 + 1 by omega] at hys
      rcases divideElements_encodes hk hk31 hready hcoprime
        (show 0 < sizeQl - i - 1 by omega)
        (show moduliQ.length - sizeQl + i + 1 + (sizeQl - i - 1) = moduliQ.length by omega)
        hys with ⟨zs, cv'', hcv'', hzs, hquotient⟩
      refine ⟨cv'', hcv'', zs, ?_, ?_⟩
      · rw [show sizeQl - (i + 1) = sizeQl - i - 1 by omega]
        exact hzs
      · have hdrop : (moduliQ.take sizeQl).drop (sizeQl - (i + 1)) =
            moduliQ.getD (sizeQl - i - 1) 1 :: (moduliQ.take sizeQl).drop (sizeQl - i) := by
          rw [show sizeQl - (i + 1) = sizeQl - i - 1 by omega,
            List.drop_eq_getElem_cons (by rw [List.length_take]; omega), List.getElem_take,
            List.getD_eq_getElem _ _ hlt, show sizeQl - i - 1 + 1 = sizeQl - i by omega]
        rw [hdrop, List.prod_cons]
        exact dividedAll_trans hdivided hquotient) with ⟨cv', hcv', ys, hys, hdivided⟩
  exact ⟨ys, cv', hcv', hys, hdivided⟩

end Divisions

end Scheme
end OpenFHE
