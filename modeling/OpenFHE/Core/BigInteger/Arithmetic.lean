import OpenFHE.Core.BigInteger.Normalize

/-!
# Sums, differences and products of big integers

Each loop over the limbs has one equation between the values of its operands, its
carry and its result.
-/

namespace OpenFHE
namespace Core
namespace BigInteger

open NativeInteger
open Foundation

namespace Ubint

variable {l : Nat}

/-!
## Sum
-/

theorem addLoop_spec {a b : List Nat} {c : Nat} (ha : IsLimbs (base l) a)
    (hb : IsLimbs (base l) b) (hlen : b.length <= a.length) (hc : c <= 1) :
    Nat.ofDigits (base l) (addLoop l a b c) =
        c + (Nat.ofDigits (base l) a + Nat.ofDigits (base l) b) ∧
      IsLimbs (base l) (addLoop l a b c) ∧ addLoop l a b c ≠ [] := by
  have hbase := one_lt_base l
  induction a generalizing b c with
  | nil =>
      have hb : b = [] := List.eq_nil_of_length_eq_zero (Nat.le_zero.mp hlen)
      have hlimb : limb l c = c := Nat.mod_eq_of_lt (Nat.lt_of_le_of_lt hc hbase)
      rw [hb, addLoop, hlimb]
      refine ⟨?_, IsLimbs.cons (Nat.lt_of_le_of_lt hc hbase) IsLimbs.nil, List.cons_ne_nil _ _⟩
      rw [Nat.ofDigits_singleton, Nat.ofDigits_nil]
      omega
  | cons av a ih =>
      have hav : av < base l := ha.head
      have hbv : b.headD 0 < base l := by
        cases b with
        | nil => exact base_pos l
        | cons bv b => exact hb.head
      have htail : IsLimbs (base l) b.tail := fun x hx => hb x (List.mem_of_mem_tail hx)
      have hsum : c + (av + b.headD 0) < base l * 2 := by omega
      have hdlimb : dlimb l (c + (av + b.headD 0)) = c + (av + b.headD 0) :=
        dlimb_of_lt (Nat.lt_of_lt_of_le hsum (Nat.mul_le_mul_left _ hbase))
      have hcarry := shift_lt hsum
      have hlen : b.tail.length <= a.length := by
        rw [List.length_tail]
        rw [List.length_cons] at hlen
        omega
      rcases ih ha.tail htail hlen (Nat.le_of_lt_succ hcarry) with ⟨hvalue, hlimbs, -⟩
      simp only [addLoop, hdlimb]
      refine ⟨?_, IsLimbs.cons (limb_lt l _) hlimbs, List.cons_ne_nil _ _⟩
      have hsplit := limb_add_shift l (c + (av + b.headD 0))
      rw [Nat.ofDigits_cons, Nat.ofDigits_cons, hvalue, ofDigits_headD_tail (base l) b]
      linear_combination hsplit

theorem add_spec {x b : Ubint} (hx : Valid l x) (hb : Valid l b)
    (hsize : Nat.size (x.toNat l + b.toNat l) < maxMSB) :
    Valid l (add l x b) ∧ (add l x b).toNat l = x.toNat l + b.toNat l := by
  have hordered : forall {A B : Ubint}, Valid l A -> Valid l B ->
      B.value.length <= A.value.length -> A.toNat l + B.toNat l = x.toNat l + b.toNat l ->
      Valid l (if B.msb = 0 then A else ofLimbs l (addLoop l A.value B.value 0)) ∧
        (if B.msb = 0 then A else ofLimbs l (addLoop l A.value B.value 0)).toNat l =
          x.toNat l + b.toNat l := by
    intro A B hA hB hlen hsum
    by_cases hzero : B.msb = 0
    · rw [if_pos hzero]
      have hvalue := hB.msb_eq_zero_iff.mp hzero
      exact ⟨hA, by omega⟩
    · rw [if_neg hzero]
      rcases addLoop_spec hA.limbs hB.limbs hlen (Nat.zero_le 1) with ⟨hvalue, hlimbs, hne⟩
      have htotal : Nat.ofDigits (base l) (addLoop l A.value B.value 0) =
          x.toNat l + b.toNat l := by
        rw [hvalue, Nat.zero_add]
        exact hsum
      rw [<- htotal] at hsize
      rcases ofLimbs_spec hlimbs hne hsize with ⟨hvalid, hof⟩
      exact ⟨hvalid, hof.trans htotal⟩
  unfold add
  by_cases hlt : x.value.length < b.value.length
  · simp only [if_pos hlt]
    exact hordered hb hx hlt.le (Nat.add_comm _ _)
  · simp only [if_neg hlt]
    exact hordered hx hb (not_lt.mp hlt) rfl

/-!
## Difference
-/

theorem borrow_spec {v : List Nat} (hv : IsLimbs (base l) v)
    (hpos : 0 < Nat.ofDigits (base l) v) :
    exists r, borrow l v = some r ∧ Nat.ofDigits (base l) r + 1 = Nat.ofDigits (base l) v ∧
      IsLimbs (base l) r ∧ r.length = v.length := by
  induction v with
  | nil => exact absurd hpos (by simp [Nat.ofDigits_nil])
  | cons x v ih =>
      have hx : x < base l := hv.head
      rw [Nat.ofDigits_cons] at hpos
      rw [borrow]
      by_cases hzero : x = 0
      · have htail : 0 < Nat.ofDigits (base l) v := by
          rw [hzero, Nat.zero_add] at hpos
          exact Nat.pos_of_mul_pos_left hpos
        rcases ih hv.tail htail with ⟨r, hr, hvalue, hlimbs, hlen⟩
        have hmax : maxLimb l + 1 = base l := Nat.sub_add_cancel (base_pos l)
        rw [if_pos hzero, hr]
        refine ⟨maxLimb l :: r, rfl, ?_, IsLimbs.cons (by omega) hlimbs, by simp [hlen]⟩
        rw [Nat.ofDigits_cons, Nat.ofDigits_cons, hzero, <- hvalue]
        linear_combination hmax
      · rw [if_neg hzero]
        refine ⟨(x - 1) :: v, rfl, ?_, IsLimbs.cons (by omega) hv.tail, by simp⟩
        rw [Nat.ofDigits_cons, Nat.ofDigits_cons]
        omega

theorem subLoop_spec {x b : List Nat} (hx : IsLimbs (base l) x) (hb : IsLimbs (base l) b)
    (hlen : b.length <= x.length)
    (hle : Nat.ofDigits (base l) b <= Nat.ofDigits (base l) x) :
    exists r, subLoop l x b = some r ∧
      Nat.ofDigits (base l) r + Nat.ofDigits (base l) b = Nat.ofDigits (base l) x ∧
      IsLimbs (base l) r ∧ r.length = x.length := by
  induction b generalizing x with
  | nil =>
      refine ⟨x, ?_, by rw [Nat.ofDigits_nil, Nat.add_zero], hx, rfl⟩
      cases x <;> rfl
  | cons bv b ih =>
      cases x with
      | nil => exact absurd hlen (by simp)
      | cons xv x =>
          have hxv : xv < base l := hx.head
          have hbv : bv < base l := hb.head
          have hlen : b.length <= x.length := Nat.le_of_succ_le_succ hlen
          rw [Nat.ofDigits_cons, Nat.ofDigits_cons] at hle
          rw [subLoop]
          by_cases hlt : xv < bv
          · have hupper : Nat.ofDigits (base l) b < Nat.ofDigits (base l) x := by
              apply Nat.lt_of_mul_lt_mul_left (a := base l)
              omega
            rcases borrow_spec hx.tail (by omega) with ⟨y, hy, hyvalue, hylimbs, hylen⟩
            rcases ih hylimbs hb.tail (by omega) (by omega) with ⟨r, hr, hvalue, hlimbs, hrlen⟩
            have hdiff : limb l (xv + (maxLimb l - bv + 1)) = xv + (base l - bv) := by
              have hmax : maxLimb l + 1 = base l := Nat.sub_add_cancel (base_pos l)
              rw [limb_eq, Nat.mod_eq_of_lt (by omega)]
              omega
            rw [if_pos hlt, hy]
            refine ⟨(xv + (base l - bv)) :: r, ?_, ?_, IsLimbs.cons (by omega) hlimbs, ?_⟩
            · simp [hr, hdiff]
            · have hword : xv + (base l - bv) + bv = xv + base l := by omega
              rw [Nat.ofDigits_cons, Nat.ofDigits_cons, Nat.ofDigits_cons, <- hyvalue, <- hvalue]
              linear_combination hword
            · rw [List.length_cons, List.length_cons, hrlen, hylen]
          · have hupper : Nat.ofDigits (base l) b <= Nat.ofDigits (base l) x := by
              apply Nat.le_of_lt_succ
              apply Nat.lt_of_mul_lt_mul_left (a := base l)
              rw [Nat.mul_succ]
              omega
            rcases ih hx.tail hb.tail hlen hupper with ⟨r, hr, hvalue, hlimbs, hrlen⟩
            rw [if_neg hlt, hr]
            refine ⟨(xv - bv) :: r, rfl, ?_, IsLimbs.cons (by omega) hlimbs, by simp [hrlen]⟩
            have hword : xv - bv + bv = xv := by omega
            rw [Nat.ofDigits_cons, Nat.ofDigits_cons, Nat.ofDigits_cons, <- hvalue]
            linear_combination hword

theorem sub_spec {x b : Ubint} (hx : Valid l x) (hb : Valid l b) :
    exists r, sub l x b = some r ∧ Valid l r ∧ r.toNat l = x.toNat l - b.toNat l := by
  unfold sub
  rw [compare_spec hx hb]
  rcases Nat.lt_trichotomy (x.toNat l) (b.toNat l) with hlt | heq | hgt
  · refine ⟨zero, ?_, zero_valid l, ?_⟩
    · rw [if_pos hlt]
      rfl
    · rw [toNat_zero]
      omega
  · refine ⟨zero, ?_, zero_valid l, ?_⟩
    · rw [if_neg (by omega), if_pos heq]
      rfl
    · rw [toNat_zero]
      omega
  · have hlen : b.value.length <= x.value.length := by
      by_contra hlt
      have hmsb := hx.msb_lt_of_length_lt hb (not_le.mp hlt)
      exact absurd (hx.toNat_lt_of_msb_lt hb hmsb) (by omega)
    rcases subLoop_spec hx.limbs hb.limbs hlen hgt.le with ⟨r, hr, hvalue, hlimbs, hrlen⟩
    have hdiff : Nat.ofDigits (base l) r = x.toNat l - b.toNat l := by
      unfold toNat at hgt ⊢
      omega
    have hne : r ≠ [] := by
      apply List.ne_nil_of_length_pos
      rw [hrlen]
      exact hx.length_pos
    have hsize : Nat.size (Nat.ofDigits (base l) r) < maxMSB := by
      rw [hdiff]
      calc
        Nat.size (x.toNat l - b.toNat l) <= Nat.size (x.toNat l) :=
          Nat.size_le_size (Nat.sub_le _ _)
        _ = x.msb := hx.bitLength.symm
        _ < maxMSB := hx.fits
    rcases ofLimbs_spec hlimbs hne hsize with ⟨hvalid, hof⟩
    refine ⟨ofLimbs l r, ?_, hvalid, hof.trans hdiff⟩
    rw [if_neg (by omega), if_neg (by omega), Option.bind_eq_bind, Option.bind_some,
      if_neg (by decide), hr]
    rfl

/-!
## Product
-/

theorem mulLoop_spec {a : List Nat} {limbb ofl : Nat} (ha : IsLimbs (base l) a)
    (hb : limbb < base l) (hofl : ofl < base l) :
    Nat.ofDigits (base l) (mulLoop l limbb a ofl) = ofl + limbb * Nat.ofDigits (base l) a ∧
      IsLimbs (base l) (mulLoop l limbb a ofl) ∧ mulLoop l limbb a ofl ≠ [] := by
  induction a generalizing ofl with
  | nil =>
      have hlimb : limb l ofl = ofl := Nat.mod_eq_of_lt hofl
      rw [mulLoop, hlimb]
      refine ⟨?_, IsLimbs.cons hofl IsLimbs.nil, List.cons_ne_nil _ _⟩
      rw [Nat.ofDigits_singleton, Nat.ofDigits_nil, Nat.mul_zero, Nat.add_zero]
  | cons av a ih =>
      have hprod : limbb * av <= (base l - 1) * (base l - 1) :=
        Nat.mul_le_mul (Nat.le_sub_one_of_lt hb) (Nat.le_sub_one_of_lt ha.head)
      have hsquare : (base l - 1) * (base l - 1) + (base l - 1) + base l = base l * base l := by
        have hpred : base l = base l - 1 + 1 := (Nat.sub_add_cancel (base_pos l)).symm
        generalize base l - 1 = p at hpred
        rw [hpred]
        ring
      have hsum : ofl + limbb * av < base l * base l := by omega
      have hdprod : dlimb l (limbb * av) = limbb * av := dlimb_of_lt (by omega)
      have hdsum : dlimb l (ofl + limbb * av) = ofl + limbb * av := dlimb_of_lt hsum
      rcases ih ha.tail (shift_lt hsum) with ⟨hvalue, hlimbs, -⟩
      simp only [mulLoop, hdprod, hdsum]
      refine ⟨?_, IsLimbs.cons (limb_lt l _) hlimbs, List.cons_ne_nil _ _⟩
      have hsplit := limb_add_shift l (ofl + limbb * av)
      rw [Nat.ofDigits_cons, Nat.ofDigits_cons, hvalue]
      linear_combination hsplit

theorem mul_rows_spec {A : List Nat} (hA : IsLimbs (base l) A) {bs : List Nat}
    (hbs : IsLimbs (base l) bs) {ans : Ubint} (hans : Valid l ans) (i : Nat)
    (hsize : Nat.size (ans.toNat l +
      Nat.ofDigits (base l) A * (base l ^ i * Nat.ofDigits (base l) bs)) < maxMSB) :
    let rows := (bs.zipIdx i).foldl
      (fun ans limbb =>
        add l ans (ofLimbs l (List.replicate limbb.2 0 ++ mulLoop l limbb.1 A 0))) ans
    Valid l rows ∧ rows.toNat l =
      ans.toNat l + Nat.ofDigits (base l) A * (base l ^ i * Nat.ofDigits (base l) bs) := by
  induction bs generalizing ans i with
  | nil => exact ⟨hans, by simp [Nat.ofDigits_nil]⟩
  | cons bv bs ih =>
      rcases mulLoop_spec hA hbs.head (base_pos l) with ⟨hvalue, hlimbs, hne⟩
      have hrow : Nat.ofDigits (base l) (List.replicate i 0 ++ mulLoop l bv A 0) =
          Nat.ofDigits (base l) A * (base l ^ i * bv) := by
        rw [ofDigits_replicate_zero_append, hvalue]
        ring
      have htotal : ans.toNat l + Nat.ofDigits (base l) A *
            (base l ^ i * Nat.ofDigits (base l) (bv :: bs)) =
          ans.toNat l + Nat.ofDigits (base l) A * (base l ^ i * bv) +
            Nat.ofDigits (base l) A * (base l ^ (i + 1) * Nat.ofDigits (base l) bs) := by
        rw [Nat.ofDigits_cons, Nat.pow_succ]
        ring
      have hbound : forall {r : Nat}, r <= ans.toNat l + Nat.ofDigits (base l) A *
          (base l ^ i * Nat.ofDigits (base l) (bv :: bs)) -> Nat.size r < maxMSB :=
        fun h => Nat.lt_of_le_of_lt (Nat.size_le_size h) hsize
      rcases ofLimbs_spec ((IsLimbs.zeros (base_pos l) i).append hlimbs) (by simp [hne])
        (hbound (by omega)) with ⟨hofvalid, hof⟩
      rw [hrow] at hof
      rcases add_spec hans hofvalid (hbound (by omega)) with ⟨hsumvalid, hsum⟩
      rw [hof] at hsum
      rcases ih hbs.tail hsumvalid (i + 1) (hbound (by omega)) with ⟨hvalid, hfinal⟩
      refine ⟨hvalid, ?_⟩
      rw [htotal, <- hsum]
      exact hfinal

theorem mul_spec {x b : Ubint} (hx : Valid l x) (hb : Valid l b)
    (hsize : Nat.size (x.toNat l * b.toNat l) < maxMSB) :
    Valid l (mul l x b) ∧ (mul l x b).toNat l = x.toNat l * b.toNat l := by
  have hone : forall {y : Ubint}, Valid l y -> y.msb = 1 -> y.toNat l = 1 := by
    intro y hy hmsb
    rw [hy.bitLength] at hmsb
    have hlt := Nat.lt_size_self (y.toNat l)
    have hpos := Nat.size_pos.mp (show 0 < Nat.size (y.toNat l) by omega)
    rw [hmsb] at hlt
    omega
  have hordered : forall {A B : Ubint}, Valid l A -> Valid l B ->
      A.toNat l * B.toNat l = x.toNat l * b.toNat l ->
      let rows := B.value.zipIdx.foldl
        (fun ans limbb =>
          add l ans (ofLimbs l (List.replicate limbb.2 0 ++ mulLoop l limbb.1 A.value 0))) zero
      Valid l rows ∧ rows.toNat l = x.toNat l * b.toNat l := by
    intro A B hA hB hprod
    have htotal : zero.toNat l + Nat.ofDigits (base l) A.value *
        (base l ^ 0 * Nat.ofDigits (base l) B.value) = x.toNat l * b.toNat l := by
      rw [toNat_zero, Nat.zero_add, Nat.pow_zero, Nat.one_mul]
      exact hprod
    have hrows := mul_rows_spec hA.limbs hB.limbs (zero_valid l) 0 (by rwa [htotal])
    rw [htotal] at hrows
    exact hrows
  unfold mul
  by_cases hzero : x.msb = 0 ∨ b.msb = 0
  · rw [if_pos hzero]
    refine ⟨zero_valid l, ?_⟩
    rw [toNat_zero]
    cases hzero with
    | inl h => rw [hx.msb_eq_zero_iff.mp h, Nat.zero_mul]
    | inr h => rw [hb.msb_eq_zero_iff.mp h, Nat.mul_zero]
  · rw [if_neg hzero]
    by_cases hbone : b.msb = 1
    · rw [if_pos hbone]
      exact ⟨hx, by rw [hone hb hbone, Nat.mul_one]⟩
    · rw [if_neg hbone]
      by_cases hxone : x.msb = 1
      · rw [if_pos hxone]
        exact ⟨hb, by rw [hone hx hxone, Nat.one_mul]⟩
      · rw [if_neg hxone]
        by_cases hlt : x.value.length < b.value.length
        · simp only [if_pos hlt]
          exact hordered hb hx (Nat.mul_comm _ _)
        · simp only [if_neg hlt]
          exact hordered hx hb rfl

end Ubint

end BigInteger
end Core
end OpenFHE
