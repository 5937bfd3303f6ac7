import OpenFHE.Core.NativeInteger.Barrett
import OpenFHE.Core.VectorOperations

/-!
# When the entries stay residues

For each operation on a vector of residues, the condition on its operands under
which the result again consists of residues.
-/

namespace OpenFHE
namespace Core

open Foundation NativeInteger

namespace NativeVectorT

theorem Canonical.valid {v : NativeVectorT} (h : v.Canonical) :
    Valid v.data.length v.modulus v :=
  ⟨rfl, rfl, h⟩

theorem Valid.canonical {v : NativeVectorT} {n q : Nat} (h : Valid n q v) : v.Canonical := by
  intro x hx
  rw [h.modulus_eq]
  exact h.residues.2 x hx

theorem eq_some_of_access {α β : Type _} {o : Option α} {f : α -> Except Fault β} {r : β}
    (h : (Fault.access o >>= f) = .ok r) : exists x, o = some x ∧ f x = .ok r := by
  cases o with
  | none => cases h
  | some x => exact ⟨x, rfl, h⟩

theorem reduceScalar_bind {v w : NativeVectorT} {b : Nat} {f : Nat -> Except Fault NativeVectorT}
    (h : (v.reduceScalar b >>= f) = .ok w) :
    exists bv, bv < v.modulus ∧ v.reduceScalar b = .ok bv ∧ f bv = .ok w := by
  cases hb : v.reduceScalar b with
  | error e =>
      rw [hb] at h
      cases h
  | ok bv =>
      rw [hb] at h
      exact ⟨bv, reduceScalar_lt hb, rfl, h⟩

section Entries

variable {v w b : NativeVectorT} (hv : v.Canonical) (hq : v.modulus < 2 ^ 60)

/-! ## Products -/

include hv hq

theorem modMulInteger_canonical {c : Nat} (h : v.modMulInteger c = .ok w) : w.Canonical := by
  rcases Nat.eq_zero_or_pos v.modulus with hzero | hpos
  · unfold modMulInteger at h
    rcases eq_some_of_access h with ⟨data, hdata, _⟩
    rw [hzero] at hdata
    cases hdata
  · rcases modMulInteger_ok hv.valid.stands hpos hq c with ⟨w', hw', hstands⟩
    cases hw'.symm.trans h
    exact hstands.valid.canonical

/-- Only the modulus `2 ^ 59` leaves the products of residues unreduced. -/
theorem modMul_canonical_iff (hb : b.Canonical) (h : v.modMul b = .ok w) :
    w.Canonical <-> (v.modulus = 2 ^ 59 -> forall (i : Nat) x y, v.data[i]? = some x ->
      b.data[i]? = some y -> word (x * y) < 2 ^ 60) := by
  unfold modMul at h
  split at h
  · cases h
  · rename_i hsame
    have hmod : v.modulus = b.modulus := by tauto
    rcases eq_some_of_access h with ⟨data, hdata, hw⟩
    cases hw
    unfold NativeVector.modMulNoCheckEq at hdata
    rcases Option.bind_eq_some_iff.mp hdata with ⟨mu, hmu, hzip⟩
    cases hzip
    rw [canonical_zipWith]
    have hentry (i x y : Nat) (hx : v.data[i]? = some x) (hy : b.data[i]? = some y) :
        modMulFastMu x y v.modulus mu < v.modulus <->
          (v.modulus = 2 ^ 59 -> word (x * y) < 2 ^ 60) := by
      have hxlt := hv x (List.mem_of_getElem? hx)
      have hylt := hb y (List.mem_of_getElem? hy)
      rw [← hmod] at hylt
      exact modMulFastMu_lt_iff (by omega) hq hmu hxlt hylt
    constructor
    · intro hall heq i x y hx hy
      exact (hentry i x y hx hy).mp (hall i x y hx hy) heq
    · intro hall i x y hx hy
      exact (hentry i x y hx hy).mpr fun heq => hall heq i x y hx hy

theorem multAccEqNoCheck_canonical (hb : b.Canonical) (hbq : b.modulus < 2 ^ 60) {i : Nat}
    (h : v.multAccEqNoCheck b i = .ok w) : w.Canonical := by
  unfold multAccEqNoCheck at h
  rcases reduceScalar_bind h with ⟨iv, hiv, _, hrest⟩
  rcases eq_some_of_access hrest with ⟨iinv, hiinv, hzip⟩
  have hm : v.modulus < 2 ^ maxBits := by
    simp only [maxBits]
    omega
  rw [prepModMulConst_eq hm hiv] at hiinv
  cases hiinv
  split at hzip
  · cases hzip
  · cases hzip
    apply canonical_zipWith.mpr
    intro j x y hx hy
    have hyword : y < 2 ^ maxBits := by
      have hylt := hb y (List.mem_of_getElem? hy)
      simp only [maxBits]
      omega
    apply modAddFast_lt hq (hv x (List.mem_of_getElem? hx))
    rw [modMulFastConst_eq (by omega) hiv hyword]
    exact Nat.mod_lt _ (by omega)

omit hv hq in
theorem multWithOutMod_canonical_iff (h : v.multWithOutMod b = .ok w) :
    w.Canonical <-> forall (i : Nat) x y, v.data[i]? = some x -> b.data[i]? = some y ->
      mulFast x y < v.modulus := by
  unfold multWithOutMod at h
  split at h
  · cases h
  · cases h
    exact canonical_zipWith

/-! ## Powers, inverses and digits -/

theorem modExp_canonical_iff {c : Nat} (h : v.modExp c = .ok w) :
    w.Canonical <-> (v.modulus = 1 -> v.data = []) := by
  unfold modExp at h
  rcases reduceScalar_bind h with ⟨bv, hbv, _, hrest⟩
  rcases eq_some_of_access hrest with ⟨data, hdata, hw⟩
  cases hw
  constructor
  · intro hcanonical hone
    cases hlist : v.data with
    | nil => rfl
    | cons x xs =>
        rw [hlist, List.mapM_cons] at hdata
        rcases Option.bind_eq_some_iff.mp hdata with ⟨y, hy, hys⟩
        rcases Option.bind_eq_some_iff.mp hys with ⟨ys, _, hcons⟩
        cases hcons
        have hx := hv x (by rw [hlist]; exact List.mem_cons_self)
        rw [hone] at hx hbv hy
        cases (by omega : x = 0)
        cases (by omega : bv = 0)
        have hy1 : y = 1 := (Option.some.inj hy).symm
        have hlt := hcanonical y List.mem_cons_self
        dsimp only at hlt
        omega
  · intro hempty
    apply canonical_mapM hdata
    intro x y hx hxy
    have hxlt := hv x hx
    have hone : v.modulus ≠ 1 := by
      intro heq
      rw [hempty heq] at hx
      cases hx
    have hword : v.modulus < 2 ^ maxBits := by
      simp only [maxBits]
      omega
    have hxword : x < 2 ^ maxBits := by omega
    have hbword : bv < 2 ^ maxBits := by omega
    rcases modExp_spec (by omega) hword hxword hbword with ⟨y', hy', hlt, _⟩
    cases hy'.symm.trans hxy
    exact hlt

omit hv in
theorem modInverse_canonical (h : v.modInverse = .ok w) : w.Canonical := by
  unfold modInverse at h
  rcases eq_some_of_access h with ⟨data, hdata, hw⟩
  cases hw
  apply canonical_mapM hdata
  intro x y _ hxy
  exact modInverse_lt (by omega) hxy

omit hq in
theorem getDigitAtIndexForBase_canonical {index base : Nat}
    (h : v.getDigitAtIndexForBase index base = .ok w) : w.Canonical := by
  unfold getDigitAtIndexForBase at h
  split at h
  · cases h
  · rcases eq_some_of_access h with ⟨data, hdata, hw⟩
    cases hw
    apply canonical_mapM hdata
    intro x y hx hxy
    exact (getDigitAtIndexForBase_le hxy).trans_lt (hv x hx)

/-! ## Rounding -/

omit hv in
theorem subFast_lt_iff {r : Nat} (hpos : 0 < v.modulus) :
    subFast v.modulus r < v.modulus <-> 1 <= word r ∧ word r <= v.modulus := by
  have hr : word r < 2 ^ maxBits := word_lt r
  unfold subFast
  rcases Nat.lt_or_ge v.modulus (word r) with hlt | hge
  · rw [word_eq (by omega)]
    omega
  · have hsum : v.modulus + (2 ^ maxBits - word r) =
        v.modulus - word r + 2 ^ maxBits := by omega
    have hword : v.modulus - word r < 2 ^ maxBits := by
      simp only [maxBits]
      omega
    rw [hsum, word, Nat.add_mod_right, Nat.mod_eq_of_lt hword]
    omega

theorem roundEntry_canonical_iff {low high : Nat -> Nat}
    (hlow : forall x, x < v.modulus -> low x < v.modulus) :
    Canonical { v with data := v.data.map (roundEntry v.modulus low high) } <->
      forall x, x ∈ v.data -> v.modulus >>> 1 < x ->
        1 <= word (high (v.modulus - x)) ∧ word (high (v.modulus - x)) <= v.modulus := by
  have hentry (x : Nat) (hx : x ∈ v.data) : roundEntry v.modulus low high x < v.modulus <->
      (v.modulus >>> 1 < x ->
        1 <= word (high (v.modulus - x)) ∧ word (high (v.modulus - x)) <= v.modulus) := by
    have hxlt := hv x hx
    have hdist : subFast v.modulus x = v.modulus - x := by
      apply subFast_eq hxlt.le
      simp only [maxBits]
      omega
    unfold roundEntry
    rw [hdist]
    split
    · rename_i hhalf
      rw [subFast_lt_iff hq (by omega)]
      constructor
      · intro h _
        exact h
      · intro h
        exact h hhalf
    · rename_i hhalf
      constructor
      · intro _ hgt
        exact absurd hgt hhalf
      · intro _
        exact hlow x hxlt
  rw [canonical_map]
  constructor
  · intro h x hx
    exact (hentry x hx).mp (h x hx)
  · intro h x hx
    exact (hentry x hx).mpr (h x hx)

theorem multiplyAndRound_canonical_iff {rounded : Nat -> Nat -> Nat -> Nat} {p q : Nat}
    (h : v.multiplyAndRound rounded p q = .ok w) :
    w.Canonical <-> forall x, x ∈ v.data -> v.modulus >>> 1 < x ->
      1 <= word (rounded (v.modulus - x) p q) ∧
        word (rounded (v.modulus - x) p q) <= v.modulus := by
  unfold multiplyAndRound at h
  split at h
  · cases h
  · cases h
    exact roundEntry_canonical_iff hv hq fun x hx => Nat.mod_lt _ (by omega)

omit hv hq in
theorem divideAndRound_le {x q : Nat} : NativeInteger.divideAndRound x q <= x := by
  unfold NativeInteger.divideAndRound
  split
  · rename_i hgt
    rcases Nat.eq_zero_or_pos q with hzero | hpos
    · rw [hzero, Nat.mod_zero] at hgt
      rw [hzero, Nat.div_zero]
      exact Nat.lt_of_le_of_lt (Nat.zero_le _) hgt
    · calc
        x / q + 1 <= q * (x / q) + x % q :=
          Nat.add_le_add (Nat.le_mul_of_pos_left _ hpos) (Nat.lt_of_le_of_lt (Nat.zero_le _) hgt)
        _ = x := Nat.div_add_mod x q
  · exact Nat.div_le_self _ _

omit hv hq in
theorem divideAndRound_eq_zero_iff {x q : Nat} (hq : 0 < q) :
    NativeInteger.divideAndRound x q = 0 <-> x <= q >>> 1 := by
  have hhalf : q >>> 1 < q := by
    rw [Nat.shiftRight_eq_div_pow]
    exact Nat.div_lt_self hq (by decide)
  unfold NativeInteger.divideAndRound
  rcases Nat.lt_or_ge x q with hlt | hge
  · rw [Nat.mod_eq_of_lt hlt, Nat.div_eq_of_lt hlt]
    split
    · omega
    · omega
  · have hdiv : 1 <= x / q := (Nat.one_le_div_iff hq).mpr hge
    split
    · omega
    · omega

theorem divideAndRound_canonical_iff {q : Nat} (h : v.divideAndRound q = .ok w) :
    w.Canonical <-> forall x, x ∈ v.data -> v.modulus >>> 1 < x -> q >>> 1 < v.modulus - x := by
  unfold divideAndRound at h
  split at h
  · cases h
  · rename_i hdivisor
    cases h
    rw [roundEntry_canonical_iff hv hq fun x hx => divideAndRound_le.trans_lt hx]
    have hentry (x : Nat) (hx : x ∈ v.data) :
        1 <= word (NativeInteger.divideAndRound (v.modulus - x) q) ∧
          word (NativeInteger.divideAndRound (v.modulus - x) q) <= v.modulus <->
        q >>> 1 < v.modulus - x := by
      have hpos : 0 < q := by
        rcases Nat.eq_zero_or_pos q with hzero | hpos
        · exact absurd ⟨hzero, List.ne_nil_of_mem hx⟩ hdivisor
        · exact hpos
      have hle := divideAndRound_le (x := v.modulus - x) (q := q)
      have hzero := divideAndRound_eq_zero_iff (x := v.modulus - x) hpos
      rw [word_eq (by simp only [maxBits]; omega)]
      omega
    constructor
    · intro hall x hx hhalf
      exact (hentry x hx).mp (hall x hx hhalf)
    · intro hall x hx hhalf
      exact (hentry x hx).mpr (hall x hx hhalf)

/-! ## Changes of the modulus -/

omit hq in
theorem modByTwoEq_canonical : v.modByTwoEq.Canonical := by
  unfold modByTwoEq
  apply canonical_map.mpr
  intro x hx
  have hxlt := hv x hx
  have hand : 1 &&& (x ^^^ (if x > v.modulus >>> 1 then 1 else 0)) <= 1 := Nat.and_le_left
  rcases Nat.lt_or_ge 1 v.modulus with hlarge | hsmall
  · omega
  · cases (by omega : x = 0)
    rw [if_neg (by omega)]
    exact hxlt

theorem modEq_canonical_iff {m : Nat} (hm : m < 2 ^ maxBits) (h : v.modEq m = .ok w) :
    w.Canonical <-> m = 2 ∨ (v.modulus < m -> forall x, x ∈ v.data -> v.modulus >>> 1 < x ->
      x + m < 2 * v.modulus) := by
  unfold modEq at h
  split at h
  · rename_i htwo
    cases h
    constructor
    · intro _
      exact Or.inl htwo
    · intro _
      exact modByTwoEq_canonical hv
  · rename_i htwo
    split at h
    · cases h
    · rename_i hzero
      cases h
      unfold NativeVector.switchModulus
      dsimp only
      split
      · rename_i hgt
        rw [canonical_map, if_neg (by omega), subFast_eq hgt.le hm]
        have hentry (x : Nat) (hx : x ∈ v.data) :
            addFast x (if x > v.modulus >>> 1 then m - v.modulus else 0) < v.modulus <->
              (v.modulus >>> 1 < x -> x + m < 2 * v.modulus) := by
          have hxlt := hv x hx
          unfold addFast
          split
          · rw [word_eq (by omega)]
            omega
          · rw [word_eq (by omega)]
            omega
        constructor
        · intro hall
          refine Or.inr fun _ x hx => (hentry x hx).mp (hall x hx)
        · intro hall x hx
          exact (hentry x hx).mpr ((hall.resolve_left htwo) hgt x hx)
      · rename_i hle
        constructor
        · intro _
          exact Or.inr fun hgt => absurd hgt hle
        · intro _
          apply canonical_map.mpr
          intro x hx
          have hpos : 0 < m := by
            rcases Nat.eq_zero_or_pos m with hm0 | hpos
            · exact absurd ⟨hm0, List.ne_nil_of_mem hx⟩ hzero
            · exact hpos
          exact (NativeVector.represents_modSub (by omega) hpos _ _).1.trans_le (by omega)

omit hv hq in
theorem setModulus_eq {m : Nat} (h : v.setModulus m = .ok w) :
    m < 2 ^ 60 ∧ w = { v with modulus := m } := by
  unfold setModulus at h
  split at h
  · cases h
  · rename_i hle
    cases h
    rw [getMSB_gt_iff] at hle
    exact ⟨Nat.not_le.mp hle, rfl⟩

omit hv hq in
theorem setModulus_canonical_iff {m : Nat} (h : v.setModulus m = .ok w) :
    w.Canonical <-> forall x, x ∈ v.data -> x < m := by
  rcases setModulus_eq h with ⟨_, rfl⟩
  exact Iff.rfl

theorem switchModulus_canonical {m : Nat} (h : v.switchModulus m = .ok w) : w.Canonical := by
  unfold switchModulus at h
  split at h
  · cases h
  · rename_i hzero
    rcases setModulus_eq h with ⟨hm, rfl⟩
    rcases Nat.eq_zero_or_pos m with hm0 | hpos
    · have hnil : v.data = [] := by tauto
      intro x hx
      simp [hnil, NativeVector.switchModulus] at hx
    · have hold : v.modulus < 2 ^ maxBits := lt_trans hq (by decide)
      exact (NativeVector.switchModulus_spec hold hm hpos hv.valid.residues).residues.2

omit hv hq in
theorem lazySwitchModulus_canonical {m : Nat} (h : v.lazySwitchModulus m = .ok w) :
    w.Canonical := by
  unfold lazySwitchModulus at h
  split at h
  · cases h
  · rename_i hzero
    rcases setModulus_eq h with ⟨_, rfl⟩
    intro y hy
    rcases List.mem_map.mp hy with ⟨x, hx, rfl⟩
    apply Nat.mod_lt
    rcases Nat.eq_zero_or_pos m with hm0 | hpos
    · exact absurd ⟨hm0, List.ne_nil_of_mem hx⟩ hzero
    · exact hpos

end Entries

end NativeVectorT

/-! ## One call -/

/-- The operations of `NativeVectorT`, with their scalar operands. -/
inductive VectorOp where
  | modAddInteger (b : Nat)
  | modAddAtIndex (i b : Nat)
  | modAdd
  | modAddNoCheck
  | modSubInteger (b : Nat)
  | modSub
  | modMulInteger (b : Nat)
  | modMul
  | multAccEqNoCheck (i : Nat)
  | multWithOutMod
  | modExp (b : Nat)
  | modInverse
  | modByTwo
  | mod (modulus : Nat) (hword : modulus < 2 ^ maxBits)
  | multiplyAndRound (p q : Nat)
  | divideAndRound (q : Nat)
  | getDigitAtIndexForBase (index base : Nat)
  | setModulus (modulus : Nat)
  | switchModulus (modulus : Nat)
  | lazySwitchModulus (modulus : Nat)
deriving DecidableEq, Repr

namespace VectorOp

open NativeVectorT

def apply (rounded : Nat -> Nat -> Nat -> Nat) (v b : NativeVectorT) :
    VectorOp -> Except Fault NativeVectorT
  | modAddInteger c => v.modAddInteger c
  | modAddAtIndex i c => v.modAddAtIndex i c
  | modAdd => v.modAddEq b
  | modAddNoCheck => v.modAddNoCheckEq b
  | modSubInteger c => v.modSubInteger c
  | modSub => v.modSubEq b
  | modMulInteger c => v.modMulInteger c
  | modMul => v.modMul b
  | multAccEqNoCheck i => v.multAccEqNoCheck b i
  | multWithOutMod => v.multWithOutMod b
  | modExp c => v.modExp c
  | modInverse => v.modInverse
  | modByTwo => .ok v.modByTwoEq
  | mod m _ => v.modEq m
  | multiplyAndRound p q => v.multiplyAndRound rounded p q
  | divideAndRound q => v.divideAndRound q
  | getDigitAtIndexForBase index base => v.getDigitAtIndexForBase index base
  | setModulus m => v.setModulus m
  | switchModulus m => v.switchModulus m
  | lazySwitchModulus m => v.lazySwitchModulus m

/-- The condition on the operands; operations that are not named have none. -/
def KeepsResidues (rounded : Nat -> Nat -> Nat -> Nat) (v b : NativeVectorT) : VectorOp -> Prop
  | modAddNoCheck => forall (i : Nat) x y, v.data[i]? = some x -> b.data[i]? = some y ->
      x + y < 2 * v.modulus
  | modMul => v.modulus = 2 ^ 59 -> forall (i : Nat) x y, v.data[i]? = some x ->
      b.data[i]? = some y -> word (x * y) < 2 ^ 60
  | multWithOutMod => forall (i : Nat) x y, v.data[i]? = some x -> b.data[i]? = some y ->
      mulFast x y < v.modulus
  | modExp _ => v.modulus = 1 -> v.data = []
  | mod m _ => m = 2 ∨ (v.modulus < m -> forall x, x ∈ v.data -> v.modulus >>> 1 < x ->
      x + m < 2 * v.modulus)
  | multiplyAndRound p q => forall x, x ∈ v.data -> v.modulus >>> 1 < x ->
      1 <= word (rounded (v.modulus - x) p q) ∧ word (rounded (v.modulus - x) p q) <= v.modulus
  | divideAndRound q => forall x, x ∈ v.data -> v.modulus >>> 1 < x ->
      q >>> 1 < v.modulus - x
  | setModulus m => forall x, x ∈ v.data -> x < m
  | _ => True

section Apply

variable {rounded : Nat -> Nat -> Nat -> Nat} {op : VectorOp} {v b w : NativeVectorT}

theorem canonical_iff (hv : v.Canonical) (hq : v.modulus < 2 ^ 60) (hb : b.Canonical)
    (hbq : b.modulus < 2 ^ 60) (h : op.apply rounded v b = .ok w) :
    w.Canonical <-> op.KeepsResidues rounded v b := by
  cases op with
  | modAddInteger c => exact iff_of_true (modAddInteger_canonical hv hq h) trivial
  | modAddAtIndex i c => exact iff_of_true (modAddAtIndex_canonical hv hq h) trivial
  | modAdd => exact iff_of_true (modAddEq_canonical hv hq hb h) trivial
  | modAddNoCheck => exact modAddNoCheckEq_canonical_iff hv hq hb hbq h
  | modSubInteger c => exact iff_of_true (modSubInteger_canonical hv hq h) trivial
  | modSub => exact iff_of_true (modSubEq_canonical hv hq hb h) trivial
  | modMulInteger c => exact iff_of_true (modMulInteger_canonical hv hq h) trivial
  | modMul => exact modMul_canonical_iff hv hq hb h
  | multAccEqNoCheck i => exact iff_of_true (multAccEqNoCheck_canonical hv hq hb hbq h) trivial
  | multWithOutMod => exact multWithOutMod_canonical_iff h
  | modExp c => exact modExp_canonical_iff hv hq h
  | modInverse => exact iff_of_true (modInverse_canonical hq h) trivial
  | modByTwo =>
      cases h
      exact iff_of_true (modByTwoEq_canonical hv) trivial
  | mod m hm => exact modEq_canonical_iff hv hq hm h
  | multiplyAndRound p q => exact multiplyAndRound_canonical_iff hv hq h
  | divideAndRound q => exact divideAndRound_canonical_iff hv hq h
  | getDigitAtIndexForBase index base =>
      exact iff_of_true (getDigitAtIndexForBase_canonical hv h) trivial
  | setModulus m => exact setModulus_canonical_iff h
  | switchModulus m => exact iff_of_true (switchModulus_canonical hv hq h) trivial
  | lazySwitchModulus m => exact iff_of_true (lazySwitchModulus_canonical h) trivial

/-- The modulus of a result is the old one, or one that passed the check of `SetModulus`. -/
theorem modulus_lt (hq : v.modulus < 2 ^ 60) (h : op.apply rounded v b = .ok w) :
    w.modulus < 2 ^ 60 := by
  have hdata {r : Except Fault (List Nat)}
      (hr : (do let data <- r; return { v with data := data }) = Except.ok w) :
      w.modulus < 2 ^ 60 := by
    cases r with
    | error e => cases hr
    | ok data =>
        cases hr
        exact hq
  have hguard {c : Prop} [Decidable c] {e : Fault} {data : List Nat}
      (hr : (if c then .error e else .ok { v with data := data }) = Except.ok w) :
      w.modulus < 2 ^ 60 := by
    split at hr
    · cases hr
    · cases hr
      exact hq
  cases op with
  | modAddInteger c =>
      rcases reduceScalar_bind h with ⟨_, _, _, hw⟩
      cases hw
      exact hq
  | modAddAtIndex i c =>
      dsimp only [apply, NativeVectorT.modAddAtIndex] at h
      split at h
      · cases h
      · exact hguard h
  | modAdd => exact hguard h
  | modAddNoCheck => exact hguard h
  | modSubInteger c =>
      rcases reduceScalar_bind h with ⟨_, _, _, hw⟩
      cases hw
      exact hq
  | modSub => exact hguard h
  | modMulInteger c => exact hdata h
  | modMul =>
      dsimp only [apply, NativeVectorT.modMul] at h
      split at h
      · cases h
      · exact hdata h
  | multAccEqNoCheck i =>
      rcases reduceScalar_bind h with ⟨_, _, _, hrest⟩
      rcases eq_some_of_access hrest with ⟨_, _, hw⟩
      exact hguard hw
  | multWithOutMod => exact hguard h
  | modExp c =>
      rcases reduceScalar_bind h with ⟨_, _, _, hrest⟩
      exact hdata hrest
  | modInverse => exact hdata h
  | modByTwo =>
      cases h
      exact hq
  | mod m _ =>
      dsimp only [apply, NativeVectorT.modEq] at h
      split at h
      · cases h
        exact hq
      · exact hguard h
  | multiplyAndRound p q => exact hguard h
  | divideAndRound q => exact hguard h
  | getDigitAtIndexForBase index base =>
      dsimp only [apply, NativeVectorT.getDigitAtIndexForBase] at h
      split at h
      · cases h
      · exact hdata h
  | setModulus m =>
      rcases setModulus_eq h with ⟨hm, rfl⟩
      exact hm
  | switchModulus m =>
      dsimp only [apply, NativeVectorT.switchModulus] at h
      split at h
      · cases h
      · rcases setModulus_eq h with ⟨hm, rfl⟩
        exact hm
  | lazySwitchModulus m =>
      dsimp only [apply, NativeVectorT.lazySwitchModulus] at h
      split at h
      · cases h
      · rcases setModulus_eq h with ⟨hm, rfl⟩
        exact hm

end Apply

end VectorOp

end Core
end OpenFHE
