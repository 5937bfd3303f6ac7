import OpenFHE.Hal.Automorphism

/-!
# The direct automorphism

`AutomorphismTransform` without a map.  In the evaluation format it moves the values,
in the coefficient format it moves the coefficients and takes some of them from the
modulus.
-/

namespace OpenFHE
namespace Hal
namespace Poly

open OpenFHE.Core Foundation NativeInteger

/-- One value of the evaluation format; `jk` is the running odd multiple. -/
def automorphismEvaluationStep (logn mask k : Nat) (values : List Nat) (s : Nat × List Nat)
    (j : Nat) : Option (Nat × List Nat) := do
  let jrev <- reverseBits j logn
  let idxrev <- reverseBits ((s.1 >>> 1) &&& mask) logn
  let x <- values[idxrev]?
  if jrev < values.length then some (usint (s.1 + 2 * k : Nat), s.2.set jrev x) else none

/-- One coefficient; `jk` is the running multiple. -/
def automorphismCoefficientStep (q logn mask k : Nat) (values : List Nat) (s : Nat × List Nat)
    (j : Nat) : Option (Nat × List Nat) := do
  let x <- values[j]?
  let x := if (s.1 >>> logn) &&& 0x1 ≠ 0 then subFast q x else x
  if s.1 &&& mask < values.length then some (usint (s.1 + k : Nat), s.2.set (s.1 &&& mask) x)
  else none

/-- `AutomorphismTransform`; the order is twice the ring dimension. -/
def automorphismTransform (k : Nat) (a : Poly) : Option Poly :=
  let n := a.values.length
  let m := 2 * n
  if k % 2 = 0 then none
  else
    let logm := getMSB m - 1
    let logn := logm - 1
    let mask := (1 <<< logn) - 1
    let result := List.replicate n 0
    let run :=
      match a.format with
      | .EVALUATION =>
          (List.range n).foldlM (automorphismEvaluationStep logn mask k a.values) (k, result)
      | .COEFFICIENT =>
          (List.range n).foldlM (automorphismCoefficientStep a.modulus logn mask k a.values)
            (0, result)
    run.map fun s => { a with values := s.2 }

def moved (q : Nat) (wraps : Prop) [Decidable wraps] (x : Nat) : Nat :=
  if wraps then subFast q x else x

section Steps

variable {l k : Nat} (hl : l < 32)

include hl

theorem running_bits (e : Nat) :
    (e % 2 ^ 32) &&& (2 ^ l - 1) = e % 2 ^ l ∧
      ((e % 2 ^ 32) >>> l &&& 0x1 ≠ 0 <-> e / 2 ^ l % 2 = 1) := by
  have hdvd : 2 ^ l ∣ 2 ^ 32 := pow_dvd_pow 2 (by omega)
  have hdvd' : 2 ^ l * 2 ∣ 2 ^ 32 := by
    rw [← pow_succ]
    exact pow_dvd_pow 2 (by omega)
  constructor
  · rw [Nat.and_two_pow_sub_one_eq_mod, Nat.mod_mod_of_dvd _ hdvd]
  · have hbit : e % 2 ^ 32 / 2 ^ l % 2 = e / 2 ^ l % 2 := by
      rw [← Nat.mod_mul_right_div_self, ← Nat.mod_mul_right_div_self,
        Nat.mod_mod_of_dvd _ hdvd']
    have hand : (e % 2 ^ 32) >>> l &&& 0x1 = e / 2 ^ l % 2 := by
      rw [Nat.shiftRight_eq_div_pow, ← hbit]
      exact Nat.and_two_pow_sub_one_eq_mod _ 1
    rw [hand]
    omega

/-- Every coefficient moves to its place, from the modulus when it wraps. -/
theorem coefficientLoop_spec (q : Nat) (hk : k % 2 = 1) {values : List Nat}
    (hlength : values.length = 2 ^ l) :
    exists s, (List.range (2 ^ l)).foldlM
        (automorphismCoefficientStep q l (2 ^ l - 1) k values)
        (0, List.replicate (2 ^ l) 0) = some s ∧
      s.2.length = 2 ^ l ∧
      forall j, j < 2 ^ l ->
        s.2[j * k % 2 ^ l]? = some (moved q (j * k / 2 ^ l % 2 = 1) (values.getD j 0)) := by
  have hpos := Nat.two_pow_pos l
  rcases foldlM_range_spec (n := 2 ^ l)
    (f := automorphismCoefficientStep q l (2 ^ l - 1) k values)
    (s := (0, List.replicate (2 ^ l) 0))
    (fun c s => s.1 = c * k % 2 ^ 32 ∧ s.2.length = 2 ^ l ∧ forall j, j < c ->
      s.2[j * k % 2 ^ l]? = some (moved q (j * k / 2 ^ l % 2 = 1) (values.getD j 0)))
    ⟨by simp, List.length_replicate, fun j hj => absurd hj (Nat.not_lt_zero j)⟩ (by
      intro c hc s hs
      rcases hs with ⟨hjk, hlen, hplaced⟩
      rcases running_bits hl (c * k) with ⟨hmask, hsign⟩
      have hread : values[c]? = some (values.getD c 0) := by
        rw [List.getD_eq_getElem _ _ (by omega), List.getElem?_eq_getElem]
      have hlt : c * k % 2 ^ l < 2 ^ l := Nat.mod_lt _ hpos
      refine ⟨(usint (c * k % 2 ^ 32 + k : Nat), s.2.set (c * k % 2 ^ l)
        (moved q (c * k / 2 ^ l % 2 = 1) (values.getD c 0))), ?_, ?_, ?_, ?_⟩
      · unfold automorphismCoefficientStep moved
        rw [hread, hjk, hmask]
        simp only [Option.bind_eq_bind, Option.bind_some, hsign, hlength, hlt, if_true]
      · rw [usint_natCast, Nat.mod_add_mod]
        ring_nf
      · rw [List.length_set, hlen]
      · intro j hj
        rcases Nat.lt_or_ge j c with hbelow | hge
        · rw [List.getElem?_set_ne]
          · exact hplaced j hbelow
          · intro heq
            have hsame := mul_mod_injOn hk hc (by omega) heq
            omega
        · have heq : j = c := by omega
          rw [heq, List.getElem?_set_self (by rw [hlen]; exact hlt)]) with
    ⟨s, hrun, _, hlen, hplaced⟩
  exact ⟨s, hrun, hlen, hplaced⟩

theorem evaluationLoop_spec (hl0 : 0 < l) (hl24 : l <= 24) {values : List Nat}
    (hlength : values.length = 2 ^ l) (hk32 : k < 2 ^ 32) :
    exists s, (List.range (2 ^ l)).foldlM
        (automorphismEvaluationStep l (2 ^ l - 1) k values)
        (k, List.replicate (2 ^ l) 0) = some s ∧
      s.2.length = 2 ^ l ∧
      forall r, r < 2 ^ l -> s.2[r]? = values[autoPosition l k r]? := by
  rcases foldlM_range_spec (n := 2 ^ l)
    (f := automorphismEvaluationStep l (2 ^ l - 1) k values)
    (s := (k, List.replicate (2 ^ l) 0))
    (fun c s => s.1 = (2 * c + 1) * k % 2 ^ 32 ∧ s.2.length = 2 ^ l ∧ forall j, j < c ->
      s.2[bitReverse l j]? = values[bitReverse l ((2 * j + 1) * k % 2 ^ (l + 1) / 2)]?)
    ⟨by rw [Nat.mul_zero, Nat.zero_add, Nat.one_mul, Nat.mod_eq_of_lt hk32],
      List.length_replicate, fun j hj => absurd hj (Nat.not_lt_zero j)⟩ (by
      intro c hc s hs
      rcases hs with ⟨hjk, hlen, hplaced⟩
      have hidx : (s.1 >>> 1) &&& (2 ^ l - 1) = (2 * c + 1) * k % 2 ^ (l + 1) / 2 := by
        have hdvd : 2 * 2 ^ l ∣ 2 ^ 32 := by
          rw [← pow_succ']
          exact pow_dvd_pow 2 (by omega)
        rw [hjk, Nat.shiftRight_eq_div_pow, pow_one, Nat.and_two_pow_sub_one_eq_mod,
          ← Nat.mod_mul_right_div_self, Nat.mod_mod_of_dvd _ hdvd, ← pow_succ']
      have hidxlt : (2 * c + 1) * k % 2 ^ (l + 1) / 2 < 2 ^ l := by
        rw [Nat.div_lt_iff_lt_mul (by decide), ← pow_succ]
        exact Nat.mod_lt _ (Nat.two_pow_pos _)
      have hlt := bitReverse_lt l c
      have hread : exists x,
          values[bitReverse l ((2 * c + 1) * k % 2 ^ (l + 1) / 2)]? = some x := by
        refine ⟨_, List.getElem?_eq_getElem ?_⟩
        rw [hlength]
        exact bitReverse_lt l _
      rcases hread with ⟨x, hread⟩
      rw [hlength.symm] at hlt
      refine ⟨(usint (s.1 + 2 * k : Nat), s.2.set (bitReverse l c) x), ?_, ?_, ?_, ?_⟩
      · unfold automorphismEvaluationStep
        rw [reverseBits_low hl0 hl24 hc, hidx, reverseBits_low hl0 hl24 hidxlt]
        simp only [Option.bind_eq_bind, Option.bind_some]
        rw [hread, Option.bind_some, if_pos hlt]
      · rw [usint_natCast, hjk, Nat.mod_add_mod]
        ring_nf
      · rw [List.length_set, hlen]
      · intro j hj
        rcases Nat.lt_or_ge j c with hbelow | hge
        · rw [List.getElem?_set_ne]
          · exact hplaced j hbelow
          · intro heq
            have hsame := bitReverse_injOn l hc (by omega) heq
            omega
        · have heq : j = c := by omega
          rw [heq, List.getElem?_set_self (by omega), hread]) with
    ⟨s, hrun, _, hlen, hplaced⟩
  refine ⟨s, hrun, hlen, ?_⟩
  intro r hr
  have hentry := hplaced (bitReverse l r) (bitReverse_lt l r)
  rw [bitReverse_bitReverse l hr] at hentry
  exact hentry

end Steps

/-! ## What the automorphism computes -/

section Transform

variable {l k : Nat} (hl : l < 31) (hk : k % 2 = 1) {a : Poly}
  (hlength : a.values.length = 2 ^ l)

include hl hk hlength

theorem automorphismTransform_unfold : automorphismTransform k a =
    (match a.format with
      | .EVALUATION =>
          (List.range (2 ^ l)).foldlM (automorphismEvaluationStep l (2 ^ l - 1) k a.values)
            (k, List.replicate (2 ^ l) 0)
      | .COEFFICIENT =>
          (List.range (2 ^ l)).foldlM
            (automorphismCoefficientStep a.modulus l (2 ^ l - 1) k a.values)
            (0, List.replicate (2 ^ l) 0)).map fun s : Nat × List Nat =>
        { a with values := s.2 } := by
  have hlogn : getMSB (2 * 2 ^ l) - 1 - 1 = l := by
    rw [← pow_succ', getMSB_two_pow]
    omega
  unfold automorphismTransform
  dsimp only
  rw [if_neg (by omega), hlength, hlogn, Nat.one_shiftLeft]

theorem automorphismTransform_coefficient (hformat : a.format = .COEFFICIENT) :
    exists b, automorphismTransform k a = some b ∧ b.modulus = a.modulus ∧
      b.format = .COEFFICIENT ∧ b.values.length = 2 ^ l ∧
      forall j, j < 2 ^ l ->
        b.values[j * k % 2 ^ l]? = some (moved a.modulus (j * k / 2 ^ l % 2 = 1) (a.value j)) := by
  rcases coefficientLoop_spec (by omega : l < 32) a.modulus hk hlength with
    ⟨s, hrun, hlen, hplaced⟩
  refine ⟨{ a with values := s.2 }, ?_, rfl, hformat, hlen, hplaced⟩
  rw [automorphismTransform_unfold hl hk hlength, hformat]
  dsimp only
  rw [hrun]
  rfl

theorem automorphismTransform_evaluation (hl0 : 0 < l) (hl24 : l <= 24) (hk32 : k < 2 ^ 32)
    (hformat : a.format = .EVALUATION) :
    exists b, automorphismTransform k a = some b ∧ b.modulus = a.modulus ∧
      b.format = .EVALUATION ∧ b.values.length = 2 ^ l ∧
      forall r, r < 2 ^ l -> b.values[r]? = a.values[autoPosition l k r]? := by
  rcases evaluationLoop_spec (by omega : l < 32) hl0 hl24 hlength hk32 with
    ⟨s, hrun, hlen, hplaced⟩
  refine ⟨{ a with values := s.2 }, ?_, rfl, hformat, hlen, hplaced⟩
  rw [automorphismTransform_unfold hl hk hlength, hformat]
  dsimp only
  rw [hrun]
  rfl

end Transform

/-! ## Signs -/

section Signs

variable {q x : Nat} (hq : q < 2 ^ 64) (hx : x <= q)

include hq hx

theorem moved_eq (wraps : Prop) [Decidable wraps] :
    moved q wraps x = if wraps then q - x else x := by
  unfold moved
  split
  next => exact subFast_eq hx hq
  next => rfl

theorem moved_moved (first second both : Prop) [Decidable first] [Decidable second]
    [Decidable both] (hboth : both <-> (first <-> ¬second)) :
    moved q second (moved q first x) = moved q both x := by
  have hle : moved q first x <= q := by
    rw [moved_eq hq hx]
    split <;> omega
  rw [moved_eq hq hle, moved_eq hq hx, moved_eq hq hx]
  by_cases hfirst : first
  · by_cases hsecond : second
    · rw [if_pos hsecond, if_pos hfirst, if_neg (by tauto)]
      omega
    · rw [if_neg hsecond, if_pos hfirst, if_pos (by tauto)]
  · by_cases hsecond : second
    · rw [if_pos hsecond, if_neg hfirst, if_pos (by tauto)]
    · rw [if_neg hsecond, if_neg hfirst, if_neg (by tauto)]

end Signs

theorem wrap_mul {l k' : Nat} (j k : Nat) (hk' : k' % 2 = 1) :
    (j * (k * k' % 2 ^ (l + 1)) % 2 ^ l = j * k % 2 ^ l * k' % 2 ^ l) ∧
      (j * (k * k' % 2 ^ (l + 1)) / 2 ^ l % 2 = 1 <->
        (j * k / 2 ^ l % 2 = 1 <-> ¬j * k % 2 ^ l * k' / 2 ^ l % 2 = 1)) := by
  have hpos := Nat.two_pow_pos l
  have hmod : j * (k * k' % 2 ^ (l + 1)) % 2 ^ (l + 1) = j * k * k' % 2 ^ (l + 1) := by
    rw [Nat.mul_mod_mod, Nat.mul_assoc]
  have hdvd : 2 ^ l ∣ 2 ^ (l + 1) := pow_dvd_pow 2 (Nat.le_succ l)
  have hsplit := Nat.div_add_mod (j * k) (2 ^ l)
  constructor
  · rw [← Nat.mod_mod_of_dvd _ hdvd, hmod, Nat.mod_mod_of_dvd _ hdvd, Nat.mod_mul_mod]
  · have hwrap : j * (k * k' % 2 ^ (l + 1)) / 2 ^ l % 2 = j * k * k' / 2 ^ l % 2 := by
      rw [← Nat.mod_mul_right_div_self, ← Nat.mod_mul_right_div_self, ← pow_succ, hmod]
    have hsum : j * k * k' / 2 ^ l =
        j * k / 2 ^ l * k' + j * k % 2 ^ l * k' / 2 ^ l := by
      conv_lhs => rw [← hsplit]
      rw [Nat.add_mul, Nat.mul_assoc, Nat.mul_add_div hpos]
    have hparity : j * k / 2 ^ l * k' % 2 = j * k / 2 ^ l % 2 := by
      rw [Nat.mul_mod, hk', Nat.mul_one, Nat.mod_mod]
    rw [hwrap, hsum]
    omega

/-! ## Composition -/

theorem automorphismTransform_compose_coefficient {l q k k' : Nat} (hl : l < 31)
    (hq : q < 2 ^ 64) (hk : k % 2 = 1) (hk' : k' % 2 = 1) {a : Poly}
    (ha : WellFormed q (2 ^ l) .COEFFICIENT a) :
    exists c, (automorphismTransform k a).bind (automorphismTransform k') = some c ∧
      automorphismTransform (k * k' % 2 ^ (l + 1)) a = some c := by
  have hboth : k * k' % 2 ^ (l + 1) % 2 = 1 := by
    rw [Nat.mod_mod_of_dvd _ (dvd_pow_self 2 (Nat.succ_ne_zero l)), Nat.mul_mod, hk, hk']
  have hle {j : Nat} (hj : j < 2 ^ l) : a.value j <= q := (ha.value_lt hj).le
  rcases automorphismTransform_coefficient hl hk ha.2.2.1 ha.2.1 with
    ⟨b, hb, hbmod, hbfmt, hblen, hbval⟩
  rcases automorphismTransform_coefficient hl hk' hblen hbfmt with
    ⟨c, hc, hcmod, hcfmt, hclen, hcval⟩
  rcases automorphismTransform_coefficient hl hboth ha.2.2.1 ha.2.1 with
    ⟨d, hd, hdmod, hdfmt, hdlen, hdval⟩
  rw [hb, Option.bind_some]
  refine ⟨c, hc, ?_⟩
  rw [hd]
  apply congrArg some
  apply eq_of_values (hdmod.trans (hcmod.trans hbmod).symm) (hdfmt.trans hcfmt.symm) hdlen hclen
  intro r hr
  rcases exists_mul_mod_eq hboth hr with ⟨j, hj, rfl⟩
  rcases wrap_mul (l := l) j k hk' with ⟨hplace, hwraps⟩
  have hbvalue : b.value (j * k % 2 ^ l) = moved q (j * k / 2 ^ l % 2 = 1) (a.value j) := by
    rw [Poly.value, List.getD_eq_getElem?_getD, hbval j hj, ha.1]
    rfl
  rw [hdval j hj, hplace, hcval _ (Nat.mod_lt _ (Nat.two_pow_pos l)), hbvalue, hbmod, ha.1,
    moved_moved hq (hle hj) _ _ _ hwraps]

theorem automorphismTransform_compose_evaluation {l q k k' : Nat} (hl0 : 0 < l) (hl24 : l <= 24)
    (hk : k % 2 = 1) (hk32 : k < 2 ^ 32) (hk' : k' % 2 = 1) (hk32' : k' < 2 ^ 32) {a : Poly}
    (ha : WellFormed q (2 ^ l) .EVALUATION a) :
    exists c, (automorphismTransform k a).bind (automorphismTransform k') = some c ∧
      automorphismTransform (k * k' % 2 ^ (l + 1)) a = some c := by
  have hl : l < 31 := by omega
  have hboth : k * k' % 2 ^ (l + 1) % 2 = 1 := by
    rw [Nat.mod_mod_of_dvd _ (dvd_pow_self 2 (Nat.succ_ne_zero l)), Nat.mul_mod, hk, hk']
  have hboth32 : k * k' % 2 ^ (l + 1) < 2 ^ 32 :=
    lt_of_lt_of_le (Nat.mod_lt _ (Nat.two_pow_pos _)) (Nat.pow_le_pow_right (by omega) (by omega))
  rcases automorphismTransform_evaluation hl hk ha.2.2.1 hl0 hl24 hk32 ha.2.1 with
    ⟨b, hb, hbmod, hbfmt, hblen, hbval⟩
  rcases automorphismTransform_evaluation hl hk' hblen hl0 hl24 hk32' hbfmt with
    ⟨c, hc, hcmod, hcfmt, hclen, hcval⟩
  rcases automorphismTransform_evaluation hl hboth ha.2.2.1 hl0 hl24 hboth32 ha.2.1 with
    ⟨d, hd, hdmod, hdfmt, hdlen, hdval⟩
  rw [hb, Option.bind_some]
  refine ⟨c, hc, ?_⟩
  rw [hd]
  apply congrArg some
  apply eq_of_values (hdmod.trans (hcmod.trans hbmod).symm) (hdfmt.trans hcfmt.symm) hdlen hclen
  intro r hr
  rw [hdval r hr, hcval r hr, hbval _ (autoPosition_lt l k' r)]
  congr 1
  apply oddPoint_injOn (autoPosition_lt _ _ _) (autoPosition_lt _ _ _)
  rw [oddPoint_autoPosition l hboth, oddPoint_autoPosition l hk, oddPoint_autoPosition l hk',
    Nat.mul_mod_mod, Nat.mod_mul_mod, Nat.mul_assoc, Nat.mul_comm k']

/-! ## The transform -/

section Canonical

variable {l q k : Nat} (hl : l < 31) (hq : q < 2 ^ 64) (hk : k % 2 = 1) {a b : Poly}
  (ha : WellFormed q (2 ^ l) .COEFFICIENT a)

include hl hq hk ha

/-- The moved coefficients are residues if and only if no zero wraps. -/
theorem automorphismTransform_canonical_iff (hb : automorphismTransform k a = some b) :
    (forall x, x ∈ b.values -> x < q) <->
      forall j, j < 2 ^ l -> a.value j = 0 -> j * k / 2 ^ l % 2 = 0 := by
  rcases automorphismTransform_coefficient hl hk ha.2.2.1 ha.2.1 with
    ⟨b', hb', hbmod, hbfmt, hblen, hbval⟩
  cases hb.symm.trans hb'
  have hlt {j : Nat} (hj : j < 2 ^ l) : a.value j < q := ha.value_lt hj
  constructor
  · intro hcanonical j hj hzero
    by_contra hwraps
    have hplaced := hbval j hj
    rw [ha.1, moved_eq hq (hlt hj).le, if_pos (by omega), hzero, Nat.sub_zero] at hplaced
    exact absurd (hcanonical q (List.mem_of_getElem? hplaced)) (Nat.lt_irrefl q)
  · intro hzeros x hx
    rcases List.mem_iff_getElem?.mp hx with ⟨r, hr⟩
    have hr' : r < 2 ^ l := by
      rw [← hblen]
      exact (List.getElem?_eq_some_iff.mp hr).1
    rcases exists_mul_mod_eq hk hr' with ⟨j, hj, rfl⟩
    rw [hbval j hj, ha.1, moved_eq hq (hlt hj).le] at hr
    cases hr
    have hvalue := hlt hj
    split
    next hwraps =>
        have hne : a.value j ≠ 0 := by
          intro hzero
          have hkeeps := hzeros j hj hzero
          omega
        omega
    next => exact hvalue

/-- Without a wrapped zero the moved coefficients are those of the automorphism. -/
theorem automorphismTransform_residues (hb : automorphismTransform k a = some b)
    (hzeros : forall j, j < 2 ^ l -> a.value j = 0 -> j * k / 2 ^ l % 2 = 0) :
    WellFormed q (2 ^ l) .COEFFICIENT b ∧ forall j, j < 2 ^ l ->
      (b.value (j * k % 2 ^ l) : ZMod q) =
        if j * k / 2 ^ l % 2 = 1 then -(a.value j : ZMod q) else a.value j := by
  have hcanonical := (automorphismTransform_canonical_iff hl hq hk ha hb).mpr hzeros
  rcases automorphismTransform_coefficient hl hk ha.2.2.1 ha.2.1 with
    ⟨b', hb', hbmod, hbfmt, hblen, hbval⟩
  cases hb.symm.trans hb'
  refine ⟨⟨hbmod.trans ha.1, hbfmt, hblen, hcanonical⟩, ?_⟩
  intro j hj
  have hle : a.value j <= q := (ha.value_lt hj).le
  rw [Poly.value, List.getD_eq_getElem?_getD, hbval j hj, Option.getD_some, ha.1,
    moved_eq hq hle]
  split
  next => rw [Nat.cast_sub hle, ZMod.natCast_self, zero_sub]
  next => rfl

end Canonical

/-- What the automorphism by `k` should do with a polynomial and its transform. -/
structure AutomorphismCorrect (cache : TableCache) (l q k : Nat) (a : Poly) : Prop where
  commutes : exists r, (automorphismTransform k a).bind (switchFormat cache) = some r ∧
    (switchFormat cache a).bind (automorphismTransform k) = some r
  map : exists precomp r, precomputeAutoMap (2 ^ l) k = some precomp ∧
    (switchFormat cache a).bind (automorphismTransform k) = some r ∧
    (switchFormat cache a).bind (automorphismTransformMap k precomp) = some r
  composes : forall k', k' % 2 = 1 -> k' < 2 ^ 32 ->
    forall x, x = a ∨ switchFormat cache a = some x ->
      exists r, (automorphismTransform k x).bind (automorphismTransform k') = some r ∧
        automorphismTransform (k * k' % 2 ^ (l + 1)) x = some r
  canonical : forall x, x = a ∨ switchFormat cache a = some x ->
    exists r, automorphismTransform k x = some r ∧ forall v, v ∈ r.values -> v < q

section Correct

variable {cache : TableCache} {l q psi k : Nat} (hl0 : 0 < l) (hl24 : l <= 24)
  (hready : Ready cache l q psi) (hk : k % 2 = 1) (hk32 : k < 2 ^ 32) {a : Poly}

include hl0 hl24 hk hk32

theorem automorphismTransform_denotes {f : Nat -> ZMod q}
    (ha : Denotes q (2 ^ l) .EVALUATION f a) :
    exists b, automorphismTransform k a = some b ∧
      Denotes q (2 ^ l) .EVALUATION (fun r => f (autoPosition l k r)) b := by
  rcases automorphismTransform_evaluation (by omega) hk ha.holds.length_eq hl0 hl24 hk32
    ha.format_eq with ⟨b, hb, hbmod, hbfmt, hblen, hbval⟩
  refine ⟨b, hb, hbmod.trans ha.modulus_eq, hbfmt, hblen, ?_⟩
  intro r x hx
  have hr : r < 2 ^ l := by
    rw [← hblen]
    exact (List.getElem?_eq_some_iff.mp hx).1
  rw [hbval r hr] at hx
  exact ha.holds.get _ x hx

include hready

theorem automorphismCorrect_of_keeps (ha : WellFormed q (2 ^ l) .COEFFICIENT a)
    (hzeros : forall j, j < 2 ^ l -> a.value j = 0 -> j * k / 2 ^ l % 2 = 0) :
    AutomorphismCorrect cache l q k a := by
  have hl : l < 31 := by omega
  have hq : q < 2 ^ 64 := lt_trans hready.modulus.lt (by decide)
  rcases automorphismTransform_coefficient hl hk ha.2.2.1 ha.2.1 with ⟨b, hb, _⟩
  rcases automorphismTransform_residues hl hq hk ha hb hzeros with ⟨hbwf, hbvalue⟩
  rcases switchFormat_evaluation hl0 hready ha.denotes with ⟨e, he, hedenotes⟩
  rcases switchFormat_evaluation hl0 hready hbwf.denotes with ⟨r, hr, hrdenotes⟩
  rcases automorphismTransform_denotes hl0 hl24 hk hk32 hedenotes with ⟨r', hr', hr'denotes⟩
  have hsame : r' = r := by
    apply hr'denotes.unique (hrdenotes.congr ?_)
    intro i _
    exact (stageArray_signed hready.root hk hbvalue i).symm
  rw [hsame] at hr' hr'denotes
  have heither {x : Poly} (hx : x = a ∨ switchFormat cache a = some x) : x = a ∨ x = e := by
    rcases hx with hx | hx
    · exact Or.inl hx
    · exact Or.inr (Option.some.inj (hx.symm.trans he))
  constructor
  case commutes =>
    refine ⟨r, ?_, ?_⟩
    · rw [hb, Option.bind_some, hr]
    · rw [he, Option.bind_some, hr']
  case map =>
    rcases precomputeAutoMap_spec hl hl0 hl24 (i := k) with ⟨precomp, hprecomp, _, hentries⟩
    rcases automorphismTransformMap_denotes hedenotes hk hentries
      (fun j _ => autoPosition_lt l k j) with ⟨m, hm, hmdenotes⟩
    refine ⟨precomp, r, hprecomp, ?_, ?_⟩
    · rw [he, Option.bind_some, hr']
    · rw [he, Option.bind_some, hm, hmdenotes.unique hr'denotes]
  case composes =>
    intro k' hk' hk32' x hx
    rcases heither hx with rfl | rfl
    · exact automorphismTransform_compose_coefficient hl hq hk hk' ha
    · exact automorphismTransform_compose_evaluation hl0 hl24 hk hk32 hk' hk32'
        hedenotes.wellFormed
  case canonical =>
    intro x hx
    rcases heither hx with rfl | rfl
    · exact ⟨b, hb, hbwf.2.2.2⟩
    · exact ⟨r, hr', hr'denotes.wellFormed.2.2.2⟩

end Correct

/--
The automorphism is correct if and only if the dimension is one of `2, ..., 2 ^ 24`
and no zero coefficient wraps around the dimension an odd number of times.
-/
theorem automorphismCorrect_iff {cache : TableCache} {l q psi k : Nat}
    (horder : 2 * 2 ^ l < 2 ^ 32) (hprime : Nat.Prime q) (hq : q < 2 ^ 60)
    (hmod : q % (2 * 2 ^ l) = 1) (hpsi : psi < q)
    (hroot : IsPrimitiveRoot (psi : ZMod q) (2 * 2 ^ l))
    (hcache : cache q = Transform.preCompute psi (2 * 2 ^ l) q) (hk : k % 2 = 1)
    (hk32 : k < 2 ^ 32) {a : Poly} (ha : WellFormed q (2 ^ l) .COEFFICIENT a) :
    AutomorphismCorrect cache l q k a <->
      (0 < l ∧ l <= 24) ∧
        forall j, j < 2 ^ l -> a.value j = 0 -> j * k / 2 ^ l % 2 = 0 := by
  have hl : l < 31 := by
    by_contra hlt
    have hpow : 2 ^ 31 <= 2 ^ l := Nat.pow_le_pow_right (by decide) (by omega)
    omega
  constructor
  · intro h
    have hdim : 0 < l ∧ l <= 24 := by
      by_contra hnot
      have hnone : cache q = none := by
        rw [hcache]
        rcases Nat.eq_zero_or_pos l with hzero | hpos
        · rw [hzero]
          exact Transform.preCompute_one_eq_none psi q
        · exact Transform.preCompute_eq_none psi q (by omega) (by omega)
      rcases h.commutes with ⟨r, _, hr⟩
      rw [switchFormat, ha.1, hnone] at hr
      cases hr
    rcases h.canonical a (Or.inl rfl) with ⟨b, hb, hcanonical⟩
    exact ⟨hdim, (automorphismTransform_canonical_iff hl (lt_trans hq (by decide)) hk ha
      hb).mp hcanonical⟩
  · rintro ⟨⟨hl0, hl24⟩, hzeros⟩
    have : Fact (Nat.Prime q) := ⟨hprime⟩
    have hodd : q % 2 = 1 := by
      rw [← Nat.mod_mod_of_dvd q (Dvd.intro _ rfl : 2 ∣ 2 * 2 ^ l), hmod]
    have hready := ready_of_preCompute ⟨hodd, hprime.one_lt, hq⟩ hl0 hl24 hpsi
      (Transform.IsPrimitiveRoot.pow_half_eq_neg_one (Nat.two_pow_pos l) hroot) hcache
    exact automorphismCorrect_of_keeps hl0 hl24 hready hk hk32 ha hzeros

/-- `1 + X` modulo 5 in dimension two, moved by 3. -/
theorem automorphismCorrect_iff_one_one :
    AutomorphismCorrect (fun q => Transform.preCompute 2 (2 * 2 ^ 1) q) 1 5 3
        ⟨5, .COEFFICIENT, [1, 1]⟩ <->
      (0 < 1 ∧ 1 <= 24) ∧ forall j, j < 2 ^ 1 ->
        value ⟨5, .COEFFICIENT, [1, 1]⟩ j = 0 -> j * 3 / 2 ^ 1 % 2 = 0 :=
  automorphismCorrect_iff (by decide) (by decide) (by decide) (by decide) (show 2 < 5 by decide)
    (Transform.isPrimitiveRoot_of_pow_eq_neg_one 1 (by decide) (by decide)) rfl (by decide)
    (by decide) ⟨rfl, rfl, rfl, by decide⟩

/-- The zero coefficient of the constant 1 comes out as the modulus. -/
theorem automorphismTransform_zero_wraps :
    automorphismTransform 3 ⟨5, .COEFFICIENT, [1, 0]⟩ = some ⟨5, .COEFFICIENT, [1, 5]⟩ ∧
      ¬AutomorphismCorrect (fun q => Transform.preCompute 2 (2 * 2 ^ 1) q) 1 5 3
        ⟨5, .COEFFICIENT, [1, 0]⟩ := by
  have hrun : automorphismTransform 3 ⟨5, .COEFFICIENT, [1, 0]⟩ =
      some ⟨5, .COEFFICIENT, [1, 5]⟩ := by
    decide +kernel
  refine ⟨hrun, ?_⟩
  intro h
  rcases h.canonical _ (Or.inl rfl) with ⟨b, hb, hcanonical⟩
  cases hb.symm.trans hrun
  exact absurd (hcanonical 5 (by simp)) (Nat.lt_irrefl 5)

end Poly
end Hal
end OpenFHE
