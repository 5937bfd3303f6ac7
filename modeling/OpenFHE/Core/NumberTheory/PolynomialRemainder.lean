import OpenFHE.Core.NumberTheory.IntVector
import OpenFHE.Core.NumberTheory.CoefficientLoops

/-!
# Polynomial remainders

`PolyMod` divides by a monic polynomial.  With every run the running dividend moves up by one
place, and the multiple of the divisor that cancels its highest coefficient is subtracted from
the entries on the way.  What has not moved past the last place in the end is the remainder.
-/

namespace OpenFHE
namespace Core

open Foundation NativeInteger Polynomial

namespace IntVectorType

variable (T : IntVectorType)

/-- The subtraction of `PolyMod`, of a product from an entry. -/
def subMulEq (modulus mu x d divConst : Nat) : Outcome Nat :=
  T.modSubEqMu x (T.mul d divConst) modulus mu

def polyMod (dividend divisor : IntVector) (modulus : Nat) : Outcome IntVector := do
  let mu <- T.computeMu modulus
  let divisorLength := usint divisor.getLength
  let dividendLength := usint dividend.getLength
  let runs := usint ((dividendLength : Int) - divisorLength + 1)
  let runningDividend <- (List.range runs).foldlM
    (cancelRun (T.subMulEq modulus mu) divisor.data dividendLength divisorLength) dividend.data
  let result <- (List.range (usint ((divisorLength : Int) - 1))).foldlM
    (fun result i => entry runningDividend (usint ((runs + i : Nat) : Int)) >>= store result i)
    (List.replicate (usint ((divisorLength : Int) - 1)) 0)
  return { data := result, modulus := modulus }

/-- The remainders of dividends with `lf` coefficients by monic divisors with `lg` are right. -/
def PolyModRight (m lf lg : Nat) : Prop :=
  forall (F G : (ZMod m)[X]) (dividend divisor : IntVector), dividend.getLength = lf ->
    divisor.getLength = lg -> Coefficients (IsResidue m) F dividend.data ->
    Coefficients (IsResidue m) G divisor.data -> G.coeff (lg - 1) = 1 ->
    exists r, T.polyMod dividend divisor m = .ok r ∧ r.modulus = m ∧ r.getLength = lg - 1 ∧
      Coefficients (IsResidue m) (F %ₘ G) r.data

variable {T} {m mu : Nat} {F G : (ZMod m)[X]}

theorem subtracts_of_differences (hdiff : DifferencesRight T m mu) {v : ZMod m} {c : Nat}
    (hc : IsResidue m v c) : Subtracts (IsResidue m) (T.subMulEq m mu) v c := by
  intro u w x y hx hy
  rcases hdiff x y c hx.lt hy.lt hc.lt with ⟨z, hz, hres⟩
  refine ⟨z, hz, ?_⟩
  rw [← hx.cast, ← hy.cast, ← hc.cast]
  exact hres

section Runs

variable {dividend divisor : IntVector} {d : Nat} (hmu : T.computeMu m = .ok mu)
  (hlt : dividend.getLength < 2 ^ 32) (hd : d < dividend.getLength)
  (hg : divisor.getLength = d + 1)

include hmu hlt hd hg

theorem polyMod_eq : T.polyMod dividend divisor m =
    ((List.range (dividend.getLength - d)).foldlM
      (cancelRun (T.subMulEq m mu) divisor.data dividend.getLength (d + 1)) dividend.data >>= fun rd =>
      (List.range d).foldlM (fun result i =>
        entry rd (usint ((dividend.getLength - d + i : Nat) : Int)) >>= store result i)
        (List.replicate d 0) >>= fun result => .ok ⟨result, m⟩) := by
  have hruns : usint ((dividend.getLength : Int) - (d + 1 : Nat) + 1) =
      dividend.getLength - d := by
    unfold usint
    omega
  have hcount : usint (((d + 1 : Nat) : Int) - 1) = d := by
    unfold usint
    omega
  unfold polyMod
  rw [hmu, ok_bind, hg]
  dsimp only
  rw [usint_eq hlt, usint_eq (show d + 1 < 2 ^ 32 by omega), hruns, hcount]
  rfl

theorem polyMod_result {rd : List Nat} (hlength : rd.length = dividend.getLength)
    (hrun : (List.range (dividend.getLength - d)).foldlM
      (cancelRun (T.subMulEq m mu) divisor.data dividend.getLength (d + 1)) dividend.data = .ok rd) :
    T.polyMod dividend divisor m = .ok ⟨rd.drop (dividend.getLength - d), m⟩ := by
  have hdrop : (rd.drop (dividend.getLength - d)).length = d := by
    rw [List.length_drop, hlength]
    omega
  have hcopy := @foldlM_store_eq Nat (rd.drop (dividend.getLength - d)) 0
    (fun i => entry rd (usint ((dividend.getLength - d + i : Nat) : Int)))
    (by
      intro i x hx
      have hrange := (List.getElem?_eq_some_iff.mp hx).1
      rw [List.getElem?_drop] at hx
      rw [usint_eq (by omega)]
      exact entry_ok hx)
  rw [hdrop] at hcopy
  rw [polyMod_eq hmu hlt hd hg, hrun, ok_bind, hcopy, ok_bind]

theorem polyMod_spec (hdiff : 0 < d -> DifferencesRight T m mu)
    (hF : Coefficients (IsResidue m) F dividend.data)
    (hG : Coefficients (IsResidue m) G divisor.data) (hone : G.coeff d = 1) :
    exists r, T.polyMod dividend divisor m = .ok r ∧ r.modulus = m ∧ r.getLength = d ∧
      Coefficients (IsResidue m) (F %ₘ G) r.data := by
  rcases foldlM_range_ok (n := dividend.getLength - d) (s := dividend.data)
    (f := cancelRun (T.subMulEq m mu) divisor.data dividend.getLength (d + 1))
    (fun i rd => rd.length = dividend.getLength ∧
      exists Q, Coefficients (IsResidue m) (F - G * Q) (rd.drop i))
    ⟨rfl, 0, by rw [mul_zero, sub_zero]; exact hF⟩
    (by
      rintro i hi rd ⟨hlength, Q, hQ⟩
      rcases cancelRun_spec (by rwa [hlength]) hg (by omega) hQ hG hone
        (fun hpos _ hc => subtracts_of_differences (hdiff hpos) hc)
        with ⟨rd', hrun, hlength', hnext⟩
      rw [hlength] at hrun hnext
      generalize hv : (F - G * Q).coeff (dividend.getLength - 1 - i) = v at hnext
      refine ⟨rd', hrun, hlength'.trans hlength,
        Q + C v * X ^ (dividend.getLength - (d + 1) - i), ?_⟩
      have hsplit : F - G * (Q + C v * X ^ (dividend.getLength - (d + 1) - i)) =
          nextDividend (F - G * Q) G (dividend.getLength - (d + 1) - i) v := by
        unfold nextDividend
        ring
      rw [hsplit]
      exact hnext) with ⟨rd, hrun, hlength, Q, hQ⟩
  have hdrop : (rd.drop (dividend.getLength - d)).length = d := by
    rw [List.length_drop, hlength]
    omega
  refine ⟨_, polyMod_result hmu hlt hd hg hlength hrun, rfl, hdrop, ?_⟩
  have hmod : F %ₘ G = F - G * Q := by
    apply modByMonic_eq hone (Q := Q)
    · intro k hk
      exact hG.coeff_eq_zero k (hg.trans_le hk)
    · intro k hk
      exact hQ.coeff_eq_zero k (hdrop.trans_le hk)
    · ring
  rw [hmod]
  exact hQ

end Runs

/-! ## The subtractions that a run shows -/

theorem cancelStep_length {f : Nat -> Nat -> Nat -> Outcome Nat} {g rd rd' : List Nat}
    {c L d j : Nat} (h : cancelStep f g c L d rd j = .ok rd') : rd'.length = rd.length := by
  unfold cancelStep at h
  rcases bind_eq_ok h with ⟨x, _, h⟩
  rcases bind_eq_ok h with ⟨z, _, h⟩
  unfold store at h
  split at h
  next =>
      cases h
      exact List.length_set
  next => cases h

theorem cancelRun_last {f : Nat -> Nat -> Nat -> Outcome Nat} {g rd rd' : List Nat}
    {d i r a b : Nat} (hlt : rd.length < 2 ^ 32)
    (hfit : i + 1 < rd.length) (hr : rd[rd.length - 2]? = some r)
    (hb : rd[rd.length - 1]? = some b) (ha : g[d]? = some a) (hd : d + 1 < rd.length)
    (hrun : cancelRun f g rd.length (d + 2) rd i = .ok rd') :
    rd'.length = rd.length ∧ exists z, f r a b = .ok z ∧
      rd'[rd.length - 1]? = some z := by
  have hlast : usint ((rd.length : Int) - 1) = rd.length - 1 := by
    unfold usint
    omega
  have hptr : usint (((d + 2 : Nat) : Int) - 1) = d + 1 := by
    unfold usint
    omega
  have hcount : usint ((rd.length : Int) - i - 1) = rd.length - i - 2 + 1 := by
    unfold usint
    omega
  unfold cancelRun at hrun
  rw [hlast, entry_ok hb, ok_bind, hptr, hcount, List.range_succ_eq_map, List.foldlM_cons] at hrun
  rcases bind_eq_ok hrun with ⟨rd₁, hfirst, hrest⟩
  -- the first step
  have hsource : usint ((rd.length : Int) - 2 - (0 : Nat)) = rd.length - 2 := by
    unfold usint
    omega
  have htarget : usint ((rd.length : Int) - 1 - (0 : Nat)) = rd.length - 1 := by
    unfold usint
    omega
  have hdigit : usint (((d + 1 : Nat) : Int) - 1 - (0 : Nat)) = d := by
    unfold usint
    omega
  unfold cancelStep at hfirst
  rw [hsource, htarget, hdigit, entry_ok hr, ok_bind, if_pos (Nat.succ_pos d), entry_ok ha,
    ok_bind] at hfirst
  rcases bind_eq_ok hfirst with ⟨z, hz, hstore⟩
  rw [store_ok _ (by omega)] at hstore
  cases hstore
  -- the later steps store below
  have hinv := foldlM_ok_invariant (fun rd' => rd'.length = rd.length ∧
      rd'[rd.length - 1]? = some z) ⟨List.length_set, List.getElem?_set_self (by omega)⟩
    (by
      rintro j hj s s' ⟨hlength, hget⟩ hstep
      rcases List.mem_map.mp hj with ⟨k, hk, rfl⟩
      refine ⟨(cancelStep_length hstep).trans hlength, ?_⟩
      have hplace : usint ((rd.length : Int) - 1 - (k + 1 : Nat)) ≠ rd.length - 1 := by
        have hklt := List.mem_range.mp hk
        unfold usint
        omega
      unfold cancelStep at hstep
      rcases bind_eq_ok hstep with ⟨_, _, hstep⟩
      rcases bind_eq_ok hstep with ⟨_, _, hstep⟩
      unfold store at hstep
      split at hstep
      next =>
          cases hstep
          rw [List.getElem?_set_ne hplace, hget]
      next => cases hstep) hrest
  exact ⟨hinv.1, z, hz, hinv.2⟩

theorem IsResidue.unique {v : ZMod m} {x y : Nat} (hx : IsResidue m v x) (hy : IsResidue m v y) :
    x = y := by
  have hmod := (ZMod.natCast_eq_natCast_iff x y m).mp (hx.cast.trans hy.cast.symm)
  exact hmod.eq_of_lt_of_lt hx.lt hy.lt

/-- Multiples of zero may be subtracted from residues. -/
def SubtractsZero (T : IntVectorType) (m mu : Nat) : Prop :=
  forall r a, r < m -> a < m -> T.modSubEqMu r (T.mul a 0) m mu = .ok r

theorem SubtractsZero.subtracts (h : SubtractsZero T m mu) {c : Nat} (hc : IsResidue m 0 c) :
    Subtracts (IsResidue m) (T.subMulEq m mu) 0 c := by
  intro u w x y hx hy
  cases hc.unique (isResidue_zero (Nat.zero_lt_of_lt hc.lt))
  refine ⟨x, h x y hx.lt hy.lt, ?_⟩
  rw [mul_zero, sub_zero]
  exact hx

section TwoTerms

variable {R : Type} [CommRing R] (d : Nat) (u v : R)

theorem twoTerms_coeff_low : (X ^ d * (C u + X * C v)).coeff d = u := by
  have hcoeff := coeff_X_pow_mul (C u + X * C v) d 0
  rwa [Nat.zero_add, coeff_add, coeff_C_zero, coeff_X_mul_zero, add_zero] at hcoeff

theorem twoTerms_coeff_high : (X ^ d * (C u + X * C v)).coeff (d + 1) = v := by
  rw [Nat.add_comm, coeff_X_pow_mul, coeff_add, coeff_C_succ, coeff_X_mul, coeff_C_zero, zero_add]

theorem twoTerms_coeff_above {k : Nat} (hk : d + 1 < k) :
    (X ^ d * (C u + X * C v)).coeff k = 0 := by
  obtain ⟨l, rfl⟩ : exists l, k = l + 2 + d := ⟨k - (d + 2), by omega⟩
  rw [coeff_X_pow_mul, coeff_add, coeff_C_succ, coeff_X_mul, coeff_C_succ, add_zero]

theorem twoTerms_modByMonic (w : R) :
    ((X ^ d * (C u + X * C w)) %ₘ (X ^ d * (C v + X * C 1))).coeff d = u - v * w := by
  have hmod := modByMonic_eq (Q := C w) (S := X ^ d * (C (u - v * w) + X * C 0))
    (twoTerms_coeff_high d v 1) (fun k => twoTerms_coeff_above d v 1)
    (by
      intro k hk
      cases hk.eq_or_lt with
      | inl heq =>
          subst heq
          exact twoTerms_coeff_high d _ 0
      | inr hlt => exact twoTerms_coeff_above d _ 0 hlt)
    (show X ^ d * (C u + X * C w) = _ by
      simp only [C_sub, C_mul, C_1, C_0]
      ring)
  rw [hmod]
  exact twoTerms_coeff_low d _ 0

end TwoTerms

section Converse

theorem zeroRuns_spec {dividend g : List Nat} {d n : Nat} (hzero : SubtractsZero T m mu)
    (hlt : dividend.length < 2 ^ 32) (hg : g.length = d + 1) (hn : n + d < dividend.length)
    (hF : Coefficients (IsResidue m) F dividend) (hG : Coefficients (IsResidue m) G g)
    (hone : G.coeff d = 1) (hlow : forall k, d < k -> F.coeff k = 0) :
    exists rd, (List.range n).foldlM (cancelRun (T.subMulEq m mu) g dividend.length (d + 1)) dividend =
        .ok rd ∧ rd.length = dividend.length ∧ Coefficients (IsResidue m) F (rd.drop n) := by
  apply foldlM_range_ok (fun i (rd : List Nat) => rd.length = dividend.length ∧
    Coefficients (IsResidue m) F (rd.drop i))
  · exact ⟨rfl, hF⟩
  · rintro i hi rd ⟨hlength, hcoeffs⟩
    have hleader : F.coeff (rd.length - 1 - i) = 0 := hlow _ (by omega)
    rcases cancelRun_spec (by rwa [hlength]) hg (by omega) hcoeffs hG hone
      (fun _ c hc => by
        rw [hleader] at hc ⊢
        exact hzero.subtracts hc) with ⟨rd', hrun, hlength', hnext⟩
    rw [hlength] at hrun
    refine ⟨rd', hrun, hlength'.trans hlength, ?_⟩
    unfold nextDividend at hnext
    rw [hleader, C_0, zero_mul, sub_zero] at hnext
    exact hnext

variable (hm : 0 < m)

include hm

theorem differences_of_polyModRight (hmu : T.computeMu m = .ok mu)
    (hzero : SubtractsZero T m mu) {lf lg : Nat} (htwo : 2 <= lg) (hle : lg <= lf)
    (hlt : lf < 2 ^ 32) (h : PolyModRight T m lf lg) : DifferencesRight T m mu := by
  intro r a b hr ha hb
  obtain ⟨d, rfl⟩ : exists d, lg = d + 2 := ⟨lg - 2, by omega⟩
  obtain ⟨n, rfl⟩ : exists n, lf = n + (d + 2) := ⟨lf - (d + 2), by omega⟩
  have hunit := isResidue_mod hm 1
  have hF := (linear_coefficients hr hb n).replicate_append (isResidue_zero hm) d
  have hG := (linear_coefficients ha hunit.lt 0).replicate_append (isResidue_zero hm) d
  rw [hunit.cast, Nat.cast_one] at hG
  have hflength : (List.replicate d 0 ++ r :: b :: List.replicate n 0).length = n + (d + 2) := by
    rw [List.length_append, List.length_cons, List.length_cons, List.length_replicate,
      List.length_replicate]
    omega
  have hglength : (List.replicate d 0 ++ a :: 1 % m :: List.replicate 0 0).length = d + 2 := by
    rw [List.length_append, List.length_replicate]
    rfl
  have hga : (List.replicate d 0 ++ a :: 1 % m :: List.replicate 0 0)[d]? = some a := by
    rw [List.getElem?_append_right (by rw [List.length_replicate]), List.length_replicate,
      Nat.sub_self]
    rfl
  generalize List.replicate d 0 ++ r :: b :: List.replicate n 0 = f at hF hflength
  generalize List.replicate d 0 ++ a :: 1 % m :: List.replicate 0 0 = g at hG hglength hga
  have hone := twoTerms_coeff_high d (a : ZMod m) 1
  rcases zeroRuns_spec hzero (hflength.trans_lt hlt) hglength (n := n) (by omega) hF hG hone
    (fun k => twoTerms_coeff_above d _ _) with ⟨rd, hruns, hlength, hcoeffs⟩
  have hrd : rd.length = n + (d + 2) := hlength.trans hflength
  -- the entries in the last two places
  have hentry {k x : Nat} (hk : k < d + 2)
      (hx : IsResidue m ((X ^ d * (C (r : ZMod m) + X * C (b : ZMod m))).coeff k) x) :
      rd[n + k]? = some x := by
    rcases hcoeffs.entry (show k < (rd.drop n).length by rw [List.length_drop]; omega) with
      ⟨y, hy, hres⟩
    rw [hx.unique hres, ← hy, List.getElem?_drop]
  have hbres := isResidue_natCast hb
  have hrres := isResidue_natCast hr
  rw [← twoTerms_coeff_high d (r : ZMod m) (b : ZMod m)] at hbres
  rw [← twoTerms_coeff_low d (r : ZMod m) (b : ZMod m)] at hrres
  -- the last run
  rcases h _ _ ⟨f, m⟩ ⟨g, m⟩ hflength hglength hF hG hone with ⟨res, hrun, _, _, hresult⟩
  have hlong : d + 1 < IntVector.getLength ⟨f, m⟩ := by
    show d + 1 < f.length
    omega
  have heq := @polyMod_eq T m mu ⟨f, m⟩ ⟨g, m⟩ (d + 1) hmu (hflength.trans_lt hlt) hlong hglength
  have hreturn := heq.symm.trans hrun
  rcases bind_eq_ok hreturn with ⟨rd', hall, _⟩
  have hcount : IntVector.getLength ⟨f, m⟩ - (d + 1) = n + 1 := by
    show f.length - (d + 1) = n + 1
    omega
  have hsplit := hall
  rw [hcount, List.range_succ, List.foldlM_append] at hsplit
  rcases bind_eq_ok hsplit with ⟨rd₁, hfirst, hlast⟩
  cases hruns.symm.trans hfirst
  have hfinal : cancelRun (T.subMulEq m mu) g rd.length (d + 2) rd n = .ok rd' := by
    rw [hlength]
    rw [List.foldlM_cons] at hlast
    rcases bind_eq_ok hlast with ⟨rd₂, hstep, hpure⟩
    cases hpure
    exact hstep
  rcases cancelRun_last (by omega) (by omega)
    (by rw [hrd, show n + (d + 2) - 2 = n + d by omega]; exact hentry (by omega) hrres)
    (by rw [hrd, show n + (d + 2) - 1 = n + (d + 1) by omega]; exact hentry (by omega) hbres)
    hga (by omega) hfinal with ⟨hend, z, hz, hget⟩
  refine ⟨z, hz, ?_⟩
  have hdrop := @polyMod_result T m mu ⟨f, m⟩ ⟨g, m⟩ (d + 1) hmu (hflength.trans_lt hlt) hlong
    hglength _ (hend.trans hlength) hall
  cases hrun.symm.trans hdrop
  have hcoeff := hresult.get d z (by
    rw [List.getElem?_drop, hcount, show n + 1 + d = rd.length - 1 by omega]
    exact hget)
  rw [twoTerms_modByMonic] at hcoeff
  exact hcoeff

theorem polyModRight_iff (hmu : T.computeMu m = .ok mu) (hzero : SubtractsZero T m mu)
    {lf lg : Nat} (hone : 1 <= lg) (hle : lg <= lf) (hlt : lf < 2 ^ 32) :
    PolyModRight T m lf lg <-> lg = 1 ∨ DifferencesRight T m mu := by
  constructor
  · intro h
    cases hone.eq_or_lt with
    | inl heq => exact Or.inl heq.symm
    | inr htwo => exact Or.inr (differences_of_polyModRight hm hmu hzero htwo hle hlt h)
  · rintro h F G dividend divisor rfl rfl hF hG hleader
    apply polyMod_spec hmu hlt (by omega) (Nat.sub_add_cancel hone).symm _ hF hG hleader
    intro hpos
    cases h with
    | inl heq => omega
    | inr hdiff => exact hdiff

end Converse

end IntVectorType
end Core
end OpenFHE
