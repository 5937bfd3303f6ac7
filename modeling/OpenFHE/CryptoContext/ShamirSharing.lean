import OpenFHE.CryptoContext.AdditiveSharing
import OpenFHE.Core.NativeInteger.ModInverse
import OpenFHE.Foundation.Interpolation

/-!
# Recovery from Shamir shares

A share is the value of a random polynomial at the index of a party.  The products
of one value are added without a reduction, and a single subtraction of the modulus
follows.  Shares that are reduced in spite of this give back the key by
interpolation at zero.
-/

namespace OpenFHE
namespace CryptoContext

open OpenFHE.Core Foundation Hal NativeInteger

/-!
## The value of a share
-/

/-- The products that `evalStep` adds for `count` coefficients after the first. -/
def unreducedSum (q i : Nat) (f : Nat -> Nat) (count : Nat) : Nat :=
  ∑ t ∈ Finset.range count, i ^ (t + 1) % q * f (t + 1) % q

def shareValue (q i : Nat) (f : Nat -> Nat) (threshold : Nat) : Nat :=
  (∑ t ∈ Finset.range threshold, i ^ t * f t) % q

theorem unreducedSum_lt {q : Nat} (hq : 0 < q) (i : Nat) (f : Nat -> Nat) (count : Nat) :
    unreducedSum q i f count + count <= count * q := by
  induction count with
  | zero => simp [unreducedSum]
  | succ count ih =>
      have hlt := Nat.mod_lt (i ^ (count + 1) % q * f (count + 1)) hq
      unfold unreducedSum at ih ⊢
      rw [Finset.sum_range_succ, Nat.succ_mul]
      omega

theorem shareValue_eq {q i : Nat} {f : Nat -> Nat} {threshold : Nat} (hpos : 0 < threshold) :
    shareValue q i f threshold = (f 0 + unreducedSum q i f (threshold - 1)) % q := by
  obtain ⟨count, rfl⟩ : exists count, threshold = count + 1 := ⟨threshold - 1, by omega⟩
  have hcong : f 0 + unreducedSum q i f count ≡
      ∑ t ∈ Finset.range (count + 1), i ^ t * f t [MOD q] := by
    rw [Finset.sum_range_succ', pow_zero, one_mul, add_comm]
    apply Nat.ModEq.add_right
    unfold unreducedSum
    induction count with
    | zero => rfl
    | succ count ih =>
        rw [Finset.sum_range_succ, Finset.sum_range_succ]
        apply Nat.ModEq.add (ih (by omega))
        exact (Nat.mod_modEq _ q).trans ((Nat.mod_modEq _ q).mul_right _)
  exact hcong.symm

theorem modAddFast_word_iff (count : Nat) {q s x : Nat} (hodd : q % 2 = 1) (h60 : q < 2 ^ 60)
    (hx : x < q) (hs : s <= count * q) (hcount : count < 2 ^ 32) :
    modAddFast (word s) x q = (x + s) % q <-> x + s < 2 * q := by
  have hword : word (word s + x) = (x + s) % 2 ^ maxBits := by
    unfold word
    rw [Nat.mod_add_mod, add_comm]
  have hwide : x + s < 2 ^ maxBits * q := by
    calc
      x + s < q + count * q := by omega
      _ = (count + 1) * q := by ring
      _ <= 2 ^ maxBits * q := Nat.mul_le_mul_right q (by simp only [maxBits]; omega)
  have hresult : modAddFast (word s) x q =
      if q <= (x + s) % 2 ^ maxBits then (x + s) % 2 ^ maxBits - q
      else (x + s) % 2 ^ maxBits := by
    unfold modAddFast
    dsimp only
    rw [hword]
    split
    · exact subFast_eq (by assumption) (Nat.mod_lt _ (by decide))
    · rfl
  have hlt := Nat.mod_lt (x + s) (by omega : 0 < q)
  rw [hresult]
  constructor
  · intro heq
    by_contra hlarge
    -- the wraps that a word has lost
    have hsplit := Nat.mod_add_div (x + s) (2 ^ maxBits)
    have hquot : (x + s) / 2 ^ maxBits < q := Nat.div_lt_of_lt_mul hwide
    have hdvd : q ∣ 2 ^ maxBits * ((x + s) / 2 ^ maxBits) := by
      have hmodeq : (x + s) % 2 ^ maxBits ≡ x + s [MOD q] := by
        by_cases hge : q <= (x + s) % 2 ^ maxBits
        · rw [if_pos hge] at heq
          have hback : (x + s) % 2 ^ maxBits = (x + s) % q + q := by omega
          rw [hback]
          unfold Nat.ModEq
          rw [Nat.add_mod_right, Nat.mod_mod]
        · rw [if_neg hge] at heq
          rw [heq]
          exact Nat.mod_modEq _ _
      have hdiff := (Nat.modEq_iff_dvd' (by omega)).mp hmodeq
      rwa [show x + s - (x + s) % 2 ^ maxBits = 2 ^ maxBits * ((x + s) / 2 ^ maxBits) by
        omega] at hdiff
    have hcoprime : Nat.Coprime q (2 ^ maxBits) := by
      apply Nat.Coprime.pow_right
      exact Nat.coprime_two_right.mpr (Nat.odd_iff.mpr hodd)
    have hzero := Nat.eq_zero_of_dvd_of_lt (hcoprime.dvd_of_dvd_mul_left hdvd) hquot
    rw [hzero] at hsplit
    split at heq <;> omega
  · intro hsmall
    rw [Nat.mod_eq_of_lt (show x + s < 2 ^ maxBits by simp only [maxBits]; omega)]
    split
    · rw [Nat.mod_eq_sub_mod (by assumption), Nat.mod_eq_of_lt (by omega)]
    · rw [Nat.mod_eq_of_lt (by omega)]

section Eval

variable {q n k i : Nat} (hq : Poly.NttModulus q) {fs : List DCRTPoly} {f : Nat -> Nat -> Nat}
  {threshold : Nat}

/-- The towers `k` of the polynomials `fs` have the residues `f`. -/
structure SharedTowers (q n k threshold : Nat) (fs : List DCRTPoly) (f : Nat -> Nat -> Nat) :
    Prop where
  tower : forall t, t < threshold -> exists p u, fs[t]? = some p ∧ p[k]? = some u ∧
    u.modulus = q ∧ u.values.length = n ∧ forall d, d < n -> u.values[d]? = some (f t d)
  lt : forall t, t < threshold -> forall d, d < n -> f t d < q

include hq

theorem evalLoop_spec (h : SharedTowers q n k threshold fs f) :
    exists s, (List.range' 1 (threshold - 1)).foldlM (evalStep q n fs k i)
        { powtemp := 1, fevalpoly := List.replicate n 0 } = some s ∧
      s.fevalpoly.length = n ∧ forall d, d < n ->
        s.fevalpoly[d]? = some (word (unreducedSum q i (fun t => f t d) (threshold - 1))) := by
  have hq0 : 0 < q := by
    have := hq.one_lt
    omega
  have hq64 : q < 2 ^ maxBits := by
    have := hq.lt
    simp only [maxBits]
    omega
  rcases foldlM_range'_spec 1 (n := threshold - 1) (f := evalStep q n fs k i)
    (s := { powtemp := 1, fevalpoly := List.replicate n 0 })
    (fun c s => s.powtemp = i ^ c % q ∧ s.fevalpoly.length = n ∧ forall d, d < n ->
      s.fevalpoly[d]? = some (word (unreducedSum q i (fun t => f t d) c)))
    (by
      refine ⟨?_, List.length_replicate, ?_⟩
      · rw [pow_zero, Nat.mod_eq_of_lt hq.one_lt]
      · intro d hd
        rw [List.getElem?_replicate, if_pos hd]
        rfl)
    (by
      intro c hc s hs
      rcases hs with ⟨hpow, hlength, hsum⟩
      rcases h.tower (1 + c) (by omega) with ⟨p, u, hp, hu, _, _, hvalues⟩
      have hpow' : modMul s.powtemp i q = i ^ (c + 1) % q := by
        rw [modMul_eq hq0 hq64, hpow, Nat.mod_mul_mod, pow_succ]
      rcases mapM_range_spec (n := n) (f := fun d => do
          let sum <- s.fevalpoly[d]?
          let p <- (List.replicate n (i ^ (c + 1) % q % q))[d]?
          let c <- u.values[d]?
          return addFast sum (modMul p c q))
        (fun d y => y = word (unreducedSum q i (fun t => f t d) (c + 1)))
        (by
          intro d hd
          refine ⟨_, ?_, rfl⟩
          rw [hsum d hd, hvalues d hd, List.getElem?_replicate, if_pos hd]
          simp only [Option.bind_eq_bind, Option.bind_some, Nat.mod_mod]
          apply congrArg some
          rw [modMul_eq hq0 hq64, addFast, unreducedSum, unreducedSum, Finset.sum_range_succ,
            add_comm 1 c]
          unfold word
          rw [Nat.add_mod_mod, add_comm]) with ⟨ys, hys, hys_length, hget⟩
      refine ⟨{ powtemp := i ^ (c + 1) % q, fevalpoly := ys }, ?_, rfl, hys_length, ?_⟩
      · unfold evalStep
        rw [hpow', hp]
        simp only [Option.bind_eq_bind, Option.bind_some]
        rw [hu, Option.bind_some]
        simp only [Option.bind_eq_bind] at hys
        rw [hys]
        rfl
      · intro d hd
        have hentry := List.getElem?_eq_getElem (show d < ys.length by omega)
        rw [hentry, hget d _ hentry]) with ⟨s, hs, _, hlength, hsum⟩
  exact ⟨s, hs, hlength, hsum⟩

theorem evalTower_spec {cache : Poly.TableCache} (hpos : 0 < threshold)
    (h : SharedTowers q n k threshold fs f) :
    exists r, evalTower cache n threshold fs i k q = some r ∧ r.modulus = q ∧
      r.format = .COEFFICIENT ∧ r.values.length = n ∧ forall d, d < n ->
        r.values[d]? = some (modAddFast
          (word (unreducedSum q i (fun t => f t d) (threshold - 1))) (f 0 d) q) := by
  rcases evalLoop_spec (i := i) hq h with ⟨s, hs, hlength, hsum⟩
  rcases h.tower 0 hpos with ⟨p, u, hp, hu, hmodulus, hu_length, hvalues⟩
  refine ⟨⟨q, .COEFFICIENT, NativeVector.modAddNoCheckEq q s.fevalpoly u.values⟩, ?_, rfl, rfl,
    ?_, ?_⟩
  · unfold evalTower
    rw [hs, hp]
    simp only [Option.bind_eq_bind, Option.bind_some]
    rw [hu, Option.bind_some, Poly.plusEq, if_neg (by simp [hlength, hu_length, hmodulus])]
    rfl
  · unfold NativeVector.modAddNoCheckEq
    rw [List.length_zipWith, hlength, hu_length, Nat.min_self]
  · intro d hd
    unfold NativeVector.modAddNoCheckEq
    rw [List.getElem?_zipWith, hsum d hd, hvalues d hd]

end Eval

/-!
## The shares of all parties
-/

/-- Coefficient `t` of the polynomial that shares position `d` of tower `m`. -/
def sharedCoeff (secret : DCRTPoly) (draw : Nat -> DCRTPoly) (m d t : Nat) : Nat :=
  DCRTPoly.value (if t = 0 then secret else draw (t - 1)) m d

/-- The tower of a share is the unreduced sum after the last subtraction. -/
def IsShareTower (q n i threshold : Nat) (f : Nat -> Nat -> Nat) (r : Poly) : Prop :=
  r.modulus = q ∧ r.format = .COEFFICIENT ∧ r.values.length = n ∧ forall d, d < n ->
    r.values[d]? = some (modAddFast (word (unreducedSum q i (f d) (threshold - 1))) (f d 0) q)

/-- What `ShareKeys` computes for party `i`. -/
def IsShare (moduli : List Nat) (n i threshold : Nat) (f : Nat -> Nat -> Nat -> Nat)
    (share : DCRTPoly) : Prop :=
  share.length = moduli.length ∧ forall m q, moduli[m]? = some q ->
    exists r, share[m]? = some r ∧ IsShareTower q n i threshold (f m) r

/-- Every sum of residues that makes up the share of party `i` stays below `2q`. -/
def ResiduesFit (moduli : List Nat) (n i threshold : Nat) (f : Nat -> Nat -> Nat -> Nat) :
    Prop :=
  forall m q, moduli[m]? = some q -> forall d, d < n ->
    f m d 0 + unreducedSum q i (f m d) (threshold - 1) < 2 * q

section Shares

variable {cache : Poly.TableCache} {moduli : List Nat} {n N threshold index : Nat}
  (hmoduli : forall q, q ∈ moduli -> Poly.NttModulus q) {draw : Nat -> DCRTPoly}
  (hdraw : forall t, (draw t).WellFormed n .COEFFICIENT moduli) {sk secret : DCRTPoly}
  (hsecret : secret.WellFormed n .COEFFICIENT moduli) (hpos : 0 < threshold)

include hdraw hsecret

theorem sharedCoeff_lt {m q : Nat} (hq : moduli[m]? = some q) {d : Nat} (hd : d < n) (t : Nat) :
    sharedCoeff secret draw m d t < q := by
  have hlt : forall a : DCRTPoly, a.WellFormed n .COEFFICIENT moduli ->
      DCRTPoly.value a m d < q := by
    intro a ha
    rcases ha.exists_tower hq with ⟨u, hu, hwf⟩
    rcases hwf.2.2.exists_entry hd with ⟨x, hx, hx_lt⟩
    rw [DCRTPoly.value_eq hu, Poly.value, List.getD_eq_getElem?_getD, hx]
    exact hx_lt
  unfold sharedCoeff
  split
  · exact hlt secret hsecret
  · exact hlt _ (hdraw _)

theorem sharedTowers {m q : Nat} (hq : moduli[m]? = some q) :
    SharedTowers q n m threshold (secret :: (List.range (threshold - 1)).map draw)
      (fun t d => sharedCoeff secret draw m d t) := by
  have hpoly : forall a : DCRTPoly, a.WellFormed n .COEFFICIENT moduli ->
      exists u, a[m]? = some u ∧ u.modulus = q ∧ u.values.length = n ∧
        forall d, d < n -> u.values[d]? = some (DCRTPoly.value a m d) := by
    intro a ha
    rcases ha.exists_tower hq with ⟨u, hu, hwf⟩
    refine ⟨u, hu, hwf.1, hwf.2.2.1, ?_⟩
    intro d hd
    rcases hwf.2.2.exists_entry hd with ⟨x, hx, _⟩
    rw [DCRTPoly.value_eq hu, Poly.value, List.getD_eq_getElem?_getD, hx]
    rfl
  constructor
  · intro t ht
    cases t with
    | zero =>
        rcases hpoly secret hsecret with ⟨u, hu⟩
        exact ⟨secret, u, rfl, hu⟩
    | succ t =>
        rcases hpoly (draw t) (hdraw t) with ⟨u, hu⟩
        refine ⟨draw t, u, ?_, hu⟩
        rw [List.getElem?_cons_succ, List.getElem?_map, List.getElem?_range (by omega)]
        rfl
  · intro t _ d hd
    exact sharedCoeff_lt hdraw hsecret hq hd t

include hmoduli hpos

variable (cache N index) in
theorem shamirShares_spec (hswitch : DCRTPoly.setFormat cache sk .COEFFICIENT = some secret) :
    exists shares, shamirShares cache moduli n draw sk N threshold index = some shares ∧
      shares.map Prod.fst = otherParties N index ∧ forall p, p ∈ shares ->
        IsShare moduli n p.1 threshold (sharedCoeff secret draw) p.2 := by
  rcases mapM_spec (l := otherParties N index) (f := fun i => do
      let feval <- moduli.zipIdx.mapM fun tower => evalTower cache n threshold
        (secret :: (List.range (threshold - 1)).map draw) i tower.2 tower.1
      return (i, feval))
    (fun i p => p.1 = i ∧ IsShare moduli n i threshold (sharedCoeff secret draw) p.2)
    (by
      intro i _
      rcases mapM_zipIdx_spec (l := moduli) (f := fun tower => evalTower cache n threshold
          (secret :: (List.range (threshold - 1)).map draw) i tower.2 tower.1)
        (fun m q r => IsShareTower q n i threshold (sharedCoeff secret draw m) r)
        (by
          intro m q hq
          exact evalTower_spec (hmoduli q (List.mem_of_getElem? hq)) hpos
            (sharedTowers hdraw hsecret hq)) with ⟨feval, hfeval, hlength, hget⟩
      refine ⟨(i, feval), by rw [hfeval]; rfl, rfl, hlength, ?_⟩
      intro m q hq
      have hr := List.getElem?_eq_getElem (show m < feval.length by
        rw [hlength]
        exact (List.getElem?_eq_some_iff.mp hq).1)
      exact ⟨_, hr, hget m q _ hq hr⟩) with ⟨shares, hshares, hlength, hget⟩
  have hentry : forall (j : Nat) p, shares[j]? = some p ->
      exists i, (otherParties N index)[j]? = some i ∧ p.1 = i ∧
        IsShare moduli n i threshold (sharedCoeff secret draw) p.2 := by
    intro j p hp
    have hi := List.getElem?_eq_getElem (show j < (otherParties N index).length by
      rw [← hlength]
      exact (List.getElem?_eq_some_iff.mp hp).1)
    exact ⟨_, hi, hget j _ p hi hp⟩
  refine ⟨shares, ?_, ?_, ?_⟩
  · unfold shamirShares
    rw [hswitch]
    exact hshares
  · apply List.ext_getElem (by rw [List.length_map, hlength])
    intro j h₁ h₂
    rw [List.length_map] at h₁
    rcases hentry j _ (List.getElem?_eq_getElem h₁) with ⟨i, hi, hfst, _⟩
    rw [List.getElem_map, hfst]
    rw [List.getElem?_eq_getElem h₂] at hi
    exact (Option.some.inj hi).symm
  · intro p hp
    rcases List.mem_iff_getElem?.mp hp with ⟨j, hj⟩
    rcases hentry j p hj with ⟨i, _, hfst, hshare⟩
    rw [hfst]
    exact hshare

theorem share_value_iff (hthreshold : threshold < 2 ^ 32) {i : Nat} {share : DCRTPoly}
    (hshare : IsShare moduli n i threshold (sharedCoeff secret draw) share) {m q : Nat}
    (hq : moduli[m]? = some q) {d : Nat} (hd : d < n) :
    DCRTPoly.value share m d = shareValue q i (sharedCoeff secret draw m d) threshold <->
      sharedCoeff secret draw m d 0 +
        unreducedSum q i (sharedCoeff secret draw m d) (threshold - 1) < 2 * q := by
  rcases hshare.2 m q hq with ⟨r, hr, _, _, _, hvalues⟩
  have hmodulus := hmoduli q (List.mem_of_getElem? hq)
  have hlt := sharedCoeff_lt hdraw hsecret hq hd 0
  have hsum := unreducedSum_lt (by omega : 0 < q) i (sharedCoeff secret draw m d)
    (threshold - 1)
  rw [DCRTPoly.value_eq hr, Poly.value, List.getD_eq_getElem?_getD, hvalues d hd,
    shareValue_eq hpos]
  exact modAddFast_word_iff (threshold - 1) hmodulus.odd hmodulus.lt hlt (by omega) (by omega)

theorem share_wellFormed (hthreshold : threshold < 2 ^ 32) {i : Nat} {share : DCRTPoly}
    (hshare : IsShare moduli n i threshold (sharedCoeff secret draw) share)
    (hfit : ResiduesFit moduli n i threshold (sharedCoeff secret draw)) :
    share.WellFormed n .COEFFICIENT moduli := by
  refine ⟨hshare.1, ?_⟩
  intro m q t hq ht
  rcases hshare.2 m q hq with ⟨r, hr, hmodulus, hformat, hlength, hvalues⟩
  rw [ht] at hr
  cases hr
  refine ⟨hmodulus, hformat, hlength, ?_⟩
  intro x hx
  rcases List.mem_iff_getElem?.mp hx with ⟨d, hd⟩
  have hd_lt : d < n := by
    rw [← hlength]
    exact (List.getElem?_eq_some_iff.mp hd).1
  have hvalue := (share_value_iff hmoduli hdraw hsecret hpos hthreshold hshare hq hd_lt).mpr
    (hfit m q hq d hd_lt)
  rw [DCRTPoly.value_eq ht, Poly.value, List.getD_eq_getElem?_getD, hd] at hvalue
  rw [show x = _ from hvalue]
  apply Nat.mod_lt
  have := (hmoduli q (List.mem_of_getElem? hq)).one_lt
  omega

end Shares

/-!
## Lagrange coefficients
-/

/-- The factor of a Lagrange coefficient for the party `ci`. -/
def lagrangeFactor (q cj ci : Nat) : ZMod q :=
  if ci = cj then 1 else (ci : ZMod q) * ((ci : ZMod q) - cj)⁻¹

section Lagrange

variable {q n N : Nat} (hmodulus : Poly.NttModulus q) (hprime : q.Prime) (hN : N < q)

include hmodulus hprime hN

theorem modInverse_difference {ci cj : Nat} (hci : ci <= N) (hcj : cj <= N) (hne : ci ≠ cj) :
    exists w, modInverse (if cj < ci then ci - cj else subFast q (cj - ci)) q = some w ∧
      w < q ∧ (w : ZMod q) = ((ci : ZMod q) - cj)⁻¹ := by
  have hlt := hmodulus.lt
  have hdenominator : exists v, (if cj < ci then ci - cj else subFast q (cj - ci)) = v ∧
      0 < v ∧ v < q ∧ (v : ZMod q) = (ci : ZMod q) - cj := by
    refine ⟨_, rfl, ?_⟩
    by_cases hgt : cj < ci
    · rw [if_pos hgt]
      exact ⟨by omega, by omega, Nat.cast_sub hgt.le⟩
    · rw [if_neg hgt, subFast_eq (by omega) (by simp only [maxBits]; omega)]
      refine ⟨by omega, by omega, ?_⟩
      rw [Nat.cast_sub (by omega), Nat.cast_sub (by omega), ZMod.natCast_self]
      ring
  rcases hdenominator with ⟨v, hv, hpos, hv_lt, hcast⟩
  have hcoprime : Nat.gcd v q = 1 :=
    (Nat.coprime_of_lt_prime (by omega) hv_lt hprime).symm
  rcases modInverse_spec hprime.one_lt (by omega) hcoprime with ⟨w, hw, hw_lt, hproduct⟩
  rw [hv]
  refine ⟨w, hw, hw_lt, ?_⟩
  have : Fact q.Prime := ⟨hprime⟩
  apply eq_inv_of_mul_eq_one_right
  rw [← hcast]
  have hone := congrArg (Nat.cast : Nat -> ZMod q) hproduct
  rwa [ZMod.natCast_mod, Nat.cast_mul, Nat.cast_one] at hone

theorem lagrangeStep_denotes {f : Nat -> ZMod q} {multpoly : Poly} {ci cj : Nat}
    (hci : ci <= N) (hcj : cj <= N) (h : Poly.Denotes q n .COEFFICIENT f multpoly) :
    exists r, lagrangeStep q cj multpoly ci = some r ∧
      Poly.Denotes q n .COEFFICIENT (fun d => f d * lagrangeFactor q cj ci) r := by
  have hlt := hmodulus.lt
  have hpos := hprime.pos
  unfold lagrangeStep lagrangeFactor
  by_cases heq : ci = cj
  · rw [if_pos heq, if_pos heq]
    simp only [mul_one]
    exact ⟨multpoly, rfl, h⟩
  · rw [if_neg heq, if_neg heq]
    rcases modInverse_difference hmodulus hprime hN hci hcj heq with ⟨w, hw, hw_lt, hcast⟩
    dsimp only
    rw [hw]
    refine ⟨_, rfl, h.modulus_eq, h.format_eq, ?_⟩
    apply NativeVector.holds_map _ h.holds
    intro d x hx
    have hx_lt := hx.1
    have hfactor : ci * w % q < q := Nat.mod_lt _ hpos
    rw [modMul_eq hpos (by simp only [maxBits]; omega), modMulFastEq_eq hpos
      (by simp only [maxBits]; omega) (by simp only [maxBits]; omega)
      (by simp only [maxBits]; omega), ← hx.2, ← hcast]
    have hsame : (x : ZMod q) * (ci * w) = ((x * (ci * w % q) : Nat) : ZMod q) := by
      push_cast [ZMod.natCast_mod]
      ring
    rw [hsame]
    exact represents_mod hpos _

theorem lagrangeLoop_denotes {clients : List Nat} (hclients : forall i, i ∈ clients -> i <= N)
    {cj : Nat} (hcj : cj <= N) {f : Nat -> ZMod q} {multpoly : Poly}
    (h : Poly.Denotes q n .COEFFICIENT f multpoly) :
    exists r, clients.foldlM (lagrangeStep q cj) multpoly = some r ∧
      Poly.Denotes q n .COEFFICIENT
        (fun d => f d * (clients.map (lagrangeFactor q cj)).prod) r := by
  induction clients generalizing multpoly f with
  | nil =>
      refine ⟨multpoly, rfl, ?_⟩
      simp only [List.map_nil, List.prod_nil, mul_one]
      exact h
  | cons ci clients ih =>
      rcases lagrangeStep_denotes hmodulus hprime hN (hclients ci List.mem_cons_self) hcj h with
        ⟨p, hp, hp_denotes⟩
      rcases ih (fun i hi => hclients i (List.mem_cons_of_mem _ hi)) hp_denotes with
        ⟨r, hr, hr_denotes⟩
      refine ⟨r, ?_, ?_⟩
      · rw [List.foldlM_cons, hp]
        exact hr
      · simp only [List.map_cons, List.prod_cons, ← mul_assoc]
        exact hr_denotes

omit hmodulus hprime hN in
theorem prod_lagrangeFactor [Fact q.Prime] {clients : List Nat} (hnodup : clients.Nodup) (cj : Nat) :
    (clients.map (lagrangeFactor q cj)).prod =
      zeroWeight clients.toFinset (fun i => (i : ZMod q)) cj := by
  rw [← List.prod_toFinset _ hnodup, ← Finset.prod_erase _ (a := cj) (by
    rw [lagrangeFactor, if_pos rfl])]
  apply Finset.prod_congr rfl
  intro ci hci
  rw [lagrangeFactor, if_neg (Finset.ne_of_mem_erase hci)]

omit hN hprime in
theorem addILElementOne_denotes :
    Poly.Denotes q n .COEFFICIENT (fun _ => 1) (addILElementOne (Poly.zero q n .COEFFICIENT)) := by
  have hone := hmodulus.one_lt
  have hlt := hmodulus.lt
  have hzero := Poly.zero_denotes (by omega : 0 < q) n .COEFFICIENT
  refine ⟨rfl, rfl, NativeVector.holds_map ?_ hzero.holds⟩
  intro d x hx
  have hsame : (1 : ZMod q) = ((x + 1 : Nat) : ZMod q) := by
    rw [Nat.cast_add, hx.2, zero_add, Nat.cast_one]
  rw [show (Poly.zero q n .COEFFICIENT).modulus = q from rfl,
    modAddFast_eq (by omega) hx.1 hone, hsame]
  exact represents_mod (by omega) _

end Lagrange

/-!
## Recovery of the key
-/

/-- The weight of the party `cj` in every position. -/
def lagrangeWeight (clients : List Nat) (cj : Nat) : TowerResidues :=
  fun _ q _ => (clients.map (lagrangeFactor q cj)).prod

theorem sum_range_getD {M : Type} [AddCommMonoid M] (l : List Nat) (g : Nat -> M) :
    ∑ c ∈ Finset.range l.length, g (l.getD c 0) = (l.map g).sum := by
  induction l with
  | nil => simp
  | cons x l ih =>
      rw [List.length_cons, Finset.sum_range_succ', List.map_cons, List.sum_cons, add_comm]
      exact congrArg (g x + ·) ih

section Recovery

variable {cache : Poly.TableCache} {moduli : List Nat} {k N : Nat} {psi : Nat -> Nat}
  (hk : 0 < k) (hk31 : k <= 31) (hready : DCRTPoly.ReadyChain cache k psi moduli)
  (hprime : forall q, q ∈ moduli -> q.Prime) (hN : forall q, q ∈ moduli -> N < q)
  {clients : List Nat} (hclients : forall i, i ∈ clients -> i <= N)

include hk hk31 hready hprime hN hclients

theorem lagrangeCoeff_denotes {cj : Nat} (hcj : cj <= N) :
    exists coeff, lagrangeCoeff cache moduli (2 ^ k) clients cj = some coeff ∧
      DCRTPoly.Denotes (2 ^ k) .COEFFICIENT moduli (lagrangeWeight clients cj) coeff := by
  rcases mapM_spec (l := moduli) (f := fun q => lagrangeTower cache (2 ^ k) clients cj q)
    (fun q u => Poly.Denotes q (2 ^ k) .EVALUATION
      (stageArray (fun _ => (clients.map (lagrangeFactor q cj)).prod) (psi q : ZMod q) 1 k) u)
    (by
      intro q hq
      rcases lagrangeLoop_denotes (hready q hq).modulus (hprime q hq) (hN q hq) hclients hcj
        (addILElementOne_denotes (n := 2 ^ k) (hready q hq).modulus) with ⟨p, hp, hdenotes⟩
      simp only [one_mul] at hdenotes
      rcases Poly.switchFormat_evaluation hk (hready q hq) hdenotes with ⟨u, hu, hu_denotes⟩
      refine ⟨u, ?_, hu_denotes⟩
      unfold lagrangeTower
      rw [hp, Option.bind_eq_bind, Option.bind_some, Poly.setFormat, hdenotes.format_eq]
      exact hu) with ⟨coeff, hcoeff, hlength, hget⟩
  have hdenotes : DCRTPoly.Denotes (2 ^ k) .EVALUATION moduli
      (DCRTPoly.transform k psi (lagrangeWeight clients cj)) coeff := by
    apply DCRTPoly.denotes_of_towers hlength
    intro m q u hq hu
    exact hget m q u hq hu
  rcases DCRTPoly.setFormat_inverse hk hready hk31 hdenotes with ⟨b, hb, hb_denotes⟩
  refine ⟨b, ?_, hb_denotes⟩
  unfold lagrangeCoeff
  rw [hcoeff]
  exact hb

omit hk hk31 hprime hN hclients in
theorem lagrangeSumTower_denotes {coeffs : List DCRTPoly} {shares : SecretShares}
    {v : Nat -> TowerResidues} {m q : Nat} (hq : moduli[m]? = some q)
    (hcoeffs : forall (c i : Nat), clients[c]? = some i -> exists b, coeffs[c]? = some b ∧
      DCRTPoly.Denotes (2 ^ k) .COEFFICIENT moduli (lagrangeWeight clients i) b)
    (hshares : forall i, i ∈ clients -> exists share, shares.lookup i = some share ∧
      DCRTPoly.Denotes (2 ^ k) .COEFFICIENT moduli (v i) share) :
    exists r, lagrangeSumTower (2 ^ k) shares clients coeffs m q = some r ∧
      Poly.Denotes q (2 ^ k) .COEFFICIENT (fun d => ∑ c ∈ Finset.range clients.length,
        lagrangeWeight clients (clients.getD c 0) m q d * v (clients.getD c 0) m q d) r := by
  have hmodulus := (hready q (List.mem_of_getElem? hq)).modulus
  have hpos : 0 < q := by
    have := hmodulus.one_lt
    omega
  apply foldlM_range_spec (fun c r => Poly.Denotes q (2 ^ k) .COEFFICIENT
    (fun d => ∑ c ∈ Finset.range c,
      lagrangeWeight clients (clients.getD c 0) m q d * v (clients.getD c 0) m q d) r)
  · simp only [Finset.range_zero, Finset.sum_empty]
    exact Poly.zero_denotes hpos _ _
  · intro c hc r hr
    have hclient := List.getElem?_eq_getElem hc
    have hparty : clients.getD c 0 = clients[c] := by
      rw [List.getD_eq_getElem?_getD, hclient]
      rfl
    rcases hcoeffs c _ hclient with ⟨b, hb, hb_denotes⟩
    rcases hshares _ (List.getElem_mem hc) with ⟨share, hshare, hshare_denotes⟩
    rcases hb_denotes.tower hq with ⟨t, ht, ht_denotes⟩
    rcases hshare_denotes.tower hq with ⟨u, hu, hu_denotes⟩
    rcases Poly.timesNoCheck_denotes hmodulus ht_denotes hu_denotes with
      ⟨product, hproduct, hproduct_denotes⟩
    rcases Poly.plusEq_denotes hmodulus hr hproduct_denotes with ⟨r', hr', hr'_denotes⟩
    refine ⟨r', ?_, ?_⟩
    · rw [hb]
      simp only [Option.bind_eq_bind, Option.bind_some]
      rw [ht, hclient]
      simp only [Option.bind_some]
      rw [hshare]
      simp only [Option.bind_some]
      rw [hu]
      simp only [Option.bind_some]
      rw [hproduct]
      exact hr'
    · simp only [Finset.sum_range_succ, hparty]
      exact hr'_denotes

theorem lagrangeSum_spec (hnodup : clients.Nodup) {shares : SecretShares} {threshold : Nat}
    (hpos : 0 < threshold) (henough : threshold <= clients.length) {sk secret : DCRTPoly}
    (hsk : DCRTPoly.Denotes (2 ^ k) .EVALUATION moduli
      (DCRTPoly.transform k psi (DCRTPoly.residues secret)) sk)
    (draw : Nat -> DCRTPoly)
    (hshares : forall i, i ∈ clients -> exists share, shares.lookup i = some share ∧
      DCRTPoly.Denotes (2 ^ k) .COEFFICIENT moduli (fun m q d =>
        (shareValue q i (sharedCoeff secret draw m d) threshold : ZMod q)) share) :
    lagrangeSum cache moduli (2 ^ k) shares clients = some sk := by
  rcases mapM_spec (l := clients) (f := fun cj => lagrangeCoeff cache moduli (2 ^ k) clients cj)
    (fun i b => DCRTPoly.Denotes (2 ^ k) .COEFFICIENT moduli (lagrangeWeight clients i) b)
    (fun i hi => lagrangeCoeff_denotes hk hk31 hready hprime hN hclients (hclients i hi)) with
    ⟨coeffs, hcoeffs, hcoeffs_length, hcoeffs_get⟩
  have hcoeff : forall (c i : Nat), clients[c]? = some i -> exists b, coeffs[c]? = some b ∧
      DCRTPoly.Denotes (2 ^ k) .COEFFICIENT moduli (lagrangeWeight clients i) b := by
    intro c i hi
    have hb := List.getElem?_eq_getElem (show c < coeffs.length by
      rw [hcoeffs_length]
      exact (List.getElem?_eq_some_iff.mp hi).1)
    exact ⟨_, hb, hcoeffs_get c i _ hi hb⟩
  rcases mapM_zipIdx_spec (l := moduli) (f := fun tower =>
      lagrangeSumTower (2 ^ k) shares clients coeffs tower.2 tower.1)
    (fun m q r => Poly.Denotes q (2 ^ k) .COEFFICIENT (DCRTPoly.residues secret m q) r)
    (by
      intro m q hq
      have hmem := List.mem_of_getElem? hq
      have : Fact q.Prime := ⟨hprime q hmem⟩
      rcases lagrangeSumTower_denotes hready hq hcoeff hshares with ⟨r, hr, hdenotes⟩
      refine ⟨r, hr, hdenotes.modulus_eq, hdenotes.format_eq, hdenotes.holds.congr ?_⟩
      intro d _
      have hinj : Set.InjOn (fun i : Nat => (i : ZMod q)) clients.toFinset := by
        intro i hi j hj hij
        have hi_lt := hclients i (List.mem_toFinset.mp hi)
        have hj_lt := hclients j (List.mem_toFinset.mp hj)
        have hN_lt := hN q hmem
        have hmod := (ZMod.natCast_eq_natCast_iff' i j q).mp hij
        rwa [Nat.mod_eq_of_lt (by omega), Nat.mod_eq_of_lt (by omega)] at hmod
      have hcard : threshold <= clients.toFinset.card := by
        rw [List.toFinset_card_of_nodup hnodup]
        exact henough
      have hzero := sum_zeroWeight hinj hpos hcard
        (fun t => (sharedCoeff secret draw m d t : ZMod q))
      rw [sum_range_getD clients (fun i => lagrangeWeight clients i m q d *
        (shareValue q i (sharedCoeff secret draw m d) threshold : ZMod q)),
        ← List.sum_toFinset _ hnodup]
      rw [show DCRTPoly.residues secret m q d =
        (sharedCoeff secret draw m d 0 : ZMod q) from rfl, ← hzero]
      apply Finset.sum_congr rfl
      intro i _
      rw [lagrangeWeight, prod_lagrangeFactor hnodup, shareValue, ZMod.natCast_mod]
      push_cast
      rfl) with ⟨sum, hsum, hsum_length, hsum_get⟩
  have hdenotes : DCRTPoly.Denotes (2 ^ k) .COEFFICIENT moduli (DCRTPoly.residues secret) sum :=
    DCRTPoly.denotes_of_towers hsum_length fun m q t hq ht => hsum_get m q t hq ht
  rcases DCRTPoly.setFormat_transform hk hready hdenotes with ⟨r, hr, hr_denotes⟩
  unfold lagrangeSum
  rw [hcoeffs, Option.bind_eq_bind, Option.bind_some, hsum, Option.bind_eq_bind,
    Option.bind_some, hr, hr_denotes.unique hsk]

end Recovery

/-!
## The contract
-/

/--
`ShareKeys` gives every other party the reduced values of the polynomials, and
`RecoverSharedKey` returns the key from any set of enough shares.
-/
def ShamirContract (cache : Poly.TableCache) (moduli : List Nat) (n N threshold index : Nat)
    (draw : Nat -> DCRTPoly) (sk : DCRTPoly) : Prop :=
  exists secret shares, DCRTPoly.setFormat cache sk .COEFFICIENT = some secret ∧
    shareKeys cache moduli n draw sk N threshold index .shamir = .ok shares ∧
    shares.map Prod.fst = otherParties N index ∧
    (forall p, p ∈ shares -> p.2.WellFormed n .COEFFICIENT moduli ∧
      forall m q, moduli[m]? = some q -> forall d, d < n ->
        DCRTPoly.value p.2 m d =
          shareValue q p.1 (sharedCoeff secret draw m d) threshold) ∧
    forall available key, available.Sublist shares -> threshold <= available.length ->
      recoverSharedKey cache moduli n key available N threshold .shamir = .ok sk

theorem clientIndexes_sublist {N index : Nat} {shares available : SecretShares}
    (hparties : shares.map Prod.fst = otherParties N index)
    (hsublist : available.Sublist shares) :
    available.length <= (clientIndexes available N).length ∧
      (forall i, i ∈ clientIndexes available N -> exists share,
        available.lookup i = some share ∧ (i, share) ∈ shares) := by
  have hkeys : (available.map Prod.fst).Sublist (otherParties N index) :=
    hparties ▸ hsublist.map Prod.fst
  constructor
  · rw [← List.length_map (f := Prod.fst)]
    apply List.Subperm.length_le
    apply List.subperm_of_subset (hkeys.nodup (nodup_otherParties N index))
    intro i hi
    have hrange := (mem_otherParties.mp (hkeys.subset hi)).1
    unfold clientIndexes
    rw [List.mem_filter, List.mem_range'_1]
    refine ⟨by omega, ?_⟩
    rw [Option.isSome_iff_ne_none]
    intro hnone
    rcases List.mem_map.mp hi with ⟨p, hp, rfl⟩
    have hne := List.lookup_eq_none_iff.mp hnone p hp
    simp at hne
  · intro i hi
    rcases Option.isSome_iff_exists.mp (List.mem_filter.mp hi).2 with ⟨share, hshare⟩
    refine ⟨share, hshare, hsublist.subset ?_⟩
    rcases List.lookup_eq_some_iff.mp hshare with ⟨l₁, l₂, hsplit, _⟩
    rw [hsplit]
    exact List.mem_append_right _ List.mem_cons_self

section Contract

variable {cache : Poly.TableCache} {moduli : List Nat} {k N threshold index : Nat}
  {psi : Nat -> Nat} (hk : 0 < k) (hk31 : k <= 31)
  (hready : DCRTPoly.ReadyChain cache k psi moduli)
  (hprime : forall q, q ∈ moduli -> q.Prime) (hN : forall q, q ∈ moduli -> N < q)
  (hN32 : N < 2 ^ 32) (hlow : N / 2 < threshold) (hhigh : threshold <= N - 1)
  {draw : Nat -> DCRTPoly} (hdraw : forall t, (draw t).WellFormed (2 ^ k) .COEFFICIENT moduli)
  {sk secret : DCRTPoly} (hsk : sk.WellFormed (2 ^ k) .EVALUATION moduli)
  (hsecret : DCRTPoly.setFormat cache sk .COEFFICIENT = some secret)

include hk hk31 hready hN hN32 hlow hhigh hdraw hsk hsecret

theorem residuesFit_of_contract
    (hcontract : ShamirContract cache moduli (2 ^ k) N threshold index draw sk) :
    forall i, i ∈ otherParties N index ->
      ResiduesFit moduli (2 ^ k) i threshold (sharedCoeff secret draw) := by
  intro i hi m q hq d hd
  rcases DCRTPoly.exists_coefficients hk hready hk31 hsk with ⟨b, hb, hsecret_wf, _⟩
  rw [hsecret] at hb
  cases hb
  have hmoduli := fun q hq => (hready q hq).modulus
  rcases hcontract with ⟨secret', shares, hsecret', hshares, hparties, hvalues, _⟩
  rw [hsecret] at hsecret'
  cases hsecret'
  rcases shamirShares_spec cache N index hmoduli hdraw hsecret_wf
    (by omega : 0 < threshold) hsecret with ⟨shares', hshares', _, hcomputed⟩
  have hsame : shares' = shares := by
    unfold shareKeys at hshares
    rw [checkParties_ok (by omega) hlow hN, hshares'] at hshares
    exact Except.ok.inj hshares
  rw [hsame] at hcomputed
  rw [← hparties] at hi
  rcases List.mem_map.mp hi with ⟨p, hp, rfl⟩
  exact (share_value_iff hmoduli hdraw hsecret_wf (by omega) (by omega) (hcomputed p hp) hq
    hd).mp ((hvalues p hp).2 m q hq d hd)

include hprime

theorem contract_of_residuesFit (hfit : forall i, i ∈ otherParties N index ->
      ResiduesFit moduli (2 ^ k) i threshold (sharedCoeff secret draw)) :
    ShamirContract cache moduli (2 ^ k) N threshold index draw sk := by
  rcases DCRTPoly.exists_coefficients hk hready hk31 hsk with
    ⟨b, hb, hsecret_wf, hsk_denotes⟩
  rw [hsecret] at hb
  cases hb
  have hmoduli := fun q hq => (hready q hq).modulus
  have hcheck := checkParties_ok (by omega) hlow hN
  rcases shamirShares_spec cache N index hmoduli hdraw hsecret_wf
    (by omega : 0 < threshold) hsecret with ⟨shares, hshares, hparties, hcomputed⟩
  have hshare : forall p, p ∈ shares -> p.2.WellFormed (2 ^ k) .COEFFICIENT moduli ∧
      forall m q, moduli[m]? = some q -> forall d, d < 2 ^ k ->
        DCRTPoly.value p.2 m d = shareValue q p.1 (sharedCoeff secret draw m d) threshold := by
    intro p hp
    have hparty : p.1 ∈ otherParties N index := by
      rw [← hparties]
      exact List.mem_map_of_mem hp
    constructor
    · exact share_wellFormed hmoduli hdraw hsecret_wf (by omega) (by omega) (hcomputed p hp)
        (hfit p.1 hparty)
    · intro m q hq d hd
      exact (share_value_iff hmoduli hdraw hsecret_wf (by omega) (by omega) (hcomputed p hp) hq
        hd).mpr (hfit p.1 hparty m q hq d hd)
  refine ⟨secret, shares, hsecret, ?_, hparties, hshare, ?_⟩
  · unfold shareKeys
    rw [hcheck]
    exact congrArg orUndefined hshares
  · intro available key hsublist henough
    rcases clientIndexes_sublist hparties hsublist with ⟨hlength, hlookup⟩
    have hclients : forall i, i ∈ clientIndexes available N -> i <= N := by
      intro i hi
      have := List.mem_range'_1.mp (List.mem_filter.mp hi).1
      omega
    have hsum := lagrangeSum_spec hk hk31 hready hprime hN hclients
      (List.Nodup.filter _ List.nodup_range') (by omega : 0 < threshold) (by omega)
      hsk_denotes draw
      (by
        intro i hi
        rcases hlookup i hi with ⟨share, hshare_eq, hmem⟩
        rcases hshare (i, share) hmem with ⟨hwf, hvalue⟩
        refine ⟨share, hshare_eq, hwf, ?_⟩
        intro m q hq d hd
        rw [hvalue m q hq d hd])
    unfold recoverSharedKey
    rw [if_neg (by omega), hcheck]
    dsimp only
    rw [if_neg (by omega)]
    exact congrArg orUndefined hsum

/-- The exact condition: no sum of residues reaches twice its modulus. -/
theorem shamirContract_iff : ShamirContract cache moduli (2 ^ k) N threshold index draw sk <->
    forall i, i ∈ otherParties N index ->
      ResiduesFit moduli (2 ^ k) i threshold (sharedCoeff secret draw) := by
  constructor
  · exact residuesFit_of_contract hk hk31 hready hN hN32 hlow hhigh hdraw hsk hsecret
  · exact contract_of_residuesFit hk hk31 hready hprime hN hN32 hlow hhigh hdraw hsk hsecret

end Contract

def smallKey : DCRTPoly := DCRTPoly.constant [13] [12, 12]

def smallCoefficients (x : Nat) : DCRTPoly := [⟨13, .COEFFICIENT, [x, 0]⟩]

theorem smallCoefficients_wellFormed {x : Nat} (hx : x < 13) :
    (smallCoefficients x).WellFormed 2 .COEFFICIENT [13] := by
  refine ⟨rfl, ?_⟩
  intro i q t hq ht
  cases i with
  | zero =>
      cases hq
      cases ht
      refine ⟨rfl, rfl, rfl, ?_⟩
      intro y hy
      rcases List.mem_cons.mp hy with rfl | hy
      · exact hx
      · rw [List.mem_singleton.mp hy]
        decide
  | succ i => cases hq

theorem smallKey_wellFormed : smallKey.WellFormed (2 ^ 1) .EVALUATION [13] :=
  DCRTPoly.constant_wellFormed [12, 12] rfl (by decide)

theorem smallKey_coefficients :
    DCRTPoly.setFormat Poly.smallCache smallKey .COEFFICIENT = some (smallCoefficients 12) := by
  decide +kernel

theorem smallChain : DCRTPoly.ReadyChain Poly.smallCache 1 Poly.smallRoot [13] :=
  fun q hq => Poly.smallReady (by rw [List.mem_singleton.mp hq]; decide)

theorem smallPrime {q : Nat} (hq : q ∈ [13]) : q.Prime ∧ 4 < q := by
  rw [List.mem_singleton.mp hq]
  decide

/-- Draws whose products with the powers of two are all twelve. -/
def largeDraw (t : Nat) : DCRTPoly := if t = 0 then smallCoefficients 6 else smallCoefficients 3

theorem largeDraw_wellFormed (t : Nat) :
    (largeDraw t).WellFormed (2 ^ 1) .COEFFICIENT [13] := by
  unfold largeDraw
  split
  · exact smallCoefficients_wellFormed (by decide)
  · exact smallCoefficients_wellFormed (by decide)

theorem shamirContract_iff_three_of_four :
    ShamirContract Poly.smallCache [13] (2 ^ 1) 4 3 1 (fun _ => smallCoefficients 0) smallKey <->
      forall i, i ∈ otherParties 4 1 -> ResiduesFit [13] (2 ^ 1) i 3
        (sharedCoeff (smallCoefficients 12) (fun _ => smallCoefficients 0)) :=
  shamirContract_iff (by decide) (by decide) smallChain (fun _ hq => (smallPrime hq).1)
    (fun _ hq => (smallPrime hq).2) (by decide) (by decide) (by decide)
    (fun _ => smallCoefficients_wellFormed (by decide)) smallKey_wellFormed
    smallKey_coefficients

/-- Party two gets the share 23 modulo 13. -/
theorem not_shamirContract_three_of_four :
    ¬ ShamirContract Poly.smallCache [13] (2 ^ 1) 4 3 1 largeDraw smallKey := by
  intro hcontract
  have hfit := residuesFit_of_contract (by decide) (by decide) smallChain
    (fun _ hq => (smallPrime hq).2) (by decide) (by decide) (by decide) largeDraw_wellFormed
    smallKey_wellFormed smallKey_coefficients hcontract
  exact absurd (hfit 2 (by decide) 0 13 rfl 0 (by decide)) (by decide)

end CryptoContext
end OpenFHE
