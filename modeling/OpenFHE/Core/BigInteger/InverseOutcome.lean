import OpenFHE.Core.BigInteger.DecimalText
import OpenFHE.Core.BigInteger.ModInverse
import OpenFHE.Core.NativeInteger.InverseOutcome

/-!
# Modular inverses in limbs

`ModInverse` of big integers, as it runs on their limbs: the loop of divisions and the way
back over the quotients.  Zero and a divisor of the modulus throw.  Every other value without
an inverse is divided by zero.
-/

namespace OpenFHE
namespace Core
namespace BigInteger

open Foundation

namespace Ubint

variable (l : Nat)

structure NorthState where
  first : Ubint
  second : Ubint
  mod_back : Ubint
  quotient : List Ubint
deriving DecidableEq, Repr

def northStep (s : NorthState) : Outcome NorthState := do
  let qr <- orUndefined (divqrVect l s.second s.mod_back)
  return { first := s.second, second := s.mod_back, mod_back := qr.2,
           quotient := s.quotient ++ [qr.1] }

/-- The south algorithm: `first` and `second` after the quotients from the last one on. -/
def southLoop (quotient : List Ubint) : Ubint × Ubint :=
  quotient.foldr (fun it s => (s.2, add l (mul l it s.2) s.1)) (zero, ofLimb 1)

/-- The value below the modulus from which the algorithm starts. -/
def reduced (x modulus : Ubint) : Outcome Ubint := do
  let c <- orUndefined (compare x modulus)
  if c >= 0 then raised (mod l x modulus) else return x

/-- The two algorithms for a reduced value, and the sign of the number of quotients. -/
def northSouth (modulus second : Ubint) (qr : Ubint × Ubint) : Outcome Ubint := do
  let s <- whileLoop (fun s => decide (s.mod_back.msb ≠ 1)) (northStep l) (2 ^ modulus.msb)
    { first := modulus, second := second, mod_back := qr.2, quotient := [qr.1] }
  let mod_back := (southLoop l s.quotient).2
  if s.quotient.length &&& 1 ≠ 0 then orUndefined (sub l modulus mod_back)
  else return mod_back

def modInverse (x modulus : Ubint) : Outcome Ubint :=
  if x.msb = 0 then .error (.thrown "Zero has no inverse")
  else do
    let second <- reduced l x modulus
    if second.msb = 1 then return second
    else do
      let qr <- orUndefined (divqrVect l modulus second)
      if qr.2.msb = 0 then do
        let a <- toString l x
        let m <- toString l modulus
        .error (noInverse a m)
      else northSouth l modulus second qr

variable {l}

/-! ## The way down -/

structure NorthInv (l m a : Nat) (s : NorthState) : Prop where
  second : Valid l s.second
  mod_back : Valid l s.mod_back
  quotient : forall q, q ∈ s.quotient -> Valid l q
  second_ne : s.second.toNat l ≠ 1
  lt : s.mod_back.toNat l < s.second.toNat l
  gcd : Nat.gcd (s.second.toNat l) (s.mod_back.toNat l) = Nat.gcd m a
  north : northAlgorithm m a =
    if s.mod_back.toNat l = 1 then some (s.quotient.map (toNat l))
    else (northAlgorithm (s.second.toNat l) (s.mod_back.toNat l)).map fun qs =>
      s.quotient.map (toNat l) ++ qs

theorem Valid.msb_eq_one_iff {x : Ubint} (hx : Valid l x) : x.msb = 1 <-> x.toNat l = 1 := by
  constructor
  · exact hx.eq_one
  · intro hone
    rw [hx.bitLength, hone]
    rfl

theorem divqrVect_spec {u v : Ubint} (hl : 0 < l) (hu : Valid l u) (hv : Valid l v)
    (hpos : 0 < v.toNat l) (hle : v.toNat l <= u.toNat l) :
    exists q r, divqrVect l u v = some (q, r) ∧ Denotes l q (u.toNat l / v.toNat l) ∧
      Denotes l r (u.toNat l % v.toNat l) := by
  have hmsb : v.msb <= u.msb := by
    rw [hv.bitLength, hu.bitLength]
    exact Nat.size_le_size hle
  rcases routines_spec hl hu hv hpos (hv.length_le_of_msb_le hu hmsb) with ⟨q, r, h⟩
  exact ⟨q, r, h.divqr, h.quotient, h.remainder⟩

theorem divqrVect_zero {u v : Ubint} (hv : Valid l v) (hzero : v.toNat l = 0) :
    divqrVect l u v = none := by
  have hlen : v.value.length = 1 := by
    have hpos := hv.length_pos
    by_contra hne
    have hmsb := hv.msb_pos (by omega)
    rw [hv.msb_eq_zero_iff.mpr hzero] at hmsb
    exact absurd hmsb (Nat.lt_irrefl 0)
  rcases List.length_eq_one_iff.mp hlen with ⟨v0, hvalue⟩
  have hv0 : v0 = 0 := by
    rwa [toNat, hvalue, Nat.ofDigits_singleton] at hzero
  rw [hv0] at hvalue
  unfold divqrVect
  rw [hvalue]
  exact if_pos rfl

theorem northStep_zero {m a : Nat} {s : NorthState} (hs : NorthInv l m a s)
    (hzero : s.mod_back.toNat l = 0) : northStep l s = .error .undefined := by
  unfold northStep
  rw [divqrVect_zero hs.mod_back hzero]
  rfl

theorem northStep_spec {m a : Nat} (hl : 0 < l) {s : NorthState} (hs : NorthInv l m a s)
    (hone : s.mod_back.toNat l ≠ 1) (hzero : s.mod_back.toNat l ≠ 0) :
    exists s', northStep l s = .ok s' ∧ NorthInv l m a s' ∧
      s'.mod_back.toNat l < s.mod_back.toNat l := by
  have hpos := Nat.pos_of_ne_zero hzero
  rcases divqrVect_spec hl hs.second hs.mod_back hpos hs.lt.le with ⟨q, r, hqr, hq, hr⟩
  have hrlt : r.toNat l < s.mod_back.toNat l := by
    rw [hr.value]
    exact Nat.mod_lt _ hpos
  refine ⟨_, by rw [northStep, hqr]; rfl, ?_, hrlt⟩
  constructor
  case second => exact hs.mod_back
  case mod_back => exact hr.valid
  case quotient =>
    intro y hy
    cases List.mem_append.mp hy with
    | inl hmem => exact hs.quotient y hmem
    | inr hlast =>
        rw [List.mem_singleton.mp hlast]
        exact hq.valid
  case second_ne => exact hone
  case lt => exact hrlt
  case gcd =>
    dsimp only
    rw [hr.value, Nat.gcd_comm, ← Nat.gcd_rec, Nat.gcd_comm]
    exact hs.gcd
  case north =>
    dsimp only
    rw [hs.north, if_neg hone, northAlgorithm, dif_neg hzero, hr.value, List.map_append,
      List.map_singleton, hq.value]
    dsimp only
    split
    next => rfl
    next =>
        rw [Option.map_map]
        congr 1
        funext qs
        simp only [Function.comp_apply, List.append_assoc, List.singleton_append]

theorem northInv_initial {modulus second q r : Ubint} (hsecond : Valid l second)
    (hne : second.toNat l ≠ 1) (hpos : 0 < second.toNat l)
    (hq : Denotes l q (modulus.toNat l / second.toNat l))
    (hr : Denotes l r (modulus.toNat l % second.toNat l)) :
    NorthInv l (modulus.toNat l) (second.toNat l)
      { first := modulus, second := second, mod_back := r, quotient := [q] } := by
  constructor
  case second => exact hsecond
  case mod_back => exact hr.valid
  case quotient =>
    intro y hy
    rw [List.mem_singleton.mp hy]
    exact hq.valid
  case second_ne => exact hne
  case lt =>
    dsimp only
    rw [hr.value]
    exact Nat.mod_lt _ hpos
  case gcd =>
    dsimp only
    rw [hr.value, Nat.gcd_comm, ← Nat.gcd_rec, Nat.gcd_comm]
  case north =>
    dsimp only
    rw [northAlgorithm, dif_neg hpos.ne', hr.value, List.map_singleton, hq.value]
    rfl

theorem northLoop_spec {m a : Nat} (hl : 0 < l) (hgcd : Nat.gcd m a = 1) {s : NorthState}
    (hs : NorthInv l m a s) {fuel : Nat} (hfuel : s.mod_back.toNat l < fuel) :
    exists s', whileLoop (fun s => decide (s.mod_back.msb ≠ 1)) (northStep l) fuel s = .ok s' ∧
      (forall q, q ∈ s'.quotient -> Valid l q) ∧
      northAlgorithm m a = some (s'.quotient.map (toNat l)) := by
  have hbody (s : NorthState) (hs : NorthInv l m a s)
      (hc : decide (s.mod_back.msb ≠ 1) = true) :
      exists s', northStep l s = .ok s' ∧ NorthInv l m a s' ∧
        s'.mod_back.toNat l < s.mod_back.toNat l := by
    have hone := mt hs.mod_back.msb_eq_one_iff.mpr (of_decide_eq_true hc)
    refine northStep_spec hl hs hone ?_
    intro hzero
    have hself := hs.gcd
    rw [hzero, Nat.gcd_zero_right, hgcd] at hself
    exact hs.second_ne hself
  rcases whileLoop_spec (NorthInv l m a) (fun s => s.mod_back.toNat l) hbody fuel s hs hfuel with
    ⟨s', hrun, hs', hstop⟩
  have hone := hs'.mod_back.eq_one (not_not.mp (of_decide_eq_false hstop))
  have hnorth := hs'.north
  rw [if_pos hone] at hnorth
  exact ⟨s', hrun, hs'.quotient, hnorth⟩

theorem northLoop_undefined {m a : Nat} (hl : 0 < l) (hgcd : Nat.gcd m a ≠ 1) {s : NorthState}
    (hs : NorthInv l m a s) {fuel : Nat} (hfuel : s.mod_back.toNat l < fuel) :
    whileLoop (fun s => decide (s.mod_back.msb ≠ 1)) (northStep l) fuel s =
      .error .undefined := by
  refine whileLoop_fails (NorthInv l m a) (fun s => s.mod_back.toNat l) ?_ fuel s hs hfuel
  intro s hs
  have hone : s.mod_back.toNat l ≠ 1 := by
    intro hone
    have hself := hs.gcd
    rw [hone, Nat.gcd_one_right] at hself
    exact hgcd hself.symm
  refine ⟨decide_eq_true (mt hs.mod_back.eq_one hone), ?_⟩
  by_cases hzero : s.mod_back.toNat l = 0
  · exact Or.inl (northStep_zero hs hzero)
  · exact Or.inr (northStep_spec hl hs hone hzero)

/-! ## The way back -/

theorem southStep_spec {it first second : Ubint} {x y : Nat} (hit : Valid l it)
    (hfirst : Denotes l first x) (hsecond : Denotes l second y)
    (hfits : Nat.size (it.toNat l * y + x) < maxMSB) :
    Denotes l (add l (mul l it second) first) (it.toNat l * y + x) := by
  have hproduct : Denotes l (mul l it second) (it.toNat l * y) := by
    have hsize : Nat.size (it.toNat l * second.toNat l) < maxMSB := by
      rw [hsecond.value]
      exact Nat.lt_of_le_of_lt (Nat.size_le_size (Nat.le_add_right _ x)) hfits
    have h := mul_spec hit hsecond.valid hsize
    rwa [hsecond.value] at h
  have hsum := add_spec hproduct.valid hfirst.valid
  rw [hproduct.value, hfirst.value] at hsum
  exact hsum hfits

theorem southLoop_spec (first second : Nat) :
    forall us : List Ubint, northAlgorithm first second = some (us.map (toNat l)) ->
      (forall u, u ∈ us -> Valid l u) -> Nat.size first < maxMSB -> Nat.size second < maxMSB ->
      Denotes l (southLoop l us).1 (southAlgorithm (us.map (toNat l))).1 ∧
        Denotes l (southLoop l us).2 (southAlgorithm (us.map (toNat l))).2 := by
  induction first, second using northAlgorithm.induct with
  | case1 first =>
      intro us hnorth
      rw [northAlgorithm, dif_pos rfl] at hnorth
      cases hnorth
  | case2 first second hzero mod_back hone =>
      intro us hnorth hvalid hfirst _
      have hback := (northAlgorithm_cofactors _ _ _ hnorth).back_lt
      rw [northAlgorithm, dif_neg hzero] at hnorth
      have hqs := Option.some.inj ((if_pos hone).symm.trans hnorth)
      cases us with
      | nil => cases hqs
      | cons u rest =>
          have hrest : rest = [] := List.map_eq_nil_iff.mp (List.cons.inj hqs).right.symm
          rw [hrest] at hback ⊢
          refine ⟨one_denotes l, ?_⟩
          exact southStep_spec (hvalid u List.mem_cons_self) ⟨zero_valid l, toNat_zero l⟩
            (one_denotes l) (Nat.lt_of_le_of_lt (Nat.size_le_size hback.le) hfirst)
  | case3 first second hzero mod_back hone ih =>
      intro us hnorth hvalid hfirst hsecond
      have hback := (northAlgorithm_cofactors _ _ _ hnorth).back_lt
      rw [northAlgorithm, dif_neg hzero] at hnorth
      dsimp only at hnorth
      rw [if_neg hone] at hnorth
      rcases Option.map_eq_some_iff.mp hnorth with ⟨qs, hqs, hcons⟩
      cases us with
      | nil => cases hcons
      | cons u rest =>
          have hrest := (List.cons.inj hcons).right
          rw [hrest] at hqs
          have hlt : mod_back < second := Nat.mod_lt _ (Nat.pos_of_ne_zero hzero)
          rcases ih rest hqs (fun y hy => hvalid y (List.mem_cons_of_mem u hy)) hsecond
            (Nat.lt_of_le_of_lt (Nat.size_le_size hlt.le) hsecond) with ⟨hone, htwo⟩
          exact ⟨htwo, southStep_spec (hvalid u List.mem_cons_self) hone htwo
            (Nat.lt_of_le_of_lt (Nat.size_le_size hback.le) hfirst)⟩

/-! ## The inverse -/

section Inverse

variable {x modulus : Ubint} (hl : 0 < l) (hx : Valid l x) (hmodulus : Valid l modulus)
  (hm : 2 <= modulus.toNat l)

include hl hx hmodulus hm

theorem reduced_spec : exists second, reduced l x modulus = .ok second ∧
    Denotes l second (x.toNat l % modulus.toNat l) := by
  rcases compare_sign hx hmodulus with ⟨c, hc, hneg, -⟩
  unfold reduced
  rw [hc]
  by_cases hlt : x.toNat l < modulus.toNat l
  · refine ⟨x, if_neg (not_le.mpr (hneg.mpr hlt)), hx, ?_⟩
    rw [Nat.mod_eq_of_lt hlt]
  · rcases mod_spec hl hx hmodulus (by omega) with ⟨r, hr, hdenotes⟩
    refine ⟨r, ?_, hdenotes⟩
    have hnonneg := not_lt.mp (mt hneg.mp hlt)
    show (if c >= 0 then raised (mod l x modulus) else pure x) = .ok r
    rw [if_pos hnonneg, hr]
    rfl

omit hx hm in
theorem northSouth_spec {second q r : Ubint} (hsecond : Valid l second)
    (hne : second.toNat l ≠ 1) (hpos : 0 < second.toNat l)
    (hq : Denotes l q (modulus.toNat l / second.toNat l))
    (hr : Denotes l r (modulus.toNat l % second.toNat l))
    (hlt : second.toNat l < modulus.toNat l)
    (hgcd : Nat.gcd (modulus.toNat l) (second.toNat l) = 1) :
    exists y qs, northSouth l modulus second (q, r) = .ok y ∧
      northAlgorithm (modulus.toNat l) (second.toNat l) = some qs ∧
      Denotes l y (if qs.length % 2 = 1 then modulus.toNat l - (southAlgorithm qs).2
        else (southAlgorithm qs).2) := by
  have hfuel : r.toNat l < 2 ^ modulus.msb := by
    rw [hr.value, hmodulus.bitLength]
    exact Nat.lt_of_le_of_lt (Nat.mod_le _ _) (Nat.lt_size_self _)
  rcases northLoop_spec hl hgcd (northInv_initial hsecond hne hpos hq hr) hfuel with
    ⟨s, hrun, hvalid, hnorth⟩
  have hback := (southLoop_spec _ _ s.quotient hnorth hvalid
    (hmodulus.fits_of_le (Nat.le_refl _)) (hmodulus.fits_of_le hlt.le)).right
  unfold northSouth
  dsimp only
  rw [hrun, ok_bind, Nat.and_one_is_mod]
  by_cases hodd : s.quotient.length % 2 = 1
  · rcases sub_spec hmodulus hback.valid with ⟨y, hy, hyvalid, hyvalue⟩
    refine ⟨y, _, ?_, hnorth, hyvalid, ?_⟩
    · rw [if_pos (by omega), hy]
      rfl
    · rw [List.length_map, if_pos hodd, hyvalue, hback.value]
  · refine ⟨_, _, if_neg (by omega), hnorth, hback.valid, ?_⟩
    rw [List.length_map, if_neg hodd, hback.value]

omit hx hm in
theorem northSouth_undefined {second q r : Ubint} (hsecond : Valid l second)
    (hne : second.toNat l ≠ 1) (hpos : 0 < second.toNat l)
    (hq : Denotes l q (modulus.toNat l / second.toNat l))
    (hr : Denotes l r (modulus.toNat l % second.toNat l))
    (hgcd : Nat.gcd (modulus.toNat l) (second.toNat l) ≠ 1) :
    northSouth l modulus second (q, r) = .error .undefined := by
  have hfuel : r.toNat l < 2 ^ modulus.msb := by
    rw [hr.value, hmodulus.bitLength]
    exact Nat.lt_of_le_of_lt (Nat.mod_le _ _) (Nat.lt_size_self _)
  unfold northSouth
  rw [northLoop_undefined hl hgcd (northInv_initial hsecond hne hpos hq hr) hfuel]
  rfl

theorem modInverse_run (hzero : x.toNat l ≠ 0) :
    InverseOrThrow (Denotes l) (x.toNat l) (modulus.toNat l) (modInverse l x modulus) <->
      Nat.gcd (x.toNat l) (modulus.toNat l) = 1 ∨
        x.toNat l % modulus.toNat l ≠ 0 ∧ x.toNat l % modulus.toNat l ∣ modulus.toNat l := by
  rcases reduced_spec hl hx hmodulus hm with ⟨second, hreduced, hsecond⟩
  have hgcdmod : Nat.gcd (x.toNat l) (modulus.toNat l) =
      Nat.gcd (modulus.toNat l) (second.toNat l) := by
    rw [hsecond.value, Nat.gcd_comm, Nat.gcd_rec, Nat.gcd_comm]
  have hlt : second.toNat l < modulus.toNat l := by
    rw [hsecond.value]
    exact Nat.mod_lt _ (by omega)
  unfold modInverse
  rw [if_neg (mt hx.msb_eq_zero_iff.mp hzero), hreduced, ok_bind]
  by_cases hone : second.toNat l = 1
  · have hgcd : Nat.gcd (x.toNat l) (modulus.toNat l) = 1 := by
      rw [hgcdmod, hone, Nat.gcd_one_right]
    rw [if_pos (hsecond.valid.msb_eq_one_iff.mpr hone)]
    refine ⟨fun _ => Or.inl hgcd, fun _ => inverseOrThrow_ok hgcd rfl hsecond ?_ ?_⟩
    · rw [← hsecond.value]
      exact hlt
    · rw [← hsecond.value, hone, Nat.mul_one, ← hsecond.value, hone]
  rw [if_neg (mt hsecond.valid.eq_one hone)]
  by_cases hmultiple : second.toNat l = 0
  · have hundefined := divqrVect_zero (u := modulus) hsecond.valid hmultiple
    rw [hundefined]
    constructor
    · intro hright
      exact absurd hright (not_inverseOrThrow_undefined rfl)
    · rintro (hgcd | ⟨hne, _⟩)
      · rw [hgcdmod, hmultiple, Nat.gcd_zero_right] at hgcd
        omega
      · exact absurd (hsecond.value.symm.trans hmultiple) hne
  have hpos := Nat.pos_of_ne_zero hmultiple
  rcases divqrVect_spec hl hmodulus hsecond.valid hpos hlt.le with ⟨q, r, hqr, hq, hr⟩
  rw [hqr]
  simp only [orUndefined, ok_bind]
  by_cases hdvd : second.toNat l ∣ modulus.toNat l
  · have hrzero : r.msb = 0 := by
      rw [hr.valid.msb_eq_zero_iff, hr.value, Nat.mod_eq_zero_of_dvd hdvd]
    rw [if_pos hrzero, toString_spec hx, ok_bind, toString_spec hmodulus, ok_bind]
    have hgcd : Nat.gcd (x.toNat l) (modulus.toNat l) ≠ 1 := by
      rw [hgcdmod, Nat.gcd_eq_right hdvd]
      exact hone
    refine ⟨fun _ => Or.inr ?_, fun _ => inverseOrThrow_thrown hgcd rfl⟩
    rw [← hsecond.value]
    exact ⟨hmultiple, hdvd⟩
  · have hrzero : r.msb ≠ 0 := by
      intro hmsb
      rw [hr.valid.msb_eq_zero_iff, hr.value] at hmsb
      exact hdvd (Nat.dvd_of_mod_eq_zero hmsb)
    rw [if_neg hrzero]
    by_cases hgcd : Nat.gcd (modulus.toNat l) (second.toNat l) = 1
    · rcases northSouth_spec hl hmodulus hsecond.valid hone hpos hq hr hlt hgcd with
        ⟨y, qs, hy, hnorth, hvalue⟩
      rcases BigInteger.modInverse_spec (a := x.toNat l) (by omega) (hgcdmod.trans hgcd) with
        ⟨w, hw, hwlt, hproduct⟩
      rw [BigInteger.modInverse_eq hzero (by omega), ← hsecond.value, if_neg hone, hnorth] at hw
      rw [← Option.some.inj hw] at hwlt hproduct
      exact ⟨fun _ => Or.inl (hgcdmod.trans hgcd),
        fun _ => inverseOrThrow_ok (hgcdmod.trans hgcd) hy hvalue hwlt hproduct⟩
    · have hundefined := northSouth_undefined hl hmodulus hsecond.valid hone hpos hq hr hgcd
      constructor
      · intro hright
        exact absurd hright (not_inverseOrThrow_undefined hundefined)
      · rintro (hcop | ⟨_, hdivides⟩)
        · exact absurd (hgcdmod.symm.trans hcop) hgcd
        · rw [← hsecond.value] at hdivides
          exact absurd hdivides hdvd

theorem modInverse_iff :
    InverseOrThrow (Denotes l) (x.toNat l) (modulus.toNat l) (modInverse l x modulus) <->
      Nat.gcd (x.toNat l) (modulus.toNat l) = 1 ∨ x.toNat l = 0 ∨
        x.toNat l % modulus.toNat l ≠ 0 ∧ x.toNat l % modulus.toNat l ∣ modulus.toNat l := by
  by_cases hzero : x.toNat l = 0
  · have hgcd : Nat.gcd (x.toNat l) (modulus.toNat l) ≠ 1 := by
      rw [hzero, Nat.gcd_zero_left]
      omega
    have hthrows : modInverse l x modulus = .error (.thrown "Zero has no inverse") :=
      if_pos (hx.msb_eq_zero_iff.mpr hzero)
    exact ⟨fun _ => Or.inr (Or.inl hzero), fun _ => inverseOrThrow_thrown hgcd hthrows⟩
  · rw [modInverse_run hl hx hmodulus hm hzero]
    constructor
    · rintro (hgcd | hdivides)
      · exact Or.inl hgcd
      · exact Or.inr (Or.inr hdivides)
    · rintro (hgcd | hxzero | hdivides)
      · exact Or.inl hgcd
      · exact absurd hxzero hzero
      · exact Or.inr hdivides

end Inverse

/-! ## Contract -/

/-- Exactly where the two inverses are returned or refused as they should be. -/
structure ModularInverses (l : Nat) : Prop where
  native {a m : Nat} (ha : a < 2 ^ NativeInteger.maxBits) (hm : 2 <= m) (hm63 : m < 2 ^ 63) :
    InverseOrThrow Eq a m (NativeInteger.modInverseCall a m) <-> Nat.gcd a m = 1 ∨ m ∣ a
  big {x modulus : Ubint} (hx : Valid l x) (hmodulus : Valid l modulus)
    (hm : 2 <= modulus.toNat l) :
    InverseOrThrow (Denotes l) (x.toNat l) (modulus.toNat l) (modInverse l x modulus) <->
      Nat.gcd (x.toNat l) (modulus.toNat l) = 1 ∨ x.toNat l = 0 ∨
        x.toNat l % modulus.toNat l ≠ 0 ∧ x.toNat l % modulus.toNat l ∣ modulus.toNat l

theorem modularInverses {l : Nat} (hl : 0 < l) : ModularInverses l := by
  constructor
  case native =>
    intro a m _ hm hm63
    exact NativeInteger.modInverseCall_iff hm hm63
  case big =>
    intro x modulus hx hmodulus hm
    exact modInverse_iff hl hx hmodulus hm

theorem modularInverses_64 : 0 < 6 ∧ ModularInverses 6 :=
  ⟨by decide, modularInverses (by decide)⟩

/-- Four has no inverse modulo six, and both versions divide by zero. -/
theorem modInverse_four_six :
    Nat.gcd 4 6 = 2 ∧ NativeInteger.modInverseCall 4 6 = .error .undefined ∧
      modInverse 6 (ofLimb 4) (ofLimb 6) = .error .undefined ∧
      ¬ InverseOrThrow Eq 4 6 (NativeInteger.modInverseCall 4 6) ∧
      ¬ InverseOrThrow (Denotes 6) 4 6 (modInverse 6 (ofLimb 4) (ofLimb 6)) := by
  have hnative : NativeInteger.modInverseCall 4 6 = .error .undefined := by decide +kernel
  have hbig : modInverse 6 (ofLimb 4) (ofLimb 6) = .error .undefined := by decide +kernel
  exact ⟨rfl, hnative, hbig, not_inverseOrThrow_undefined hnative,
    not_inverseOrThrow_undefined hbig⟩

end Ubint

end BigInteger
end Core
end OpenFHE
