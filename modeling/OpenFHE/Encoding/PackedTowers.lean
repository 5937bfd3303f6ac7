import OpenFHE.Encoding.PackedRoundTrip
import OpenFHE.Hal.Residues

/-!
# The towers of a packed encoding

The coefficients modulo the plaintext modulus become residues of the first modulus as they
are and reach the other towers by a modulus switch, which takes those above half of the
first modulus for negative numbers.
-/

namespace OpenFHE
namespace Encoding

open OpenFHE.Core Foundation NativeInteger Hal

def PackedEncoding.slots (a : PackedEncoding) (t i : Nat) : ZMod t :=
  ((a.value.getD i 0 : Int) : ZMod t) * (a.scalingFactorInt : ZMod t) ^ (a.noiseScaleDeg - 1 + 1)

/--
All towers stand for one polynomial with integer coefficients below the plaintext modulus,
which is modulo the plaintext modulus the one with the given slots.
-/
def SameInteger (d t psi : Nat) (roots : Nat -> Nat) (moduli : List Nat) (slots : Nat -> ZMod t)
    (y : DCRTPoly) : Prop :=
  exists P : Nat -> Int, (forall r, r < 2 ^ (d + 1) -> (P r).natAbs < t) ∧
    DCRTPoly.Denotes (2 ^ (d + 1)) .EVALUATION moduli
      (DCRTPoly.transform (d + 1) roots fun _ q r => (P r : ZMod q)) y ∧
    forall i, i < 2 ^ (d + 1) -> slotValue d psi (fun r => (P r : ZMod t)) i = slots i

/-! ## Transforms determine the coefficients -/

theorem isUnit_two {q : Nat} (hodd : q % 2 = 1) : IsUnit (2 : ZMod q) := by
  have hcoprime : Nat.Coprime 2 q := Nat.coprime_two_left.mpr (Nat.odd_iff.mpr hodd)
  exact (ZMod.isUnit_iff_coprime 2 q).mpr hcoprime

theorem slotValue_injective {d t psi : Nat} (hodd : t % 2 = 1)
    (hroot : (psi : ZMod t) ^ 2 ^ (d + 1) = -1) {f g : Nat -> ZMod t}
    (h : forall i, i < 2 ^ (d + 1) -> slotValue d psi f i = slotValue d psi g i) {r : Nat}
    (hr : r < 2 ^ (d + 1)) : f r = g r := by
  apply stageArray_injective hroot (isUnit_two hodd) _ r hr
  intro p hp
  rcases exists_slotPosition hp with ⟨j, hj, rfl⟩
  exact h j hj

theorem slotValue_congr {d t psi : Nat} {f g : Nat -> ZMod t}
    (h : forall r, r < 2 ^ (d + 1) -> f r = g r) (i : Nat) :
    slotValue d psi f i = slotValue d psi g i :=
  stageArray_congr h (psi : ZMod t) (slotPosition d i)

theorem residues_unique {k : Nat} {roots : Nat -> Nat} {cache : Poly.TableCache}
    {moduli : List Nat} (hready : DCRTPoly.ReadyChain cache k roots moduli)
    {v w : TowerResidues} {y : DCRTPoly}
    (hv : DCRTPoly.Denotes (2 ^ k) .EVALUATION moduli (DCRTPoly.transform k roots v) y)
    (hw : DCRTPoly.Denotes (2 ^ k) .EVALUATION moduli (DCRTPoly.transform k roots w) y)
    {i q r : Nat} (hq : moduli[i]? = some q) (hr : r < 2 ^ k) : v i q r = w i q r := by
  have hqready := hready q (List.mem_of_getElem? hq)
  apply stageArray_injective hqready.root (isUnit_two hqready.modulus.odd) _ r hr
  intro j hj
  exact (hv.value_eq i q hq j hj).symm.trans (hw.value_eq i q hq j hj)

/-! ## One coefficient -/

section Coefficient

variable {t q c : Nat} (hodd : q % 2 = 1)

include hodd

/-- A coefficient up to half of the modulus is its own lift, another one wraps. -/
theorem centered_of_le (hle : 2 * c <= q) : NativeVector.centered q c = c := by
  unfold NativeVector.centered
  rw [Nat.shiftRight_eq_div_pow, if_neg (by omega)]

theorem centered_of_lt (hlt : q < 2 * c) : NativeVector.centered q c = (c : Int) - q := by
  unfold NativeVector.centered
  rw [Nat.shiftRight_eq_div_pow, if_pos (by omega)]

variable (hc : c < t) (htq : t <= q)

/-- The lift is right modulo the plaintext modulus when it is the modulus or nothing wraps. -/
theorem centered_cast_of (h : t = q ∨ 2 * c <= q) :
    ((NativeVector.centered q c : Int) : ZMod t) = c := by
  rcases Nat.lt_or_ge q (2 * c) with hlt | hle
  · rcases h with heq | hle
    · rw [centered_of_lt hodd hlt, heq, Int.cast_sub, Int.cast_natCast, Int.cast_natCast,
        ZMod.natCast_self, sub_zero]
    · omega
  · rw [centered_of_le hodd hle, Int.cast_natCast]

include hc htq

theorem natAbs_centered_lt : (NativeVector.centered q c).natAbs < t := by
  rcases Nat.lt_or_ge q (2 * c) with hlt | hle
  · rw [centered_of_lt hodd hlt]
    omega
  · rw [centered_of_le hodd hle]
    omega

/-- No integer below the plaintext modulus fits a wrapped coefficient in two towers. -/
theorem not_fits_of_wraps {m : Nat} (hm : 1 < m) (hcoprime : Nat.Coprime q m) (hne : t ≠ q)
    (hlt : q < 2 * c) {P : Int} (hP : P.natAbs < t) (hfirst : (P : ZMod q) = c)
    (hother : (P : ZMod m) = ((NativeVector.centered q c : Int) : ZMod m))
    (hplain : (P : ZMod t) = c) : False := by
  rw [centered_of_lt hodd hlt, ZMod.intCast_eq_intCast_iff_dvd_sub] at hother
  rw [← Int.cast_natCast, ZMod.intCast_eq_intCast_iff_dvd_sub] at hfirst hplain
  rcases hfirst with ⟨x, hx⟩
  -- the first tower leaves `c` and `c - q`
  have hlow : 0 <= x := by
    by_contra hneg
    have := mul_le_mul_of_nonneg_left (show x <= -1 by omega) (Int.natCast_nonneg q)
    omega
  have hhigh : x <= 1 := by
    by_contra hlarge
    have := mul_le_mul_of_nonneg_left (show 2 <= x by omega) (Int.natCast_nonneg q)
    omega
  have hcases : x = 0 ∨ x = 1 := by omega
  rcases hcases with rfl | rfl
  · have hdvd : (m : Int) ∣ q := by
      rw [show ((c : Int) - q) - P = -q by omega] at hother
      exact (dvd_neg).mp hother
    have hone := Nat.Coprime.eq_one_of_dvd hcoprime.symm (Int.natCast_dvd_natCast.mp hdvd)
    omega
  · rw [show (c : Int) - P = q by omega] at hplain
    rcases Int.natCast_dvd_natCast.mp hplain with ⟨y, hy⟩
    have hbelow : 1 < y := by
      by_contra hsmall
      have := Nat.mul_le_mul_left t (show y <= 1 by omega)
      omega
    have := Nat.mul_le_mul_left t hbelow
    omega

end Coefficient

/-! ## What the encoding accepts -/

section Accepted

variable {cache : Poly.TableCache} {params : PackingParams} {a a' : PackedEncoding}
  {first : Poly} {rest : DCRTPoly}
  (hfresh : a.isEncoded = false) (helement : a.element = .IsDCRTPoly (first :: rest))
  (h : a.encode cache params = some a')

include hfresh helement h

theorem encode_accepts :
    a.value.length <= first.values.length ∧
      (forall x, x ∈ a.value -> x.natAbs < a.plaintextModulus) ∧
      a.plaintextModulus <= first.modulus := by
  unfold PackedEncoding.encode at h
  rw [hfresh, if_neg (by decide), helement] at h
  rcases Option.bind_eq_some_iff.mp h with ⟨temp, htemp, hrest⟩
  rcases Option.bind_eq_some_iff.mp hrest with ⟨element, hstore, _⟩
  rcases Option.bind_eq_some_iff.mp hstore with ⟨p, hp, _⟩
  unfold scaledSlots at htemp
  split at htemp
  next => cases htemp
  next hlength =>
      rcases Option.bind_eq_some_iff.mp htemp with ⟨entries, hentries, _⟩
      refine ⟨Nat.le_of_not_lt hlength, ?_, ?_⟩
      · intro x hx
        rcases List.mem_iff_getElem?.mp hx with ⟨i, hi⟩
        rcases mapM_getElem? hentries hi with ⟨y, _, hy⟩
        unfold encodeEntry at hy
        split at hy
        next => cases hy
        next hlt => exact Nat.lt_of_not_le hlt
      · unfold storePacked at hp
        split at hp
        next => cases hp
        next hle => exact Nat.le_of_not_lt hle

variable {d t psi q : Nat} {roots : Nat -> Nat} {moduli : List Nat} (hd : d + 1 <= 24)
  (hpack : PackingReady d t psi params) (ht : a.plaintextModulus = t)
  (hready : DCRTPoly.ReadyChain cache (d + 1) roots (q :: moduli))
  (hx : DCRTPoly.WellFormed (2 ^ (d + 1)) .COEFFICIENT (q :: moduli) (first :: rest))

include hd hpack ht hready hx

theorem encode_denotes :
    exists f y, a'.element = .IsDCRTPoly y ∧
      (forall i, i < 2 ^ (d + 1) -> slotValue d psi f i = a.slots t i) ∧
      DCRTPoly.Denotes (2 ^ (d + 1)) .EVALUATION (q :: moduli)
        (DCRTPoly.transform (d + 1) roots fun _ m r =>
          ((NativeVector.centered q (f r).val : Int) : ZMod m)) y := by
  rcases encode_accepts hfresh helement h with ⟨hlength, hentries, htq⟩
  have hone := hpack.modulus.one_lt
  have hlt := hpack.modulus.lt
  have hfirst := hx.get 0 q first rfl rfl
  have hsize : first.values.length = 2 ^ (d + 1) := hfirst.2.2.1
  have hqready := hready q List.mem_cons_self
  rw [ht] at hentries htq
  rw [hsize] at hlength
  rw [hfirst.1] at htq
  rcases scaledSlots_spec hone hlt (scalingPower t a.scalingFactorInt a.noiseScaleDeg) hlength
    hentries with ⟨temp, htemp, hholds⟩
  rcases storePacked_spec hd hpack hholds hsize (by rw [hfirst.1]; exact htq) with
    ⟨f, b, hb, hbMod, hbFormat, hbHolds, hslots⟩
  have hbq : b.modulus = q := hbMod.trans hfirst.1
  have hvalue (r : Nat) (hr : r < 2 ^ (d + 1)) : b.values.getD r 0 = (f r).val := by
    rcases hbHolds.residues.exists_entry hr with ⟨x, hget, hxlt⟩
    rw [List.getD_eq_getElem?_getD, hget, Option.getD_some, ← (hbHolds.get r x hget).2,
      ZMod.val_natCast_of_lt hxlt]
  have hbResidues : Residues (2 ^ (d + 1)) q b.values := by
    refine ⟨hbHolds.length_eq, ?_⟩
    intro x hmem
    have := hbHolds.lt hmem
    omega
  have hdenotes : DCRTPoly.Denotes (2 ^ (d + 1)) .COEFFICIENT (q :: moduli)
      (fun _ m r => ((NativeVector.centered q (f r).val : Int) : ZMod m))
      (b :: rest.map fun p => Poly.switchModulus b p.modulus) := by
    apply DCRTPoly.denotes_of_towers
    · have hcount := hx.length_eq
      rw [List.length_cons, List.length_map]
      exact hcount
    · intro i m p hm hp
      cases i with
      | zero =>
          cases hm
          cases hp
          refine ⟨hbq, hbFormat, hbResidues.holds.congr ?_⟩
          intro r hr
          rw [coefficient, hvalue r hr, NativeVector.centered_natCast]
      | succ i =>
          have hmready := hready m (List.mem_of_getElem? hm)
          rw [List.getElem?_cons_succ, List.getElem?_map, Option.map_eq_some_iff] at hp
          rcases hp with ⟨limb, hlimb, rfl⟩
          rw [(hx.get (i + 1) m limb hm hlimb).1]
          have hmone := hmready.modulus.one_lt
          have hswitch := NativeVector.switchModulus_spec
            (hqready.modulus.lt.trans (by decide)) hmready.modulus.lt (by omega) hbResidues
          refine ⟨rfl, hbFormat, ?_⟩
          rw [Poly.switchModulus, hbq]
          apply hswitch.congr
          intro r hr
          rw [hvalue r hr]
  rcases DCRTPoly.setFormat_transform (Nat.succ_pos d) hready hdenotes with ⟨y, hy, hyDenotes⟩
  refine ⟨f, y, ?_, ?_, hyDenotes⟩
  · unfold PackedEncoding.encode at h
    rw [hfresh, if_neg (by decide), helement] at h
    unfold Element.ringDimension Element.store at h
    dsimp only [List.head?_cons, Option.elim_some] at h
    rw [ht, hsize, htemp] at h
    simp only [Option.bind_eq_bind, Option.bind_some] at h
    rw [hb] at h
    simp only [Option.bind_some, hy] at h
    cases h
    rfl
  · intro i hi
    rw [hslots i hi, PackedEncoding.slots, scalingPower_cast (by omega) (hlt.trans (by decide))]

end Accepted

/-! ## When the towers agree -/

section Agree

variable {cache : Poly.TableCache} {d t psi q : Nat} {roots : Nat -> Nat} {moduli : List Nat}
  {slots f : Nat -> ZMod t} {y : DCRTPoly} [NeZero t]
  (hready : DCRTPoly.ReadyChain cache (d + 1) roots (q :: moduli))
  (hslots : forall i, i < 2 ^ (d + 1) -> slotValue d psi f i = slots i)
  (hdenotes : DCRTPoly.Denotes (2 ^ (d + 1)) .EVALUATION (q :: moduli)
    (DCRTPoly.transform (d + 1) roots fun _ m r =>
      ((NativeVector.centered q (f r).val : Int) : ZMod m)) y)

include hready hslots hdenotes

omit hready in
theorem sameInteger_of_single (hnil : moduli = []) :
    SameInteger d t psi roots (q :: moduli) slots y := by
  subst hnil
  refine ⟨fun r => (f r).val, ?_, ?_, ?_⟩
  · intro r _
    rw [Int.natAbs_natCast]
    exact ZMod.val_lt _
  · apply hdenotes.congr
    intro i m hm r _
    cases i with
    | zero =>
        cases hm
        unfold DCRTPoly.transform
        congr 1
        funext r
        show ((NativeVector.centered q (f r).val : Int) : ZMod q) = (((f r).val : Int) : ZMod q)
        rw [NativeVector.centered_natCast, Int.cast_natCast]
    | succ i => cases hm
  · intro i hi
    rw [← hslots i hi]
    apply slotValue_congr
    intro r _
    rw [Int.cast_natCast, ZMod.natCast_zmod_val]

variable (htq : t <= q)

include htq

theorem sameInteger_of_lifts
    (hright : t = q ∨ forall r, r < 2 ^ (d + 1) -> 2 * (f r).val <= q) :
    SameInteger d t psi roots (q :: moduli) slots y := by
  have hqodd := (hready q List.mem_cons_self).modulus.odd
  refine ⟨fun r => NativeVector.centered q (f r).val, ?_, hdenotes, ?_⟩
  · intro r _
    exact natAbs_centered_lt hqodd (ZMod.val_lt _) htq
  · intro i hi
    rw [← hslots i hi]
    apply slotValue_congr
    intro r hr
    have hsmall : t = q ∨ 2 * (f r).val <= q := hright.imp_right fun hall => hall r hr
    rw [centered_cast_of hqodd hsmall, ZMod.natCast_zmod_val]

variable (hodd : t % 2 = 1) (hroot : (psi : ZMod t) ^ 2 ^ (d + 1) = -1)
  (hcoprime : (q :: moduli).Pairwise Nat.Coprime)

include hodd hroot hcoprime

theorem sameInteger_iff : SameInteger d t psi roots (q :: moduli) slots y <->
    moduli = [] ∨ t = q ∨ forall r, r < 2 ^ (d + 1) -> 2 * (f r).val <= q := by
  have hqodd := (hready q List.mem_cons_self).modulus.odd
  constructor
  · intro hsame
    rcases hsame with ⟨P, hbound, hP, hPslots⟩
    cases moduli with
    | nil => exact Or.inl rfl
    | cons m moduli =>
        rcases eq_or_ne t q with heq | hne
        · exact Or.inr (Or.inl heq)
        · refine Or.inr (Or.inr ?_)
          intro r hr
          by_contra hwraps
          have hmready := hready m (List.mem_cons_of_mem q List.mem_cons_self)
          have hfirst : (P r : ZMod q) = ((NativeVector.centered q (f r).val : Int) : ZMod q) :=
            residues_unique hready hP hdenotes (i := 0) rfl hr
          have hother : (P r : ZMod m) = ((NativeVector.centered q (f r).val : Int) : ZMod m) :=
            residues_unique hready hP hdenotes (i := 1) rfl hr
          have hplain : (P r : ZMod t) = f r :=
            slotValue_injective hodd hroot
              (fun i hi => (hPslots i hi).trans (hslots i hi).symm) hr
          rw [NativeVector.centered_natCast] at hfirst
          rw [← ZMod.natCast_zmod_val (f r)] at hplain
          exact not_fits_of_wraps hqodd (ZMod.val_lt _) htq hmready.modulus.one_lt
            ((List.pairwise_cons.mp hcoprime).left m List.mem_cons_self) hne (by omega)
            (hbound r hr) hfirst hother hplain
  · intro hcondition
    rcases hcondition with hnil | hright
    · exact sameInteger_of_single hslots hdenotes hnil
    · exact sameInteger_of_lifts hready hslots hdenotes htq hright

end Agree

/--
The towers agree on the scaled inverse transform when there is one tower, when the plaintext
modulus is the first modulus, or when no coefficient exceeds half of the first modulus.
-/
theorem encode_sameInteger_iff {cache : Poly.TableCache} {params : PackingParams}
    {a a' : PackedEncoding} {first : Poly} {rest : DCRTPoly} (hfresh : a.isEncoded = false)
    (helement : a.element = .IsDCRTPoly (first :: rest)) (h : a.encode cache params = some a')
    {d t psi q : Nat} {roots : Nat -> Nat} {moduli : List Nat} (hd : d + 1 <= 24)
    (hpack : PackingReady d t psi params) (ht : a.plaintextModulus = t)
    (hready : DCRTPoly.ReadyChain cache (d + 1) roots (q :: moduli))
    (hx : DCRTPoly.WellFormed (2 ^ (d + 1)) .COEFFICIENT (q :: moduli) (first :: rest))
    (hcoprime : (q :: moduli).Pairwise Nat.Coprime) :
    exists f y, a'.element = .IsDCRTPoly y ∧
      (forall i, i < 2 ^ (d + 1) -> slotValue d psi f i = a.slots t i) ∧
      (SameInteger d t psi roots (q :: moduli) (a.slots t) y <->
        moduli = [] ∨ t = q ∨ forall r, r < 2 ^ (d + 1) -> 2 * (f r).val <= q) := by
  rcases encode_accepts hfresh helement h with ⟨_, _, htq⟩
  rw [ht, (hx.get 0 q first rfl rfl).1] at htq
  rcases encode_denotes hfresh helement h hd hpack ht hready hx with
    ⟨f, y, hy, hslots, hdenotes⟩
  have hone := hpack.modulus.one_lt
  have : NeZero t := ⟨by omega⟩
  exact ⟨f, y, hy, hslots, sameInteger_iff hready hslots hdenotes htq hpack.modulus.odd
    hpack.root hcoprime⟩

/-- Two slots with minus one modulo 13, over the moduli 17 and 5. -/
def minusOne : PackedEncoding :=
  PackedEncoding.ofValue 13 1 1 [-1, -1] (.IsDCRTPoly (DCRTPoly.zero [17, 5] 2 .COEFFICIENT))

theorem minusOne_ready : DCRTPoly.ReadyChain Poly.smallCache 1 Poly.smallRoot [17, 5] := by
  intro q hq
  apply Poly.smallReady
  rcases List.mem_cons.mp hq with rfl | hq
  · decide
  · rw [List.mem_singleton.mp hq]
    decide

theorem minusOne_wellFormed : DCRTPoly.WellFormed (2 ^ 1) .COEFFICIENT [17, 5]
    (DCRTPoly.zero [17, 5] 2 .COEFFICIENT) :=
  DCRTPoly.zero_wellFormed (by decide) _ _

theorem minusOne_encode : exists params a', setParams2n 5 4 13 = some params ∧
    PackingReady 0 13 5 params ∧ minusOne.encode Poly.smallCache params = some a' := by
  have hmodulus : Poly.NttModulus 13 := ⟨by decide, by decide, by decide⟩
  rcases setParams2n_spec (d := 0) (by decide) hmodulus (show 5 < 13 by decide) (by decide) with
    ⟨params, hspec, hpack⟩
  have hparams : setParams2n 5 4 13 = some params := hspec
  have hsome : ((setParams2n 5 4 13).bind (minusOne.encode Poly.smallCache)).isSome = true := by
    decide +kernel
  rcases Option.isSome_iff_exists.mp hsome with ⟨a', ha'⟩
  rw [hparams, Option.bind_some] at ha'
  exact ⟨params, a', hparams, hpack, ha'⟩

theorem encode_sameInteger_iff_minusOne : exists params a', setParams2n 5 4 13 = some params ∧
    minusOne.encode Poly.smallCache params = some a' ∧
    exists f y, a'.element = .IsDCRTPoly y ∧
      (forall i, i < 2 ^ 1 -> slotValue 0 5 f i = minusOne.slots 13 i) ∧
      (SameInteger 0 13 5 Poly.smallRoot [17, 5] (minusOne.slots 13) y <->
        [5] = [] ∨ 13 = 17 ∨ forall r, r < 2 ^ 1 -> 2 * (f r).val <= 17) := by
  rcases minusOne_encode with ⟨params, a', hparams, hpack, ha'⟩
  exact ⟨params, a', hparams, ha', encode_sameInteger_iff rfl rfl ha' (by decide) hpack rfl
    minusOne_ready minusOne_wellFormed (by decide)⟩

/-- The coefficient 12 of minus one is stored as itself modulo 17 and as -5 modulo 5. -/
theorem not_sameInteger_minusOne : exists params a' y, setParams2n 5 4 13 = some params ∧
    minusOne.encode Poly.smallCache params = some a' ∧ a'.element = .IsDCRTPoly y ∧
    ¬SameInteger 0 13 5 Poly.smallRoot [17, 5] (minusOne.slots 13) y := by
  rcases minusOne_encode with ⟨params, a', hparams, hpack, ha'⟩
  rcases encode_denotes rfl rfl ha' (by decide) hpack rfl minusOne_ready minusOne_wellFormed with
    ⟨f, y, hy, hslots, hdenotes⟩
  refine ⟨params, a', y, hparams, ha', hy, ?_⟩
  rw [sameInteger_iff minusOne_ready hslots hdenotes (by decide) (by decide) hpack.root
    (by decide)]
  have hcoefficient : f 0 = 12 := by
    apply slotValue_injective (g := fun r => if r = 0 then 12 else 0) (by decide) hpack.root
    · intro i hi
      rw [hslots i hi]
      revert i
      decide
    · decide
  intro hcondition
  rcases hcondition with hnil | heq | hall
  · cases hnil
  · cases heq
  · have hle := hall 0 (by decide)
    rw [hcoefficient] at hle
    exact absurd hle (by decide)

end Encoding
end OpenFHE
