import OpenFHE.Core.CanonicalVector
import OpenFHE.Foundation.RegisterRuns
import OpenFHE.Hal.AutomorphismTransform

/-!
# Runs of vector and polynomial operations

A program keeps polynomials and computes new ones from them, in both formats; a vector
is the values of a polynomial.  Its polynomials have residues as values in every run
whose calls meet the condition of their operation.
-/

namespace OpenFHE
namespace Hal

open OpenFHE.Core Foundation NativeInteger

namespace Poly

/-! ## Further operations -/

def vector (a : Poly) : NativeVectorT where
  modulus := a.modulus
  data := a.values

/-- `SetValues` with a vector of the modulus of the parameters. -/
def withVector (a : Poly) (v : NativeVectorT) : Poly :=
  { a with modulus := v.modulus, values := v.data }

/-- A fault of a vector operation is an exception. -/
def onVector (a : Poly) (r : Except Fault NativeVectorT) : Option Poly :=
  match r with
  | .error _ => none
  | .ok v => some (a.withVector v)

/-- `Plus` of an integer: the constant in the coefficient format, else every value. -/
def plusInteger (a : Poly) (element : Nat) : Option Poly :=
  match a.format with
  | .COEFFICIENT => a.onVector (a.vector.modAddAtIndex 0 element)
  | .EVALUATION => a.onVector (a.vector.modAddInteger element)

def timesSigned (a : Poly) (element : Int) : Option Poly :=
  let q := a.modulus
  let reduced := if element.natAbs > q then element.natAbs % q else element.natAbs
  a.onVector (a.vector.modMulInteger (if element < 0 then subFast q reduced else reduced))

def addILElementOne (a : Poly) : Poly :=
  { a with values := a.values.map fun x => modAddFast x 1 a.modulus }

def makeSparse (wFactor : Nat) (a : Poly) : Option Poly :=
  if wFactor = 0 ∧ a.values ≠ [] then none
  else some { a with
    values := a.values.zipIdx.map fun p => if p.2 % wFactor ≠ 0 then 0 else p.1 }

def setValuesToMax (a : Poly) : Option Poly :=
  if a.modulus = 0 then none
  else some { a with
    values := List.replicate a.values.length (subFast a.modulus 1 % a.modulus) }

/-- The ring dimension is half of the order, a word of 32 bits, only for powers of two. -/
def automorphism (k : Nat) (a : Poly) : Option Poly :=
  if a.values.length = 2 ^ Nat.log2 a.values.length ∧ Nat.log2 a.values.length < 31 then
    automorphismTransform k a
  else none

/-! ## Calls -/

inductive Op where
  | vector (op : VectorOp)
  | plus
  | plusInteger (element : Nat)
  | times
  | timesNoCheck
  | timesSigned (element : Int)
  | negate
  | addILElementOne
  | automorphismTransform (k : Nat)
  | automorphismTransformMap (k : Nat) (precomp : List Nat)
  | makeSparse (wFactor : Nat)
  | setValuesToMax
  | switchFormat
deriving DecidableEq, Repr

/-- The rounded quotients are computed with floating point numbers. -/
structure Setting where
  cache : TableCache
  rounded : Nat -> Nat -> Nat -> Nat

def Op.apply (c : Setting) (a b : Poly) : Op -> Option Poly
  | vector op => a.onVector (op.apply c.rounded a.vector b.vector)
  | plus => a.plus b
  | plusInteger e => a.plusInteger e
  | times => a.times b
  | timesNoCheck => a.timesNoCheck b
  | timesSigned e => a.timesSigned e
  | negate => a.negate
  | addILElementOne => some a.addILElementOne
  | automorphismTransform k => a.automorphism k
  | automorphismTransformMap k precomp => a.automorphismTransformMap k precomp
  | makeSparse w => a.makeSparse w
  | setValuesToMax => a.setValuesToMax
  | switchFormat => Poly.switchFormat c.cache a

/-- Values below a modulus that `SetModulus` accepts. -/
structure Canonical (a : Poly) : Prop where
  residues : forall x, x ∈ a.values -> x < a.modulus
  modulus_lt : a.modulus < 2 ^ 60

/-- The condition of each operation on its operands. -/
def Op.KeepsResidues (c : Setting) (a b : Poly) : Op -> Prop
  | vector op => op.KeepsResidues c.rounded a.vector b.vector
  | times => VectorOp.modMul.KeepsResidues c.rounded a.vector b.vector
  | timesNoCheck => (forall y, y ∈ b.values -> y < a.modulus) ∧
      VectorOp.modMul.KeepsResidues c.rounded a.vector b.vector
  | automorphismTransform k => a.format = .COEFFICIENT -> forall j, j < a.values.length ->
      a.value j = 0 -> j * k / a.values.length % 2 = 0
  | switchFormat => exists l psi, 0 < l ∧ l <= 31 ∧ Ready c.cache l a.modulus psi ∧
      a.values.length = 2 ^ l
  | _ => True

section Step

variable {c : Setting} {a b r : Poly} (ha : a.Canonical)

theorem onVector_canonical {v : Except Fault NativeVectorT}
    (h : a.onVector v = some r)
    (hv : forall w, v = .ok w -> w.Canonical ∧ w.modulus < 2 ^ 60) : r.Canonical := by
  cases v with
  | error e => cases h
  | ok w =>
      cases h
      rcases hv w rfl with ⟨hcanonical, hlt⟩
      exact ⟨hcanonical, hlt⟩

include ha

theorem vector_canonical (op : VectorOp) (hb : b.Canonical)
    (hkeeps : op.KeepsResidues c.rounded a.vector b.vector)
    (h : a.onVector (op.apply c.rounded a.vector b.vector) = some r) : r.Canonical := by
  apply onVector_canonical h
  intro w hw
  constructor
  · have hav : a.vector.Canonical := ha.residues
    have hbv : b.vector.Canonical := hb.residues
    exact (VectorOp.canonical_iff hav ha.modulus_lt hbv hb.modulus_lt hw).mpr hkeeps
  · exact VectorOp.modulus_lt ha.modulus_lt hw

theorem plus_canonical (hb : b.Canonical) (h : a.plus b = some r) : r.Canonical := by
  unfold plus at h
  split at h
  · cases h
  · split at h
    · cases h
    · rename_i hmodulus
      split at h
      · cases h
      · cases h
        refine ⟨?_, ha.modulus_lt⟩
        intro z hz
        rcases List.mem_iff_getElem?.mp hz with ⟨i, hi⟩
        rcases List.getElem?_zipWith_eq_some.mp hi with ⟨x, y, hx, hy, rfl⟩
        have hylt := hb.residues y (List.mem_of_getElem? hy)
        rw [← not_not.mp hmodulus] at hylt
        exact NativeVectorT.modAddFast_lt ha.modulus_lt
          (ha.residues x (List.mem_of_getElem? hx)) hylt

theorem timesNoCheck_canonical (hlt : forall y, y ∈ b.values -> y < a.modulus)
    (hkeeps : VectorOp.modMul.KeepsResidues c.rounded a.vector b.vector)
    (h : a.timesNoCheck b = some r) : r.Canonical := by
  unfold timesNoCheck at h
  rcases Option.map_eq_some_iff.mp h with ⟨values, hvalues, rfl⟩
  unfold NativeVector.modMulNoCheckEq at hvalues
  rcases Option.bind_eq_some_iff.mp hvalues with ⟨mu, hmu, hzip⟩
  cases hzip
  refine ⟨?_, ha.modulus_lt⟩
  intro z hz
  rcases List.mem_iff_getElem?.mp hz with ⟨i, hi⟩
  rcases List.getElem?_zipWith_eq_some.mp hi with ⟨x, y, hx, hy, rfl⟩
  have hxlt := ha.residues x (List.mem_of_getElem? hx)
  have hylt := hlt y (List.mem_of_getElem? hy)
  exact (modMulFastMu_lt_iff (by omega) ha.modulus_lt hmu hxlt hylt).mpr
    fun heq => hkeeps heq i x y hx hy

theorem times_canonical (hb : b.Canonical)
    (hkeeps : VectorOp.modMul.KeepsResidues c.rounded a.vector b.vector)
    (h : a.times b = some r) : r.Canonical := by
  unfold times at h
  split at h
  · cases h
  · split at h
    · cases h
    · rename_i hmodulus
      split at h
      · cases h
      · apply timesNoCheck_canonical ha _ hkeeps h
        rw [not_not.mp hmodulus]
        exact hb.residues

theorem negate_canonical (h : a.negate = some r) : r.Canonical := by
  unfold negate at h
  rcases Option.map_eq_some_iff.mp h with ⟨values, hvalues, rfl⟩
  refine ⟨?_, ha.modulus_lt⟩
  unfold NativeVector.modSubEq at hvalues
  split at hvalues
  · cases hvalues
  · cases hvalues
    intro z hz
    rcases List.mem_iff_getElem?.mp hz with ⟨i, hi⟩
    rcases List.getElem?_zipWith_eq_some.mp hi with ⟨x, y, hx, hy, rfl⟩
    have hylt := ha.residues y (List.mem_of_getElem? hy)
    have hx0 : x = 0 := List.eq_of_mem_replicate (List.mem_of_getElem? hx)
    exact NativeVectorT.modSubFast_lt ha.modulus_lt (by omega) hylt

theorem addILElementOne_canonical : a.addILElementOne.Canonical := by
  refine ⟨?_, ha.modulus_lt⟩
  intro z hz
  rcases List.mem_map.mp hz with ⟨x, hx, rfl⟩
  have hxlt := ha.residues x hx
  have hlt := ha.modulus_lt
  dsimp only [addILElementOne]
  rcases Nat.lt_or_ge 1 a.modulus with hlarge | hsmall
  · exact NativeVectorT.modAddFast_lt hlt hxlt hlarge
  · cases (by omega : x = 0)
    have hone : a.modulus = 1 := by omega
    rw [hone]
    decide

theorem makeSparse_canonical {w : Nat} (h : a.makeSparse w = some r) : r.Canonical := by
  unfold makeSparse at h
  split at h
  · cases h
  · cases h
    refine ⟨?_, ha.modulus_lt⟩
    intro z hz
    rcases List.mem_map.mp hz with ⟨p, hp, rfl⟩
    have hlt := ha.residues p.1 (List.fst_mem_of_mem_zipIdx hp)
    dsimp only
    split
    · omega
    · exact hlt

theorem setValuesToMax_canonical (h : a.setValuesToMax = some r) : r.Canonical := by
  unfold setValuesToMax at h
  split at h
  · cases h
  · rename_i hne
    cases h
    refine ⟨?_, ha.modulus_lt⟩
    intro z hz
    rw [List.eq_of_mem_replicate hz]
    exact Nat.mod_lt _ (Nat.pos_of_ne_zero hne)

theorem automorphismTransformMap_canonical {k : Nat} {precomp : List Nat}
    (h : a.automorphismTransformMap k precomp = some r) : r.Canonical := by
  unfold automorphismTransformMap at h
  split at h
  · cases h
  · split at h
    · cases h
    · rcases Option.map_eq_some_iff.mp h with ⟨values, hvalues, rfl⟩
      refine ⟨?_, ha.modulus_lt⟩
      intro y hy
      rcases mapM_mem hvalues hy with ⟨j, _, hj⟩
      rcases Option.bind_eq_some_iff.mp hj with ⟨p, _, hp⟩
      exact ha.residues y (List.mem_of_getElem? hp)

theorem plusInteger_canonical (c : Setting) {e : Nat} (h : a.plusInteger e = some r) :
    r.Canonical := by
  unfold plusInteger at h
  split at h
  · exact vector_canonical (c := c) ha (.modAddAtIndex 0 e) ha trivial h
  · exact vector_canonical (c := c) ha (.modAddInteger e) ha trivial h

theorem timesSigned_canonical (c : Setting) {e : Int} (h : a.timesSigned e = some r) :
    r.Canonical :=
  vector_canonical (c := c) ha (.modMulInteger _) ha trivial h

theorem automorphism_canonical {k : Nat}
    (hkeeps : a.format = .COEFFICIENT -> forall j, j < a.values.length -> a.value j = 0 ->
      j * k / a.values.length % 2 = 0)
    (h : a.automorphism k = some r) : r.Canonical := by
  unfold automorphism at h
  split at h
  · rename_i hpower
    rcases hpower with ⟨hlength, hl⟩
    have hodd : k % 2 = 1 := by
      unfold automorphismTransform at h
      dsimp only at h
      split at h
      · cases h
      · omega
    cases hformat : a.format with
    | EVALUATION =>
        rw [automorphismTransform_unfold hl hodd hlength, hformat] at h
        dsimp only at h
        rcases Option.map_eq_some_iff.mp h with ⟨s, hs, rfl⟩
        have hrun := foldlM_invariant
          (fun s : Nat × List Nat => forall y, y ∈ s.2 -> y < a.modulus)
          (by
            intro j _ s s' hinv hstep
            unfold automorphismEvaluationStep at hstep
            rcases Option.bind_eq_some_iff.mp hstep with ⟨jrev, _, hstep⟩
            rcases Option.bind_eq_some_iff.mp hstep with ⟨idxrev, _, hstep⟩
            rcases Option.bind_eq_some_iff.mp hstep with ⟨x, hx, hstep⟩
            split at hstep
            · cases hstep
              intro y hy
              rcases List.mem_or_eq_of_mem_set hy with hold | rfl
              · exact hinv y hold
              · exact ha.residues y (List.mem_of_getElem? hx)
            · cases hstep)
          (by
            intro y hy
            rw [List.eq_of_mem_replicate hy]
            have hpos : 0 < a.values.length := by
              rw [hlength]
              exact Nat.two_pow_pos _
            exact Nat.zero_lt_of_lt (ha.residues _ (List.getElem_mem hpos))) hs
        exact ⟨hrun, ha.modulus_lt⟩
    | COEFFICIENT =>
        have hwf : WellFormed a.modulus (2 ^ Nat.log2 a.values.length) .COEFFICIENT a :=
          ⟨rfl, hformat, hlength, ha.residues⟩
        have hlt : a.modulus < 2 ^ 64 := lt_trans ha.modulus_lt (by decide)
        rcases automorphismTransform_coefficient hl hodd hlength hformat with
          ⟨b, hb, hmodulus, _⟩
        cases h.symm.trans hb
        have hzeros := hkeeps hformat
        rw [hlength] at hzeros
        have hresidues := (automorphismTransform_canonical_iff hl hlt hodd hwf h).mpr hzeros
        rw [← hmodulus] at hresidues
        exact ⟨hresidues, by rw [hmodulus]; exact ha.modulus_lt⟩
  · cases h

theorem switchFormat_canonical
    (hkeeps : exists l psi, 0 < l ∧ l <= 31 ∧ Ready c.cache l a.modulus psi ∧
      a.values.length = 2 ^ l)
    (h : switchFormat c.cache a = some r) : r.Canonical := by
  rcases hkeeps with ⟨l, psi, hl, hl31, hready, hlength⟩
  have hwf : WellFormed a.modulus (2 ^ l) a.format a := ⟨rfl, rfl, hlength, ha.residues⟩
  rcases switchFormat_transforms hl hready hl31 hwf with ⟨b, hb, htransforms⟩
  cases h.symm.trans hb
  have hresult : exists format, WellFormed a.modulus (2 ^ l) format r := by
    cases hformat : a.format with
    | EVALUATION =>
        rw [if_neg (by rw [hformat]; decide), if_neg (by rw [hformat]; decide)] at htransforms
        exact ⟨_, htransforms.coef_wellFormed⟩
    | COEFFICIENT =>
        rw [if_pos hformat, if_pos hformat] at htransforms
        exact ⟨_, htransforms.eval_denotes.wellFormed⟩
  rcases hresult with ⟨_, hmodulus, _, hresidues⟩
  constructor
  · rw [hmodulus]
    exact hresidues.2
  · rw [hmodulus]
    exact ha.modulus_lt

theorem Op.apply_canonical {op : Op} (hb : b.Canonical) (hkeeps : op.KeepsResidues c a b)
    (h : op.apply c a b = some r) : r.Canonical := by
  cases op with
  | vector op => exact vector_canonical ha op hb hkeeps h
  | plus => exact plus_canonical ha hb h
  | plusInteger e => exact plusInteger_canonical ha c h
  | times => exact times_canonical (c := c) ha hb hkeeps h
  | timesNoCheck => exact timesNoCheck_canonical (c := c) ha hkeeps.1 hkeeps.2 h
  | timesSigned e => exact timesSigned_canonical ha c h
  | negate => exact negate_canonical ha h
  | addILElementOne =>
      cases h
      exact addILElementOne_canonical ha
  | automorphismTransform k => exact automorphism_canonical ha hkeeps h
  | automorphismTransformMap k precomp => exact automorphismTransformMap_canonical ha h
  | makeSparse w => exact makeSparse_canonical ha h
  | setValuesToMax => exact setValuesToMax_canonical ha h
  | switchFormat => exact switchFormat_canonical ha hkeeps h

end Step

/-! ## Runs -/

/-- Polynomials of residues, one in each register. -/
def CanonicalStore (s : List Poly) : Prop := forall a, a ∈ s -> a.Canonical

abbrev Call := RegisterCall Op

abbrev Step (c : Setting) : Call -> List Poly -> List Poly -> Prop :=
  RegisterStep fun (op : Op) a b => op.apply c a b

abbrev Run (c : Setting) : List Poly -> List Poly -> Prop :=
  RegisterRun fun (op : Op) a b => op.apply c a b

/-- A run whose calls all meet the condition of their operation. -/
abbrev ResidueRun (c : Setting) : List Poly -> List Poly -> Prop :=
  KeepingRun (fun (op : Op) a b => op.apply c a b) fun op a b => op.KeepsResidues c a b

/-- Every state of such a run consists of residues. -/
theorem residueRun_canonical {c : Setting} {s s' : List Poly} (hs : CanonicalStore s)
    (hrun : ResidueRun c s s') : CanonicalStore s' :=
  hrun.invariant (fun _ _ _ _ ha hb hkeeps hcall => Op.apply_canonical ha hb hkeeps hcall) hs

def exactSetting : Setting where
  cache := fun _ => none
  rounded := fun x p q => (2 * p * x + q) / (2 * q)

def divideCall : Call where
  op := .vector (.divideAndRound 3)
  first := 0
  second := 0
  target := none

/-- Both sides of the half, rounded by three. -/
theorem residueRun_canonical_seventeen :
    CanonicalStore [⟨17, .COEFFICIENT, [2, 9]⟩, ⟨17, .COEFFICIENT, [1, 14]⟩] := by
  have hs : CanonicalStore [⟨17, .COEFFICIENT, [2, 9]⟩] := by
    intro a ha
    rw [List.mem_singleton.mp ha]
    exact ⟨by decide, by decide⟩
  have hkeeps : divideCall.Meets (fun op a b => op.KeepsResidues exactSetting a b)
      [⟨17, .COEFFICIENT, [2, 9]⟩] := by
    intro a b ha _
    cases ha
    show forall x, x ∈ [2, 9] -> 17 >>> 1 < x -> 3 >>> 1 < 17 - x
    decide
  have hstep : Step exactSetting divideCall [⟨17, .COEFFICIENT, [2, 9]⟩]
      [⟨17, .COEFFICIENT, [2, 9]⟩, ⟨17, .COEFFICIENT, [1, 14]⟩] :=
    RegisterStep.intro rfl rfl rfl
  exact residueRun_canonical hs (hstep.keepingRun hkeeps)

def negativeStore : List Poly := [⟨5, .COEFFICIENT, [1, 0]⟩, ⟨5, .EVALUATION, [1, 4]⟩]

/-- A negated zero, a distance rounded to zero and a larger modulus for `Mod`. -/
def negativeCalls : List Call :=
  [⟨.automorphismTransform 3, 0, 0, none⟩, ⟨.vector (.divideAndRound 5), 1, 1, none⟩,
    ⟨.vector (.mod 7 (by decide)), 1, 1, none⟩]

theorem negativeStore_canonical : CanonicalStore negativeStore := by
  intro a ha
  rcases List.mem_cons.mp ha with rfl | ha
  · exact ⟨by decide, by decide⟩
  · rw [List.mem_singleton.mp ha]
    exact ⟨by decide, by decide⟩

theorem not_canonical {r : Poly} {x : Nat} (hx : x ∈ r.values) (hge : r.modulus <= x) :
    ¬ r.Canonical := by
  intro h
  exact absurd (h.residues x hx) (Nat.not_lt.mpr hge)

/-- Each of the calls reaches a value that is not a residue, from residues alone. -/
theorem not_run_canonical :
    (forall call, call ∈ negativeCalls ->
      exists s', Step exactSetting call negativeStore s' ∧ ¬ CanonicalStore s') ∧
    ¬ forall s s', CanonicalStore s -> Run exactSetting s s' -> CanonicalStore s' := by
  have hcalls : forall call, call ∈ negativeCalls ->
      exists s', Step exactSetting call negativeStore s' ∧ ¬ CanonicalStore s' := by
    intro call hcall
    simp only [negativeCalls, List.mem_cons, List.not_mem_nil, or_false] at hcall
    rcases hcall with rfl | rfl | rfl
    · exact RegisterStep.not_forall (r := ⟨5, .COEFFICIENT, [1, 5]⟩) rfl rfl
        (by decide +kernel) rfl (not_canonical (x := 5) (by decide) (by decide))
    · exact RegisterStep.not_forall (r := ⟨5, .EVALUATION, [0, 5]⟩) rfl rfl
        (by decide +kernel) rfl (not_canonical (x := 5) (by decide) (by decide))
    · exact RegisterStep.not_forall (r := ⟨5, .EVALUATION, [1, 6]⟩) rfl rfl
        (by decide +kernel) rfl (not_canonical (x := 6) (by decide) (by decide))
  constructor
  · exact hcalls
  · intro hall
    rcases hcalls _ List.mem_cons_self with ⟨s', hstep, hnot⟩
    exact hnot (hall _ _ negativeStore_canonical hstep.run)

end Poly

end Hal
end OpenFHE
