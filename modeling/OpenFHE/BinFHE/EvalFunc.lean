import OpenFHE.BinFHE.EvalFloor

/-!
# Evaluation of look-up tables

`EvalFunc` tells three kinds of tables apart.  A negacyclic one takes one bootstrapping.  The others
first move the phase into the lower half of the circle, a table without a symmetry on the circle of
the doubled modulus, and extend the table to the upper half with the opposite sign.
-/

namespace OpenFHE
namespace BinFHE

open Core Foundation NativeInteger LWEEncryptionScheme

/-- `checkInputFunction`; the loops stay below twice the middle. -/
def checkInputFunction (lut : List Nat) (mod : Nat) : Except Fault Nat := do
  let mid := lut.length / 2
  let low <- Fault.access lut[0]?
  let high <- Fault.access lut[mid]?
  if low = subFast mod high then
    return if ∃ i ∈ List.range mid, 1 <= i ∧ lut.getD i 0 ≠ subFast mod (lut.getD (mid + i) 0) then 2
      else 0
  else if low = high then
    return if ∃ i ∈ List.range mid, 1 <= i ∧ lut.getD i 0 ≠ lut.getD (mid + i) 0 then 2 else 1
  else return 2

/--
The ring dimension and the functional bootstrapping.  A function is `none` where the code would
read past the end of a table.
-/
structure FunctionScheme (Key : Type _) where
  N : Nat
  BootstrapFunc : RingGSWBTKey Key -> LWECiphertextImpl -> (Nat -> Nat -> Nat -> Option Nat) ->
    Nat -> Except Fault LWECiphertextImpl

/-- The difference with a ciphertext, in place of the latter. -/
def evalSubEq2 (ct1 ct2 : LWECiphertextImpl) : Except Fault LWECiphertextImpl := do
  let a <- ct1.m_a.modSubEq ct2.m_a
  return { ct2 with m_a := a, m_b := modSubFast ct1.m_b ct2.m_b ct1.getModulus }

/-- The function `f0` of both branches with two bootstrappings. -/
def quarterTurn (x q Q : Nat) : Option Nat :=
  some (if x < q >>> 1 then subFast Q (q >>> 2) else q >>> 2)

/-- A table on the lower half, with the opposite sign on the upper half. -/
def signedTable (lut : List Nat) (x q Q : Nat) : Option Nat :=
  if x < q >>> 1 then lut[x]? else lut[x - q / 2]?.map (subFast Q)

namespace FunctionScheme

variable {Key : Type _} (scheme : FunctionScheme Key)

def evalFunc (EK : RingGSWBTKey Key) (ct : LWECiphertextImpl) (lut : List Nat) (beta : Nat) :
    Except Fault LWECiphertextImpl := do
  let ct1 := ct.copy
  let q := ct.getModulus
  let functionProperty <- checkInputFunction lut q
  if functionProperty = 0 then
    scheme.BootstrapFunc EK (evalAddConstEq ct1 beta) (fun x _ _ => lut[x]?) q
  else if functionProperty = 2 then
    if q > scheme.N then
      .error (.thrown ("Ciphertext modulus q must be <= ring dimension for arbitrary " ++
        "function evaluation"))
    else
      let dq := lShift q 1
      -- The entries of the mask stay as they are.
      let a <- ct1.m_a.setModulus dq
      let ct1 := { ct1 with m_a := a }
      let ct2 := evalAddConstEq ct1.copy beta
      let ct3 <- scheme.BootstrapFunc EK ct2 quarterTurn dq
      let ct3 <- evalSubEq2 ct1 ct3
      let ct3 := evalSubConstEq (evalAddConstEq ct3 beta) (q >>> 1)
      let ct4 <- scheme.BootstrapFunc EK ct3 (signedTable (lut ++ lut)) dq
      ct4.setModulus q
  else
    let ct2 <- scheme.BootstrapFunc EK (evalAddConstEq ct1 beta) quarterTurn q
    let ct2 <- evalSubEq2 ct ct2
    let ct2 := evalSubConstEq (evalAddConstEq ct2 beta) (q >>> 2)
    scheme.BootstrapFunc EK ct2 (signedTable lut) q

end FunctionScheme

/-! ## Tables -/

def entryOf (lut : List Nat) (i : Nat) : Nat := lut.getD i 0

theorem getElem?_entryOf {lut : List Nat} {i : Nat} (hi : i < lut.length) :
    lut[i]? = some (entryOf lut i) := by
  rw [entryOf, List.getD_eq_getElem _ _ hi, List.getElem?_eq_getElem hi]

/-- The symmetry that the check has found. -/
inductive Checked (lut : List Nat) (mod : Nat) : Nat -> Prop where
  | negacyclic (h : forall i, i < lut.length / 2 ->
      entryOf lut i = subFast mod (entryOf lut (lut.length / 2 + i))) : Checked lut mod 0
  | periodic (h : forall i, i < lut.length / 2 ->
      entryOf lut i = entryOf lut (lut.length / 2 + i)) : Checked lut mod 1
  | arbitrary : Checked lut mod 2

theorem checkInputFunction_spec {lut : List Nat} (mod : Nat) (hpos : 0 < lut.length) :
    exists functionProperty, checkInputFunction lut mod = .ok functionProperty ∧
      Checked lut mod functionProperty := by
  have hmid : lut.length / 2 < lut.length := Nat.div_lt_self hpos (by decide)
  have hall {P : Nat -> Prop} (hfirst : P 0)
      (hrest : ¬ ∃ i ∈ List.range (lut.length / 2), 1 <= i ∧ ¬ P i) (i : Nat)
      (hi : i < lut.length / 2) : P i := by
    by_contra hnot
    rcases Nat.eq_zero_or_pos i with rfl | hone
    · exact hnot hfirst
    · exact hrest ⟨i, List.mem_range.mpr hi, hone, hnot⟩
  unfold checkInputFunction
  dsimp only
  rw [getElem?_entryOf hpos, getElem?_entryOf hmid, Fault.access_some, Fault.ok_bind,
    Fault.access_some, Fault.ok_bind]
  by_cases hnegacyclic : entryOf lut 0 = subFast mod (entryOf lut (lut.length / 2))
  · rw [if_pos hnegacyclic]
    split
    next => exact ⟨2, rfl, .arbitrary⟩
    next hrest => exact ⟨0, rfl, .negacyclic (hall hnegacyclic hrest)⟩
  · rw [if_neg hnegacyclic]
    by_cases hperiodic : entryOf lut 0 = entryOf lut (lut.length / 2)
    · rw [if_pos hperiodic]
      split
      next => exact ⟨2, rfl, .arbitrary⟩
      next hrest => exact ⟨1, rfl, .periodic (hall hperiodic hrest)⟩
    · rw [if_neg hperiodic]
      exact ⟨2, rfl, .arbitrary⟩

/-! ## Exact bootstrapping -/

/--
Bootstrappings that evaluate a function which has a value at every phase and changes its sign by
half of the modulus, for every modulus that divides the order of the ring.
-/
structure ExactFunctions {Key : Type _} (scheme : FunctionScheme Key) (n : Nat)
    (sk : NativeVectorT) (Good : RingGSWBTKey Key -> Prop) : Prop where
  bootstrapFunc : forall EK ct f (g : Nat -> Nat) M F x, Good EK -> M ∣ 2 * scheme.N -> 0 < F ->
    F < 2 ^ 60 -> HasPhase n M sk ct x -> (forall z, z < M -> f z M F = some (g z)) ->
    (forall z, z < M / 2 -> (g (z + M / 2) : ZMod F) = -(g z : ZMod F)) ->
    exists ct', scheme.BootstrapFunc EK ct f F = .ok ct' ∧ HasPhase n F sk ct' (g x % F)

section Circle

variable {c : Nat} (hM60 : 4 * c < 2 ^ 60)

include hM60

theorem quarterTurn_eq (x : Nat) :
    quarterTurn x (4 * c) (4 * c) = some (if x < 2 * c then 4 * c - c else c) := by
  have hword : (2 : Nat) ^ 60 < 2 ^ maxBits := by decide
  rw [quarterTurn, (shift_quarters c).1, (shift_quarters c).2, subFast_eq (by omega) (by omega)]

omit hM60 in
theorem quarterTurn_negacyclic {z : Nat} (hz : z < 2 * c) :
    ((if z + 2 * c < 2 * c then 4 * c - c else c : Nat) : ZMod (4 * c)) =
      -((if z < 2 * c then 4 * c - c else c : Nat) : ZMod (4 * c)) := by
  rw [if_neg (by omega), if_pos hz, Nat.cast_sub (by omega), ZMod.natCast_self]
  ring

variable {lut : List Nat} (hlength : 2 * c <= lut.length)
  (hentries : forall i, i < 2 * c -> entryOf lut i <= 4 * c)

include hlength hentries

theorem signedTable_eq {z : Nat} (hz : z < 4 * c) : signedTable lut z (4 * c) (4 * c) =
    some (if z < 2 * c then entryOf lut z else 4 * c - entryOf lut (z - 2 * c)) := by
  have hword : (2 : Nat) ^ 60 < 2 ^ maxBits := by decide
  have hhalf : 4 * c / 2 = 2 * c := by omega
  rw [signedTable, (shift_quarters c).1, hhalf]
  by_cases hlow : z < 2 * c
  · rw [if_pos hlow, if_pos hlow, getElem?_entryOf (by omega)]
  · rw [if_neg hlow, if_neg hlow, getElem?_entryOf (by omega), Option.map_some,
      subFast_eq (hentries _ (by omega)) (by omega)]

omit hM60 hlength in
theorem signedTable_negacyclic {z : Nat} (hz : z < 2 * c) :
    ((if z + 2 * c < 2 * c then entryOf lut (z + 2 * c)
        else 4 * c - entryOf lut (z + 2 * c - 2 * c) : Nat) : ZMod (4 * c)) =
      -((if z < 2 * c then entryOf lut z else 4 * c - entryOf lut (z - 2 * c) : Nat) :
        ZMod (4 * c)) := by
  rw [if_neg (by omega), if_pos hz, Nat.add_sub_cancel, Nat.cast_sub (hentries z hz),
    ZMod.natCast_self]
  ring

end Circle

section Branches

variable {Key : Type _} {scheme : FunctionScheme Key} {n : Nat} {sk : NativeVectorT}
  {Good : RingGSWBTKey Key -> Prop} (hexact : ExactFunctions scheme n sk Good)
  {EK : RingGSWBTKey Key} (hEK : Good EK) {c : Nat} (hc : 0 < c) (hM60 : 4 * c < 2 ^ 60)
  (hdvd : 4 * c ∣ 2 * scheme.N)

include hM60 in
theorem HasPhase.subEq2 {ct1 ct2 : LWECiphertextImpl} {x1 x2 y : Nat}
    (h1 : HasPhase n (4 * c) sk ct1 x1) (h2 : HasPhase n (4 * c) sk ct2 x2)
    (hy : Represents (4 * c) ((x1 : ZMod (4 * c)) - x2) y) :
    exists ct', evalSubEq2 ct1 ct2 = .ok ct' ∧ HasPhase n (4 * c) sk ct' y := by
  rcases h1.sub hM60 h2 hy with ⟨ct', hsub, hphase⟩
  unfold evalSubEq at hsub
  cases ha : ct1.m_a.modSubEq ct2.m_a with
  | error e =>
      rw [ha] at hsub
      cases hsub
  | ok a =>
      rw [ha] at hsub
      cases hsub
      refine ⟨{ ct2 with m_a := a, m_b := modSubFast ct1.m_b ct2.m_b ct1.getModulus }, ?_,
        hphase.mask, hphase.body_lt, hphase.phase_eq⟩
      rw [evalSubEq2, ha]
      rfl

include hexact hEK hc hM60 hdvd

theorem turn_spec {ct added : LWECiphertextImpl} {x beta : Nat}
    (hct : HasPhase n (4 * c) sk ct x) (hbeta : beta < 4 * c)
    (hadded : HasPhase n (4 * c) sk added ((x + beta) % (4 * c))) :
    exists ct2 ct3, scheme.BootstrapFunc EK added quarterTurn (4 * c) = .ok ct2 ∧
      evalSubEq2 ct ct2 = .ok ct3 ∧
      HasPhase n (4 * c) sk (evalSubConstEq (evalAddConstEq ct3 beta) c)
        ((x + beta) % (4 * c) % (2 * c)) := by
  have hhalf : 4 * c / 2 = 2 * c := by omega
  have hsum : (((x + beta) % (4 * c) : Nat) : ZMod (4 * c)) = (x : ZMod (4 * c)) + beta := by
    rw [ZMod.natCast_mod, Nat.cast_add]
  have hylt := hadded.phase_eq.1
  generalize (x + beta) % (4 * c) = y at hadded hsum hylt ⊢
  rcases hexact.bootstrapFunc EK added quarterTurn (fun z => if z < 2 * c then 4 * c - c else c)
    (4 * c) (4 * c) y hEK hdvd (by omega) hM60 hadded (fun z _ => quarterTurn_eq hM60 z)
    (fun z hz => by rw [hhalf] at hz ⊢; exact quarterTurn_negacyclic hz) with ⟨ct2, hct2, hphase2⟩
  have hdifference : Represents (4 * c)
      ((x : ZMod (4 * c)) - ((if y < 2 * c then 4 * c - c else c) % (4 * c) : Nat))
      ((x : ZMod (4 * c)) - ((if y < 2 * c then 4 * c - c else c) % (4 * c) : Nat)).val := by
    have : NeZero (4 * c) := ⟨by omega⟩
    exact ⟨ZMod.val_lt _, ZMod.natCast_zmod_val _⟩
  rcases hct.subEq2 hM60 hphase2 hdifference with ⟨ct3, hct3, hphase3⟩
  refine ⟨ct2, ct3, hct2, hct3, ?_⟩
  apply (hphase3.addConst hM60 hbeta).subConst hM60 (by omega)
  refine ⟨lt_of_lt_of_le (Nat.mod_lt _ (by omega)) (by omega), ?_⟩
  rw [ZMod.natCast_mod, Nat.cast_add, hdifference.2, ZMod.natCast_mod]
  by_cases hlow : y < 2 * c
  · rw [if_pos hlow, Nat.mod_eq_of_lt hlow, hsum, Nat.cast_sub (by omega), ZMod.natCast_self]
    ring
  · have hrest : y % (2 * c) = y - 2 * c := by
      rw [Nat.mod_eq_sub_mod (by omega), Nat.mod_eq_of_lt (by omega)]
    rw [if_neg hlow, hrest, Nat.cast_sub (by omega), hsum]
    push_cast
    ring

theorem read_spec {ct : LWECiphertextImpl} {y : Nat} (hct : HasPhase n (4 * c) sk ct y)
    (hy : y < 2 * c) {lut : List Nat} (hlength : 2 * c <= lut.length)
    (hentries : forall i, i < 2 * c -> entryOf lut i <= 4 * c) :
    exists ct', scheme.BootstrapFunc EK ct (signedTable lut) (4 * c) = .ok ct' ∧
      HasPhase n (4 * c) sk ct' (entryOf lut y % (4 * c)) := by
  have hhalf : 4 * c / 2 = 2 * c := by omega
  rcases hexact.bootstrapFunc EK ct (signedTable lut)
    (fun z => if z < 2 * c then entryOf lut z else 4 * c - entryOf lut (z - 2 * c)) (4 * c) (4 * c)
    y hEK hdvd (by omega) hM60 hct (fun z hz => signedTable_eq hM60 hlength hentries hz)
    (fun z hz => by rw [hhalf] at hz ⊢; exact signedTable_negacyclic hentries hz) with
    ⟨ct', hct', hphase⟩
  rw [if_pos hy] at hphase
  exact ⟨ct', hct', hphase⟩

end Branches

theorem HasPhase.double {n q : Nat} {sk : NativeVectorT} {ct : LWECiphertextImpl} {x : Nat}
    (hct : HasPhase n q sk ct x) :
    exists y, HasPhase n (2 * q) sk { ct with m_a := { ct.m_a with modulus := 2 * q } } y ∧
      y % q = x := by
  have hpos : 0 < q := lt_of_le_of_lt (Nat.zero_le _) hct.body_lt
  have : NeZero (2 * q) := ⟨by omega⟩
  have hresidues : Residues n (2 * q) ct.m_a.data :=
    ⟨hct.mask.residues.1, fun x hx => lt_of_lt_of_le (hct.mask.residues.2 x hx) (by omega)⟩
  refine ⟨(phase (2 * q) n sk ct.m_a.data ct.m_b).val, ⟨⟨rfl, hresidues⟩,
    lt_of_lt_of_le hct.body_lt (by omega), ZMod.val_lt _, ZMod.natCast_zmod_val _⟩, ?_⟩
  have hdvd : q ∣ 2 * q := Dvd.intro_left 2 rfl
  have hcast : (((phase (2 * q) n sk ct.m_a.data ct.m_b).val : Nat) : ZMod q) = x := by
    rw [hct.phase_eq.2, <- map_natCast (ZMod.castHom hdvd (ZMod q)), ZMod.natCast_zmod_val, phase,
      phase, maskProduct, maskProduct, map_sub, map_natCast, map_sum]
    apply congrArg₂ _ rfl
    apply Finset.sum_congr rfl
    intro i _
    rw [map_mul, secretResidue, map_intCast, coefficient, map_natCast]
    rfl
  rw [ZMod.natCast_eq_natCast_iff'] at hcast
  rw [hcast, Nat.mod_eq_of_lt hct.phase_eq.1]

section EvalFunc

variable {Key : Type _} {scheme : FunctionScheme Key} {n : Nat} {sk : NativeVectorT}
  {Good : RingGSWBTKey Key -> Prop} (hexact : ExactFunctions scheme n sk Good)
  {EK : RingGSWBTKey Key} (hEK : Good EK) {c : Nat} (hc : 0 < c) (hM60 : 8 * c < 2 ^ 60)
  {ct : LWECiphertextImpl} {x : Nat} (hct : HasPhase n (4 * c) sk ct x) {lut : List Nat}
  (hlength : lut.length = 4 * c) (hentries : forall i, i < 4 * c -> entryOf lut i < 4 * c)
  {beta : Nat} (hbeta : beta < 4 * c)

include hexact hEK hc hM60 hct hlength hentries hbeta

theorem evalFunc_negacyclic (hdvd : 4 * c ∣ 2 * scheme.N)
    (hcheck : checkInputFunction lut (4 * c) = .ok 0)
    (hsymmetry : forall i, i < lut.length / 2 ->
      entryOf lut i = subFast (4 * c) (entryOf lut (lut.length / 2 + i))) :
    exists ct', scheme.evalFunc EK ct lut beta = .ok ct' ∧
      HasPhase n (4 * c) sk ct' (entryOf lut ((x + beta) % (4 * c))) := by
  have hadded := hct.copy.addConst (by omega) hbeta
  have hlt := Nat.mod_lt (x + beta) (by omega : 0 < 4 * c)
  have hword : (2 : Nat) ^ 60 < 2 ^ maxBits := by decide
  rcases hexact.bootstrapFunc EK _ (fun x _ _ => lut[x]?) (entryOf lut) (4 * c) (4 * c) _ hEK hdvd
    (by omega) (by omega) hadded (fun z hz => getElem?_entryOf (by omega)) (fun z hz => by
      rw [hlength] at hsymmetry
      have hupper := hentries (4 * c / 2 + z) (by omega)
      rw [hsymmetry z hz, subFast_eq hupper.le (by omega), Nat.cast_sub hupper.le,
        ZMod.natCast_self, Nat.add_comm]
      ring) with ⟨ct', hct', hphase⟩
  rw [Nat.mod_eq_of_lt (hentries _ hlt)] at hphase
  refine ⟨ct', ?_, hphase⟩
  rw [FunctionScheme.evalFunc, LWECiphertextImpl.getModulus, hct.mask.modulus_eq, hcheck]
  exact hct'

theorem evalFunc_periodic (hdvd : 4 * c ∣ 2 * scheme.N)
    (hcheck : checkInputFunction lut (4 * c) = .ok 1)
    (hsymmetry : forall i, i < lut.length / 2 ->
      entryOf lut i = entryOf lut (lut.length / 2 + i)) :
    exists ct', scheme.evalFunc EK ct lut beta = .ok ct' ∧
      HasPhase n (4 * c) sk ct' (entryOf lut ((x + beta) % (4 * c))) := by
  have hadded := hct.copy.addConst (by omega) hbeta
  have hlt := Nat.mod_lt (x + beta) (by omega : 0 < 4 * c)
  rcases turn_spec hexact hEK hc (by omega) hdvd hct hbeta hadded with
    ⟨ct2, ct3, hct2, hct3, hphase3⟩
  rcases read_spec hexact hEK hc (by omega) hdvd hphase3 (Nat.mod_lt _ (by omega))
    (by omega : 2 * c <= lut.length) (fun i hi => (hentries i (by omega)).le) with
    ⟨ct', hct', hphase⟩
  have hsame : entryOf lut ((x + beta) % (4 * c) % (2 * c)) =
      entryOf lut ((x + beta) % (4 * c)) := by
    rw [hlength] at hsymmetry
    generalize (x + beta) % (4 * c) = y at hlt ⊢
    by_cases hlow : y < 2 * c
    · rw [Nat.mod_eq_of_lt hlow]
    · rw [Nat.mod_eq_sub_mod (by omega), Nat.mod_eq_of_lt (by omega),
        hsymmetry (y - 2 * c) (by omega)]
      congr 1
      omega
  rw [hsame, Nat.mod_eq_of_lt (hentries _ hlt)] at hphase
  refine ⟨ct', ?_, hphase⟩
  rw [FunctionScheme.evalFunc, LWECiphertextImpl.getModulus, hct.mask.modulus_eq, hcheck,
    Fault.ok_bind, if_neg (by decide), if_neg (by decide), hct2, Fault.ok_bind, hct3, Fault.ok_bind,
    (shift_quarters c).2]
  exact hct'

theorem evalFunc_arbitrary (hdvd : 8 * c ∣ 2 * scheme.N) (hN : 4 * c <= scheme.N)
    (hcheck : checkInputFunction lut (4 * c) = .ok 2) :
    exists ct', scheme.evalFunc EK ct lut beta = .ok ct' ∧
      HasPhase n (4 * c) sk ct' (entryOf lut ((x + beta) % (4 * c))) := by
  have hdouble : 2 * (4 * c) = 4 * (2 * c) := by omega
  have hlt := Nat.mod_lt (x + beta) (by omega : 0 < 4 * c)
  rcases hct.double with ⟨X, hraised, hX⟩
  rw [hdouble] at hraised
  have hadded := hraised.copy.addConst (by omega) (by omega : beta < 4 * (2 * c))
  have hdvd' : 4 * (2 * c) ∣ 2 * scheme.N := by
    rwa [<- Nat.mul_assoc]
  rcases turn_spec hexact hEK (by omega) (by omega) hdvd' hraised (by omega) hadded with
    ⟨ct2, ct3, hct2, hct3, hphase3⟩
  have happend (i : Nat) (hi : i < 4 * c) : entryOf (lut ++ lut) i = entryOf lut i := by
    rw [entryOf, List.getD_append _ _ _ _ (by omega), entryOf]
  rcases read_spec hexact hEK (by omega) (by omega) hdvd' hphase3 (Nat.mod_lt _ (by omega))
    (show 2 * (2 * c) <= (lut ++ lut).length by rw [List.length_append]; omega) (fun i hi => by
      rw [happend i (by omega)]
      have := hentries i (by omega)
      omega) with ⟨ct4, hct4, hphase4⟩
  have hdvd4 : 4 * c ∣ 4 * (2 * c) := Dvd.intro_left 2 hdouble
  have hmoved : (X + beta) % (4 * (2 * c)) % (2 * (2 * c)) = (x + beta) % (4 * c) := by
    have hsame : 2 * (2 * c) = 4 * c := by omega
    rw [hsame, Nat.mod_mod_of_dvd _ hdvd4, <- hX, Nat.mod_add_mod]
  rcases hphase4.setModulus (by omega) (by omega : 2 < 4 * c) hdvd4 with ⟨ct', hct', hphase⟩
  rw [hmoved, happend _ hlt, Nat.mod_mod_of_dvd _ hdvd4, Nat.mod_eq_of_lt (hentries _ hlt)] at hphase
  have hshift : lShift (4 * c) 1 = 4 * (2 * c) := by
    have hword : (2 : Nat) ^ 60 < 2 ^ maxBits := by decide
    rw [lShift, Nat.shiftLeft_eq, pow_one, Nat.mul_comm, hdouble, word_eq (by omega)]
  have hhalf : (4 * c) >>> 1 = 2 * c := (shift_quarters c).1
  have hset : ct.copy.m_a.setModulus (4 * (2 * c)) =
      .ok { ct.m_a with modulus := 4 * (2 * c) } :=
    NativeVectorT.setModulus_ok ct.m_a (by omega : 4 * (2 * c) < 2 ^ 60)
  refine ⟨ct', ?_, hphase⟩
  rw [FunctionScheme.evalFunc, LWECiphertextImpl.getModulus, hct.mask.modulus_eq, hcheck,
    Fault.ok_bind, if_neg (by decide), if_pos rfl, if_neg (Nat.not_lt.mpr hN), hshift, hhalf]
  dsimp only
  rw [hset, Fault.ok_bind]
  refine Eq.trans (congrArg (· >>= _) hct2) ?_
  rw [Fault.ok_bind]
  refine Eq.trans (congrArg (· >>= _) hct3) ?_
  rw [Fault.ok_bind]
  refine Eq.trans (congrArg (· >>= _) hct4) ?_
  exact hct'

end EvalFunc

/--
`EvalFunc` reads the table at the moved phase, whichever symmetry the table has, exactly when the
modulus is at most the ring dimension or the check finds a symmetry.
-/
theorem evalFunc_reads_iff {Key : Type _} {scheme : FunctionScheme Key} {n : Nat}
    {sk : NativeVectorT} {Good : RingGSWBTKey Key -> Prop} (hexact : ExactFunctions scheme n sk Good)
    {EK : RingGSWBTKey Key} (hEK : Good EK) {a k : Nat} (ha : 1 < a) (hak : a <= k + 1)
    (hk : k <= 56) (hN : scheme.N = 2 ^ k) {ct : LWECiphertextImpl} {x : Nat}
    (hct : HasPhase n (2 ^ a) sk ct x) {lut : List Nat} (hlength : lut.length = 2 ^ a)
    (hentries : forall i, i < 2 ^ a -> entryOf lut i < 2 ^ a) {beta : Nat} (hbeta : beta < 2 ^ a) :
    (exists ct', scheme.evalFunc EK ct lut beta = .ok ct' ∧
      HasPhase n (2 ^ a) sk ct' (entryOf lut ((x + beta) % 2 ^ a))) <->
      2 ^ a <= scheme.N ∨ checkInputFunction lut (2 ^ a) ≠ .ok 2 := by
  have hc := Nat.two_pow_pos (a - 2)
  have hquarter : 2 ^ a = 4 * 2 ^ (a - 2) := by
    rw [<- pow_mul_pow_sub 2 ha]
    rfl
  have hdvd : 2 ^ a ∣ 2 * scheme.N := by
    rw [hN, <- pow_succ']
    exact pow_dvd_pow 2 hak
  have hM60 : 2 * 2 ^ a < 2 ^ 60 := by
    rw [<- pow_succ']
    exact Nat.pow_lt_pow_right (by decide) (by omega)
  have hM60' : 8 * 2 ^ (a - 2) < 2 ^ 60 := by omega
  have hpositive : 0 < lut.length := by
    rw [hlength]
    exact Nat.two_pow_pos a
  rcases checkInputFunction_spec (2 ^ a) hpositive with ⟨functionProperty, hcheck, hchecked⟩
  rw [hquarter] at hct hlength hentries hbeta hdvd hcheck hchecked ⊢
  constructor
  · rintro ⟨ct', hcall, _⟩
    by_contra hnot
    push Not at hnot
    rw [FunctionScheme.evalFunc, LWECiphertextImpl.getModulus, hct.mask.modulus_eq, hnot.2,
      Fault.ok_bind, if_neg (by decide), if_pos rfl, if_pos hnot.1] at hcall
    cases hcall
  · intro hadmitted
    cases hchecked with
    | negacyclic hsymmetry =>
        exact evalFunc_negacyclic hexact hEK hc hM60' hct hlength hentries hbeta hdvd hcheck
          hsymmetry
    | periodic hsymmetry =>
        exact evalFunc_periodic hexact hEK hc hM60' hct hlength hentries hbeta hdvd hcheck hsymmetry
    | arbitrary =>
        have hle : 4 * 2 ^ (a - 2) <= scheme.N := by
          rcases hadmitted with hle | hnot
          · exact hle
          · exact absurd hcheck hnot
        have hdvd' : 8 * 2 ^ (a - 2) ∣ 2 * scheme.N := by
          have height : 8 * 2 ^ (a - 2) = 2 * 2 ^ a := by omega
          rw [<- hquarter, hN] at hle
          rw [height, hN]
          exact Nat.mul_dvd_mul_left 2
            (pow_dvd_pow 2 ((Nat.pow_le_pow_iff_right (by decide)).mp hle))
        exact evalFunc_arbitrary hexact hEK hc hM60' hct hlength hentries hbeta hdvd' hle hcheck

/-- Bootstrapping without noise of ciphertexts whose mask is zero. -/
def noiselessFunctions : FunctionScheme Unit where
  N := 16
  BootstrapFunc := fun _ ct f fmod =>
    match f ct.m_b ct.getModulus fmod with
    | none => .error .undefined
    | some value =>
        .ok { m_a := NativeVectorT.zeros ct.getLength fmod
              m_b := value % fmod }

theorem noiselessFunctions_exact (n N : Nat) :
    ExactFunctions noiselessFunctions n (NativeVectorT.zeros n N) (fun _ => True) := by
  constructor
  intro EK ct f g M F x _ _ hF _ hct hf _
  have hcall : noiselessFunctions.BootstrapFunc EK ct f F =
      .ok { m_a := NativeVectorT.zeros ct.getLength F, m_b := g x % F } := by
    rw [noiselessFunctions]
    dsimp only
    rw [LWECiphertextImpl.getModulus, hct.mask.modulus_eq, hct.body_eq, hf x hct.phase_eq.1]
  refine ⟨_, hcall, ?_⟩
  rw [LWECiphertextImpl.getLength, hct.mask.residues.1]
  exact HasPhase.of_zeros (Nat.mod_lt _ hF)

theorem evalFunc_reads_sixteen :
    checkInputFunction [3, 1, 4, 1, 5, 9, 2, 6, 5, 3, 5, 8, 9, 7, 9, 3] (2 ^ 4) = .ok 2 ∧
      exists ct', noiselessFunctions.evalFunc LargePrecision.generatedKey
          { m_a := NativeVectorT.zeros 2 (2 ^ 4), m_b := 9 }
          [3, 1, 4, 1, 5, 9, 2, 6, 5, 3, 5, 8, 9, 7, 9, 3] 2 = .ok ct' ∧
        HasPhase 2 (2 ^ 4) (NativeVectorT.zeros 2 1) ct'
          (entryOf [3, 1, 4, 1, 5, 9, 2, 6, 5, 3, 5, 8, 9, 7, 9, 3] ((9 + 2) % 2 ^ 4)) :=
  ⟨by decide, (evalFunc_reads_iff (noiselessFunctions_exact 2 1) trivial (by decide : 1 < 4)
    (by decide : 4 <= 4 + 1) (by decide) rfl (HasPhase.of_zeros (by decide)) rfl (by decide)
    (by decide)).mpr (Or.inl (by decide))⟩

end BinFHE
end OpenFHE
