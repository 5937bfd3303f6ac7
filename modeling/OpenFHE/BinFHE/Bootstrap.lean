import OpenFHE.BinFHE.BTKeys
import OpenFHE.BinFHE.LWEKeySwitch
import OpenFHE.Foundation.SampleExtraction
import OpenFHE.Hal.AutomorphismTransform

/-!
# Bootstrapping of one ciphertext

`BootstrapGateCore` writes a table of two amplitudes into the body of an accumulator
and rotates it by the mask.  `Bootstrap` extracts the constant coefficient and adds
an offset.  The amplitude and the offset depend on the plaintext modulus.
-/

namespace OpenFHE
namespace BinFHE

open Core Foundation NativeInteger Hal LWEEncryptionScheme

/-- The gates with a constant, in the order of their values. -/
inductive BINGATE where
  | OR | AND | NOR | NAND | XOR | XNOR | MAJORITY | AND3 | OR3 | AND4 | OR4
  | XOR_FAST | XNOR_FAST
deriving DecidableEq, Repr

/-- `m_gateConst`. -/
def gateConst (q : Nat) : BINGATE -> Nat
  | .OR => mulFast 5 (q >>> 3)
  | .AND => mulFast 7 (q >>> 3)
  | .NOR => mulFast 1 (q >>> 3)
  | .NAND => mulFast 3 (q >>> 3)
  | .XOR => mulFast 6 (q >>> 3)
  | .XNOR => mulFast 2 (q >>> 3)
  | .MAJORITY => mulFast 7 (q >>> 3)
  | .AND3 => mulFast 11 (q / 12)
  | .OR3 => mulFast 7 (q / 12)
  | .AND4 => mulFast 15 (q >>> 4)
  | .OR4 => mulFast 9 (q >>> 4)
  | .XOR_FAST => mulFast 6 (q >>> 3)
  | .XNOR_FAST => mulFast 2 (q >>> 3)

/--
The parameters and what the gates call: the tables of the transforms, the blind rotation
and the switch back to the small dimension.
-/
structure GateScheme (Key : Type _) where
  N : Nat
  q : Nat
  Q : Nat
  cache : Poly.TableCache
  EvalAcc : Key -> Poly × Poly -> NativeVectorT -> Except Fault (Poly × Poly)
  SwitchCTtoqn : Option Key -> LWECiphertextImpl -> Except Fault LWECiphertextImpl

def transpose (a : Poly) : Except Fault Poly :=
  if a.format = .COEFFICIENT then
    .error (.thrown ("PolyInterface element transposition is currently implemented only in " ++
      "the Evaluation representation."))
  else Fault.access (a.automorphismTransform (2 * a.values.length - 1))

/-- `Q / (p * 2) + 1`. -/
def halfStep (Q p : Nat) : Except Fault Nat :=
  if mulFast p 2 = 0 then .error .undefined else .ok (Q / mulFast p 2 + 1)

/-- The interval and the values of a table: inside, outside. -/
structure GateTable where
  lb : Nat
  ub : Nat
  lv : Nat
  uv : Nat
deriving DecidableEq, Repr

/-- The interval runs from the gate constant over half of the modulus, or around it. -/
def gateTable (q1 q Q amplitude : Nat) : GateTable :=
  let qHalf := usint q >>> 1
  let q2 := modAddFast q1 qHalf q
  let swap := q1 >= q2
  { lb := if swap then q2 else q1
    ub := if swap then q1 else q2
    lv := if swap then amplitude else subFast Q amplitude
    uv := if swap then subFast Q amplitude else amplitude }

def GateTable.read (t : GateTable) (b : Nat) : Nat :=
  if b >= t.lb ∧ b < t.ub then t.lv else t.uv

/-- One assignment of the loop that fills the table; `s` holds the table and `b`. -/
def fillStep (t : GateTable) (q factor : Nat) (s : List Nat × Nat) (j : Nat) : List Nat × Nat :=
  (s.1.set (j * factor) (t.read s.2), modSubFast s.2 1 q)

/-- The table of `q / 2` entries, `factor` apart. -/
def fillTable (t : GateTable) (N q factor b : Nat) : List Nat :=
  ((List.range ((N + factor - 1) / factor)).foldl (fillStep t q factor)
    (List.replicate N 0, b)).1

namespace GateScheme

variable {Key : Type _} (scheme : GateScheme Key)

/-- For `factor` zero the loop would not end. -/
def bootstrapGateCore (gate : BINGATE) (ek : Option Key) (ct : LWECiphertextImpl) :
    Except Fault (Poly × Poly) := do
  match ek with
  | none =>
      .error (.thrown ("Bootstrapping keys have not been generated. Please call BTKeyGen " ++
        "before calling bootstrapping."))
  | some ek =>
      let q := ct.getModulus
      let qHalf := usint q >>> 1
      let amplitude <- halfStep scheme.Q ct.m_p
      let table := gateTable (gateConst scheme.q gate) q scheme.Q amplitude
      if qHalf = 0 ∨ scheme.N / qHalf = 0 then .error .undefined
      else
        let m := fillTable table scheme.N q (scheme.N / qHalf) ct.m_b
        let res1 <- Fault.access
          (Poly.setFormat scheme.cache ⟨scheme.Q, .COEFFICIENT, m⟩ .EVALUATION)
        scheme.EvalAcc ek (Poly.zero scheme.Q scheme.N .EVALUATION, res1) ct.m_a

/-- `accVec` after the rotation, as the ciphertext with an offset added. -/
def extract (accVec : Poly × Poly) (offset : Nat) : Except Fault LWECiphertextImpl := do
  let acc0 <- transpose accVec.1
  let acc0 <- Fault.access (acc0.setFormat scheme.cache .COEFFICIENT)
  let acc1 <- Fault.access (accVec.2.setFormat scheme.cache .COEFFICIENT)
  let constant <- Fault.access (acc1.values)[0]?
  return {
    m_a := { modulus := acc0.modulus, data := acc0.values }
    m_b := modAddFast offset constant scheme.Q }

def bootstrap (EK : RingGSWBTKey Key) (ct : LWECiphertextImpl) (extended : Bool) :
    Except Fault LWECiphertextImpl := do
  let cct <-
    if scheme.Q = ct.getModulus then scheme.SwitchCTtoqn EK.KSkey ct else .ok ct.copy
  let cct := LWEEncryptionScheme.evalAddConstEq cct (ct.getModulus >>> 2)
  let accVec <- scheme.bootstrapGateCore .AND EK.BSkey cct
  let offset <- halfStep scheme.Q ct.m_p
  let ctExt <- scheme.extract accVec offset
  let ctExt <- if extended then .ok ctExt else scheme.SwitchCTtoqn EK.KSkey ctExt
  return { ctExt with m_p := ct.m_p }

end GateScheme

/-!
## The table of a gate
-/

/-- A table whose interval is half of the modulus and whose values are opposite. -/
structure GateTable.Opposite (t : GateTable) (h Q : Nat) : Prop where
  ub_eq : t.ub = t.lb + h
  ub_le : t.ub <= 2 * h
  lv_lt : t.lv < Q
  uv_lt : t.uv < Q
  opposite : (t.lv : ZMod Q) = -(t.uv : ZMod Q)

theorem cast_subFast {Q a : Nat} (hQ : Q < 2 ^ 60) (ha : a <= Q) :
    ((subFast Q a : Nat) : ZMod Q) = -(a : ZMod Q) := by
  rw [subFast_eq ha (lt_trans hQ (by decide)), Nat.cast_sub ha, ZMod.natCast_self, zero_sub]

theorem gateTable_opposite {q1 h Q amplitude : Nat} (hpos : 0 < h) (hh : 2 * h < 2 ^ 32)
    (hq1 : q1 < 2 * h) (hQ : Q < 2 ^ 60) (hamp : 0 < amplitude) (hlt : amplitude < Q) :
    (gateTable q1 (2 * h) Q amplitude).Opposite h Q := by
  have hhalf : usint (2 * h : Nat) >>> 1 = h := by
    rw [usint_natCast, Nat.mod_eq_of_lt hh, Nat.shiftRight_eq_div_pow]
    omega
  have hq2 : modAddFast q1 h (2 * h) = (q1 + h) % (2 * h) :=
    modAddFast_eq (by omega) hq1 (by omega)
  have hneg : subFast Q amplitude = Q - amplitude := subFast_eq hlt.le (lt_trans hQ (by decide))
  have hcast : ((Q - amplitude : Nat) : ZMod Q) = -(amplitude : ZMod Q) := by
    rw [<- hneg, cast_subFast hQ hlt.le]
  unfold gateTable
  dsimp only
  rw [hhalf, hq2, hneg]
  rcases Nat.lt_or_ge (q1 + h) (2 * h) with hlow | hhigh
  · rw [Nat.mod_eq_of_lt hlow]
    have hswap : ¬q1 >= q1 + h := by omega
    constructor
    · simp only [if_neg hswap]
    · simp only [if_neg hswap]
      omega
    · simp only [if_neg hswap]
      omega
    · simp only [if_neg hswap]
      exact hlt
    · simp only [if_neg hswap]
      exact hcast
  · rw [Nat.mod_eq_sub_mod hhigh, Nat.mod_eq_of_lt (by omega)]
    have hswap : q1 >= q1 + h - 2 * h := by omega
    constructor
    · simp only [if_pos hswap]
      omega
    · simp only [if_pos hswap]
      omega
    · simp only [if_pos hswap]
      exact hlt
    · simp only [if_pos hswap]
      omega
    · simp only [if_pos hswap]
      rw [hcast, neg_neg]

section Table

variable {t : GateTable} {h Q : Nat} (ht : t.Opposite h Q)

include ht

theorem GateTable.Opposite.read_lt (b : Nat) : t.read b < Q := by
  unfold read
  split
  · exact ht.lv_lt
  · exact ht.uv_lt

theorem GateTable.Opposite.read_half {x y : Nat} (hx : x < 2 * h) (hy : y < 2 * h)
    (hxy : y = x + h ∨ y + h = x) : (t.read y : ZMod Q) = -(t.read x : ZMod Q) := by
  have hub := ht.ub_eq
  have hle := ht.ub_le
  unfold read
  by_cases hin : x >= t.lb ∧ x < t.ub
  · rw [if_pos hin, if_neg (by omega), ht.opposite, neg_neg]
  · rw [if_neg hin, if_pos (by omega), ht.opposite]

end Table

theorem gateConst_lt {q : Nat} (hpos : 0 < q) (hq : q < 2 ^ 60) (gate : BINGATE) :
    gateConst q gate < q := by
  have h3 : q >>> 3 = q / 8 := Nat.shiftRight_eq_div_pow q 3
  have h4 : q >>> 4 = q / 16 := Nat.shiftRight_eq_div_pow q 4
  cases gate <;>
    simp only [gateConst, mulFast, h3, h4] <;>
    rw [word_eq (by simp only [maxBits]; omega)] <;>
    omega

theorem halfStep_spec {Q p : Nat} (hQ : 2 < Q) (hp : mulFast p 2 ≠ 0) :
    halfStep Q p = .ok (Q / mulFast p 2 + 1) ∧ Q / mulFast p 2 + 1 < Q := by
  have hle : Q / mulFast p 2 <= Q / 2 := by
    apply Nat.div_le_div_left _ (by decide)
    unfold mulFast word at hp ⊢
    simp only [maxBits] at hp ⊢
    omega
  constructor
  · rw [halfStep, if_neg hp]
  · omega

/-! ## The filled table -/

structure Filled (t : GateTable) (N Q q factor b n : Nat) (s : List Nat × Nat) : Prop where
  length_eq : s.1.length = N
  lt : forall x, x ∈ s.1 -> x < Q
  b_eq : Represents q ((b : ZMod q) - n) s.2
  entries : forall j, j < n -> exists x, Represents q ((b : ZMod q) - j) x ∧
    s.1[j * factor]? = some (t.read x)

section Fill

variable {t : GateTable} {N Q q factor b h : Nat} (hQ : forall x, t.read x < Q)
  (hfactor : 0 < factor) (hN : N = h * factor) (hq1 : 1 < q) (hq60 : q < 2 ^ 60)

include hQ hfactor hN hq1 hq60

theorem fillStep_filled {n : Nat} (hn : n < h) {s : List Nat × Nat}
    (hs : Filled t N Q q factor b n s) :
    Filled t N Q q factor b (n + 1) (fillStep t q factor s n) := by
  have hplace : n * factor < s.1.length := by
    rw [hs.length_eq, hN]
    exact Nat.mul_lt_mul_of_pos_right hn hfactor
  constructor
  · rw [fillStep, List.length_set]
    exact hs.length_eq
  · intro x hx
    rcases List.mem_or_eq_of_mem_set hx with hold | rfl
    · exact hs.lt x hold
    · exact hQ s.2
  · have hsub := NativeVector.represents_sub_fast hq60 hs.b_eq.1 hq1
    rw [hs.b_eq.2] at hsub
    rw [fillStep, Nat.cast_succ, <- sub_sub, <- Nat.cast_one]
    exact hsub
  · intro j hj
    rcases Nat.lt_succ_iff_lt_or_eq.mp hj with hlt | rfl
    · rcases hs.entries j hlt with ⟨x, hx, hentry⟩
      refine ⟨x, hx, ?_⟩
      have hne : n * factor ≠ j * factor := by
        intro heq
        have := Nat.eq_of_mul_eq_mul_right hfactor heq
        omega
      rw [fillStep, List.getElem?_set_ne hne]
      exact hentry
    · refine ⟨s.2, hs.b_eq, ?_⟩
      rw [fillStep, List.getElem?_set_self hplace]

theorem fillTable_filled (hQpos : 0 < Q) (hb : b < q) :
    exists b', Filled t N Q q factor b h (fillTable t N q factor b, b') := by
  have hcount : (N + factor - 1) / factor = h := by
    rw [hN, show h * factor + factor - 1 = factor - 1 + h * factor by omega,
      Nat.add_mul_div_right _ _ hfactor, Nat.div_eq_of_lt (by omega), Nat.zero_add]
  have hrun : forall n, n <= h -> Filled t N Q q factor b n
      ((List.range n).foldl (fillStep t q factor) (List.replicate N 0, b)) := by
    intro n hn
    induction n with
    | zero =>
        constructor
        · exact List.length_replicate
        · intro x hx
          rw [List.eq_of_mem_replicate hx]
          exact hQpos
        · rw [Nat.cast_zero, sub_zero]
          exact ⟨hb, rfl⟩
        · intro j hj
          exact absurd hj (Nat.not_lt_zero j)
    | succ n ih =>
        rw [List.range_succ, List.foldl_append]
        exact fillStep_filled hQ hfactor hN hq1 hq60 hn (ih (by omega))
  refine ⟨((List.range h).foldl (fillStep t q factor) (List.replicate N 0, b)).2, ?_⟩
  rw [fillTable, hcount]
  exact hrun h le_rfl

end Fill

theorem rotated_fillTable {t : GateTable} {Q h factor b k : Nat} (ht : t.Opposite h Q)
    (hfactor : 0 < factor) (hk : k < 2 * h) (hh : 2 * h < 2 ^ 60) (hb : b < 2 * h)
    {x : Nat} (hx : Represents (2 * h) ((b : ZMod (2 * h)) - k) x) :
    rotated (h * factor) (coefficient Q (fillTable t (h * factor) (2 * h) factor b)) (k * factor) =
      (t.read x : ZMod Q) := by
  have hread := ht.read_lt
  rcases fillTable_filled hread hfactor rfl (by omega) hh (lt_of_le_of_lt (Nat.zero_le _) (hread 0))
    hb with ⟨_, hfilled⟩
  unfold rotated coefficient
  by_cases hlow : k < h
  · rcases hfilled.entries k hlow with ⟨y, hy, hentry⟩
    rw [if_pos (Nat.mul_lt_mul_of_pos_right hlow hfactor), List.getD_eq_getElem?_getD, hentry,
      Option.getD_some, hy.eq hx]
  · rcases hfilled.entries (k - h) (by omega) with ⟨y, hy, hentry⟩
    have hplace : k * factor - h * factor = (k - h) * factor := (Nat.sub_mul k h factor).symm
    rw [if_neg (Nat.not_lt.mpr (Nat.mul_le_mul_right _ (Nat.not_lt.mp hlow))), hplace,
      List.getD_eq_getElem?_getD, hentry, Option.getD_some]
    have hshift : y = x + h ∨ y + h = x := by
      have hcast : (y : ZMod (2 * h)) = ((x + h : Nat) : ZMod (2 * h)) := by
        rw [hy.2, Nat.cast_add, hx.2, Nat.cast_sub (Nat.not_lt.mp hlow)]
        ring
      have hmod := (ZMod.natCast_eq_natCast_iff' _ _ _).mp hcast
      have hxlt := hx.1
      rw [Nat.mod_eq_of_lt hy.1] at hmod
      rcases Nat.lt_or_ge (x + h) (2 * h) with hsmall | hlarge
      · rw [Nat.mod_eq_of_lt hsmall] at hmod
        exact Or.inl hmod
      · rw [Nat.mod_eq_sub_mod hlarge, Nat.mod_eq_of_lt (by omega)] at hmod
        exact Or.inr (by omega)
    rw [ht.read_half hx.1 hy.1 hshift, neg_neg]

/-!
## Extraction
-/

def valueResidue (Q : Nat) (a : Poly) (i : Nat) : ZMod Q := a.value i

theorem transposed_moves {k : Nat} {R : Type _} [CommRing R] (a : Nat -> R) {j : Nat}
    (hj : j < 2 ^ k) :
    transposed (2 ^ k) a (j * (2 * 2 ^ k - 1) % 2 ^ k) =
      if j * (2 * 2 ^ k - 1) / 2 ^ k % 2 = 1 then -a j else a j := by
  rcases Nat.eq_zero_or_pos j with rfl | hpos
  · simp [transposed]
  · have hsplit : j * (2 * 2 ^ k - 1) = (2 ^ k - j) + 2 ^ k * (2 * j - 1) := by
      have hmul : j * (2 * 2 ^ k) = 2 ^ k * (2 * j) := by ring
      have hle : 2 ^ k <= 2 ^ k * (2 * j) := Nat.le_mul_of_pos_right _ (by omega)
      rw [Nat.mul_sub, Nat.mul_sub, hmul]
      omega
    rw [hsplit, Nat.add_mul_mod_self_left, Nat.mod_eq_of_lt (by omega),
      Nat.add_mul_div_left _ _ (Nat.two_pow_pos k), Nat.div_eq_of_lt (by omega), if_pos (by omega),
      transposed, if_neg (by omega), Nat.sub_sub_self hj.le]

section Extract

variable {cache : Poly.TableCache} {k Q psi : Nat} (hk : 0 < k) (hk24 : k <= 24)
  (hready : Poly.Ready cache k Q psi)

include hk hk24 hready

theorem transpose_spec {c d : Poly} (hcd : Poly.Transforms k Q psi c d) :
    exists t r, transpose d = .ok t ∧ t.setFormat cache .COEFFICIENT = some r ∧
      Poly.Denotes Q (2 ^ k) .COEFFICIENT (transposed (2 ^ k) (valueResidue Q c)) r := by
  have hodd : (2 * 2 ^ k - 1) % 2 = 1 := by
    have := Nat.two_pow_pos k
    omega
  have hlt : 2 * 2 ^ k - 1 < 2 ^ 32 := by
    have := Nat.pow_le_pow_right (show 0 < 2 by decide) hk24
    omega
  rcases Poly.automorphismTransform_denotes hk hk24 hodd hlt hcd.eval_denotes with
    ⟨t, ht, htdenotes⟩
  have htransposed : Poly.Denotes Q (2 ^ k) .EVALUATION
      (stageArray (transposed (2 ^ k) (valueResidue Q c)) psi 1 k) t := by
    apply htdenotes.congr
    intro r _
    exact stageArray_signed hready.root hodd (fun j hj => transposed_moves _ hj) r
  rcases Poly.switchFormat_coefficient hk hready (by omega) htransposed with ⟨r, hr, hrdenotes⟩
  refine ⟨t, r, ?_, ?_, hrdenotes⟩
  · rw [transpose, if_neg (by rw [hcd.eval_denotes.format_eq]; decide),
      hcd.eval_denotes.holds.length_eq, ht]
    rfl
  · rw [Poly.setFormat, if_neg (by rw [htransposed.format_eq]; decide), hr]

theorem setFormat_coefficient {c d : Poly} (hcd : Poly.Transforms k Q psi c d) :
    d.setFormat cache .COEFFICIENT = some c := by
  rcases Poly.switchFormat_coefficient hk hready (by omega) hcd.eval_denotes with ⟨r, hr, hrdenotes⟩
  rw [Poly.setFormat, if_neg (by rw [hcd.eval_denotes.format_eq]; decide), hr,
    hrdenotes.unique hcd.coef_wellFormed.denotes]

end Extract

/-- The phase of an accumulator under the secret ring element. -/
noncomputable def accPhase (N Q : Nat) (skN : NativeVectorT) (c0 c1 : Poly) :
    Polynomial (ZMod Q) :=
  coeffPoly N (valueResidue Q c1) -
    coeffPoly N (valueResidue Q c0) * coeffPoly N (secretResidue Q skN)

theorem degree_accPhase_lt (N Q : Nat) (skN : NativeVectorT)
    (c0 c1 : Poly) : (accPhase N Q skN c0 c1).degree < (2 * N : Nat) := by
  apply lt_of_le_of_lt (Polynomial.degree_sub_le _ _)
  apply max_lt
  · exact lt_of_lt_of_le (degree_coeffPoly_lt N _)
      (by exact_mod_cast Nat.le_mul_of_pos_left N (by decide : 0 < 2))
  · exact degree_mul_coeffPoly_lt N _ _

theorem fold_accPhase_zero {N : Nat} (hN : 0 < N) (Q : Nat) (skN : NativeVectorT)
    (c0 c1 : Poly) : fold N (accPhase N Q skN c0 c1).coeff 0 =
      valueResidue Q c1 0 - ∑ i ∈ Finset.range N,
        transposed N (valueResidue Q c0) i * secretResidue Q skN i := by
  rw [<- fold_mul_zero hN, fold, fold, accPhase, Polynomial.coeff_sub, Polynomial.coeff_sub,
    coeff_coeffPoly N _ hN, coeff_coeffPoly_of_le N _ (by omega : N <= 0 + N)]
  ring

namespace GateScheme

variable {Key : Type _} {scheme : GateScheme Key} {k psi : Nat}

theorem extract_spec (hk : 0 < k) (hk24 : k <= 24)
    (hready : Poly.Ready scheme.cache k scheme.Q psi) {c0 c1 : Poly} {accVec : Poly × Poly}
    (h0 : Poly.Transforms k scheme.Q psi c0 accVec.1)
    (h1 : Poly.Transforms k scheme.Q psi c1 accVec.2) {offset : Nat}
    (hoffset : offset < scheme.Q) (skN : NativeVectorT) :
    exists ct, scheme.extract accVec offset = .ok ct ∧
      NativeVectorT.Valid (2 ^ k) scheme.Q ct.m_a ∧ ct.m_b < scheme.Q ∧
      phase scheme.Q (2 ^ k) skN ct.m_a.data ct.m_b =
        offset + fold (2 ^ k) (accPhase (2 ^ k) scheme.Q skN c0 c1).coeff 0 := by
  have hN := Nat.two_pow_pos k
  rcases transpose_spec hk hk24 hready h0 with ⟨t, r, ht, hr, hrdenotes⟩
  rcases h1.coef_wellFormed.2.2.exists_entry hN with ⟨constant, hconstant, hlt⟩
  have hvalue : valueResidue scheme.Q c1 0 = constant := by
    rw [valueResidue, Poly.value, List.getD_eq_getElem?_getD, hconstant, Option.getD_some]
  have hbody := represents_addFast (lt_trans hready.modulus.lt (by decide)) hoffset hlt
  refine ⟨{ m_a := { modulus := r.modulus, data := r.values }
            m_b := modAddFast offset constant scheme.Q }, ?_, ?_, hbody.1, ?_⟩
  · rw [extract, ht, Fault.ok_bind, hr, Fault.access_some, Fault.ok_bind,
      setFormat_coefficient hk hk24 hready h1, Fault.access_some, Fault.ok_bind, hconstant]
    rfl
  · exact ⟨hrdenotes.modulus_eq, hrdenotes.holds.residues⟩
  · rw [fold_accPhase_zero hN, hvalue, phase, hbody.2, maskProduct, add_sub_assoc]
    apply congrArg₂ _ rfl
    apply congrArg₂ _ rfl
    apply Finset.sum_congr rfl
    intro i hi
    rw [hrdenotes.holds.coefficient_eq (Finset.mem_range.mp hi)]

/-!
## The rotation
-/

/--
Exact blind rotation: with the key `ek`, the accumulators of a table are rotated by the
product of the mask with the secret, without noise.
-/
structure ExactRotation (scheme : GateScheme Key) (k psi n : Nat) (sk skN : NativeVectorT)
    (ek : Key) : Prop where
  pos : 0 < k
  le : k <= 24
  dimension : scheme.N = 2 ^ k
  order : scheme.q ∣ 2 * scheme.N
  ready : Poly.Ready scheme.cache k scheme.Q psi
  rotates : forall a m e, NativeVectorT.Valid n scheme.q a ->
    Poly.Transforms k scheme.Q psi m e ->
    exists accVec c0 c1,
      scheme.EvalAcc ek (Poly.zero scheme.Q scheme.N .EVALUATION, e) a = .ok accVec ∧
      Poly.Transforms k scheme.Q psi c0 accVec.1 ∧ Poly.Transforms k scheme.Q psi c1 accVec.2 ∧
      Polynomial.X ^ scheme.N + 1 ∣
        Polynomial.X ^ (2 * scheme.N / scheme.q * (maskProduct scheme.q n a.data sk).val) *
          accPhase scheme.N scheme.Q skN c0 c1 -
        coeffPoly scheme.N (valueResidue scheme.Q m)

/-- Parameters under which one unit of the mask turns a table by `2 * N / q` coefficients. -/
structure RotationParams (scheme : GateScheme Key) (k psi : Nat) : Prop where
  pos : 0 < k
  le : k <= 24
  dimension : scheme.N = 2 ^ k
  order : scheme.q ∣ 2 * scheme.N
  ready : Poly.Ready scheme.cache k scheme.Q psi

theorem RotationParams.halves (hparams : RotationParams scheme k psi) (hq : 8 ∣ scheme.q) :
    exists h factor, scheme.q = 2 * h ∧ 4 ∣ h ∧ 0 < h ∧ 0 < factor ∧ scheme.N = h * factor ∧
      scheme.N / h = factor ∧ 2 * scheme.N / scheme.q = factor ∧ 2 * h < 2 ^ 32 := by
  rcases hq with ⟨e, he⟩
  rcases hparams.order with ⟨factor, hfactor⟩
  have hN : 0 < scheme.N := by
    rw [hparams.dimension]
    exact Nat.two_pow_pos k
  have hprod : scheme.N = 4 * e * factor := by
    have hdouble : 2 * scheme.N = 2 * (4 * e * factor) := by
      rw [hfactor, he]
      ring
    omega
  have he0 : 0 < e := by
    rcases Nat.eq_zero_or_pos e with rfl | hpos
    · simp at hprod
      omega
    · exact hpos
  have hfactor0 : 0 < factor := by
    rcases Nat.eq_zero_or_pos factor with rfl | hpos
    · simp at hprod
      omega
    · exact hpos
  have hbound : 4 * e <= 2 ^ 24 := by
    calc
      4 * e <= 4 * e * factor := Nat.le_mul_of_pos_right _ hfactor0
      _ = 2 ^ k := by rw [<- hprod, hparams.dimension]
      _ <= 2 ^ 24 := Nat.pow_le_pow_right (by decide) hparams.le
  refine ⟨4 * e, factor, ?_, Dvd.intro _ rfl, by omega, hfactor0, hprod, ?_, ?_, ?_⟩
  · rw [he]
    ring
  · rw [hprod]
    exact Nat.mul_div_cancel_left _ (by omega)
  · rw [hfactor]
    exact Nat.mul_div_cancel_left _ (by omega)
  · omega

/-- The core rotates a table, whose turns have its value at the phase as constant coefficient. -/
theorem bootstrapGateCore_eq (hparams : RotationParams scheme k psi) (hq : 8 ∣ scheme.q)
    (gate : BINGATE) (ek : Key) {ct : LWECiphertextImpl} (ha : ct.m_a.modulus = scheme.q)
    (hb : ct.m_b < scheme.q) (hp : mulFast ct.m_p 2 ≠ 0) :
    exists m e, Poly.Transforms k scheme.Q psi m e ∧
      scheme.bootstrapGateCore gate (some ek) ct =
        scheme.EvalAcc ek (Poly.zero scheme.Q scheme.N .EVALUATION, e) ct.m_a ∧
      forall (v : ZMod scheme.q) (x : Nat) (p : Polynomial (ZMod scheme.Q)),
        Represents scheme.q (ct.m_b - v) x -> p.degree < (2 * scheme.N : Nat) ->
        Polynomial.X ^ scheme.N + 1 ∣ Polynomial.X ^ (2 * scheme.N / scheme.q * v.val) * p -
          coeffPoly scheme.N (valueResidue scheme.Q m) ->
        fold (2 ^ k) p.coeff 0 = ((gateTable (gateConst scheme.q gate) scheme.q scheme.Q
          (scheme.Q / mulFast ct.m_p 2 + 1)).read x : ZMod scheme.Q) := by
  rcases hparams.halves hq with
    ⟨h, factor, hqh, _, hpos, hfactor, hN, hdiv, hrate, h32⟩
  have hQ60 := hparams.ready.modulus.lt
  have hQ2 : 2 < scheme.Q := by
    have hodd := hparams.ready.modulus.odd
    have hone := hparams.ready.modulus.one_lt
    omega
  rcases halfStep_spec hQ2 hp with ⟨hamplitude, hlt⟩
  have hhalf : usint (scheme.q : Nat) >>> 1 = h := by
    rw [hqh, usint_natCast, Nat.mod_eq_of_lt h32, Nat.shiftRight_eq_div_pow]
    omega
  have htable : (gateTable (gateConst scheme.q gate) scheme.q scheme.Q
      (scheme.Q / mulFast ct.m_p 2 + 1)).Opposite h scheme.Q := by
    have hconst := gateConst_lt (by omega) (by omega) gate (q := scheme.q)
    rw [hqh] at hconst ⊢
    exact gateTable_opposite hpos h32 hconst hQ60 (Nat.succ_pos _) hlt
  generalize hgate : gateTable (gateConst scheme.q gate) scheme.q scheme.Q
      (scheme.Q / mulFast ct.m_p 2 + 1) = table at htable
  rcases fillTable_filled htable.read_lt hfactor hN (q := scheme.q) (b := ct.m_b) (by omega)
    (by omega) (by omega) hb with ⟨_, hfilled⟩
  have hm : Poly.WellFormed scheme.Q (2 ^ k) .COEFFICIENT
      ⟨scheme.Q, .COEFFICIENT, fillTable table scheme.N scheme.q factor ct.m_b⟩ :=
    ⟨rfl, rfl, hfilled.length_eq.trans hparams.dimension, hfilled.lt⟩
  rcases Poly.switchFormat_evaluation hparams.pos hparams.ready hm.denotes with ⟨e, he, hedenotes⟩
  refine ⟨_, e, ⟨hm, hedenotes⟩, ?_, ?_⟩
  · have hformat : Poly.setFormat scheme.cache
        ⟨scheme.Q, .COEFFICIENT, fillTable table scheme.N scheme.q factor ct.m_b⟩ .EVALUATION =
          some e := by
      rw [Poly.setFormat, if_neg (show ¬Format.COEFFICIENT = .EVALUATION by decide), he]
    unfold bootstrapGateCore
    dsimp only
    rw [LWECiphertextImpl.getModulus, ha, hamplitude, Fault.ok_bind, hhalf, hdiv,
      if_neg (by omega), hgate, hformat, Fault.access_some, Fault.ok_bind]
  · intro v x p hx hdegree hdvd
    have : Fact (1 < scheme.Q) := ⟨hparams.ready.modulus.one_lt⟩
    have : NeZero scheme.q := ⟨by omega⟩
    have hval := ZMod.val_lt v
    have hdim : 2 ^ k = h * factor := by rw [<- hparams.dimension, hN]
    have hphase : Represents scheme.q ((ct.m_b : ZMod scheme.q) - v.val) x := by
      rw [ZMod.natCast_zmod_val]
      exact hx
    rw [hrate, Nat.mul_comm factor, hparams.dimension] at hdvd
    rw [hparams.dimension] at hdegree
    generalize v.val = turns at hdvd hval hphase
    have hturn : turns * factor < 2 * 2 ^ k := by
      rw [hdim, <- Nat.mul_assoc, <- hqh]
      exact Nat.mul_lt_mul_of_pos_right hval hfactor
    rw [constant_of_rotation hturn hdegree hdvd]
    rw [hqh] at hval hphase hb
    have hrotated := rotated_fillTable htable hfactor hval (by omega) hb hphase
    rw [<- hrotated, <- hdim, <- hqh]
    rfl

/-- The extended result, once the core has returned an accumulator. -/
theorem bootstrap_of_core (hparams : RotationParams scheme k psi) (hq : 8 ∣ scheme.q) {ek : Key}
    {EK : RingGSWBTKey Key} (hEK : EK.BSkey = some ek) {ct : LWECiphertextImpl}
    (ha : ct.m_a.modulus = scheme.q) (hp : mulFast ct.m_p 2 ≠ 0) {accVec : Poly × Poly}
    (hcore : scheme.bootstrapGateCore .AND (some ek)
      { m_a := ct.m_a, m_b := modAddFast ct.m_b (scheme.q / 4) scheme.q } = .ok accVec)
    {c0 c1 : Poly} (h0 : Poly.Transforms k scheme.Q psi c0 accVec.1)
    (h1 : Poly.Transforms k scheme.Q psi c1 accVec.2) (skN : NativeVectorT) :
    exists ct', scheme.bootstrap EK ct true = .ok ct' ∧
      NativeVectorT.Valid (2 ^ k) scheme.Q ct'.m_a ∧ ct'.m_b < scheme.Q ∧
      ct'.m_p = ct.m_p ∧
      phase scheme.Q (2 ^ k) skN ct'.m_a.data ct'.m_b =
        (scheme.Q / mulFast ct.m_p 2 + 1 : Nat) +
          fold (2 ^ k) (accPhase (2 ^ k) scheme.Q skN c0 c1).coeff 0 := by
  rcases hparams.halves hq with ⟨h, _, hqh, _, hpos, _, _, _, _, h32⟩
  have hodd := hparams.ready.modulus.odd
  have hone := hparams.ready.modulus.one_lt
  rcases halfStep_spec (Q := scheme.Q) (by omega) hp with ⟨hoffset, hlt⟩
  have hquarter : scheme.q >>> 2 = scheme.q / 4 := Nat.shiftRight_eq_div_pow scheme.q 2
  have hcct : evalAddConstEq ct.copy (scheme.q >>> 2) =
      { m_a := ct.m_a, m_b := modAddFast ct.m_b (scheme.q / 4) scheme.q } := by
    rw [evalAddConstEq, LWECiphertextImpl.getModulus, LWECiphertextImpl.copy, ha, hquarter]
  rcases extract_spec hparams.pos hparams.le hparams.ready h0 h1 hlt skN with
    ⟨ct', hct', hvalid, hbound, hphase⟩
  refine ⟨{ ct' with m_p := ct.m_p }, ?_, hvalid, hbound, rfl, hphase⟩
  have hsmall : ¬scheme.Q = scheme.q := by omega
  rw [bootstrap, LWECiphertextImpl.getModulus, ha, if_neg hsmall, Fault.ok_bind]
  dsimp only
  rw [hcct, hEK, hcore, Fault.ok_bind, hoffset, Fault.ok_bind, hct', Fault.ok_bind]
  rfl

theorem represents_quarter (hparams : RotationParams scheme k psi) (hq : 8 ∣ scheme.q) {b : Nat}
    (hb : b < scheme.q) :
    Represents scheme.q ((b : ZMod scheme.q) + (scheme.q / 4 : Nat))
      (modAddFast b (scheme.q / 4) scheme.q) := by
  rcases hparams.halves hq with ⟨h, _, hqh, _, hpos, _, _, _, _, h32⟩
  exact represents_addFast (by omega) hb (by omega)

section Bootstrap

variable {n : Nat} {sk skN : NativeVectorT} {ek : Key}
  (hexact : ExactRotation scheme k psi n sk skN ek)

include hexact

theorem ExactRotation.params : RotationParams scheme k psi :=
  ⟨hexact.pos, hexact.le, hexact.dimension, hexact.order, hexact.ready⟩

theorem bootstrapGateCore_spec (hq : 8 ∣ scheme.q) (gate : BINGATE) {ct : LWECiphertextImpl}
    (ha : NativeVectorT.Valid n scheme.q ct.m_a) (hb : ct.m_b < scheme.q)
    (hp : mulFast ct.m_p 2 ≠ 0) :
    exists accVec c0 c1, scheme.bootstrapGateCore gate (some ek) ct = .ok accVec ∧
      Poly.Transforms k scheme.Q psi c0 accVec.1 ∧ Poly.Transforms k scheme.Q psi c1 accVec.2 ∧
      forall x, Represents scheme.q (phase scheme.q n sk ct.m_a.data ct.m_b) x ->
        fold (2 ^ k) (accPhase (2 ^ k) scheme.Q skN c0 c1).coeff 0 =
          ((gateTable (gateConst scheme.q gate) scheme.q scheme.Q
            (scheme.Q / mulFast ct.m_p 2 + 1)).read x : ZMod scheme.Q) := by
  rcases bootstrapGateCore_eq hexact.params hq gate ek ha.modulus_eq hb hp with
    ⟨m, e, htransforms, hcore, hconstant⟩
  rcases hexact.rotates ct.m_a m e ha htransforms with ⟨accVec, c0, c1, hrun, h0, h1, hdvd⟩
  refine ⟨accVec, c0, c1, hcore.trans hrun, h0, h1, fun x hx => ?_⟩
  rw [hexact.dimension] at hdvd hconstant
  exact hconstant _ x _ hx (degree_accPhase_lt _ _ _ _ _) hdvd

theorem bootstrap_phase (hq : 8 ∣ scheme.q) {EK : RingGSWBTKey Key} (hEK : EK.BSkey = some ek)
    {ct : LWECiphertextImpl} (ha : NativeVectorT.Valid n scheme.q ct.m_a)
    (hb : ct.m_b < scheme.q) (hp : mulFast ct.m_p 2 ≠ 0) :
    exists ct', scheme.bootstrap EK ct true = .ok ct' ∧
      NativeVectorT.Valid (2 ^ k) scheme.Q ct'.m_a ∧ ct'.m_b < scheme.Q ∧
      ct'.m_p = ct.m_p ∧
      forall x, Represents scheme.q
          (phase scheme.q n sk ct.m_a.data ct.m_b + (scheme.q / 4 : Nat)) x ->
        phase scheme.Q (2 ^ k) skN ct'.m_a.data ct'.m_b =
          (scheme.Q / mulFast ct.m_p 2 + 1 : Nat) +
            ((gateTable (gateConst scheme.q .AND) scheme.q scheme.Q (scheme.Q / 8 + 1)).read x :
              ZMod scheme.Q) := by
  have hbody := represents_quarter hexact.params hq hb
  have hmask : ({ m_a := ct.m_a, m_b := modAddFast ct.m_b (scheme.q / 4) scheme.q } :
      LWECiphertextImpl).m_a.Valid n scheme.q := ha
  rcases bootstrapGateCore_spec hexact hq .AND hmask hbody.1
      (show mulFast 4 2 ≠ 0 by decide) with ⟨accVec, c0, c1, hcore, h0, h1, hconstant⟩
  rcases bootstrap_of_core hexact.params hq hEK ha.modulus_eq hp hcore h0 h1 skN with
    ⟨ct', hrun, hvalid, hbound, hm, hphase⟩
  refine ⟨ct', hrun, hvalid, hbound, hm, fun x hx => ?_⟩
  rw [hphase, hconstant x ⟨hx.1, _⟩]
  · rfl
  · rw [hx.2, phase, phase, hbody.2]
    ring

end Bootstrap

end GateScheme

end BinFHE
end OpenFHE
