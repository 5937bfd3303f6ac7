import OpenFHE.Core.NativeInteger.ModInverse
import OpenFHE.Foundation.BaseConversion
import OpenFHE.Foundation.Primality
import OpenFHE.Hal.Residues
import Mathlib.Algebra.BigOperators.ModEq

/-!
# Raising the modulus for composite degrees

`ExtendCiphertext` recombines the first towers of a polynomial over the raised moduli.
Every tower is lifted to all moduli and multiplied by the product of the other moduli of
the composite, which is a word.
-/

namespace OpenFHE
namespace Scheme
namespace Ckksrns

open OpenFHE.Core OpenFHE.Hal Foundation NativeInteger Finset

/-- One pass of the loop that multiplies the entries by `qj[d]` and appends one. -/
def qhatStep (qj qhat : List Nat) (d : Nat) : Option (List Nat) := do
  let q0 <- qj[0]?
  let q1 <- qj[1]?
  let qd <- qj[d]?
  let updated <- (List.range d).mapM fun j => do
    let h <- qhat[j]?
    let q <- qj[j]?
    return modMul qd h q
  let last <- (List.range' 2 (d - 2)).foldlM (fun h j => (qj[j]?).map fun q => modMul q h qd)
    (modMul q1 q0 qd)
  return updated ++ [last]

def qhatModqj (qj : List Nat) : Option (List Nat) := do
  let q0 <- qj[0]?
  let q1 <- qj[1]?
  (List.range' 2 (qj.length - 2)).foldlM (qhatStep qj) [q1 % q0, q0 % q1]

def qhatInvModqj (qj : List Nat) : Option (List Nat) := do
  let qhat <- qhatModqj qj
  (List.range qj.length).mapM fun j => do
    let h <- qhat[j]?
    let q <- qj[j]?
    modInverse h q

/-- `qjProduct`: the native product of all moduli but the first. -/
def qjProduct (qj : List Nat) : Nat := (qj.drop 1).foldl mulFast 1

/-- `qjProductD`: the native product of all moduli but one. -/
def qjProductD (qj : List Nat) (d : Nat) : Nat :=
  (List.range qj.length).foldl
    (fun product k => if k ≠ d then mulFast product (qj.getD k 1) else product) 1

/-- Assignment of a tower to a polynomial: the first tower stays as it is. -/
def ofTower (moduli : List Nat) (rhs : Poly) : DCRTPoly :=
  moduli.zipIdx.map fun p => if p.2 = 0 then rhs else Poly.switchModulus rhs p.1

/-- `tmp[d]` for a tower `y` and the polynomial `tmp[0]`. -/
def extendTerm (moduli qj : List Nat) (tmp0 : DCRTPoly) (y : Poly) (d : Nat) :
    Option DCRTPoly :=
  (List.range moduli.length).mapM fun j =>
    if j < qj.length ∧ j ≠ d then do
      let t <- tmp0[j]?
      let q <- qj[j]?
      Poly.timesInteger t q
    else do
      let t <- (ofTower moduli y)[j]?
      Poly.timesInteger t (qjProductD qj d)

/-- The recombination of one polynomial in the coefficient format. -/
def extendTowers (moduli qj qhatInv : List Nat) (dcrt : DCRTPoly) : Option DCRTPoly := do
  let modq <- qhatInv.mapM fun w => dcrt.mapM fun t => Poly.timesInteger t w
  let modq0 <- modq[0]?
  let y0 <- modq0[0]?
  let tmp0 <- DCRTPoly.timesInteger (ofTower moduli y0) (qjProduct qj)
  (List.range' 1 (qj.length - 1)).foldlM (fun tmp0 d => do
    let modqd <- modq[d]?
    let yd <- modqd[d]?
    let tmpd <- extendTerm moduli qj tmp0 yd d
    DCRTPoly.plusEq tmp0 tmpd) tmp0

def extendPoly (cache : Poly.TableCache) (moduli qj qhatInv : List Nat) (dcrt : DCRTPoly) :
    Option DCRTPoly := do
  let dcrt <- DCRTPoly.setFormat cache dcrt .COEFFICIENT
  let tmp0 <- extendTowers moduli qj qhatInv dcrt
  DCRTPoly.setFormat cache tmp0 .EVALUATION

/-- `ExtendCiphertext` on the polynomials of a ciphertext. -/
def extendCiphertext (cache : Poly.TableCache) (compositeDegree : Nat) (moduli : List Nat)
    (ctxtDCRTs : List DCRTPoly) : Option (List DCRTPoly) := do
  let qj := moduli.take compositeDegree
  let qhatInv <- qhatInvModqj qj
  ctxtDCRTs.mapM (extendPoly cache moduli qj qhatInv)

/-!
## Products of all moduli but one
-/

section Products

variable {qj : List Nat}

def productBut (qj : List Nat) (d k : Nat) : Nat := ∏ i ∈ (range d).erase k, qj.getD i 1

theorem productBut_succ {d k : Nat} (hk : k ≠ d) :
    productBut qj (d + 1) k = qj.getD d 1 * productBut qj d k := by
  have hset : (range (d + 1)).erase k = insert d ((range d).erase k) := by
    rw [range_add_one, erase_insert_of_ne hk.symm]
  rw [productBut, hset, prod_insert (by simp)]
  rfl

theorem productBut_last (qj : List Nat) (d : Nat) :
    productBut qj (d + 1) d = ∏ i ∈ range d, qj.getD i 1 := by
  rw [productBut, range_add_one, erase_insert (by simp)]

theorem prod_getD (l : List Nat) : ∏ i ∈ range l.length, l.getD i 1 = l.prod := by
  induction l with
  | nil =>
      rfl
  | cons x l ih =>
      rw [List.length_cons, prod_range_succ', List.prod_cons, ← ih, List.getD_cons_zero,
        Nat.mul_comm]
      rfl

theorem productBut_eq (hpos : forall q, q ∈ qj -> 0 < q) {k : Nat} (hk : k < qj.length) :
    productBut qj qj.length k = cofactor qj k := by
  have hq := List.getElem?_eq_getElem hk
  have hmul : qj.getD k 1 * productBut qj qj.length k = qj.prod := by
    rw [productBut, mul_prod_erase _ (fun i => qj.getD i 1) (mem_range.mpr hk), prod_getD]
  rw [cofactor, ← hmul, Nat.mul_div_cancel_left]
  rw [List.getD_eq_getElem _ _ hk]
  exact hpos _ (List.getElem_mem hk)

theorem getD_of_getElem? {k q : Nat} (hq : qj[k]? = some q) : qj.getD k 1 = q := by
  rw [List.getD_eq_getElem?_getD, hq, Option.getD_some]

variable (hqj : forall q, q ∈ qj -> Poly.NttModulus q)

include hqj

theorem modMul_of_mem {q : Nat} (hq : q ∈ qj) (a b : Nat) : modMul a b q = a * b % q := by
  have hone := (hqj q hq).one_lt
  have hlt := (hqj q hq).lt
  exact modMul_eq (by omega) (by simp only [maxBits]; omega)

theorem qhatStep_spec {d : Nat} (hd : d < qj.length) (htwo : 2 <= d) {qhat : List Nat}
    (hqhat : forall k, k < d -> qhat[k]? = some (productBut qj d k % qj.getD k 1)) :
    exists qhat', qhatStep qj qhat d = some qhat' ∧ forall k, k < d + 1 ->
      qhat'[k]? = some (productBut qj (d + 1) k % qj.getD k 1) := by
  have hread {k : Nat} (hk : k < qj.length) : qj[k]? = some (qj.getD k 1) := by
    rw [List.getElem?_eq_getElem hk, List.getD_eq_getElem _ _ hk]
  have hmem {k : Nat} (hk : k < qj.length) : qj.getD k 1 ∈ qj :=
    List.mem_of_getElem? (hread hk)
  rcases mapM_range_spec (n := d)
    (f := fun j => do
      let h <- qhat[j]?
      let q <- qj[j]?
      return modMul (qj.getD d 1) h q)
    (fun k h => h = productBut qj (d + 1) k % qj.getD k 1) (by
      intro k hk
      refine ⟨_, ?_, rfl⟩
      rw [hqhat k hk, hread (show k < qj.length by omega)]
      simp only [Option.bind_eq_bind, Option.bind_some]
      rw [modMul_of_mem hqj (hmem (by omega)), Nat.mul_mod_mod, ← productBut_succ (by omega)]
      rfl) with ⟨updated, hupdated, hlength, hget⟩
  rcases foldlM_range'_spec 2 (n := d - 2)
    (f := fun h j => (qj[j]?).map fun q => modMul q h (qj.getD d 1))
    (s := modMul (qj.getD 1 1) (qj.getD 0 1) (qj.getD d 1))
    (fun i h => h = (∏ i ∈ range (2 + i), qj.getD i 1) % qj.getD d 1)
    (by
      rw [modMul_of_mem hqj (hmem hd), prod_range_succ, prod_range_one, Nat.mul_comm])
    (by
      intro i hi h hh
      refine ⟨_, by rw [hread (show 2 + i < qj.length by omega)]; rfl, ?_⟩
      dsimp only
      rw [modMul_of_mem hqj (hmem hd), hh, Nat.mul_mod_mod, ← Nat.add_assoc,
        prod_range_succ _ (2 + i), Nat.mul_comm]) with ⟨last, hlast, heq⟩
  refine ⟨updated ++ [last], ?_, ?_⟩
  · unfold qhatStep
    rw [hread (show 0 < qj.length by omega), hread (show 1 < qj.length by omega), hread hd]
    simp only [Option.bind_eq_bind, Option.bind_some] at hupdated ⊢
    rw [hupdated, Option.bind_some, hlast]
    rfl
  · intro k hk
    rcases Nat.lt_or_ge k d with hold | hnew
    · have hentry := List.getElem?_eq_getElem (show k < updated.length by omega)
      rw [List.getElem?_append_left (by omega), hentry, hget k _ hentry]
    · have hkd : k = d := by omega
      rw [hkd, ← hlength, List.getElem?_concat_length, hlength, heq, productBut_last,
        Nat.add_sub_cancel' htwo]

theorem qhatModqj_spec (htwo : 2 <= qj.length) :
    exists qhat, qhatModqj qj = some qhat ∧ forall k, k < qj.length ->
      qhat[k]? = some (cofactor qj k % qj.getD k 1) := by
  have hread {k : Nat} (hk : k < qj.length) : qj[k]? = some (qj.getD k 1) := by
    rw [List.getElem?_eq_getElem hk, List.getD_eq_getElem _ _ hk]
  have hpos : forall q, q ∈ qj -> 0 < q := by
    intro q hq
    have hone := (hqj q hq).one_lt
    omega
  rcases foldlM_range'_spec 2 (n := qj.length - 2) (f := qhatStep qj)
    (s := [qj.getD 1 1 % qj.getD 0 1, qj.getD 0 1 % qj.getD 1 1])
    (fun i qhat => forall k, k < 2 + i ->
      qhat[k]? = some (productBut qj (2 + i) k % qj.getD k 1))
    (by
      intro k hk
      match k, hk with
      | 0, _ =>
        have hproduct : productBut qj 2 0 = qj.getD 1 1 := by
          rw [productBut_succ (by decide), productBut_last, prod_range_zero, Nat.mul_one]
        rw [Nat.add_zero, hproduct]
        rfl
      | 1, _ =>
        have hproduct : productBut qj 2 1 = qj.getD 0 1 := by
          rw [productBut_last, prod_range_one]
        rw [Nat.add_zero, hproduct]
        rfl)
    (by
      intro i hi qhat hqhat
      exact qhatStep_spec hqj (by omega) (by omega) hqhat) with ⟨qhat, hrun, hqhat⟩
  refine ⟨qhat, ?_, ?_⟩
  · unfold qhatModqj
    rw [hread (show 0 < qj.length by omega), hread (show 1 < qj.length by omega)]
    exact hrun
  · intro k hk
    rw [hqhat k (by omega), Nat.add_sub_cancel' htwo, productBut_eq hpos hk]

theorem qhatInvModqj_spec (htwo : 2 <= qj.length) (hcoprime : qj.Pairwise Nat.Coprime) :
    exists inv, qhatInvModqj qj = some inv ∧ inv.length = qj.length ∧
      forall k w q, inv[k]? = some w -> qj[k]? = some q -> cofactor qj k * w % q = 1 := by
  rcases qhatModqj_spec hqj htwo with ⟨qhat, hqhat, hget⟩
  have hone : forall q, q ∈ qj -> 1 < q := fun q hq => (hqj q hq).one_lt
  rcases mapM_range_spec (n := qj.length)
    (f := fun j => do
      let h <- qhat[j]?
      let q <- qj[j]?
      modInverse h q)
    (fun k w => forall q, qj[k]? = some q -> cofactor qj k * w % q = 1) (by
      intro k hk
      have hq := List.getElem?_eq_getElem hk
      have hmem := List.mem_of_getElem? hq
      have hcop : Nat.gcd (cofactor qj k % qj[k]) qj[k] = 1 := by
        rw [← Nat.gcd_rec, Nat.gcd_comm, cofactor_eq hq]
        exact coprime_prod_div hcoprime hone hmem
      have hlt := (hqj _ hmem).lt
      rcases modInverse_spec (hone _ hmem) (by omega) hcop with ⟨w, hw, _, hmul⟩
      refine ⟨w, ?_, ?_⟩
      · rw [hget k hk, hq, getD_of_getElem? hq]
        exact hw
      · intro q hq'
        cases hq.symm.trans hq'
        rw [← Nat.mod_mul_mod]
        exact hmul) with ⟨inv, hinv, hlength, hspec⟩
  refine ⟨inv, ?_, hlength, fun k w q hw hq => hspec k w hw q hq⟩
  unfold qhatInvModqj
  rw [hqhat]
  exact hinv

omit hqj in
theorem qjProductD_eq (hpos : forall q, q ∈ qj -> 0 < q) {d : Nat} (hd : d < qj.length) :
    qjProductD qj d = word (cofactor qj d) := by
  have hrun : forall n, (List.range n).foldl
      (fun product k => if k ≠ d then mulFast product (qj.getD k 1) else product) 1 =
        word (productBut qj n d) := by
    intro n
    induction n with
    | zero =>
        rfl
    | succ n ih =>
        rw [List.range_succ, List.foldl_append, ih, List.foldl_cons, List.foldl_nil]
        rcases Decidable.em (n = d) with heq | hne
        · have hsame : productBut qj (n + 1) d = productBut qj n d := by
            rw [heq, productBut_last, productBut, erase_eq_of_notMem (by simp)]
          rw [if_neg (not_not.mpr heq), hsame]
        · rw [if_pos hne, productBut_succ (Ne.symm hne), mulFast, word, word,
            Nat.mul_mod_mod]
          rfl
  rw [qjProductD, hrun, productBut_eq hpos hd]

omit hqj in
theorem qjProduct_eq (hpos : forall q, q ∈ qj -> 0 < q) (hlength : 0 < qj.length) :
    qjProduct qj = word (cofactor qj 0) := by
  have hrun : forall (l : List Nat) (a : Nat), l.foldl mulFast (word a) = word (a * l.prod) := by
    intro l
    induction l with
    | nil =>
        intro a
        simp
    | cons x l ih =>
        intro a
        have hstep : mulFast (word a) x = word (a * x) := by
          rw [mulFast, word, word, Nat.mul_mod_mod, Nat.mul_comm]
          rfl
        rw [List.foldl_cons, hstep, ih, List.prod_cons, Nat.mul_assoc]
  cases qj with
  | nil =>
      cases hlength
  | cons x l =>
      have hx : 0 < x := hpos x List.mem_cons_self
      have hcofactor : cofactor (x :: l) 0 = l.prod := by
        rw [cofactor, List.getD_cons_zero, List.prod_cons, Nat.mul_div_cancel_left _ hx]
      have hone := hrun l 1
      rw [Nat.one_mul] at hone
      rw [hcofactor, ← hone]
      rfl

end Products

/-!
## The recombination
-/

/-- A digit of `x` between minus and plus half of its modulus. -/
def centeredDigit (qj : List Nat) (x k : Nat) : Int :=
  NativeVector.centered (qj.getD k 1) (baseDigit qj x k)

/-- Digit `k` reaches the towers outside of the composite, and tower `k`; digit 0 all. -/
def Reaches (qj : List Nat) (j k : Nat) : Prop := qj.length <= j ∨ k = 0 ∨ k = j

instance (qj : List Nat) (j k : Nat) : Decidable (Reaches qj j k) :=
  inferInstanceAs (Decidable (_ ∨ _ ∨ _))

/-- What the first `n` digits add to tower `j`. -/
def wordValue (qj : List Nat) (x n j : Nat) : Int :=
  ∑ k ∈ range n, if Reaches qj j k then centeredDigit qj x k * (word (cofactor qj k) : Int) else 0

section Towers

variable {moduli : List Nat} (hmoduli : forall q, q ∈ moduli -> Poly.NttModulus q) {n : Nat}

include hmoduli

theorem ofTower_denotes {y : Poly} {q : Nat} (hq : q ∈ moduli) {format : Format}
    (hy : Poly.WellFormed q n format y) {j m : Nat} (hm : moduli[j]? = some m)
    (hfirst : j = 0 -> m = q) :
    exists t, (ofTower moduli y)[j]? = some t ∧ Poly.Denotes m n format
      (fun r => (NativeVector.centered q (y.value r) : ZMod m)) t := by
  have hentry : (ofTower moduli y)[j]? =
      some (if j = 0 then y else Poly.switchModulus y m) := by
    rw [ofTower, List.getElem?_map, List.getElem?_zipIdx, hm]
    simp
  refine ⟨_, hentry, ?_⟩
  split
  next hzero =>
    have hmq := hfirst hzero
    subst hmq
    refine hy.denotes.congr ?_
    intro r _
    unfold NativeVector.centered
    split
    · rw [Int.cast_sub, Int.cast_natCast, Int.cast_natCast, ZMod.natCast_self, sub_zero]
    · rw [Int.cast_natCast]
  next =>
    have hold := (hmoduli q hq).lt
    have hone := (hmoduli m (List.mem_of_getElem? hm)).one_lt
    refine ⟨rfl, hy.2.1, ?_⟩
    rw [Poly.switchModulus, hy.1]
    exact NativeVector.switchModulus_spec (by simp only [maxBits]; omega)
      (hmoduli m (List.mem_of_getElem? hm)).lt (by omega) hy.2.2

theorem extendTerm_spec {d D : Nat} (hd : 0 < d) (hdD : d < D) (hD : D <= moduli.length)
    {tmp0 : DCRTPoly} (htmp0 : DCRTPoly.WellFormed n .COEFFICIENT moduli tmp0) {y : Poly} {q : Nat}
    (hq : moduli[d]? = some q) (hy : Poly.WellFormed q n .COEFFICIENT y) :
    exists b, extendTerm moduli (moduli.take D) tmp0 y d = some b ∧
      DCRTPoly.Denotes n .COEFFICIENT moduli (fun j m r =>
        if Reaches (moduli.take D) j d then
          (NativeVector.centered q (y.value r) : ZMod m) *
            (word (cofactor (moduli.take D) d) : ZMod m)
        else 0) b := by
  have hlength : (moduli.take D).length = D := by
    rw [List.length_take, Nat.min_eq_left hD]
  have hpos : forall m, m ∈ moduli.take D -> 0 < m := by
    intro m hm
    have hone := (hmoduli m (List.mem_of_mem_take hm)).one_lt
    omega
  have hproduct := qjProductD_eq hpos (d := d) (by rw [hlength]; exact hdD)
  rcases mapM_range_spec (n := moduli.length)
    (f := fun j =>
      if j < (moduli.take D).length ∧ j ≠ d then do
        let t <- tmp0[j]?
        let q <- (moduli.take D)[j]?
        Poly.timesInteger t q
      else do
        let t <- (ofTower moduli y)[j]?
        Poly.timesInteger t (qjProductD (moduli.take D) d))
    (fun j t => forall m, moduli[j]? = some m -> Poly.Denotes m n .COEFFICIENT (fun r =>
      if Reaches (moduli.take D) j d then
        (NativeVector.centered q (y.value r) : ZMod m) *
          (word (cofactor (moduli.take D) d) : ZMod m)
      else 0) t) (by
      intro j hj
      have hm := List.getElem?_eq_getElem hj
      have hntt := hmoduli _ (List.mem_of_getElem? hm)
      rcases Decidable.em (j < (moduli.take D).length ∧ j ≠ d) with hin | hout
      · rcases htmp0.exists_tower hm with ⟨t, ht, hwf⟩
        rcases Poly.timesInteger_denotes hntt moduli[j] hwf.denotes with ⟨u, hu, hdenotes⟩
        refine ⟨u, ?_, ?_⟩
        · rw [if_pos hin, ht, List.getElem?_take_of_lt (by omega), hm]
          exact hu
        · intro m hm'
          cases hm.symm.trans hm'
          refine hdenotes.congr ?_
          intro r _
          have hnot : ¬Reaches (moduli.take D) j d := by
            unfold Reaches
            omega
          rw [if_neg hnot, ZMod.natCast_self, mul_zero]
      · rcases ofTower_denotes hmoduli (List.mem_of_getElem? hq) hy hm (by omega) with
          ⟨t, ht, hdenotes⟩
        rcases Poly.timesInteger_denotes hntt (qjProductD (moduli.take D) d) hdenotes with
          ⟨u, hu, hdenotes'⟩
        refine ⟨u, ?_, ?_⟩
        · rw [if_neg hout, ht]
          exact hu
        · intro m hm'
          cases hm.symm.trans hm'
          refine hdenotes'.congr ?_
          intro r _
          have hreach : Reaches (moduli.take D) j d := by
            unfold Reaches
            omega
          rw [if_pos hreach, hproduct]) with ⟨b, hb, hblength, hget⟩
  refine ⟨b, hb, DCRTPoly.denotes_of_towers hblength ?_⟩
  intro j m t hm ht
  exact hget j t ht m hm

omit hmoduli in
theorem digits_spec {qj : List Nat} (hqj : forall q, q ∈ qj -> Poly.NttModulus q)
    (hcoprime : qj.Pairwise Nat.Coprime) {inv : List Nat} (hlength : inv.length = qj.length)
    (hinv : forall (k : Nat) w q, inv[k]? = some w -> qj[k]? = some q ->
      cofactor qj k * w % q = 1)
    {dcrt : DCRTPoly} (hdcrt : DCRTPoly.WellFormed n .COEFFICIENT qj dcrt) {x : Nat -> Nat}
    (hx : forall r, r < n -> forall (k q : Nat), qj[k]? = some q ->
      DCRTPoly.value dcrt k r = x r % q) :
    exists modq, (inv.mapM fun w => dcrt.mapM fun t => Poly.timesInteger t w) = some modq ∧
      forall k q, qj[k]? = some q -> exists row y, modq[k]? = some row ∧ row[k]? = some y ∧
        Poly.WellFormed q n .COEFFICIENT y ∧ forall r, r < n -> y.value r = baseDigit qj (x r) k := by
  have hone : forall q, q ∈ qj -> 1 < q := fun q hq => (hqj q hq).one_lt
  rcases mapM_spec (l := inv) (f := fun w => dcrt.mapM fun t => Poly.timesInteger t w)
    (fun w row => DCRTPoly.Denotes n .COEFFICIENT qj (w * DCRTPoly.residues dcrt) row)
    (fun w _ => DCRTPoly.timesInteger_denotes hqj hdcrt.denotes w) with
    ⟨modq, hmodq, hmodqLength, hget⟩
  refine ⟨modq, hmodq, ?_⟩
  intro k q hq
  have hk := (List.getElem?_eq_some_iff.mp hq).1
  have hw := List.getElem?_eq_getElem (show k < inv.length by omega)
  have hrow := List.getElem?_eq_getElem (show k < modq.length by omega)
  have hdenotes := hget k _ _ hw hrow
  rcases hdenotes.tower hq with ⟨y, hy, hydenotes⟩
  refine ⟨_, y, hrow, hy, hydenotes.wellFormed, ?_⟩
  intro r hr
  have hlt : y.value r < q := by
    have hwf := hydenotes.wellFormed
    exact hwf.value_lt hr
  have hdigits := baseDigit_spec hcoprime hone (x := x r)
  apply eq_of_mul_cofactor hcoprime hone hq hlt (hdigits.lt k q hq)
  rw [hdigits.residue k q hq]
  apply (ZMod.natCast_eq_natCast_iff' _ _ q).mp
  have hunit : (cofactor qj k : ZMod q) * (inv[k] : ZMod q) = 1 := by
    rw [← Nat.cast_mul, ← ZMod.natCast_mod, hinv k _ q hw hq, Nat.cast_one]
  have hvalue : (y.value r : ZMod q) = inv[k] * x r := by
    rw [hydenotes.value_eq hr]
    change (inv[k] : ZMod q) * (DCRTPoly.value dcrt k r : ZMod q) = _
    rw [hx r hr k q hq, ZMod.natCast_mod]
  rw [Nat.cast_mul, hvalue, mul_right_comm, mul_comm (inv[k] : ZMod q), hunit, one_mul]

theorem extendTowers_spec {D : Nat} (hD : 2 <= D) (hDlength : D <= moduli.length)
    (hcoprime : (moduli.take D).Pairwise Nat.Coprime) {inv : List Nat}
    (hlength : inv.length = (moduli.take D).length)
    (hinv : forall (k : Nat) w q, inv[k]? = some w -> (moduli.take D)[k]? = some q ->
      cofactor (moduli.take D) k * w % q = 1)
    {dcrt : DCRTPoly} (hdcrt : DCRTPoly.WellFormed n .COEFFICIENT (moduli.take D) dcrt)
    {x : Nat -> Nat} (hx : forall r, r < n -> forall (k q : Nat), (moduli.take D)[k]? = some q ->
      DCRTPoly.value dcrt k r = x r % q) :
    exists b, extendTowers moduli (moduli.take D) inv dcrt = some b ∧
      DCRTPoly.Denotes n .COEFFICIENT moduli (fun j m r =>
        (wordValue (moduli.take D) (x r) D j : ZMod m)) b := by
  have hqj : forall q, q ∈ moduli.take D -> Poly.NttModulus q :=
    fun q hq => hmoduli q (List.mem_of_mem_take hq)
  have hpos : forall m, m ∈ moduli.take D -> 0 < m := by
    intro m hm
    have hone := (hqj m hm).one_lt
    omega
  have hDtake : (moduli.take D).length = D := by
    rw [List.length_take, Nat.min_eq_left hDlength]
  have hread {k : Nat} (hk : k < D) : exists q, (moduli.take D)[k]? = some q ∧ moduli[k]? = some q := by
    have hq := List.getElem?_eq_getElem (show k < moduli.length by omega)
    exact ⟨_, by rw [List.getElem?_take_of_lt hk, hq], hq⟩
  rcases digits_spec hqj hcoprime hlength hinv hdcrt hx with ⟨modq, hmodq, hdigits⟩
  rcases hread (show 0 < D by omega) with ⟨q0, hq0, hq0'⟩
  rcases hdigits 0 q0 hq0 with ⟨row0, y0, hrow0, hy0, hwf0, hvalue0⟩
  have hlift : DCRTPoly.Denotes n .COEFFICIENT moduli
      (fun _ m r => (NativeVector.centered q0 (y0.value r) : ZMod m)) (ofTower moduli y0) := by
    apply DCRTPoly.denotes_of_towers (by simp [ofTower])
    intro j m t hm ht
    rcases ofTower_denotes hmoduli (List.mem_of_getElem? hq0') hwf0 hm (by
      intro hzero
      rw [hzero, hq0'] at hm
      exact (Option.some.inj hm).symm) with ⟨u, hu, hdenotes⟩
    cases ht.symm.trans hu
    exact hdenotes
  rcases DCRTPoly.timesInteger_denotes hmoduli hlift (qjProduct (moduli.take D)) with
    ⟨tmp0, htmp0, hdenotes0⟩
  have hdigit {k q : Nat} {y : Poly} (hq : (moduli.take D)[k]? = some q)
      (hy : forall r, r < n -> y.value r = baseDigit (moduli.take D) (x r) k) {r : Nat}
      (hr : r < n) :
      NativeVector.centered q (y.value r) = centeredDigit (moduli.take D) (x r) k := by
    rw [centeredDigit, getD_of_getElem? hq, hy r hr]
  rcases foldlM_range'_spec 1 (n := D - 1) (s := tmp0)
    (f := fun tmp0 d => do
      let modqd <- modq[d]?
      let yd <- modqd[d]?
      let tmpd <- extendTerm moduli (moduli.take D) tmp0 yd d
      DCRTPoly.plusEq tmp0 tmpd)
    (fun i b => DCRTPoly.Denotes n .COEFFICIENT moduli (fun j m r =>
      (wordValue (moduli.take D) (x r) (1 + i) j : ZMod m)) b)
    (by
      refine hdenotes0.congr ?_
      intro j m hm r hr
      have hreach : Reaches (moduli.take D) j 0 := Or.inr (Or.inl rfl)
      change (qjProduct (moduli.take D) : ZMod m) *
        (NativeVector.centered q0 (y0.value r) : ZMod m) = _
      rw [qjProduct_eq hpos (by omega), hdigit hq0 hvalue0 hr, wordValue, Nat.add_zero,
        sum_range_one, if_pos hreach, Int.cast_mul, Int.cast_natCast, mul_comm])
    (by
      intro i hi tmp hdenotes
      rcases hread (show 1 + i < D by omega) with ⟨q, hq, hq'⟩
      rcases hdigits (1 + i) q hq with ⟨row, y, hrow, hy, hwf, hvalue⟩
      rcases extendTerm_spec hmoduli (by omega) (by omega) hDlength hdenotes.wellFormed hq' hwf
        with ⟨tmpd, htmpd, hterm⟩
      rcases DCRTPoly.plusEq_denotes hmoduli hdenotes hterm with ⟨sum, hsum, hsumDenotes⟩
      refine ⟨sum, ?_, ?_⟩
      · simp only [hrow, hy, htmpd, Option.bind_eq_bind, Option.bind_some]
        exact hsum
      · refine hsumDenotes.congr ?_
        intro j m hm r hr
        change (wordValue (moduli.take D) (x r) (1 + i) j : ZMod m) +
          (if Reaches (moduli.take D) j (1 + i) then
            (NativeVector.centered q (y.value r) : ZMod m) *
              (word (cofactor (moduli.take D) (1 + i)) : ZMod m)
            else 0) = _
        rw [hdigit hq hvalue hr, wordValue, wordValue, ← Nat.add_assoc, sum_range_succ,
          Int.cast_add, apply_ite (Int.cast (R := ZMod m)), Int.cast_mul, Int.cast_natCast,
          Int.cast_zero]) with ⟨b, hb, hbdenotes⟩
  refine ⟨b, ?_, ?_⟩
  · unfold extendTowers
    simp only [hmodq, hrow0, hy0, htmp0, hDtake, Option.bind_eq_bind, Option.bind_some]
    exact hb
  · rw [Nat.add_sub_cancel' (by omega : 1 <= D)] at hbdenotes
    exact hbdenotes

end Towers

/-!
## When the words are enough
-/

def exactValue (qj : List Nat) (x : Nat) : Int :=
  ∑ k ∈ range qj.length, centeredDigit qj x k * (cofactor qj k : Int)

/-- What tower `j` loses of the products above a word, in multiples of the word size. -/
def lostValue (qj : List Nat) (x j : Nat) : Int :=
  ∑ k ∈ range qj.length,
    if Reaches qj j k then centeredDigit qj x k * ((cofactor qj k / 2 ^ maxBits : Nat) : Int) else 0

/--
The products of all moduli but one are words, or what they lose is the same multiple of the
composite in every tower.
-/
def Recombines (moduli qj : List Nat) (x : Nat) : Prop :=
  (forall k, k < qj.length -> cofactor qj k < 2 ^ maxBits) ∨
    exists m : Int, |exactValue qj x + m * qj.prod| <= qj.length * qj.prod ∧
      forall (j q : Nat), moduli[j]? = some q ->
        (q : Int) ∣ 2 ^ maxBits * lostValue qj x j + m * qj.prod

section Arithmetic

variable {moduli qj : List Nat} (hcoprime : qj.Pairwise Nat.Coprime)
  (hone : forall q, q ∈ qj -> 1 < q)

omit hcoprime hone in
theorem centered_modEq {q v : Nat} : NativeVector.centered q v ≡ v [ZMOD q] := by
  unfold NativeVector.centered
  split
  · exact (Int.modEq_iff_dvd).mpr ⟨1, by ring⟩
  · exact Int.ModEq.refl _

omit hcoprime hone in
theorem abs_centered_le {q v : Nat} (hv : v < q) : |NativeVector.centered q v| <= q := by
  unfold NativeVector.centered
  rw [abs_le]
  split <;> constructor <;> omega

include hcoprime hone

theorem exactValue_modEq (x : Nat) : exactValue qj x ≡ x [ZMOD qj.prod] := by
  have hdigits := baseDigit_spec hcoprime hone (x := x)
  have hsum : exactValue qj x ≡ (digitSum qj (baseDigit qj x) : Nat) [ZMOD qj.prod] := by
    rw [exactValue, digitSum, Nat.cast_sum]
    apply Int.ModEq.sum
    intro k hk
    have hget : exists q, qj[k]? = some q := ⟨_, List.getElem?_eq_getElem (mem_range.mp hk)⟩
    rcases hget with ⟨q, hq⟩
    have hdigit : centeredDigit qj x k ≡ baseDigit qj x k [ZMOD q] := by
      rw [centeredDigit, getD_of_getElem? hq]
      exact centered_modEq
    rw [Nat.cast_mul, ← cofactor_mul hq, Nat.cast_mul, mul_comm (cofactor qj k : Int)]
    exact hdigit.mul_right'
  exact hsum.trans ((Int.natCast_modEq_iff).mpr (digitSum_modEq hcoprime hone hdigits))

theorem abs_exactValue_le (x : Nat) : |exactValue qj x| <= qj.length * qj.prod := by
  have hdigits := baseDigit_spec hcoprime hone (x := x)
  have hterm : forall k, k ∈ range qj.length ->
      |centeredDigit qj x k * (cofactor qj k : Int)| <= qj.prod := by
    intro k hk
    have hq := List.getElem?_eq_getElem (mem_range.mp hk)
    have habs := abs_centered_le (hdigits.lt k _ hq)
    rw [abs_mul, Nat.abs_cast, ← cofactor_mul hq, Nat.cast_mul, mul_comm (cofactor qj k : Int),
      centeredDigit, getD_of_getElem? hq]
    exact mul_le_mul_of_nonneg_right habs (Int.natCast_nonneg _)
  calc |exactValue qj x| <= ∑ k ∈ range qj.length, |centeredDigit qj x k * (cofactor qj k : Int)| :=
        abs_sum_le_sum_abs _ _
    _ <= ∑ _k ∈ range qj.length, (qj.prod : Int) := sum_le_sum hterm
    _ = qj.length * qj.prod := by
        rw [sum_const, card_range, nsmul_eq_mul]

/-- The code computes the exact value less what the words lose. -/
theorem wordValue_modEq (x : Nat) {j q : Nat} (hq : j < qj.length -> qj[j]? = some q) :
    wordValue qj x qj.length j ≡ exactValue qj x - 2 ^ maxBits * lostValue qj x j [ZMOD q] := by
  rw [wordValue, exactValue, lostValue, mul_sum, ← sum_sub_distrib]
  apply Int.ModEq.sum
  intro k hk
  have hsplit : (cofactor qj k : Int) =
      2 ^ maxBits * ((cofactor qj k / 2 ^ maxBits : Nat) : Int) + (word (cofactor qj k) : Int) := by
    have hdiv := Nat.div_add_mod (cofactor qj k) (2 ^ maxBits)
    rw [word]
    exact_mod_cast hdiv.symm
  rcases Decidable.em (Reaches qj j k) with hreach | hnot
  · rw [if_pos hreach, if_pos hreach]
    have heq : centeredDigit qj x k * (cofactor qj k : Int) -
        2 ^ maxBits * (centeredDigit qj x k * ((cofactor qj k / 2 ^ maxBits : Nat) : Int)) =
        centeredDigit qj x k * (word (cofactor qj k) : Int) := by
      rw [hsplit]
      ring
    rw [heq]
  · rw [if_neg hnot, if_neg hnot, mul_zero, sub_zero]
    unfold Reaches at hnot
    have hjq := hq (by omega)
    have hkq := List.getElem?_eq_getElem (mem_range.mp hk)
    have hdvd := dvd_cofactor hcoprime hone hjq hkq (by omega)
    have hdvd' : (q : Int) ∣ centeredDigit qj x k * (cofactor qj k : Int) :=
      (Int.natCast_dvd_natCast.mpr hdvd).mul_left _
    exact (Int.modEq_zero_iff_dvd.mpr hdvd').symm

theorem recombines_iff (x : Nat)
    (hmoduli : forall (j q : Nat), moduli[j]? = some q -> j < qj.length -> qj[j]? = some q) :
    (exists s : Int, s ≡ x [ZMOD qj.prod] ∧ |s| <= qj.length * qj.prod ∧
      forall (j q : Nat), moduli[j]? = some q -> wordValue qj x qj.length j % q = s % q) <->
    Recombines moduli qj x := by
  have hexact := exactValue_modEq hcoprime hone x
  have htower {j q : Nat} (hq : moduli[j]? = some q) (m : Int) :
      wordValue qj x qj.length j % q = (exactValue qj x + m * qj.prod) % q <->
        (q : Int) ∣ 2 ^ maxBits * lostValue qj x j + m * qj.prod := by
    have hmod := wordValue_modEq hcoprime hone x (hmoduli j q hq)
    have hdiff : exactValue qj x + m * qj.prod -
        (exactValue qj x - 2 ^ maxBits * lostValue qj x j) =
        2 ^ maxBits * lostValue qj x j + m * qj.prod := by
      ring
    rw [hmod.eq, ← hdiff]
    exact Int.modEq_iff_dvd
  constructor
  · rintro ⟨s, hs, habs, hvalues⟩
    rcases (Int.modEq_iff_dvd.mp (hexact.trans hs.symm)) with ⟨m, hm⟩
    have hsum : s = exactValue qj x + m * qj.prod := by
      rw [mul_comm m, ← hm]
      ring
    refine Or.inr ⟨m, by rw [← hsum]; exact habs, ?_⟩
    intro j q hq
    apply (htower hq m).mp
    rw [← hsum]
    exact hvalues j q hq
  · rintro (hfits | ⟨m, habs, hlost⟩)
    · have hzero : forall j, lostValue qj x j = 0 := by
        intro j
        apply sum_eq_zero
        intro k hk
        rw [Nat.div_eq_of_lt (hfits k (mem_range.mp hk)), Nat.cast_zero, mul_zero, ite_self]
      refine ⟨exactValue qj x, hexact, abs_exactValue_le hcoprime hone x, ?_⟩
      intro j q hq
      have hvalue := (htower hq 0).mpr (by rw [hzero]; simp)
      rwa [zero_mul, add_zero] at hvalue
    · refine ⟨exactValue qj x + m * qj.prod, ?_, habs, fun j q hq => (htower hq m).mpr (hlost j q hq)⟩
      have hmod : exactValue qj x + m * qj.prod ≡ exactValue qj x [ZMOD qj.prod] :=
        Int.modEq_iff_dvd.mpr ⟨-m, by ring⟩
      exact hmod.trans hexact

end Arithmetic

/-!
## The raised ciphertext
-/

section Raised

variable {cache : Poly.TableCache} {logN : Nat} (hlogN : 0 < logN) (hlogN31 : logN <= 31)
  {psi : Nat -> Nat} {moduli : List Nat} (hready : DCRTPoly.ReadyChain cache logN psi moduli)
  {D : Nat} (hD : 2 <= D) (hDlength : D <= moduli.length)
  (hcoprime : (moduli.take D).Pairwise Nat.Coprime)

/-- All towers of `b` are the residues of one integer that is congruent to `x` and small. -/
def Raised (cache : Poly.TableCache) (n : Nat) (moduli qj : List Nat) (x : Nat -> Nat)
    (b : DCRTPoly) : Prop :=
  exists s : Nat -> Int, DCRTPoly.HasCoefficients cache n moduli b s ∧ forall r, r < n ->
    s r ≡ x r [ZMOD qj.prod] ∧ |s r| <= qj.length * qj.prod

include hlogN hlogN31 hready hD hDlength hcoprime

theorem extendPoly_spec {inv : List Nat} (hinv : qhatInvModqj (moduli.take D) = some inv)
    {dcrt : DCRTPoly} {x : Nat -> Nat}
    (hx : DCRTPoly.HasCoefficients cache (2 ^ logN) (moduli.take D) dcrt (fun r => x r)) :
    exists b, extendPoly cache moduli (moduli.take D) inv dcrt = some b ∧
      (Raised cache (2 ^ logN) moduli (moduli.take D) x b <->
        forall r, r < 2 ^ logN -> Recombines moduli (moduli.take D) (x r)) := by
  have hmoduli : forall q, q ∈ moduli -> Poly.NttModulus q := fun q hq => (hready q hq).modulus
  have hqj : forall q, q ∈ moduli.take D -> Poly.NttModulus q :=
    fun q hq => hmoduli q (List.mem_of_mem_take hq)
  have hone : forall q, q ∈ moduli.take D -> 1 < q := fun q hq => (hqj q hq).one_lt
  have hDtake : (moduli.take D).length = D := by
    rw [List.length_take, Nat.min_eq_left hDlength]
  rcases qhatInvModqj_spec hqj (by omega) hcoprime with ⟨inv', hinv', hlength, hmul⟩
  cases hinv.symm.trans hinv'
  rcases hx with ⟨c, hc, hcwf, hvalue⟩
  rcases extendTowers_spec hmoduli hD hDlength hcoprime hlength hmul hcwf (x := x) (by
    intro r hr k q hq
    have hentry := hvalue r hr k q hq
    dsimp only at hentry
    exact_mod_cast hentry) with ⟨t, ht, htdenotes⟩
  rcases DCRTPoly.setFormat_hasCoefficients hlogN hready hlogN31 htdenotes with
    ⟨b, hb, _, hback⟩
  refine ⟨b, ?_, ?_⟩
  · unfold extendPoly
    simp only [hc, ht, Option.bind_eq_bind, Option.bind_some]
    exact hb
  · have htake : forall (j q : Nat), moduli[j]? = some q -> j < (moduli.take D).length ->
        (moduli.take D)[j]? = some q := by
      intro j q hq hj
      rw [List.getElem?_take_of_lt (by omega), hq]
    constructor
    · rintro ⟨s, ⟨t', ht', _, hs⟩, hsmall⟩ r hr
      cases hback.symm.trans ht'
      apply (recombines_iff hcoprime hone (x r) htake).mp
      refine ⟨s r, (hsmall r hr).1, (hsmall r hr).2, ?_⟩
      intro j q hq
      rw [hDtake, ← htdenotes.value_emod hq hr]
      exact hs r hr j q hq
    · intro hrecombines
      have hsmall : forall r, exists s : Int, r < 2 ^ logN ->
          s ≡ x r [ZMOD (moduli.take D).prod] ∧
            |s| <= (moduli.take D).length * (moduli.take D).prod ∧
            forall (j q : Nat), moduli[j]? = some q ->
              wordValue (moduli.take D) (x r) (moduli.take D).length j % q = s % q := by
        intro r
        rcases Nat.lt_or_ge r (2 ^ logN) with hr | hr
        · rcases (recombines_iff hcoprime hone (x r) htake).mpr (hrecombines r hr) with ⟨s, hs⟩
          exact ⟨s, fun _ => hs⟩
        · exact ⟨0, fun hlt => absurd hlt (by omega)⟩
      choose s hs using hsmall
      refine ⟨s, ⟨t, hback, htdenotes.wellFormed, ?_⟩, ?_⟩
      · intro r hr j q hq
        have hvalue := (hs r hr).2.2 j q hq
        rw [hDtake] at hvalue
        rw [htdenotes.value_emod hq hr]
        exact hvalue
      · intro r hr
        exact ⟨(hs r hr).1, (hs r hr).2.1⟩

end Raised

def wideModuli : List Nat := [6597069766657, 180143985094819841, 2748779069441]

def wideCache : Poly.TableCache := fun q =>
  Transform.preCompute
    (if q = 6597069766657 then 6588471482459 else if q = 180143985094819841 then 5613242502344274
      else 674676058031) (2 * 2 ^ 1) q

/-- The residues of the product of the first and the last prime, and of zero. -/
def wideInput : DCRTPoly :=
  [⟨6597069766657, .COEFFICIENT, [0, 0]⟩, ⟨180143985094819841, .COEFFICIENT, [9345748172801, 0]⟩,
   ⟨2748779069441, .COEFFICIENT, [0, 0]⟩]

end Ckksrns
end Scheme
end OpenFHE
