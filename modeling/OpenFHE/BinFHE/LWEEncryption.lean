import OpenFHE.BinFHE.LWECiphertext
import OpenFHE.Core.NativeInteger.Digits

/-!
# LWE encryption

`Encrypt` hides a message with the secret key, `EncryptN` with a public key, and
`Decrypt` rounds the phase of a ciphertext.  The generators of a call are the
words that they returned.
-/

namespace OpenFHE
namespace BinFHE

open Core Foundation NativeInteger

namespace LWEEncryptionScheme

def encryptMessage : String := "plaintext modulus p must divide ciphertext modulus q"

def decryptMessage : String := "plaintext modulus p*2 must divide ciphertext modulus q"

/-- `q % p != 0 && q & (1 == 0)`; the comparison of the two literals is false. -/
def refuses (q p : Nat) : Bool :=
  q % p != 0 && (q &&& ((1 : Nat) == 0).toNat) != 0

/--
`Encrypt`: `a` is the uniform vector and `noise` the Gaussian integer.  The division
by a plaintext modulus zero is undefined.
-/
def encrypt (sk : NativeVectorT) (a : List Nat) (noise : Nat) (m : Int) (p q : Nat) :
    Except Fault LWECiphertextImpl := do
  if p = 0 then throw .undefined
  if refuses q p then throw (.thrown encryptMessage)
  let s <- sk.switchModulus q
  let b := addFast (mulFast (ofSigned m % p) (q / p)) noise
  let mu <- reciprocal q
  let b <- accumulate q mu a s.data s.data.length b
  return { m_a := { modulus := q, data := a }, m_b := b % q, m_p := p }

/-- The loop `b.ModAddFastEq(bp[i].ModMulFast(sp[i], q, mu), q)`. -/
def accumulateReduced (q mu : Nat) (bp sp : List Nat) (n b : Nat) : Except Fault Nat :=
  (List.range n).foldlM (fun b i => do
    let x <- Fault.access (bp)[i]?
    let y <- Fault.access (sp)[i]?
    return modAddFast b (modMulFastMu x y q mu) q) b

/-- The loop `a.ModAddEq(A[j].ModMul(sp[j]))`. -/
def addRows (A : List NativeVectorT) (sp : List Nat) (n : Nat) (a : NativeVectorT) :
    Except Fault NativeVectorT :=
  (List.range n).foldlM (fun a j => do
    let row <- Fault.access (A)[j]?
    let x <- Fault.access (sp)[j]?
    let product <- row.modMulInteger x
    a.modAddEq product) a

/--
`EncryptN` with the public key `A` and `v`: `sp` is the ternary vector, `a` the
Gaussian vector and `noise` the Gaussian integer.
-/
def encryptN (A : List NativeVectorT) (v : NativeVectorT) (sp a : List Nat) (noise : Nat)
    (m : Int) (p q : Nat) : Except Fault LWECiphertextImpl := do
  if p = 0 then throw .undefined
  if refuses q p then throw (.thrown encryptMessage)
  let bp <- v.switchModulus q
  let n := bp.data.length
  let a <- addRows A sp n { modulus := q, data := a }
  let mu <- reciprocal q
  let b := addFast (mulFast (ofSigned m % p) (q / p)) noise
  let b := if b >= q then b % q else b
  let b <- accumulateReduced q mu bp.data sp n b
  return { m_a := a, m_b := b, m_p := p }

/-- `Decrypt`; the pointers may be null, and `result` only receives the value. -/
def decrypt (sk : Option NativeVectorT) (ct : Option LWECiphertextImpl) (result : Bool)
    (p : Nat) : Except Fault Int := do
  match sk, ct, result with
  | none, _, _ => throw (.thrown "PrivateKey is empty")
  | some _, none, _ => throw (.thrown "Ciphertext is empty")
  | some _, some _, false => throw (.thrown "result is nullptr")
  | some sk, some ct, true =>
      let q := ct.getModulus
      let twice := word (p * 2)
      if twice = 0 then throw .undefined
      if refuses q twice then throw (.thrown decryptMessage)
      let mu <- reciprocal q
      let s <- sk.switchModulus q
      let inner <- accumulate q mu ct.m_a.data s.data s.data.length 0
      let r := modSubFast ct.m_b (inner % q) q
      let r := modAddFast r (q / twice) q
      return signedWord (mulFast p r / q : Nat)

theorem refuses_eq_false (q p : Nat) : refuses q p = false := by
  simp [refuses]

/-!
## What the calls return
-/

/-- The residues of the centered entries of a secret. -/
def secretResidue (q : Nat) (sk : NativeVectorT) (i : Nat) : ZMod q :=
  (NativeVector.centered sk.modulus (sk.data.getD i 0) : ZMod q)

def maskProduct (q n : Nat) (a : List Nat) (sk : NativeVectorT) : ZMod q :=
  ∑ i ∈ Finset.range n, coefficient q a i * secretResidue q sk i

theorem maskProduct_eq {q n : Nat} {a : List Nat} {sk s : NativeVectorT}
    (hs : NativeVectorT.Stands n q (secretResidue q sk) s) :
    innerProduct q n a s.data = maskProduct q n a sk :=
  Finset.sum_congr rfl fun i hi => by
    rw [hs.holds.coefficient_eq (Finset.mem_range.mp hi)]

theorem round_phase {p k M r : Nat} {E : Int} (hp : 0 < p) (hlo : -(k : Int) <= E)
    (hhi : E < k) (hM : M < p) (hr : r < 2 * p * k)
    (hphase : (r : ZMod (2 * p * k)) = M * (2 * k) + E + k) : p * r / (2 * p * k) = M := by
  obtain ⟨c, hc⟩ : exists c : Nat, (c : Int) = E + k := ⟨(E + k).toNat, by omega⟩
  have hck : c < 2 * k := by omega
  have hbound : 2 * k * M + c < 2 * p * k := by
    calc
      2 * k * M + c < 2 * k * M + 2 * k := by omega
      _ = 2 * k * (M + 1) := by ring
      _ <= 2 * k * p := Nat.mul_le_mul_left _ hM
      _ = 2 * p * k := by ring
  have hcast : (r : ZMod (2 * p * k)) = ((2 * k * M + c : Nat) : ZMod (2 * p * k)) := by
    have hcZ : (c : ZMod (2 * p * k)) = E + k := by
      have hc' := congrArg (Int.cast : Int -> ZMod (2 * p * k)) hc
      push_cast at hc'
      exact hc'
    rw [hphase, Nat.cast_add, hcZ]
    push_cast
    ring
  have hrEq : r = 2 * k * M + c := by
    have hmod := (ZMod.natCast_eq_natCast_iff' _ _ _).mp hcast
    rwa [Nat.mod_eq_of_lt hr, Nat.mod_eq_of_lt hbound] at hmod
  rw [show 2 * p * k = p * (2 * k) by ring, Nat.mul_div_mul_left _ _ hp, hrEq,
    Nat.mul_add_div (by omega), Nat.div_eq_of_lt hck, Nat.add_zero]

theorem message_le {p : Nat} (q : Nat) (hp : 0 < p) (m : Nat) : m % p * (q / p) <= q := by
  calc
    m % p * (q / p) <= p * (q / p) := Nat.mul_le_mul_right _ (Nat.mod_lt m hp).le
    _ <= q := Nat.mul_div_le q p

theorem messageNoise_eq {p q noise : Nat} (hlt : q < 2 ^ 60) (hp : 0 < p) (hnoise : noise < q)
    (m : Nat) :
    addFast (mulFast (m % p) (q / p)) noise = m % p * (q / p) + noise := by
  have hmessage := message_le q hp m
  rw [mulFast, Nat.mul_comm (q / p)]
  revert hmessage
  generalize m % p * (q / p) = scaled
  intro hscaled
  rw [word_eq (by simp only [maxBits]; omega), addFast, Nat.add_comm,
    word_eq (by simp only [maxBits]; omega)]

theorem represents_addFast {q x y : Nat} (hlt : q < 2 ^ 63) (hx : x < q) (hy : y < q) :
    Represents q ((x : ZMod q) + y) (modAddFast x y q) := by
  rw [modAddFast_eq hlt hx hy, ← Nat.cast_add]
  exact represents_mod (by omega) _

section Calls

variable {n old p q : Nat} {sk : NativeVectorT} (hsk : NativeVectorT.Valid n old sk)
  (hold : old < 2 ^ maxBits) (hpos : 0 < q)

include hsk hold hpos

theorem secret_ok (hlt : q < 2 ^ 60) :
    exists s, sk.switchModulus q = .ok s ∧ NativeVectorT.Stands n q (secretResidue q sk) s := by
  unfold secretResidue
  rw [hsk.modulus_eq]
  exact NativeVectorT.switchModulus_ok hsk hold hpos hlt

theorem encrypt_spec (hlt : q < 2 ^ 60) (hp : 0 < p) (hroom : (n + 2) * q < 2 ^ maxBits)
    {a : List Nat} (ha : Residues n q a) {e : ZMod q} {noise : Nat}
    (hnoise : Represents q e noise) {m : Int} (hm0 : 0 <= m) (hm : m < 2 ^ 63) :
    exists ct, encrypt sk a noise m p q = .ok ct ∧
      ct.m_a = { modulus := q, data := a } ∧ ct.m_p = p ∧
      Represents q ((m.toNat % p : Nat) * (q / p : Nat) + e + maskProduct q n a sk) ct.m_b := by
  rcases secret_ok hsk hold hpos hlt with ⟨s, hs, hstands⟩
  rcases reciprocal_ok hpos with ⟨mu, hmu, hrec⟩
  have hmessage := message_le q hp m.toNat
  have hstart := messageNoise_eq hlt hp hnoise.1 m.toNat
  have hbound : m.toNat % p * (q / p) + noise < 2 ^ maxBits := by
    have hnoiseLt := hnoise.1
    calc
      m.toNat % p * (q / p) + noise < q + q := by omega
      _ < 2 ^ maxBits := by simp only [maxBits]; omega
  rcases accumulate_spec hpos hlt hmu ha hstands.holds.residues hbound
    with ⟨b, hb, _, hcast⟩
  have hcast := hcast (Or.inl (by
    have hmul : n * (q - 1) <= n * q := Nat.mul_le_mul_left n (Nat.sub_le q 1)
    have hsplit : (n + 2) * q = n * q + 2 * q := by ring
    have hnoiseLt := hnoise.1
    revert hmessage
    generalize m.toNat % p * (q / p) = scaled
    omega))
  refine ⟨{ m_a := { modulus := q, data := a }, m_b := b % q, m_p := p }, ?_, rfl, rfl, ?_⟩
  · unfold encrypt
    rw [if_neg (by omega), refuses_eq_false, hs, hrec]
    have hword : ofSigned m = m.toNat :=
      ofSigned_eq hm0 (lt_trans hm (by decide))
    simp only [Bool.false_eq_true, if_false, Fault.ok_bind, hword, hstart,
      hstands.holds.length_eq, hb]
    rfl
  · have hrep := represents_mod hpos b
    rw [hcast, maskProduct_eq hstands, Nat.cast_add, Nat.cast_mul, hnoise.2] at hrep
    exact hrep

theorem decrypt_spec (hlt : q < 2 ^ 60) (htwice : word (p * 2) ≠ 0) {ct : LWECiphertextImpl}
    (hct : NativeVectorT.Valid n q ct.m_a) {body : ZMod q} (hb : Represents q body ct.m_b) :
    exists r, decrypt (some sk) (some ct) true p = .ok (signedWord (mulFast p r / q : Nat)) ∧
      r < q ∧ (Headroom q n 0 ->
        (r : ZMod q) = body - maskProduct q n ct.m_a.data sk + (q / word (p * 2) : Nat)) := by
  rcases secret_ok hsk hold hpos hlt with ⟨s, hs, hstands⟩
  rcases reciprocal_ok hpos with ⟨mu, hmu, hrec⟩
  rcases accumulate_spec hpos hlt hmu hct.residues hstands.holds.residues (by decide : 0 < 2 ^ maxBits)
    with ⟨inner, hinner, _, hcast⟩
  have htwo : 2 <= word (p * 2) := by
    revert htwice
    simp only [word, maxBits]
    omega
  have hshift : q / word (p * 2) < q := Nat.div_lt_self hpos htwo
  have hphase := NativeVector.represents_sub_fast hlt hb.1 (Nat.mod_lt inner hpos)
  have hrounded := represents_addFast (by omega) hphase.1 hshift
  refine ⟨_, ?_, hrounded.1, ?_⟩
  · unfold decrypt
    simp only [LWECiphertextImpl.getModulus, hct.modulus_eq, if_neg htwice, refuses_eq_false,
      Bool.false_eq_true, if_false, hrec, hs, Fault.ok_bind, hstands.holds.length_eq, hinner]
    rfl
  · intro hroom
    rw [hrounded.2, hphase.2, hb.2, ZMod.natCast_mod, hcast hroom, maskProduct_eq hstands]
    simp

end Calls

/-!
## Encryption with a public key
-/

def matrixEntry (q : Nat) (A : List NativeVectorT) (j i : Nat) : ZMod q :=
  coefficient q (A.getD j (NativeVectorT.zeros 0 q)).data i

/-- A public key of the secret `sk` with the error `e`: `v = A * s + e` modulo `q`. -/
structure IsPublicKey (n q : Nat) (sk : NativeVectorT) (A : List NativeVectorT)
    (v : NativeVectorT) (e : List Nat) : Prop where
  length_eq : A.length = n
  rows : forall row, row ∈ A -> NativeVectorT.Valid n q row
  body : NativeVectorT.Valid n q v
  equation : forall j, j < n -> coefficient q v.data j =
    (∑ i ∈ Finset.range n, matrixEntry q A j i * secretResidue q sk i) + coefficient q e j

theorem accumulateReduced_spec {n q : Nat} (hpos : 0 < q) (hlt : q < 2 ^ 60)
    (hne : n = 0 ∨ q ≠ 2 ^ 59) {mu : Nat} (hmu : computeMu q = some mu) {bp sp : List Nat}
    (hbp : Residues n q bp) (hsp : Residues n q sp) {β : ZMod q} {b : Nat}
    (hb : Represents q β b) :
    exists r, accumulateReduced q mu bp sp n b = .ok r ∧
      Represents q (β + innerProduct q n bp sp) r := by
  refine foldlM_range_ok (fun i r => Represents q (β + innerProduct q i bp sp) r)
    (by simpa [innerProduct] using hb) ?_
  intro i hi r hr
  rcases hbp.exists_entry hi with ⟨x, hx, hxq⟩
  rcases hsp.exists_entry hi with ⟨y, hy, hyq⟩
  have hprodLt := modMulFastMu_lt hpos hlt hmu (hne.resolve_left (by omega)) hxq hyq
  have hsum := represents_addFast (by omega) hr.1 hprodLt
  refine ⟨modAddFast r (modMulFastMu x y q mu) q, by rw [hx, hy]; rfl, ?_⟩
  rw [hr.2, modMulFastMu_cast hpos hlt hmu hxq hyq] at hsum
  rw [innerProduct, Finset.sum_range_succ, coefficient_of_getElem? hx,
    coefficient_of_getElem? hy, ← add_assoc]
  exact hsum

theorem addRows_spec {n q : Nat} (hpos : 0 < q) (hlt : q < 2 ^ 60) {A : List NativeVectorT}
    (hlength : A.length = n) (hrows : forall row, row ∈ A -> NativeVectorT.Valid n q row)
    {sp : List Nat} (hsp : Residues n q sp) {f : Nat -> ZMod q} {a : NativeVectorT}
    (ha : NativeVectorT.Stands n q f a) :
    exists r, addRows A sp n a = .ok r ∧ NativeVectorT.Stands n q
      (fun i => f i + ∑ j ∈ Finset.range n, matrixEntry q A j i * coefficient q sp j) r := by
  refine foldlM_range_ok (fun k r => NativeVectorT.Stands n q
    (fun i => f i + ∑ j ∈ Finset.range k, matrixEntry q A j i * coefficient q sp j) r)
    (by simpa using ha) ?_
  intro j hj r hr
  have hrow : A[j]? = some (A.getD j (NativeVectorT.zeros 0 q)) := by
    rw [List.getD_eq_getElem?_getD, List.getElem?_eq_getElem (by omega)]
    rfl
  rcases hsp.exists_entry hj with ⟨x, hx, _⟩
  rcases NativeVectorT.modMulInteger_ok (hrows _ (List.mem_of_getElem? hrow)).stands hpos hlt x
    with ⟨product, hproduct, hproductStands⟩
  rcases NativeVectorT.modAddEq_ok hr hproductStands hlt with ⟨r', hr', hstands⟩
  refine ⟨r', ?_, hstands.modulus_eq, hstands.holds.congr fun i _ => ?_⟩
  · rw [hrow, hx]
    simp only [Fault.access_some, Fault.ok_bind, hproduct, hr']
  · rw [Finset.sum_range_succ, coefficient_of_getElem? hx, ← add_assoc]
    rfl

section PublicKey

variable {n old p q : Nat} {sk : NativeVectorT} {A : List NativeVectorT} {v : NativeVectorT}
  {e : List Nat} (hkey : IsPublicKey n q sk A v e) (hpos : 0 < q) (hlt : q < 2 ^ 60)

include hkey hpos hlt

theorem encryptN_spec (hne : n = 0 ∨ q ≠ 2 ^ 59) (hp : 0 < p) {sp a : List Nat}
    (hsp : Residues n q sp) (ha : Residues n q a) {noise : Nat} (hnoise : noise < q) {m : Int}
    (hm0 : 0 <= m) (hm : m < 2 ^ 63) :
    exists ct, encryptN A v sp a noise m p q = .ok ct ∧ NativeVectorT.Valid n q ct.m_a ∧
      ct.m_p = p ∧ exists body, Represents q body ct.m_b ∧
        body - maskProduct q n ct.m_a.data sk = (m.toNat % p : Nat) * (q / p : Nat) +
          (noise + innerProduct q n sp e - maskProduct q n a sk) := by
  rcases addRows_spec hpos hlt hkey.length_eq hkey.rows hsp
    (show NativeVectorT.Stands n q (coefficient q a) { modulus := q, data := a } from
      ⟨rfl, ha.holds⟩) with ⟨mask, hmask, hmaskStands⟩
  rcases reciprocal_ok hpos with ⟨mu, hmu, hrec⟩
  have hstart := messageNoise_eq hlt hp hnoise m.toNat
  have hreduced := represents_mod hpos (m.toNat % p * (q / p) + noise)
  rcases accumulateReduced_spec hpos hlt hne hmu hkey.body.residues hsp hreduced
    with ⟨b, hb, hbRep⟩
  refine ⟨{ m_a := mask, m_b := b, m_p := p }, ?_, hmaskStands.valid, rfl, _, hbRep, ?_⟩
  · have hword : ofSigned m = m.toNat := ofSigned_eq hm0 (lt_trans hm (by decide))
    have hif : (if m.toNat % p * (q / p) + noise >= q then
        (m.toNat % p * (q / p) + noise) % q else m.toNat % p * (q / p) + noise) =
          (m.toNat % p * (q / p) + noise) % q := reduce_eq_mod _ _
    unfold encryptN
    rw [if_neg (by omega), refuses_eq_false,
      NativeVectorT.switchModulus_self hkey.body hpos hlt]
    simp only [Bool.false_eq_true, if_false, Fault.ok_bind, hkey.body.residues.1, hmask, hrec,
      hword, hstart, hif, hb]
    rfl
  · have hmaskSum : maskProduct q n mask.data sk = maskProduct q n a sk +
        ∑ j ∈ Finset.range n,
          (∑ i ∈ Finset.range n, matrixEntry q A j i * secretResidue q sk i) *
            coefficient q sp j := by
      unfold maskProduct
      rw [Finset.sum_congr rfl fun i hi => by
        rw [hmaskStands.holds.coefficient_eq (Finset.mem_range.mp hi), add_mul, Finset.sum_mul]]
      rw [Finset.sum_add_distrib, Finset.sum_comm]
      simp only [Finset.sum_mul]
      congr 1
      exact Finset.sum_congr rfl fun j _ => Finset.sum_congr rfl fun i _ => by ring
    have hbody : innerProduct q n v.data sp =
        (∑ j ∈ Finset.range n,
          (∑ i ∈ Finset.range n, matrixEntry q A j i * secretResidue q sk i) *
            coefficient q sp j) + innerProduct q n sp e := by
      unfold innerProduct
      rw [← Finset.sum_add_distrib]
      exact Finset.sum_congr rfl fun j hj => by
        rw [hkey.equation j (Finset.mem_range.mp hj)]
        ring
    rw [hmaskSum, hbody]
    push_cast
    ring

end PublicKey

end LWEEncryptionScheme

end BinFHE
end OpenFHE
