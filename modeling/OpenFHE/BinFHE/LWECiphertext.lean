import OpenFHE.Core.NativeVectorT
import OpenFHE.Core.NativeInteger.Barrett
import OpenFHE.Foundation.Loop
import Mathlib.Algebra.BigOperators.Ring.Finset

/-!
# LWE ciphertexts and inner products

The inner product of a mask and a secret is summed up in one word and reduced at
the end.  The sum is a residue of the inner product if it fits in the word, or if
the modulus divides the size of the word.
-/

namespace OpenFHE
namespace BinFHE

open Core Foundation NativeInteger

/-- The constructors without a plaintext modulus set it to four. -/
structure LWECiphertextImpl where
  m_a : NativeVectorT
  m_b : Nat
  m_p : Nat := 4
deriving DecidableEq, Repr

namespace LWECiphertextImpl

def getModulus (ct : LWECiphertextImpl) : Nat := ct.m_a.modulus

def getLength (ct : LWECiphertextImpl) : Nat := ct.m_a.data.length

/-- The copy constructor: the plaintext modulus is the default of the member. -/
def copy (rhs : LWECiphertextImpl) : LWECiphertextImpl where
  m_a := rhs.m_a
  m_b := rhs.m_b

/-- `operator=` keeps the plaintext modulus that the target had. -/
def assign (ct rhs : LWECiphertextImpl) : LWECiphertextImpl :=
  { ct with m_a := rhs.m_a, m_b := rhs.m_b }

def save (ct : LWECiphertextImpl) : NativeVectorT × Nat := (ct.m_a, ct.m_b)

/-- Loading writes the archived fields of an object that exists. -/
def load (ct : LWECiphertextImpl) (ar : NativeVectorT × Nat) : LWECiphertextImpl :=
  { ct with m_a := ar.1, m_b := ar.2 }

def setModulus (ct : LWECiphertextImpl) (q : Nat) : Except Fault LWECiphertextImpl := do
  let a <- ct.m_a.modEq q
  let a <- a.setModulus q
  if q = 0 then throw .undefined
  return { ct with m_a := a, m_b := ct.m_b % q }

end LWECiphertextImpl

namespace LWEEncryptionScheme

def evalAddConstEq (ct : LWECiphertextImpl) (cnst : Nat) : LWECiphertextImpl :=
  { ct with m_b := modAddFast ct.m_b cnst ct.getModulus }

def evalSubConstEq (ct : LWECiphertextImpl) (cnst : Nat) : LWECiphertextImpl :=
  { ct with m_b := modSubFast ct.m_b cnst ct.getModulus }

def evalSubEq (ct1 ct2 : LWECiphertextImpl) : Except Fault LWECiphertextImpl := do
  let a <- ct1.m_a.modSubEq ct2.m_a
  return { ct1 with m_a := a, m_b := modSubFast ct1.m_b ct2.m_b ct1.getModulus }

end LWEEncryptionScheme

/-- `GenerateInteger` of the Gaussian generator for the drawn integer `val`. -/
def generateInteger (val : Int) (modulus : Nat) : Nat :=
  if val < 0 then subFast modulus (ofSigned (-val)) else ofSigned val

theorem generateInteger_represents {val : Int} {q : Nat} (hq : q < 2 ^ maxBits)
    (hlo : -(q : Int) <= val) (hhi : val < q) :
    Represents q (val : ZMod q) (generateInteger val q) := by
  have hq' : (q : Int) < 2 ^ maxBits := by exact_mod_cast hq
  unfold generateInteger
  split
  next hneg =>
      rw [ofSigned_eq (by omega) (by omega), subFast_eq (by omega) hq]
      refine ⟨by omega, ?_⟩
      rw [← Int.cast_natCast, show ((q - (-val).toNat : Nat) : Int) = val + q by omega]
      push_cast
      simp
  next hnonneg =>
      rw [ofSigned_eq (by omega) (by omega)]
      refine ⟨by omega, ?_⟩
      rw [← Int.cast_natCast, Int.toNat_of_nonneg (by omega)]

/-!
## The sum of the products
-/

/-- The loop `b += a[i].ModMulFast(s[i], q, mu)`. -/
def accumulate (q mu : Nat) (a s : List Nat) (n b : Nat) : Except Fault Nat :=
  Fault.access ((List.range n).foldlM (fun b i => do
    let x <- a[i]?
    let y <- s[i]?
    return addFast b (modMulFastMu x y q mu)) b)

def innerProduct (q n : Nat) (a s : List Nat) : ZMod q :=
  ∑ i ∈ Finset.range n, coefficient q a i * coefficient q s i

theorem coefficient_of_getElem? {q i x : Nat} {a : List Nat} (h : a[i]? = some x) :
    coefficient q a i = x := by
  rw [coefficient, List.getD_eq_getElem?_getD, h]
  rfl

/-- Enough headroom for `n` products on top of `b`, or a modulus that divides it away. -/
def Headroom (q n b : Nat) : Prop := b + n * (q - 1) < 2 ^ maxBits ∨ q ∣ 2 ^ maxBits

theorem accumulate_spec {q n : Nat} (hpos : 0 < q) (h60 : q < 2 ^ 60) {mu : Nat}
    (hmu : computeMu q = some mu) {a s : List Nat} (ha : Residues n q a) (hs : Residues n q s)
    {b : Nat} (hb : b < 2 ^ maxBits) :
    exists r, accumulate q mu a s n b = .ok r ∧ r < 2 ^ maxBits ∧
      (Headroom q n b -> (r : ZMod q) = b + innerProduct q n a s) := by
  have hrun := foldlM_range_spec (n := n) (s := b)
    (f := fun b i => do
      let x <- a[i]?
      let y <- s[i]?
      return addFast b (modMulFastMu x y q mu))
    (fun i r => r < 2 ^ maxBits ∧ (Headroom q n b -> (r : ZMod q) = b + innerProduct q i a s ∧
      (q ∣ 2 ^ maxBits ∨ r <= b + i * (q - 1))))
    ⟨hb, fun _ => ⟨by simp [innerProduct], Or.inr (by omega)⟩⟩ ?_
  · rcases hrun with ⟨r, hr, hlt, hcast⟩
    exact ⟨r, by rw [accumulate, hr]; rfl, hlt, fun hroom => (hcast hroom).1⟩
  · rintro i hi r ⟨hlt, hinv⟩
    rcases ha.exists_entry hi with ⟨x, hx, hxq⟩
    rcases hs.exists_entry hi with ⟨y, hy, hyq⟩
    refine ⟨addFast r (modMulFastMu x y q mu), by rw [hx, hy]; rfl, word_lt _, ?_⟩
    intro hroom
    rcases hinv hroom with ⟨hcast, hbound⟩
    have hsum : ((r + modMulFastMu x y q mu : Nat) : ZMod q) =
        b + innerProduct q (i + 1) a s := by
      unfold innerProduct
      rw [Nat.cast_add, modMulFastMu_cast hpos h60 hmu hxq hyq, hcast, Finset.sum_range_succ,
        coefficient_of_getElem? hx, coefficient_of_getElem? hy, innerProduct]
      ring
    rw [addFast, Nat.add_comm]
    by_cases hdvd : q ∣ 2 ^ maxBits
    · exact ⟨by rw [word_cast hdvd, hsum], Or.inl hdvd⟩
    · have hne : q ≠ 2 ^ 59 := by
        rintro rfl
        exact hdvd (pow_dvd_pow 2 (by decide))
      have hle := hbound.resolve_left hdvd
      have hprodLt := modMulFastMu_lt hpos h60 hmu hne hxq hyq
      have htotal := hroom.resolve_right hdvd
      have hmono : (i + 1) * (q - 1) <= n * (q - 1) := Nat.mul_le_mul_right _ hi
      have hsucc : (i + 1) * (q - 1) = i * (q - 1) + (q - 1) := Nat.succ_mul i (q - 1)
      rw [word_eq (by omega)]
      exact ⟨hsum, Or.inr (by omega)⟩

/-!
## The reciprocal
-/

def divideByZeroMessage : String := "NativeIntegerT ComputeMu: Divide by zero"

/-- `ComputeMu` with its exception. -/
def reciprocal (q : Nat) : Except Fault Nat :=
  match computeMu q with
  | none => .error (.thrown divideByZeroMessage)
  | some mu => .ok mu

theorem reciprocal_ok {q : Nat} (hpos : 0 < q) :
    exists mu, computeMu q = some mu ∧ reciprocal q = .ok mu := by
  unfold reciprocal computeMu
  rw [if_neg (by omega)]
  exact ⟨_, rfl, rfl⟩

end BinFHE
end OpenFHE
