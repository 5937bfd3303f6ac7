import OpenFHE.Foundation.Loop
import Mathlib.Data.Nat.Log
import Mathlib.Data.Int.Basic
import Mathlib.Algebra.Group.Int.Defs
import Mathlib.Algebra.Group.Nat.Defs

/-!
# Native words

The native integer backend with 64-bit words (`NATIVEINT = 64`).  A value of
`NativeIntegerT` is the natural number stored in its word; every operation
states the truncation that the machine performs.  `DNativeInt` is the 128-bit
double word, `SignedNativeInt` the two's complement reading of a word.
-/

namespace OpenFHE
namespace Core
namespace NativeInteger

open Foundation

def maxBits : Nat := 64

/-- The value left in a word after an unsigned operation. -/
def word (x : Nat) : Nat := x % 2 ^ maxBits

/-- The value left in a `DNativeInt`. -/
def doubleWord (x : Nat) : Nat := x % 2 ^ (2 * maxBits)

/-- The `SignedNativeInt` with the bit pattern of `x`. -/
def signedWord (x : Int) : Int := Int.bmod x (2 ^ maxBits)

/-- The word with the bit pattern of a signed value. -/
def ofSigned (x : Int) : Nat := (x % 2 ^ maxBits).toNat

/-- The value left in a `usint`, which is a `uint32_t`. -/
def usint (x : Int) : Nat := (x % 2 ^ 32).toNat

/-- The `int32_t` with the bit pattern of `x`. -/
def int32 (x : Int) : Int := Int.bmod x (2 ^ 32)

theorem usint_of_bounds {x : Int} (hx : 0 <= x) (hlt : x < 2 ^ 32) : (usint x : Int) = x := by
  unfold usint
  omega

theorem usint_eq {x : Nat} (hx : x < 2 ^ 32) : usint (x : Int) = x := by
  unfold usint
  omega

theorem int32_of_bounds {x : Int} (hlo : -2 ^ 31 <= x) (hhi : x < 2 ^ 31) : int32 x = x :=
  Int.bmod_eq_of_le (by omega) (by omega)

theorem int32_natCast {x : Nat} (hx : x < 2 ^ 31) : int32 (x : Int) = x :=
  int32_of_bounds (by omega) (by omega)

theorem int32_wraps {x : Int} (hlo : 2 ^ 31 <= x) (hhi : x < 2 ^ 32) :
    int32 x = x - 2 ^ 32 := by
  unfold int32 Int.bmod
  rw [if_neg (by omega)]
  omega

def addFast (a b : Nat) : Nat := word (b + a)

def subFast (a b : Nat) : Nat := word (a + (2 ^ maxBits - word b))

def mulFast (a b : Nat) : Nat := word (b * a)

def lShift (a shift : Nat) : Nat := word (a <<< shift)

def rShift (a shift : Nat) : Nat := a >>> shift

/-- Index of the most significant bit, counted from one; zero for zero. -/
def getMSB (x : Nat) : Nat := if x = 0 then 0 else Nat.log2 x + 1

/-!
# Double words

`TypeD` is the pair of words of `typeD`.
-/

structure TypeD where
  hi : Nat
  lo : Nat
deriving DecidableEq, Repr

def multD (a b : Nat) : TypeD where
  hi := word (doubleWord (a * b) >>> maxBits)
  lo := word (doubleWord (a * b))

def multDHi (a b : Nat) : Nat := (multD a b).hi

def getD (x : TypeD) : Nat := doubleWord (x.hi <<< maxBits) ||| x.lo

def rShiftD (x : TypeD) (shift : Nat) : Nat :=
  word (x.lo >>> shift ||| x.hi <<< (maxBits - shift))

/-!
# Modular addition and subtraction

The `Fast` variants expect operands below the modulus; the plain variants
reduce them first.
-/

def modAddFast (a b modulus : Nat) : Nat :=
  let r := word (a + b)
  if r >= modulus then subFast r modulus else r

def modSubFast (a b modulus : Nat) : Nat :=
  if a < b then subFast (word (a + modulus)) b else subFast a b

def modAdd (a b modulus : Nat) : Nat :=
  modAddFast (if a >= modulus then a % modulus else a)
    (if b >= modulus then b % modulus else b) modulus

def modSub (a b modulus : Nat) : Nat :=
  modSubFast (if a >= modulus then a % modulus else a)
    (if b >= modulus then b % modulus else b) modulus

/-!
# Barrett reduction

`computeMu` is the precomputed quotient, `modMu` the reduction of one word and
`modMulFastMu` the reduction of a product of two reduced words.
-/

def computeMu (modulus : Nat) : Option Nat :=
  if modulus = 0 then none
  else some (word (doubleWord (1 <<< (2 * getMSB modulus + 3)) / modulus))

def modMu (a mv mu n : Nat) : Nat :=
  let prod := multD (rShiftD { hi := 0, lo := a } n) mu
  let r := subFast a (word (doubleWord ((getD prod >>> (n + 7)) * mv)))
  if r >= mv then subFast r mv else r

def modMulFastMu (a b modulus mu : Nat) : Nat :=
  let n := getMSB modulus - 2
  let tmp := multD a b
  let rv := getD tmp
  let quot := multD (rShiftD tmp n) mu
  let sub := doubleWord (modulus * (getD quot >>> (n + 7)))
  let r := word (doubleWord (rv + (2 ^ (2 * maxBits) - sub)))
  if r >= modulus then subFast r modulus else r

def modMulMu (a b modulus mu : Nat) : Nat :=
  let n := getMSB modulus - 2
  let av := if a >= modulus then modMu a modulus mu n else a
  let bv := if b >= modulus then modMu b modulus mu n else b
  modMulFastMu av bv modulus mu

/-!
# Multiplication by a precomputed constant

`prepModMulConst` scales the constant by the word size; `modMulFastConst`
estimates the quotient from it and repairs the sign of the remainder.
-/

def prepModMulConst (a modulus : Nat) : Option Nat :=
  if modulus = 0 then none
  else some (word (doubleWord (a <<< maxBits) / modulus))

def modMulFastConst (a b modulus bInv : Nat) : Nat :=
  let q := word (multDHi a bInv + 1)
  let yprime := signedWord (subFast (word (a * b)) (word (q * modulus)))
  if yprime >= 0 then ofSigned yprime else word (ofSigned yprime + modulus)

/-!
# Multiplication by a remainder

`ModMul` and `ModMulFastEq` without a reciprocal.
-/

def modMulFastEq (a b modulus : Nat) : Nat :=
  let rv := doubleWord (a * b)
  word (if rv >= modulus then rv % modulus else rv)

def modMul (a b modulus : Nat) : Nat :=
  modMulFastEq (if a >= modulus then a % modulus else a)
    (if b >= modulus then b % modulus else b) modulus

/-!
# Modular inverse

The extended Euclidean loop on signed words.  A division by zero and the
thrown "does not have a ModInverse" are `none`.
-/

structure InverseState where
  a : Int
  modulus : Int
  x : Int
  y : Int
deriving DecidableEq, Repr

def modInverseStep (s : InverseState) : Option InverseState :=
  if s.modulus = 0 then none
  else
    let q := signedWord (Int.tdiv s.a s.modulus)
    some
      { a := s.modulus
        modulus := signedWord (Int.tmod s.a s.modulus)
        x := s.y
        y := signedWord (s.x - signedWord (q * s.y)) }

def modInverseLoop (s : InverseState) : Option InverseState :=
  whileFuel (fun s => decide (1 < s.a)) modInverseStep (2 ^ maxBits) s

def modInverse (value mod : Nat) : Option Nat :=
  if mod = 0 then none
  else
    let modulus := signedWord mod
    let a := signedWord (value % mod : Nat)
    if a = 0 then none
    else if modulus = 1 then some 0
    else
      (modInverseLoop { a := a, modulus := modulus, x := 1, y := 0 }).map
        fun s => if s.x < 0 then ofSigned (signedWord (s.x + mod)) else ofSigned s.x

end NativeInteger
end Core
end OpenFHE
