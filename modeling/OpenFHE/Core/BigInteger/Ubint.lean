import OpenFHE.Core.NativeInteger.Word

/-!
# Arbitrary-precision integers

`ubint` of the default backend stores its limbs from the least significant one on,
and the length of the value in bits.  A limb has `2 ^ l` bits: 32 or 64 in the
instances of the template.  `Dlimb_t` and `SDlimb_t` are twice as wide.  An access
outside of a vector is `none`.  The in-place variants (`AddEq`, `SubEq`, `LShiftEq`,
`RShiftEq`) run the same loops on their own limbs.
-/

namespace OpenFHE
namespace Core
namespace BigInteger

open NativeInteger

/-- `m_limbBitLength`, from `m_log2LimbBitLength`. -/
def limbBitLength (l : Nat) : Nat := 2 ^ l

/-- The value left in a `limb_t`. -/
def limb (l x : Nat) : Nat := x % 2 ^ limbBitLength l

/-- The value left in a `Dlimb_t`. -/
def dlimb (l x : Nat) : Nat := x % 2 ^ (2 * limbBitLength l)

def maxLimb (l : Nat) : Nat := 2 ^ limbBitLength l - 1

structure Ubint where
  msb : Nat
  value : List Nat
deriving DecidableEq, Repr

namespace Ubint

variable (l : Nat)

def zero : Ubint where
  msb := 0
  value := [0]

/-- The constructor from a value that fits in one limb. -/
def ofLimb (x : Nat) : Ubint where
  msb := getMSB x
  value := [x]

/-- The zero limbs that `NormalizeLimbs` pops, from the most significant one on. -/
def popZeros : List Nat -> List Nat
  | [] => []
  | [x] => [x]
  | x :: y :: xs => if x = 0 then popZeros (y :: xs) else x :: y :: xs

/-- `SetMSB`: the length in bits from the top limb, in a `usint`. -/
def msbOf (value : List Nat) : Nat :=
  usint (limbBitLength l * (value.length - 1) + getMSB (value.getLastD 0) : Nat)

/-- The constructor from a vector, with `NormalizeLimbs`. -/
def ofLimbs (v : List Nat) : Ubint where
  msb := msbOf l (popZeros v.reverse).reverse
  value := (popZeros v.reverse).reverse

/-- The loop of `Compare`, from limb `i - 1` down. -/
def compareLoop (x a : List Nat) : Nat -> Option Int
  | 0 => some 0
  | i + 1 => do
      let xi <- x[i]?
      let ai <- a[i]?
      if xi < ai then return -1
      else if xi > ai then return 1
      else compareLoop x a i

def compare (x a : Ubint) : Option Int :=
  if x.msb < a.msb then some (-1)
  else if x.msb > a.msb then some 1
  else compareLoop x.value a.value x.value.length

/-- The sum of the limbs with the carry `c`; `b` may be shorter than `a`. -/
def addLoop : List Nat -> List Nat -> Nat -> List Nat
  | [], _, c => [limb l c]
  | av :: a, b, c =>
      let c := dlimb l (c + (av + b.headD 0))
      limb l c :: addLoop a b.tail (c >>> limbBitLength l)

def add (x b : Ubint) : Ubint :=
  let A := if x.value.length < b.value.length then b else x
  let B := if x.value.length < b.value.length then x else b
  if B.msb = 0 then A else ofLimbs l (addLoop l A.value B.value 0)

def borrow : List Nat -> Option (List Nat)
  | [] => none
  | v :: rest =>
      if v = 0 then (borrow rest).map fun rest => maxLimb l :: rest
      else some ((v - 1) :: rest)

def subLoop : List Nat -> List Nat -> Option (List Nat)
  | result, [] => some result
  | [], _ :: _ => none
  | rv :: result, bv :: b =>
      if rv < bv then do
        let result <- borrow l result
        let result <- subLoop result b
        return limb l (rv + ((maxLimb l - bv) + 1)) :: result
      else (subLoop result b).map fun result => (rv - bv) :: result

/-- Zero if `b` is not smaller. -/
def sub (x b : Ubint) : Option Ubint := do
  let c <- compare x b
  if c <= 0 then return zero
  else
    let result <- subLoop l x.value b.value
    return ofLimbs l result

/-- The limbs of `a` times one limb, with the carry `ofl`. -/
def mulLoop (limbb : Nat) : List Nat -> Nat -> List Nat
  | [], ofl => [limb l ofl]
  | av :: a, ofl =>
      let ofl := dlimb l (ofl + dlimb l (limbb * av))
      limb l ofl :: mulLoop limbb a (ofl >>> limbBitLength l)

def mul (x b : Ubint) : Ubint :=
  if x.msb = 0 ∨ b.msb = 0 then zero
  else if b.msb = 1 then x
  else if x.msb = 1 then b
  else
    let A := if x.value.length < b.value.length then b else x
    let B := if x.value.length < b.value.length then x else b
    B.value.zipIdx.foldl
      (fun ans limbb =>
        add l ans (ofLimbs l (List.replicate limbb.2 0 ++ mulLoop l limbb.1 A.value 0))) zero

/-- The limbs shifted by at most one limb into `ofl`, and what is shifted out. -/
def shiftLoop (shift : Nat) : List Nat -> Nat -> List Nat × Nat
  | [], ofl => ([], ofl)
  | v :: vs, ofl =>
      let ofl := ofl ||| dlimb l (v <<< shift)
      let rest := shiftLoop shift vs (ofl >>> limbBitLength l)
      (limb l ofl :: rest.1, rest.2)

/-- The shifted limbs, with what is shifted out when it is not zero. -/
def pushCarry (shifted : List Nat × Nat) : List Nat :=
  if shifted.2 ≠ 0 then shifted.1 ++ [limb l shifted.2] else shifted.1

def lShift (x : Ubint) (shift : Nat) : Ubint :=
  if x.msb = 0 then zero
  else
    let shiftByLimb := shift >>> l
    let mask := limbBitLength l - 1
    let low := shift &&& mask
    let value := if low ≠ 0 then pushCarry l (shiftLoop l low x.value 0) else x.value
    { msb := usint (x.msb + shift : Nat)
      value := if shiftByLimb ≠ 0 then List.replicate shiftByLimb 0 ++ value else value }

/-- The limbs above the shift move into what is left of the first one. -/
def rShift (x : Ubint) (shift : Nat) : Option Ubint :=
  if x.msb <= shift then some (ofLimb 0)
  else do
    let shiftByLimb := shift >>> l
    let mask := limbBitLength l - 1
    let low := shift &&& mask
    let first <- x.value[shiftByLimb]?
    return {
      msb := x.msb - shift
      value := pushCarry l (shiftLoop l (limbBitLength l - low)
        (x.value.drop (shiftByLimb + 1)) (first >>> low)) }

end Ubint

end BigInteger
end Core
end OpenFHE
