import OpenFHE.Core.BigInteger.Ubint

/-!
# Division of big integers

Knuth's algorithm D on the limbs.  The three routines of the source run the same
rounds and differ in what they keep of them.  Signed double limbs wrap at half of
their range, and their shift to the right rounds down.

A division by zero and an access outside of a vector are `none`; a thrown exception is
its text.  The in-place variants (`DividedByEq`, `ModEq`) return the same values.
-/

namespace OpenFHE
namespace Core
namespace BigInteger

open NativeInteger

/-- The value left in an `SDlimb_t`. -/
def sdlimb (l : Nat) (x : Int) : Int := Int.bmod x (2 ^ (2 * limbBitLength l))

/-- The limb cut from an `SDlimb_t`. -/
def limbOfInt (l : Nat) (t : Int) : Nat := (t % (2 ^ limbBitLength l : Nat)).toNat

namespace Ubint

variable (l : Nat)

/-!
## Rounds
-/

/-- The test that lowers the estimate `qhat`. -/
def tooLarge (vn2 un2 qhat rhat : Nat) : Bool :=
  qhat >>> limbBitLength l ≠ 0 ||
    dlimb l (qhat * vn2) > dlimb l (rhat <<< limbBitLength l) ||| un2

/-- The loop that lowers the estimate; an estimate of zero passes the test. -/
def lowerLoop (vn1 vn2 un2 : Nat) : Nat -> Nat -> Nat
  | 0, _ => 0
  | qhat + 1, rhat =>
      if tooLarge l vn2 un2 (qhat + 1) rhat then
        let rhat := dlimb l (rhat + vn1)
        if rhat >>> limbBitLength l ≠ 0 then qhat else lowerLoop vn1 vn2 un2 qhat rhat
      else qhat + 1

/-- The estimate of the digit `j` when its loop ends. -/
def estimate (vn un : List Nat) (j : Nat) : Option Nat := do
  let n := vn.length
  let vn1 <- vn[n - 1]?
  let vn2 <- vn[n - 2]?
  let un0 <- un[j + n]?
  let un1 <- un[j + n - 1]?
  let un2 <- un[j + n - 2]?
  if vn1 = 0 then none
  else
    let ofl := dlimb l (un0 <<< limbBitLength l) ||| un1
    return lowerLoop l vn1 vn2 un2 (ofl / vn1) (ofl % vn1)

/-- Subtracts `qhat` times `vn` with the borrow `k`; the last `t` comes with the limbs. -/
def subtractLoop (qhat : Nat) : List Nat -> List Nat -> Int -> Option (List Nat × Int)
  | [], _, _ => none
  | u :: un, [], k =>
      let t := sdlimb l (u - k)
      some (limbOfInt l t :: un, t)
  | u :: un, v :: vn, k => do
      let p := dlimb l (qhat * v)
      let t := sdlimb l (u - k - ((p &&& maxLimb l : Nat) : Int))
      let k := sdlimb l (((p >>> limbBitLength l : Nat) : Int) - t >>> limbBitLength l)
      let rest <- subtractLoop qhat un vn k
      return (limbOfInt l t :: rest.1, rest.2)

/-- Adds `vn` back with the carry `k`. -/
def addBackLoop : List Nat -> List Nat -> Int -> Option (List Nat)
  | [], _, _ => none
  | u :: un, [], k => some (limbOfInt l (u + k) :: un)
  | u :: un, v :: vn, k => do
      let t := sdlimb l (u + v + k)
      let rest <- addBackLoop un vn (t >>> limbBitLength l)
      return limbOfInt l t :: rest

/-- One round: the digit `q[j]`, and the limbs `un` after it. -/
def divideRound (vn un : List Nat) (j : Nat) : Option (Nat × List Nat) := do
  let qhat <- estimate l vn un j
  let difference <- subtractLoop l qhat (un.drop j) vn 0
  if difference.2 < 0 then
    let sum <- addBackLoop l difference.1 vn 0
    return (limb l (limb l qhat + maxLimb l), un.take j ++ sum)
  else
    return (limb l qhat, un.take j ++ difference.1)

/-- The rounds from `j - 1` down, with the digits above. -/
def quotientLoop (vn : List Nat) : Nat -> List Nat -> List Nat -> Option (List Nat × List Nat)
  | 0, un, q => some (q, un)
  | j + 1, un, q => do
      let round <- divideRound l vn un j
      quotientLoop vn j round.2 (round.1 :: q)

/-- The rounds from `j - 1` down, when the digits are not kept. -/
def remainderLoop (vn : List Nat) : Nat -> List Nat -> Option (List Nat)
  | 0, un => some un
  | j + 1, un => do
      let round <- divideRound l vn un j
      remainderLoop vn j round.2

/-!
## Long division
-/

/-- The quotient limbs and the rest for a divisor of one limb. -/
def shortLoop (v : Nat) : List Nat -> List Nat × Nat
  | [] => ([], 0)
  | x :: u =>
      let above := shortLoop v u
      let ofl := dlimb l (above.2 <<< limbBitLength l) ||| x
      (limb l (ofl / v) :: above.1, ofl % v)

/-- The amount `sl` that moves the top bit of the divisor to the top of its limb. -/
def normalShift (v : List Nat) : Nat :=
  limbBitLength l - getMSB (v.getLastD 0)

def normalDivisor (v : List Nat) : List Nat :=
  (shiftLoop l (normalShift l v) v 0).1

/-- The dividend shifted as the divisor, with one more limb. -/
def normalDividend (u v : List Nat) : List Nat :=
  let shifted := shiftLoop l (normalShift l v) u 0
  shifted.1 ++ [limb l shifted.2]

/-- The first `n` limbs of `un`, shifted back by `sl`. -/
def shiftBack (sl n : Nat) (un : List Nat) : Option (List Nat) := do
  let first <- un[0]?
  let last <- un[n - 1]?
  let low := shiftLoop l (limbBitLength l - sl) ((un.drop 1).take (n - 1)) (first >>> sl)
  return low.1 ++ [last >>> sl]

/-- `divqr_vect`, for a dividend that is at least as long as the divisor. -/
def divqrVect (u v : Ubint) : Option (Ubint × Ubint) :=
  match v.value with
  | [] => none
  | [v0] =>
      if v0 = 0 then none
      else
        let short := shortLoop l v0 u.value
        some (ofLimbs l short.1, ofLimb (limb l short.2))
  | _ =>
      if u.value.length < v.value.length then none
      else do
        let rounds <- quotientLoop l (normalDivisor l v.value)
          (u.value.length - v.value.length + 1) (normalDividend l u.value v.value) []
        let r <- shiftBack l (normalShift l v.value) v.value.length rounds.2
        return (ofLimbs l rounds.1, ofLimbs l r)

def divqVect (u v : Ubint) : Option Ubint :=
  match v.value with
  | [] => none
  | [v0] => if v0 = 0 then none else some (ofLimbs l (shortLoop l v0 u.value).1)
  | _ =>
      if u.value.length < v.value.length then none
      else do
        let rounds <- quotientLoop l (normalDivisor l v.value)
          (u.value.length - v.value.length + 1) (normalDividend l u.value v.value) []
        return ofLimbs l rounds.1

def divrVect (u v : Ubint) : Option Ubint :=
  match v.value with
  | [] => none
  | [v0] => if v0 = 0 then none else some (ofLimb (limb l (shortLoop l v0 u.value).2))
  | _ =>
      if u.value.length < v.value.length then none
      else do
        let un <- remainderLoop l (normalDivisor l v.value)
          (u.value.length - v.value.length + 1) (normalDividend l u.value v.value)
        let r <- shiftBack l (normalShift l v.value) v.value.length un
        return ofLimbs l r

/-!
## Operations
-/

def dividedBy (x b : Ubint) : Option (Except String Ubint) :=
  if b.msb = 0 then some (.error "Divisor is zero")
  else if b.msb > x.msb then some (.ok zero)
  else if b.msb = x.msb ∧ b.value.getLast? = x.value.getLast? then some (.ok (ofLimb 1))
  else (divqVect l x b).map .ok

/-- What `MultiplyAndRound` and `DivideAndRound` do with the dividend `t`. -/
def roundedQuotient (t q : Ubint) : Option Ubint := do
  let halfQ <- rShift l q 1
  let c <- compare t halfQ
  if c <= 0 then return zero
  else if t.msb = halfQ.msb ∨ t.msb = q.msb ∧ t.value.getLastD 0 < q.value.getLastD 0 then
    return ofLimb 1
  else
    let qr <- divqrVect l t q
    let c <- compare qr.2 halfQ
    if c > 0 then return add l qr.1 (ofLimb 1)
    else return qr.1

def multiplyAndRound (x p q : Ubint) : Option (Except String Ubint) :=
  if q.msb = 0 then some (.error "MultiplyAndRound() Divisor is zero")
  else (roundedQuotient l (mul l x p) q).map .ok

def divideAndRound (x q : Ubint) : Option (Except String Ubint) :=
  if q.msb = 0 then some (.error "DivideAndRound() Divisor is zero")
  else (roundedQuotient l x q).map .ok

def mod (x modulus : Ubint) : Option (Except String Ubint) :=
  if modulus.msb = 0 then some (.error "Mod() using zero modulus")
  else do
    let c <- compare x modulus
    if c < 0 then return .ok x
    else if modulus.msb = 2 ∧ modulus.value[0]? = some 2 then
      let x0 <- x.value[0]?
      return .ok (ofLimb (x0 &&& 1))
    else (divrVect l x modulus).map .ok

end Ubint

end BigInteger
end Core
end OpenFHE
