import OpenFHE.Hal.Residues

/-!
# Secret sharing for threshold decryption with aborts

`ShareKeys` splits the private key of a party among the other parties, and
`RecoverSharedKey` rebuilds it from the shares of those that respond.  The uniform
generator of a call is the sequence of its draws.
-/

namespace OpenFHE
namespace CryptoContext

open OpenFHE.Core Foundation Hal NativeInteger

/-- A thrown exception with its text, or an access outside of a container. -/
inductive Failure where
  | thrown (message : String)
  | undefined
deriving DecidableEq, Repr

inductive ShareType where
  | additive
  | shamir
  | other
deriving DecidableEq, Repr

abbrev SecretShares := List (Nat × DCRTPoly)

def orUndefined {α : Type} : Option α -> Except Failure α
  | none => .error .undefined
  | some x => .ok x

/-- The conditions on `N` and `threshold` that both operations start with. -/
def checkParties (moduli : List Nat) (N threshold : Nat) : Except Failure Unit :=
  if N < 2 then .error (.thrown "Number of parties needs to be at least 3 for aborts")
  else if threshold <= N / 2 then
    .error (.thrown "Threshold required to be majority (more than N/2)")
  else if moduli.any fun q => N >= q then
    .error (.thrown "Number of parties N needs to be less than DCRTPoly moduli")
  else .ok ()

def otherParties (N index : Nat) : List Nat :=
  (List.range' 1 N).filter fun i => i ≠ index

/-!
## Additive shares
-/

/-- `SecretSharesVec`: the running sum comes first, the missing part last. -/
def additiveVector (draw : Nat -> DCRTPoly) (sk : DCRTPoly) (N : Nat) :
    Option (List DCRTPoly) := do
  let numOfShares := N - 1
  let s <- (List.range' 1 (numOfShares - 1 - 1)).foldlM
    (fun (s : DCRTPoly × List DCRTPoly) i => do
      let rsum <- DCRTPoly.plusEq s.1 (draw i)
      return (rsum, s.2 ++ [draw i])) (draw 0, [draw 0])
  let last <- DCRTPoly.minus sk s.1
  return s.2 ++ [last]

/-- The entries of the vector in order, one for each other party. -/
def additiveShares (draw : Nat -> DCRTPoly) (sk : DCRTPoly) (N index : Nat) :
    Option SecretShares := do
  let vec <- additiveVector draw sk N
  (otherParties N index).zipIdx.mapM fun party => do
    let share <- vec[party.2]?
    return (party.1, share)

/-!
## Shamir shares
-/

structure EvalState where
  powtemp : Nat
  fevalpoly : List Nat
deriving DecidableEq, Repr

/-- One power of the party index times one coefficient, added without a reduction. -/
def evalStep (q n : Nat) (fs : List DCRTPoly) (k i : Nat) (s : EvalState) (t : Nat) :
    Option EvalState := do
  let powtemp := modMul s.powtemp i q
  let powtempvec := List.replicate n (powtemp % q)
  let f <- fs[t]?
  let fst <- f[k]?
  let fevalpoly <- (List.range n).mapM fun d => do
    let sum <- s.fevalpoly[d]?
    let p <- powtempvec[d]?
    let c <- fst.values[d]?
    return addFast sum (modMul p c q)
  return { powtemp := powtemp, fevalpoly := fevalpoly }

def evalTower (cache : Poly.TableCache) (n threshold : Nat) (fs : List DCRTPoly) (i k q : Nat) :
    Option Poly := do
  let s <- (List.range' 1 (threshold - 1)).foldlM (evalStep q n fs k i)
    { powtemp := 1, fevalpoly := List.replicate n 0 }
  let fevalpoly : Poly := { modulus := q, format := .COEFFICIENT, values := s.fevalpoly }
  let f <- fs[0]?
  let secret <- f[k]?
  let fevalpoly <- Poly.plusEq fevalpoly secret
  Poly.setFormat cache fevalpoly .COEFFICIENT

def shamirShares (cache : Poly.TableCache) (moduli : List Nat) (n : Nat)
    (draw : Nat -> DCRTPoly) (sk : DCRTPoly) (N threshold index : Nat) :
    Option SecretShares := do
  let secret <- DCRTPoly.setFormat cache sk .COEFFICIENT
  let fs := secret :: (List.range (threshold - 1)).map draw
  (otherParties N index).mapM fun i => do
    let feval <- moduli.zipIdx.mapM fun tower => evalTower cache n threshold fs i tower.2 tower.1
    return (i, feval)

def shareKeys (cache : Poly.TableCache) (moduli : List Nat) (n : Nat)
    (draw : Nat -> DCRTPoly) (sk : DCRTPoly) (N threshold index : Nat) (shareType : ShareType) :
    Except Failure SecretShares := do
  checkParties moduli N threshold
  match shareType with
  | .additive => orUndefined (additiveShares draw sk N index)
  | .shamir => orUndefined (shamirShares cache moduli n draw sk N threshold index)
  | .other => .ok []

/-!
## Recovery
-/

/-- The parties whose shares are there, in order. -/
def clientIndexes (shares : SecretShares) (N : Nat) : List Nat :=
  (List.range' 1 N).filter fun i => (shares.lookup i).isSome

def sumOfElems (moduli : List Nat) (n : Nat) (shares : SecretShares) (clients : List Nat)
    (threshold : Nat) : Option DCRTPoly :=
  (List.range threshold).foldlM (fun sum i => do
    let party <- clients[i]?
    let share <- shares.lookup party
    DCRTPoly.plusEq sum share) (DCRTPoly.zero moduli n .EVALUATION)

/-- The polynomial with the value one at every position. -/
def addILElementOne (a : Poly) : Poly :=
  { a with values := a.values.map fun x => modAddFast x 1 a.modulus }

/-- One factor of a Lagrange coefficient, multiplied to every position. -/
def lagrangeStep (q cj : Nat) (multpoly : Poly) (ci : Nat) : Option Poly :=
  if ci = cj then some multpoly
  else do
    let denominator := if cj < ci then ci - cj else subFast q (cj - ci)
    let denomInv <- modInverse denominator q
    return { multpoly with
      values := multpoly.values.map fun x => modMulFastEq x (modMul ci denomInv q) q }

def lagrangeTower (cache : Poly.TableCache) (n : Nat) (clients : List Nat) (cj q : Nat) :
    Option Poly := do
  let multpoly <- clients.foldlM (lagrangeStep q cj)
    (addILElementOne (Poly.zero q n .COEFFICIENT))
  Poly.setFormat cache multpoly .EVALUATION

def lagrangeCoeff (cache : Poly.TableCache) (moduli : List Nat) (n : Nat)
    (clients : List Nat) (cj : Nat) : Option DCRTPoly := do
  let coeff <- moduli.mapM fun q => lagrangeTower cache n clients cj q
  DCRTPoly.setFormat cache coeff .COEFFICIENT

def lagrangeSumTower (n : Nat) (shares : SecretShares) (clients : List Nat)
    (coeffs : List DCRTPoly) (k q : Nat) : Option Poly :=
  (List.range clients.length).foldlM (fun sum i => do
    let coeffs_i <- coeffs[i]?
    let coeff <- coeffs_i[k]?
    let party <- clients[i]?
    let shares_i <- shares.lookup party
    let share <- shares_i[k]?
    let product <- Poly.timesNoCheck coeff share
    Poly.plusEq sum product) (Poly.zero q n .COEFFICIENT)

def lagrangeSum (cache : Poly.TableCache) (moduli : List Nat) (n : Nat)
    (shares : SecretShares) (clients : List Nat) : Option DCRTPoly := do
  let coeffs <- clients.mapM fun cj => lagrangeCoeff cache moduli n clients cj
  let sum <- moduli.zipIdx.mapM fun tower =>
    lagrangeSumTower n shares clients coeffs tower.2 tower.1
  DCRTPoly.setFormat cache sum .EVALUATION

/-- The new private element of the key `sk`. -/
def recoverSharedKey (cache : Poly.TableCache) (moduli : List Nat) (n : Nat)
    (sk : DCRTPoly) (shares : SecretShares) (N threshold : Nat) (shareType : ShareType) :
    Except Failure DCRTPoly := do
  if shares.length < threshold then
    throw (.thrown "Number of shares available less than threshold of the sharing scheme")
  checkParties moduli N threshold
  let clients := clientIndexes shares N
  if clients.length < threshold then
    throw (.thrown "Not enough shares to recover the secret")
  match shareType with
  | .additive => orUndefined (sumOfElems moduli n shares clients threshold)
  | .shamir => orUndefined (lagrangeSum cache moduli n shares clients)
  | .other => .ok sk

end CryptoContext
end OpenFHE
