import Mathlib.Data.List.Basic
import Mathlib.Data.Nat.NthRoot.Defs
import Mathlib.Algebra.Group.Nat.Defs

/-!
# The secure hash algorithm

SHA-256 of FIPS 180-4 for messages of whole bytes: padding, parsing, the message schedule,
the compression of one block and the chain over the blocks.
-/

namespace OpenFHE
namespace Foundation
namespace SecureHash

abbrev Byte := BitVec 8

abbrev Word := BitVec 32

abbrev Block := Fin 16 -> Word

/-- The eight working variables, or the eight words of a hash value. -/
structure State where
  a : Word
  b : Word
  c : Word
  d : Word
  e : Word
  f : Word
  g : Word
  h : Word
deriving DecidableEq

namespace State

def words (s : State) : List Word := [s.a, s.b, s.c, s.d, s.e, s.f, s.g, s.h]

def add (s t : State) : State :=
  ⟨s.a + t.a, s.b + t.b, s.c + t.c, s.d + t.d, s.e + t.e, s.f + t.f, s.g + t.g, s.h + t.h⟩

theorem words_injective {s t : State} (h : s.words = t.words) : s = t := by
  cases s with
  | mk a b c d e f g h' =>
      cases t with
      | mk a' b' c' d' e' f' g' h'' =>
          simpa [words] using h

end State

/-!
## Functions and constants
-/

def ch (x y z : Word) : Word := (x &&& y) ^^^ (~~~x &&& z)

def maj (x y z : Word) : Word := (x &&& y) ^^^ (x &&& z) ^^^ (y &&& z)

def bigSigma0 (x : Word) : Word := x.rotateRight 2 ^^^ x.rotateRight 13 ^^^ x.rotateRight 22

def bigSigma1 (x : Word) : Word := x.rotateRight 6 ^^^ x.rotateRight 11 ^^^ x.rotateRight 25

def smallSigma0 (x : Word) : Word := x.rotateRight 7 ^^^ x.rotateRight 18 ^^^ x >>> 3

def smallSigma1 (x : Word) : Word := x.rotateRight 17 ^^^ x.rotateRight 19 ^^^ x >>> 10

/-- The first sixty-four primes: the numbers below 312 without a smaller divisor up to 17. -/
def primes : List Nat :=
  (List.range' 2 310).filter fun p => (List.range' 2 16).all fun d => p % d != 0 || p == d

/-- The first 32 bits of the fractional part of the `k`-th root. -/
def rootBits (k p : Nat) : Word := BitVec.ofNat 32 (Nat.nthRoot k (p * 2 ^ (32 * k)))

/-- The constant of round `t`, from the cube root of a prime. -/
def constant (t : Nat) : Word := rootBits 3 (primes.getD t 0)

/-- The initial hash value, from the square roots of the first eight primes. -/
def initial : State :=
  ⟨rootBits 2 2, rootBits 2 3, rootBits 2 5, rootBits 2 7, rootBits 2 11, rootBits 2 13,
    rootBits 2 17, rootBits 2 19⟩

/-!
## Padding and parsing
-/

def zeroBits (l : Nat) : Nat := (959 - l % 512) % 512

theorem zeroBits_spec (l : Nat) :
    (l + 1 + zeroBits l) % 512 = 448 ∧
      forall k, (l + 1 + k) % 512 = 448 -> zeroBits l <= k := by
  unfold zeroBits
  constructor
  · omega
  · intro k hk
    omega

def zeroBytes (length : Nat) : Nat := (zeroBits (8 * length) - 7) / 8

/-- The eight bytes of a bit length, the most significant first. -/
def lengthBytes (l : Nat) : List Byte :=
  (List.range 8).map fun i => BitVec.ofNat 8 (l / 2 ^ (8 * (7 - i)))

def pad (message : List Byte) : List Byte :=
  message ++ 128#8 :: List.replicate (zeroBytes message.length) 0#8 ++
    lengthBytes (8 * message.length)

/-- The word of four bytes, the most significant first. -/
def bigEndian (b0 b1 b2 b3 : Byte) : Word := b0 ++ b1 ++ b2 ++ b3

theorem bigEndian_getLsbD (b0 b1 b2 b3 : Byte) (i : Nat) :
    (bigEndian b0 b1 b2 b3).getLsbD i =
      if i < 8 then b3.getLsbD i else if i < 16 then b2.getLsbD (i - 8)
      else if i < 24 then b1.getLsbD (i - 16) else b0.getLsbD (i - 24) := by
  have h16 : i - 8 < 8 <-> i < 16 := by omega
  have h24 : i - 16 < 8 <-> i < 24 := by omega
  have hlast : (bigEndian b0 b1 b2 b3).getLsbD i =
      if i < 8 then b3.getLsbD i else (b0 ++ b1 ++ b2).getLsbD (i - 8) :=
    BitVec.getLsbD_append
  have hthird : (b0 ++ b1 ++ b2).getLsbD (i - 8) =
      if i - 8 < 8 then b2.getLsbD (i - 8) else (b0 ++ b1).getLsbD (i - 8 - 8) :=
    BitVec.getLsbD_append
  have hsecond : (b0 ++ b1).getLsbD (i - 8 - 8) =
      if i - 8 - 8 < 8 then b1.getLsbD (i - 8 - 8) else b0.getLsbD (i - 8 - 8 - 8) :=
    BitVec.getLsbD_append
  rw [hlast, hthird, hsecond]
  simp only [Nat.sub_sub, Nat.reduceAdd, h16, h24]

def wordAt (load : Byte -> Byte -> Byte -> Byte -> Word) (bytes : List Byte) (m : Nat) : Word :=
  load (bytes.getD m 0#8) (bytes.getD (m + 1) 0#8) (bytes.getD (m + 2) 0#8)
    (bytes.getD (m + 3) 0#8)

def blocksOf (load : Byte -> Byte -> Byte -> Byte -> Word) (bytes : List Byte) (count : Nat) :
    List Block :=
  (List.range count).map fun n t => wordAt load bytes (64 * n + 4 * t)

@[simp] theorem lengthBytes_length (l : Nat) : (lengthBytes l).length = 8 := by
  simp [lengthBytes]

theorem pad_length (message : List Byte) :
    (pad message).length = message.length + 9 + zeroBytes message.length := by
  simp only [pad, List.length_append, List.length_cons, List.length_replicate,
    lengthBytes_length]
  omega

theorem pad_length_mod (message : List Byte) : (pad message).length % 64 = 0 := by
  rw [pad_length, zeroBytes, zeroBits]
  omega

def parse (message : List Byte) : List Block :=
  blocksOf bigEndian (pad message) ((pad message).length / 64)

/-!
## The hash computation
-/

def schedule (block : Block) (t : Nat) : Word :=
  if h : t < 16 then block ⟨t, h⟩
  else
    smallSigma1 (schedule block (t - 2)) + schedule block (t - 7) +
      smallSigma0 (schedule block (t - 15)) + schedule block (t - 16)

/-- One round with the constant `k` and the schedule word `w`. -/
def round (s : State) (k w : Word) : State :=
  let t1 := s.h + bigSigma1 s.e + ch s.e s.f s.g + k + w
  let t2 := bigSigma0 s.a + maj s.a s.b s.c
  ⟨t1 + t2, s.a, s.b, s.c, s.d + t1, s.e, s.f, s.g⟩

def rounds (block : Block) (s : State) (t : Nat) : State :=
  (List.range t).foldl (fun s i => round s (constant i) (schedule block i)) s

def compress (s : State) (block : Block) : State := s.add (rounds block s 64)

def chain (blocks : List Block) : State := blocks.foldl compress initial

/-- The bytes of a word, the most significant first. -/
def bytes (x : Word) : List Byte :=
  [x.extractLsb' 24 8, x.extractLsb' 16 8, x.extractLsb' 8 8, x.extractLsb' 0 8]

theorem bytes_injective {x y : Word} (h : bytes x = bytes y) : x = y := by
  simp only [bytes, List.cons.injEq, and_true] at h
  rcases h with ⟨h24, h16, h8, h0⟩
  have hbyte {s : Nat} (heq : x.extractLsb' s 8 = y.extractLsb' s 8) :
      x.toNat / 2 ^ s % 256 = y.toNat / 2 ^ s % 256 := by
    have hnat := congrArg BitVec.toNat heq
    simpa [BitVec.extractLsb'_toNat, Nat.shiftRight_eq_div_pow] using hnat
  have hx := x.isLt
  have hy := y.isLt
  have hbyte24 := hbyte h24
  have hbyte16 := hbyte h16
  have hbyte8 := hbyte h8
  have hbyte0 := hbyte h0
  apply BitVec.eq_of_toNat_eq
  omega

theorem flatMap_injective {α β : Type _} {f : α -> List β} {k : Nat}
    (hlength : forall x, (f x).length = k) (hf : forall x y, f x = f y -> x = y) {l l' : List α}
    (hsame : l.length = l'.length) (h : l.flatMap f = l'.flatMap f) : l = l' := by
  induction l generalizing l' with
  | nil =>
      exact (List.eq_nil_of_length_eq_zero hsame.symm).symm
  | cons x l ih =>
      cases l' with
      | nil =>
          cases hsame
      | cons y l' =>
          rw [List.flatMap_cons, List.flatMap_cons] at h
          rcases List.append_inj h ((hlength x).trans (hlength y).symm) with ⟨hxy, hrest⟩
          rw [hf x y hxy, ih (by simpa using hsame) hrest]

theorem state_bytes_length (s : State) : (s.words.flatMap bytes).length = 32 :=
  rfl

theorem state_bytes_injective {s t : State}
    (h : s.words.flatMap bytes = t.words.flatMap bytes) : s = t := by
  apply State.words_injective
  exact flatMap_injective (k := 4) (fun _ => rfl) (fun _ _ => bytes_injective) rfl h

def digest (message : List Byte) : List Byte := (chain (parse message)).words.flatMap bytes

def Collide (blocks blocks' : List Block) : Prop :=
  blocks ≠ blocks' ∧ chain blocks = chain blocks'

end SecureHash
end Foundation
end OpenFHE
