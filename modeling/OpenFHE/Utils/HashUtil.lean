import OpenFHE.Core.NativeInteger.ModularArithmetic
import OpenFHE.Foundation.Loop
import OpenFHE.Foundation.SecureHash
import Mathlib.Data.List.GetD
import Mathlib.Tactic.IntervalCases

/-!
# Hashing

`SHA256` appends the bytes of a digest to a vector and `HashString` writes a digest in
hexadecimal.  Both contain the same compression loop; they differ in the byte after the
message and in how a character becomes a word.
-/

namespace OpenFHE
namespace Utils
namespace HashUtil

open Core.NativeInteger Foundation SecureHash

def k_256 : List Word :=
  [0x428a2f98, 0x71374491, 0xb5c0fbcf, 0xe9b5dba5, 0x3956c25b, 0x59f111f1, 0x923f82a4, 0xab1c5ed5,
   0xd807aa98, 0x12835b01, 0x243185be, 0x550c7dc3, 0x72be5d74, 0x80deb1fe, 0x9bdc06a7, 0xc19bf174,
   0xe49b69c1, 0xefbe4786, 0x0fc19dc6, 0x240ca1cc, 0x2de92c6f, 0x4a7484aa, 0x5cb0a9dc, 0x76f988da,
   0x983e5152, 0xa831c66d, 0xb00327c8, 0xbf597fc7, 0xc6e00bf3, 0xd5a79147, 0x06ca6351, 0x14292967,
   0x27b70a85, 0x2e1b2138, 0x4d2c6dfc, 0x53380d13, 0x650a7354, 0x766a0abb, 0x81c2c92e, 0x92722c85,
   0xa2bfe8a1, 0xa81a664b, 0xc24b8b70, 0xc76c51a3, 0xd192e819, 0xd6990624, 0xf40e3585, 0x106aa070,
   0x19a4c116, 0x1e376c08, 0x2748774c, 0x34b0bcb5, 0x391c0cb3, 0x4ed8aa4a, 0x5b9cca4f, 0x682e6ff3,
   0x748f82ee, 0x78a5636f, 0x84c87814, 0x8cc70208, 0x90befffa, 0xa4506ceb, 0xbef9a3f7, 0xc67178f2]

/-- `h_256` before the first block. -/
def h_256 : State :=
  ⟨0x6a09e667, 0xbb67ae85, 0x3c6ef372, 0xa54ff53a, 0x510e527f, 0x9b05688c, 0x1f83d9ab, 0x5be0cd19⟩

/-- The macro `RIGHT_ROT` on 32 bits. -/
def rightRot (x : Word) (n : Nat) : Word := x >>> (n % 32) ||| x <<< (32 - n % 32)

/-- The loop that finds `pad_len`, a `uint16_t`. -/
def padLength (m_len : Nat) : Option Nat :=
  whileFuel (fun pad_len => word (m_len + pad_len) % 512 != 448)
    (fun pad_len => some ((pad_len + 1) % 2 ^ 16)) (2 ^ 16) 1

/-- The eight characters that are pushed for `m_len`. -/
def lengthCharacters (m_len : Nat) : List Byte :=
  [BitVec.ofNat 8 ((m_len &&& 0xff00000000000000) >>> 56),
   BitVec.ofNat 8 ((m_len &&& 0x00ff000000000000) >>> 48),
   BitVec.ofNat 8 ((m_len &&& 0x0000ff0000000000) >>> 40),
   BitVec.ofNat 8 ((m_len &&& 0x000000ff00000000) >>> 32),
   BitVec.ofNat 8 ((m_len &&& 0x00000000ff000000) >>> 24),
   BitVec.ofNat 8 ((m_len &&& 0x0000000000ff0000) >>> 16),
   BitVec.ofNat 8 ((m_len &&& 0x000000000000ff00) >>> 8),
   BitVec.ofNat 8 (m_len &&& 0x00000000000000ff)]

/-- The message with its padding, which starts with the character `first`. -/
def padded (first : Byte) (message : List Byte) : Option (List Byte) :=
  let m_len := word (message.length * 8)
  (padLength m_len).map fun pad_len =>
    message ++ first :: List.replicate (pad_len / 8 - 1) 0#8 ++ lengthCharacters m_len

/-- `w[counter]` from four characters, each made a word by `convert`. -/
def loadWord (convert : Byte -> Word) (b0 b1 b2 b3 : Byte) : Word :=
  (convert b0 <<< 24) ^^^ (convert b1 <<< 16) ^^^ (convert b2 <<< 8) ^^^ convert b3

/-- The words of block `n`; `at` throws outside of the message. -/
def loadBlock (convert : Byte -> Word) (message : List Byte) (n : Nat) : Option (List Word) :=
  (List.range 16).mapM fun counter => do
    let m := 64 * n + 4 * counter
    let b0 <- message[m]?
    let b1 <- message[m + 1]?
    let b2 <- message[m + 2]?
    let b3 <- message[m + 3]?
    return loadWord convert b0 b1 b2 b3

/-- The loop that fills `w[16]` to `w[63]`. -/
def extendWords (w : List Word) : Option (List Word) :=
  (List.range' 16 48).foldlM (fun w i => do
    let w15 <- w[i - 15]?
    let w2 <- w[i - 2]?
    let w16 <- w[i - 16]?
    let w7 <- w[i - 7]?
    let s0 := rightRot w15 7 ^^^ rightRot w15 18 ^^^ w15 >>> 3
    let s1 := rightRot w2 17 ^^^ rightRot w2 19 ^^^ w2 >>> 10
    return w ++ [w16 + s0 + w7 + s1]) w

/-- One pass of the compression loop over the variables `a` to `h`. -/
def compressStep (w : List Word) (s : State) (i : Nat) : Option State := do
  let k <- k_256[i]?
  let wi <- w[i]?
  let S1 := rightRot s.e 6 ^^^ rightRot s.e 11 ^^^ rightRot s.e 25
  let ch := (s.e &&& s.f) ^^^ (~~~s.e &&& s.g)
  let temp1 := s.h + S1 + ch + k + wi
  let S0 := rightRot s.a 2 ^^^ rightRot s.a 13 ^^^ rightRot s.a 22
  let maj := (s.a &&& s.b) ^^^ (s.a &&& s.c) ^^^ (s.b &&& s.c)
  let temp2 := S0 + maj
  return ⟨temp1 + temp2, s.a, s.b, s.c, s.d + temp1, s.e, s.f, s.g⟩

/-- The loop over the blocks; the number of bits of the message is a `size_t`. -/
def compressBlocks (convert : Byte -> Word) (message : List Byte) : Option State :=
  (List.range (word (message.length * 8) / 512)).foldlM (fun h n => do
    let first <- loadBlock convert message n
    let w <- extendWords first
    let s <- (List.range 64).foldlM (compressStep w) h
    return h.add s) h_256

/-- A `char` made a word: characters are signed. -/
def signExtended (b : Byte) : Word := b.signExtend 32

def masked (b : Byte) : Word := b.signExtend 32 &&& 0xff

/-- The four values that `SHA256` pushes for one word. -/
def digestValues (x : Word) : List Int :=
  [((x &&& 0xff000000) >>> 24).toNat, ((x &&& 0x00ff0000) >>> 16).toNat,
   ((x &&& 0x0000ff00) >>> 8).toNat, (x &&& 0x000000ff).toNat]

/-- `SHA256`, which appends to `digest`. -/
def sha256 (message : List Byte) (digest : List Int) : Option (List Int) := do
  let message <- padded 0#8 message
  let h <- compressBlocks signExtended message
  return digest ++ h.words.flatMap digestValues

/-- A word in hexadecimal at width eight, filled with zeros. -/
def hexWord (x : Word) : List Char := (Nat.toDigits 16 x.toNat).leftpad 8 '0'

def hashString (message : List Byte) : Option String := do
  let message <- padded 0x80#8 message
  let h <- compressBlocks masked message
  return String.ofList (h.words.flatMap hexWord)

/-!
## Padding
-/

theorem rightRot_eq (x : Word) (n : Nat) : rightRot x n = x.rotateRight n :=
  rfl

theorem h_256_eq : h_256 = initial := by
  decide +kernel

theorem k_256_eq : k_256 = (List.range 64).map constant := by
  decide +kernel

theorem k_256_get {i : Nat} (hi : i < 64) : k_256[i]? = some (constant i) := by
  rw [k_256_eq, List.getElem?_map, List.getElem?_range hi]
  rfl

theorem padLength_eq (length : Nat) :
    padLength (word (length * 8)) = some (zeroBits (8 * length) + 1) := by
  have hzero : zeroBits (8 * length) < 512 := Nat.mod_lt _ (by decide)
  have hword : forall p, word (word (length * 8) + p) % 512 = (8 * length + p) % 512 := by
    intro p
    simp only [word, maxBits]
    omega
  rcases whileFuel_spec (c := fun pad_len => word (word (length * 8) + pad_len) % 512 != 448)
    (f := fun pad_len => some ((pad_len + 1) % 2 ^ 16))
    (fun p => 1 <= p ∧ p <= zeroBits (8 * length) + 1)
    (fun p => zeroBits (8 * length) + 1 - p) (by
      intro p hp hcond
      rcases hp with ⟨hlow, hhigh⟩
      have hmore : (8 * length + p) % 512 ≠ 448 := by
        rw [← hword]
        exact bne_iff_ne.mp hcond
      have hne : p ≠ zeroBits (8 * length) + 1 := by
        intro heq
        have hspec := (zeroBits_spec (8 * length)).left
        rw [heq] at hmore
        omega
      refine ⟨p + 1, ?_, by omega, by omega⟩
      rw [Nat.mod_eq_of_lt (by omega)]) (2 ^ 16) 1 (by omega) (by omega) with
    ⟨p, hrun, hp, hstop⟩
  have hend : (8 * length + p) % 512 = 448 := by
    rw [← hword]
    simpa using hstop
  have hleast := (zeroBits_spec (8 * length)).right (p - 1) (by
    rw [Nat.add_assoc, Nat.add_sub_cancel' hp.1]
    exact hend)
  have heq : p = zeroBits (8 * length) + 1 := by omega
  rw [padLength, hrun, heq]

theorem maskedByte (x s : Nat) : (x &&& 255 <<< s) >>> s = x / 2 ^ s % 256 := by
  rw [Nat.shiftRight_and_distrib, Nat.shiftLeft_shiftRight, Nat.shiftRight_eq_div_pow]
  exact Nat.and_two_pow_sub_one_eq_mod _ 8

theorem lengthCharacters_eq (length : Nat) :
    lengthCharacters (word (length * 8)) = SecureHash.lengthBytes (8 * length) := by
  have hbyte : forall s, s + 8 <= 64 ->
      BitVec.ofNat 8 ((word (length * 8) &&& 255 <<< s) >>> s) =
        BitVec.ofNat 8 (8 * length / 2 ^ s) := by
    intro s hs
    apply BitVec.eq_of_toNat_eq
    rw [BitVec.toNat_ofNat, BitVec.toNat_ofNat, maskedByte, Nat.mod_mod, word, maxBits,
      Nat.mul_comm length 8]
    have hsplit : 2 ^ 64 = 2 ^ s * 2 ^ (64 - s) := by
      rw [← pow_add]
      congr 1
      omega
    rw [hsplit, Nat.mod_mul_right_div_self, Nat.mod_mod_of_dvd]
    exact pow_dvd_pow 2 (by omega : 8 <= 64 - s)
  have h0 := hbyte 0 (by decide)
  rw [Nat.shiftLeft_zero, Nat.shiftRight_zero] at h0
  unfold lengthCharacters SecureHash.lengthBytes
  rw [show (0xff00000000000000 : Nat) = 255 <<< 56 by decide, hbyte 56 (by decide),
    show (0x00ff000000000000 : Nat) = 255 <<< 48 by decide, hbyte 48 (by decide),
    show (0x0000ff0000000000 : Nat) = 255 <<< 40 by decide, hbyte 40 (by decide),
    show (0x000000ff00000000 : Nat) = 255 <<< 32 by decide, hbyte 32 (by decide),
    show (0x00000000ff000000 : Nat) = 255 <<< 24 by decide, hbyte 24 (by decide),
    show (0x0000000000ff0000 : Nat) = 255 <<< 16 by decide, hbyte 16 (by decide),
    show (0x000000000000ff00 : Nat) = 255 <<< 8 by decide, hbyte 8 (by decide),
    show (0x00000000000000ff : Nat) = 255 by decide, h0]
  rfl

/-- The message, the character `first`, the zeros and the length. -/
def paddedBytes (first : Byte) (message : List Byte) : List Byte :=
  message ++ first :: List.replicate (zeroBytes message.length) 0#8 ++
    SecureHash.lengthBytes (8 * message.length)

theorem padded_eq (first : Byte) (message : List Byte) :
    padded first message = some (paddedBytes first message) := by
  have hzeros : (zeroBits (8 * message.length) + 1) / 8 - 1 = zeroBytes message.length := by
    unfold zeroBytes zeroBits
    omega
  unfold padded
  dsimp only
  rw [padLength_eq, lengthCharacters_eq, Option.map_some, hzeros]
  rfl

theorem paddedBytes_length (first : Byte) (message : List Byte) :
    (paddedBytes first message).length = (pad message).length := by
  simp only [paddedBytes, pad, List.length_append, List.length_cons]

/-!
## The compression loop
-/

section Compression

variable {convert : Byte -> Word} {message : List Byte}

variable (convert) in
theorem loadBlock_spec {n : Nat} (hn : 64 * (n + 1) <= message.length) :
    exists w, loadBlock convert message n = some w ∧ w.length = 16 ∧
      forall t, t < 16 -> w[t]? =
        some (wordAt (loadWord convert) message (64 * n + 4 * t)) := by
  have hread : forall m, m < message.length -> message[m]? = some (message.getD m 0#8) := by
    intro m hm
    rw [List.getElem?_eq_getElem hm, List.getD_eq_getElem _ _ hm]
  rcases mapM_range_spec (n := 16)
    (f := fun counter => do
      let m := 64 * n + 4 * counter
      let b0 <- message[m]?
      let b1 <- message[m + 1]?
      let b2 <- message[m + 2]?
      let b3 <- message[m + 3]?
      return loadWord convert b0 b1 b2 b3)
    (fun t x => x = wordAt (loadWord convert) message (64 * n + 4 * t)) (by
      intro t ht
      refine ⟨_, ?_, rfl⟩
      simp only [hread (64 * n + 4 * t) (by omega), hread (64 * n + 4 * t + 1) (by omega),
        hread (64 * n + 4 * t + 2) (by omega), hread (64 * n + 4 * t + 3) (by omega),
        Option.bind_eq_bind, Option.bind_some]
      rfl) with ⟨w, hw, hlength, hget⟩
  refine ⟨w, hw, hlength, ?_⟩
  intro t ht
  have hentry := List.getElem?_eq_getElem (show t < w.length by omega)
  rw [hentry, hget t _ hentry]

theorem extendWords_spec {w : List Word} (block : Block) (hlength : w.length = 16)
    (hget : forall t (ht : t < 16), w[t]? = some (block ⟨t, ht⟩)) :
    exists w', extendWords w = some w' ∧
      forall t, t < 64 -> w'[t]? = some (schedule block t) := by
  rcases foldlM_range'_spec 16 (n := 48) (s := w)
    (f := fun w i => do
      let w15 <- w[i - 15]?
      let w2 <- w[i - 2]?
      let w16 <- w[i - 16]?
      let w7 <- w[i - 7]?
      let s0 := rightRot w15 7 ^^^ rightRot w15 18 ^^^ w15 >>> 3
      let s1 := rightRot w2 17 ^^^ rightRot w2 19 ^^^ w2 >>> 10
      return w ++ [w16 + s0 + w7 + s1])
    (fun k w => w.length = 16 + k ∧ forall t, t < 16 + k -> w[t]? = some (schedule block t))
    (by
      refine ⟨hlength, ?_⟩
      intro t ht
      rw [hget t ht, schedule, dif_pos ht])
    (by
      rintro k hk w ⟨hlen, hw⟩
      refine ⟨w ++ [schedule block (16 + k)], ?_, ?_, ?_⟩
      · simp only [hw (16 + k - 15) (by omega), hw (16 + k - 2) (by omega),
          hw (16 + k - 16) (by omega), hw (16 + k - 7) (by omega), Option.bind_eq_bind,
          Option.bind_some]
        rw [schedule.eq_def block (16 + k), dif_neg (by omega)]
        simp only [rightRot_eq, smallSigma0, smallSigma1]
        congr 3
        ac_rfl
      · rw [List.length_append, hlen]
        rfl
      · intro t ht
        rcases Nat.lt_or_ge t (16 + k) with hold | hnew
        · rw [List.getElem?_append_left (by omega)]
          exact hw t hold
        · have heq : t = w.length := by omega
          rw [heq, List.getElem?_concat_length, hlen]) with ⟨w', hrun, _, hw'⟩
  exact ⟨w', hrun, hw'⟩

theorem compressRounds_spec {w : List Word} {block : Block}
    (hw : forall t, t < 64 -> w[t]? = some (schedule block t)) (h : State) :
    (List.range 64).foldlM (compressStep w) h = some (rounds block h 64) := by
  rcases foldlM_range_spec (n := 64) (s := h) (f := compressStep w)
    (fun i s => s = rounds block h i) rfl (by
      intro i hi s hs
      refine ⟨_, ?_, rfl⟩
      unfold compressStep
      rw [k_256_get hi, hw i hi, rounds, List.range_succ, List.foldl_append, hs]
      rfl) with ⟨s, hrun, hs⟩
  rw [hrun, hs]

theorem blocksOf_succ (load : Byte -> Byte -> Byte -> Byte -> Word) (bytes : List Byte)
    (n : Nat) : blocksOf load bytes (n + 1) =
      blocksOf load bytes n ++ [fun t : Fin 16 => wordAt load bytes (64 * n + 4 * t)] := by
  rw [blocksOf, List.range_succ, List.map_append]
  rfl

theorem compressBlocks_eq : compressBlocks convert message =
    some (chain (blocksOf (loadWord convert) message (word (message.length * 8) / 512))) := by
  have hcount : 64 * (word (message.length * 8) / 512) <= message.length := by
    have hle : word (message.length * 8) <= message.length * 8 := Nat.mod_le _ _
    omega
  revert hcount
  unfold compressBlocks
  generalize word (message.length * 8) / 512 = count
  intro hcount
  rcases foldlM_range_spec (n := count) (s := h_256)
    (f := fun h n => do
      let first <- loadBlock convert message n
      let w <- extendWords first
      let s <- (List.range 64).foldlM (compressStep w) h
      return h.add s)
    (fun n h => h = chain (blocksOf (loadWord convert) message n)) h_256_eq (by
      intro n hn h hh
      rcases loadBlock_spec convert (show 64 * (n + 1) <= message.length by omega)
        with ⟨first, hfirst, hlength, hget⟩
      rcases extendWords_spec (fun t => wordAt (loadWord convert) message (64 * n + 4 * t))
        hlength hget with ⟨w, hw, hsched⟩
      refine ⟨_, ?_, rfl⟩
      simp only [hfirst, hw, compressRounds_spec hsched, Option.bind_eq_bind,
        Option.bind_some]
      rw [chain, blocksOf_succ, List.foldl_append, hh]
      rfl) with ⟨h, hrun, hh⟩
  rw [hrun, hh]

end Compression

/-!
## Characters and words
-/

theorem loadWord_masked (b0 b1 b2 b3 : Byte) :
    loadWord masked b0 b1 b2 b3 = bigEndian b0 b1 b2 b3 := by
  have hmasked : forall b : Byte, masked b = b.setWidth 32 := by
    intro b
    apply BitVec.eq_of_toNat_eq
    revert b
    decide
  have hhigh (b : Byte) (i : Nat) (h : 8 <= i) : b.getLsbD i = false := BitVec.getLsbD_of_ge b i h
  apply BitVec.eq_of_getLsbD_eq
  intro i hi
  rw [bigEndian_getLsbD]
  unfold loadWord
  simp only [hmasked, BitVec.getLsbD_xor, BitVec.getLsbD_shiftLeft, BitVec.getLsbD_setWidth]
  rcases Nat.lt_or_ge i 8 with h8 | h8
  · simp [hi, h8, show i < 24 by omega, show i < 16 by omega]
  · rcases Nat.lt_or_ge i 16 with h16 | h16
    · simp [hi, h16, hhigh b3 i h8, show i < 24 by omega, show ¬i < 8 by omega,
        show i - 8 < 32 by omega]
    · rcases Nat.lt_or_ge i 24 with h24 | h24
      · simp [hi, h24, hhigh b3 i h8, hhigh b2 (i - 8) (by omega), show ¬i < 8 by omega,
          show ¬i < 16 by omega, show i - 16 < 32 by omega]
      · simp [hi, hhigh b3 i h8, hhigh b2 (i - 8) (by omega), hhigh b1 (i - 16) (by omega),
          show ¬i < 8 by omega, show ¬i < 16 by omega, show ¬i < 24 by omega,
          show i - 24 < 32 by omega]
theorem loadWord_signExtended_bit (b0 b1 b2 : Byte) :
    (loadWord signExtended 0#8 0#8 0#8 0#8).getLsbD 31 = false ∧
      (loadWord signExtended b0 0#8 0#8 0#8).getLsbD 23 = false ∧
      (loadWord signExtended b0 b1 0#8 0#8).getLsbD 15 = false ∧
      (loadWord signExtended b0 b1 b2 0#8).getLsbD 7 = false := by
  simp [loadWord, signExtended]

theorem bigEndian_bit (b0 b1 b2 b3 : Byte) :
    (bigEndian 128#8 b1 b2 b3).getLsbD 31 = true ∧
      (bigEndian b0 128#8 b2 b3).getLsbD 23 = true ∧
      (bigEndian b0 b1 128#8 b3).getLsbD 15 = true ∧
      (bigEndian b0 b1 b2 128#8).getLsbD 7 = true := by
  simp only [bigEndian_getLsbD]
  exact ⟨rfl, rfl, rfl, rfl⟩

/-!
## What is written
-/

theorem digestValues_eq (x : Word) :
    digestValues x = (bytes x).map fun b => (b.toNat : Int) := by
  have hbyte : forall s, (x.toNat &&& 255 <<< s) >>> s = (x.extractLsb' s 8).toNat := by
    intro s
    rw [maskedByte, BitVec.extractLsb'_toNat, Nat.shiftRight_eq_div_pow]
  have h24 := hbyte 24
  have h16 := hbyte 16
  have h8 := hbyte 8
  have h0 := hbyte 0
  rw [Nat.shiftLeft_zero, Nat.shiftRight_zero] at h0
  simp only [digestValues, bytes, List.map_cons, List.map_nil, ← h24, ← h16, ← h8, ← h0]
  rfl

def hexByte (b : Byte) : List Char :=
  [Nat.digitChar (b.toNat / 16), Nat.digitChar (b.toNat % 16)]

def hexDigits (k n : Nat) : List Char :=
  match k with
  | 0 => []
  | k + 1 => hexDigits k (n / 16) ++ [Nat.digitChar (n % 16)]

theorem leftpad_concat (k : Nat) (fill c : Char) (l : List Char) :
    (l ++ [c]).leftpad (k + 1) fill = l.leftpad k fill ++ [c] := by
  simp [List.leftpad]

theorem leftpad_toDigits (k : Nat) {n : Nat} (hn : n < 16 ^ (k + 1)) :
    (Nat.toDigits 16 n).leftpad (k + 1) '0' = hexDigits (k + 1) n := by
  induction k generalizing n with
  | zero =>
      have hlt : n < 16 := by simpa using hn
      rw [Nat.toDigits_of_lt_base hlt, hexDigits, Nat.mod_eq_of_lt hlt]
      rfl
  | succ k ih =>
      have hquot : n / 16 < 16 ^ (k + 1) :=
        Nat.div_lt_of_lt_mul (by rw [Nat.mul_comm, ← pow_succ]; exact hn)
      rw [hexDigits, ← ih hquot, ← leftpad_concat]
      rcases Nat.lt_or_ge n 16 with hlt | hge
      · have hzero : n / 16 = 0 := Nat.div_eq_of_lt hlt
        rw [hzero, Nat.toDigits_of_lt_base hlt, Nat.mod_eq_of_lt hlt]
        simp [List.leftpad, List.replicate_succ']
      · rw [Nat.toDigits_of_base_le (by decide) hge]

theorem hexWord_eq (x : Word) : hexWord x = (bytes x).flatMap hexByte := by
  have hlt : x.toNat < 16 ^ (7 + 1) := x.isLt
  have hbyte : forall s, (x.extractLsb' s 8).toNat = x.toNat / 2 ^ s % 256 := by
    intro s
    rw [BitVec.extractLsb'_toNat, Nat.shiftRight_eq_div_pow]
  have hhigh : forall s, x.toNat / 2 ^ s % 256 / 16 = x.toNat / (2 ^ s * 16) % 16 := by
    intro s
    rw [show 256 = 16 * 16 by rfl, Nat.mod_mul_right_div_self, Nat.div_div_eq_div_mul]
  have hlow : forall s, x.toNat / 2 ^ s % 256 % 16 = x.toNat / 2 ^ s % 16 := by
    intro s
    exact Nat.mod_mod_of_dvd _ (by decide)
  rw [hexWord, leftpad_toDigits 7 hlt]
  simp only [hexDigits, bytes, hexByte, List.flatMap_cons, List.flatMap_nil, hbyte, hhigh,
    hlow, Nat.div_div_eq_div_mul]
  simp

theorem hexByte_injective {b b' : Byte} (h : hexByte b = hexByte b') : b = b' := by
  have hdigit : forall m n : Fin 16, Nat.digitChar m = Nat.digitChar n -> m = n := by
    decide
  simp only [hexByte, List.cons.injEq, and_true] at h
  have hb := b.isLt
  have hb' := b'.isLt
  have hhigh := hdigit ⟨b.toNat / 16, by omega⟩ ⟨b'.toNat / 16, by omega⟩ h.1
  have hlow := hdigit ⟨b.toNat % 16, by omega⟩ ⟨b'.toNat % 16, by omega⟩ h.2
  rw [Fin.mk.injEq] at hhigh hlow
  apply BitVec.eq_of_toNat_eq
  omega

/-!
## The blocks that are hashed
-/

/-- The blocks that `SHA256` forms. -/
def sha256Blocks (message : List Byte) : List Block :=
  let bytes := paddedBytes 0#8 message
  blocksOf (loadWord signExtended) bytes (word (bytes.length * 8) / 512)

/-- The blocks that `HashString` forms. -/
def hashStringBlocks (message : List Byte) : List Block :=
  let bytes := paddedBytes 0x80#8 message
  blocksOf (loadWord masked) bytes (word (bytes.length * 8) / 512)

theorem sha256_eq (message : List Byte) (digest : List Int) :
    sha256 message digest = some (digest ++
      ((chain (sha256Blocks message)).words.flatMap bytes).map fun b => (b.toNat : Int)) := by
  unfold sha256
  rw [padded_eq, Option.bind_eq_bind, Option.bind_some, compressBlocks_eq,
    List.map_flatMap]
  simp only [← digestValues_eq]
  rfl

theorem hashString_eq (message : List Byte) :
    hashString message = some (String.ofList
      (((chain (hashStringBlocks message)).words.flatMap bytes).flatMap hexByte)) := by
  unfold hashString
  rw [padded_eq, Option.bind_eq_bind, Option.bind_some, compressBlocks_eq,
    List.flatMap_assoc]
  simp only [← hexWord_eq]
  rfl

theorem blocksOf_length (load : Byte -> Byte -> Byte -> Byte -> Word) (bytes : List Byte)
    (n : Nat) : (blocksOf load bytes n).length = n := by
  simp [blocksOf]

theorem blockCount_eq {bytes : List Byte} (h : bytes.length < 2 ^ 61) :
    word (bytes.length * 8) / 512 = bytes.length / 64 := by
  rw [word_eq (by simp only [maxBits]; omega)]
  omega

theorem blockCount_ne {bytes : List Byte} (h : 2 ^ 61 <= bytes.length) :
    word (bytes.length * 8) / 512 ≠ bytes.length / 64 := by
  have hlt := word_lt (bytes.length * 8)
  simp only [maxBits] at hlt
  omega

theorem hashStringBlocks_eq_iff (message : List Byte) :
    hashStringBlocks message = parse message <-> (pad message).length < 2 ^ 61 := by
  have hbytes : paddedBytes 0x80#8 message = pad message := rfl
  have hload : loadWord masked = bigEndian := by
    funext b0 b1 b2 b3
    exact loadWord_masked b0 b1 b2 b3
  unfold hashStringBlocks parse
  dsimp only
  rw [hbytes, hload]
  constructor
  · intro h
    by_contra hge
    have hlength := congrArg List.length h
    rw [blocksOf_length, blocksOf_length] at hlength
    exact blockCount_ne (by omega) hlength
  · intro h
    rw [blockCount_eq h]

theorem paddedBytes_getD (first : Byte) (message : List Byte) {j : Nat}
    (hj : j < message.length + 1 + zeroBytes message.length) :
    (paddedBytes first message).getD j 0#8 =
      if j < message.length then message.getD j 0#8
      else if j = message.length then first else 0#8 := by
  unfold paddedBytes
  rw [List.getD_append _ _ _ _ (by simp; omega)]
  split
  next hlt => rw [List.getD_append _ _ _ _ hlt]
  next hge =>
    rw [List.getD_append_right _ _ _ _ (by omega)]
    split
    next heq => rw [heq, Nat.sub_self, List.getD_cons_zero]
    next hne =>
      rw [show j - message.length = j - message.length - 1 + 1 by omega, List.getD_cons_succ,
        List.getD_eq_getElem _ _ (by simp; omega), List.getElem_replicate]

theorem ne_of_getLsbD {x y : Word} {i : Nat} (hx : x.getLsbD i = false)
    (hy : y.getLsbD i = true) : x ≠ y := by
  intro heq
  rw [heq, hy] at hx
  cases hx

theorem loadWord_ne_bigEndian {r : Nat} (hr : r < 4) (c : Nat -> Byte)
    {b b' : Nat -> Byte}
    (hb : forall k, k < 4 -> b k = if k < r then c k else if k = r then 0#8 else 0#8)
    (hb' : forall k, k < 4 -> b' k = if k < r then c k else if k = r then 128#8 else 0#8) :
    loadWord signExtended (b 0) (b 1) (b 2) (b 3) ≠ bigEndian (b' 0) (b' 1) (b' 2) (b' 3) := by
  have hcode := loadWord_signExtended_bit (c 0) (c 1) (c 2)
  rw [hb 0 (by decide), hb 1 (by decide), hb 2 (by decide), hb 3 (by decide),
    hb' 0 (by decide), hb' 1 (by decide), hb' 2 (by decide), hb' 3 (by decide)]
  match r, hr with
  | 0, _ => exact ne_of_getLsbD hcode.1 (bigEndian_bit 0#8 0#8 0#8 0#8).1
  | 1, _ => exact ne_of_getLsbD hcode.2.1 (bigEndian_bit (c 0) 0#8 0#8 0#8).2.1
  | 2, _ => exact ne_of_getLsbD hcode.2.2.1 (bigEndian_bit (c 0) (c 1) 0#8 0#8).2.2.1
  | 3, _ => exact ne_of_getLsbD hcode.2.2.2 (bigEndian_bit (c 0) (c 1) (c 2) 0#8).2.2.2

theorem sha256_word_ne (message : List Byte) :
    wordAt (loadWord signExtended) (paddedBytes 0#8 message) (4 * (message.length / 4)) ≠
      wordAt bigEndian (pad message) (4 * (message.length / 4)) := by
  have hzeros : message.length % 4 + zeroBytes message.length >= 3 := by
    unfold zeroBytes zeroBits
    omega
  have hget (first : Byte) (k : Nat) (hk : k < 4) :
      (paddedBytes first message).getD (4 * (message.length / 4) + k) 0#8 =
        if k < message.length % 4 then message.getD (4 * (message.length / 4) + k) 0#8
        else if k = message.length % 4 then first else 0#8 := by
    rw [paddedBytes_getD first message (by omega)]
    have hlt : 4 * (message.length / 4) + k < message.length <-> k < message.length % 4 := by
      omega
    have heq : 4 * (message.length / 4) + k = message.length <-> k = message.length % 4 := by
      omega
    simp only [hlt, heq]
  have hbytes : pad message = paddedBytes 128#8 message := rfl
  have hne := loadWord_ne_bigEndian (Nat.mod_lt message.length (by decide : 0 < 4)) _
    (hget 0#8) (hget 128#8)
  rw [hbytes]
  exact hne

/-- The blocks of `SHA256` are never the blocks of the standard. -/
theorem sha256Blocks_ne (message : List Byte) : sha256Blocks message ≠ parse message := by
  intro h
  unfold sha256Blocks parse at h
  dsimp only at h
  rw [paddedBytes_length] at h
  have hcount : word ((pad message).length * 8) / 512 = (pad message).length / 64 := by
    have hlength := congrArg List.length h
    rwa [blocksOf_length, blocksOf_length] at hlength
  rw [hcount] at h
  have hn : message.length / 64 < (pad message).length / 64 := by
    have hmod := pad_length_mod message
    rw [pad_length] at hmod ⊢
    omega
  have hblock := congrArg (fun l => l[message.length / 64]?) h
  simp only [blocksOf, List.getElem?_map, List.getElem?_range hn, Option.map_some,
    Option.some.injEq] at hblock
  have hword := congrFun hblock ⟨message.length % 64 / 4, by omega⟩
  have hposition : 64 * (message.length / 64) + 4 * (message.length % 64 / 4) =
      4 * (message.length / 4) := by
    omega
  dsimp only at hword
  rw [hposition] at hword
  exact sha256_word_ne message hword

/-- Both digests of a message are the digest of the standard. -/
structure HashesRight (message : List Byte) (digest : List Int) : Prop where
  sha256 : sha256 message digest =
    some (digest ++ (SecureHash.digest message).map fun b => (b.toNat : Int))
  hashString : hashString message =
    some (String.ofList ((SecureHash.digest message).flatMap hexByte))

theorem hashString_digest {message : List Byte} (h : (pad message).length < 2 ^ 61) :
    hashString message = some (String.ofList ((SecureHash.digest message).flatMap hexByte)) := by
  rw [hashString_eq, (hashStringBlocks_eq_iff message).mpr h]
  rfl

/--
Hashing is right only by a collision of SHA-256: the blocks of `SHA256` always differ from
the blocks of the standard, and those of `HashString` do when there are too many of them.
-/
theorem hashesRight_iff_collide (message : List Byte) (digest : List Int) :
    HashesRight message digest <->
      Collide (sha256Blocks message) (parse message) ∧
        (2 ^ 61 <= (pad message).length ->
          Collide (hashStringBlocks message) (parse message)) := by
  have hdigest : SecureHash.digest message =
      (chain (parse message)).words.flatMap bytes := rfl
  constructor
  · rintro ⟨hsha256, hstring⟩
    rw [sha256_eq, hdigest, Option.some_inj, List.append_right_inj] at hsha256
    rw [hashString_eq, hdigest, Option.some_inj, String.ofList_inj] at hstring
    have hbytes := (List.map_injective_iff.mpr
      (fun b b' hbb' => BitVec.eq_of_toNat_eq (Int.ofNat.inj hbb'))) hsha256
    refine ⟨⟨sha256Blocks_ne message, state_bytes_injective hbytes⟩, ?_⟩
    intro hlong
    constructor
    · intro hsame
      have hshort := (hashStringBlocks_eq_iff message).mp hsame
      omega
    · apply state_bytes_injective
      exact flatMap_injective (k := 2) (fun _ => rfl) (fun _ _ => hexByte_injective)
        ((state_bytes_length _).trans (state_bytes_length _).symm) hstring
  · rintro ⟨⟨_, hchain⟩, hlong⟩
    constructor
    · rw [sha256_eq, hdigest, hchain]
    · rcases Nat.lt_or_ge (pad message).length (2 ^ 61) with hlt | hge
      · exact hashString_digest hlt
      · rw [hashString_eq, hdigest, (hlong hge).2]

/-- The digest of three characters in the standard's examples. -/
example : hashString [97#8, 98#8, 99#8] =
    some "ba7816bf8f01cfea414140de5dae2223b00361a396177a9cb410ff61f20015ad" := by
  decide +kernel

/-- The digest of the empty message starts with `e3`, and `SHA256` starts with 218. -/
theorem sha256_empty_ne :
    hashString [] =
        some "e3b0c44298fc1c149afbf4c8996fb92427ae41e4649b934ca495991b7852b855" ∧
      (sha256 [] []).bind List.head? = some 218 ∧ ¬HashesRight [] [] := by
  have hstring : hashString [] =
      some "e3b0c44298fc1c149afbf4c8996fb92427ae41e4649b934ca495991b7852b855" := by
    decide +kernel
  have hhead : (sha256 [] []).bind List.head? = some 218 := by
    decide +kernel
  refine ⟨hstring, hhead, ?_⟩
  rintro ⟨hsha256, hdigest⟩
  rw [hsha256, Option.bind_some, List.nil_append] at hhead
  rw [hstring, Option.some_inj] at hdigest
  have hchars : some 'e' = ((SecureHash.digest []).flatMap hexByte).head? := by
    have hlist := congrArg (fun s => s.toList.head?) hdigest
    simp only [String.toList_ofList] at hlist
    rw [← hlist]
    decide
  generalize SecureHash.digest [] = bytes at hhead hchars
  cases bytes with
  | nil => cases hhead
  | cons b rest =>
      have hb : b = BitVec.ofNat 8 218 := by
        apply BitVec.eq_of_toNat_eq
        have hnat : (b.toNat : Int) = 218 := Option.some_inj.mp hhead
        rw [BitVec.toNat_ofNat]
        omega
      rw [hb, List.flatMap_cons] at hchars
      cases hchars

end HashUtil
end Utils
end OpenFHE
