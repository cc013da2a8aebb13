import RecordExchange.Number.ByteOrder

/-!
# SHA-256

The digest that identifies a canonical form. Words have 32 bits; a message is padded to whole
blocks of sixteen words, and each block is mixed into eight chaining words in 64 rounds.

- `Sha256.pad`: a message with its mark, zeros and length.
- `Sha256.compress`: the rounds of one block.
- `Sha256.digest`: the eight words of the digest.
-/

namespace RecordExchange.Sha256

/-- Eight words: the state of the rounds, the value that is chained from block to block, and at
the end the digest. -/
structure Words where
  a : UInt32
  b : UInt32
  c : UInt32
  d : UInt32
  e : UInt32
  f : UInt32
  g : UInt32
  h : UInt32
  deriving DecidableEq, Repr

/-- The value chained into the first block: the leading bits of the fractional parts of the square
roots of the first eight primes. -/
def start : Words :=
  ⟨0x6a09e667, 0xbb67ae85, 0x3c6ef372, 0xa54ff53a,
    0x510e527f, 0x9b05688c, 0x1f83d9ab, 0x5be0cd19⟩

/-- One constant for each round: the leading bits of the fractional parts of the cube roots of the
first 64 primes. -/
def constants : List UInt32 :=
  [0x428a2f98, 0x71374491, 0xb5c0fbcf, 0xe9b5dba5, 0x3956c25b, 0x59f111f1, 0x923f82a4, 0xab1c5ed5,
    0xd807aa98, 0x12835b01, 0x243185be, 0x550c7dc3, 0x72be5d74, 0x80deb1fe, 0x9bdc06a7, 0xc19bf174,
    0xe49b69c1, 0xefbe4786, 0x0fc19dc6, 0x240ca1cc, 0x2de92c6f, 0x4a7484aa, 0x5cb0a9dc, 0x76f988da,
    0x983e5152, 0xa831c66d, 0xb00327c8, 0xbf597fc7, 0xc6e00bf3, 0xd5a79147, 0x06ca6351, 0x14292967,
    0x27b70a85, 0x2e1b2138, 0x4d2c6dfc, 0x53380d13, 0x650a7354, 0x766a0abb, 0x81c2c92e, 0x92722c85,
    0xa2bfe8a1, 0xa81a664b, 0xc24b8b70, 0xc76c51a3, 0xd192e819, 0xd6990624, 0xf40e3585, 0x106aa070,
    0x19a4c116, 0x1e376c08, 0x2748774c, 0x34b0bcb5, 0x391c0cb3, 0x4ed8aa4a, 0x5b9cca4f, 0x682e6ff3,
    0x748f82ee, 0x78a5636f, 0x84c87814, 0x8cc70208, 0x90befffa, 0xa4506ceb, 0xbef9a3f7, 0xc67178f2]

/-- A word turned to the right by `n` bits, for `n` between 1 and 31. -/
def rotate (x : UInt32) (n : UInt32) : UInt32 :=
  (x >>> n) ||| (x <<< (32 - n))

/-- The word that follows a window of sixteen words in the schedule of a block. -/
def nextWord (window : List UInt32) : UInt32 :=
  let w0 := window.getD 0 0
  let w1 := window.getD 1 0
  let w9 := window.getD 9 0
  let w14 := window.getD 14 0
  let s0 := rotate w1 7 ^^^ rotate w1 18 ^^^ (w1 >>> 3)
  let s1 := rotate w14 17 ^^^ rotate w14 19 ^^^ (w14 >>> 10)
  w0 + s0 + w9 + s1

/-- One round, with the constant and the scheduled word of the round. -/
def Words.step (s : Words) (constant word : UInt32) : Words :=
  let s1 := rotate s.e 6 ^^^ rotate s.e 11 ^^^ rotate s.e 25
  let choice := (s.e &&& s.f) ^^^ (~~~s.e &&& s.g)
  let t1 := s.h + s1 + choice + constant + word
  let s0 := rotate s.a 2 ^^^ rotate s.a 13 ^^^ rotate s.a 22
  let majority := (s.a &&& s.b) ^^^ (s.a &&& s.c) ^^^ (s.b &&& s.c)
  ⟨t1 + (s0 + majority), s.a, s.b, s.c, s.d + t1, s.e, s.f, s.g⟩

/-- One round for each constant. The window holds the sixteen words of the schedule from the
current one on. -/
def rounds (s : Words) (window : List UInt32) : List UInt32 → Words
  | [] => s
  | k :: ks =>
    rounds (s.step k (window.headD 0)) (window.tail ++ [nextWord window]) ks

def Words.add (s t : Words) : Words :=
  ⟨s.a + t.a, s.b + t.b, s.c + t.c, s.d + t.d, s.e + t.e, s.f + t.f, s.g + t.g, s.h + t.h⟩

/-- Mixes a block of sixteen words into the chained value. -/
def compress (chained : Words) (block : List UInt32) : Words :=
  chained.add (rounds chained block constants)

/-- A message with a set bit after its end, zeros up to eight bytes before the end of a block of
64 bytes, and its length in bits. -/
def pad (message : List UInt8) : List UInt8 :=
  -- 55 bytes of a block leave room for the bit and the length; 119 is one block more.
  message ++ 0x80 :: List.replicate ((119 - message.length % 64) % 64) 0
    ++ ByteOrder.highFirst 8 (8 * message.length)

/-- Bytes as words, highest byte first. -/
def toWords : List UInt8 → List UInt32
  | a :: b :: c :: d :: rest =>
    ((a.toUInt32 <<< 24) ||| (b.toUInt32 <<< 16) ||| (c.toUInt32 <<< 8) ||| d.toUInt32)
      :: toWords rest
  | _ => []

/-- Mixes in `blocks` blocks, one after another. -/
def absorb (chained : Words) : (blocks : Nat) → List UInt32 → Words
  | 0, _ => chained
  | blocks + 1, words => absorb (compress chained (words.take 16)) blocks (words.drop 16)

def digest (message : List UInt8) : Words :=
  let words := toWords (pad message)
  absorb start (words.length / 16) words

/-- A padded message fills whole blocks. -/
theorem length_pad (message : List UInt8) : (pad message).length % 64 = 0 := by
  simp only [pad, List.length_append, List.length_cons, List.length_replicate,
    ByteOrder.length_highFirst]
  omega

example : (digest []).a = 0xe3b0c442 ∧ (digest []).b = 0x98fc1c14 := by decide +kernel

example : (digest [0x61, 0x62, 0x63]).a = 0xba7816bf := by decide +kernel

end RecordExchange.Sha256
