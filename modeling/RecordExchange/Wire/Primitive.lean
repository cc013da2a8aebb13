import RecordExchange.Number.ByteOrder
import RecordExchange.Wire.Decoder

/-!
# Primitive forms

How numbers, texts and byte strings are written, each with its encoder and its decoder.

- Unsigned numbers are varints: groups of seven bits, the lowest first, every byte but the last
  with its high bit set. Only the shortest spelling is read.
- Signed numbers are folded to unsigned ones first, so that small numbers of either sign stay
  short: 0, -1, 1, -2, … become 0, 1, 2, 3, ….
- Floating-point words stand lowest byte first.
- Texts and byte strings follow their length.
-/

namespace RecordExchange.Wire

/-! ## Varints -/

/-- The number of groups of seven bits that a number takes, of which there is at least one. -/
def groupCount (n : Nat) : Nat := n.log2 / 7 + 1

/-- The lowest `left` groups of a number, up to the highest that is not zero. -/
def groups : (left : Nat) → Nat → List UInt8
  | 0, _ => []
  | left + 1, n =>
    if n < 128 then [UInt8.ofNat n] else UInt8.ofNat (n % 128 + 128) :: groups left (n / 128)

/-- Writes a number of any size. -/
def encodeNat (n : Nat) : List UInt8 :=
  groups (groupCount n) n

/-- Writes an unsigned number. -/
def encodeVarint (n : UInt64) : List UInt8 :=
  encodeNat n.toNat

example : encodeVarint 0 = [0] ∧ encodeVarint 300 = [0xac, 0x02] := by decide

/-- The greatest number of groups that is read: as many as 64 bits take. -/
def maxGroups : Nat := 10

/-- Reads the groups of a number that started at `start`: at most `left` more, the next one to be
shifted by `shift` bits and added to `sum`. The last group of all may hold a single bit. -/
def decodeGroups (start : Nat) : (left shift sum : Nat) → Decoder UInt64
  | 0, _, _ => Decoder.corrupt (.varintTooLong start)
  | left + 1, shift, sum => do
    let b ← Decoder.byte
    if left = 0 ∧ 1 < b.toNat then Decoder.corrupt (.varintOverflow start)
    else
      let sum := sum + b.toNat % 128 * Nat.pow 2 shift
      if b.toNat < 128 then
        -- A last group that adds nothing belongs to a longer spelling, unless it is the only one.
        if b.toNat = 0 ∧ shift ≠ 0 then Decoder.corrupt (.varintPadded start)
        else return UInt64.ofNat sum
      else decodeGroups start left (shift + 7) sum

def decodeVarint : Decoder UInt64 := do
  decodeGroups (← Decoder.offset) maxGroups 0 0

/-! ## Signed numbers -/

/-- The unsigned number of a signed one. -/
def fold (n : Int64) : UInt64 :=
  let i := n.toInt
  UInt64.ofNat (if i < 0 then (-2 * i - 1).toNat else (2 * i).toNat)

/-- The signed number of an unsigned one. -/
def unfold (n : UInt64) : Int64 :=
  let half : Int := (n.toNat / 2 : Nat)
  Int64.ofInt (if n.toNat % 2 = 1 then -half - 1 else half)

/-- Writes a signed number of 64 bits. -/
def encodeLong (n : Int64) : List UInt8 :=
  encodeVarint (fold n)

def decodeLong : Decoder Int64 :=
  unfold <$> decodeVarint

/-- Writes a signed number of 32 bits. -/
def encodeInt (n : Int32) : List UInt8 :=
  encodeLong n.toInt64

def decodeInt : Decoder Int32 := do
  let start ← Decoder.offset
  let n ← decodeLong
  if Int32.minValue.toInt ≤ n.toInt ∧ n.toInt ≤ Int32.maxValue.toInt then return n.toInt32
  else Decoder.corrupt (.intOutOfRange start n)

/-! ## Truth values and floating-point words -/

def encodeBool (b : Bool) : List UInt8 :=
  [if b then 1 else 0]

def decodeBool : Decoder Bool := do
  let start ← Decoder.offset
  let b ← Decoder.byte
  if b = 0 then return false
  else if b = 1 then return true
  else Decoder.corrupt (.badBool b start)

/-- Writes a word of 32 bits. -/
def encodeFloat (word : UInt32) : List UInt8 :=
  ByteOrder.lowFirst 4 word.toNat

def decodeFloat : Decoder UInt32 := do
  return UInt32.ofNat (ByteOrder.ofLowFirst (← Decoder.take 4))

/-- Writes a word of 64 bits. -/
def encodeDouble (word : UInt64) : List UInt8 :=
  ByteOrder.lowFirst 8 word.toNat

def decodeDouble : Decoder UInt64 := do
  return UInt64.ofNat (ByteOrder.ofLowFirst (← Decoder.take 8))

/-! ## Lengths, byte strings and texts -/

/-- Writes a length or a count. -/
def encodeLength (n : Nat) : List UInt8 :=
  encodeNat n

/-- Reads a length or a count. Whatever is counted takes at least one byte, so that a count above
the number of bytes left is refused. -/
def decodeLength : Decoder Nat := do
  let start ← Decoder.offset
  let n ← decodeVarint
  let left ← Decoder.remaining
  if n.toNat ≤ left then return n.toNat
  else Decoder.corrupt (.lengthTooLarge n start left)

def encodeBytes (bytes : List UInt8) : List UInt8 :=
  encodeLength bytes.length ++ bytes

def decodeBytes : Decoder (List UInt8) := do
  Decoder.take (← decodeLength)

def encodeString (s : String) : List UInt8 :=
  encodeBytes (Utf8.encode s)

def decodeString : Decoder String := do
  let start ← Decoder.offset
  match Utf8.decode (← decodeBytes) with
  | .ok s => return s
  | .error fault => Decoder.corrupt (.badText start fault)

def decodeIndex : Decoder Nat :=
  UInt64.toNat <$> decodeVarint

end RecordExchange.Wire
