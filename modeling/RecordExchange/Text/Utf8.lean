/-!
# UTF-8 and where it fails

Texts travel as UTF-8. Bytes that are not UTF-8 are refused with the place of the first fault: the
number of bytes before it, and how many bytes from there on start no character, or that the input
ends inside one.

- `Utf8.encode`, `Utf8.decode`: the bytes of a text, and the text of bytes.
- `Utf8.fault`: the first fault of a byte string.
-/

namespace RecordExchange.Utf8

def encode (s : String) : List UInt8 :=
  s.toUTF8.data.toList

/-- The first place where a byte string stops being UTF-8. -/
inductive Fault where
  /-- After `start` good bytes, `length` bytes begin no character. -/
  | invalid (start length : Nat)
  /-- After `start` good bytes, the input ends inside a character. -/
  | incomplete (start : Nat)
  deriving DecidableEq, Repr

def Fault.message : Fault → String
  | .invalid start length =>
    s!"invalid utf-8 sequence of {length} bytes from index {start}"
  | .incomplete start => s!"incomplete utf-8 byte sequence from index {start}"

/-- A byte that continues a character. -/
def isTail (b : UInt8) : Bool :=
  0x80 ≤ b && b ≤ 0xBF

/-- Whether `second` may follow the first byte of a character of three bytes: shorter spellings of
a character and surrogates are excluded. -/
def opensThree (first second : UInt8) : Bool :=
  if first == 0xE0 then 0xA0 ≤ second && second ≤ 0xBF
  else if first == 0xED then 0x80 ≤ second && second ≤ 0x9F
  else isTail second

/-- Whether `second` may follow the first byte of a character of four bytes: shorter spellings and
code points above U+10FFFF are excluded. -/
def opensFour (first second : UInt8) : Bool :=
  if first == 0xF0 then 0x90 ≤ second && second ≤ 0xBF
  else if first == 0xF4 then 0x80 ≤ second && second ≤ 0x8F
  else isTail second

/-- The first fault of a byte string, of which `start` bytes have been found good. -/
def faultFrom (start : Nat) : List UInt8 → Option Fault
  | [] => none
  | a :: rest =>
    if a < 0x80 then faultFrom (start + 1) rest
    -- The first bytes 0xC0 and 0xC1 would only open longer spellings of one byte.
    else if 0xC2 ≤ a && a ≤ 0xDF then
      match rest with
      | [] => some (.incomplete start)
      | b :: rest => if isTail b then faultFrom (start + 2) rest else some (.invalid start 1)
    else if 0xE0 ≤ a && a ≤ 0xEF then
      match rest with
      | [] => some (.incomplete start)
      | [b] => some (if opensThree a b then .incomplete start else .invalid start 1)
      | b :: c :: rest =>
        if !opensThree a b then some (.invalid start 1)
        else if isTail c then faultFrom (start + 3) rest
        else some (.invalid start 2)
    else if 0xF0 ≤ a && a ≤ 0xF4 then
      match rest with
      | [] => some (.incomplete start)
      | [b] => some (if opensFour a b then .incomplete start else .invalid start 1)
      | [b, c] =>
        some (if !opensFour a b then .invalid start 1
          else if isTail c then .incomplete start
          else .invalid start 2)
      | b :: c :: d :: rest =>
        if !opensFour a b then some (.invalid start 1)
        else if !isTail c then some (.invalid start 2)
        else if isTail d then faultFrom (start + 4) rest
        else some (.invalid start 3)
    else some (.invalid start 1)

/-- The first fault of a byte string that is not UTF-8. -/
def fault (bytes : List UInt8) : Fault :=
  (faultFrom 0 bytes).getD (.incomplete bytes.length)

/-- The text of a byte string, or its first fault. -/
def decode (bytes : List UInt8) : Except Fault String :=
  match String.fromUTF8? ⟨bytes.toArray⟩ with
  | some s => .ok s
  | none => .error (fault bytes)

end RecordExchange.Utf8
