import RecordExchange.Text.Quoted

/-!
# Hexadecimal text

Bytes are written as two lower-case digits each, high half first; digits are read in either case.

- `Hex.encode`: the digits of a byte string.
- `Hex.decode`: the byte string of a text of digits, or the first fault of the text.
-/

namespace RecordExchange.Hex

/-- The lower-case digit of a number below sixteen. -/
def digit (n : Nat) : Char :=
  Nat.digitChar n

/-- The two digits of a byte, high half first. -/
def pair (b : UInt8) : List Char :=
  [digit (b.toNat / 16), digit (b.toNat % 16)]

def encode (bytes : List UInt8) : String :=
  String.ofList (bytes.flatMap pair)

/-- Why a text is not hexadecimal. -/
inductive Fault where
  /-- The text takes an odd number of bytes. -/
  | oddLength
  /-- The byte at this position is not the code of a digit. -/
  | badDigit (byte : UInt8) (position : Nat)
  deriving DecidableEq, Repr

/-- The wording of a fault. A byte that is not a digit is shown as the character of that code. -/
def Fault.message : Fault → String
  | .oddLength => "Odd number of digits"
  | .badDigit byte position =>
    s!"Invalid character {Quoted.character (Char.ofNat byte.toNat)} at position {position}"

/-- The number that an ASCII code stands for as a digit, in either case. -/
def value? (code : UInt8) : Option Nat :=
  let n := code.toNat
  if 48 ≤ n ∧ n ≤ 57 then some (n - 48)
  else if 97 ≤ n ∧ n ≤ 102 then some (n - 87)
  else if 65 ≤ n ∧ n ≤ 70 then some (n - 55)
  else none

/-- Reads the codes of digits two at a time; `position` is the position of the first of them. -/
def pairs (position : Nat) : List UInt8 → Except Fault (List UInt8)
  | [] => .ok []
  | [_] => .error .oddLength
  | high :: low :: rest =>
    match value? high with
    | none => .error (.badDigit high position)
    | some h =>
      match value? low with
      | none => .error (.badDigit low (position + 1))
      | some l => (pairs (position + 2) rest).map (UInt8.ofNat (16 * h + l) :: ·)

/-- The byte string that a text spells. The length is judged first, then the digits in order. -/
def decode (text : String) : Except Fault (List UInt8) :=
  let codes := text.toUTF8.data.toList
  if codes.length % 2 = 1 then .error .oddLength else pairs 0 codes

/-- A number written as exactly `width` digits, the lowest ones when it has more. -/
def ofNat (width n : Nat) : String :=
  String.ofList ((List.range width).reverse.map fun i => digit (n / Nat.pow 16 i % 16))

example : ofNat 2 0xc3 = "c3" ∧ ofNat 2 7 = "07" := by decide +kernel

end RecordExchange.Hex
