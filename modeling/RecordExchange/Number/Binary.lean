/-!
# Binary floating-point words

Floating-point values are kept as the words that travel: a sign bit, a biased exponent and a
fraction. This module reads such a word as an exact number and rounds an exact number to a word.

- `BinaryFormat`: the widths of the two fields; `BinaryFormat.single` and `BinaryFormat.double`.
- `BinaryFormat.classify`: the magnitude of a word, exactly.
- `BinaryFormat.round`: the word nearest to `m * 2 ^ q`; a tie goes to the even fraction.
- `Binary.singleOfInt`, `Binary.doubleOfInt`, `Binary.widen`: the words that numbers are moved to;
  which numbers these words are is proved in `RecordExchange.Proofs.Promotion`.
- `Binary.sameNumber`: numeric equality, under which the two zeros are equal and NaN equals
  nothing.
-/

namespace RecordExchange

/-- The widths of the exponent and of the fraction of a floating-point word. -/
structure BinaryFormat where
  exponentBits : Nat
  fractionBits : Nat

namespace BinaryFormat

/-- Words of 32 bits. -/
def single : BinaryFormat := ⟨8, 23⟩

/-- Words of 64 bits. -/
def double : BinaryFormat := ⟨11, 52⟩

/-- What the bit at a position is worth. -/
def bit (position : Nat) : Nat := Nat.pow 2 position

/-- The number that is added to an exponent before it is stored. -/
def bias (f : BinaryFormat) : Nat := bit (f.exponentBits - 1) - 1

/-- The stored exponent of infinities and NaN. -/
def topExponent (f : BinaryFormat) : Nat := bit f.exponentBits - 1

def exponentField (f : BinaryFormat) (word : Nat) : Nat :=
  word / bit f.fractionBits % bit f.exponentBits

def fractionField (f : BinaryFormat) (word : Nat) : Nat :=
  word % bit f.fractionBits

/-- Whether the sign bit of a word is set. -/
def isNegative (f : BinaryFormat) (word : Nat) : Bool :=
  word / bit (f.exponentBits + f.fractionBits) % 2 == 1

/-- The sign bit as it stands in a word. -/
def signBit (f : BinaryFormat) (negative : Bool) : Nat :=
  if negative then bit (f.exponentBits + f.fractionBits) else 0

/-- What a word is without its sign. -/
inductive Magnitude where
  | nan
  | infinite
  /-- The number `m * 2 ^ q`. -/
  | finite (m : Nat) (q : Int)
  deriving DecidableEq, Repr

/-- The magnitude of a word. Below the least normal exponent the fraction counts alone; above it
the leading bit is implied. -/
def classify (f : BinaryFormat) (word : Nat) : Magnitude :=
  let e := f.exponentField word
  let m := f.fractionField word
  if e = f.topExponent then if m = 0 then .infinite else .nan
  else if e = 0 then .finite m (1 - (f.bias : Int) - f.fractionBits)
  else .finite (bit f.fractionBits + m) ((e : Int) - f.bias - f.fractionBits)

/-- `n / 2 ^ s` rounded to the nearest integer; a tie goes to the even one. -/
def shiftToEven (n s : Nat) : Nat :=
  let low := n / bit s
  let rest := n % bit s
  if 2 * rest > bit s ∨ (2 * rest = bit s ∧ low % 2 = 1) then low + 1 else low

/-- The word without sign that is nearest to `m * 2 ^ q`, for a number whose exponent is in the
normal range. A fraction that rounds up to a power of two carries into the exponent by itself. -/
def round (f : BinaryFormat) (m : Nat) (q : Int) : Nat :=
  if m = 0 then 0
  else
    let e := m.log2
    let significand :=
      if e ≤ f.fractionBits then m * bit (f.fractionBits - e)
      else shiftToEven m (e - f.fractionBits)
    -- The leading bit is implied, so that it is taken off the significand.
    ((e : Int) + q + f.bias).toNat * bit f.fractionBits + significand - bit f.fractionBits

end BinaryFormat

namespace Binary

open BinaryFormat

/-- The single word nearest to an integer. -/
def singleOfInt (n : Int) : UInt32 :=
  UInt32.ofNat (single.signBit (n < 0) + single.round n.natAbs 0)

/-- The double word nearest to an integer. -/
def doubleOfInt (n : Int) : UInt64 :=
  UInt64.ofNat (double.signBit (n < 0) + double.round n.natAbs 0)

/-- The double word of the same number as a single word. A NaN stays a NaN and keeps its payload
in the leading bits, made quiet. -/
def widen (word : UInt32) : UInt64 :=
  let n := word.toNat
  let top := double.topExponent * bit double.fractionBits
  let magnitude :=
    match single.classify n with
    | .infinite => top
    | .nan =>
      let payload := single.fractionField n * bit (double.fractionBits - single.fractionBits)
      top + (payload ||| bit (double.fractionBits - 1))
    | .finite m q => double.round m q
  UInt64.ofNat (double.signBit (single.isNegative n) + magnitude)

/-- Numeric equality of two words of a format. -/
def sameNumber (f : BinaryFormat) (a b : Nat) : Bool :=
  match f.classify a, f.classify b with
  | .nan, _ => false
  | _, .nan => false
  | .finite 0 _, .finite 0 _ => true
  | _, _ => a == b

example : singleOfInt 16777217 = 0x4b800000 ∧ singleOfInt (-3) = 0xc0400000 := by decide +kernel

example : doubleOfInt (-3) = 0xc008000000000000 ∧
    doubleOfInt 9007199254740993 = 0x4340000000000000 := by decide +kernel

example : widen 0x3fc00000 = 0x3ff8000000000000 ∧ widen 1 = 0x36a0000000000000 := by
  decide +kernel

example : sameNumber double 0 0x8000000000000000 = true := by decide +kernel

end Binary

end RecordExchange
