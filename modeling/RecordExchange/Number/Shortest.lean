import RecordExchange.Number.Binary

/-!
# The shortest decimal that reads back

A floating-point word stands for every real number that rounds to it: an interval around its value,
ends included when the fraction is even. Of the decimals in that interval the shortest is taken, of
two equally short the nearer, and of two equally near the larger.

- `Decimal`: digits and a power of ten.
- `Shortest.interval`: the numbers that round to a word, as exact fractions.
- `Shortest.decimal`: the choice.
-/

namespace RecordExchange

/-- The number `0.d₁d₂… * 10 ^ (exponent + 1)`: `exponent` is that of the first digit. -/
structure Decimal where
  digits : List Char
  exponent : Int
  deriving DecidableEq, Repr

namespace Shortest

/-- A value with the two ends of its interval, as numerators over one denominator. -/
structure Interval where
  low : Nat
  value : Nat
  high : Nat
  denominator : Nat
  /-- Whether the ends themselves belong to the interval. -/
  closed : Bool

/-- The interval of `m * 2 ^ q`. Half a unit lies on each side, but only a quarter below a power
of two, where the next smaller words are twice as dense. -/
def interval (f : BinaryFormat) (m : Nat) (q : Int) : Interval :=
  let least : Int := 1 - (f.bias : Int) - f.fractionBits
  -- Ends are counted in quarters of a unit, which makes them whole numbers.
  let below := if m = BinaryFormat.bit f.fractionBits ∧ q ≠ least then 1 else 2
  let scale := BinaryFormat.bit (q - 2).toNat
  { low := (4 * m - below) * scale
    value := 4 * m * scale
    high := (4 * m + 2) * scale
    denominator := BinaryFormat.bit (2 - q).toNat
    closed := m % 2 == 0 }

/-- Whether the number `n / d` lies in an interval. -/
def Interval.contains (i : Interval) (n d : Nat) : Bool :=
  if i.closed then i.low * d ≤ n * i.denominator && n * i.denominator ≤ i.high * d
  else i.low * d < n * i.denominator && n * i.denominator < i.high * d

/-- `10 ^ e` as a fraction. -/
def powerOfTen (e : Int) : Nat × Nat :=
  (Nat.pow 10 e.toNat, Nat.pow 10 (-e).toNat)

/-- The exponent of the first decimal digit of a positive number: an estimate from the number of
bits, corrected by one at most. -/
def leadingExponent (n d : Nat) : Int :=
  -- The logarithm of two to the base ten is just below 30103 / 100000.
  let estimate := Int.fdiv (((n.log2 : Int) - d.log2) * 30103) 100000
  let next := powerOfTen (estimate + 1)
  let this := powerOfTen estimate
  if next.1 * d ≤ n * next.2 then estimate + 1
  else if n * this.2 < this.1 * d then estimate - 1
  else estimate

/-- The better of the two neighbours of the value among the multiples of `10 ^ e`, if one of them
lies in the interval. -/
def neighbour? (i : Interval) (e : Int) : Option Nat :=
  let unit := powerOfTen e
  let n := i.value * unit.2
  let d := i.denominator * unit.1
  let low := n / d
  let lowFits := i.contains (low * unit.1) unit.2
  let highFits := i.contains ((low + 1) * unit.1) unit.2
  -- Of two that fit it is the nearer one, and a tie goes up.
  if lowFits && highFits then some (if 2 * (n % d) < d then low else low + 1)
  else if lowFits then some low
  else if highFits then some (low + 1)
  else none

/-- The first grid with a neighbour in the interval, the grids growing finer from one digit on. -/
def search (i : Interval) (e : Int) : Nat → Nat × Int
  | 0 => (i.value / i.denominator, 0)
  | fuel + 1 =>
    match neighbour? i e with
    | some n => (n, e)
    | none => search i (e - 1) fuel

/-- The shortest decimal of the positive number `m * 2 ^ q` in a format. Eighteen grids are more
than any word of 64 bits needs. -/
def decimal (f : BinaryFormat) (m : Nat) (q : Int) : Decimal :=
  let i := interval f m q
  let (n, e) := search i (leadingExponent i.value i.denominator) 18
  let digits := Nat.toDigits 10 n
  { digits := (digits.reverse.dropWhile (· == '0')).reverse
    exponent := e + digits.length - 1 }

example : decimal .double 7205759403792794 (-55) = ⟨['2'], -1⟩ := by decide +kernel

example : decimal .double 1 (-1074) = ⟨['5'], -324⟩ := by decide +kernel

end Shortest

end RecordExchange
