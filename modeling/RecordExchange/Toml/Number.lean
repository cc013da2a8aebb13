import RecordExchange.Toml.Text

/-!
# Numbers and moments of TOML

- `Toml.integerToken`: whole numbers of 64 bits in four notations.
- `Toml.floatToken`: numbers with a fraction or an exponent, infinities and NaN. A number that is
  too large for a floating-point word is refused, unless it is negative.
- `Toml.momentToken`: dates, times and both, with their ranges.
-/

namespace RecordExchange.Toml

/-! ## Digits -/

/-- Digits of a kind, with single underscores between them. -/
def digitRun (isDigit : Char → Bool) : List Char → Option (List Char × List Char)
  | [] => none
  | c :: rest =>
    if isDigit c then
      match rest with
      | '_' :: rest => (digitRun isDigit rest).map fun (digits, rest) => (c :: digits, rest)
      | d :: rest =>
        if isDigit d then
          (digitRun isDigit (d :: rest)).map fun (digits, rest) => (c :: digits, rest)
        else some ([c], d :: rest)
      | [] => some ([c], [])
    else none

def ofDigits (base : Nat) (digits : List Char) : Nat :=
  digits.foldl (fun sum c => base * sum + (hexValue? c).getD 0) 0

/-- A sign, which may be missing, and whether it is a minus. -/
def sign : List Char → Bool × List Char
  | '-' :: rest => (true, rest)
  | '+' :: rest => (false, rest)
  | cs => (false, cs)

/-- The digits of a whole decimal number: a zero alone, or digits that start with another one. -/
def wholeDigits : List Char → Option (List Char × List Char)
  | '0' :: rest => some (['0'], rest)
  | cs => digitRun Char.isDigit cs

/-! ## Whole numbers -/

/-- A number in the range of 64 bits with sign. -/
def inRange? (n : Int) : Option Int :=
  if Int64.minValue.toInt ≤ n ∧ n ≤ Int64.maxValue.toInt then some n else none

/-- A whole number: decimal with an optional sign, or hexadecimal, octal or binary without one. -/
def integerToken (cs : List Char) : Option (Int × List Char) :=
  let based (base : Nat) (isDigit : Char → Bool) (cs : List Char) := do
    let (digits, rest) ← digitRun isDigit cs
    let n ← inRange? (ofDigits base digits)
    some (n, rest)
  match cs with
  | '0' :: 'x' :: rest => based 16 (fun c => (hexValue? c).isSome) rest
  | '0' :: 'o' :: rest => based 8 (fun c => c.isDigit && c != '8' && c != '9') rest
  | '0' :: 'b' :: rest => based 2 (fun c => c == '0' || c == '1') rest
  | cs => do
    let (negative, rest) := sign cs
    let (digits, rest) ← wholeDigits rest
    let magnitude : Int := ofDigits 10 digits
    let n ← inRange? (if negative then -magnitude else magnitude)
    some (n, rest)

/-! ## Numbers that are not whole -/

/-- Whether `m * 10 ^ e` rounds to a number above the greatest word of 64 bits. The number of
digits decides all but the numbers in the last decade. -/
def overflows (m : Nat) (e : Int) : Bool :=
  let digits : Int := (Nat.toDigits 10 m).length
  if m = 0 ∨ digits + e ≤ 308 then false
  else if 310 ≤ digits + e then true
  -- A number rounds above the greatest word from half a unit beyond it on.
  else (Nat.pow 2 1024 - Nat.pow 2 970) * Nat.pow 10 (-e).toNat ≤ m * Nat.pow 10 e.toNat

/-- The point and the digits after it, if there is a point. -/
def fraction : List Char → Option (List Char × List Char)
  | '.' :: rest => digitRun Char.isDigit rest
  | cs => some ([], cs)

/-- The exponent, if there is a mark of one. -/
def exponent : List Char → Option (Option Int × List Char)
  | [] => some (none, [])
  | c :: rest =>
    if c = 'e' ∨ c = 'E' then
      let (negative, rest) := sign rest
      (digitRun Char.isDigit rest).map fun (digits, rest) =>
        let n : Int := ofDigits 10 digits
        (some (if negative then -n else n), rest)
    else some (none, c :: rest)

/-- A number with a fraction or an exponent. -/
def decimalToken (cs : List Char) : Option (List Char) := do
  let (negative, rest) := sign cs
  let (whole, rest) ← wholeDigits rest
  let (digits, rest) ← fraction rest
  let (e, rest) ← exponent rest
  if digits.isEmpty ∧ e = none then none
  -- Only numbers above zero are refused for their size.
  else if !negative ∧ overflows (ofDigits 10 (whole ++ digits)) (e.getD 0 - digits.length) then none
  else some rest

/-- An infinity or NaN. -/
def specialToken (cs : List Char) : Option (List Char) :=
  match (sign cs).2 with
  | 'i' :: 'n' :: 'f' :: rest => some rest
  | 'n' :: 'a' :: 'n' :: rest => some rest
  | _ => none

/-- The characters that were read before `rest`. -/
def spelling (cs rest : List Char) : String :=
  String.ofList (cs.take (cs.length - rest.length))

/-- A number that is not whole, with its spelling. -/
def floatToken (cs : List Char) : Option (String × List Char) :=
  ((decimalToken cs).or (specialToken cs)).map fun rest => (spelling cs rest, rest)

/-! ## Moments -/

/-- A number of exactly `count` digits between two bounds. -/
def fixedNumber (count low high : Nat) (cs : List Char) : Option (Nat × List Char) :=
  let digits := cs.take count
  if digits.length = count ∧ digits.all Char.isDigit then
    let n := ofDigits 10 digits
    if low ≤ n ∧ n ≤ high then some (n, cs.drop count) else none
  else none

/-- What follows a character that must stand first. -/
def expect (c : Char) : List Char → Option (List Char)
  | d :: rest => if d = c then some rest else none
  | [] => none

def daysIn (year month : Nat) : Nat :=
  if month = 2 then
    if year % 4 = 0 ∧ (year % 100 ≠ 0 ∨ year % 400 = 0) then 29 else 28
  else if month = 4 ∨ month = 6 ∨ month = 9 ∨ month = 11 then 30
  else 31

/-- What follows a date. -/
def skipDate (cs : List Char) : Option (List Char) := do
  let (year, rest) ← fixedNumber 4 0 9999 cs
  let (month, rest) ← fixedNumber 2 1 12 (← expect '-' rest)
  let (_, rest) ← fixedNumber 2 1 (daysIn year month) (← expect '-' rest)
  some rest

/-- What follows a time of the day. A minute may have a leap second. -/
def skipTime (cs : List Char) : Option (List Char) := do
  let (_, rest) ← fixedNumber 2 0 23 cs
  let (_, rest) ← fixedNumber 2 0 59 (← expect ':' rest)
  let (_, rest) ← fixedNumber 2 0 60 (← expect ':' rest)
  match rest with
  -- A point without a digit behind it is no part of the time.
  | '.' :: d :: tail => some (if d.isDigit then tail.dropWhile Char.isDigit else rest)
  | _ => some rest

/-- What follows the distance from universal time, if it is given. -/
def skipOffset : List Char → Option (List Char)
  | [] => some []
  | c :: rest =>
    if c = 'Z' ∨ c = 'z' then some rest
    else if c = '+' ∨ c = '-' then do
      let (_, rest) ← fixedNumber 2 0 23 rest
      let (_, rest) ← fixedNumber 2 0 59 (← expect ':' rest)
      some rest
    else some (c :: rest)

/-- What follows the time after a date, if a time is given. -/
def skipTimeOfDate : List Char → Option (List Char)
  | [] => some []
  | c :: rest =>
    if c = 'T' ∨ c = 't' ∨ c = ' ' then
      match skipTime rest with
      | some rest => skipOffset rest
      | none => some (c :: rest)
    else some (c :: rest)

/-- A date with an optional time, or a time, with its spelling. -/
def momentToken (cs : List Char) : Option (String × List Char) :=
  let result :=
    match skipDate cs with
    | some rest => skipTimeOfDate rest
    | none => skipTime cs
  result.map fun rest => (spelling cs rest, rest)

end RecordExchange.Toml
