import RecordExchange.Json.Basic

/-!
# Reading JSON

The tree of a text, or nothing when the text does not follow the grammar. Nesting is not limited
here: who interprets the tree decides how deep it may go.

- `Json.scanString`: the pieces of a string up to its closing quote.
- `Json.assemble`: the characters of the pieces, where two escapes may join to one character.
- `Json.parse`: the tree of a whole text.
-/

namespace RecordExchange.Json

/-- The blanks between tokens. -/
def isSpace (c : Char) : Bool :=
  c == ' ' || c == '\n' || c == '\t' || c == '\r'

/-- The characters from the first that is no blank on. -/
def skipSpace (cs : List Char) : List Char :=
  cs.dropWhile isSpace

/-! ## Strings -/

/-- A piece of a string: a character, or the number that an escape spells. -/
inductive Piece where
  | char (c : Char)
  | unit (n : Nat)

/-- The number of a hexadecimal digit in either case. -/
def hexValue? (c : Char) : Option Nat :=
  let n := c.toNat
  if 48 ≤ n ∧ n ≤ 57 then some (n - 48)
  else if 97 ≤ n ∧ n ≤ 102 then some (n - 87)
  else if 65 ≤ n ∧ n ≤ 70 then some (n - 55)
  else none

def fourDigits? (a b c d : Char) : Option Nat := do
  let a ← hexValue? a
  let b ← hexValue? b
  let c ← hexValue? c
  let d ← hexValue? d
  some (((a * 16 + b) * 16 + c) * 16 + d)

def letterEscape? : Char → Option Char
  | '"' => some '"'
  | '\\' => some '\\'
  | '/' => some '/'
  | 'b' => some '\x08'
  | 'f' => some '\x0c'
  | 'n' => some '\n'
  | 'r' => some '\r'
  | 't' => some '\t'
  | _ => none

/-- The pieces of a string up to its closing quote, and what follows the quote. Control characters
may not stand in a string. -/
def scanString : List Char → Option (List Piece × List Char)
  | [] => none
  | '"' :: rest => some ([], rest)
  | '\\' :: 'u' :: a :: b :: c :: d :: rest => do
    let n ← fourDigits? a b c d
    let (pieces, rest) ← scanString rest
    some (.unit n :: pieces, rest)
  | '\\' :: e :: rest => do
    let c ← letterEscape? e
    let (pieces, rest) ← scanString rest
    some (.char c :: pieces, rest)
  | c :: rest =>
    -- Control characters stand escaped, and a backslash alone escapes nothing.
    if c.toNat < 0x20 ∨ c = '\\' then none
    else do
      let (pieces, rest) ← scanString rest
      some (.char c :: pieces, rest)

/-- The first half of a surrogate pair. -/
def isHighHalf (n : Nat) : Bool := 0xD800 ≤ n && n < 0xDC00

/-- The second half of a surrogate pair. -/
def isLowHalf (n : Nat) : Bool := 0xDC00 ≤ n && n < 0xE000

/-- The characters of the pieces of a string. Two escapes that form a surrogate pair stand for one
character; half of a pair stands for none, and then the string has no content. -/
def assemble : List Piece → Option (List Char)
  | [] => some []
  | .char c :: rest => (assemble rest).map (c :: ·)
  | .unit n :: rest =>
    if isHighHalf n then
      match rest with
      | .unit m :: rest =>
        if isLowHalf m then
          (assemble rest).map (Char.ofNat (0x10000 + (n - 0xD800) * 0x400 + (m - 0xDC00)) :: ·)
        else none
      | _ => none
    else if isLowHalf n then none
    else (assemble rest).map (Char.ofNat n :: ·)

/-- The content of a string whose opening quote has been read, and what follows it. -/
def stringBody (cs : List Char) : Option (Option String × List Char) :=
  (scanString cs).map fun (pieces, rest) => ((assemble pieces).map String.ofList, rest)

/-! ## Numbers -/

/-- The digits at the front, of which there must be one. -/
def someDigits (cs : List Char) : Option (List Char × List Char) :=
  let digits := cs.takeWhile Char.isDigit
  if digits.isEmpty then none else some (digits, cs.dropWhile Char.isDigit)

/-- The digits before the point: a zero alone, or digits that start with another one. -/
def wholePart : List Char → Option (List Char × List Char)
  | '0' :: rest => some (['0'], rest)
  | cs => someDigits cs

/-- The point and the digits after it, if there is a point. -/
def fractionPart : List Char → Option (List Char × List Char)
  | '.' :: rest => (someDigits rest).map fun (digits, rest) => ('.' :: digits, rest)
  | cs => some ([], cs)

/-- The exponent with its mark and sign, if there is a mark. -/
def exponentPart : List Char → Option (List Char × List Char)
  | c :: rest =>
    if c = 'e' ∨ c = 'E' then
      let sign := rest.takeWhile (fun s => s == '+' || s == '-') |>.take 1
      (someDigits (rest.drop sign.length)).map fun (digits, rest) => (c :: sign ++ digits, rest)
    else some ([], c :: rest)
  | [] => some ([], [])

/-- A number with its spelling. -/
def numberToken (cs : List Char) : Option (Json × List Char) := do
  let sign := cs.takeWhile (· == '-') |>.take 1
  let (whole, rest) ← wholePart (cs.drop sign.length)
  let (fraction, rest) ← fractionPart rest
  let (exponent, rest) ← exponentPart rest
  some (.number (String.ofList (sign ++ whole ++ fraction ++ exponent)), rest)

/-! ## Trees -/

mutual

/-- The tree at the front of the characters, which start with no blank, and what follows it. -/
def value : (fuel : Nat) → List Char → Option (Json × List Char)
  | 0, _ => none
  | fuel + 1, cs =>
    match cs with
    | 'n' :: 'u' :: 'l' :: 'l' :: rest => some (.null, rest)
    | 't' :: 'r' :: 'u' :: 'e' :: rest => some (.bool true, rest)
    | 'f' :: 'a' :: 'l' :: 's' :: 'e' :: rest => some (.bool false, rest)
    | '"' :: rest => (stringBody rest).map fun (content, rest) => (.string content, rest)
    | '[' :: rest =>
      match skipSpace rest with
      | ']' :: rest => some (.array [], rest)
      | rest => (elements fuel rest).map fun (items, rest) => (.array items, rest)
    | '{' :: rest =>
      match skipSpace rest with
      | '}' :: rest => some (.object [], rest)
      | rest => (members fuel rest).map fun (ms, rest) => (.object ms, rest)
    | cs => numberToken cs

/-- The items of an array up to its closing bracket, of which there is at least one. -/
def elements : (fuel : Nat) → List Char → Option (List Json × List Char)
  | 0, _ => none
  | fuel + 1, cs => do
    let (item, rest) ← value fuel cs
    match skipSpace rest with
    | ']' :: rest => some ([item], rest)
    | ',' :: rest =>
      let (items, rest) ← elements fuel (skipSpace rest)
      some (item :: items, rest)
    | _ => none

/-- The members of an object up to its closing brace, of which there is at least one. -/
def members : (fuel : Nat) → List Char → Option (List (Option String × Json) × List Char)
  | 0, _ => none
  | fuel + 1, cs =>
    match cs with
    | '"' :: rest => do
      let (key, rest) ← stringBody rest
      match skipSpace rest with
      | ':' :: rest =>
        let (item, rest) ← value fuel (skipSpace rest)
        match skipSpace rest with
        | '}' :: rest => some ([(key, item)], rest)
        | ',' :: rest =>
          let (ms, rest) ← members fuel (skipSpace rest)
          some ((key, item) :: ms, rest)
        | _ => none
      | _ => none
    | _ => none

end

/-- The tree of a whole text, which may have blanks around it. A tree opens at most one list of
items or members per character, so twice the number of characters bounds the calls. -/
def parse (s : String) : Option Json :=
  let cs := s.toList
  match value (2 * cs.length + 2) (skipSpace cs) with
  | some (j, rest) => if (skipSpace rest).isEmpty then some j else none
  | none => none

end RecordExchange.Json
