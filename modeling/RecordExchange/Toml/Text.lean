import RecordExchange.Toml.Basic

/-!
# Blanks, comments, strings and keys of TOML

The readers here take characters and give what they have read with the characters that follow.

- `Toml.skipSpace`, `Toml.skipLines`: what may stand between tokens on a line, and over lines.
- `Toml.lineEnd`: the end of a line with an optional comment.
- `Toml.stringToken`: a string in one of its four forms.
- `Toml.keyPath`: a key with its dots.
-/

namespace RecordExchange.Toml

/-! ## Blanks and comments -/

/-- The blanks within a line. -/
def isSpace (c : Char) : Bool :=
  c == ' ' || c == '\t'

/-- The characters from the first that is no blank on. -/
def skipSpace (cs : List Char) : List Char :=
  cs.dropWhile isSpace

/-- What follows the end of a line. -/
def newline? : List Char → Option (List Char)
  | '\n' :: rest => some rest
  | '\r' :: '\n' :: rest => some rest
  | _ => none

/-- The characters of comments and of literal strings: all but the controls, of which the tab is
admitted. -/
def isPlain (c : Char) : Bool :=
  c == '\t' || (0x20 ≤ c.toNat && c.toNat != 0x7f)

/-- What follows a comment, which starts at the first of the characters. -/
def skipComment : List Char → List Char
  | '#' :: rest => rest.dropWhile isPlain
  | cs => cs

/-- What follows the rest of a line: blanks, a comment, and the end of the line or of the text. -/
def lineEnd (cs : List Char) : Option (List Char) :=
  match skipComment (skipSpace cs) with
  | [] => some []
  | rest => newline? rest

/-- What follows blanks, comments and line ends. A comment is ended by a line end. -/
def skipLines : (fuel : Nat) → List Char → List Char
  | 0, cs => cs
  | fuel + 1, cs =>
    let rest := skipSpace cs
    match newline? (skipComment rest) with
    | some rest => skipLines fuel rest
    | none => rest

/-! ## Strings -/

/-- The number of a hexadecimal digit in either case. -/
def hexValue? (c : Char) : Option Nat :=
  let n := c.toNat
  if 48 ≤ n ∧ n ≤ 57 then some (n - 48)
  else if 97 ≤ n ∧ n ≤ 102 then some (n - 87)
  else if 65 ≤ n ∧ n ≤ 70 then some (n - 55)
  else none

/-- The character whose code point the next `count` hexadecimal digits spell. -/
def codePoint (count : Nat) (cs : List Char) : Option (Char × List Char) := do
  let digits ← (cs.take count).mapM hexValue?
  if digits.length = count then
    let n := digits.foldl (fun sum d => 16 * sum + d) 0
    if n.isValidChar then some (Char.ofNat n, cs.drop count) else none
  else none

/-- The character of an escape, whose backslash has been read. -/
def escape : List Char → Option (Char × List Char)
  | 'b' :: rest => some ('\x08', rest)
  | 't' :: rest => some ('\t', rest)
  | 'n' :: rest => some ('\n', rest)
  | 'f' :: rest => some ('\x0c', rest)
  | 'r' :: rest => some ('\r', rest)
  | '"' :: rest => some ('"', rest)
  | '\\' :: rest => some ('\\', rest)
  | 'u' :: rest => codePoint 4 rest
  | 'U' :: rest => codePoint 8 rest
  | _ => none

/-- The content of a string in double quotes up to the closing one. -/
def basicBody : (fuel : Nat) → List Char → Option (List Char × List Char)
  | 0, _ => none
  | fuel + 1, cs =>
    match cs with
    | [] => none
    | '"' :: rest => some ([], rest)
    | '\\' :: rest => do
      let (c, rest) ← escape rest
      let (content, rest) ← basicBody fuel rest
      some (c :: content, rest)
    | c :: rest =>
      if isPlain c then (basicBody fuel rest).map fun (content, rest) => (c :: content, rest)
      else none

/-- The content of a string in single quotes up to the closing one. -/
def literalBody : List Char → Option (List Char × List Char)
  | [] => none
  | c :: rest =>
    if c = '\'' then some ([], rest)
    else if isPlain c then (literalBody rest).map fun (content, rest) => (c :: content, rest)
    else none

/-- A run of quotes inside a string over several lines: one or two belong to the string; from three
on the last three close it, with at most two before them. -/
def quoteRun (quote : Char) (cs : List Char) : Bool × List Char × List Char :=
  let count := (cs.takeWhile (· == quote)).length
  if count < 3 then (false, List.replicate count quote, cs.drop count)
  else
    -- From the sixth quote on they are behind the string.
    let inside := min (count - 3) 2
    (true, List.replicate inside quote, cs.drop (inside + 3))

/-- What follows a backslash that joins lines: blanks, a line end, and all blanks and line ends
after it. -/
def joinedLine? (fuel : Nat) (cs : List Char) : Option (List Char) :=
  (newline? (skipSpace cs)).map (blankLines fuel)
where
  /-- What follows blanks and line ends. -/
  blankLines : Nat → List Char → List Char
    | 0, cs => cs
    | fuel + 1, cs =>
      match newline? (skipSpace cs) with
      | some rest => blankLines fuel rest
      | none => skipSpace cs

/-- The content of a string over several lines up to its closing quotes. Line ends become line
feeds; escapes count only between double quotes. -/
def linesBody (quote : Char) : (fuel : Nat) → List Char → Option (List Char × List Char)
  | 0, _ => none
  | fuel + 1, cs =>
    match cs with
    | [] => none
    | c :: rest =>
      if c = quote then
        let (closed, quotes, rest) := quoteRun quote cs
        if closed then some (quotes, rest)
        else (linesBody quote fuel rest).map fun (content, rest) => (quotes ++ content, rest)
      else if c = '\\' ∧ quote = '"' then
        -- Behind the last backslash of a line the content goes on in a later line.
        match joinedLine? fuel rest with
        | some rest => linesBody quote fuel rest
        | none => do
          let (e, rest) ← escape rest
          let (content, rest) ← linesBody quote fuel rest
          some (e :: content, rest)
      else
        match newline? cs with
        | some rest =>
          (linesBody quote fuel rest).map fun (content, rest) => ('\n' :: content, rest)
        | none =>
          if isPlain c then
            (linesBody quote fuel rest).map fun (content, rest) => (c :: content, rest)
          else none

/-- The characters without the line end at their front, if there is one. -/
def dropNewline (cs : List Char) : List Char :=
  (newline? cs).getD cs

/-- A string in one of its four forms. -/
def stringToken (cs : List Char) : Option (String × List Char) :=
  let result :=
    match cs with
    | '"' :: '"' :: '"' :: rest => linesBody '"' (rest.length + 1) (dropNewline rest)
    | '"' :: rest => basicBody (rest.length + 1) rest
    | '\'' :: '\'' :: '\'' :: rest => linesBody '\'' (rest.length + 1) (dropNewline rest)
    | '\'' :: rest => literalBody rest
    | _ => none
  result.map fun (content, rest) => (String.ofList content, rest)

/-! ## Keys -/

/-- The characters of a key without quotes. -/
def isBare (c : Char) : Bool :=
  c.isAlphanum || c == '_' || c == '-'

/-- One part of a key: bare, or a string on one line. -/
def keyPart : List Char → Option (String × List Char)
  | '"' :: rest =>
    (basicBody (rest.length + 1) rest).map fun (content, rest) => (String.ofList content, rest)
  | '\'' :: rest =>
    (literalBody rest).map fun (content, rest) => (String.ofList content, rest)
  | cs =>
    let name := cs.takeWhile isBare
    if name.isEmpty then none else some (String.ofList name, cs.dropWhile isBare)

/-- The parts of a key with blanks around each. -/
def keyParts : (fuel : Nat) → List Char → Option (List String × List Char)
  | 0, _ => none
  | fuel + 1, cs => do
    let (part, rest) ← keyPart (skipSpace cs)
    match skipSpace rest with
    | '.' :: rest =>
      let (parts, rest) ← keyParts fuel rest
      some (part :: parts, rest)
    | rest => some ([part], rest)

/-- Fewer than this many levels may be nested, and fewer than this many parts make up a key. -/
def nestingLimit : Nat := 80

/-- A key: the parts before the last, and the last. -/
def keyPath (cs : List Char) : Option ((List String × String) × List Char) := do
  let (parts, rest) ← keyParts (cs.length + 1) cs
  if parts.length < nestingLimit then
    let last ← parts.getLast?
    some ((parts.dropLast, last), rest)
  else none

end RecordExchange.Toml
