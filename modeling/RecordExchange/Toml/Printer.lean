import RecordExchange.Toml.Text
import RecordExchange.Text.Hex

/-!
# Writing TOML documents

Values stand on lines of their own, tables under headers that spell the whole path, with an empty
line before each header. A table that holds nothing but tables has no header.

- `Toml.quoteText`: a string in the plainest of the four forms that can hold it.
- `Toml.quoteKey`: a key, without quotes if it can stand without.
- `Toml.render`: the text of a document.
-/

namespace RecordExchange.Toml

/-! ## What a text asks for -/

/-- A control character other than the tab and the line feed: it can only be written as an
escape. -/
def needsCode (c : Char) : Bool :=
  (c.toNat < 0x20 && c != '\t' && c != '\n') || c.toNat == 0x7f

/-- The length of the longest run of a character, given the length of the run in hand. -/
def longestRun (quote : Char) : (current : Nat) → List Char → Nat
  | current, [] => current
  | current, c :: rest =>
    if c = quote then longestRun quote (current + 1) rest
    else max current (longestRun quote 0 rest)

/-! ## Escapes -/

/-- An escape of four hexadecimal digits. -/
def codeEscape (c : Char) : List Char :=
  '\\' :: 'u' :: (Hex.ofNat 4 c.toNat).toList.map Char.toUpper

/-- A character that is always escaped between double quotes, line feeds aside. -/
def fixedEscape? (c : Char) : Option (List Char) :=
  if c == '\x08' then some ['\\', 'b']
  else if c == '\t' then some ['\\', 't']
  else if c == '\x0c' then some ['\\', 'f']
  else if c == '\r' then some ['\\', 'r']
  else if c == '\\' then some ['\\', '\\']
  else if needsCode c then some (codeEscape c)
  else none

/-- A text between double quotes. Over several lines, line feeds stand for themselves and so do up
to two quotes in a row, of which `run` have just been written. -/
def escapeText (overLines : Bool) : (run : Nat) → List Char → List Char
  | _, [] => []
  | run, c :: rest =>
    if c = '"' then
      if overLines && run < 2 then c :: escapeText overLines (run + 1) rest
      else '\\' :: '"' :: escapeText overLines 0 rest
    else if c = '\n' then
      if overLines then c :: escapeText overLines 0 rest
      else '\\' :: 'n' :: escapeText overLines 0 rest
    else
      match fixedEscape? c with
      | some e => e ++ escapeText overLines 0 rest
      | none => c :: escapeText overLines 0 rest

/-! ## Strings and keys -/

/-- A text between double quotes on one line. -/
def onLine (cs : List Char) : List Char :=
  '"' :: escapeText false 0 cs ++ ['"']

/-- A text between single quotes on one line. -/
def literally (cs : List Char) : List Char :=
  '\'' :: cs ++ ['\'']

/-- A text between three quotes of a kind. A text with line feeds starts on a line of its own. -/
def overLines (quote : Char) (cs content : List Char) : List Char :=
  let fence := [quote, quote, quote]
  fence ++ (if cs.contains '\n' then ['\n'] else []) ++ content ++ fence

/-- A string in the first form that needs no escapes: between double quotes, between single quotes,
then the same over several lines. If none does, it is escaped between double quotes, over several
lines if it has several. -/
def quoteText (s : String) : String :=
  let cs := s.toList
  let coded := cs.any needsCode
  let slashed := cs.contains '\\'
  let several := cs.contains '\n'
  let doubles := longestRun '"' 0 cs
  let singles := longestRun '\'' 0 cs
  String.ofList <|
    if !coded && !slashed && doubles = 0 && !several then onLine cs
    else if !coded && singles = 0 && !several then literally cs
    else if !coded && !slashed && doubles ≤ 2 then overLines '"' cs (escapeText true 0 cs)
    else if !coded && singles ≤ 2 then overLines '\'' cs cs
    else if several then overLines '"' cs (escapeText true 0 cs)
    else onLine cs

/-- A key: bare, else between double quotes, else between single quotes, whichever first needs no
escapes; and else escaped. -/
def quoteKey (s : String) : String :=
  let cs := s.toList
  let coded := cs.any fun c => needsCode c || c == '\n'
  if !cs.isEmpty && cs.all isBare then s
  else
    String.ofList <|
      if !coded && !cs.contains '\\' && !cs.contains '"' then onLine cs
      else if !coded && !cs.contains '\'' then literally cs
      else onLine cs

/-! ## Values and documents -/

mutual

/-- A value on a line. -/
def inline : Toml → String
  | .string s => quoteText s
  | .integer n => toString n
  | .float spelling => spelling
  | .boolean b => if b then "true" else "false"
  | .moment spelling => spelling
  | .array items => "[" ++ ", ".intercalate (inlineItems items) ++ "]"
  | .table [] => "\x7b\x7d"
  | .table entries => "\x7b " ++ ", ".intercalate (inlineEntryTexts entries) ++ " \x7d"

def inlineItems : List Toml → List String
  | [] => []
  | t :: rest => t.inline :: inlineItems rest

def inlineEntryTexts : List (String × Toml) → List String
  | [] => []
  | (k, t) :: rest => (quoteKey k ++ " = " ++ t.inline) :: inlineEntryTexts rest

end

def isTable : Toml → Bool
  | .table _ => true
  | _ => false

/-- The lines of the entries that are no tables. -/
def plainLines (entries : List (String × Toml)) : String :=
  String.join <|
    (entries.filter fun e => !e.2.isTable).map fun e => quoteKey e.1 ++ " = " ++ e.2.inline ++ "\n"

mutual

/-- The parts of a table at a path: its own lines under its header, then the tables in it. -/
def sections (path : List String) : Toml → List String
  | .table entries =>
    let plain := plainLines entries
    let header := "[" ++ ".".intercalate (path.map quoteKey) ++ "]\n"
    -- A table that holds nothing but tables needs no header of its own.
    let own :=
      if path.isEmpty then (if plain.isEmpty then [] else [plain])
      else if plain.isEmpty && !entries.isEmpty then []
      else [header ++ plain]
    own ++ entrySections path entries
  | _ => []

def entrySections (path : List String) : List (String × Toml) → List String
  | [] => []
  | (k, t) :: rest => sections (path ++ [k]) t ++ entrySections path rest

end

def render (t : Toml) : String :=
  "\n".intercalate (sections [] t)

end RecordExchange.Toml
