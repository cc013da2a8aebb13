import RecordExchange.Json.Basic
import RecordExchange.Text.Hex

/-!
# Writing JSON

The compact text of a tree: no blanks, members in their order. In strings the quote, the backslash
and the control characters are escaped, and nothing else.

- `Json.escape`: one character inside a string.
- `Json.print`: the characters of a tree.
- `Json.render`: the text of a tree.
-/

namespace RecordExchange.Json

/-- A character as it stands inside a string. Five control characters have a letter of their own,
the others are spelled by their code. -/
def escape (c : Char) : List Char :=
  if c == '"' then ['\\', '"']
  else if c == '\\' then ['\\', '\\']
  else if c == '\x08' then ['\\', 'b']
  else if c == '\t' then ['\\', 't']
  else if c == '\n' then ['\\', 'n']
  else if c == '\x0c' then ['\\', 'f']
  else if c == '\r' then ['\\', 'r']
  else if c.toNat < 0x20 then
    ['\\', 'u', '0', '0', Hex.digit (c.toNat / 16), Hex.digit (c.toNat % 16)]
  else [c]

/-- A string with its quotes. A string without content is written as a lone escape. -/
def quote : Option String → List Char
  | some s => '"' :: s.toList.flatMap escape ++ ['"']
  | none => "\"\\ud800\"".toList

mutual

def print : Json → List Char
  | .null => "null".toList
  | .bool true => "true".toList
  | .bool false => "false".toList
  | .number spelling => spelling.toList
  | .string content => quote content
  | .array items => '[' :: printItems items ++ [']']
  | .object members => '{' :: printMembers members ++ ['}']

/-- The items of an array, with commas between them. -/
def printItems : List Json → List Char
  | [] => []
  | [j] => j.print
  | j :: js => j.print ++ ',' :: printItems js

def printMembers : List (Option String × Json) → List Char
  | [] => []
  | [(k, j)] => quote k ++ ':' :: j.print
  | (k, j) :: ms => quote k ++ ':' :: j.print ++ ',' :: printMembers ms

end

def render (j : Json) : String :=
  String.ofList j.print

end RecordExchange.Json
