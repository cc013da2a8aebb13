import RecordExchange.Text.Visibility

/-!
# Text quoted for inspection

The inspection form of a value shows its texts between quotes, with every character that would
not be seen, or would be taken for the end of the text, spelled out.

- `Quoted.text`: a text between double quotes.
- `Quoted.character`: a single character between single quotes.
-/

namespace RecordExchange.Quoted

/-- The code point of a character in lower-case hexadecimal digits, with no leading zeros. -/
def codePoint (c : Char) : String :=
  String.ofList (Nat.toDigits 16 c.toNat)

/-- The spelling of one character inside quotes of the kind `quote`: six characters have a short
escape, a hidden character is spelled by its code point, and any other stands for itself. Only the
quote in use is escaped. -/
def spell (quote : Char) (c : Char) : String :=
  if c == '\x00' then "\\0"
  else if c == '\t' then "\\t"
  else if c == '\r' then "\\r"
  else if c == '\n' then "\\n"
  else if c == '\\' then "\\\\"
  else if c == quote then String.ofList ['\\', quote]
  else if Visibility.isHidden c then "\\u\x7b" ++ codePoint c ++ "\x7d"
  else String.ofList [c]

/-- A text between double quotes. -/
def text (s : String) : String :=
  "\"" ++ String.join (s.toList.map (spell '"')) ++ "\""

/-- A character between single quotes. -/
def character (c : Char) : String :=
  "'" ++ spell '\'' c ++ "'"

example : text "a\"b'c" = "\"a\\\"b'c\"" := by decide +kernel

example : character '\'' = "'\\''" ∧ character '"' = "'\"'" := by decide +kernel

end RecordExchange.Quoted
