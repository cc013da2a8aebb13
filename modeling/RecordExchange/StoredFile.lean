import RecordExchange.Text.Utf8

/-!
# Files as they are found

What may be found where a file is looked for, and the text that it holds.

- `StoredFile`, `StoredFile.text?`.
-/

namespace RecordExchange

/-- What is found where a file is looked for. -/
inductive StoredFile where
  | missing
  /-- Something is there that cannot be read. -/
  | unreadable
  | holding (content : List UInt8)
  deriving DecidableEq, Repr

/-- The text of a file that is there, can be read and holds UTF-8. -/
def StoredFile.text? : StoredFile → Option String
  | .holding content => (Utf8.decode content).toOption
  | .missing | .unreadable => none

end RecordExchange
