import RecordExchange.Text.Hex

/-!
# Identifiers of groups

A group has an identifier of 128 bits, written as 32 hexadecimal digits in five runs with hyphens
between them. It is read in either case, also without hyphens, between braces or as a resource
name.

- `GroupId`, `GroupId.toText`, `GroupId.parse`.
-/

namespace RecordExchange

/-- The identifier of a group. Numeric order is the order of the texts. -/
structure GroupId where
  bits : BitVec 128
  deriving DecidableEq, Repr

namespace GroupId

/-- The lengths of the runs of digits. -/
def runs : List Nat := [8, 4, 4, 4, 12]

/-- Cuts digits into runs of the given lengths; what is left over makes the last one. -/
def cut : (lengths : List Nat) → List Char → List (List Char)
  | [], _ => []
  | [_], cs => [cs]
  | n :: lengths, cs => cs.take n :: cut lengths (cs.drop n)

/-- The text of an identifier, in lower case. -/
def toText (id : GroupId) : String :=
  String.ofList (['-'].intercalate (cut runs (Hex.ofNat 32 id.bits.toNat).toList))

/-- The digits of a text in five runs with hyphens between them. -/
def unhyphenate? (cs : List Char) : Option (List Char) :=
  let parts := cs.splitOn '-'
  if parts.map List.length = runs then some parts.flatten else none

/-- The identifier of 32 digits. -/
def ofDigits? (cs : List Char) : Option GroupId :=
  if cs.length = 32 then
    match Hex.decode (String.ofList cs) with
    | .ok bytes => some ⟨BitVec.ofNat 128 (bytes.foldl (fun n b => 256 * n + b.toNat) 0)⟩
    | .error _ => none
  else none

/-- The mark of a resource name. -/
def scheme : List Char := "urn:uuid:".toList

/-- A text without the mark of a resource name, whose letters may be of either case. -/
def dropScheme? (cs : List Char) : Option (List Char) :=
  if (cs.take scheme.length).map Char.toLower = scheme then some (cs.drop scheme.length) else none

/-- A text without the braces around it. -/
def dropBraces? (cs : List Char) : Option (List Char) :=
  if cs.head? = some '\x7b' && cs.getLast? = some '\x7d' then some (cs.drop 1).dropLast else none

/-- The identifier that a text spells. -/
def parse (text : String) : Option GroupId :=
  let cs := text.toList
  let inner := ((dropScheme? cs).or (dropBraces? cs)).getD cs
  match unhyphenate? inner with
  | some digits => ofDigits? digits
  | none => if inner = cs then ofDigits? cs else none

example : (parse "0190163D-8694-739B-AEA5-966C26F8AD91").map toText
    = some "0190163d-8694-739b-aea5-966c26f8ad91" := by decide +kernel

end GroupId

end RecordExchange
