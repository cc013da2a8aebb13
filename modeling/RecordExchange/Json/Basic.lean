/-!
# JSON texts as trees

The tree of a JSON text. Numbers keep their spelling, members their order. A string may hold an
escape that is half of a surrogate pair; such a string has a place in a text but no content.

- `Json`: the tree.
- `Json.depth`: how many arrays and objects are nested in one another.
-/

namespace RecordExchange

/-- The tree of a JSON text. The content of a string or of a key is `none` when one of its escapes
is half of a surrogate pair. -/
inductive Json where
  | null
  | bool (b : Bool)
  | number (spelling : String)
  | string (content : Option String)
  | array (items : List Json)
  | object (members : List (Option String × Json))

namespace Json

instance : Inhabited Json := ⟨.null⟩

/-- A string with content. -/
def text (s : String) : Json := .string (some s)

/-- An object whose keys have content. -/
def record (members : List (String × Json)) : Json :=
  .object (members.map fun m => (some m.1, m.2))

mutual

/-- How many arrays and objects are nested in one another at the deepest place. -/
def depth : Json → Nat
  | .array items => itemsDepth items + 1
  | .object members => membersDepth members + 1
  | _ => 0

def itemsDepth : List Json → Nat
  | [] => 0
  | j :: js => max j.depth (itemsDepth js)

def membersDepth : List (Option String × Json) → Nat
  | [] => 0
  | (_, j) :: ms => max j.depth (membersDepth ms)

end

end Json

end RecordExchange
