import RecordExchange.Json.Parser
import RecordExchange.Json.Printer
import RecordExchange.Schema.Canonical
import RecordExchange.Schema.Validity

/-!
# Schemas as text

The canonical text of a schema is compact JSON with the fields sorted by name and without their
defaults. It is what is digested to the fingerprint, and what travels in a message that carries its
schema. Texts of schemas are read more freely than they are written: with blanks, with members in
any order and with members that mean nothing.

- `Schema.canonicalJson`: the tree that is written; scalar types are bare names, others objects of
  one member.
- `Schema.canonicalText`, `Schema.fingerprint`.
- `Schema.ofJson`: the valid schema of a tree that is not nested too deeply.
- `Schema.ofText`: the valid schema of a text.
-/

namespace RecordExchange

/-! ## Writing -/

namespace Json

/-- Members in ascending order of keys. Members of one key keep their order. -/
def sortMembers (members : List (String × Json)) : List (String × Json) :=
  members.mergeSort fun a b => decide (a.1 ≤ b.1)

/-- The tree of a field, from its name and the tree of its type. -/
def field (body : String × Json) : Json :=
  .record [("name", .text body.1), ("type", body.2)]

end Json

mutual

/-- The canonical tree of a type: a scalar is its name, any other type an object whose one key is
the name of its kind. -/
def FieldType.canonicalJson : FieldType → Json
  | .enum symbols => .record [("enum", .array (symbols.map .text))]
  | .optional inner => .record [("optional", inner.canonicalJson)]
  | .list item => .record [("list", item.canonicalJson)]
  | .map item => .record [("map", item.canonicalJson)]
  | .record s => .record [("record", s.canonicalJson)]
  | .bool => .text "bool"
  | .int => .text "int"
  | .long => .text "long"
  | .float => .text "float"
  | .double => .text "double"
  | .string => .text "string"
  | .bytes => .text "bytes"

/-- The canonical tree of a schema: its fields sorted by name, then its name. -/
def Schema.canonicalJson : Schema → Json
  | ⟨name, fields⟩ =>
    .record
      [("fields", .array ((Json.sortMembers (fieldBodies fields)).map Json.field)),
       ("name", .text name)]

/-- The names of fields with the canonical trees of their types, in declared order. -/
def fieldBodies : List Field → List (String × Json)
  | [] => []
  | ⟨name, type, _⟩ :: rest => (name, type.canonicalJson) :: fieldBodies rest

end

namespace Schema

def canonicalText (s : Schema) : String :=
  s.canonicalJson.render

/-- The fingerprint of a schema: that of its canonical text. -/
def fingerprint (s : Schema) : Fingerprint :=
  Fingerprint.digest s.canonicalText

/-- How many arrays and objects may be nested in one another in the text of a schema. -/
def nestingLimit : Nat := 127

end Schema

/-! ## Reading -/

namespace Json

def asText? : Json → Option String
  | .string content => content
  | _ => none

/-- The tree under a key, if all keys have content and this one stands exactly once. -/
def member? (key : String) (members : List (Option String × Json)) : Option Json :=
  if members.all (·.1.isSome) then
    match members.filter (·.1 == some key) with
    | [(_, j)] => some j
    | _ => none
  else none

end Json

def FieldType.scalar? : String → Option FieldType
  | "bool" => some .bool
  | "int" => some .int
  | "long" => some .long
  | "float" => some .float
  | "double" => some .double
  | "string" => some .string
  | "bytes" => some .bytes
  | _ => none

/-- The symbols of an enumeration, under at most `depth` further levels of nesting. -/
def symbolsOfJson (depth : Nat) : Json → Option (List String)
  | .array items => if depth = 0 then none else items.mapM Json.asText?
  | _ => none

mutual

/-- The type of a tree, under at most `depth` further levels of nesting. A scalar may also be
written as an object whose one member is `null`. -/
def FieldType.ofJson : (depth : Nat) → Json → Option FieldType
  | _, .string content => content.bind FieldType.scalar?
  | depth + 1, .object [(some key, j)] =>
    if key = "enum" then (symbolsOfJson depth j).map .enum
    else if key = "optional" then (FieldType.ofJson depth j).map .optional
    else if key = "list" then (FieldType.ofJson depth j).map .list
    else if key = "map" then (FieldType.ofJson depth j).map .map
    else if key = "record" then (Schema.ofJson depth j).map .record
    else
      match j with
      | .null => FieldType.scalar? key
      | _ => none
  | _, _ => none

/-- The valid schema of a tree, under at most `depth` further levels of nesting: an object with a
name and fields, or an array of the two. -/
def Schema.ofJson : (depth : Nat) → Json → Option Schema
  | depth + 1, .object members => do
    let name ← (Json.member? "name" members).bind Json.asText?
    let fields ← (Json.member? "fields" members).bind (fieldsOfJson depth)
    (Schema.make name fields).toOption
  | depth + 1, .array [name, fields] => do
    let name ← name.asText?
    let fields ← fieldsOfJson depth fields
    (Schema.make name fields).toOption
  | _, _ => none

/-- The fields of a tree, under at most `depth` further levels of nesting. -/
def fieldsOfJson : (depth : Nat) → Json → Option (List Field)
  | depth + 1, .array items => items.mapM (fieldOfJson depth)
  | _, _ => none

/-- The field of a tree, under at most `depth` further levels of nesting: an object with a name and
a type, or an array of the two. It has no default. -/
def fieldOfJson : (depth : Nat) → Json → Option Field
  | depth + 1, .object members => do
    let name ← (Json.member? "name" members).bind Json.asText?
    let type ← (Json.member? "type" members).bind (FieldType.ofJson depth)
    some ⟨name, type, none⟩
  | depth + 1, .array [name, type] => do
    let name ← name.asText?
    let type ← FieldType.ofJson depth type
    some ⟨name, type, none⟩
  | _, _ => none

end

/-- The valid schema of a text. -/
def Schema.ofText (text : String) : Except SchemaError Schema :=
  match (Json.parse text).bind (Schema.ofJson Schema.nestingLimit) with
  | some s => .ok s
  | none => .error .malformed

end RecordExchange
