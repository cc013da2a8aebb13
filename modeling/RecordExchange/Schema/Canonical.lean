import RecordExchange.Schema.Basic

/-!
# Canonical schemas

Two schemas that differ only in the order of their fields and in their defaults describe the same
data. The canonical one of them lists fields by name and has no defaults, at every depth.

- `Schema.canonical`: the canonical schema.
- `Schema.canonicalOrder`: for each declared field, its position in the canonical schema.
- `Schema.recordNames`: the record types that occur in a schema.
-/

namespace RecordExchange

/-- Fields in ascending order of names. Fields of one name keep their order. -/
def sortFields (fields : List Field) : List Field :=
  fields.mergeSort fun a b => decide (a.name ≤ b.name)

mutual

/-- A type with canonical schemas in it. -/
def FieldType.canonical : FieldType → FieldType
  | .optional inner => .optional inner.canonical
  | .list item => .list item.canonical
  | .map item => .map item.canonical
  | .record s => .record s.canonical
  | t => t

/-- The schema with fields sorted by name and defaults removed, at every depth. -/
def Schema.canonical : Schema → Schema
  | ⟨name, fields⟩ => ⟨name, sortFields (canonicalFields fields)⟩

/-- Fields with canonical types and without defaults, in the given order. -/
def canonicalFields : List Field → List Field
  | [] => []
  | ⟨name, type, _⟩ :: rest => ⟨name, type.canonical, none⟩ :: canonicalFields rest

end

namespace Schema

/-- The position that a name takes among the names of the fields when they are sorted: one less
than the number of names up to it. Of fields that share a name it is that of the last. -/
def canonicalIndex (s : Schema) (name : String) : Nat :=
  s.fields.countP (fun f => decide (f.name ≤ name)) - 1

/-- For each declared position, the position of that field in the canonical schema. -/
def canonicalOrder (s : Schema) : List Nat :=
  s.fields.map fun f => s.canonicalIndex f.name

def isCanonicalOrder (s : Schema) : Bool :=
  s.canonicalOrder == List.range s.size

end Schema

/-! ## Record types in a schema -/

mutual

/-- Adds the record types of a type to the names found so far. -/
def FieldType.collectNames : FieldType → List String → List String
  | .optional inner, found => inner.collectNames found
  | .list item, found => item.collectNames found
  | .map item, found => item.collectNames found
  | .record s, found => s.collectNames found
  | _, found => found

/-- Adds the name of a schema and those of the record types in it to the names found so far. A name
that has been found before is not added again, but the fields are searched all the same. -/
def Schema.collectNames : Schema → List String → List String
  | ⟨name, fields⟩, found =>
    collectFieldNames fields (if found.contains name then found else found ++ [name])

def collectFieldNames : List Field → List String → List String
  | [], found => found
  | ⟨_, type, _⟩ :: rest, found => collectFieldNames rest (type.collectNames found)

end

/-- The names of the record types that occur in a schema, its own first, in the order in which they
are met depth first, each once. -/
def Schema.recordNames (s : Schema) : List String :=
  s.collectNames []

end RecordExchange
