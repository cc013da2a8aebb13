import RecordExchange.Value.Basic

/-!
# Schemas

A schema names a record type and lists its fields in the order in which they are declared. A field
has a type and, if it may be left out, a default.

- `FieldType`, `Field`, `Schema`: the three types, defined together.
- `Field.isRequired`, `Field.defaultValue`: when a field may be left out, and what stands for it.
- `FieldType.accepts`, `Schema.accepts`: the values and the records of a type.
- `Schema.position?`: a field by its name.
- `FieldType.same`, `Schema.same`: comparison as applications see it.
-/

namespace RecordExchange

mutual

inductive FieldType where
  | bool
  | int
  | long
  | float
  | double
  | string
  | bytes
  /-- One of the symbols, in their order. -/
  | enum (symbols : List String)
  | optional (inner : FieldType)
  | list (item : FieldType)
  /-- Values under text keys. -/
  | map (item : FieldType)
  | record (schema : Schema)

/-- A named and typed field. The default stands for a value that was left out; it is no part of
the canonical form. -/
structure Field where
  name : String
  type : FieldType
  default : Option Value

/-- A named record type with its fields in declared order. -/
structure Schema where
  name : String
  fields : List Field

end

instance : Inhabited FieldType := ⟨.bool⟩

instance : Inhabited Field := ⟨⟨"", .bool, none⟩⟩

instance : Inhabited Schema := ⟨⟨"", []⟩⟩

namespace FieldType

def kind : FieldType → String
  | .bool => "bool"
  | .int => "int"
  | .long => "long"
  | .float => "float"
  | .double => "double"
  | .string => "string"
  | .bytes => "bytes"
  | .enum _ => "enum"
  | .optional _ => "optional"
  | .list _ => "list"
  | .map _ => "map"
  | .record _ => "record"

def isOptional : FieldType → Bool
  | .optional _ => true
  | _ => false

end FieldType

namespace Field

/-- A field that is neither optional nor has a default must be there. -/
def isRequired (f : Field) : Bool :=
  f.default.isNone && !f.type.isOptional

/-- What stands for a field that was left out: its default, and `null` for an optional field
without one. -/
def defaultValue (f : Field) : Option Value :=
  match f.default with
  | some v => some v
  | none => if f.type.isOptional then some .null else none

theorem defaultValue_eq_none_iff (f : Field) : f.defaultValue = none ↔ f.isRequired = true := by
  unfold defaultValue isRequired
  cases f.default <;> cases f.type.isOptional <;> simp

end Field

namespace Schema

def size (s : Schema) : Nat := s.fields.length

/-- The names of the fields in declared order. -/
def fieldNames (s : Schema) : List String := s.fields.map (·.name)

/-- The declared position of the first field of that name. -/
def position? (s : Schema) (name : String) : Option Nat :=
  s.fields.findIdx? (·.name == name)

end Schema

/-! ## The values of a type -/

mutual

/-- Whether a value belongs to a type. -/
def FieldType.accepts : FieldType → Value → Bool
  | .optional inner, v => v.isNull || inner.accepts v
  | .bool, .bool _ => true
  | .int, .int _ => true
  | .long, .long _ => true
  | .float, .float _ => true
  | .double, .double _ => true
  | .string, .string _ => true
  | .bytes, .bytes _ => true
  | .enum symbols, .symbol s => symbols.contains s
  | .list item, .list vs => vs.all fun v => item.accepts v
  | .map item, .map es => es.all fun e => item.accepts e.2
  | .record s, .record r => s.accepts r
  | _, _ => false

/-- Whether a record belongs to a schema: the names agree, each field that is there has a value of
its type, and none that is required is missing. Further fields do not matter. -/
def Schema.accepts : Schema → Record → Bool
  | ⟨name, fields⟩, r => r.typeName == name && acceptsFields fields r

/-- Whether a record has a value of the right type for each field that it has or needs. -/
def acceptsFields : List Field → Record → Bool
  | [], _ => true
  | ⟨name, type, dflt⟩ :: rest, r =>
    (match r.get? name with
      | some v => type.accepts v
      | none => !Field.isRequired ⟨name, type, dflt⟩)
      && acceptsFields rest r

end

/-! ## Comparison -/

namespace Field

/-- Equality of defaults as applications see it. -/
def sameDefault : Option Value → Option Value → Bool
  | none, none => true
  | some a, some b => a.same b
  | _, _ => false

end Field

mutual

/-- Equality of types, with nested schemas compared by `Schema.same`. -/
def FieldType.same : FieldType → FieldType → Bool
  | .bool, .bool => true
  | .int, .int => true
  | .long, .long => true
  | .float, .float => true
  | .double, .double => true
  | .string, .string => true
  | .bytes, .bytes => true
  | .enum a, .enum b => a == b
  | .optional a, .optional b => a.same b
  | .list a, .list b => a.same b
  | .map a, .map b => a.same b
  | .record a, .record b => a.same b
  | _, _ => false

/-- Equality of schemas as applications see it: the same fields in the same order, with the same
types and the same defaults. -/
def Schema.same : Schema → Schema → Bool
  | ⟨m, as⟩, ⟨n, bs⟩ => m == n && sameFields as bs

def sameFields : List Field → List Field → Bool
  | [], [] => true
  | ⟨m, t, d⟩ :: as, ⟨n, u, e⟩ :: bs =>
    m == n && t.same u && Field.sameDefault d e && sameFields as bs
  | _, _ => false

end

end RecordExchange
