import RecordExchange.Schema.Basic
import RecordExchange.Schema.Error
import RecordExchange.Text.Blank

/-!
# Valid schemas

A schema is checked once, with every schema nested in it, before it is used. The first fault in
declared order is reported: of the name, then field by field of the field's name, of its type and
of its default.

- `Schema.check`: the first fault of a schema.
- `Schema.make`: a schema from its parts, if it is valid.
- `Schema.WellFormed`: the same rule said as a property, without an order of faults.
-/

namespace RecordExchange

namespace FieldType

/-- The symbols of an enumeration: at least one, none empty, none twice. -/
def symbolsValid (symbols : List String) : Bool :=
  !symbols.isEmpty && symbols.all (· != "") && decide symbols.Nodup

end FieldType

/-! ## The check -/

mutual

/-- The first fault of the type of a field, which is named by its record type and its name. -/
def FieldType.check (typeName field : String) : FieldType → Except SchemaError Unit
  | .enum symbols =>
    if FieldType.symbolsValid symbols then .ok () else .error (.invalidEnum typeName field)
  | .optional inner => inner.check typeName field
  | .list item => item.check typeName field
  | .map item => item.check typeName field
  | .record s => s.check
  | _ => .ok ()

def Schema.check : Schema → Except SchemaError Unit
  | ⟨name, fields⟩ =>
    -- The name of a schema must not be blank, that of a field only not empty.
    if Text.trim name = "" then .error .emptyName else checkFields name [] fields

/-- The first fault of the fields of a record type, of which the names in `seen` have gone
before. -/
def checkFields (typeName : String) (seen : List String) : List Field → Except SchemaError Unit
  | [] => .ok ()
  | ⟨name, type, dflt⟩ :: rest =>
    if name = "" then .error (.emptyFieldName typeName)
    else if seen.contains name then .error (.duplicateField typeName name)
    else do
      type.check typeName name
      -- A default is looked at once the type that it must belong to has passed.
      if dflt.all type.accepts then checkFields typeName (name :: seen) rest
      else .error (.invalidDefault typeName name type.kind)

end

/-- The schema of a name and fields, if it is valid. -/
def Schema.make (name : String) (fields : List Field) : Except SchemaError Schema :=
  let s : Schema := ⟨name, fields⟩
  (Schema.check s).map fun _ => s

/-! ## The rule -/

mutual

/-- A type is well formed when its enumerations have at least one symbol and only non-empty
distinct ones, and its records have well-formed schemas. -/
def FieldType.WellFormed : FieldType → Prop
  | .enum symbols => symbols ≠ [] ∧ (∀ s ∈ symbols, s ≠ "") ∧ symbols.Nodup
  | .optional inner => inner.WellFormed
  | .list item => item.WellFormed
  | .map item => item.WellFormed
  | .record s => s.WellFormed
  | _ => True

/-- A schema is well formed when its name is not blank, its fields have distinct non-empty names
and well-formed types, and every default belongs to the type of its field. -/
def Schema.WellFormed : Schema → Prop
  | ⟨name, fields⟩ =>
    ¬ Text.IsBlank name ∧ (fields.map Field.name).Nodup ∧ WellFormedFields fields

/-- Every field has a name, a well-formed type and a default of its type, if any. -/
def WellFormedFields : List Field → Prop
  | [] => True
  | ⟨name, type, dflt⟩ :: rest =>
    (name ≠ "" ∧ type.WellFormed ∧ ∀ v ∈ dflt, type.accepts v = true) ∧ WellFormedFields rest

end

end RecordExchange
