import RecordExchange.Schema.Basic
import RecordExchange.Schema.Error

/-!
# Drafts of records

A draft collects values for the fields of a schema. Each value is checked when it is put in;
whether all required fields are there is checked when the record is finished, and defaults are
filled in then.

- `Draft`: a schema with one slot for each field.
- `Draft.set`, `Draft.setAt`, `Draft.clear`, `Draft.isSet`: the slots.
- `Draft.finish`: the record in declared order.
-/

namespace RecordExchange

/-- The values collected so far, one slot for each declared field. -/
structure Draft where
  schema : Schema
  slots : List (Option Value)

/-- A record in declared order from one slot for each field: the value in the slot or else the
default of the field. The first field that has neither is reported. -/
def fillSlots (typeName : String) : List Field → List (Option Value) →
    Except SchemaError (List (String × Value))
  | [], _ => .ok []
  | _, [] => .ok []
  | f :: fields, slot :: slots =>
    match slot.or f.defaultValue with
    | none => .error (.missingField typeName f.name)
    | some v => (fillSlots typeName fields slots).map ((f.name, v) :: ·)

namespace Draft

def empty (s : Schema) : Draft :=
  ⟨s, s.fields.map fun _ => none⟩

/-- Sets the field at a declared position. -/
def setAt (d : Draft) (index : Nat) (v : Value) : Except SchemaError Draft :=
  match d.schema.fields[index]? with
  | none => .error (.fieldIndexOutOfRange d.schema.name index d.schema.size)
  | some f =>
    if f.type.accepts v then .ok { d with slots := d.slots.set index (some v) }
    else .error (.fieldTypeMismatch d.schema.name f.name f.type.kind v.kind)

def set (d : Draft) (name : String) (v : Value) : Except SchemaError Draft :=
  match d.schema.position? name with
  | none => .error (.unknownField d.schema.name name)
  | some index => d.setAt index v

def isSet (d : Draft) (name : String) : Bool :=
  match d.schema.position? name with
  | none => false
  | some index => (d.slots[index]?.getD none).isSome

/-- Empties the slot of a field, so that its default counts again. -/
def clear (d : Draft) (name : String) : Draft :=
  match d.schema.position? name with
  | none => d
  | some index => { d with slots := d.slots.set index none }

/-- The finished record, in declared order. -/
def finish (d : Draft) : Except SchemaError Record :=
  (fillSlots d.schema.name d.schema.fields d.slots).map (Record.ofFields d.schema.name)

end Draft

end RecordExchange
