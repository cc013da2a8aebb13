import RecordExchange.Schema.Error
import RecordExchange.Value.Basic

/-!
# Taking a record apart

An application object is built from a record by taking its fields one after another and converting
them. A field that has been taken is gone from the record, also when its conversion fails.

- `Value.convert`: a value as one of the eight plain kinds.
- `Extraction`: a computation that takes fields from a record and may fail.
- `Extraction.field`, `Extraction.optionalField`, `Extraction.listField`, `Extraction.enumField`:
  the ways to take a field.
- `Extraction.Step`, `Extraction.Step.run`: the same as data, to describe how a class takes its
  fields.
-/

namespace RecordExchange

/-- The kinds of values that convert to a type of the application. -/
inductive PlainKind where
  | bool
  | int
  | long
  | float
  | double
  | string
  | bytes
  | record
  deriving DecidableEq, Repr

def PlainKind.name : PlainKind → String
  | .bool => "bool"
  | .int => "int"
  | .long => "long"
  | .float => "float"
  | .double => "double"
  | .string => "string"
  | .bytes => "bytes"
  | .record => "record"

def PlainKind.all : List PlainKind :=
  [.bool, .int, .long, .float, .double, .string, .bytes, .record]

def PlainKind.ofName? (name : String) : Option PlainKind :=
  PlainKind.all.find? fun kind => kind.name = name

/-- A value, if it is of the kind asked for. No value is turned into one of another kind. -/
def Value.convert (kind : PlainKind) (v : Value) : Except SchemaError Value :=
  if v.kind = kind.name then .ok v else .error (.valueMismatch kind.name v.kind)

/-- A computation that takes fields from a record. The record is kept when it fails. -/
abbrev Extraction := EStateM SchemaError Record

namespace Extraction

/-- Takes a field out of the record. -/
def take (name : String) : Extraction (Option Value) := do
  let r ← get
  set (r.erase name)
  return r.get? name

/-- Fails because a field is not there. -/
def missing {α : Type} (name : String) : Extraction α := do
  throw (.missingField (← get).typeName name)

/-- Fails because a field holds a value of another kind. -/
def mismatch {α : Type} (name expected found : String) : Extraction α := do
  throw (.fieldTypeMismatch (← get).typeName name expected found)

/-- The value of a field, if it is of the kind asked for. -/
def convert (name : String) (kind : PlainKind) (v : Value) : Extraction Value :=
  match v.convert kind with
  | .ok v => pure v
  | .error _ => mismatch name kind.name v.kind

/-- Takes a field that must be there and not be `null`. -/
def field (name : String) (kind : PlainKind) : Extraction Value := do
  match ← take name with
  | none => missing name
  | some .null => missing name
  | some v => convert name kind v

/-- Takes a field that may be absent or `null`. -/
def optionalField (name : String) (kind : PlainKind) : Extraction (Option Value) := do
  match ← take name with
  | none => return none
  | some .null => return none
  | some v => some <$> convert name kind v

/-- Takes a field that holds a list of values of one kind. -/
def listField (name : String) (kind : PlainKind) : Extraction (List Value) := do
  match ← take name with
  | none => missing name
  | some (.list items) => items.mapM (convert name kind)
  | some v => mismatch name "list" v.kind

def enumField (name : String) : Extraction String := do
  match ← take name with
  | none => missing name
  | some (.symbol s) => return s
  | some v => mismatch name "enum" v.kind

/-! ## Extraction as data -/

/-- One step of an extraction. -/
inductive Step where
  | field (name : String) (kind : PlainKind)
  | optionalField (name : String) (kind : PlainKind)
  | listField (name : String) (kind : PlainKind)
  | enumField (name : String)
  | take (name : String)
  /-- Refuses the record for a reason of its own. -/
  | fail (error : SchemaError)

/-- What a step has taken. -/
inductive Taken where
  | nothing
  | value (v : Value)
  | values (vs : List Value)
  | symbol (s : String)

/-- What was taken where nothing need be there. -/
def Taken.ofOption : Option Value → Taken
  | none => .nothing
  | some v => .value v

def Step.run : Step → Extraction Taken
  | .field name kind => .value <$> Extraction.field name kind
  | .optionalField name kind => .ofOption <$> Extraction.optionalField name kind
  | .listField name kind => .values <$> Extraction.listField name kind
  | .enumField name => .symbol <$> Extraction.enumField name
  | .take name => .ofOption <$> Extraction.take name
  | .fail error => throw error

/-- What is left of a record and what was taken from it. -/
structure Extract where
  rest : Record
  taken : List Taken

/-- Runs steps on a record, up to the first that fails. -/
def extract (steps : List Step) (r : Record) : Except SchemaError Extract :=
  match (steps.mapM Step.run).run r with
  | .ok taken rest => .ok ⟨rest, taken⟩
  | .error e _ => .error e

end Extraction

end RecordExchange
