import RecordExchange.Schema.Validity

/-!
# Applications and their classes

An application has classes of objects. A class names a record type, declares its fields, and says
how an object becomes a record and how one is made from a record. Two classes may share a type
name.

- `Application`: the classes of an application with their objects.
- `Application.schema`: the schema that a class declares.
- `Binding`: a class whose schema is valid.
- `Binding.construct`: an object from a record of the class's type.
-/

namespace RecordExchange

/-- The classes of an application. -/
structure Application where
  Class : Type
  /-- The objects of a class. -/
  Object : Class → Type
  /-- Classes are told apart by themselves, not by their type names. -/
  decideClass : DecidableEq Class
  typeName : Class → String
  fields : Class → List Field
  toRecord : (c : Class) → Object c → Record
  ofRecord : (c : Class) → Record → Except SchemaError (Object c)

namespace Application

instance (app : Application) : DecidableEq app.Class := app.decideClass

/-- The schema that a class declares, with the fields in declared order. -/
def schema (app : Application) (c : app.Class) : Schema := ⟨app.typeName c, app.fields c⟩

end Application

/-- A class that declares a valid schema. -/
structure Binding (app : Application) where
  cls : app.Class
  valid : (app.schema cls).check = .ok ()

namespace Binding

variable {app : Application}

/-- A class, if the schema that it declares is valid. -/
def of (c : app.Class) : Except SchemaError (Binding app) :=
  match h : (app.schema c).check with
  | .ok () => .ok ⟨c, h⟩
  | .error e => .error e

theorem cls_eq_of_of {c : app.Class} {b : Binding app} (h : of c = .ok b) : b.cls = c := by
  unfold of at h
  split at h <;> cases h
  rfl

def typeName (b : Binding app) : String := app.typeName b.cls

def schema (b : Binding app) : Schema := app.schema b.cls

/-- Makes an object from a record, which must be of the class's type. -/
def construct (b : Binding app) (r : Record) : Except SchemaError (app.Object b.cls) :=
  if r.typeName = b.typeName then app.ofRecord b.cls r
  else .error (.recordTypeMismatch b.typeName r.typeName)

/-- A binding is its class: validity adds no content. -/
theorem eq_of_cls_eq {a b : Binding app} (h : a.cls = b.cls) : a = b := by
  cases a
  cases b
  cases h
  rfl

theorem name_schema (b : Binding app) : b.schema.name = b.typeName := rfl

end Binding

end RecordExchange
