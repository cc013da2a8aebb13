import RecordExchange.Group.Application
import RecordExchange.Group.Id

/-!
# Groups

A group is a space of names: it binds classes under their type names, each name once. What the
group does not bind cannot be made within it.

- `Group`, `Group.create`, `Group.bind`: a group and how its classes get into it.
- `Group.resolve?`: the class of a name.
- `Group.classNames`: the names, sorted.
-/

namespace RecordExchange

/-- Why a class cannot be bound. -/
inductive GroupError where
  /-- The type name is taken. -/
  | duplicateClass (group typeName : String)
  /-- The class declares a schema that is not valid. -/
  | invalidSchema (cause : SchemaError)
  deriving DecidableEq, Repr

def GroupError.message : GroupError → String
  | duplicateClass group typeName =>
    s!"type '{typeName}' is already bound in sandbox group '{group}'"
  | invalidSchema cause => s!"invalid schema: {cause.message}"

/-- A named set of classes with distinct type names. -/
structure Group (app : Application) where
  id : GroupId
  name : String
  bindings : List (Binding app)
  distinct : (bindings.map Binding.typeName).Nodup

namespace Group

variable {app : Application}

def empty (id : GroupId) (name : String) : Group app := ⟨id, name, [], List.nodup_nil⟩

/-- The names that are bound, the latest first. -/
def boundNames (g : Group app) : List String := g.bindings.map Binding.typeName

/-- Adds a class. The name is looked at before the schema. -/
def bind (g : Group app) (c : app.Class) : Except GroupError (Group app) :=
  if taken : app.typeName c ∈ g.boundNames then
    .error (.duplicateClass g.name (app.typeName c))
  else
    match bound : Binding.of c with
    | .error e => .error (.invalidSchema e)
    | .ok b =>
      .ok { g with
        bindings := b :: g.bindings
        distinct := by
          rw [← Binding.cls_eq_of_of bound] at taken
          exact List.nodup_cons.mpr ⟨taken, g.distinct⟩ }

/-- A group with classes, up to the first that cannot be bound. -/
def create (id : GroupId) (name : String) (classes : List app.Class) :
    Except GroupError (Group app) :=
  classes.foldlM bind (empty id name)

def resolve? (g : Group app) (typeName : String) : Option (Binding app) :=
  g.bindings.find? fun b => b.typeName == typeName

/-- The names that are bound, sorted. -/
def classNames (g : Group app) : List String :=
  g.boundNames.mergeSort fun a b => decide (a ≤ b)

def size (g : Group app) : Nat := g.bindings.length

/-- The name of a group with its identifier. -/
def title (g : Group app) : String := s!"{g.name} ({g.id.toText})"

/-- What is found under a name has that name. -/
theorem typeName_of_resolve? {g : Group app} {typeName : String} {b : Binding app}
    (h : g.resolve? typeName = some b) : b.typeName = typeName := by
  simpa using List.find?_some h

end Group

end RecordExchange
