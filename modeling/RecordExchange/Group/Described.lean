import RecordExchange.Group.Application
import RecordExchange.Value.Extraction

/-!
# Applications described by data

A class may be described by its type name, its fields and the steps that take a record apart. An
object of such a class is what is left of its record, with what was taken from it.

- `ClassDescription`, `Application.described`.
-/

namespace RecordExchange

/-- A class as data. -/
structure ClassDescription where
  typeName : String
  fields : List Field
  /-- How an object is made of a record. -/
  steps : List Extraction.Step

namespace ClassDescription

def schema (d : ClassDescription) : Schema := ⟨d.typeName, d.fields⟩

end ClassDescription

/-- The application whose classes are the positions in a list of descriptions. -/
def Application.described (classes : List ClassDescription) : Application where
  Class := Fin classes.length
  Object _ := Extraction.Extract
  decideClass := inferInstance
  typeName c := classes[c].typeName
  fields c := classes[c].fields
  toRecord _ object := object.rest
  ofRecord c r := Extraction.extract classes[c].steps r

end RecordExchange
