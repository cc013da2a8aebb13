import RecordExchange.Endpoint.Deployment
import RecordExchange.Inspection

/-!
# Inspection texts of groups and endpoints

- `Binding.inspect`, `Group.inspect`: a class and a group of them.
- `Serializer.inspect`, `Endpoint.Decoded.inspect`.
- `Seat.inspect`: an endpoint at work with its store.
-/

namespace RecordExchange

open Inspection

variable {app : Application}

/-- A class by its name and the fingerprint of its schema. -/
def inspectClass (structureName : String) (b : Binding app) : String :=
  fields structureName
    [("type_name", Quoted.text b.typeName), ("fingerprint", b.schema.fingerprint.inspect)]

def Binding.inspect (b : Binding app) : String :=
  inspectClass "ClassBinding" b

/-- The inspection text of a group, with its classes by name. -/
def Group.inspect (g : Group app) : String :=
  let classes := g.classNames.filterMap fun n => (g.resolve? n).map fun b => (n, b.inspect)
  fields "SandboxGroup"
    [("id", part "SandboxGroupId" g.id.toText), ("name", Quoted.text g.name),
     ("classes", entries classes)]

def Serializer.inspect (s : Serializer app) : String :=
  inspectClass "ObjectSerializer" s.content

/-- The inspection text of a decoded object, which does not show the object. -/
def Endpoint.Decoded.inspect (d : Endpoint.Decoded app) : String :=
  "DecodedObject \x7b type_name: " ++ Quoted.text d.typeName
    ++ ", fingerprint: " ++ d.fingerprint.inspect ++ ", .. \x7d"

def Embedding.inspect : Embedding → String
  | .always => "Always"
  | .firstUse => "FirstUse"
  | .never => "Never"

def Settings.inspect (s : Settings) : String :=
  fields "FactoryConfig"
    [("schema_embedding", s.embedding.inspect), ("max_message_size", toString s.maxMessageSize)]

def Seat.inspect (seat : Seat app) (store : SchemaStore) : String :=
  fields "SerializerFactory"
    [("group", Quoted.text seat.endpoint.group.name),
     ("serializers", toString seat.registry.size), ("store", store.inspect),
     ("config", seat.endpoint.settings.inspect)]

end RecordExchange
