import RecordExchange.Admission.Whitelist
import RecordExchange.Endpoint.Registry
import RecordExchange.Endpoint.Settings
import RecordExchange.Payload.Decode
import RecordExchange.Payload.Encode
import RecordExchange.SchemaStore
import RecordExchange.Wire.Header

/-!
# Endpoints

An endpoint turns the objects of one group into messages and messages into objects. A message is a
header and the payload of one record. No record type is written or read before the whitelist has
admitted it and every record type within it, and no object is made of a class that the group does
not bind.

- `Endpoint`: a group under a whitelist, with settings.
- `Exchange`: what an endpoint does, over what it has built up so far. A failure keeps what was
  built up before it.
- `Endpoint.serializerFor`: the serializer of a class.
- `Endpoint.encode`: the message of an object.
- `Endpoint.receive`: the record of a message, read as the group's own class declares it.
- `Endpoint.decode`, `Endpoint.decodeAs`: the object of a message.
- `Endpoint.dispose`: forgetting everything but the schemas.
-/

namespace RecordExchange

/-- A group under a whitelist, with settings. -/
structure Endpoint (app : Application) where
  whitelist : Whitelist app
  group : Group app
  settings : Settings

/-- What an endpoint has besides its registry. -/
structure Holdings where
  /-- The fingerprints whose schema has been sent. -/
  announced : List Fingerprint
  store : SchemaStore

/-- The serializer of a class: its binding, kept in a registry. -/
abbrev Serializer (app : Application) := Cached (Binding app)

namespace Serializer

variable {app : Application}

/-- The declared schema, which is written with and read into. -/
def schema (s : Serializer app) : Schema := s.content.schema

/-- The fingerprint that stands in the header of its messages. -/
def fingerprint (s : Serializer app) : Fingerprint := s.schema.fingerprint

def canonicalText (s : Serializer app) : String := s.schema.canonicalText

end Serializer

/-- What an endpoint does, over its registry and its holdings. -/
abbrev Exchange (app : Application) := EStateM ExchangeError (Registry (Binding app) × Holdings)

namespace Exchange

variable {app : Application} {α : Type}

def ofExcept : Except ExchangeError α → Exchange app α
  | .ok a => pure a
  | .error e => throw e

def ofSchemaResult : Except SchemaError α → Exchange app α
  | .ok a => pure a
  | .error e => throw (.ofSchemaError e)

def updateStore (f : SchemaStore → α × SchemaStore) : Exchange app α :=
  modifyGet fun (r, h) =>
    let (a, store) := f h.store
    (a, (r, { h with store := store }))

/-- Changes the store, or fails and leaves it. -/
def tryStore (f : SchemaStore → Except SchemaError (α × SchemaStore)) : Exchange app α := do
  let (a, store) ← ofSchemaResult (f (← get).2.store)
  modify fun (r, h) => (r, { h with store := store })
  return a

def read (d : Decoder α) (c : Cursor) : Exchange app (α × Cursor) :=
  match d.run c with
  | .ok a after => pure (a, after)
  | .error e _ => throw e

end Exchange

namespace Endpoint

variable {app : Application}

/-! ## Classes -/

/-- Fails unless the whitelist admits a type name to the group. -/
def permit (e : Endpoint app) (typeName : String) : Except ExchangeError Unit :=
  if e.whitelist e.group typeName then .ok ()
  else .error (.notPermitted e.group.name typeName)

/-- Fails unless the whitelist admits a schema and all record types within it. The first name that
is refused is reported. -/
def permitAll (e : Endpoint app) (s : Schema) : Except ExchangeError Unit :=
  s.recordNames.forM e.permit

def bound (e : Endpoint app) (typeName : String) : Except ExchangeError (Binding app) :=
  match e.group.resolve? typeName with
  | some b => .ok b
  | none => .error (.notBound e.group.name typeName)

/-- Makes the serializer of a class: admits what its schema names and puts the schema into the
store. -/
def synthesize (e : Endpoint app) (b : Binding app) : Exchange app (Binding app) := do
  Exchange.ofExcept (e.permitAll b.schema)
  let _ ← Exchange.updateStore fun store => store.register b.schema
  return b

/-- The serializer of a bound class, made on its first use. -/
def serializerOf (e : Endpoint app) (b : Binding app) : Exchange app (Serializer app) :=
  Registry.getOrSynthesize b.typeName (e.synthesize b)

/-- The serializer of a class, which must be the one that the group binds under its name. -/
def serializerFor (e : Endpoint app) (c : app.Class) : Exchange app (Serializer app) := do
  let b ← Exchange.ofExcept (e.bound (app.typeName c))
  -- The group may bind another class under this name.
  if b.cls = c then e.serializerOf b
  else throw (.notBound e.group.name (app.typeName c))

/-! ## Writing -/

/-- Whether a message is to carry its schema, given what has been announced. -/
def embeds (e : Endpoint app) (announced : List Fingerprint) (f : Fingerprint) : Bool :=
  match e.settings.embedding with
  | .always => true
  | .never => false
  | .firstUse => !announced.contains f

/-- Notes that a schema has been sent, where that matters. -/
def announce (e : Endpoint app) (f : Fingerprint) : Exchange app Unit :=
  if e.settings.embedding = .firstUse then
    modify fun (r, h) =>
      (r, if h.announced.contains f then h else { h with announced := f :: h.announced })
  else pure ()

/-- The message of an object. A schema counts as sent only if its message is within the limit. -/
def encode (e : Endpoint app) (c : app.Class) (object : app.Object c) :
    Exchange app (List UInt8) := do
  let s ← e.serializerFor c
  let carried := e.embeds (← get).2.announced s.fingerprint
  let header : Header := ⟨s.fingerprint, if carried then some s.canonicalText else none⟩
  let payload ← Exchange.ofExcept (s.schema.encode (app.toRecord c object))
  let message := header.encode ++ payload
  if e.settings.maxMessageSize < message.length then
    throw (.messageTooLarge message.length e.settings.maxMessageSize)
  if carried then e.announce s.fingerprint
  return message

/-! ## Reading -/

/-- The schema that a message was written with, in canonical order. -/
structure WriterSchema where
  schema : Schema
  /-- Whether the message carries it. -/
  carried : Bool

/-- The schema that a message carries, if it is the one that the header names; and otherwise the
schema that the store has or finds. -/
def writerSchema (header : Header) : Exchange app WriterSchema :=
  match header.schemaText with
  | none => return ⟨← Exchange.tryStore fun store => store.resolve header.fingerprint, false⟩
  | some text =>
    match Schema.ofText text with
    | .error e => throw (.corrupt (.embeddedSchema e))
    -- A text may be that of a schema and still not the one that the header names.
    | .ok s =>
      if s.fingerprint = header.fingerprint then return ⟨s.canonical, true⟩
      else throw (.corrupt (.embeddedFingerprint s.fingerprint header.fingerprint))

/-- What a message holds, before an object is made of it. -/
structure Received (app : Application) where
  fingerprint : Fingerprint
  writer : WriterSchema
  binding : Binding app
  record : Record

/-- The record of a message, read as the class declares it that the group binds under the name of
the writer's schema. -/
def receive (e : Endpoint app) (message : List UInt8) : Exchange app (Received app) := do
  if e.settings.maxMessageSize < message.length then
    throw (.corrupt (.messageTooLarge message.length e.settings.maxMessageSize))
  let (header, cursor) ← Exchange.read Header.decode (Cursor.start message)
  let writer ← writerSchema header
  Exchange.ofExcept (e.permitAll writer.schema)
  let b ← Exchange.ofExcept (e.bound writer.schema.name)
  let s ← e.serializerOf b
  let (record, cursor) ← Exchange.read (s.schema.decodeFrom writer.schema) cursor
  -- The message ends where the record does.
  let _ ← Exchange.read Decoder.finish cursor
  return ⟨header.fingerprint, writer, s.content, record⟩

/-- An object out of a message, with the fingerprint of the schema it was written with. -/
structure Decoded (app : Application) where
  cls : app.Class
  object : app.Object cls
  fingerprint : Fingerprint

def Decoded.typeName (d : Decoded app) : String := app.typeName d.cls

/-- The object of a message. The schema that the message carries is put into the store once the
object has been made. -/
def decode (e : Endpoint app) (message : List UInt8) : Exchange app (Decoded app) := do
  let m ← e.receive message
  let object ← Exchange.ofSchemaResult (m.binding.construct m.record)
  if m.writer.carried then
    let _ ← Exchange.tryStore fun store => store.registerAs m.fingerprint m.writer.schema
  return ⟨m.binding.cls, object, m.fingerprint⟩

/-- The object of a message that must be of a class. -/
def decodeAs (e : Endpoint app) (c : app.Class) (message : List UInt8) :
    Exchange app (app.Object c) := do
  let d ← e.decode message
  if h : d.cls = c then return h ▸ d.object
  else throw (.mismatch (.messageType d.typeName (app.typeName c)))

/-! ## Disposal -/

/-- Forgets the serializers and what has been announced. The store keeps its schemas. -/
def dispose : Exchange app Unit :=
  modify fun (r, h) => (r.clear, { h with announced := [] })

end Endpoint

end RecordExchange
