import RecordExchange.Number.Binary
import RecordExchange.Payload.Skip
import RecordExchange.Schema.Draft
import RecordExchange.Schema.Text

/-!
# Reading payloads

A record is read with the schema that it was written with, and comes out as a record of the schema
that the reader wants. Fields are matched by name: those that only the writer has are passed over,
those that only the reader has take their default, and the others are converted from the type
written to the type wanted.

- `FieldType.decodeFrom`, `Schema.decodeFrom`: reading what was written with another type.
- `FieldType.decode`: reading what was written with the same type.
- `Schema.positionsIn?`: the shortcut that finds all fields at once when both schemas have the same
  ones.
-/

namespace RecordExchange

namespace Decoder

/-- Reads `n` entries of a map and adds them to those read before. A key stands once. -/
def entries (value : Decoder Value) : (n : Nat) → List (String × Value) →
    Decoder (List (String × Value))
  | 0, found => return found
  | n + 1, found => do
    let key ← Wire.decodeString
    let v ← value
    if Entries.hasKey key found then corrupt (.duplicateKey key)
    else entries value n (Entries.insert key v found)

def mismatch {α : Type} (cause : Mismatch) : Decoder α :=
  throw (.mismatch cause)

def ofSchemaResult {α : Type} : Except SchemaError α → Decoder α
  | .ok a => pure a
  | .error e => throw (.ofSchemaError e)

end Decoder

/-! ## Finding the wanted fields -/

namespace Schema

/-- Notes for each field, from declared position `position` on, at which canonical position it
stands in the writer's schema; fails when another field stands there. -/
def placeFields (writer reader : Schema) : (position : Nat) → List Field → List Nat →
    Option (List Nat)
  | _, [], places => some places
  | position, f :: rest, places =>
    let index := reader.canonicalIndex f.name
    match writer.fields[index]? with
    | none => none
    | some w =>
      if w.name = f.name then
        placeFields writer reader (position + 1) rest (places.set index position)
      else none

/-- For each field of a canonical writer, the declared position of the field of that name in the
reader, if both have the same names. -/
def positionsIn? (writer reader : Schema) : Option (List Nat) :=
  if writer.size = reader.size then
    placeFields writer reader 0 reader.fields (List.replicate reader.size 0)
  else none

end Schema

/-- A decoder for each wanted field, which reads a value written as any type. -/
abbrev FieldDecoders := List (FieldType → Decoder Value)

namespace Decoder

/-- Reads the value of the written field `index` into the slot that the list of places gives. -/
def placed (writer : Schema) (wanted : FieldDecoders) (places : List Nat)
    (slots : List (Option Value)) (index : Nat) : Decoder (List (Option Value)) := do
  let w ← orCorrupt (.strayIndex index) writer.fields[index]?
  let position ← orCorrupt (.strayIndex index) places[index]?
  let read ← orCorrupt (.strayIndex index) wanted[position]?
  let v ← read w.type
  return slots.set position (some v)

/-- Reads the value of the written field `index` into the slot of the field of that name, or passes
over it. -/
def named (writer reader : Schema) (wanted : FieldDecoders) (slots : List (Option Value))
    (index : Nat) : Decoder (List (Option Value)) := do
  let w ← orCorrupt (.strayIndex index) writer.fields[index]?
  match reader.position? w.name with
  | none =>
    w.type.skip
    return slots
  | some position =>
    let read ← orCorrupt (.strayIndex index) wanted[position]?
    let v ← read w.type
    return slots.set position (some v)

/-- Reads the values in their order, with the shortcut when the fingerprints agree. -/
def slots (writer reader : Schema) (wanted : FieldDecoders) (order : List Nat) :
    Decoder (List (Option Value)) :=
  let empty := reader.fields.map fun _ => none
  -- Fingerprints that agree are no proof, so that the names are compared as well.
  let places :=
    if writer.fingerprint = reader.fingerprint then writer.positionsIn? reader else none
  match places with
  | some places => order.foldlM (placed writer wanted places) empty
  | none => order.foldlM (named writer reader wanted) empty

/-- Reads a record that was written with one schema as a record of another, given how to read the
wanted fields. -/
def record (writer reader : Schema) (wanted : FieldDecoders) : Decoder Record := do
  if writer.name ≠ reader.name then mismatch (.writerName writer.name reader.name)
  else
    let order ← FieldOrder.decode writer
    let filled ← slots writer reader wanted order
    let fields ← ofSchemaResult (fillSlots reader.name reader.fields filled)
    return Record.ofFields reader.name fields

end Decoder

/-! ## Reading as another type -/

mutual

/-- Reads a value that was written as one type and is wanted as another. Numbers are widened; a
value becomes an optional one, but not the other way round. The record type and the field are named
in failures. -/
def FieldType.decodeFrom (typeName field : String) :
    (wanted : FieldType) → (written : FieldType) → Decoder Value
  | .optional inner, .optional w => do
    if ← Decoder.branch then inner.decodeFrom typeName field w else return .null
  -- What was not written as optional is there.
  | .optional inner, w => inner.decodeFrom typeName field w
  | .bool, .bool => .bool <$> Wire.decodeBool
  | .int, .int => .int <$> Wire.decodeInt
  | .long, .int => (fun n => .long n.toInt64) <$> Wire.decodeInt
  | .float, .int => (fun n => .float (Binary.singleOfInt n.toInt)) <$> Wire.decodeInt
  | .double, .int => (fun n => .double (Binary.doubleOfInt n.toInt)) <$> Wire.decodeInt
  | .long, .long => .long <$> Wire.decodeLong
  | .float, .long => (fun n => .float (Binary.singleOfInt n.toInt)) <$> Wire.decodeLong
  | .double, .long => (fun n => .double (Binary.doubleOfInt n.toInt)) <$> Wire.decodeLong
  | .float, .float => .float <$> Wire.decodeFloat
  | .double, .float => (fun w => .double (Binary.widen w)) <$> Wire.decodeFloat
  | .double, .double => .double <$> Wire.decodeDouble
  | .string, .string => .string <$> Wire.decodeString
  | .bytes, .bytes => .bytes <$> Wire.decodeBytes
  | .enum wanted, .enum written => do
    let s ← Decoder.symbol written
    if wanted.contains s then return .symbol s
    else Decoder.mismatch (.unknownSymbol typeName field s)
  | .list item, .list w => do
    let n ← Wire.decodeLength
    .list <$> (item.decodeFrom typeName field w).times n
  | .map item, .map w => do
    let n ← Wire.decodeLength
    .map <$> Decoder.entries (item.decodeFrom typeName field w) n []
  | .record reader, .record writer => .record <$> reader.decodeFrom writer
  | wanted, written => Decoder.mismatch (.fieldType typeName field written.kind wanted.kind)

/-- Reads a record that was written with one schema and is wanted as a record of another. -/
def Schema.decodeFrom : (reader : Schema) → (writer : Schema) → Decoder Record
  | ⟨name, fields⟩, writer => Decoder.record writer ⟨name, fields⟩ (fieldDecoders name fields)

/-- For each wanted field, how to read a value written as any type. -/
def fieldDecoders (typeName : String) : List Field → FieldDecoders
  | [] => []
  | ⟨name, type, _⟩ :: rest => type.decodeFrom typeName name :: fieldDecoders typeName rest

end

/-! ## Reading as the same type -/

/-- Reads a value that was written as the type itself. -/
def FieldType.decode : FieldType → Decoder Value
  | .bool => .bool <$> Wire.decodeBool
  | .int => .int <$> Wire.decodeInt
  | .long => .long <$> Wire.decodeLong
  | .float => .float <$> Wire.decodeFloat
  | .double => .double <$> Wire.decodeDouble
  | .string => .string <$> Wire.decodeString
  | .bytes => .bytes <$> Wire.decodeBytes
  | .enum symbols => .symbol <$> Decoder.symbol symbols
  | .optional inner => do if ← Decoder.branch then inner.decode else return .null
  | .list item => do
    let n ← Wire.decodeLength
    .list <$> item.decode.times n
  | .map item => do
    let n ← Wire.decodeLength
    .map <$> Decoder.entries item.decode n []
  | .record s => .record <$> s.decodeFrom s

end RecordExchange
