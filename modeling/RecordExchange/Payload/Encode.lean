import RecordExchange.Payload.FieldOrder

/-!
# Writing payloads

A record is written as its field order and the values of its fields in declared order. A field that
the record leaves out is written with its default, so that the values are always complete.

- `FieldType.encode`, `Schema.encode`: the bytes of a value and of a record.
-/

namespace RecordExchange

/-- Writes whether an optional value follows. -/
def encodeBranch (present : Bool) : List UInt8 :=
  [if present then 1 else 0]

mutual

/-- The bytes of a value of a type. The record type and the field are named in failures. -/
def FieldType.encode (typeName field : String) :
    FieldType → Value → Except ExchangeError (List UInt8)
  | .optional inner, v =>
    if v.isNull then .ok (encodeBranch false)
    else (inner.encode typeName field v).map (encodeBranch true ++ ·)
  | .bool, .bool b => .ok (Wire.encodeBool b)
  | .int, .int n => .ok (Wire.encodeInt n)
  | .long, .long n => .ok (Wire.encodeLong n)
  | .float, .float w => .ok (Wire.encodeFloat w)
  | .double, .double w => .ok (Wire.encodeDouble w)
  | .string, .string s => .ok (Wire.encodeString s)
  | .bytes, .bytes bs => .ok (Wire.encodeBytes bs)
  | .enum symbols, .symbol s =>
    match symbols.idxOf? s with
    | some i => .ok (Wire.encodeLength i)
    | none => .error (.mismatch (.unknownSymbol typeName field s))
  | .list item, .list vs => do
    let parts ← vs.mapM fun v => item.encode typeName field v
    .ok (Wire.encodeLength vs.length ++ parts.flatten)
  | .map item, .map es => do
    let parts ← es.mapM fun e => (item.encode typeName field e.2).map (Wire.encodeString e.1 ++ ·)
    .ok (Wire.encodeLength es.length ++ parts.flatten)
  | .record s, .record r => s.encode r
  | t, v => .error (.mismatch (.valueKind typeName field t.kind v.kind))

def Schema.encode : Schema → Record → Except ExchangeError (List UInt8)
  | ⟨name, fields⟩, r =>
    if r.typeName = name then
      (encodeFields name fields r).map (FieldOrder.encode ⟨name, fields⟩ ++ ·)
    else .error (.mismatch (.recordName r.typeName name))

/-- The bytes of the values of fields, one after another. -/
def encodeFields (typeName : String) : List Field → Record → Except ExchangeError (List UInt8)
  | [], _ => .ok []
  | ⟨name, type, dflt⟩ :: rest, r =>
    match (r.get? name).or (Field.defaultValue ⟨name, type, dflt⟩) with
    | none => .error (.missingField typeName name)
    | some v => do
      let first ← type.encode typeName name v
      let others ← encodeFields typeName rest r
      .ok (first ++ others)

end

end RecordExchange
