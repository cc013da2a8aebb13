import RecordExchange.Schema.Canonical
import RecordExchange.Wire.Primitive

/-!
# Field orders

A record payload starts with the order of its values. Either the values follow in canonical order,
which takes one byte to say, or a table gives the canonical position of each value in turn.

- `FieldOrder.encode`: the order in which a schema declares its fields.
- `FieldOrder.decode`: the canonical positions in the order of the values. A table names each field
  of the schema once.
-/

namespace RecordExchange.FieldOrder

/-- Writes the order in which a schema declares its fields. -/
def encode (s : Schema) : List UInt8 :=
  if s.isCanonicalOrder then [0]
  else 1 :: (Wire.encodeLength s.size ++ s.canonicalOrder.flatMap Wire.encodeLength)

/-- Reads `left` entries of a table for `size` fields, of which those in `seen` have been named. -/
def decodeEntries (typeName : String) (size : Nat) : (left : Nat) → (seen : List Nat) →
    Decoder (List Nat)
  | 0, _ => return []
  | left + 1, seen => do
    let i ← Wire.decodeIndex
    if size ≤ i then Decoder.corrupt (.orderOutOfBounds i typeName size)
    else if seen.contains i then Decoder.corrupt (.orderDuplicate i typeName)
    else
      let rest ← decodeEntries typeName size left (i :: seen)
      return i :: rest

/-- Reads the order of the values of a record that was written with the schema. -/
def decode (writer : Schema) : Decoder (List Nat) := do
  let marker ← Decoder.byte
  if marker = 0 then return List.range writer.size
  else if marker = 1 then
    let count ← Wire.decodeLength
    if count ≠ writer.size then
      Decoder.corrupt (.orderCount writer.name count writer.size)
    else decodeEntries writer.name writer.size count []
  else Decoder.corrupt (.badOrderMarker marker writer.name)

end RecordExchange.FieldOrder
