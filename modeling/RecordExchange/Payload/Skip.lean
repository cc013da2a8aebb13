import RecordExchange.Payload.FieldOrder

/-!
# Passing over values

A value that the reader does not want is read as far as is needed to know where it ends.

- `Decoder.branch`, `Decoder.symbol`: the parts that skipping shares with reading.
- `FieldType.skip`: passes over a value of a type.
-/

namespace RecordExchange

namespace Decoder

/-- Reads whether an optional value follows. -/
def branch : Decoder Bool := do
  let start ← offset
  let b ← byte
  if b = 0 then return false
  else if b = 1 then return true
  else corrupt (.badBranch b start)

def symbol (symbols : List String) : Decoder String := do
  let i ← Wire.decodeIndex
  orCorrupt (.symbolOutOfRange i symbols.length) symbols[i]?

/-- Runs a computation for each index of an order, each one chosen from a list. -/
def each {α : Type} (steps : List (Decoder α)) (order : List Nat) : Decoder Unit :=
  order.forM fun i => do
    let _ ← (← orCorrupt (.strayIndex i) steps[i]?)

end Decoder

mutual

/-- Passes over a value of a type. -/
def FieldType.skip : FieldType → Decoder Unit
  | .bool => do let _ ← Wire.decodeBool
  | .int => do let _ ← Wire.decodeInt
  | .long => do let _ ← Wire.decodeLong
  | .float => do let _ ← Decoder.take 4
  | .double => do let _ ← Decoder.take 8
  | .string => do let _ ← Wire.decodeString
  | .bytes => do let _ ← Wire.decodeBytes
  | .enum symbols => do let _ ← Decoder.symbol symbols
  | .optional inner => do if ← Decoder.branch then inner.skip
  | .list item => do
    let _ ← item.skip.times (← Wire.decodeLength)
  | .map item => do
    let entry : Decoder Unit := do
      let _ ← Wire.decodeString
      item.skip
    let _ ← entry.times (← Wire.decodeLength)
  | .record s => s.skip

def Schema.skip : Schema → Decoder Unit
  | ⟨name, fields⟩ => do
    Decoder.each (fieldSkips fields) (← FieldOrder.decode ⟨name, fields⟩)

/-- For each field, the computation that passes over its value. -/
def fieldSkips : List Field → List (Decoder Unit)
  | [] => []
  | ⟨_, type, _⟩ :: rest => type.skip :: fieldSkips rest

end

end RecordExchange
