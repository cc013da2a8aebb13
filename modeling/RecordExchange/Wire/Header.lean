import RecordExchange.Wire.Primitive

/-!
# Message headers

A message starts with a marker of two bytes and the fingerprint of the schema that its payload was
written with. Then it carries the text of that schema, or says that it does not.

- `Header`, `Header.encode`, `Header.decode`.
-/

namespace RecordExchange

/-- What stands before the payload of a message. -/
structure Header where
  fingerprint : Fingerprint
  /-- The text of the schema, if the message carries it. -/
  schemaText : Option String
  deriving DecidableEq, Repr

namespace Header

/-- The first two bytes of every message. -/
def marker : List UInt8 := [0xC3, 0x01]

def encode (h : Header) : List UInt8 :=
  marker ++ h.fingerprint.toBytes ++
    match h.schemaText with
    | none => [0]
    | some text => 1 :: Wire.encodeString text

def decode : Decoder Header := do
  let found ← Decoder.take 2
  if found ≠ marker then Decoder.corrupt (.badMarker (found.getD 0 0) (found.getD 1 0))
  else
    let fingerprint := Fingerprint.ofBytes (← Decoder.take Fingerprint.width)
    let flag ← Decoder.byte
    if flag = 0 then return ⟨fingerprint, none⟩
    else if flag = 1 then return ⟨fingerprint, some (← Wire.decodeString)⟩
    else Decoder.corrupt (.badSchemaFlag flag)

end Header

end RecordExchange
