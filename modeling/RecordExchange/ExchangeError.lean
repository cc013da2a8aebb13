import RecordExchange.Schema.Error
import RecordExchange.Text.Hex
import RecordExchange.Text.Utf8

/-!
# What can go wrong in an exchange

The failures of writing, reading and admitting messages, each with its cause.

- `Corruption`: what shows that bytes are no message.
- `Mismatch`: where a record, a schema and the type asked for do not agree.
- `ExchangeError`: all failures of an exchange.
- `ExchangeError.ofSchemaError`: what a fault of a schema or a record means for an exchange.
- `ExchangeError.isRetryable`: whether the same call may succeed later.
-/

namespace RecordExchange

/-- What shows that bytes are no message. Offsets count from the start of the message. -/
inductive Corruption where
  /-- The bytes end before what is to be read. -/
  | endOfInput (offset needed available : Nat)
  /-- A byte that is neither true nor false. -/
  | badBool (byte : UInt8) (offset : Nat)
  /-- A varint of more than 64 bits. -/
  | varintOverflow (offset : Nat)
  /-- A varint that a shorter one would spell. -/
  | varintPadded (offset : Nat)
  /-- A varint with no last byte. -/
  | varintTooLong (offset : Nat)
  /-- An integer of more than 32 bits. -/
  | intOutOfRange (offset : Nat) (value : Int64)
  /-- A length or a count above the number of bytes that follow it. -/
  | lengthTooLarge (length : UInt64) (offset remaining : Nat)
  /-- A text that is not UTF-8. -/
  | badText (offset : Nat) (fault : Utf8.Fault)
  /-- Bytes after the end. -/
  | trailing (count offset : Nat)
  /-- A message that does not start with the marker. -/
  | badMarker (first second : UInt8)
  /-- A byte that says neither that a schema follows nor that none does. -/
  | badSchemaFlag (byte : UInt8)
  /-- A byte that announces no field order. -/
  | badOrderMarker (byte : UInt8) (typeName : String)
  /-- A field order with another number of entries than the schema has fields. -/
  | orderCount (typeName : String) (count size : Nat)
  /-- A field order that names a field twice. -/
  | orderDuplicate (index : Nat) (typeName : String)
  /-- A field order that names a field that is not there. -/
  | orderOutOfBounds (index : Nat) (typeName : String) (size : Nat)
  /-- A byte that says neither that a value follows nor that none does. -/
  | badBranch (byte : UInt8) (offset : Nat)
  /-- An index above the symbols of an enumeration. -/
  | symbolOutOfRange (index size : Nat)
  /-- A key that stands twice in a map. -/
  | duplicateKey (key : String)
  /-- An index that names no field. Field orders are checked before they are used, so that no bytes
  lead here. -/
  | strayIndex (index : Nat)
  /-- A message above the size limit. -/
  | messageTooLarge (size limit : Nat)
  /-- A message that carries no valid schema text where one is announced. -/
  | embeddedSchema (cause : SchemaError)
  /-- A message that carries another schema than its header names. -/
  | embeddedFingerprint (actual claimed : Fingerprint)
  /-- A fault of a schema or a fingerprint. -/
  | schema (cause : SchemaError)
  deriving DecidableEq, Repr

def Corruption.message : Corruption → String
  | .endOfInput offset needed available =>
    s!"unexpected end of input at offset {offset}: needed {needed}, available {available}"
  | .badBool byte offset =>
    s!"invalid bool byte 0x{Hex.encode [byte]} at offset {offset}"
  | .varintOverflow offset => s!"varint overflows u64 at offset {offset}"
  | .varintPadded offset => s!"non-canonical varint at offset {offset}"
  | .varintTooLong offset => s!"varint too long at offset {offset}"
  | .intOutOfRange offset value => s!"int out of range at offset {offset}: {value.toInt}"
  | .lengthTooLarge length offset remaining =>
    s!"length {length.toNat} at offset {offset} exceeds remaining {remaining} bytes"
  | .badText offset fault => s!"invalid UTF-8 in string at offset {offset}: {fault.message}"
  | .trailing count offset => s!"{count} trailing bytes after offset {offset}"
  | .badMarker first second => s!"bad marker {Hex.encode [first, second]}"
  | .badSchemaFlag byte => s!"bad schema flag 0x{Hex.encode [byte]}"
  | .badOrderMarker byte typeName =>
    s!"bad field-order marker 0x{Hex.encode [byte]} for '{typeName}'"
  | .orderCount typeName count size =>
    s!"field-order table for '{typeName}' has {count} entries, schema has {size}"
  | .orderDuplicate index typeName =>
    s!"duplicate field index {index} in field-order table for '{typeName}'"
  | .orderOutOfBounds index typeName size =>
    s!"field index {index} out of bounds for '{typeName}' ({size} fields)"
  | .badBranch byte offset => s!"bad optional branch 0x{Hex.encode [byte]} at offset {offset}"
  | .symbolOutOfRange index size => s!"enum index {index} out of range ({size} symbols)"
  | .duplicateKey key => s!"duplicate map key '{key}'"
  | .strayIndex index => s!"field index {index} names no field"
  | .messageTooLarge size limit => s!"message of {size} bytes exceeds limit of {limit} bytes"
  | .embeddedSchema cause => s!"embedded schema: {cause.message}"
  | .embeddedFingerprint actual claimed =>
    s!"embedded schema hashes to {actual.toHex}, header says {claimed.toHex}"
  | .schema cause => cause.message

/-- Where a record, a schema and the type asked for do not agree. -/
inductive Mismatch where
  /-- A record of another type than the schema that it is to be written with. -/
  | recordName (found wanted : String)
  /-- A symbol that the enumeration of a field does not have. -/
  | unknownSymbol (typeName field symbol : String)
  /-- A value of another kind than its field. -/
  | valueKind (typeName field expected found : String)
  /-- A record written as one type and wanted as another. -/
  | writerName (writer reader : String)
  /-- A field written with a type that does not convert to the one wanted. -/
  | fieldType (typeName field written wanted : String)
  /-- A message that holds another type than the one asked for. -/
  | messageType (found expected : String)
  /-- A fault of a record under a schema. -/
  | schema (cause : SchemaError)
  deriving DecidableEq, Repr

def Mismatch.message : Mismatch → String
  | .recordName found wanted => s!"record is '{found}', schema is '{wanted}'"
  | .unknownSymbol typeName field symbol =>
    s!"'{typeName}.{field}' has no enum symbol '{symbol}'"
  | .valueKind typeName field expected found =>
    s!"'{typeName}.{field}' expects {expected}, got {found}"
  | .writerName writer reader => s!"writer record '{writer}' cannot be read as '{reader}'"
  | .fieldType typeName field written wanted =>
    s!"'{typeName}.{field}' was written as {written} and cannot be read as {wanted}"
  | .messageType found expected => s!"message holds '{found}', expected '{expected}'"
  | .schema cause => cause.message

/-- The failures of an exchange. -/
inductive ExchangeError where
  /-- The whitelist refuses a type to the group. -/
  | notPermitted (group typeName : String)
  /-- The group binds no class under the name. -/
  | notBound (group typeName : String)
  /-- No schema is known for the fingerprint. -/
  | unknownSchema (fingerprint : Fingerprint)
  | corrupt (cause : Corruption)
  /-- A field that has no default is not there. -/
  | missingField (typeName field : String)
  | mismatch (cause : Mismatch)
  /-- A class declares a schema that is not valid. -/
  | invalidSchema (cause : SchemaError)
  /-- A written message is above the size limit. -/
  | messageTooLarge (size limit : Nat)
  deriving DecidableEq, Repr

namespace ExchangeError

def message : ExchangeError → String
  | notPermitted group typeName =>
    s!"type '{typeName}' is not permitted in sandbox group '{group}'"
  | notBound group typeName => s!"type '{typeName}' is not bound in sandbox group '{group}'"
  | unknownSchema fingerprint => s!"unknown schema fingerprint {fingerprint.toHex}"
  | corrupt cause => s!"corrupt message: {cause.message}"
  | missingField typeName field => s!"missing required field '{field}' in '{typeName}'"
  | mismatch cause => s!"schema mismatch: {cause.message}"
  | invalidSchema cause => s!"invalid schema: {cause.message}"
  | messageTooLarge size limit => s!"message of {size} bytes exceeds limit of {limit} bytes"

/-- Only a missing schema may turn up later. -/
def isRetryable : ExchangeError → Bool
  | unknownSchema _ => true
  | _ => false

/-- What a fault of a schema or a record means for an exchange. -/
def ofSchemaError : SchemaError → ExchangeError
  | .missingField typeName field => missingField typeName field
  | .unknownSchema fingerprint => unknownSchema fingerprint
  | .malformed => corrupt (.schema .malformed)
  | .fingerprintMismatch claimed actual => corrupt (.schema (.fingerprintMismatch claimed actual))
  | .invalidFingerprint reason => corrupt (.schema (.invalidFingerprint reason))
  | .fieldTypeMismatch typeName field expected found =>
    mismatch (.schema (.fieldTypeMismatch typeName field expected found))
  | .valueMismatch expected found => mismatch (.schema (.valueMismatch expected found))
  | .recordTypeMismatch expected found => mismatch (.schema (.recordTypeMismatch expected found))
  | .unknownField typeName field => mismatch (.schema (.unknownField typeName field))
  | .fieldIndexOutOfRange typeName index size =>
    mismatch (.schema (.fieldIndexOutOfRange typeName index size))
  | .emptyName => invalidSchema .emptyName
  | .emptyFieldName typeName => invalidSchema (.emptyFieldName typeName)
  | .duplicateField typeName field => invalidSchema (.duplicateField typeName field)
  | .invalidEnum typeName field => invalidSchema (.invalidEnum typeName field)
  | .invalidDefault typeName field expected =>
    invalidSchema (.invalidDefault typeName field expected)

end ExchangeError

end RecordExchange
