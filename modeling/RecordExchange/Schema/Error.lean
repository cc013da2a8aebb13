import RecordExchange.Fingerprint

/-!
# What can be wrong with schemas and records

- `SchemaError`: the causes, for schemas, for records under a schema, and for stores of schemas.
- `SchemaError.message`: the wording of each.
-/

namespace RecordExchange

/-- A fault of a schema, of a record under a schema, or of a request for a schema. Where a type is
named by its kind, the fields `expected` and `found` hold the names of kinds. -/
inductive SchemaError where
  /-- A schema has no name. -/
  | emptyName
  /-- A field has no name. -/
  | emptyFieldName (typeName : String)
  /-- Two fields share a name. -/
  | duplicateField (typeName field : String)
  /-- An enumeration has no symbols, an empty symbol or a symbol twice. -/
  | invalidEnum (typeName field : String)
  /-- A default is not a value of the field's type. -/
  | invalidDefault (typeName field expected : String)
  /-- No field has the name. -/
  | unknownField (typeName field : String)
  /-- No field has the position. -/
  | fieldIndexOutOfRange (typeName : String) (index size : Nat)
  /-- A field that has no default is not there. -/
  | missingField (typeName field : String)
  /-- The value of a field is of another type than the field. -/
  | fieldTypeMismatch (typeName field expected found : String)
  /-- A value is of another kind than the one asked for. -/
  | valueMismatch (expected found : String)
  /-- A record is of another type than the one asked for. -/
  | recordTypeMismatch (expected found : String)
  /-- A schema was offered under a fingerprint that is not its own. -/
  | fingerprintMismatch (claimed actual : Fingerprint)
  /-- No schema is known for the fingerprint. -/
  | unknownSchema (fingerprint : Fingerprint)
  /-- A text is not a fingerprint. -/
  | invalidFingerprint (reason : String)
  /-- A text is not the text of a valid schema. -/
  | malformed
  deriving DecidableEq, Repr

namespace SchemaError

def message : SchemaError → String
  | emptyName => "schema name must not be empty"
  | emptyFieldName typeName => s!"field name must not be empty in '{typeName}'"
  | duplicateField typeName field => s!"duplicate field '{field}' in '{typeName}'"
  | invalidEnum typeName field => s!"enum field '{field}' in '{typeName}' has invalid symbols"
  | invalidDefault typeName field expected =>
    s!"default for '{typeName}.{field}' does not conform to {expected}"
  | unknownField typeName field => s!"unknown field '{field}' in '{typeName}'"
  | fieldIndexOutOfRange typeName index size =>
    s!"field index {index} out of range for '{typeName}' ({size} fields)"
  | missingField typeName field => s!"missing required field '{field}' in '{typeName}'"
  | fieldTypeMismatch typeName field expected found =>
    s!"'{typeName}.{field}' expects {expected}, got {found}"
  | valueMismatch expected found => s!"expected {expected} value, got {found}"
  | recordTypeMismatch expected found => s!"record is '{found}', expected '{expected}'"
  | fingerprintMismatch claimed actual =>
    s!"schema registered under {claimed.toHex} has fingerprint {actual.toHex}"
  | unknownSchema fingerprint => s!"unknown schema fingerprint {fingerprint.toHex}"
  | invalidFingerprint reason => s!"invalid fingerprint: {reason}"
  | malformed => "malformed schema body"

end SchemaError

end RecordExchange
