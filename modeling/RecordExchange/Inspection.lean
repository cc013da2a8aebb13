import RecordExchange.Number.Shortest
import RecordExchange.SchemaStore

/-!
# Inspection texts

The form in which values, schemas and stores are shown to people. It names the parts of a value and
nests as they nest; texts are quoted so that every character is seen.

- `FloatStyle`: how floating-point words are written.
- `Value.inspect`, `Record.inspect`, `FieldType.inspect`, `Schema.inspect`.
- `SchemaStore.inspect`.
-/

namespace RecordExchange

namespace Inspection

/-- Items between brackets, with commas. -/
def bracketed (items : List String) : String :=
  "[" ++ ", ".intercalate items ++ "]"

/-- A constructor with one part. -/
def part (name content : String) : String :=
  name ++ "(" ++ content ++ ")"

/-- A structure with its fields by name. -/
def fields (name : String) (parts : List (String × String)) : String :=
  name ++ " \x7b " ++ ", ".intercalate (parts.map fun p => p.1 ++ ": " ++ p.2) ++ " \x7d"

/-- A map with its entries, keys quoted. -/
def entries (parts : List (String × String)) : String :=
  "\x7b" ++ ", ".intercalate (parts.map fun p => Quoted.text p.1 ++ ": " ++ p.2) ++ "\x7d"

def optional : Option String → String
  | none => "None"
  | some content => part "Some" content

end Inspection

/-! ## Floating-point words -/

/-- How a decimal is laid out: the exponents of the first digit that are written without a power of
ten. -/
structure FloatStyle where
  leastPositional : Int
  greatestPositional : Int

namespace FloatStyle

/-- Numbers from a ten-thousandth up to below ten to the sixteenth are written without a power of
ten. -/
def inspection : FloatStyle := ⟨-4, 15⟩

/-- A decimal without a power of ten, with at least one digit on each side of the point. -/
def positional (d : Decimal) : String :=
  let whole := (d.exponent + 1).toNat
  let leading := List.replicate (-(d.exponent + 1)).toNat '0' ++ d.digits
  if d.exponent < 0 then "0." ++ String.ofList leading
  else
    let digits := d.digits ++ List.replicate (whole - d.digits.length) '0'
    let rest := digits.drop whole
    String.ofList (digits.take whole) ++ "." ++ String.ofList (if rest.isEmpty then ['0'] else rest)

/-- A decimal with a power of ten: one digit before the point, and no point if no digit
follows. -/
def scientific (d : Decimal) : String :=
  let rest := d.digits.drop 1
  String.ofList (d.digits.take 1)
    ++ (if rest.isEmpty then "" else "." ++ String.ofList rest)
    ++ "e" ++ toString d.exponent

/-- The text of a floating-point word. The sign of zero is shown, that of NaN is not. -/
def write (style : FloatStyle) (f : BinaryFormat) (word : Nat) : String :=
  let sign := if f.isNegative word then "-" else ""
  match f.classify word with
  | .nan => "NaN"
  | .infinite => sign ++ "inf"
  | .finite 0 _ => sign ++ "0.0"
  | .finite m q =>
    let d := Shortest.decimal f m q
    if style.leastPositional ≤ d.exponent && d.exponent ≤ style.greatestPositional then
      sign ++ positional d
    else sign ++ scientific d

example : inspection.write .double 0x3ff8000000000000 = "1.5" := by decide +kernel

example : inspection.write .double 0x4341c37937e08000 = "1e16" := by decide +kernel

example : inspection.write .single 0x80000000 = "-0.0" := by decide +kernel

end FloatStyle

/-! ## Values -/

open Inspection

mutual

/-- The inspection text of a value. -/
def Value.inspect : Value → String
  | .null => "Null"
  | .bool b => part "Bool" (if b then "true" else "false")
  | .int n => part "Int" (toString n.toInt)
  | .long n => part "Long" (toString n.toInt)
  | .float w => part "Float" (FloatStyle.inspection.write .single w.toNat)
  | .double w => part "Double" (FloatStyle.inspection.write .double w.toNat)
  | .string s => part "String" (Quoted.text s)
  | .bytes bs => part "Bytes" (bracketed (bs.map fun b => toString b.toNat))
  | .symbol s => part "Enum" (Quoted.text s)
  | .list vs => part "List" (bracketed (inspectItems vs))
  | .map es => part "Map" (entries (inspectEntries es))
  | .record r => part "Record" r.inspect

def inspectItems : List Value → List String
  | [] => []
  | v :: vs => v.inspect :: inspectItems vs

def inspectEntries : List (String × Value) → List (String × String)
  | [] => []
  | (k, v) :: es => (k, v.inspect) :: inspectEntries es

def Record.inspect : Record → String
  | ⟨typeName, fs⟩ =>
    fields "Record"
      [("type_name", Quoted.text typeName),
       ("fields", bracketed ((inspectEntries fs).map fun f =>
          "(" ++ Quoted.text f.1 ++ ", " ++ f.2 ++ ")"))]

end

/-! ## Schemas -/

mutual

def FieldType.inspect : FieldType → String
  | .bool => "Bool"
  | .int => "Int"
  | .long => "Long"
  | .float => "Float"
  | .double => "Double"
  | .string => "String"
  | .bytes => "Bytes"
  | .enum symbols => part "Enum" (bracketed (symbols.map Quoted.text))
  | .optional inner => part "Optional" inner.inspect
  | .list item => part "List" item.inspect
  | .map item => part "Map" item.inspect
  | .record s => part "Record" s.inspect

def Schema.inspect : Schema → String
  | ⟨name, fs⟩ =>
    fields "Schema" [("name", Quoted.text name), ("fields", bracketed (inspectFields fs))]

def inspectFields : List Field → List String
  | [] => []
  | ⟨name, type, dflt⟩ :: rest =>
    fields "FieldDescriptor"
      [("name", Quoted.text name), ("field_type", type.inspect),
       ("default", optional (dflt.map Value.inspect))] :: inspectFields rest

end

/-- The inspection text of a store: how many schemas it keeps, and whether it has a source. -/
def SchemaStore.inspect (store : SchemaStore) : String :=
  fields "SchemaStore"
    [("schemas", toString store.size),
     ("external_resolver", if store.source.isSome then "true" else "false")]

end RecordExchange
