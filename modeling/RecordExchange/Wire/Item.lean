import RecordExchange.Wire.Header

/-!
# Items of a message

A message as a sequence of items, each of one form. The forms of a sequence are all that a reader
has to know to read it back.

- `Wire.Item`, `Wire.Form`: a value in a form, and the form alone.
- `Wire.Item.encode`, `Wire.Form.decode`: the two directions.
- `Wire.encodeItems`, `Wire.decodeItems`: the same for sequences.
-/

namespace RecordExchange.Wire

/-- How an item is written. -/
inductive Form where
  | byte
  | bool
  | varint
  | int
  | long
  | float
  | double
  | bytes
  | string
  /-- So many bytes as they are. -/
  | raw (count : Nat)
  | header
  deriving DecidableEq, Repr

/-- A value in one of the forms. -/
inductive Item where
  | byte (b : UInt8)
  | bool (b : Bool)
  | varint (n : UInt64)
  | int (n : Int32)
  | long (n : Int64)
  | float (word : UInt32)
  | double (word : UInt64)
  | bytes (content : List UInt8)
  | string (s : String)
  | raw (content : List UInt8)
  | header (h : Header)
  deriving DecidableEq

def Item.form : Item → Form
  | .byte _ => .byte
  | .bool _ => .bool
  | .varint _ => .varint
  | .int _ => .int
  | .long _ => .long
  | .float _ => .float
  | .double _ => .double
  | .bytes _ => .bytes
  | .string _ => .string
  | .raw content => .raw content.length
  | .header _ => .header

def Item.encode : Item → List UInt8
  | .byte b => [b]
  | .bool b => encodeBool b
  | .varint n => encodeVarint n
  | .int n => encodeInt n
  | .long n => encodeLong n
  | .float word => encodeFloat word
  | .double word => encodeDouble word
  | .bytes content => encodeBytes content
  | .string s => encodeString s
  | .raw content => content
  | .header h => h.encode

/-- Reads an item of a form. -/
def Form.decode : Form → Decoder Item
  | .byte => .byte <$> Decoder.byte
  | .bool => .bool <$> decodeBool
  | .varint => .varint <$> decodeVarint
  | .int => .int <$> decodeInt
  | .long => .long <$> decodeLong
  | .float => .float <$> decodeFloat
  | .double => .double <$> decodeDouble
  | .bytes => .bytes <$> decodeBytes
  | .string => .string <$> decodeString
  | .raw count => .raw <$> Decoder.take count
  | .header => .header <$> Header.decode

def encodeItems (items : List Item) : List UInt8 :=
  items.flatMap Item.encode

/-- Reads items of these forms one after another. -/
def decodeItems (forms : List Form) : Decoder (List Item) :=
  forms.mapM Form.decode

end RecordExchange.Wire
