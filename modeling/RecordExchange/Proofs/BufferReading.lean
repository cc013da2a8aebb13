import RecordExchange.Payload.Decode
import RecordExchange.Wire.Item

/-!
# Reading from a buffer

A decoder is given the bytes that are left, so that it cannot read any others. A machine has the whole
input in a buffer and a number for the position in it, it looks up fields and slots by their numbers,
and it shifts the words of the machine. Each of these accesses may go wrong. This module presents the
decoders once more in this way. An access that goes wrong is a fault, which is no answer to whoever has
sent the bytes.

- `BufferReader`: a computation that reads from a buffer, and either has a value or stops.
- `BufferReader.Fault`: the accesses that go wrong.
- `BufferReader.moveTo`, `BufferReader.slice`, `BufferReader.pick`, `BufferReader.store`,
  `BufferReader.subtract`, `BufferReader.shiftLeft`: the accesses, each of which is checked.
- `FieldType.readAs`, `Schema.readAs`, `FieldType.read`, `FieldType.passOver`: values and records.
- `ReaderCall`: what can be asked of a reader.
- `BufferReader.answers`, `Decoder.answers`: the answers to a sequence of calls.
-/

namespace RecordExchange

/-- An access that goes wrong. -/
inductive BufferReader.Fault where
  /-- A position in front of the one before it or behind the end. -/
  | position (before after size : Nat)
  /-- A part of the buffer that ends before it starts or behind the end. -/
  | slice (start stop size : Nat)
  /-- An index that is not below the size of what it is an index of. -/
  | index (index size : Nat)
  /-- A difference of numbers that would be negative. -/
  | difference (minuend subtrahend : Nat)
  /-- A shift by as many bits as a word has, or by more. -/
  | shift (bits : Nat)
  /-- A copy into a place of another size. -/
  | copy (found size : Nat)
  /-- The end of a loop that has to be left before. -/
  | loopEnd
  deriving DecidableEq, Repr

/-- Why a computation has no value. -/
inductive BufferReader.Stop where
  /-- A failure to be reported. -/
  | error (e : ExchangeError)
  | fault (f : BufferReader.Fault)

/-- A computation that reads from a buffer. Its state is a position in the buffer. -/
abbrev BufferReader := ReaderT (List UInt8) (EStateM BufferReader.Stop Nat)

namespace BufferReader

variable {α : Type}

/-- How a computation ends that starts at a position of a buffer. -/
def runAt (g : BufferReader α) (buffer : List UInt8) (position : Nat) :
    EStateM.Result Stop Nat α :=
  (ReaderT.run g buffer).run position

/-! ## Checked accesses -/

/-- Fails with an error that is reported. -/
def error (e : ExchangeError) : BufferReader α :=
  throw (.error e)

def fault (f : Fault) : BufferReader α :=
  throw (.fault f)

/-- The position that has been reached. -/
def position : BufferReader Nat :=
  get

/-- Sets the position, which never goes back and never leaves the buffer. -/
def moveTo (after : Nat) : BufferReader Unit := do
  let before ← position
  let size := (← read).length
  if before ≤ after ∧ after ≤ size then set after else fault (.position before after size)

def advance (count : Nat) : BufferReader Unit := do
  moveTo ((← position) + count)

/-- A part of the buffer. -/
def slice (start stop : Nat) : BufferReader (List UInt8) := do
  let buffer ← read
  if start ≤ stop ∧ stop ≤ buffer.length then return (buffer.drop start).take (stop - start)
  else fault (.slice start stop buffer.length)

/-- The item of an index. -/
def pick (items : List α) (index : Nat) : BufferReader α :=
  match items[index]? with
  | some a => return a
  | none => fault (.index index items.length)

/-- Puts an item in the place of an index. -/
def store (items : List α) (index : Nat) (a : α) : BufferReader (List α) :=
  if index < items.length then return items.set index a
  else fault (.index index items.length)

def subtract (minuend subtrahend : Nat) : BufferReader Nat :=
  if subtrahend ≤ minuend then return minuend - subtrahend
  else fault (.difference minuend subtrahend)

def shiftLeft (word : UInt64) (bits : Nat) : BufferReader UInt64 :=
  if bits < 64 then return word <<< UInt64.ofNat bits
  else fault (.shift bits)

/-- The number of bytes from the position to the end. -/
def remaining : BufferReader Nat := do
  subtract (← read).length (← position)

example : remaining.runAt [1, 2, 3] 2 = .ok 1 2 ∧
    remaining.runAt [1] 2 = .error (.fault (.difference 1 2)) 2 :=
  ⟨rfl, rfl⟩

/-! ## Failures -/

def corrupt (cause : Corruption) : BufferReader α :=
  error (.corrupt cause)

def mismatch (cause : Mismatch) : BufferReader α :=
  error (.mismatch cause)

/-- Fails because fewer bytes are left than are needed. -/
def endOfInput (needed : Nat) : BufferReader α := do
  corrupt (.endOfInput (← position) needed (← remaining))

def orCorrupt (cause : Corruption) : Option α → BufferReader α
  | some a => pure a
  | none => corrupt cause

def ofSchemaResult : Except SchemaError α → BufferReader α
  | .ok a => pure a
  | .error e => error (.ofSchemaError e)

/-! ## Primitive forms -/

def byte : BufferReader UInt8 := do
  match (← read)[← position]? with
  | none => endOfInput 1
  | some b =>
    advance 1
    return b

/-- Reads `n` bytes, or none of them when fewer are left. -/
def take (n : Nat) : BufferReader (List UInt8) := do
  if n ≤ (← remaining) then
    let start ← position
    let bytes ← slice start (start + n)
    advance n
    return bytes
  else endOfInput n

/-- Copies `n` bytes into a place of that size. -/
def array (n : Nat) : BufferReader (List UInt8) := do
  let bytes ← take n
  if bytes.length = n then return bytes else fault (.copy bytes.length n)

/-- Reads a byte that says no or yes. The offset of another one is that of the position before. -/
def flag (cause : UInt8 → Nat → Corruption) : BufferReader Bool := do
  let b ← byte
  if b = 0 then return false
  else if b = 1 then return true
  else corrupt (cause b (← subtract (← position) 1))

/-- Reads at most `left` more groups of a number, and shifts the next one by `shift` bits. -/
def groups (start : Nat) : (left shift : Nat) → (sum : UInt64) → BufferReader UInt64
  | 0, _, _ => fault .loopEnd
  | left + 1, shift, sum => do
    let b ← byte
    if left = 0 ∧ 1 < b.toNat then corrupt (.varintOverflow start)
    else
      let sum := sum ||| (← shiftLeft (b &&& 0x7f).toUInt64 shift)
      if b.toNat < 128 then
        if b.toNat = 0 ∧ shift ≠ 0 then corrupt (.varintPadded start)
        else return sum
      else groups start left (shift + 7) sum

def varint : BufferReader UInt64 := do
  groups (← position) Wire.maxGroups 0 0

def long : BufferReader Int64 :=
  Wire.unfold <$> varint

def int : BufferReader Int32 := do
  let start ← position
  let n ← long
  if Int32.minValue.toInt ≤ n.toInt ∧ n.toInt ≤ Int32.maxValue.toInt then return n.toInt32
  else corrupt (.intOutOfRange start n)

def float : BufferReader UInt32 := do
  return UInt32.ofNat (ByteOrder.ofLowFirst (← array 4))

def double : BufferReader UInt64 := do
  return UInt64.ofNat (ByteOrder.ofLowFirst (← array 8))

def length : BufferReader Nat := do
  let start ← position
  let n ← varint
  let left ← remaining
  if n.toNat ≤ left then return n.toNat
  else corrupt (.lengthTooLarge n start left)

def bytes : BufferReader (List UInt8) := do
  take (← length)

def string : BufferReader String := do
  let start ← position
  match Utf8.decode (← bytes) with
  | .ok s => return s
  | .error fault => corrupt (.badText start fault)

def index : BufferReader Nat :=
  UInt64.toNat <$> varint

/-- Fails when bytes are left. -/
def finish : BufferReader Unit := do
  let left ← remaining
  if left ≠ 0 then corrupt (.trailing left (← position))

def header : BufferReader Header := do
  let found ← array 2
  if found ≠ Header.marker then corrupt (.badMarker (← pick found 0) (← pick found 1))
  else
    let fingerprint := Fingerprint.ofBytes (← array Fingerprint.width)
    let flag ← byte
    if flag = 0 then return ⟨fingerprint, none⟩
    else if flag = 1 then return ⟨fingerprint, some (← string)⟩
    else corrupt (.badSchemaFlag flag)

/-- Reads an item of a form. -/
def item : Wire.Form → BufferReader Wire.Item
  | .byte => .byte <$> byte
  | .bool => .bool <$> flag .badBool
  | .varint => .varint <$> varint
  | .int => .int <$> int
  | .long => .long <$> long
  | .float => .float <$> float
  | .double => .double <$> double
  | .bytes => .bytes <$> bytes
  | .string => .string <$> string
  | .raw count => .raw <$> take count
  | .header => .header <$> header

/-! ## Parts of payloads -/

def symbol (symbols : List String) : BufferReader String := do
  let i ← index
  orCorrupt (.symbolOutOfRange i symbols.length) symbols[i]?

/-- The results of one computation `n` times over. -/
def times (g : BufferReader α) : (n : Nat) → BufferReader (List α)
  | 0 => return []
  | n + 1 => do
    let a ← g
    let as ← g.times n
    return a :: as

/-- Reads `n` entries of a map and adds them to those read before. -/
def entries (value : BufferReader Value) : (n : Nat) → List (String × Value) →
    BufferReader (List (String × Value))
  | 0, found => return found
  | n + 1, found => do
    let key ← string
    let v ← value
    if Entries.hasKey key found then corrupt (.duplicateKey key)
    else entries value n (Entries.insert key v found)

/-- Reads `left` entries of a table. There is a mark for each field that has been named. -/
def orderEntries (typeName : String) : (left : Nat) → (seen : List Bool) → BufferReader (List Nat)
  | 0, _ => return []
  | left + 1, seen => do
    let i ← index
    match seen[i]? with
    | none => corrupt (.orderOutOfBounds i typeName seen.length)
    | some true => corrupt (.orderDuplicate i typeName)
    | some false =>
      let rest ← orderEntries typeName left (← store seen i true)
      return i :: rest

def fieldOrder (writer : Schema) : BufferReader (List Nat) := do
  let marker ← byte
  if marker = 0 then return List.range writer.size
  else if marker = 1 then
    let count ← length
    if count ≠ writer.size then corrupt (.orderCount writer.name count writer.size)
    else orderEntries writer.name count (List.replicate count false)
  else corrupt (.badOrderMarker marker writer.name)

/-- Runs a computation for each index of an order, each one picked from a list. -/
def each (steps : List (BufferReader Unit)) (order : List Nat) : BufferReader Unit :=
  order.forM fun i => do ← pick steps i

/-! ## Finding the wanted fields -/

/-- Notes at each of the canonical positions the declared position of the field there. The canonical
positions of the declared fields are given from `position` on. -/
def placeFields (writer reader : Schema) : (position : Nat) → (canonical places : List Nat) →
    BufferReader (Option (List Nat))
  | _, [], places => return some places
  | position, index :: rest, places =>
    match writer.fields[index]? with
    | none => return none
    | some w => do
      let f ← pick reader.fields position
      if w.name = f.name then
        placeFields writer reader (position + 1) rest (← store places index position)
      else return none

def positionsIn? (writer reader : Schema) : BufferReader (Option (List Nat)) :=
  if writer.size = reader.size then
    placeFields writer reader 0 reader.canonicalOrder (List.replicate reader.size 0)
  else return none

end BufferReader

/-- For each field that is wanted, how to read a value for it that was written as any type. -/
abbrev FieldReaders := List (FieldType → BufferReader Value)

/-! ## Passing over values -/

mutual

/-- Passes over a value of a type. -/
def FieldType.passOver : FieldType → BufferReader Unit
  | .bool => do let _ ← BufferReader.flag .badBool
  | .int => do let _ ← BufferReader.int
  | .long => do let _ ← BufferReader.long
  | .float => do let _ ← BufferReader.take 4
  | .double => do let _ ← BufferReader.take 8
  | .string => do let _ ← BufferReader.string
  | .bytes => do let _ ← BufferReader.bytes
  | .enum symbols => do let _ ← BufferReader.symbol symbols
  | .optional inner => do if ← BufferReader.flag .badBranch then inner.passOver
  | .list item => do
    let _ ← item.passOver.times (← BufferReader.length)
  | .map item => do
    let entry : BufferReader Unit := do
      let _ ← BufferReader.string
      item.passOver
    let _ ← entry.times (← BufferReader.length)
  | .record s => s.passOver

/-- Passes over a record of a schema. -/
def Schema.passOver : Schema → BufferReader Unit
  | ⟨name, fields⟩ => do
    BufferReader.each (fieldPasses fields) (← BufferReader.fieldOrder ⟨name, fields⟩)

/-- For each field, how to pass over its value. -/
def fieldPasses : List Field → List (BufferReader Unit)
  | [] => []
  | ⟨_, type, _⟩ :: rest => type.passOver :: fieldPasses rest

end

/-! ## Reading records -/

namespace BufferReader

/-- Reads the value of the written field `index` into the slot that the list of places gives. -/
def placed (writer : Schema) (wanted : FieldReaders) (places : List Nat)
    (slots : List (Option Value)) (index : Nat) : BufferReader (List (Option Value)) := do
  let position ← pick places index
  let read ← pick wanted position
  let w ← pick writer.fields index
  let v ← read w.type
  store slots position (some v)

/-- Reads the value of the written field `index` into the slot of the field of that name, or passes
over it. -/
def named (writer reader : Schema) (wanted : FieldReaders) (slots : List (Option Value))
    (index : Nat) : BufferReader (List (Option Value)) := do
  let w ← pick writer.fields index
  match reader.position? w.name with
  | none =>
    w.type.passOver
    return slots
  | some position =>
    let read ← pick wanted position
    let v ← read w.type
    store slots position (some v)

/-- Reads the values in their order, with the shortcut when the fingerprints agree. -/
def slots (writer reader : Schema) (wanted : FieldReaders) (order : List Nat) :
    BufferReader (List (Option Value)) := do
  let empty := reader.fields.map fun _ => none
  let places ←
    if writer.fingerprint = reader.fingerprint then positionsIn? writer reader else pure none
  match places with
  | some places => order.foldlM (placed writer wanted places) empty
  | none => order.foldlM (named writer reader wanted) empty

/-- Reads a record that was written with one schema as a record of another, given how to read the
wanted fields. -/
def record (writer reader : Schema) (wanted : FieldReaders) : BufferReader Record := do
  if writer.name ≠ reader.name then mismatch (.writerName writer.name reader.name)
  else
    let order ← fieldOrder writer
    let filled ← slots writer reader wanted order
    let fields ← ofSchemaResult (fillSlots reader.name reader.fields filled)
    return Record.ofFields reader.name fields

end BufferReader

/-! ## Reading values -/

mutual

/-- Reads a value that was written as one type and is wanted as another. -/
def FieldType.readAs (typeName field : String) :
    (wanted : FieldType) → (written : FieldType) → BufferReader Value
  | .optional inner, .optional w => do
    if ← BufferReader.flag .badBranch then inner.readAs typeName field w else return .null
  | .optional inner, w => inner.readAs typeName field w
  | .bool, .bool => .bool <$> BufferReader.flag .badBool
  | .int, .int => .int <$> BufferReader.int
  | .long, .int => (fun n => .long n.toInt64) <$> BufferReader.int
  | .float, .int => (fun n => .float (Binary.singleOfInt n.toInt)) <$> BufferReader.int
  | .double, .int => (fun n => .double (Binary.doubleOfInt n.toInt)) <$> BufferReader.int
  | .long, .long => .long <$> BufferReader.long
  | .float, .long => (fun n => .float (Binary.singleOfInt n.toInt)) <$> BufferReader.long
  | .double, .long => (fun n => .double (Binary.doubleOfInt n.toInt)) <$> BufferReader.long
  | .float, .float => .float <$> BufferReader.float
  | .double, .float => (fun w => .double (Binary.widen w)) <$> BufferReader.float
  | .double, .double => .double <$> BufferReader.double
  | .string, .string => .string <$> BufferReader.string
  | .bytes, .bytes => .bytes <$> BufferReader.bytes
  | .enum wanted, .enum written => do
    let s ← BufferReader.symbol written
    if wanted.contains s then return .symbol s
    else BufferReader.mismatch (.unknownSymbol typeName field s)
  | .list item, .list w => do
    let n ← BufferReader.length
    .list <$> (item.readAs typeName field w).times n
  | .map item, .map w => do
    let n ← BufferReader.length
    .map <$> BufferReader.entries (item.readAs typeName field w) n []
  | .record reader, .record writer => .record <$> reader.readAs writer
  | wanted, written =>
    BufferReader.mismatch (.fieldType typeName field written.kind wanted.kind)

/-- Reads a record that was written with one schema and is wanted as a record of another. -/
def Schema.readAs : (reader : Schema) → (writer : Schema) → BufferReader Record
  | ⟨name, fields⟩, writer => BufferReader.record writer ⟨name, fields⟩ (fieldReaders name fields)

/-- For each wanted field, how to read a value written as any type. -/
def fieldReaders (typeName : String) : List Field → FieldReaders
  | [] => []
  | ⟨name, type, _⟩ :: rest => type.readAs typeName name :: fieldReaders typeName rest

end

/-- Reads a value that was written as the type itself. -/
def FieldType.read : FieldType → BufferReader Value
  | .bool => .bool <$> BufferReader.flag .badBool
  | .int => .int <$> BufferReader.int
  | .long => .long <$> BufferReader.long
  | .float => .float <$> BufferReader.float
  | .double => .double <$> BufferReader.double
  | .string => .string <$> BufferReader.string
  | .bytes => .bytes <$> BufferReader.bytes
  | .enum symbols => .symbol <$> BufferReader.symbol symbols
  | .optional inner => do if ← BufferReader.flag .badBranch then inner.read else return .null
  | .list item => do
    let n ← BufferReader.length
    .list <$> item.read.times n
  | .map item => do
    let n ← BufferReader.length
    .map <$> BufferReader.entries item.read n []
  | .record s => .record <$> s.readAs s

/-! ## Sequences of calls -/

/-- What can be asked of a reader. -/
inductive ReaderCall where
  /-- The number of bytes that are left. -/
  | remaining
  /-- Whether no bytes are left. -/
  | finish
  /-- A length or a count. -/
  | length
  /-- So many bytes, copied. -/
  | array (count : Nat)
  | item (form : Wire.Form)
  | fieldOrder (writer : Schema)
  | record (writer reader : Schema)
  | value (t : FieldType)
  | skip (t : FieldType)

/-- What a call gives when it does not fail. -/
inductive Reply where
  | done
  | number (n : Nat)
  | bytes (content : List UInt8)
  | item (i : Wire.Item)
  | order (positions : List Nat)
  | record (r : Record)
  | value (v : Value)

/-- What came of a call, and the position after it. -/
structure Answer where
  reply : Except ExchangeError Reply
  position : Nat

namespace ReaderCall

/-- A call of a decoder. -/
def decode : ReaderCall → Decoder Reply
  | .remaining => .number <$> Decoder.remaining
  | .finish => (fun _ => .done) <$> Decoder.finish
  | .length => .number <$> Wire.decodeLength
  | .array count => .bytes <$> Decoder.take count
  | .item form => .item <$> form.decode
  | .fieldOrder writer => .order <$> FieldOrder.decode writer
  | .record writer reader => .record <$> reader.decodeFrom writer
  | .value t => .value <$> t.decode
  | .skip t => (fun _ => .done) <$> t.skip

/-- The same call of a reader of a buffer. -/
def read : ReaderCall → BufferReader Reply
  | .remaining => .number <$> BufferReader.remaining
  | .finish => (fun _ => .done) <$> BufferReader.finish
  | .length => .number <$> BufferReader.length
  | .array count => .bytes <$> BufferReader.array count
  | .item form => .item <$> BufferReader.item form
  | .fieldOrder writer => .order <$> BufferReader.fieldOrder writer
  | .record writer reader => .record <$> reader.readAs writer
  | .value t => .value <$> t.read
  | .skip t => (fun _ => .done) <$> t.passOver

end ReaderCall

/-- Goes on after a failure, where it has left the cursor. -/
def Decoder.attempt {α : Type} (d : Decoder α) : Decoder (Except ExchangeError α) := fun c =>
  match d.run c with
  | .ok a after => .ok (.ok a) after
  | .error e after => .ok (.error e) after

/-- Goes on after a failure that was reported, but not after a fault. -/
def BufferReader.attempt {α : Type} (g : BufferReader α) : BufferReader (Except ExchangeError α) :=
  fun buffer position =>
    match g.runAt buffer position with
    | .ok a after => .ok (.ok a) after
    | .error (.error e) after => .ok (.error e) after
    | .error (.fault f) after => .error (.fault f) after

/-- The answers to calls that are made one after another, whatever comes of them. -/
def Decoder.answers : List ReaderCall → Decoder (List Answer)
  | [] => return []
  | call :: calls => do
    let reply ← attempt call.decode
    let position ← offset
    let answers ← answers calls
    return ⟨reply, position⟩ :: answers

/-- The answers of a reader of a buffer. -/
def BufferReader.answers : List ReaderCall → BufferReader (List Answer)
  | [] => return []
  | call :: calls => do
    let reply ← attempt call.read
    let position ← position
    let answers ← answers calls
    return ⟨reply, position⟩ :: answers

end RecordExchange
