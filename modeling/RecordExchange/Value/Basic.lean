import RecordExchange.Number.Binary

/-!
# Values and records

The dynamic values that are exchanged. A record is a type name with named values; a map lists its
entries in ascending order of keys; floating-point values are kept as words, so that two values are
the same Lean term exactly when they are the same on the wire.

- `Value`, `Record`: the two types, defined together.
- `Value.kind`: the name of a value's kind.
- `Value.ofEntries`: a map from entries in any order, where the last entry of a key counts.
- `Value.same`, `Record.same`: comparison as applications see it, with numeric equality of
  floating-point values.
- `Record.get?`, `Record.set`, `Record.erase`: the fields of a record by name.
-/

namespace RecordExchange

mutual

/-- A value. `null` stands for the absence of an optional value. -/
inductive Value where
  | null
  | bool (b : Bool)
  | int (n : Int32)
  | long (n : Int64)
  | float (word : UInt32)
  | double (word : UInt64)
  | string (text : String)
  | bytes (content : List UInt8)
  /-- A symbol of an enumeration. -/
  | symbol (name : String)
  | list (items : List Value)
  /-- Entries in ascending order of keys, no key twice. -/
  | map (entries : List (String × Value))
  | record (record : Record)

/-- A record: a type name and named values, no name twice. -/
structure Record where
  typeName : String
  fields : List (String × Value)

end

instance : Inhabited Value := ⟨.null⟩

instance : Inhabited Record := ⟨⟨"", []⟩⟩

namespace Value

def kind : Value → String
  | .null => "null"
  | .bool _ => "bool"
  | .int _ => "int"
  | .long _ => "long"
  | .float _ => "float"
  | .double _ => "double"
  | .string _ => "string"
  | .bytes _ => "bytes"
  | .symbol _ => "enum"
  | .list _ => "list"
  | .map _ => "map"
  | .record _ => "record"

def isNull : Value → Bool
  | .null => true
  | _ => false

end Value

/-! ## Entries of a map -/

namespace Entries

def hasKey (key : String) (entries : List (String × Value)) : Bool :=
  entries.any (·.1 == key)

/-- Puts an entry into an ascending list, in place of the entry of the same key if there is one. -/
def insert (key : String) (value : Value) : List (String × Value) → List (String × Value)
  | [] => [(key, value)]
  | (k, v) :: rest =>
    if key < k then (key, value) :: (k, v) :: rest
    else if key = k then (key, value) :: rest
    else (k, v) :: insert key value rest

end Entries

/-- A map from entries in any order. Of two entries with one key the later counts. -/
def Value.ofEntries (entries : List (String × Value)) : Value :=
  .map (entries.foldl (fun sorted e => Entries.insert e.1 e.2 sorted) [])

/-! ## Comparison -/

mutual

/-- Equality of values as applications see it: kinds agree, floating-point values are compared as
numbers, and all else part by part. -/
def Value.same : Value → Value → Bool
  | .null, .null => true
  | .bool a, .bool b => a == b
  | .int a, .int b => a == b
  | .long a, .long b => a == b
  | .float a, .float b => Binary.sameNumber .single a.toNat b.toNat
  | .double a, .double b => Binary.sameNumber .double a.toNat b.toNat
  | .string a, .string b => a == b
  | .bytes a, .bytes b => a == b
  | .symbol a, .symbol b => a == b
  | .list a, .list b => sameItems a b
  | .map a, .map b => sameEntries a b
  | .record a, .record b => a.same b
  | _, _ => false

def sameItems : List Value → List Value → Bool
  | [], [] => true
  | a :: as, b :: bs => a.same b && sameItems as bs
  | _, _ => false

def sameEntries : List (String × Value) → List (String × Value) → Bool
  | [], [] => true
  | (k, a) :: as, (l, b) :: bs => k == l && a.same b && sameEntries as bs
  | _, _ => false

/-- Equality of records as applications see it: the type names agree, and the fields position by
position. -/
def Record.same : Record → Record → Bool
  | ⟨m, as⟩, ⟨n, bs⟩ => m == n && sameEntries as bs

end

/-! ## Fields of a record -/

namespace Record

/-- The record of a type that has no field yet. -/
def empty (typeName : String) : Record := ⟨typeName, []⟩

def get? (r : Record) (name : String) : Option Value :=
  (r.fields.find? (·.1 == name)).map (·.2)

/-- Replaces the value of the first field of that name, or adds the field at the end. -/
def assign (name : String) (value : Value) : List (String × Value) → List (String × Value)
  | [] => [(name, value)]
  | (n, v) :: rest => if n = name then (n, value) :: rest else (n, v) :: assign name value rest

/-- Sets a field. A field that is present keeps its position. -/
def set (r : Record) (name : String) (value : Value) : Record :=
  { r with fields := assign name value r.fields }

def erase (r : Record) (name : String) : Record :=
  { r with fields := r.fields.eraseP (·.1 == name) }

def size (r : Record) : Nat := r.fields.length

/-- The record that results from setting fields one after another. -/
def ofFields (typeName : String) (fields : List (String × Value)) : Record :=
  fields.foldl (fun r f => r.set f.1 f.2) (empty typeName)

@[simp] theorem typeName_set (r : Record) (name : String) (value : Value) :
    (r.set name value).typeName = r.typeName := rfl

@[simp] theorem get?_set_self (r : Record) (name : String) (value : Value) :
    (r.set name value).get? name = some value := by
  obtain ⟨t, fs⟩ := r
  simp only [get?, set]
  induction fs with
  | nil => simp [assign]
  | cons f fs ih =>
    by_cases h : f.1 = name
    · simp [assign, h]
    · simp [assign, h, ih]

/-- Setting one field leaves the others as they are. -/
theorem get?_set_of_ne (r : Record) {name other : String} (value : Value) (h : other ≠ name) :
    (r.set name value).get? other = r.get? other := by
  have hne : (name == other) = false := beq_eq_false_iff_ne.mpr h.symm
  obtain ⟨t, fs⟩ := r
  simp only [get?, set]
  induction fs with
  | nil => simp [assign, hne]
  | cons f fs ih =>
    by_cases hf : f.1 = name
    · simp [assign, hf, hne]
    · simp only [assign, if_neg hf, List.find?_cons]
      split
      · rfl
      · exact ih

end Record

end RecordExchange
