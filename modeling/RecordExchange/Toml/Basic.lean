/-!
# TOML documents as trees

The tree of a document. How a table was written (under a header, with dotted keys, between braces)
is forgotten, and so are the digits of numbers that are not whole.

- `Toml`: the tree.
- `Toml.asString?`, `Toml.asStrings?`, `Toml.asNatural?`: single values.
- `Toml.members?`: the members of a table by their names, or of an array by their positions.
- `Toml.asChoice?`: one of several names.
-/

namespace RecordExchange

/-- The tree of a document or of a value in it. -/
inductive Toml where
  | string (text : String)
  | integer (n : Int)
  | float (spelling : String)
  | boolean (b : Bool)
  /-- A date, a time or both. -/
  | moment (spelling : String)
  | array (items : List Toml)
  | table (entries : List (String × Toml))

namespace Toml

instance : Inhabited Toml := ⟨.table []⟩

def asString? : Toml → Option String
  | .string text => some text
  | _ => none

def asStrings? : Toml → Option (List String)
  | .array items => items.mapM asString?
  | _ => none

/-- A whole number that is not negative. -/
def asNatural? : Toml → Option Nat
  | .integer n => if n < 0 then none else some n.toNat
  | _ => none

/-- The members that are looked for. A table has them under their names; an array has them in this
order, of which the last ones may be missing; in a moment none of them is found. What else stands
in the table or array does not matter. -/
def members? (names : List String) : Toml → Option (List (Option Toml))
  | .table entries => some (names.map fun n => entries.lookup n)
  | .array items => some ((List.range names.length).map (items[·]?))
  | .moment _ => some (names.map fun _ => none)
  | _ => none

/-- Whether a value is an empty table or an empty array. -/
def isEmpty : Toml → Bool
  | .array [] => true
  | .table [] => true
  | _ => false

/-- The name of a choice: a string, or a table of one empty entry under that name. -/
def asName? : Toml → Option String
  | .string name => some name
  | .table [(name, payload)] => if payload.isEmpty then some name else none
  | _ => none

/-- One of the named alternatives. -/
def asChoice? {α : Type} (alternatives : List (String × α)) (t : Toml) : Option α :=
  t.asName?.bind fun name => alternatives.lookup name

/-- The reading of a member, or its default when it is missing. -/
def orDefault {α : Type} (read : Toml → Option α) (dflt : α) : Option Toml → Option α
  | none => some dflt
  | some t => read t

end Toml

end RecordExchange
