import RecordExchange.Toml.Number

/-!
# Reading TOML documents

A document is a sequence of headers and entries. A header opens a table, or a further table of an
array of tables; an entry puts a value under a key of the table that is open. A table may be opened
by a header only once, and what one notation has put together another may not extend.

- `Toml.Node`: a table under construction, with the notation of each part.
- `Toml.value`: values, with arrays and tables between braces.
- `Toml.parse`: the tree of a text.
-/

namespace RecordExchange.Toml

/-! ## Tables under construction -/

/-- How a table came to be. -/
inductive Origin where
  /-- Under a header of its own. -/
  | header
  /-- On the way to the table of a header. -/
  | path
  /-- On the way to the value of a dotted key. -/
  | dotted
  deriving DecidableEq, Repr

/-- A part of a document under construction. -/
inductive Node where
  /-- A finished value. -/
  | value (t : Toml)
  | table (origin : Origin) (entries : List (String × Node))
  /-- An array of tables, of which the last is open. -/
  | tables (closed : List (List (String × Node))) (last : List (String × Node))

/-- The entries of a table under construction. -/
abbrev Entries := List (String × Node)

namespace Node

/-- Puts a node under a key, in place of what stands there. -/
def put (key : String) (node : Node) : Entries → Entries
  | [] => [(key, node)]
  | (k, n) :: rest => if k = key then (k, node) :: rest else (k, n) :: put key node rest

/-- Puts a value under a key with dots. `origin` is that of the table in hand, and `direct` says
whether the key has no dots at all: a key without dots may not enter a table of dotted keys, and one
with dots ends in no other. -/
def assign (direct : Bool) (key : String) (v : Toml) :
    Origin → (path : List String) → Entries → Option Entries
  | origin, [], entries =>
    if (origin == .dotted) == direct then none
    else if (entries.lookup key).isSome then none
    else some (entries ++ [(key, .value v)])
  | _, step :: path, entries =>
    match entries.lookup step with
    | none =>
      (assign direct key v .dotted path []).map fun sub => put step (.table .dotted sub) entries
    | some (.value _) => none
    -- What a header has opened is closed to keys with dots.
    | some (.table .header _) => none
    | some (.table origin sub) =>
      (assign direct key v origin path sub).map fun sub => put step (.table origin sub) entries
    | some (.tables closed last) =>
      (assign direct key v .header path last).map fun last => put step (.tables closed last) entries

/-- Changes the entries of the table at a path of headers. Tables on the way that are not there are
made; of an array of tables the last is taken. -/
def within (change : Entries → Option Entries) : (path : List String) → Entries → Option Entries
  | [], entries => change entries
  | step :: path, entries =>
    match entries.lookup step with
    | none => (within change path []).map fun sub => put step (.table .path sub) entries
    | some (.value _) => none
    | some (.table origin sub) =>
      (within change path sub).map fun sub => put step (.table origin sub) entries
    | some (.tables closed last) =>
      (within change path last).map fun last => put step (.tables closed last) entries

/-- Opens a table under a key. Only a table that no header has opened may be there. -/
def openTable (key : String) (entries : Entries) : Option Entries :=
  match entries.lookup key with
  | none => some (put key (.table .header []) entries)
  | some (.table .path sub) => some (put key (.table .header sub) entries)
  | _ => none

/-- Opens a further table of the array of tables under a key. -/
def openFurther (key : String) (entries : Entries) : Option Entries :=
  match entries.lookup key with
  | none => some (put key (.tables [] []) entries)
  | some (.tables closed last) => some (put key (.tables (closed ++ [last]) []) entries)
  | _ => none

mutual

def toToml : Node → Toml
  | .value t => t
  | .table _ entries => .table (entriesToToml entries)
  | .tables closed last => .array (tablesToToml closed ++ [.table (entriesToToml last)])

def entriesToToml : List (String × Node) → List (String × Toml)
  | [] => []
  | (k, n) :: rest => (k, n.toToml) :: entriesToToml rest

def tablesToToml : List (List (String × Node)) → List Toml
  | [] => []
  | t :: rest => .table (entriesToToml t) :: tablesToToml rest

end

end Node

/-- The table of keys and values in the order in which they were given. -/
def tableOf (pairs : List ((List String × String) × Toml)) : Option Toml := do
  let entries ← pairs.foldlM
    (fun entries p => Node.assign p.1.1.isEmpty p.1.2 p.2 .header p.1.1 entries) []
  some (.table (Node.entriesToToml entries))

/-! ## Values -/

/-- A value that holds no other. -/
def scalar (cs : List Char) : Option (Toml × List Char) :=
  match cs with
  | '"' :: _ => (stringToken cs).map fun (s, rest) => (.string s, rest)
  | '\'' :: _ => (stringToken cs).map fun (s, rest) => (.string s, rest)
  | 't' :: 'r' :: 'u' :: 'e' :: rest => some (.boolean true, rest)
  | 'f' :: 'a' :: 'l' :: 's' :: 'e' :: rest => some (.boolean false, rest)
  | _ =>
    match momentToken cs with
    | some (s, rest) => some (.moment s, rest)
    | none =>
      match floatToken cs with
      | some (s, rest) => some (.float s, rest)
      | none => (integerToken cs).map fun (n, rest) => (.integer n, rest)

mutual

/-- The value at the front of the characters, inside `depth` arrays and tables. -/
def value : (fuel depth : Nat) → List Char → Option (Toml × List Char)
  | 0, _, _ => none
  | fuel + 1, depth, cs =>
    match cs with
    | '[' :: rest =>
      if depth + 1 < nestingLimit then
        match skipLines rest.length rest with
        | ']' :: rest => some (.array [], rest)
        | rest => (items fuel (depth + 1) rest).map fun (ts, rest) => (.array ts, rest)
      else none
    | '\x7b' :: rest =>
      if depth + 1 < nestingLimit then
        -- A table between braces stays on one line.
        match skipSpace rest with
        | '\x7d' :: rest => some (.table [], rest)
        | rest => do
          let (pairs, rest) ← inlineEntries fuel (depth + 1) rest
          let t ← tableOf pairs
          some (t, rest)
      else none
    | cs => scalar cs

/-- The items of an array up to its closing bracket, of which there is at least one. A comma may
follow the last. -/
def items : (fuel depth : Nat) → List Char → Option (List Toml × List Char)
  | 0, _, _ => none
  | fuel + 1, depth, cs => do
    let (t, rest) ← value fuel depth cs
    match skipLines rest.length rest with
    | ']' :: rest => some ([t], rest)
    | ',' :: rest =>
      match skipLines rest.length rest with
      | ']' :: rest => some ([t], rest)
      | rest =>
        let (ts, rest) ← items fuel depth rest
        some (t :: ts, rest)
    | _ => none

/-- The entries of a table between braces up to the closing one, of which there is at least one. -/
def inlineEntries : (fuel depth : Nat) → List Char →
    Option (List ((List String × String) × Toml) × List Char)
  | 0, _, _ => none
  | fuel + 1, depth, cs => do
    let (key, rest) ← keyPath cs
    let rest ← expect '=' rest
    let (t, rest) ← value fuel depth (skipSpace rest)
    match skipSpace rest with
    | '\x7d' :: rest => some ([(key, t)], rest)
    | ',' :: rest =>
      let (pairs, rest) ← inlineEntries fuel depth rest
      some ((key, t) :: pairs, rest)
    | _ => none

end

/-! ## Documents -/

/-- A document under construction: its entries, and the path of the header in force. -/
structure Outline where
  entries : Entries
  path : List String

/-- An entry of the open table. -/
def entryLine (outline : Outline) (cs : List Char) : Option (Outline × List Char) := do
  let ((path, key), rest) ← keyPath cs
  let rest ← expect '=' rest
  -- A value takes two calls at most for each of its characters.
  let (t, rest) ← value (2 * rest.length + 2) 0 (skipSpace rest)
  let rest ← lineEnd rest
  let assigned := Node.assign path.isEmpty key t .header path
  let entries ← Node.within assigned outline.path outline.entries
  some ({ outline with entries := entries }, rest)

/-- A header, whose first bracket has been read. -/
def headerLine (outline : Outline) (cs : List Char) : Option (Outline × List Char) :=
  match cs with
  | '[' :: cs => do
    let ((path, key), rest) ← keyPath cs
    let rest ← lineEnd (← expect ']' (← expect ']' rest))
    let entries ← Node.within (Node.openFurther key) path outline.entries
    some (⟨entries, path ++ [key]⟩, rest)
  | cs => do
    let ((path, key), rest) ← keyPath cs
    let rest ← lineEnd (← expect ']' rest)
    let entries ← Node.within (Node.openTable key) path outline.entries
    some (⟨entries, path ++ [key]⟩, rest)

/-- The lines of a document, one after another. -/
def lines : (fuel : Nat) → Outline → List Char → Option Outline
  | 0, _, _ => none
  | fuel + 1, outline, cs =>
    match skipSpace cs with
    | [] => some outline
    | '#' :: rest => do lines fuel outline (← lineEnd ('#' :: rest))
    | '[' :: rest => do
      let (outline, rest) ← headerLine outline rest
      lines fuel outline rest
    | c :: rest =>
      match newline? (c :: rest) with
      | some rest => lines fuel outline rest
      | none => do
        let (outline, rest) ← entryLine outline (c :: rest)
        lines fuel outline rest

/-- The characters without a byte order mark at their front. -/
def dropMark : List Char → List Char
  | '\ufeff' :: rest => rest
  | cs => cs

/-- The tree of a text. Each line takes at least one character. -/
def parse (text : String) : Option Toml := do
  let cs := dropMark text.toList
  let outline ← lines (cs.length + 1) ⟨[], []⟩ cs
  some (.table (Node.entriesToToml outline.entries))

end RecordExchange.Toml
