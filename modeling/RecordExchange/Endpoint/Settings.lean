import RecordExchange.StoredFile
import RecordExchange.Toml.Document
import RecordExchange.Toml.Printer

/-!
# Settings of endpoints

When a message carries the schema that it was written with, and how large a message may be. The
settings are the table `factory` of a TOML document; what it does not set has its default, and so
has everything when a file is missing or holds no settings.

- `Embedding`, `Settings`.
- `Settings.parse`, `Settings.load`: from a document, from a file.
- `Settings.render?`: as a document.
-/

namespace RecordExchange

/-- Which messages carry their schema. -/
inductive Embedding where
  | always
  /-- The first message of each schema. -/
  | firstUse
  /-- None: readers must know the schema or have a source for it. -/
  | never
  deriving DecidableEq, Repr

namespace Embedding

/-- The choices by their names in documents. -/
def names : List (String × Embedding) :=
  [("always", .always), ("first-use", .firstUse), ("never", .never)]

def name : Embedding → String
  | .always => "always"
  | .firstUse => "first-use"
  | .never => "never"

theorem lookup_name (m : Embedding) : names.lookup m.name = some m := by
  cases m <;> decide

end Embedding

/-- The settings of an endpoint. -/
structure Settings where
  embedding : Embedding
  /-- The greatest number of bytes of a message. -/
  maxMessageSize : Nat
  deriving DecidableEq, Repr

namespace Settings

/-- Every message carries its schema and has up to sixteen mebibytes. -/
def standard : Settings := ⟨.always, 16 * 1024 * 1024⟩

def ofToml (t : Toml) : Option Settings := do
  match ← t.members? ["schema-embedding", "max-message-size"] with
  | [embedding, size] =>
    let embedding ← Toml.orDefault (Toml.asChoice? Embedding.names) standard.embedding embedding
    let size ← Toml.orDefault Toml.asNatural? standard.maxMessageSize size
    return ⟨embedding, size⟩
  | _ => none

def toToml (s : Settings) : Toml :=
  .table
    [("schema-embedding", .string s.embedding.name),
     ("max-message-size", .integer s.maxMessageSize)]

/-- The greatest number in a TOML document. -/
def greatestInteger : Nat := Int64.maxValue.toInt.toNat

/-- The text of settings as a document of their own, unless the size is no TOML number. -/
def render? (s : Settings) : Option String :=
  if s.maxMessageSize ≤ greatestInteger then some s.toToml.render else none

/-- The settings in the table `factory` of a document. -/
def parse (text : String) : Option Settings := do
  match ← (← Toml.parse text).members? ["factory"] with
  | [settings] => Toml.orDefault ofToml standard settings
  | _ => none

/-- The settings of a file, or the standard ones. -/
def load (file : StoredFile) : Settings :=
  (file.text?.bind parse).getD standard

end Settings

end RecordExchange
