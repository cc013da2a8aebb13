import RecordExchange.Admission.Policy
import RecordExchange.StoredFile
import RecordExchange.Toml.Document
import RecordExchange.Toml.Printer

/-!
# Policies in files

The rules of a policy are the table `whitelist` of a TOML document. What the document does not say
is empty, and an allow list is meant when it names no mode. A file that is missing or that holds no
policy stands for the policy that admits nothing, so that no fault of a file admits a type.

- `PolicyRules.ofToml`, `PolicyRules.toToml`: the two directions.
- `Policy.parse`: the policy of a document.
- `Policy.load`: the policy of a file.
-/

namespace RecordExchange

namespace PolicyMode

/-- The modes by their names in documents. -/
def names : List (String × PolicyMode) :=
  [("allowlist", .allowlist), ("denylist", .denylist), ("unrestricted", .unrestricted)]

def name : PolicyMode → String
  | .allowlist => "allowlist"
  | .denylist => "denylist"
  | .unrestricted => "unrestricted"

theorem lookup_name (m : PolicyMode) : names.lookup m.name = some m := by
  cases m <;> decide

end PolicyMode

namespace PolicyRules

/-- The patterns of a group: the member `types` of a table, or the first item of an array. -/
def groupOfToml (t : Toml) : Option (List String) := do
  match ← t.members? ["types"] with
  | [types] => Toml.orDefault Toml.asStrings? [] types
  | _ => none

/-- The patterns of all groups, in a table by their names. -/
def groupsOfToml : Toml → Option (List (String × List String))
  | .table entries => entries.mapM fun e => do return (e.1, ← groupOfToml e.2)
  | _ => none

def ofToml (t : Toml) : Option PolicyRules := do
  match ← t.members? ["mode", "types", "denied-types", "groups"] with
  | [mode, types, denied, groups] =>
    let mode ← Toml.orDefault (Toml.asChoice? PolicyMode.names) .allowlist mode
    let types ← Toml.orDefault Toml.asStrings? [] types
    let denied ← Toml.orDefault Toml.asStrings? [] denied
    let groups ← Toml.orDefault groupsOfToml [] groups
    return ⟨mode, types, denied, groups⟩
  | _ => none

def stringsToToml (texts : List String) : Toml := .array (texts.map .string)

def toToml (rules : PolicyRules) : Toml :=
  .table
    [("mode", .string rules.mode.name),
     ("types", stringsToToml rules.types),
     ("denied-types", stringsToToml rules.denied),
     ("groups", .table (rules.groups.map fun g =>
        (g.1, .table [("types", stringsToToml g.2)])))]

/-- The text of rules as a document of their own. -/
def render (rules : PolicyRules) : String :=
  rules.toToml.render

/-- The rules of a document that holds nothing else. -/
def parse (text : String) : Option PolicyRules :=
  (Toml.parse text).bind ofToml

end PolicyRules

namespace Policy

/-- The rules in the table `whitelist` of a document. -/
def rulesOfDocument (text : String) : Option PolicyRules := do
  match ← (← Toml.parse text).members? ["whitelist"] with
  | [rules] => Toml.orDefault PolicyRules.ofToml .empty rules
  | _ => none

def parse (text : String) : Except PolicyError Policy :=
  match rulesOfDocument text with
  | some rules => compile rules
  | none => .error .unreadable

/-- The policy of a file. It admits nothing unless the file holds a policy. -/
def load (file : StoredFile) : Policy :=
  match file with
  | .missing => denyAll
  | _ =>
    let policy :=
      match file.text?.map parse with
      | some (.ok policy) => policy
      | _ => denyAll
    { policy with fromFile := true }

end Policy

end RecordExchange
