import RecordExchange.Admission.Pattern

/-!
# Admission policies

A policy says which type names may cross into which groups. What is denied is denied to all. Of the
rest, an allow list admits what it lists, for all groups or for one group by its name; the other two
modes admit everything.

- `PolicyRules`: a policy as it is written down, with patterns as text.
- `Policy.compile`: the policy of rules, if all their patterns can be read.
- `Policy.permits`: the verdict on a type name in a group.
- `Policy.denyAll`: the policy that admits nothing.
-/

namespace RecordExchange

/-- How a policy takes the names that it does not deny. -/
inductive PolicyMode where
  /-- Only what is listed is admitted. -/
  | allowlist
  /-- Everything that is not denied is admitted. -/
  | denylist
  /-- The same verdicts as `denylist`, for policies that are to restrict as little as they can. -/
  | unrestricted
  deriving DecidableEq, Repr

/-- A policy as it is written down. -/
structure PolicyRules where
  mode : PolicyMode
  /-- The patterns that are admitted to all groups. -/
  types : List String
  /-- The patterns that are denied to all groups. -/
  denied : List String
  /-- Further patterns that are admitted to one group, by its name. -/
  groups : List (String × List String)
  deriving DecidableEq, Repr

namespace PolicyRules

def empty : PolicyRules := ⟨.allowlist, [], [], []⟩

/-- Gives a group its patterns, in place of those it had. -/
def setGroup (rules : PolicyRules) (name : String) (types : List String) : PolicyRules :=
  { rules with groups :=
      if (rules.groups.lookup name).isSome then
        rules.groups.map fun g => if g.1 = name then (name, types) else g
      else rules.groups ++ [(name, types)] }

end PolicyRules

/-- A policy that can be asked. -/
structure Policy where
  mode : PolicyMode
  allowed : List TypePattern
  denied : List TypePattern
  groups : List (String × List TypePattern)
  /-- Whether the policy stands for a file that is there. -/
  fromFile : Bool
  deriving DecidableEq, Repr

namespace Policy

def denyAll : Policy := ⟨.allowlist, [], [], [], false⟩

/-- The patterns of a list of texts, or the first fault. -/
def patterns (texts : List String) : Except PolicyError (List TypePattern) :=
  texts.mapM TypePattern.parse

def groupPatterns (groups : List (String × List String)) :
    Except PolicyError (List (String × List TypePattern)) :=
  groups.mapM fun g => do return (g.1, ← patterns g.2)

/-- The policy of rules. Every pattern must be readable, also one that the mode makes no use
of. -/
def compile (rules : PolicyRules) : Except PolicyError Policy := do
  let groups ← groupPatterns rules.groups
  let allowed ← patterns rules.types
  let denied ← patterns rules.denied
  return ⟨rules.mode, allowed, denied, groups, false⟩

def listed (ps : List TypePattern) (typeName : String) : Bool :=
  ps.any fun p => p.test typeName

/-- The further patterns of a group. -/
def groupPatternsOf (policy : Policy) (group : String) : List TypePattern :=
  (policy.groups.lookup group).getD []

/-- The verdict on a type name in a group. -/
def permits (policy : Policy) (group typeName : String) : Bool :=
  if listed policy.denied typeName then false
  else
    match policy.mode with
    | .allowlist =>
      listed policy.allowed typeName || listed (policy.groupPatternsOf group) typeName
    | .denylist | .unrestricted => true

theorem permits_denyAll (group typeName : String) : denyAll.permits group typeName = false :=
  rfl

end Policy

end RecordExchange
