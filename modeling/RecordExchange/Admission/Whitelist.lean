import RecordExchange.Admission.Policy
import RecordExchange.Group.Basic

/-!
# Whitelists

A whitelist gives a verdict on each type name in each group. It has no state: the same question
always gets the same answer.

- `Whitelist`, `Whitelist.all`.
- `Policy.whitelist`: the whitelist of a policy, which knows groups by their names.
-/

namespace RecordExchange

/-- The verdicts on type names in groups. -/
abbrev Whitelist (app : Application) := Group app → String → Bool

def Whitelist.all {app : Application} : Whitelist app := fun _ _ => true

def Policy.whitelist {app : Application} (policy : Policy) : Whitelist app :=
  fun group typeName => policy.permits group.name typeName

end RecordExchange
