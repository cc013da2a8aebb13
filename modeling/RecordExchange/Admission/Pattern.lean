import RecordExchange.Text.Blank

/-!
# Patterns of type names

A pattern is a type name, or the beginning of type names followed by a star.

- `TypePattern`, `TypePattern.Matches`: the two kinds of patterns and what they stand for.
- `TypePattern.parse`: the pattern that a text spells.
- `PolicyError`: why a policy cannot be used.
-/

namespace RecordExchange

/-- Why a policy cannot be used. -/
inductive PolicyError where
  /-- A text is not a policy document. -/
  | unreadable
  /-- A text is not a pattern. -/
  | invalidPattern (text : String)
  deriving DecidableEq, Repr

def PolicyError.message : PolicyError → String
  | unreadable => "invalid whitelist policy"
  | invalidPattern text => s!"invalid type pattern '{text}'"

/-- A set of type names. -/
inductive TypePattern where
  /-- The one name. -/
  | exact (name : String)
  /-- All names that begin like this. -/
  | startingWith (stem : String)
  deriving DecidableEq, Repr

namespace TypePattern

/-- The names of a pattern. -/
def Matches : TypePattern → String → Prop
  | .exact name, typeName => typeName = name
  | .startingWith stem, typeName => ∃ rest, typeName = stem ++ rest

def test : TypePattern → String → Bool
  | .exact name, typeName => typeName == name
  | .startingWith stem, typeName => stem.toList.isPrefixOf typeName.toList

theorem test_iff_matches (p : TypePattern) (typeName : String) :
    p.test typeName = true ↔ p.Matches typeName := by
  cases p with
  | exact name => simp [test, Matches]
  | startingWith stem =>
    simp only [test, Matches, List.isPrefixOf_iff_prefix]
    constructor
    · rintro ⟨rest, h⟩
      exact ⟨String.ofList rest, by rw [← String.toList_inj, String.toList_append,
        String.toList_ofList, h]⟩
    · rintro ⟨rest, rfl⟩
      exact ⟨rest.toList, by rw [String.toList_append]⟩

/-- The pattern that a text spells, blanks at its two ends aside: a name, or a stem with one star
at its end. A stem may be empty, a name may not. -/
def parse (text : String) : Except PolicyError TypePattern :=
  let trimmed := Text.trim text
  let cs := trimmed.toList
  let stem := cs.dropLast
  -- A star is one only at the end.
  if cs.isEmpty || stem.contains '*' then .error (.invalidPattern trimmed)
  else if cs.getLast? = some '*' then .ok (.startingWith (String.ofList stem))
  else .ok (.exact trimmed)

example : (parse " com.acme.* ").toOption = some (.startingWith "com.acme.") := by
  decide +kernel

example : (parse "*").toOption = some (.startingWith "") := by decide +kernel

end TypePattern

end RecordExchange
