/-!
# Blank characters

The characters with the property White_Space, and a text without the blanks at its two ends.

- `isBlank`: the class.
- `trim`: a text without leading and trailing blanks.
- `IsBlank`: a text of blanks only, which is one that `trim` leaves empty.
-/

namespace RecordExchange.Text

/-- A character that has the property White_Space. -/
def isBlank (c : Char) : Bool :=
  let n := c.toNat
  (9 ≤ n && n ≤ 13) || n == 0x20 || n == 0x85 || n == 0xa0 || n == 0x1680
    || (0x2000 ≤ n && n ≤ 0x200a) || n == 0x2028 || n == 0x2029 || n == 0x202f || n == 0x205f
    || n == 0x3000

/-- A text without the blanks at its two ends. -/
def trim (s : String) : String :=
  String.ofList ((s.toList.dropWhile isBlank).reverse.dropWhile isBlank).reverse

/-- A text that holds nothing but blanks. -/
def IsBlank (s : String) : Prop :=
  ∀ c ∈ s.toList, isBlank c = true

instance (s : String) : Decidable (IsBlank s) :=
  inferInstanceAs (Decidable (∀ c ∈ s.toList, isBlank c = true))

/-- Every blank of ASCII that the core library knows is one here. -/
theorem isBlank_of_isWhitespace {c : Char} (h : c.isWhitespace = true) : isBlank c = true := by
  simp only [Char.isWhitespace, Bool.or_eq_true, decide_eq_true_eq] at h
  rcases h with ((rfl | rfl) | rfl) | rfl <;> decide

end RecordExchange.Text
