import RecordExchange.Json.Parser
import RecordExchange.Json.Printer

/-!
# Printed trees read back

A tree whose strings have content and that holds no number is read back from its compact text. So
no two such trees have the same text, whatever characters their strings hold.

- `Json.Plain`: the trees in question.
- `Json.stringBody_escape`: a string is read up to its closing quote and no further.
- `Json.value_print`: a tree is read from the front of any characters that start with its text.
- `Json.parse_render`, `Json.render_injective`.
-/

namespace RecordExchange.Json

mutual

/-- A tree is plain when its strings and keys have content and it holds no number. -/
def Plain : Json → Prop
  | .null => True
  | .bool _ => True
  | .number _ => False
  | .string content => content.isSome = true
  | .array items => PlainItems items
  | .object members => PlainMembers members

/-- Every item is plain. -/
def PlainItems : List Json → Prop
  | [] => True
  | j :: js => j.Plain ∧ PlainItems js

/-- Every member has a key with content and is plain. -/
def PlainMembers : List (Option String × Json) → Prop
  | [] => True
  | (k, j) :: ms => (k.isSome = true ∧ j.Plain) ∧ PlainMembers ms

end

/-! ## Strings -/

/-- The code of a control character is spelled by four digits. -/
theorem fourDigits?_digit : ∀ n < 32,
    fourDigits? '0' '0' (Hex.digit (n / 16)) (Hex.digit (n % 16)) = some n := by
  decide

/-- What scanning has to make of a character: one piece, which stands for the character whatever
pieces come after it. -/
def ScannedAs (c : Char) (piece : Piece) : Prop :=
  (∀ tail, scanString (escape c ++ tail)
    = (scanString tail).bind fun (pieces, rest) => some (piece :: pieces, rest)) ∧
  ∀ pieces, assemble (piece :: pieces) = (assemble pieces).map (c :: ·)

/-- Each character is scanned as one piece, be it escaped by a letter, by its code or not at all. -/
theorem exists_scannedAs (c : Char) : ∃ piece, ScannedAs c piece := by
  by_cases hletter : c ∈ ['"', '\\', '\x08', '\t', '\n', '\x0c', '\r']
  · simp only [List.mem_cons, List.not_mem_nil, or_false] at hletter
    rcases hletter with rfl | rfl | rfl | rfl | rfl | rfl | rfl
    all_goals exact ⟨.char _, fun _ => rfl, fun _ => rfl⟩
  · simp only [List.mem_cons, List.not_mem_nil, or_false, not_or] at hletter
    obtain ⟨hquote, hslash, hb, ht, hn, hf, hr⟩ := hletter
    by_cases hcontrol : c.toNat < 0x20
    · -- The code of a control character is no half of a pair, so it stands for itself.
      have hescape : escape c
          = ['\\', 'u', '0', '0', Hex.digit (c.toNat / 16), Hex.digit (c.toNat % 16)] := by
        simp [escape, hquote, hslash, hb, ht, hn, hf, hr, hcontrol]
      refine ⟨.unit c.toNat, fun tail => ?_, fun pieces => ?_⟩
      · rw [hescape]
        show ((fourDigits? '0' '0' (Hex.digit (c.toNat / 16)) (Hex.digit (c.toNat % 16))).bind
          fun n => (scanString tail).bind fun (pieces, rest) => some (.unit n :: pieces, rest)) = _
        rw [fourDigits?_digit c.toNat hcontrol]
        rfl
      · have hhigh : isHighHalf c.toNat = false := by
          simp only [isHighHalf, Bool.and_eq_false_iff, decide_eq_false_iff_not]
          omega
        have hlow : isLowHalf c.toNat = false := by
          simp only [isLowHalf, Bool.and_eq_false_iff, decide_eq_false_iff_not]
          omega
        rw [assemble.eq_def]
        simp only [hhigh, hlow, Bool.false_eq_true, if_false, Char.ofNat_toNat]
    · -- Any other character is its own piece, since only a backslash would start an escape.
      have hescape : escape c = [c] := by
        simp [escape, hquote, hslash, hb, ht, hn, hf, hr, hcontrol]
      refine ⟨.char c, fun tail => ?_, fun pieces => rfl⟩
      rw [hescape]
      show scanString (c :: tail) = _
      rw [scanString]
      · simp [hslash, hcontrol]
      all_goals simp_all

/-- A string is scanned up to its closing quote. -/
theorem scanString_flatMap_escape (rest : List Char) : ∀ cs : List Char, ∃ pieces,
    scanString (cs.flatMap escape ++ '"' :: rest) = some (pieces, rest) ∧
      assemble pieces = some cs
  | [] => ⟨[], rfl, rfl⟩
  | c :: cs => by
    obtain ⟨pieces, hscan, hassemble⟩ := scanString_flatMap_escape rest cs
    obtain ⟨piece, hpiece, hall⟩ := exists_scannedAs c
    refine ⟨piece :: pieces, ?_, ?_⟩
    · rw [List.flatMap_cons, List.append_assoc, hpiece, hscan]
      rfl
    · rw [hall, hassemble]
      rfl

/-- The content of a string is read back up to the closing quote, and nothing behind it. -/
theorem stringBody_escape (s : String) (rest : List Char) :
    stringBody (s.toList.flatMap escape ++ '"' :: rest) = some (some s, rest) := by
  obtain ⟨pieces, hscan, hassemble⟩ := scanString_flatMap_escape rest s.toList
  rw [stringBody, hscan, Option.map_some]
  show some (Option.map String.ofList (assemble pieces), rest) = _
  rw [hassemble, Option.map_some, String.ofList_toList]

/-! ## Trees -/

theorem quote_some (s : String) :
    quote (some s) = '"' :: (s.toList.flatMap escape ++ ['"']) := rfl

theorem print_string (content : Option String) : print (.string content) = quote content := rfl

theorem print_array (items : List Json) :
    print (.array items) = '[' :: (printItems items ++ [']']) := rfl

theorem print_object (members : List (Option String × Json)) :
    print (.object members) = '\x7b' :: (printMembers members ++ ['\x7d']) := rfl

theorem printItems_singleton (j : Json) : printItems [j] = j.print := rfl

theorem printItems_cons_cons (j k : Json) (js : List Json) :
    printItems (j :: k :: js) = j.print ++ ',' :: printItems (k :: js) := rfl

theorem printMembers_singleton (key : Option String) (j : Json) :
    printMembers [(key, j)] = quote key ++ ':' :: j.print := rfl

theorem printMembers_cons_cons (key : Option String) (j : Json) (m : Option String × Json)
    (ms : List (Option String × Json)) :
    printMembers ((key, j) :: m :: ms)
      = quote key ++ ':' :: j.print ++ ',' :: printMembers (m :: ms) := rfl

theorem length_print_array_singleton (j : Json) :
    (array [j]).print.length = j.print.length + 2 := by
  rw [print_array, printItems_singleton, List.length_cons, List.length_append,
    List.length_singleton]

theorem length_print_record_singleton (key : String) (j : Json) :
    (record [(key, j)]).print.length = (text key).print.length + j.print.length + 3 := by
  show ('\x7b' :: (quote (some key) ++ ':' :: j.print ++ ['\x7d'])).length
    = (quote (some key)).length + j.print.length + 3
  simp only [List.length_append, List.length_cons, List.length_nil]
  omega

theorem length_print_record_pair (key key' : String) (j j' : Json) :
    (record [(key, j), (key', j')]).print.length
      = (text key).print.length + j.print.length + (text key').print.length + j'.print.length
        + 5 := by
  show ('\x7b' :: (quote (some key) ++ ':' :: j.print ++ ',' :: (quote (some key') ++ ':' ::
      j'.print) ++ ['\x7d'])).length
    = (quote (some key)).length + j.print.length + (quote (some key')).length + j'.print.length + 5
  simp only [List.length_append, List.length_cons, List.length_nil]
  omega

/-- The first character of a tree is no blank and closes nothing. -/
def Opens (c : Char) : Prop :=
  isSpace c = false ∧ c ≠ ']' ∧ c ≠ '\x7d'

instance (c : Char) : Decidable (Opens c) :=
  inferInstanceAs (Decidable (_ ∧ _ ∧ _))

theorem print_eq_cons {j : Json} (h : j.Plain) : ∃ c tail, j.print = c :: tail ∧ Opens c := by
  cases j with
  | null => exact ⟨'n', _, rfl, by decide⟩
  | bool b =>
    cases b
    · exact ⟨'f', _, rfl, by decide⟩
    · exact ⟨'t', _, rfl, by decide⟩
  | number spelling => exact h.elim
  | string content =>
    cases content with
    | none => cases h
    | some s => exact ⟨'"', _, rfl, by decide⟩
  | array items => exact ⟨'[', _, rfl, by decide⟩
  | object members => exact ⟨'\x7b', _, rfl, by decide⟩

theorem skipSpace_of_opens {c : Char} (h : Opens c) (tail : List Char) :
    skipSpace (c :: tail) = c :: tail := by
  rw [skipSpace, List.dropWhile_cons, h.1]
  rfl

theorem print_pos {j : Json} (h : j.Plain) : 0 < j.print.length := by
  obtain ⟨c, tail, hprint, -⟩ := print_eq_cons h
  rw [hprint]
  exact Nat.succ_pos _

/-- A list of items starts as its first item does. -/
theorem printItems_eq_cons {j : Json} (js : List Json) (h : j.Plain) :
    ∃ c tail, printItems (j :: js) = c :: tail ∧ Opens c := by
  obtain ⟨c, tail, hprint, hc⟩ := print_eq_cons h
  cases js with
  | nil => exact ⟨c, tail, hprint, hc⟩
  | cons k js =>
    refine ⟨c, tail ++ ',' :: printItems (k :: js), ?_, hc⟩
    rw [printItems_cons_cons, hprint, List.cons_append]

theorem printMembers_eq_cons {key : Option String} (j : Json)
    (ms : List (Option String × Json)) (h : key.isSome = true) :
    ∃ tail, printMembers ((key, j) :: ms) = '"' :: tail := by
  cases key with
  | none => cases h
  | some s =>
    cases ms with
    | nil => exact ⟨_, rfl⟩
    | cons m ms => exact ⟨_, rfl⟩

/-- A member is read from its text, once its tree is; what follows decides whether it is the last
one. -/
theorem members_quote {key : String} {j : Json} {fuel : Nat} {tail : List Char} (h : j.Plain)
    (hread : value fuel (j.print ++ tail) = some (j, tail)) :
    members (fuel + 1) (quote (some key) ++ ':' :: j.print ++ tail)
      = (match skipSpace tail with
        | '\x7d' :: rest => some ([(some key, j)], rest)
        | ',' :: rest => do
          let (ms, rest) ← members fuel (skipSpace rest)
          some ((some key, j) :: ms, rest)
        | _ => none) := by
  -- A printed tree opens with a character that is no space, so that none is skipped.
  obtain ⟨c, rest, hprint, hc⟩ := print_eq_cons h
  have hskip : skipSpace (j.print ++ tail) = j.print ++ tail := by
    rw [hprint, List.cons_append, skipSpace_of_opens hc]
  have hquote : quote (some key) ++ ':' :: j.print ++ tail
      = '"' :: (key.toList.flatMap escape ++ '"' :: ':' :: (j.print ++ tail)) := by
    simp only [quote_some, List.cons_append, List.append_assoc, List.nil_append]
  rw [hquote]
  show Option.bind (stringBody (key.toList.flatMap escape ++ '"' :: ':' :: (j.print ++ tail))) _ = _
  rw [stringBody_escape]
  show Option.bind (value fuel (skipSpace (j.print ++ tail))) _ = _
  rw [hskip, hread]
  rfl

mutual

/-- A plain tree is read from the front of what starts with its text. The fuel is twice the length
of the text: reading a tree and reading its parts each take one unit. -/
theorem value_print : ∀ (j : Json) (fuel : Nat) (rest : List Char), j.Plain →
    2 * j.print.length ≤ fuel → value fuel (j.print ++ rest) = some (j, rest)
  | j, 0, _, h, hfuel => by
    have := print_pos h
    omega
  | .null, fuel + 1, rest, _, _ => rfl
  | .bool true, fuel + 1, rest, _, _ => rfl
  | .bool false, fuel + 1, rest, _, _ => rfl
  | .number _, fuel + 1, rest, h, _ => h.elim
  | .string none, fuel + 1, rest, h, _ => by cases h
  | .string (some s), fuel + 1, rest, _, _ => by
    rw [print_string, quote_some, List.cons_append, List.append_assoc, List.singleton_append]
    show Option.map _ (stringBody (s.toList.flatMap escape ++ '"' :: rest)) = _
    rw [stringBody_escape]
    rfl
  | .array [], fuel + 1, rest, _, _ => rfl
  | .array (j :: js), fuel + 1, rest, h, hfuel => by
    -- The first character of an item is no bracket, so the array is not taken for an empty one.
    obtain ⟨c, tail, hfirst, hc⟩ := printItems_eq_cons js h.1
    have hprint : print (.array (j :: js)) ++ rest = '[' :: (c :: tail ++ ']' :: rest) := by
      simp only [print_array, hfirst, List.cons_append, List.append_assoc, List.nil_append]
    have hlength : (print (.array (j :: js))).length = (printItems (j :: js)).length + 2 := by
      rw [print_array, List.length_cons, List.length_append]
      rfl
    have hread := elements_print (j :: js) fuel rest (List.cons_ne_nil j js) h (by omega)
    rw [hfirst] at hread
    rw [hprint]
    simp only [value, List.cons_append, skipSpace_of_opens hc] at hread ⊢
    split
    next heq =>
      cases heq
      exact absurd rfl hc.2.1
    next =>
      rw [hread]
      rfl
  | .object [], fuel + 1, rest, _, _ => rfl
  | .object ((key, j) :: ms), fuel + 1, rest, h, hfuel => by
    obtain ⟨tail, hfirst⟩ := printMembers_eq_cons j ms h.1.1
    have hprint : print (.object ((key, j) :: ms)) ++ rest
        = '\x7b' :: ('"' :: tail ++ '\x7d' :: rest) := by
      simp only [print_object, hfirst, List.cons_append, List.append_assoc, List.nil_append]
    have hlength : (print (.object ((key, j) :: ms))).length
        = (printMembers ((key, j) :: ms)).length + 2 := by
      rw [print_object, List.length_cons, List.length_append]
      rfl
    have hread := members_print ((key, j) :: ms) fuel rest (List.cons_ne_nil _ _) h (by omega)
    rw [hfirst] at hread
    rw [hprint]
    show Option.map _ (members fuel ('"' :: tail ++ '\x7d' :: rest)) = _
    rw [hread]
    rfl

/-- Items are read up to the bracket behind them. -/
theorem elements_print : ∀ (items : List Json) (fuel : Nat) (rest : List Char), items ≠ [] →
    PlainItems items → 2 * (printItems items).length + 1 ≤ fuel →
      elements fuel (printItems items ++ ']' :: rest) = some (items, rest)
  | [], _, _, h, _, _ => absurd rfl h
  | items, 0, _, _, _, hfuel => by omega
  | [j], fuel + 1, rest, _, h, hfuel => by
    rw [printItems_singleton] at hfuel ⊢
    have hread := value_print j fuel (']' :: rest) h.1 (by omega)
    rw [elements, hread]
    rfl
  | j :: k :: js, fuel + 1, rest, _, h, hfuel => by
    rw [printItems_cons_cons, List.length_append, List.length_cons] at hfuel
    have hread := value_print j fuel (',' :: printItems (k :: js) ++ ']' :: rest) h.1 (by omega)
    have hrest := elements_print (k :: js) fuel rest (List.cons_ne_nil k js) h.2 (by omega)
    -- No space is skipped behind the comma, where the next item opens.
    obtain ⟨c, tail, hfirst, hc⟩ := printItems_eq_cons js h.2.1
    have hskip : skipSpace (printItems (k :: js) ++ ']' :: rest)
        = printItems (k :: js) ++ ']' :: rest := by
      rw [hfirst, List.cons_append, skipSpace_of_opens hc]
    rw [printItems_cons_cons, List.append_assoc, elements, hread]
    show Option.bind (elements fuel (skipSpace (printItems (k :: js) ++ ']' :: rest))) _ = _
    rw [hskip, hrest]
    rfl

/-- Members are read up to the brace behind them. -/
theorem members_print : ∀ (ms : List (Option String × Json)) (fuel : Nat) (rest : List Char),
    ms ≠ [] → PlainMembers ms → 2 * (printMembers ms).length + 1 ≤ fuel →
      members fuel (printMembers ms ++ '\x7d' :: rest) = some (ms, rest)
  | [], _, _, h, _, _ => absurd rfl h
  | ms, 0, _, _, _, hfuel => by omega
  | [(none, j)], fuel + 1, rest, _, h, hfuel => by cases h.1.1
  | (none, j) :: m :: ms, fuel + 1, rest, _, h, hfuel => by cases h.1.1
  | [(some key, j)], fuel + 1, rest, _, h, hfuel => by
    rw [printMembers_singleton, List.length_append, List.length_cons] at hfuel
    have hread := value_print j fuel ('\x7d' :: rest) h.1.2 (by omega)
    rw [printMembers_singleton, members_quote h.1.2 hread]
    rfl
  | (some key, j) :: m :: ms, fuel + 1, rest, _, h, hfuel => by
    rw [printMembers_cons_cons, List.length_append, List.length_append, List.length_cons,
      List.length_cons] at hfuel
    have hread := value_print j fuel (',' :: (printMembers (m :: ms) ++ '\x7d' :: rest)) h.1.2
      (by omega)
    have hrest := members_print (m :: ms) fuel rest (List.cons_ne_nil m ms) h.2 (by omega)
    obtain ⟨key', j'⟩ := m
    obtain ⟨tail, hfirst⟩ := printMembers_eq_cons j' ms h.2.1.1
    -- Behind the comma the next key opens with its quote.
    have hskip : skipSpace (printMembers ((key', j') :: ms) ++ '\x7d' :: rest)
        = printMembers ((key', j') :: ms) ++ '\x7d' :: rest := by
      rw [hfirst]
      rfl
    rw [printMembers_cons_cons, List.append_assoc, List.cons_append, members_quote h.1.2 hread]
    show Option.bind (members fuel (skipSpace (printMembers ((key', j') :: ms) ++ '\x7d' :: rest)))
      _ = _
    rw [hskip, hrest]
    rfl

end

/-- **Printed trees read back.** A plain tree is the tree of its compact text. -/
theorem parse_render {j : Json} (h : j.Plain) : parse j.render = some j := by
  obtain ⟨c, tail, hprint, hc⟩ := print_eq_cons h
  have hskip : skipSpace j.print = j.print := by
    rw [hprint, skipSpace_of_opens hc]
  have hread := value_print j (2 * j.print.length + 2) [] h (by omega)
  rw [List.append_nil] at hread
  rw [parse, render, String.toList_ofList]
  simp only [hskip, hread]
  rfl

/-- Plain trees with one text are the same tree. -/
theorem render_injective {a b : Json} (ha : a.Plain) (hb : b.Plain) (h : a.render = b.render) :
    a = b := by
  have hparse := parse_render ha
  rw [h, parse_render hb] at hparse
  exact (Option.some.inj hparse).symm

end RecordExchange.Json
