import RecordExchange.Proofs.SchemaText
import RecordExchange.Proofs.Stores

/-!
# How deeply a text nests

Whether the canonical text of a schema is read back depends on how deeply it nests. That can be seen
from the brackets of the text, without reading it as a tree: a scan counts those that are open at
once, and leaves out the ones that stand in strings.

- `Json.nesting`: the scan.
- `Json.nestingFrom_print`, `Json.nesting_render`: a printed tree nests as deeply as the tree.
- `Schema.EveryLevel`: a rule that holds of a schema and of all schemas nested in it.
- `Schema.WellFormed.everyLevel_canonical`: what holds of canonical schemas holds at every level of
  a canonical schema.
- `Schema.ofText_canonicalText_of_nesting`: **the canonical text reads back** as the canonical
  schema, with the nesting limit as the only exception.
-/

namespace RecordExchange

/-! ## The scan -/

namespace Json

/-- Where a scan stands: outside of strings, in a string, or behind a backslash in a string. -/
inductive Place where
  | outside
  | string
  | escaped

/-- The greatest number of arrays and objects that are open at once from here on, where `opened` of
them are open here. -/
def nestingFrom : Place → (opened : Nat) → List Char → Nat
  | _, opened, [] => opened
  | .outside, opened, c :: rest =>
    if c = '"' then nestingFrom .string opened rest
    else if c = '[' ∨ c = '{' then nestingFrom .outside (opened + 1) rest
    else if c = ']' ∨ c = '}' then max opened (nestingFrom .outside (opened - 1) rest)
    else nestingFrom .outside opened rest
  | .string, opened, c :: rest =>
    if c = '"' then nestingFrom .outside opened rest
    else if c = '\\' then nestingFrom .escaped opened rest
    else nestingFrom .string opened rest
  | .escaped, opened, _ :: rest => nestingFrom .string opened rest

/-- How many arrays and objects are nested in one another at the deepest place of a text. -/
def nesting (text : String) : Nat :=
  nestingFrom .outside 0 text.toList

theorem le_nestingFrom (place : Place) (opened : Nat) (cs : List Char) :
    opened ≤ nestingFrom place opened cs := by
  induction cs generalizing place opened with
  | nil => cases place <;> exact Nat.le_refl opened
  | cons c rest ih =>
    cases place with
    | outside =>
      rw [nestingFrom]
      -- A quote, an opening bracket, a closing one, and anything else.
      split
      · exact ih .string opened
      · split
        · exact Nat.le_of_succ_le (ih .outside (opened + 1))
        · split
          · exact Nat.le_max_left _ _
          · exact ih .outside opened
    | string =>
      rw [nestingFrom]
      split
      · exact ih .outside opened
      · split
        · exact ih .escaped opened
        · exact ih .string opened
    | escaped => exact ih .string opened

/-! ## Printed trees -/

/-- A digit ends no string and starts no escape. -/
theorem digit_ne : ∀ n < 16, Hex.digit n ≠ '"' ∧ Hex.digit n ≠ '\\' := by
  decide

/-- A scan that stands in a string still stands there behind an escaped character. -/
theorem nestingFrom_escape (opened : Nat) (c : Char) (tail : List Char) :
    nestingFrom .string opened (escape c ++ tail) = nestingFrom .string opened tail := by
  by_cases hletter : c ∈ ['"', '\\', '\x08', '\t', '\n', '\x0c', '\r']
  · simp only [List.mem_cons, List.not_mem_nil, or_false] at hletter
    rcases hletter with rfl | rfl | rfl | rfl | rfl | rfl | rfl
    all_goals rfl
  · simp only [List.mem_cons, List.not_mem_nil, or_false, not_or] at hletter
    obtain ⟨hquote, hslash, hb, ht, hn, hf, hr⟩ := hletter
    by_cases hcontrol : c.toNat < 0x20
    · -- The first character behind the backslash is passed over, the four digits are no quotes.
      have hescape : escape c
          = ['\\', 'u', '0', '0', Hex.digit (c.toNat / 16), Hex.digit (c.toNat % 16)] := by
        simp [escape, hquote, hslash, hb, ht, hn, hf, hr, hcontrol]
      have hhigh := digit_ne (c.toNat / 16) (by omega)
      have hlow := digit_ne (c.toNat % 16) (by omega)
      rw [hescape]
      simp [nestingFrom, hhigh, hlow]
    · have hescape : escape c = [c] := by
        simp [escape, hquote, hslash, hb, ht, hn, hf, hr, hcontrol]
      rw [hescape]
      simp [nestingFrom, hquote, hslash]

theorem nestingFrom_flatMap_escape (opened : Nat) (cs tail : List Char) :
    nestingFrom .string opened (cs.flatMap escape ++ tail) = nestingFrom .string opened tail := by
  induction cs with
  | nil => rfl
  | cons c rest ih => rw [List.flatMap_cons, List.append_assoc, nestingFrom_escape, ih]

/-- A string opens nothing, whatever brackets it holds. -/
theorem nestingFrom_quote (opened : Nat) (s : String) (rest : List Char) :
    nestingFrom .outside opened (quote (some s) ++ rest) = nestingFrom .outside opened rest := by
  rw [quote_some, List.cons_append, List.append_assoc]
  show nestingFrom .string opened (s.toList.flatMap escape ++ '"' :: rest) = _
  rw [nestingFrom_flatMap_escape]
  rfl

/-- What opens nothing leaves the rest to decide. -/
theorem nestingFrom_eq_max (opened : Nat) (rest : List Char) :
    nestingFrom .outside opened rest = max (opened + 0) (nestingFrom .outside opened rest) :=
  (Nat.max_eq_right (le_nestingFrom .outside opened rest)).symm

mutual

/-- The scan of a printed tree goes as deep as the tree does, and ends where it began. -/
theorem nestingFrom_print : ∀ (j : Json) (opened : Nat) (rest : List Char), j.Plain →
    nestingFrom .outside opened (j.print ++ rest)
      = max (opened + j.depth) (nestingFrom .outside opened rest)
  | .null, opened, rest, _ => nestingFrom_eq_max opened rest
  | .bool true, opened, rest, _ => nestingFrom_eq_max opened rest
  | .bool false, opened, rest, _ => nestingFrom_eq_max opened rest
  | .number _, _, _, h => h.elim
  | .string none, _, _, h => by cases h
  | .string (some s), opened, rest, _ => by
    rw [print_string, nestingFrom_quote]
    exact nestingFrom_eq_max opened rest
  | .array items, opened, rest, h => by
    -- Items are scanned one level further in, and the bracket behind them leads back.
    have hitems := nestingFrom_printItems items (opened + 1) (']' :: rest) h
    have hclose : nestingFrom .outside (opened + 1) (']' :: rest)
        = max (opened + 1) (nestingFrom .outside opened rest) := rfl
    rw [print_array, List.cons_append, List.append_assoc]
    show nestingFrom .outside (opened + 1) (printItems items ++ ']' :: rest) = _
    rw [hitems, hclose, depth]
    omega
  | .object members, opened, rest, h => by
    have hmembers := nestingFrom_printMembers members (opened + 1) ('}' :: rest) h
    have hclose : nestingFrom .outside (opened + 1) ('}' :: rest)
        = max (opened + 1) (nestingFrom .outside opened rest) := rfl
    rw [print_object, List.cons_append, List.append_assoc]
    show nestingFrom .outside (opened + 1) (printMembers members ++ '}' :: rest) = _
    rw [hmembers, hclose, depth]
    omega

theorem nestingFrom_printItems : ∀ (items : List Json) (opened : Nat) (rest : List Char),
    PlainItems items →
      nestingFrom .outside opened (printItems items ++ rest)
        = max (opened + itemsDepth items) (nestingFrom .outside opened rest)
  | [], opened, rest, _ => nestingFrom_eq_max opened rest
  | [j], opened, rest, h => by
    rw [printItems_singleton, nestingFrom_print j opened rest h.1, itemsDepth, itemsDepth,
      Nat.max_zero]
  | j :: k :: js, opened, rest, h => by
    have hothers := nestingFrom_printItems (k :: js) opened rest h.2
    have hdepth : itemsDepth (j :: k :: js) = max j.depth (itemsDepth (k :: js)) := rfl
    rw [printItems_cons_cons, List.append_assoc, nestingFrom_print j opened _ h.1]
    show max (opened + j.depth) (nestingFrom .outside opened (printItems (k :: js) ++ rest)) = _
    rw [hothers, hdepth]
    omega

theorem nestingFrom_printMembers : ∀ (members : List (Option String × Json)) (opened : Nat)
    (rest : List Char), PlainMembers members →
      nestingFrom .outside opened (printMembers members ++ rest)
        = max (opened + membersDepth members) (nestingFrom .outside opened rest)
  | [], opened, rest, _ => nestingFrom_eq_max opened rest
  | [(none, _)], _, _, h => by cases h.1.1
  | (none, _) :: _ :: _, _, _, h => by cases h.1.1
  | [(some key, j)], opened, rest, h => by
    rw [printMembers_singleton, List.append_assoc, nestingFrom_quote]
    show nestingFrom .outside opened (j.print ++ rest) = _
    rw [nestingFrom_print j opened rest h.1.2, membersDepth, membersDepth, Nat.max_zero]
  | (some key, j) :: m :: ms, opened, rest, h => by
    have hothers := nestingFrom_printMembers (m :: ms) opened rest h.2
    have hdepth : membersDepth ((some key, j) :: m :: ms)
        = max j.depth (membersDepth (m :: ms)) := rfl
    -- A key is scanned as a string, so that only its tree goes deeper.
    rw [printMembers_cons_cons, List.append_assoc, List.append_assoc, nestingFrom_quote]
    show nestingFrom .outside opened (j.print ++ (',' :: printMembers (m :: ms) ++ rest)) = _
    rw [nestingFrom_print j opened _ h.1.2]
    show max (opened + j.depth) (nestingFrom .outside opened (printMembers (m :: ms) ++ rest)) = _
    rw [hothers, hdepth]
    omega

end

/-- The text of a plain tree nests as deeply as the tree. -/
theorem nesting_render {j : Json} (h : j.Plain) : nesting j.render = j.depth := by
  have hscan := nestingFrom_print j 0 [] h
  rw [List.append_nil, Nat.zero_add] at hscan
  rw [nesting, render, String.toList_ofList, hscan]
  exact Nat.max_zero j.depth

end Json

theorem Schema.nesting_canonicalText (s : Schema) :
    Json.nesting s.canonicalText = s.canonicalJson.depth := by
  rw [Schema.canonicalText, s.canonicalJson_eq]
  exact Json.nesting_render s.canonical.plain_json

/-! ## Rules for every level -/

mutual

/-- A rule holds of every schema within a type. -/
def FieldType.EveryLevel (rule : Schema → Prop) : FieldType → Prop
  | .optional inner => inner.EveryLevel rule
  | .list item => item.EveryLevel rule
  | .map item => item.EveryLevel rule
  | .record s => s.EveryLevel rule
  | _ => True

/-- A rule holds of a schema and of every schema nested in it. -/
def Schema.EveryLevel (rule : Schema → Prop) : Schema → Prop
  | ⟨name, fields⟩ => rule ⟨name, fields⟩ ∧ EveryLevelOfFields rule fields

/-- A rule holds of every schema within the types of fields. -/
def EveryLevelOfFields (rule : Schema → Prop) : List Field → Prop
  | [] => True
  | ⟨_, type, _⟩ :: rest => type.EveryLevel rule ∧ EveryLevelOfFields rule rest

end

theorem everyLevelOfFields_iff {rule : Schema → Prop} (fields : List Field) :
    EveryLevelOfFields rule fields ↔ ∀ f ∈ fields, f.type.EveryLevel rule := by
  induction fields with
  | nil => simp [EveryLevelOfFields]
  | cons f rest ih =>
    obtain ⟨name, type, dflt⟩ := f
    simp [EveryLevelOfFields, ih]

mutual

theorem FieldType.WellFormed.everyLevel_canonical {rule : Schema → Prop}
    (hrule : ∀ s : Schema, s.WellFormed → rule s.canonical) : ∀ {t : FieldType}, t.WellFormed →
      t.canonical.EveryLevel rule
  | .optional inner, h => @FieldType.WellFormed.everyLevel_canonical rule hrule inner h
  | .list item, h => @FieldType.WellFormed.everyLevel_canonical rule hrule item h
  | .map item, h => @FieldType.WellFormed.everyLevel_canonical rule hrule item h
  | .record s, h => @Schema.WellFormed.everyLevel_canonical rule hrule s h
  | .enum _, _ | .bool, _ | .int, _ | .long, _ | .float, _ | .double, _ | .string, _
  | .bytes, _ => trivial

/-- What holds of the canonical schema of every well-formed schema also holds of the schemas nested
in it, since these are canonical schemas themselves. -/
theorem Schema.WellFormed.everyLevel_canonical {rule : Schema → Prop}
    (hrule : ∀ s : Schema, s.WellFormed → rule s.canonical) : ∀ {s : Schema}, s.WellFormed →
      s.canonical.EveryLevel rule
  | ⟨name, fields⟩, h => by
    refine ⟨hrule ⟨name, fields⟩ h, (everyLevelOfFields_iff _).mpr fun f hf => ?_⟩
    exact everyLevel_of_mem_canonicalFields hrule h.2.2 f ((sortFields_perm _).mem_iff.mp hf)

theorem everyLevel_of_mem_canonicalFields {rule : Schema → Prop}
    (hrule : ∀ s : Schema, s.WellFormed → rule s.canonical) : ∀ {fields : List Field},
      WellFormedFields fields → ∀ f ∈ canonicalFields fields, f.type.EveryLevel rule
  | [], _, _, hf => absurd hf List.not_mem_nil
  | ⟨_, type, _⟩ :: rest, h, f, hf => by
    rcases List.mem_cons.mp hf with rfl | hf
    · exact @FieldType.WellFormed.everyLevel_canonical rule hrule type h.1.2.1
    · exact @everyLevel_of_mem_canonicalFields rule hrule rest h.2 f hf

end

/-! ## Reading the canonical text back -/

/-- The canonical schema is declared in canonical order. -/
theorem Schema.NamesDistinct.isCanonicalOrder_canonical {s : Schema} (h : s.NamesDistinct) :
    s.canonical.isCanonicalOrder = true :=
  s.canonical.isCanonicalOrder_iff.mpr h.pairwise_lt_canonical

/-- **Reading the canonical text back.** The canonical text of a schema that passes the check is
read as the canonical schema if at most 127 arrays and objects are nested in one another in it, and
refused as malformed if more are. What is read has the canonical text and the fingerprint of the
schema that was written, and every schema in it, at any depth, declares its fields in canonical
order. -/
theorem Schema.ofText_canonicalText_of_nesting {s : Schema} (h : s.check = .ok ()) :
    (Json.nesting s.canonicalText ≤ 127 → Schema.ofText s.canonicalText = .ok s.canonical) ∧
    (127 < Json.nesting s.canonicalText → Schema.ofText s.canonicalText = .error .malformed) ∧
    ∀ parsed, Schema.ofText s.canonicalText = .ok parsed →
      parsed = s.canonical ∧ parsed.canonicalText = s.canonicalText ∧
      parsed.fingerprint = s.fingerprint ∧
      parsed.EveryLevel fun level => level.isCanonicalOrder = true := by
  have hw := s.check_eq_ok_iff.mp h
  have hread := Schema.ofText_canonicalText hw
  rw [Schema.nestingLimit, ← s.nesting_canonicalText] at hread
  refine ⟨fun hshallow => ?_, fun hdeep => ?_, fun parsed hparsed => ?_⟩
  · rw [hread, if_pos hshallow]
  · rw [hread, if_neg (Nat.not_le.mpr hdeep)]
  · obtain rfl : parsed = s.canonical := by
      rw [hread] at hparsed
      split at hparsed <;> cases hparsed
      rfl
    -- Names differ at every level, so that canonical levels are in canonical order.
    have hordered : ∀ level : Schema, level.WellFormed → level.canonical.isCanonicalOrder = true :=
      fun level hlevel =>
        Schema.NamesDistinct.isCanonicalOrder_canonical (level.wellFormed_iff.mp hlevel).2.1
    exact ⟨rfl, s.canonicalText_canonical, s.fingerprint_canonical,
      hw.everyLevel_canonical hordered⟩

/-- Lists within lists, `n` deep. -/
def nestedList : Nat → FieldType
  | 0 => .bool
  | n + 1 => .list (nestedList n)

theorem depth_nestedList (n : Nat) : (nestedList n).canonicalJson.depth = n := by
  induction n with
  | zero => rfl
  | succ n ih => rw [nestedList, FieldType.canonicalJson, Json.depth_record_single, ih]

/-- A stack of lists within lists. The other field has a name with brackets and a quote in it. -/
def stack (floors : Nat) : Schema :=
  ⟨"Stack", [⟨"floors", nestedList floors, none⟩, ⟨"[\"]\x7b", .int, some (.int 7)⟩]⟩

theorem nesting_stack (floors : Nat) : Json.nesting (stack floors).canonicalText = floors + 3 := by
  have hsorted : Json.sortMembers (fieldBodies (stack floors).fields)
      = [("[\"]\x7b", .text "int"), ("floors", (nestedList floors).canonicalJson)] := by
    simp [stack, fieldBodies, FieldType.canonicalJson, Json.sortMembers, List.mergeSort,
      List.MergeSort.Internal.splitInTwo]
  rw [Schema.nesting_canonicalText]
  show Json.depth (.record [("fields", .array ((Json.sortMembers
    (fieldBodies (stack floors).fields)).map Json.field)), ("name", .text "Stack")]) = floors + 3
  rw [hsorted]
  show max (max 1 (max (Json.field ("floors", (nestedList floors).canonicalJson)).depth 0) + 1)
    (max 0 0) + 1 = floors + 3
  rw [Json.depth_field, depth_nestedList]
  omega

/-- The text of a stack is read back up to the limit, and no further. -/
theorem ofText_canonicalText_stack :
    Schema.ofText (stack 124).canonicalText = .ok (stack 124).canonical ∧
      Schema.ofText (stack 125).canonicalText = .error .malformed := by
  constructor
  · exact (Schema.ofText_canonicalText_of_nesting rfl).1 (Nat.le_of_eq (nesting_stack 124))
  · exact (Schema.ofText_canonicalText_of_nesting rfl).2.1 (by rw [nesting_stack]; decide)

end RecordExchange
