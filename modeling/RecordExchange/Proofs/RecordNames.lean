import RecordExchange.Proofs.CanonicalOrder

/-!
# The record types that a schema mentions

The traversal that collects the names of record types finds every one of them, at any depth, also
where one name stands for schemas of several shapes.

- `FieldType.Mentions`, `Schema.Mentions`: a record type occurs somewhere in a type or schema.
- `Schema.mem_recordNames_iff`: what is collected is what occurs.
- `Schema.mentions_canonical_iff`: the same types occur in the canonical schema.
-/

namespace RecordExchange

mutual

/-- A record type of this name occurs in a type, under any optional types, lists and maps. -/
inductive FieldType.Mentions : FieldType → String → Prop where
  | optional {inner : FieldType} {n : String} (h : FieldType.Mentions inner n) :
    FieldType.Mentions (.optional inner) n
  | list {item : FieldType} {n : String} (h : FieldType.Mentions item n) :
    FieldType.Mentions (.list item) n
  | map {item : FieldType} {n : String} (h : FieldType.Mentions item n) :
    FieldType.Mentions (.map item) n
  | record {s : Schema} {n : String} (h : Schema.Mentions s n) : FieldType.Mentions (.record s) n

/-- A record type of this name is the schema's own or occurs in the type of one of its fields. -/
inductive Schema.Mentions : Schema → String → Prop where
  | self (name : String) (fields : List Field) : Schema.Mentions ⟨name, fields⟩ name
  | field {name n : String} {fields : List Field} {f : Field} (hf : f ∈ fields)
    (h : FieldType.Mentions f.type n) : Schema.Mentions ⟨name, fields⟩ n

end

theorem FieldType.mentions_optional_iff {inner : FieldType} {n : String} :
    (FieldType.optional inner).Mentions n ↔ inner.Mentions n :=
  ⟨fun h => by cases h; assumption, .optional⟩

theorem FieldType.mentions_list_iff {item : FieldType} {n : String} :
    (FieldType.list item).Mentions n ↔ item.Mentions n :=
  ⟨fun h => by cases h; assumption, .list⟩

theorem FieldType.mentions_map_iff {item : FieldType} {n : String} :
    (FieldType.map item).Mentions n ↔ item.Mentions n :=
  ⟨fun h => by cases h; assumption, .map⟩

theorem FieldType.mentions_record_iff {s : Schema} {n : String} :
    (FieldType.record s).Mentions n ↔ s.Mentions n :=
  ⟨fun h => by cases h; assumption, .record⟩

theorem Schema.mentions_iff {name n : String} {fields : List Field} :
    Schema.Mentions ⟨name, fields⟩ n ↔ n = name ∨ ∃ f ∈ fields, f.type.Mentions n := by
  constructor
  · intro h
    cases h with
    | self => exact .inl rfl
    | field hf h => exact .inr ⟨_, hf, h⟩
  · rintro (rfl | ⟨f, hf, h⟩)
    · exact .self n fields
    · exact .field hf h

mutual

/-- Collecting adds what occurs in a type, and keeps what was found before. -/
theorem FieldType.mem_collectNames_iff (n : String) : ∀ (t : FieldType) (found : List String),
    n ∈ t.collectNames found ↔ n ∈ found ∨ t.Mentions n
  | .optional inner, found => by
    rw [FieldType.collectNames, inner.mem_collectNames_iff n found,
      FieldType.mentions_optional_iff]
  | .list item, found => by
    rw [FieldType.collectNames, item.mem_collectNames_iff n found, FieldType.mentions_list_iff]
  | .map item, found => by
    rw [FieldType.collectNames, item.mem_collectNames_iff n found, FieldType.mentions_map_iff]
  | .record s, found => by
    rw [FieldType.collectNames, s.mem_collectNames_iff n found, FieldType.mentions_record_iff]
  | .bool, found | .int, found | .long, found | .float, found | .double, found | .string, found
  | .bytes, found | .enum _, found => by
    -- No record type occurs in a scalar.
    refine ⟨.inl, ?_⟩
    rintro (h | h)
    · exact h
    · cases h

/-- Collecting adds what occurs in a schema. A name that was found before is not added, but the
fields are searched whether it was or not. -/
theorem Schema.mem_collectNames_iff (n : String) : ∀ (s : Schema) (found : List String),
    n ∈ s.collectNames found ↔ n ∈ found ∨ s.Mentions n
  | ⟨name, fields⟩, found => by
    have hself : n ∈ (if found.contains name then found else found ++ [name]) ↔
        n ∈ found ∨ n = name := by
      by_cases hfound : found.contains name = true
      · rw [if_pos hfound]
        refine ⟨.inl, ?_⟩
        rintro (h | rfl)
        · exact h
        · exact List.contains_iff_mem.mp hfound
      · rw [if_neg hfound, List.mem_append, List.mem_singleton]
    rw [Schema.collectNames, mem_collectFieldNames_iff n fields, hself, Schema.mentions_iff,
      or_assoc]

theorem mem_collectFieldNames_iff (n : String) : ∀ (fields : List Field) (found : List String),
    n ∈ collectFieldNames fields found ↔ n ∈ found ∨ ∃ f ∈ fields, f.type.Mentions n
  | [], found => by simp [collectFieldNames]
  | ⟨name, type, dflt⟩ :: rest, found => by
    rw [collectFieldNames, mem_collectFieldNames_iff n rest, type.mem_collectNames_iff n found]
    simp only [List.mem_cons, exists_eq_or_imp, or_assoc]

end

/-- The names that are collected are those of the record types that occur. -/
theorem Schema.mem_recordNames_iff (s : Schema) (n : String) :
    n ∈ s.recordNames ↔ s.Mentions n := by
  rw [Schema.recordNames, s.mem_collectNames_iff n []]
  simp

mutual

theorem FieldType.mentions_canonical_iff (n : String) : ∀ t : FieldType,
    t.canonical.Mentions n ↔ t.Mentions n
  | .optional inner => by
    rw [FieldType.canonical, FieldType.mentions_optional_iff, FieldType.mentions_optional_iff,
      inner.mentions_canonical_iff n]
  | .list item => by
    rw [FieldType.canonical, FieldType.mentions_list_iff, FieldType.mentions_list_iff,
      item.mentions_canonical_iff n]
  | .map item => by
    rw [FieldType.canonical, FieldType.mentions_map_iff, FieldType.mentions_map_iff,
      item.mentions_canonical_iff n]
  | .record s => by
    rw [FieldType.canonical, FieldType.mentions_record_iff, FieldType.mentions_record_iff,
      s.mentions_canonical_iff n]
  | .bool | .int | .long | .float | .double | .string | .bytes | .enum _ => Iff.rfl

/-- The record types that occur in the canonical schema are those that occur in the schema. -/
theorem Schema.mentions_canonical_iff (n : String) : ∀ s : Schema,
    s.canonical.Mentions n ↔ s.Mentions n
  | ⟨name, fields⟩ => by
    rw [Schema.canonical, Schema.mentions_iff, Schema.mentions_iff,
      ← exists_mentions_canonical_iff n fields]
    simp only [(sortFields_perm _).mem_iff]

theorem exists_mentions_canonical_iff (n : String) : ∀ fields : List Field,
    (∃ f ∈ canonicalFields fields, f.type.Mentions n) ↔ ∃ f ∈ fields, f.type.Mentions n
  | [] => Iff.rfl
  | ⟨name, type, dflt⟩ :: rest => by
    rw [canonicalFields]
    simp only [List.mem_cons, exists_eq_or_imp, exists_mentions_canonical_iff n rest,
      type.mentions_canonical_iff n]

end

end RecordExchange
