import Mathlib.Data.List.Induction
import RecordExchange.Proofs.Readers
import RecordExchange.Proofs.RecordNames

/-!
# The order in which record types are found

A depth-first walk through a schema meets each record type in it wherever it occurs, the schema
itself first. The names of record types are collected along this walk: a name is listed where it is
met for the first time, and passed over when it is met again, whatever the fields of the record type
that has it then. What is inside is walked through in either case.

- `Schema.walk`: the record types in the order in which they are met, as often as they are.
- `Schema.mem_walk_iff`: they are the schema itself and those that occur in it.
- `firstOccurrences`: the names of a list without the ones that have gone before.
- `Schema.recordNames_eq`: the names that are collected are the first occurrences along the walk.
- `Schema.recordNames_along_walk`: what follows for the list of names.
-/

namespace RecordExchange

/-! ## Walks -/

mutual

/-- The record types that are met on a walk through a type. -/
def FieldType.walk : FieldType → List Schema
  | .optional inner => inner.walk
  | .list item => item.walk
  | .map item => item.walk
  | .record s => s.walk
  | _ => []

/-- The record types that are met on a walk through a schema: the schema itself, then those in its
fields in declared order. -/
def Schema.walk : Schema → List Schema
  | ⟨name, fields⟩ => ⟨name, fields⟩ :: walkFields fields

/-- The record types that are met on a walk through the types of fields, one field after another. -/
def walkFields : List Field → List Schema
  | [] => []
  | ⟨_, type, _⟩ :: rest => type.walk ++ walkFields rest

end

theorem mem_walkFields_iff {r : Schema} {fields : List Field} :
    r ∈ walkFields fields ↔ ∃ f ∈ fields, r ∈ f.type.walk := by
  induction fields with
  | nil => simp [walkFields]
  | cons f rest ih =>
    obtain ⟨name, type, dflt⟩ := f
    simp [walkFields, ih]

theorem Schema.walk_eq (s : Schema) : s.walk = s :: walkFields s.fields := by
  obtain ⟨name, fields⟩ := s
  rw [Schema.walk]

/-- A walk through a schema goes through every type that occurs in it. -/
theorem FieldType.OccursIn.walk_subset {s : Schema} {t : FieldType} (h : t.OccursIn s) :
    t.walk ⊆ s.walk := by
  -- The types of the fields of a schema are walked through after the schema itself.
  have hfield : ∀ {r : Schema} {f : Field}, f ∈ r.fields → f.type.walk ⊆ r.walk := by
    intro r f hf x hx
    rw [r.walk_eq]
    exact List.mem_cons_of_mem _ (mem_walkFields_iff.mpr ⟨f, hf, hx⟩)
  induction h with
  | field hf => exact hfield hf
  | optional _ ih => exact ih
  | list _ ih => exact ih
  | map _ ih => exact ih
  | nested _ hf ih => exact fun x hx => ih (hfield hf hx)

mutual

/-- What is met on a walk through a type that occurs in a schema occurs in the schema. -/
theorem FieldType.occursIn_of_mem_walk {s r : Schema} : ∀ t : FieldType, t.OccursIn s → r ∈ t.walk →
    (FieldType.record r).OccursIn s
  | .optional inner, h, hr => inner.occursIn_of_mem_walk h.optional hr
  | .list item, h, hr => item.occursIn_of_mem_walk h.list hr
  | .map item, h, hr => item.occursIn_of_mem_walk h.map hr
  | .record t, h, hr => Schema.occursIn_of_mem_walk t h hr
  | .bool, _, hr | .int, _, hr | .long, _, hr | .float, _, hr | .double, _, hr | .string, _, hr
  | .bytes, _, hr | .enum _, _, hr => absurd hr List.not_mem_nil

theorem Schema.occursIn_of_mem_walk {s r : Schema} : ∀ t : Schema,
    (FieldType.record t).OccursIn s → r ∈ t.walk → (FieldType.record r).OccursIn s
  | ⟨name, fields⟩, h, hr => by
    rcases List.mem_cons.mp hr with rfl | hr
    · exact h
    · exact occursIn_of_mem_walkFields fields (fun f hf => h.nested hf) hr

theorem occursIn_of_mem_walkFields {s r : Schema} : ∀ fields : List Field,
    (∀ f ∈ fields, f.type.OccursIn s) → r ∈ walkFields fields → (FieldType.record r).OccursIn s
  | [], _, hr => absurd hr List.not_mem_nil
  | ⟨name, type, dflt⟩ :: rest, h, hr => by
    rcases List.mem_append.mp hr with hr | hr
    · exact type.occursIn_of_mem_walk (h _ List.mem_cons_self) hr
    · exact occursIn_of_mem_walkFields rest (fun f hf => h f (List.mem_cons_of_mem _ hf)) hr

end

/-- A walk through a schema meets the schema itself and the record types that occur in it. -/
theorem Schema.mem_walk_iff {s r : Schema} :
    r ∈ s.walk ↔ r = s ∨ (FieldType.record r).OccursIn s := by
  constructor
  · intro hr
    rw [s.walk_eq, List.mem_cons] at hr
    exact hr.imp_right (occursIn_of_mem_walkFields s.fields fun f hf => .field hf)
  · rintro (rfl | hr)
    · rw [r.walk_eq]
      exact List.mem_cons_self
    · refine hr.walk_subset ?_
      rw [FieldType.walk, r.walk_eq]
      exact List.mem_cons_self

/-! ## First occurrences -/

/-- Adds a name to the names found so far, unless it is one of them. -/
def note (found : List String) (name : String) : List String :=
  if found.contains name then found else found ++ [name]

/-- The names of a list, each where it stands for the first time. -/
def firstOccurrences (names : List String) : List String :=
  names.foldl note []

theorem firstOccurrences_concat (names : List String) (n : String) :
    firstOccurrences (names ++ [n]) = note (firstOccurrences names) n := by
  rw [firstOccurrences, List.foldl_append]
  rfl

theorem mem_note {found : List String} {name n : String} :
    n ∈ note found name ↔ n ∈ found ∨ n = name := by
  rw [note]
  split
  next h =>
    refine ⟨.inl, ?_⟩
    rintro (hn | rfl)
    · exact hn
    · exact List.contains_iff_mem.mp h
  next => rw [List.mem_append, List.mem_singleton]

theorem mem_firstOccurrences {names : List String} {n : String} :
    n ∈ firstOccurrences names ↔ n ∈ names := by
  induction names using List.reverseRecOn with
  | nil => rfl
  | append_singleton names name ih =>
    rw [firstOccurrences_concat, mem_note, ih, List.mem_append, List.mem_singleton]

theorem nodup_firstOccurrences (names : List String) : (firstOccurrences names).Nodup := by
  induction names using List.reverseRecOn with
  | nil => exact List.nodup_nil
  | append_singleton names name ih =>
    rw [firstOccurrences_concat, note]
    split
    next => exact ih
    next fresh =>
      refine List.nodup_append.mpr ⟨ih, List.pairwise_singleton _ _, fun a ha b hb same => ?_⟩
      rw [List.mem_singleton] at hb
      exact fresh (List.contains_iff_mem.mpr (hb ▸ same ▸ ha))

/-- First occurrences are listed in their order. -/
theorem pairwise_firstOccurrences (names : List String) :
    (firstOccurrences names).Pairwise fun m n => names.idxOf m < names.idxOf n := by
  induction names using List.reverseRecOn with
  | nil => exact List.Pairwise.nil
  | append_singleton names name ih =>
    have hindex : ∀ {m}, m ∈ firstOccurrences names →
        (names ++ [name]).idxOf m = names.idxOf m := fun hm =>
      List.idxOf_append_of_mem (mem_firstOccurrences.mp hm)
    have hkept : (firstOccurrences names).Pairwise fun m n =>
        (names ++ [name]).idxOf m < (names ++ [name]).idxOf n :=
      ih.imp_of_mem fun hm hn hlt => by rwa [hindex hm, hindex hn]
    rw [firstOccurrences_concat, note]
    split
    next => exact hkept
    next fresh =>
      -- A name that is new stands behind all names so far.
      have hnew : name ∉ names := fun hmem =>
        fresh (List.contains_iff_mem.mpr (mem_firstOccurrences.mpr hmem))
      refine List.pairwise_append.mpr ⟨hkept, List.pairwise_singleton _ _, fun m hm n hn => ?_⟩
      rw [List.mem_singleton.mp hn, hindex hm, List.idxOf_append_of_notMem hnew]
      have := List.idxOf_lt_length_of_mem (mem_firstOccurrences.mp hm)
      omega

theorem head?_firstOccurrences_cons (n : String) (names : List String) :
    (firstOccurrences (n :: names)).head? = some n := by
  induction names using List.reverseRecOn with
  | nil => rfl
  | append_singleton names name ih =>
    rw [← List.cons_append, firstOccurrences_concat, note]
    split
    · exact ih
    · rw [List.head?_append, ih, Option.some_or]

/-! ## Names along the walk -/

mutual

theorem FieldType.collectNames_eq_foldl : ∀ (t : FieldType) (found : List String),
    t.collectNames found = (t.walk.map Schema.name).foldl note found
  | .optional inner, found => inner.collectNames_eq_foldl found
  | .list item, found => item.collectNames_eq_foldl found
  | .map item, found => item.collectNames_eq_foldl found
  | .record s, found => s.collectNames_eq_foldl found
  | .bool, _ | .int, _ | .long, _ | .float, _ | .double, _ | .string, _ | .bytes, _
  | .enum _, _ => rfl

/-- Collecting names is noting them along the walk. -/
theorem Schema.collectNames_eq_foldl : ∀ (s : Schema) (found : List String),
    s.collectNames found = (s.walk.map Schema.name).foldl note found
  | ⟨name, fields⟩, found => collectFieldNames_eq_foldl fields (note found name)

theorem collectFieldNames_eq_foldl : ∀ (fields : List Field) (found : List String),
    collectFieldNames fields found = ((walkFields fields).map Schema.name).foldl note found
  | [], _ => rfl
  | ⟨name, type, dflt⟩ :: rest, found => by
    rw [collectFieldNames, walkFields, List.map_append, List.foldl_append,
      type.collectNames_eq_foldl, collectFieldNames_eq_foldl rest]

end

/-- The names that are collected are the first occurrences of names along the walk. -/
theorem Schema.recordNames_eq (s : Schema) :
    s.recordNames = firstOccurrences (s.walk.map Schema.name) :=
  s.collectNames_eq_foldl []

/-- **The names of record types.** Take any schema, checked or not. The names of its record types
are all different, and its own is the first. They are the names of the schema itself and of the
record types that occur in it, at any depth, also where several of these share a name. A walk
through the schema meets just these, and the names stand in the order in which they are met there
for the first time. The canonical schema has the same names, maybe in another order. -/
theorem Schema.recordNames_along_walk (s : Schema) :
    s.recordNames.Nodup ∧ s.recordNames.head? = some s.name ∧
    (∀ n, n ∈ s.recordNames ↔
      ∃ r : Schema, (r = s ∨ (FieldType.record r).OccursIn s) ∧ r.name = n) ∧
    (∀ r, r ∈ s.walk ↔ r = s ∨ (FieldType.record r).OccursIn s) ∧
    (s.recordNames.Pairwise fun m n =>
      (s.walk.map Schema.name).idxOf m < (s.walk.map Schema.name).idxOf n) ∧
    s.canonical.recordNames.Perm s.recordNames := by
  have hnodup : ∀ t : Schema, t.recordNames.Nodup := fun t => by
    rw [t.recordNames_eq]
    exact nodup_firstOccurrences _
  refine ⟨hnodup s, ?_, fun n => ?_, fun r => Schema.mem_walk_iff, ?_, ?_⟩
  · rw [s.recordNames_eq, s.walk_eq, List.map_cons, head?_firstOccurrences_cons]
  · simp only [s.recordNames_eq, mem_firstOccurrences, List.mem_map, Schema.mem_walk_iff]
  · rw [s.recordNames_eq]
    exact pairwise_firstOccurrences _
  · refine (List.perm_ext_iff_of_nodup (hnodup s.canonical) (hnodup s)).mpr fun n => ?_
    rw [Schema.mem_recordNames_iff, Schema.mem_recordNames_iff, Schema.mentions_canonical_iff]

/-- A route from one stop to another. The stops have one name, and only the second has a guide. -/
def route : Schema :=
  ⟨"Route", [⟨"from", .record ⟨"Stop", []⟩, none⟩,
    ⟨"to", .record ⟨"Stop", [⟨"guide", .list (.record ⟨"Guide", []⟩), none⟩]⟩, none⟩]⟩

/-- The second stop adds no name, but the guide at the second stop is found. -/
example : route.recordNames = ["Route", "Stop", "Guide"] := rfl

end RecordExchange
