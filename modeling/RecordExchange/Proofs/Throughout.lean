import RecordExchange.Proofs.Nesting
import RecordExchange.Proofs.Refusals

/-!
# What holds throughout a schema

The check of a schema goes into the types of the fields and stops at the first fault. It passes
exactly when there is no fault anywhere: not in the schema itself, nor in any record type or
enumeration that occurs in it, however deep. A schema that comes from a text has been checked in
this way, whoever wrote the text, and has no defaults anywhere.

- `Schema.SoundLevel`: the part of the rule that concerns one level of a schema.
- `Schema.SoundThroughout`: it holds of every level, and every enumeration is sound.
- `Schema.wellFormed_iff_soundThroughout`: this is the rule.
- `FieldType.OccursIn.everyLevel`: what holds of every level holds of each record type that occurs.
- `Schema.everyLevel_ofJson`: what is read has no defaults.
- `Schema.make_iff_soundThroughout`: checking, canonical schemas and texts together.
-/

namespace RecordExchange

/-! ## Levels -/

/-- The part of the rule for schemas that concerns the schema itself and not the types of its
fields: its name is not blank, its fields have distinct non-empty names, and each default belongs to
the type of its field. -/
structure Schema.SoundLevel (s : Schema) : Prop where
  named : ¬ Text.IsBlank s.name
  fieldsNamed : ∀ f ∈ s.fields, f.name ≠ ""
  distinct : s.fieldNames.Nodup
  defaults : ∀ f ∈ s.fields, ∀ v, f.default = some v → f.type.accepts v = true

/-- A schema is sound throughout when its own level is, that of each record type that occurs in it,
and each enumeration that does: it has at least one symbol, and only non-empty distinct ones. -/
structure Schema.SoundThroughout (s : Schema) : Prop where
  own : s.SoundLevel
  nested (r : Schema) : (FieldType.record r).OccursIn s → r.SoundLevel
  enums (symbols : List String) : (FieldType.enum symbols).OccursIn s →
    symbols ≠ [] ∧ (∀ x ∈ symbols, x ≠ "") ∧ symbols.Nodup

theorem Schema.WellFormed.soundLevel {s : Schema} (h : s.WellFormed) : s.SoundLevel := by
  obtain ⟨hname, distinct, hfields⟩ := s.wellFormed_iff.mp h
  exact ⟨hname, fun f hf => (hfields f hf).1, distinct, fun f hf => (hfields f hf).2.2⟩

/-- A level is well formed when it is sound and the types of its fields are well formed. -/
theorem Schema.SoundLevel.wellFormed {s : Schema} (h : s.SoundLevel)
    (htypes : ∀ f ∈ s.fields, f.type.WellFormed) : s.WellFormed :=
  s.wellFormed_iff.mpr ⟨h.named, h.distinct,
    fun f hf => ⟨h.fieldsNamed f hf, htypes f hf, h.defaults f hf⟩⟩

mutual

/-- A type that occurs in a schema which is sound throughout is well formed. -/
theorem FieldType.wellFormed_of_occursIn {s : Schema} (hs : s.SoundThroughout) :
    ∀ t : FieldType, t.OccursIn s → t.WellFormed
  | .optional inner, h => inner.wellFormed_of_occursIn hs h.optional
  | .list item, h => item.wellFormed_of_occursIn hs h.list
  | .map item, h => item.wellFormed_of_occursIn hs h.map
  | .record r, h => Schema.wellFormed_of_occursIn hs r h
  | .enum symbols, h => hs.enums symbols h
  | .bool, _ | .int, _ | .long, _ | .float, _ | .double, _ | .string, _ | .bytes, _ => trivial

theorem Schema.wellFormed_of_occursIn {s : Schema} (hs : s.SoundThroughout) :
    ∀ r : Schema, (FieldType.record r).OccursIn s → r.WellFormed
  | ⟨name, fields⟩, h =>
    (hs.nested ⟨name, fields⟩ h).wellFormed
      (types_wellFormed_of_occursIn hs fields fun _ hf => h.nested hf)

theorem types_wellFormed_of_occursIn {s : Schema} (hs : s.SoundThroughout) :
    ∀ fields : List Field, (∀ f ∈ fields, f.type.OccursIn s) → ∀ f ∈ fields, f.type.WellFormed
  | [], _, _, hf => absurd hf List.not_mem_nil
  | ⟨name, type, dflt⟩ :: rest, h, f, hf => by
    rcases List.mem_cons.mp hf with rfl | hf
    · exact type.wellFormed_of_occursIn hs (h _ List.mem_cons_self)
    · exact types_wellFormed_of_occursIn hs rest (fun g hg => h g (List.mem_cons_of_mem _ hg)) f hf

end

/-- **The rule at every depth.** A schema is well formed exactly when it is sound throughout. -/
theorem Schema.wellFormed_iff_soundThroughout (s : Schema) : s.WellFormed ↔ s.SoundThroughout := by
  constructor
  · intro h
    exact ⟨h.soundLevel, fun r hr => Schema.WellFormed.soundLevel (hr.wellFormed h),
      fun symbols hsymbols => hsymbols.wellFormed h⟩
  · intro h
    exact h.own.wellFormed
      (types_wellFormed_of_occursIn h s.fields fun f hf => .field hf)

/-! ## Texts -/

/-- The fields of a level have no defaults. -/
def Schema.WithoutDefaults (s : Schema) : Prop := ∀ f ∈ s.fields, f.default = none

theorem Schema.everyLevel_iff {rule : Schema → Prop} (s : Schema) :
    s.EveryLevel rule ↔ rule s ∧ ∀ f ∈ s.fields, f.type.EveryLevel rule := by
  obtain ⟨name, fields⟩ := s
  rw [Schema.EveryLevel, everyLevelOfFields_iff]

/-- A rule that holds of every level of a schema holds of every level of the types in it. -/
theorem FieldType.OccursIn.everyLevel {rule : Schema → Prop} {s : Schema} (hs : s.EveryLevel rule)
    {t : FieldType} (h : t.OccursIn s) : t.EveryLevel rule := by
  induction h with
  | field hf => exact (s.everyLevel_iff.mp hs).2 _ hf
  | optional _ ih => exact ih
  | list _ ih => exact ih
  | map _ ih => exact ih
  | nested _ hf ih => exact ((Schema.everyLevel_iff _).mp ih).2 _ hf

/-- Where no level has defaults, no field has one at any depth. -/
theorem Field.OccursIn.default_eq_none {s : Schema} (hs : s.EveryLevel Schema.WithoutDefaults)
    {f : Field} (h : f.OccursIn s) : f.default = none := by
  rcases h with hf | ⟨r, hr, hf⟩
  · exact (s.everyLevel_iff.mp hs).1 f hf
  · exact (r.everyLevel_iff.mp (hr.everyLevel hs)).1 f hf

/-- A loop that succeeds gives nothing but what its steps give. -/
theorem exists_of_mem_mapM {α β : Type} {g : α → Option β} : ∀ {l : List α} {bs : List β},
    l.mapM g = some bs → ∀ b ∈ bs, ∃ a ∈ l, g a = some b
  | [], bs, h, b, hb => by
    cases h
    exact absurd hb List.not_mem_nil
  | a :: rest, bs, h, b, hb => by
    rw [List.mapM_cons] at h
    obtain ⟨first, hfirst, h⟩ := Option.bind_eq_some_iff.mp h
    obtain ⟨others, hothers, h⟩ := Option.bind_eq_some_iff.mp h
    cases h
    rcases List.mem_cons.mp hb with rfl | hb
    · exact ⟨a, List.mem_cons_self, hfirst⟩
    · obtain ⟨a', ha', hb⟩ := exists_of_mem_mapM hothers b hb
      exact ⟨a', List.mem_cons_of_mem a ha', hb⟩

theorem FieldType.everyLevel_scalar? {rule : Schema → Prop} {name : String} {t : FieldType}
    (h : FieldType.scalar? name = some t) : t.EveryLevel rule := by
  unfold FieldType.scalar? at h
  split at h <;> cases h <;> trivial

/-- A valid schema is the schema of the parts it was made from. -/
theorem Schema.eq_of_make {name : String} {fields : List Field} {s : Schema}
    (h : Schema.make name fields = .ok s) : s = ⟨name, fields⟩ ∧ s.WellFormed := by
  obtain ⟨_, hcheck, rfl⟩ := except_map_eq_ok_iff.mp h
  exact ⟨rfl, (Schema.check_eq_ok_iff _).mp hcheck⟩

/-! ### How each part of a schema is read -/

theorem fieldOfJson_eq_some {depth : Nat} {j : Json} {f : Field}
    (h : fieldOfJson depth j = some f) :
    ∃ n type, depth = n + 1 ∧ FieldType.ofJson n type = some f.type ∧ f.default = none := by
  rw [fieldOfJson.eq_def] at h
  split at h
  next n members =>
    obtain ⟨name, -, h⟩ := Option.bind_eq_some_iff.mp h
    obtain ⟨type, htype, h⟩ := Option.bind_eq_some_iff.mp h
    cases h
    obtain ⟨member, -, hread⟩ := Option.bind_eq_some_iff.mp htype
    exact ⟨n, member, rfl, hread, rfl⟩
  next n nameItem typeItem =>
    obtain ⟨name, -, h⟩ := Option.bind_eq_some_iff.mp h
    obtain ⟨type, hread, h⟩ := Option.bind_eq_some_iff.mp h
    cases h
    exact ⟨n, typeItem, rfl, hread, rfl⟩
  next => cases h

theorem fieldsOfJson_eq_some {depth : Nat} {j : Json} {fields : List Field}
    (h : fieldsOfJson depth j = some fields) :
    ∃ n, depth = n + 1 ∧ ∀ f ∈ fields, ∃ item, fieldOfJson n item = some f := by
  rw [fieldsOfJson.eq_def] at h
  split at h
  next n items =>
    refine ⟨n, rfl, fun f hf => ?_⟩
    obtain ⟨item, -, hread⟩ := exists_of_mem_mapM h f hf
    exact ⟨item, hread⟩
  next => cases h

theorem Schema.eq_some_of_toOption_make {name : String} {fields : List Field} {s : Schema}
    (h : (Schema.make name fields).toOption = some s) : s = ⟨name, fields⟩ ∧ s.WellFormed := by
  refine Schema.eq_of_make ?_
  cases hmake : Schema.make name fields with
  | ok made =>
    rw [hmake] at h
    exact congrArg Except.ok (Option.some.inj h)
  | error e =>
    rw [hmake] at h
    cases h

theorem Schema.ofJson_eq_some {depth : Nat} {j : Json} {s : Schema}
    (h : Schema.ofJson depth j = some s) :
    ∃ n fields, depth = n + 1 ∧ fieldsOfJson n fields = some s.fields ∧ s.WellFormed := by
  rw [Schema.ofJson.eq_def] at h
  split at h
  next n members =>
    obtain ⟨name, -, h⟩ := Option.bind_eq_some_iff.mp h
    obtain ⟨fields, hfields, hmake⟩ := Option.bind_eq_some_iff.mp h
    obtain ⟨member, -, hread⟩ := Option.bind_eq_some_iff.mp hfields
    obtain ⟨rfl, hwell⟩ := Schema.eq_some_of_toOption_make hmake
    exact ⟨n, member, rfl, hread, hwell⟩
  next n nameItem fieldsItem =>
    obtain ⟨name, -, h⟩ := Option.bind_eq_some_iff.mp h
    obtain ⟨fields, hread, hmake⟩ := Option.bind_eq_some_iff.mp h
    obtain ⟨rfl, hwell⟩ := Schema.eq_some_of_toOption_make hmake
    exact ⟨n, fieldsItem, rfl, hread, hwell⟩
  next => cases h

/-- A type that is read is a scalar or an enumeration, or made of one that is read one level further
in. -/
theorem FieldType.ofJson_eq_some {depth : Nat} {j : Json} {t : FieldType}
    (h : FieldType.ofJson depth j = some t) :
    (∃ name, FieldType.scalar? name = some t) ∨ (∃ symbols, t = .enum symbols) ∨
      ∃ n part, depth = n + 1 ∧
        ((∃ u, FieldType.ofJson n part = some u ∧ (t = .optional u ∨ t = .list u ∨ t = .map u)) ∨
          ∃ r, Schema.ofJson n part = some r ∧ t = .record r) := by
  rw [FieldType.ofJson.eq_def] at h
  split at h
  next content =>
    obtain ⟨name, -, hscalar⟩ := Option.bind_eq_some_iff.mp h
    exact .inl ⟨name, hscalar⟩
  next n key part =>
    -- By the only key of the tree, in the order in which keys are tried.
    split at h
    · obtain ⟨symbols, -, rfl⟩ := Option.map_eq_some_iff.mp h
      exact .inr (.inl ⟨symbols, rfl⟩)
    split at h
    · obtain ⟨inner, hinner, rfl⟩ := Option.map_eq_some_iff.mp h
      exact .inr (.inr ⟨n, part, rfl, .inl ⟨inner, hinner, .inl rfl⟩⟩)
    split at h
    · obtain ⟨item, hitem, rfl⟩ := Option.map_eq_some_iff.mp h
      exact .inr (.inr ⟨n, part, rfl, .inl ⟨item, hitem, .inr (.inl rfl)⟩⟩)
    split at h
    · obtain ⟨item, hitem, rfl⟩ := Option.map_eq_some_iff.mp h
      exact .inr (.inr ⟨n, part, rfl, .inl ⟨item, hitem, .inr (.inr rfl)⟩⟩)
    split at h
    · obtain ⟨r, hr, rfl⟩ := Option.map_eq_some_iff.mp h
      exact .inr (.inr ⟨n, part, rfl, .inr ⟨r, hr, rfl⟩⟩)
    split at h
    · exact .inl ⟨key, h⟩
    · cases h
  next => cases h

mutual

theorem FieldType.everyLevel_ofJson {depth : Nat} {j : Json} {t : FieldType}
    (h : FieldType.ofJson depth j = some t) : t.EveryLevel Schema.WithoutDefaults := by
  rcases FieldType.ofJson_eq_some h with ⟨name, hscalar⟩ | ⟨symbols, rfl⟩ |
    ⟨n, part, rfl, ⟨u, hu, ht⟩ | ⟨r, hr, rfl⟩⟩
  · exact FieldType.everyLevel_scalar? hscalar
  · trivial
  · have hlevels := FieldType.everyLevel_ofJson hu
    rcases ht with rfl | rfl | rfl <;> exact hlevels
  · exact Schema.everyLevel_ofJson hr
termination_by depth

/-- A schema that is read has no defaults, at any level. -/
theorem Schema.everyLevel_ofJson {depth : Nat} {j : Json} {s : Schema}
    (h : Schema.ofJson depth j = some s) : s.EveryLevel Schema.WithoutDefaults := by
  obtain ⟨n, fields, rfl, hfields, -⟩ := Schema.ofJson_eq_some h
  obtain ⟨n, rfl, hitems⟩ := fieldsOfJson_eq_some hfields
  rw [Schema.everyLevel_iff]
  constructor
  · intro f hf
    obtain ⟨item, hitem⟩ := hitems f hf
    obtain ⟨n, type, rfl, -, hdefault⟩ := fieldOfJson_eq_some hitem
    exact hdefault
  · intro f hf
    obtain ⟨item, hitem⟩ := hitems f hf
    obtain ⟨n, type, rfl, htype, -⟩ := fieldOfJson_eq_some hitem
    exact FieldType.everyLevel_ofJson htype
termination_by depth

end

/-- **What holds throughout.** A schema is made of a name and fields exactly when they are sound
throughout, and then of just these; this is the rule for schemas. The canonical schema of a sound
one is sound, though nothing checks it. And whatever the text, a schema that is read from it is
sound throughout, and has no default at any depth. -/
theorem Schema.make_iff_soundThroughout :
    (∀ name fields, (∃ s, Schema.make name fields = .ok s) ↔
      Schema.SoundThroughout ⟨name, fields⟩) ∧
    (∀ name fields s, Schema.make name fields = .ok s → s = ⟨name, fields⟩) ∧
    (∀ s : Schema, s.WellFormed ↔ s.SoundThroughout) ∧
    (∀ s : Schema, s.SoundThroughout → s.canonical.SoundThroughout) ∧
    ∀ text s, Schema.ofText text = .ok s →
      s.SoundThroughout ∧ ∀ f : Field, f.OccursIn s → f.default = none := by
  refine ⟨fun name fields => ?_, fun name fields s h => (Schema.eq_of_make h).1,
    Schema.wellFormed_iff_soundThroughout, fun s h => ?_, fun text s h => ?_⟩
  · rw [← Schema.wellFormed_iff_soundThroughout]
    constructor
    · rintro ⟨s, hs⟩
      obtain ⟨rfl, hwell⟩ := Schema.eq_of_make hs
      exact hwell
    · exact fun hwell => ⟨_, Schema.make_of_wellFormed hwell⟩
  · rw [← Schema.wellFormed_iff_soundThroughout] at h ⊢
    exact h.canonical
  · rw [Schema.ofText] at h
    split at h
    next read hread =>
      cases h
      obtain ⟨j, -, hj⟩ := Option.bind_eq_some_iff.mp hread
      obtain ⟨-, -, -, -, hwell⟩ := Schema.ofJson_eq_some hj
      exact ⟨s.wellFormed_iff_soundThroughout.mp hwell,
        fun f hf => hf.default_eq_none (Schema.everyLevel_ofJson hj)⟩
    next => cases h

/-- A bin with a label from a list. It is the label `a` unless something else is said. -/
def bin (labels : List String) : Schema :=
  ⟨"Bin", [⟨"label", .enum labels, some (.symbol "a")⟩]⟩

/-- A shelf of bins by their names on each floor. There may be floors without bins. -/
def shelf (labels : List String) : Schema :=
  ⟨"Shelf", [⟨"floors", .list (.optional (.map (.record (bin labels)))), none⟩]⟩

/-- A shelf of bins with distinct labels is a schema. Its canonical schema is sound, and what is
read from its text has no default for labels. With a label twice it is refused, though the label is
deep down in it. -/
theorem make_iff_soundThroughout_shelf :
    (∃ s, Schema.make "Shelf" (shelf ["a", "b"]).fields = .ok s) ∧
      (shelf ["a", "b"]).canonical.SoundThroughout ∧
      (∃ s, Schema.ofText (shelf ["a", "b"]).canonicalText = .ok s ∧
        ∀ f : Field, f.OccursIn s → f.default = none) ∧
      ¬ ∃ s, Schema.make "Shelf" (shelf ["a", "a"]).fields = .ok s := by
  obtain ⟨hmake, -, hrule, hcanonical, htext⟩ := Schema.make_iff_soundThroughout
  have hmade : ∃ s, Schema.make "Shelf" (shelf ["a", "b"]).fields = .ok s := ⟨_, rfl⟩
  have hsound : (shelf ["a", "b"]).SoundThroughout := (hmake _ _).mp hmade
  have hread := Schema.ofText_canonicalText ((hrule _).mpr hsound)
  have hdepth : (shelf ["a", "b"]).canonicalJson.depth ≤ Schema.nestingLimit := by
    simp [shelf, bin, Schema.canonicalJson, fieldBodies, FieldType.canonicalJson, Json.sortMembers,
      Json.field, Json.record, Json.text, Json.depth, Json.itemsDepth, Json.membersDepth,
      Schema.nestingLimit]
  rw [if_pos hdepth] at hread
  refine ⟨hmade, hcanonical _ hsound, ⟨_, hread, (htext _ _ hread).2⟩, fun hrefused => ?_⟩
  -- However deep down the labels are, they occur in the shelf.
  have hbin : (FieldType.record (bin ["a", "a"])).OccursIn (shelf ["a", "a"]) :=
    .map (.optional (.list (.field (f := (shelf ["a", "a"]).fields[0]) (List.getElem_mem _))))
  have hlabels : (FieldType.enum ["a", "a"]).OccursIn (shelf ["a", "a"]) :=
    .nested hbin List.mem_cons_self
  exact absurd (((hmake _ _).mp hrefused).enums _ hlabels).2.2 (by decide)

end RecordExchange
