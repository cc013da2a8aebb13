import RecordExchange.Schema.Validity

/-!
# The check and the rule

The check of a schema, which stops at the first fault, passes exactly the schemas that are well
formed.

- `Schema.check_eq_ok_iff`: the check and the rule agree.
- `wellFormedFields_iff`: the rule for fields, field by field.
-/

namespace RecordExchange

namespace Text

theorem dropWhile_eq_nil_iff (p : Char → Bool) (cs : List Char) :
    cs.dropWhile p = [] ↔ ∀ c ∈ cs, p c = true := by
  induction cs with
  | nil => simp
  | cons c rest ih =>
    rw [List.dropWhile_cons]
    split
    · simp_all
    · simp_all

/-- A text is blank when nothing is left of it between its blanks. -/
theorem trim_eq_empty_iff (s : String) : trim s = "" ↔ IsBlank s := by
  have hnil : trim s = "" ↔ (s.toList.dropWhile isBlank).reverse.dropWhile isBlank = [] := by
    rw [trim, String.ofList_eq_empty_iff, List.reverse_eq_nil_iff]
  rw [hnil, dropWhile_eq_nil_iff, IsBlank]
  constructor
  · intro h c hc
    by_cases hall : s.toList.dropWhile isBlank = []
    · exact (dropWhile_eq_nil_iff _ _).mp hall c hc
    · -- What is left starts with a character that is no blank.
      have hhead := List.head_dropWhile_not isBlank hall
      have hblank := h _ (List.mem_reverse.mpr (List.head_mem hall))
      rw [hhead] at hblank
      exact absurd hblank (by decide)
  · intro h c hc
    exact h c ((List.dropWhile_sublist _).subset (List.mem_reverse.mp hc))

end Text

/-- A field is well formed when it has a name, a well-formed type and a default of its type, if
any. -/
def Field.WellFormed (f : Field) : Prop :=
  f.name ≠ "" ∧ f.type.WellFormed ∧ ∀ v ∈ f.default, f.type.accepts v = true

theorem wellFormedFields_iff (fields : List Field) :
    WellFormedFields fields ↔ ∀ f ∈ fields, f.WellFormed := by
  induction fields with
  | nil => simp [WellFormedFields]
  | cons f rest ih =>
    obtain ⟨name, type, dflt⟩ := f
    simp [WellFormedFields, ih, Field.WellFormed]

theorem Schema.wellFormed_iff (s : Schema) :
    s.WellFormed ↔
      ¬ Text.IsBlank s.name ∧ (s.fields.map Field.name).Nodup ∧ ∀ f ∈ s.fields, f.WellFormed := by
  obtain ⟨name, fields⟩ := s
  rw [Schema.WellFormed, wellFormedFields_iff]

/-- Two checks in a row pass when both do. -/
theorem except_bind_eq_ok_iff {ε : Type} {x y : Except ε Unit} :
    (x >>= fun _ => y) = .ok () ↔ x = .ok () ∧ y = .ok () := by
  cases x with
  | error e => simp [bind, Except.bind]
  | ok u => simp [bind, Except.bind]

mutual

theorem FieldType.check_eq_ok_iff (typeName field : String) :
    ∀ t : FieldType, t.check typeName field = .ok () ↔ t.WellFormed
  | .bool | .int | .long | .float | .double | .string | .bytes => by
    simp [FieldType.check, FieldType.WellFormed]
  | .enum symbols => by
    simp only [FieldType.check, FieldType.WellFormed, FieldType.symbolsValid]
    simp [and_assoc]
  | .optional inner => by
    rw [FieldType.check, FieldType.WellFormed, inner.check_eq_ok_iff]
  | .list item => by
    rw [FieldType.check, FieldType.WellFormed, item.check_eq_ok_iff]
  | .map item => by
    rw [FieldType.check, FieldType.WellFormed, item.check_eq_ok_iff]
  | .record s => by
    rw [FieldType.check, FieldType.WellFormed, s.check_eq_ok_iff]

/-- The check passes exactly the well-formed schemas. -/
theorem Schema.check_eq_ok_iff : ∀ s : Schema, s.check = .ok () ↔ s.WellFormed
  | ⟨name, fields⟩ => by
    rw [Schema.check, Schema.WellFormed]
    by_cases hblank : Text.trim name = ""
    · simp [if_pos hblank, (Text.trim_eq_empty_iff name).mp hblank]
    · have hname : ¬ Text.IsBlank name := fun h => hblank ((Text.trim_eq_empty_iff name).mpr h)
      rw [if_neg hblank, checkFields_eq_ok_iff]
      simp [hname]

/-- The check of fields passes when they are well formed and their names are new and distinct. -/
theorem checkFields_eq_ok_iff (typeName : String) : ∀ (fields : List Field) (seen : List String),
    checkFields typeName seen fields = .ok () ↔
      (fields.map Field.name).Nodup ∧ (∀ f ∈ fields, f.name ∉ seen) ∧ WellFormedFields fields
  | [], seen => by simp [checkFields, WellFormedFields]
  | ⟨name, type, dflt⟩ :: rest, seen => by
    have hdefault : dflt.all type.accepts = true ↔ ∀ v ∈ dflt, type.accepts v = true := by
      cases dflt <;> simp
    rw [checkFields]
    -- In the order of the check: an empty name, one seen before, the type, the default.
    by_cases hname : name = ""
    · simp [WellFormedFields, hname]
    by_cases hseen : seen.contains name = true
    · have hmem : name ∈ seen := List.contains_iff_mem.mp hseen
      simp [if_neg hname, hmem]
    have hfresh : name ∉ seen := fun h => hseen (List.contains_iff_mem.mpr h)
    rw [if_neg hname, if_neg hseen, except_bind_eq_ok_iff, type.check_eq_ok_iff]
    by_cases hall : dflt.all type.accepts = true
    · rw [if_pos hall, checkFields_eq_ok_iff typeName rest (name :: seen)]
      have haccepts := hdefault.mp hall
      simp only [List.map_cons, List.nodup_cons, List.mem_map, List.mem_cons, WellFormedFields,
        ne_eq, hname, not_false_eq_true, true_and, not_or, forall_eq_or_imp, hfresh]
      constructor
      · rintro ⟨htype, distinct, hrest, hwell⟩
        exact ⟨⟨fun ⟨f, hf, same⟩ => (hrest f hf).1 same, distinct⟩, fun f hf => (hrest f hf).2,
          ⟨htype, haccepts⟩, hwell⟩
      · rintro ⟨⟨hnew, distinct⟩, hrest, ⟨htype, -⟩, hwell⟩
        exact ⟨htype, distinct, fun f hf => ⟨fun same => hnew ⟨f, hf, same⟩, hrest f hf⟩, hwell⟩
    · have hreject : ¬ ∀ v ∈ dflt, type.accepts v = true := fun h => hall (hdefault.mpr h)
      simp only [if_neg hall, WellFormedFields]
      simp only [hreject, and_false, false_and, reduceCtorEq]

end

end RecordExchange
