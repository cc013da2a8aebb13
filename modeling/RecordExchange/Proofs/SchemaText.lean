import RecordExchange.Proofs.CanonicalText

/-!
# Reading the canonical text

The canonical text of a valid schema is read back as the canonical schema, unless it nests deeper
than the limit: then it is refused, and there is no other outcome.

- `Schema.WellFormed.canonical`: the canonical schema of a well-formed schema is well formed.
- `Schema.ofJson_json`: the tree of a schema is read back within its depth, and not below it.
- `Schema.ofText_canonicalText`: the two outcomes for the text.
-/

namespace RecordExchange

/-! ## Canonical schemas are well formed -/

mutual

theorem FieldType.WellFormed.canonical : ∀ {t : FieldType}, t.WellFormed → t.canonical.WellFormed
  | .optional inner, h => @FieldType.WellFormed.canonical inner h
  | .list item, h => @FieldType.WellFormed.canonical item h
  | .map item, h => @FieldType.WellFormed.canonical item h
  | .record s, h => @Schema.WellFormed.canonical s h
  | .enum _, h => h
  | .bool, _ | .int, _ | .long, _ | .float, _ | .double, _ | .string, _ | .bytes, _ => trivial

/-- The canonical schema keeps to the rule: no default is left that could break it. -/
theorem Schema.WellFormed.canonical : ∀ {s : Schema}, s.WellFormed → s.canonical.WellFormed
  | ⟨name, fields⟩, h => by
    have distinct : Schema.NamesDistinct (Schema.canonical ⟨name, fields⟩) :=
      Schema.NamesDistinct.canonical h.2.1
    rw [Schema.wellFormed_iff]
    refine ⟨h.1, distinct, fun f hf => ?_⟩
    exact wellFormed_of_mem_canonicalFields h.2.2 f ((sortFields_perm _).mem_iff.mp hf)

theorem wellFormed_of_mem_canonicalFields : ∀ {fields : List Field}, WellFormedFields fields →
    ∀ f ∈ canonicalFields fields, f.WellFormed
  | [], _, _, hf => absurd hf List.not_mem_nil
  | ⟨_, type, _⟩ :: rest, h, f, hf => by
    rcases List.mem_cons.mp hf with rfl | hf
    · exact ⟨h.1.1, @FieldType.WellFormed.canonical type h.1.2.1, fun v hv => by cases hv⟩
    · exact @wellFormed_of_mem_canonicalFields rest h.2 f hf

end

/-! ## Depths -/

namespace Json

theorem depth_record_single (key : String) (j : Json) :
    (record [(key, j)]).depth = j.depth + 1 := by
  show max j.depth 0 + 1 = j.depth + 1
  rw [Nat.max_zero]

theorem depth_field (name : String) (j : Json) : (field (name, j)).depth = j.depth + 1 := by
  show max 0 (max j.depth 0) + 1 = j.depth + 1
  rw [Nat.max_zero, Nat.zero_max]

/-- A loop over trees that are each read within their depth, and not below it, is within the depth
of the deepest. -/
theorem mapM_eq_ite_itemsDepth {α : Type} {tree : α → Json} {read : Json → Option α} {n : Nat} :
    ∀ {l : List α}, (∀ a ∈ l, read (tree a) = if (tree a).depth ≤ n then some a else none) →
      (l.map tree).mapM read = if itemsDepth (l.map tree) ≤ n then some l else none
  | [], _ => (if_pos (Nat.zero_le n)).symm
  | a :: rest, h => by
    have hfirst := h a List.mem_cons_self
    have hrest := mapM_eq_ite_itemsDepth fun b hb => h b (List.mem_cons_of_mem a hb)
    rw [List.map_cons, List.mapM_cons, hfirst, hrest, itemsDepth]
    by_cases ha : (tree a).depth ≤ n
    · by_cases hr : itemsDepth (rest.map tree) ≤ n
      · rw [if_pos ha, if_pos hr, if_pos (Nat.max_le.mpr ⟨ha, hr⟩)]
        rfl
      · rw [if_pos ha, if_neg hr, if_neg fun hmax => hr (Nat.max_le.mp hmax).2]
        rfl
    · rw [if_neg ha, if_neg fun hmax => ha (Nat.max_le.mp hmax).1]
      rfl

end Json

/-! ## Reading trees back -/

/-- What is read one level further in is read within one level more. -/
theorem map_ite_depth {α β : Type} (f : α → β) (a : α) (d n : Nat) :
    (if d ≤ n then some a else none).map f = if d + 1 ≤ n + 1 then some (f a) else none := by
  by_cases h : d ≤ n
  · rw [if_pos h, if_pos (Nat.succ_le_succ h), Option.map_some]
  · rw [if_neg h, if_neg fun hle => h (Nat.le_of_succ_le_succ hle), Option.map_none]

theorem symbolsOfJson_map_text (n : Nat) (symbols : List String) :
    symbolsOfJson n (.array (symbols.map .text))
      = if (Json.array (symbols.map .text)).depth ≤ n then some symbols else none := by
  have htexts : ∀ m, Json.itemsDepth (symbols.map .text) ≤ m := by
    intro m
    induction symbols with
    | nil => exact Nat.zero_le m
    | cons s rest ih => exact Nat.max_le.mpr ⟨Nat.zero_le m, ih⟩
  have hloop : (symbols.map Json.text).mapM Json.asText? = some symbols := by
    rw [@Json.mapM_eq_ite_itemsDepth _ _ _ 0 _ fun s _ => rfl, if_pos (htexts 0)]
  rw [symbolsOfJson, hloop, Json.depth]
  cases n with
  | zero => rfl
  | succ n => rw [if_neg (Nat.succ_ne_zero n), if_pos (Nat.succ_le_succ (htexts n))]

theorem Schema.make_of_wellFormed {name : String} {fields : List Field}
    (h : Schema.WellFormed ⟨name, fields⟩) : Schema.make name fields = .ok ⟨name, fields⟩ := by
  rw [Schema.make, (Schema.check_eq_ok_iff _).mpr h]
  rfl

/-- A field is read from its tree as its type is, one level further in. -/
theorem fieldOfJson_field {n : Nat} {f : Field} (hdefault : f.default = none)
    (h : ∀ m, FieldType.ofJson m f.type.json
      = if f.type.json.depth ≤ m then some f.type else none) :
    fieldOfJson n (Json.field (f.name, f.type.json))
      = if (Json.field (f.name, f.type.json)).depth ≤ n then some f else none := by
  obtain ⟨name, type, dflt⟩ := f
  obtain rfl : dflt = none := hdefault
  rw [Json.depth_field]
  cases n with
  | zero => rfl
  | succ n =>
    show ((FieldType.ofJson n type.json).bind fun t => some (⟨name, t, none⟩ : Field)) = _
    rw [h n, ← map_ite_depth (fun t => (⟨name, t, none⟩ : Field)), Option.map_eq_bind]
    rfl

mutual

theorem FieldType.ofJson_json : ∀ t : FieldType, t.WellFormed → ∀ n,
    FieldType.ofJson n t.canonical.json
      = if t.canonical.json.depth ≤ n then some t.canonical else none
  | .optional inner, h, n => by
    rw [FieldType.canonical, FieldType.json, Json.depth_record_single]
    cases n with
    | zero => rfl
    | succ n =>
      -- The inner tree is one level less deep, and is read with one level less to go.
      show (FieldType.ofJson n inner.canonical.json).map FieldType.optional = _
      rw [inner.ofJson_json h n, map_ite_depth]
  | .list item, h, n => by
    rw [FieldType.canonical, FieldType.json, Json.depth_record_single]
    cases n with
    | zero => rfl
    | succ n =>
      show (FieldType.ofJson n item.canonical.json).map FieldType.list = _
      rw [item.ofJson_json h n, map_ite_depth]
  | .map item, h, n => by
    rw [FieldType.canonical, FieldType.json, Json.depth_record_single]
    cases n with
    | zero => rfl
    | succ n =>
      show (FieldType.ofJson n item.canonical.json).map FieldType.map = _
      rw [item.ofJson_json h n, map_ite_depth]
  | .record s, h, n => by
    rw [FieldType.canonical, FieldType.json, Json.depth_record_single]
    cases n with
    | zero => rfl
    | succ n =>
      show (Schema.ofJson n s.canonical.json).map FieldType.record = _
      rw [s.ofJson_json h n, map_ite_depth]
  | .enum symbols, _, n => by
    rw [FieldType.canonical, FieldType.json, Json.depth_record_single]
    · cases n with
      | zero => rfl
      | succ n =>
        show (symbolsOfJson n (.array (symbols.map .text))).map FieldType.enum = _
        rw [symbolsOfJson_map_text, map_ite_depth]
    all_goals exact fun _ h => by cases h
  | .bool, _, n | .int, _, n | .long, _, n | .float, _, n | .double, _, n | .string, _, n
  | .bytes, _, n => by cases n <;> rfl
termination_by structural t => t

/-- The tree of a canonical schema is read back when as many levels may be nested as it has, and
refused when fewer may. -/
theorem Schema.ofJson_json : ∀ s : Schema, s.WellFormed → ∀ n,
    Schema.ofJson n s.canonical.json
      = if s.canonical.json.depth ≤ n then some s.canonical else none
  | ⟨name, fields⟩, h, n => by
    have hwell : Schema.WellFormed ⟨name, sortFields (canonicalFields fields)⟩ :=
      Schema.WellFormed.canonical h
    rw [Schema.canonical, Schema.json, fieldsJson_eq_map]
    have hloop := fun m => @Json.mapM_eq_ite_itemsDepth Field
      (fun f => Json.field (f.name, f.type.json)) (fieldOfJson m) m
      (sortFields (canonicalFields fields)) fun f hf => by
        rw [canonicalFields_eq_map] at hf
        obtain ⟨g, hg, rfl⟩ := List.mem_map.mp ((sortFields_perm _).mem_iff.mp hf)
        exact @fieldOfJson_field m g.canonical rfl fun k => ofJson_of_mem fields h.2.2 g hg k
    generalize sortFields (canonicalFields fields) = sorted at hwell hloop ⊢
    generalize (sorted.map fun f => Json.field (f.name, f.type.json)) = items at hloop ⊢
    have hdepth : (Json.record [("fields", .array items), ("name", .text name)]).depth
        = Json.itemsDepth items + 2 := by
      show max (Json.itemsDepth items + 1) (max 0 0) + 1 = Json.itemsDepth items + 2
      rw [Nat.max_self, Nat.max_zero]
    rw [hdepth]
    -- The object and the array within it are a level each.
    cases n with
    | zero => rfl
    | succ n =>
      show ((fieldsOfJson n (.array items)).bind fun fs => (Schema.make name fs).toOption) = _
      cases n with
      | zero => rfl
      | succ n =>
        show ((items.mapM (fieldOfJson n)).bind fun fs => (Schema.make name fs).toOption) = _
        rw [hloop n]
        by_cases hn : Json.itemsDepth items ≤ n
        · rw [if_pos hn, if_pos (Nat.add_le_add_right hn 2), Option.bind_some,
            Schema.make_of_wellFormed hwell]
          rfl
        · rw [if_neg hn, if_neg fun hle => hn (Nat.le_of_add_le_add_right hle)]
          rfl
termination_by structural s => s

theorem ofJson_of_mem : ∀ fields : List Field, WellFormedFields fields → ∀ f ∈ fields, ∀ n,
    FieldType.ofJson n f.type.canonical.json
      = if f.type.canonical.json.depth ≤ n then some f.type.canonical else none
  | [], _, _, hf, _ => absurd hf List.not_mem_nil
  | ⟨_, type, _⟩ :: rest, h, f, hf, n => by
    rcases List.mem_cons.mp hf with rfl | hf
    · exact type.ofJson_json h.1.2.1 n
    · exact ofJson_of_mem rest h.2 f hf n
termination_by structural fields => fields

end

/-- **Reading the canonical text.** The canonical text of a well-formed schema gives the canonical
schema, unless it nests deeper than the limit. -/
theorem Schema.ofText_canonicalText {s : Schema} (h : s.WellFormed) :
    Schema.ofText s.canonicalText
      = if s.canonicalJson.depth ≤ Schema.nestingLimit then .ok s.canonical
        else .error .malformed := by
  rw [Schema.ofText, s.parse_canonicalText, Option.bind_some, s.ofJson_json h, s.canonicalJson_eq]
  by_cases hdepth : s.canonical.json.depth ≤ Schema.nestingLimit
  · rw [if_pos hdepth, if_pos hdepth]
  · rw [if_neg hdepth, if_neg hdepth]

end RecordExchange
