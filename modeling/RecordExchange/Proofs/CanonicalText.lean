import RecordExchange.Proofs.CanonicalOrder
import RecordExchange.Proofs.JsonText
import RecordExchange.Proofs.Validity
import RecordExchange.Schema.Text

/-!
# What the canonical text says

The canonical text is written by a sort of its own, beside the one that makes canonical schemas.
Both come to the same, and the text says neither more nor less than the canonical schema: two valid
schemas share it exactly when they differ in nothing but defaults and the order of fields, at any
depth.

- `FieldType.Similar`, `Schema.Similar`: to differ in nothing else.
- `Schema.canonicalJson_eq`: the canonical tree is the tree of the canonical schema.
- `Schema.canonical_eq_of_json_eq`: a tree determines the canonical schema.
- `Schema.canonical_eq_iff_similar`, `Schema.same_canonical_iff`.
- `Schema.canonicalText_eq_iff`: the three notions of sameness agree.
-/

namespace RecordExchange

/-! ## The tree of a schema as it stands -/

mutual

/-- The tree of a type with the fields of its schemas in the order in which they stand. -/
def FieldType.json : FieldType → Json
  | .enum symbols => .record [("enum", .array (symbols.map .text))]
  | .optional inner => .record [("optional", inner.json)]
  | .list item => .record [("list", item.json)]
  | .map item => .record [("map", item.json)]
  | .record s => .record [("record", s.json)]
  | .bool => .text "bool"
  | .int => .text "int"
  | .long => .text "long"
  | .float => .text "float"
  | .double => .text "double"
  | .string => .text "string"
  | .bytes => .text "bytes"

/-- The tree of a schema with its fields in the order in which they stand. -/
def Schema.json : Schema → Json
  | ⟨name, fields⟩ => .record [("fields", .array (fieldsJson fields)), ("name", .text name)]

/-- The trees of fields. -/
def fieldsJson : List Field → List Json
  | [] => []
  | ⟨name, type, _⟩ :: rest => Json.field (name, type.json) :: fieldsJson rest

end

theorem fieldsJson_eq_map (fields : List Field) :
    fieldsJson fields = fields.map fun f => Json.field (f.name, f.type.json) := by
  induction fields with
  | nil => rfl
  | cons f rest ih =>
    obtain ⟨name, type, dflt⟩ := f
    rw [fieldsJson, ih, List.map_cons]

/-! ## The two sorts agree -/

/-- Sorting names with trees is sorting the fields that they come from. -/
theorem sortMembers_map (tree : Field → Json) (fields : List Field) :
    Json.sortMembers (fields.map fun f => (f.name, tree f))
      = (sortFields fields).map fun f => (f.name, tree f) := by
  rw [Json.sortMembers, sortFields]
  refine (List.map_mergeSort ?_).symm
  intro a _ b _
  rfl

mutual

/-- The canonical tree of a type is the tree of its canonical type. -/
theorem FieldType.canonicalJson_eq : ∀ t : FieldType, t.canonicalJson = t.canonical.json
  | .bool | .int | .long | .float | .double | .string | .bytes | .enum _ => rfl
  | .optional inner => by
    simp only [FieldType.canonicalJson, FieldType.canonical, FieldType.json, inner.canonicalJson_eq]
  | .list item => by
    simp only [FieldType.canonicalJson, FieldType.canonical, FieldType.json, item.canonicalJson_eq]
  | .map item => by
    simp only [FieldType.canonicalJson, FieldType.canonical, FieldType.json, item.canonicalJson_eq]
  | .record s => by
    simp only [FieldType.canonicalJson, FieldType.canonical, FieldType.json, s.canonicalJson_eq]

/-- The canonical tree of a schema is the tree of its canonical schema. -/
theorem Schema.canonicalJson_eq : ∀ s : Schema, s.canonicalJson = s.canonical.json
  | ⟨name, fields⟩ => by
    rw [Schema.canonicalJson, Schema.canonical, Schema.json, fieldBodies_eq fields,
      fieldsJson_eq_map, sortMembers_map, List.map_map]
    rfl

theorem fieldBodies_eq : ∀ fields : List Field,
    fieldBodies fields = (canonicalFields fields).map fun f => (f.name, f.type.json)
  | [] => rfl
  | ⟨name, type, dflt⟩ :: rest => by
    rw [fieldBodies, canonicalFields, List.map_cons, fieldBodies_eq rest, type.canonicalJson_eq]

end

/-! ## Trees determine schemas -/

theorem Json.text_injective {s t : String} (h : Json.text s = Json.text t) : s = t :=
  Option.some.inj (Json.string.inj h)

theorem Json.record_injective {as bs : List (String × Json)}
    (h : Json.record as = Json.record bs) : as = bs := by
  refine (List.map_inj_right fun m n hmn => ?_).mp (Json.object.inj h)
  obtain ⟨hkey, htree⟩ := Prod.mk.inj hmn
  exact Prod.ext (Option.some.inj hkey) htree

/-- Objects of one member are equal when their keys and their trees are. -/
theorem Json.record_single_inj {k l : String} {i j : Json} :
    Json.record [(k, i)] = Json.record [(l, j)] ↔ k = l ∧ i = j := by
  constructor
  · intro h
    exact Prod.mk.inj (List.cons.inj (Json.record_injective h)).1
  · rintro ⟨rfl, rfl⟩
    rfl

theorem Json.field_injective {a b : String × Json} (h : Json.field a = Json.field b) : a = b := by
  obtain ⟨hname, htype⟩ := List.cons.inj (Json.record_injective h)
  exact Prod.ext (Json.text_injective (Prod.mk.inj hname).2) (Prod.mk.inj (List.cons.inj htype).1).2

mutual

/-- The tree of a type leaves nothing open but defaults. -/
theorem FieldType.canonical_eq_of_json_eq : ∀ t u : FieldType, t.json = u.json →
    t.canonical = u.canonical
  -- The only key of the tree names the kind of the type, so that both are of one kind.
  | .enum a, u, h => by
    cases u with
    | enum b =>
      have hsymbols : a.map Json.text = b.map Json.text :=
        Json.array.inj (Json.record_single_inj.mp h).2
      rw [(List.map_inj_right fun _ _ => Json.text_injective).mp hsymbols]
    | _ => simp [FieldType.json, Json.record, Json.text] at h
  | .optional t, u, h => by
    cases u with
    | optional u =>
      have hinner := (Json.record_single_inj.mp h).2
      rw [FieldType.canonical, FieldType.canonical, t.canonical_eq_of_json_eq u hinner]
    | _ => simp [FieldType.json, Json.record, Json.text] at h
  | .list t, u, h => by
    cases u with
    | list u =>
      have hinner := (Json.record_single_inj.mp h).2
      rw [FieldType.canonical, FieldType.canonical, t.canonical_eq_of_json_eq u hinner]
    | _ => simp [FieldType.json, Json.record, Json.text] at h
  | .map t, u, h => by
    cases u with
    | map u =>
      have hinner := (Json.record_single_inj.mp h).2
      rw [FieldType.canonical, FieldType.canonical, t.canonical_eq_of_json_eq u hinner]
    | _ => simp [FieldType.json, Json.record, Json.text] at h
  | .record s, u, h => by
    cases u with
    | record s' =>
      have hinner := (Json.record_single_inj.mp h).2
      rw [FieldType.canonical, FieldType.canonical, s.canonical_eq_of_json_eq s' hinner]
    | _ => simp [FieldType.json, Json.record, Json.text] at h
  | .bool, u, h | .int, u, h | .long, u, h | .float, u, h | .double, u, h | .string, u, h
  | .bytes, u, h => by
    cases u <;> first | rfl | simp [FieldType.json, Json.record, Json.text] at h
termination_by structural t => t

/-- The tree of a schema leaves nothing open but defaults. -/
theorem Schema.canonical_eq_of_json_eq : ∀ s s' : Schema, s.json = s'.json →
    s.canonical = s'.canonical
  | ⟨name, fields⟩, ⟨name', fields'⟩, h => by
    obtain ⟨hfields, hname⟩ := List.cons.inj (Json.record_injective h)
    have htrees : fieldsJson fields = fieldsJson fields' := Json.array.inj (Prod.mk.inj hfields).2
    have hnames : name = name' :=
      Json.text_injective (Prod.mk.inj (List.cons.inj hname).1).2
    rw [Schema.canonical, Schema.canonical, hnames,
      canonicalFields_eq_of_fieldsJson_eq fields fields' htrees]
termination_by structural s => s

theorem canonicalFields_eq_of_fieldsJson_eq : ∀ fields others : List Field,
    fieldsJson fields = fieldsJson others → canonicalFields fields = canonicalFields others
  | [], [], _ => rfl
  | [], ⟨_, _, _⟩ :: _, h => by cases h
  | ⟨_, _, _⟩ :: _, [], h => by cases h
  | ⟨name, type, _⟩ :: rest, ⟨name', type', _⟩ :: rest', h => by
    obtain ⟨hfirst, hrest⟩ := List.cons.inj h
    obtain ⟨hname, htype⟩ := Prod.mk.inj (Json.field_injective hfirst)
    rw [canonicalFields, canonicalFields, hname, type.canonical_eq_of_json_eq type' htype,
      canonicalFields_eq_of_fieldsJson_eq rest rest' hrest]
termination_by structural fields => fields

end

/-! ## Trees of schemas are plain -/

theorem plainItems_iff (items : List Json) :
    Json.PlainItems items ↔ ∀ j ∈ items, j.Plain := by
  induction items with
  | nil => simp [Json.PlainItems]
  | cons j js ih => simp [Json.PlainItems, ih]

mutual

theorem FieldType.plain_json : ∀ t : FieldType, t.json.Plain
  | .bool | .int | .long | .float | .double | .string | .bytes => rfl
  | .enum symbols => by
    have hsymbols : Json.PlainItems (symbols.map .text) := by
      rw [plainItems_iff]
      intro j hj
      obtain ⟨s, -, rfl⟩ := List.mem_map.mp hj
      rfl
    exact ⟨⟨rfl, hsymbols⟩, trivial⟩
  | .optional inner => ⟨⟨rfl, inner.plain_json⟩, trivial⟩
  | .list item => ⟨⟨rfl, item.plain_json⟩, trivial⟩
  | .map item => ⟨⟨rfl, item.plain_json⟩, trivial⟩
  | .record s => ⟨⟨rfl, s.plain_json⟩, trivial⟩

theorem Schema.plain_json : ∀ s : Schema, s.json.Plain
  | ⟨_, fields⟩ => ⟨⟨rfl, plain_fieldsJson fields⟩, ⟨rfl, rfl⟩, trivial⟩

theorem plain_fieldsJson : ∀ fields : List Field, Json.PlainItems (fieldsJson fields)
  | [] => trivial
  | ⟨_, type, _⟩ :: rest =>
    ⟨⟨⟨rfl, rfl⟩, ⟨rfl, type.plain_json⟩, trivial⟩, plain_fieldsJson rest⟩

end

/-- The canonical text of a schema is read back as the tree of its canonical schema. -/
theorem Schema.parse_canonicalText (s : Schema) :
    Json.parse s.canonicalText = some s.canonical.json := by
  rw [Schema.canonicalText, s.canonicalJson_eq]
  exact Json.parse_render s.canonical.plain_json

/-- The text says as much as the canonical schema, for schemas of any kind, valid or not. -/
theorem Schema.canonicalText_eq_iff_canonical_eq (a b : Schema) :
    a.canonicalText = b.canonicalText ↔ a.canonical = b.canonical := by
  constructor
  · intro h
    -- Equal texts have equal trees, and the trees leave nothing open: a canonical schema has no
    -- defaults.
    have hparse := a.parse_canonicalText
    rw [h, b.parse_canonicalText] at hparse
    have hcanonical := Schema.canonical_eq_of_json_eq _ _ (Option.some.inj hparse)
    rw [b.canonical_canonical, a.canonical_canonical] at hcanonical
    exact hcanonical.symm
  · intro h
    rw [Schema.canonicalText, Schema.canonicalText, a.canonicalJson_eq, b.canonicalJson_eq, h]

/-! ## Similar schemas -/

mutual

/-- Types that differ in nothing but the order of fields and defaults, at any depth. -/
inductive FieldType.Similar : FieldType → FieldType → Prop where
  | refl (t : FieldType) : FieldType.Similar t t
  | optional {t u : FieldType} (inner : FieldType.Similar t u) :
    FieldType.Similar (.optional t) (.optional u)
  | list {t u : FieldType} (item : FieldType.Similar t u) : FieldType.Similar (.list t) (.list u)
  | map {t u : FieldType} (item : FieldType.Similar t u) : FieldType.Similar (.map t) (.map u)
  | record {a b : Schema} (schema : Schema.Similar a b) :
    FieldType.Similar (.record a) (.record b)

/-- Schemas of one name whose fields can be arranged so that they are similar one by one. -/
inductive Schema.Similar : Schema → Schema → Prop where
  | mk {name : String} {fields arranged others : List Field} (perm : arranged.Perm fields)
    (similar : FieldsSimilar arranged others) : Schema.Similar ⟨name, fields⟩ ⟨name, others⟩

/-- Fields of the same names and of similar types, whatever their defaults. -/
inductive FieldsSimilar : List Field → List Field → Prop where
  | nil : FieldsSimilar [] []
  | cons {name : String} {t u : FieldType} {d e : Option Value} {fields others : List Field}
    (type : FieldType.Similar t u) (rest : FieldsSimilar fields others) :
    FieldsSimilar (⟨name, t, d⟩ :: fields) (⟨name, u, e⟩ :: others)

end

mutual

/-- Similar types have one canonical type, if names are distinct where it is sorted by them. -/
theorem FieldType.Similar.canonical_eq : ∀ {t u : FieldType}, t.Similar u → t.WellFormed →
    t.canonical = u.canonical
  | _, _, .refl t, _ => rfl
  | _, _, .optional inner, h => by
    rw [FieldType.canonical, FieldType.canonical, inner.canonical_eq h]
  | _, _, .list item, h => by
    rw [FieldType.canonical, FieldType.canonical, item.canonical_eq h]
  | _, _, .map item, h => by
    rw [FieldType.canonical, FieldType.canonical, item.canonical_eq h]
  | _, _, .record schema, h => by
    rw [FieldType.canonical, FieldType.canonical, schema.canonical_eq h]

theorem Schema.Similar.canonical_eq : ∀ {a b : Schema}, a.Similar b → a.WellFormed →
    a.canonical = b.canonical
  | _, _, @Schema.Similar.mk name fields _ _ perm similar, h => by
    obtain ⟨-, distinct, hfields⟩ := (Schema.wellFormed_iff _).mp h
    -- The fields are similar one by one only once they are arranged, and sorting undoes the
    -- arrangement.
    have harranged := similar.canonical_eq fun f hf => hfields f (perm.mem_iff.mp hf)
    rw [Schema.canonical, Schema.canonical, ← harranged, canonicalFields_eq_map,
      canonicalFields_eq_map]
    refine congrArg (Schema.mk name) (sortFields_eq_of_perm (perm.symm.map Field.canonical) ?_)
    rw [map_name_canonical]
    exact distinct

theorem FieldsSimilar.canonical_eq : ∀ {fields others : List Field}, FieldsSimilar fields others →
    (∀ f ∈ fields, f.WellFormed) → canonicalFields fields = canonicalFields others
  | _, _, .nil, _ => rfl
  | _, _, .cons type rest, h => by
    have htype := type.canonical_eq (h _ List.mem_cons_self).2.1
    have hrest := rest.canonical_eq fun f hf => h f (List.mem_cons_of_mem _ hf)
    rw [canonicalFields, canonicalFields, htype, hrest]

end

/-- A permutation of images is the image of a permutation. -/
theorem exists_perm_of_map_perm {α β : Type} {f : α → β} {l : List α} {images targets : List β}
    (h : images.Perm targets) (himages : l.map f = images) :
    ∃ arranged : List α, arranged.Perm l ∧ arranged.map f = targets := by
  -- The list is generalized because a permutation in two steps has another list between them.
  induction h generalizing l with
  | nil => exact ⟨l, .refl l, himages⟩
  | cons b _ ih =>
    obtain ⟨a, rest, rfl, rfl, hrest⟩ := List.map_eq_cons_iff.mp himages
    obtain ⟨arranged, hperm, htargets⟩ := ih hrest
    exact ⟨a :: arranged, hperm.cons a, by rw [List.map_cons, htargets]⟩
  | swap b c _ =>
    obtain ⟨a, rest, rfl, rfl, hrest⟩ := List.map_eq_cons_iff.mp himages
    obtain ⟨a', rest, rfl, rfl, rfl⟩ := List.map_eq_cons_iff.mp hrest
    exact ⟨a' :: a :: rest, .swap a a' rest, rfl⟩
  | trans _ _ ih₁ ih₂ =>
    obtain ⟨between, hperm₁, hbetween⟩ := ih₁ himages
    obtain ⟨arranged, hperm₂, htargets⟩ := ih₂ hbetween
    exact ⟨arranged, hperm₂.trans hperm₁, htargets⟩

/-- Fields that have the same canonical ones, one by one, are similar, if their types are. -/
theorem fieldsSimilar_of_map_canonical_eq : ∀ {fields others : List Field},
    (∀ f ∈ fields, ∀ u : FieldType, f.type.canonical = u.canonical → f.type.Similar u) →
      fields.map Field.canonical = others.map Field.canonical → FieldsSimilar fields others
  | [], [], _, _ => .nil
  | [], _ :: _, _, h => by cases h
  | _ :: _, [], _, h => by cases h
  | ⟨name, t, d⟩ :: fields, ⟨name', u, e⟩ :: others, htypes, h => by
    obtain ⟨hfirst, hrest⟩ := List.cons.inj h
    obtain ⟨hname, htype, -⟩ := Field.mk.inj hfirst
    obtain rfl : name = name' := hname
    exact .cons (htypes _ List.mem_cons_self u htype)
      (fieldsSimilar_of_map_canonical_eq (fun f hf => htypes f (List.mem_cons_of_mem _ hf)) hrest)

mutual

theorem FieldType.similar_of_canonical_eq : ∀ t u : FieldType, t.canonical = u.canonical →
    t.Similar u
  | .optional t, u, h => by
    cases u with
    | optional u => exact .optional (t.similar_of_canonical_eq u (FieldType.optional.inj h))
    | _ => cases h
  | .list t, u, h => by
    cases u with
    | list u => exact .list (t.similar_of_canonical_eq u (FieldType.list.inj h))
    | _ => cases h
  | .map t, u, h => by
    cases u with
    | map u => exact .map (t.similar_of_canonical_eq u (FieldType.map.inj h))
    | _ => cases h
  | .record s, u, h => by
    cases u with
    | record s' => exact .record (s.similar_of_canonical_eq s' (FieldType.record.inj h))
    | _ => cases h
  | .enum symbols, u, h => by
    cases u <;> cases h
    exact .refl _
  | .bool, u, h | .int, u, h | .long, u, h | .float, u, h | .double, u, h | .string, u, h
  | .bytes, u, h => by
    cases u <;> cases h
    exact .refl _
termination_by structural t => t

/-- Schemas with one canonical schema are similar, be they valid or not. -/
theorem Schema.similar_of_canonical_eq : ∀ s s' : Schema, s.canonical = s'.canonical →
    s.Similar s'
  | ⟨name, fields⟩, ⟨name', others⟩, h => by
    rw [Schema.canonical, Schema.canonical, canonicalFields_eq_map, canonicalFields_eq_map] at h
    obtain ⟨hname, hsorted⟩ := Schema.mk.inj h
    subst hname
    -- Both lists are arrangements of the one sorted list.
    have hperm : (fields.map Field.canonical).Perm (others.map Field.canonical) := by
      refine (sortFields_perm _).symm.trans ?_
      rw [hsorted]
      exact sortFields_perm _
    obtain ⟨arranged, harranged, hmap⟩ := exists_perm_of_map_perm hperm rfl
    exact .mk harranged (fieldsSimilar_of_map_canonical_eq
      (fun f hf => similar_of_mem fields f (harranged.mem_iff.mp hf)) hmap)
termination_by structural s => s

theorem similar_of_mem : ∀ fields : List Field, ∀ f ∈ fields, ∀ u : FieldType,
    f.type.canonical = u.canonical → f.type.Similar u
  | [], _, hf, _, _ => absurd hf List.not_mem_nil
  | ⟨_, t, _⟩ :: rest, f, hf, u, h => by
    rcases List.mem_cons.mp hf with rfl | hf
    · exact t.similar_of_canonical_eq u h
    · exact similar_of_mem rest f hf u h
termination_by structural fields => fields

end

/-! ## Comparison of canonical schemas -/

mutual

/-- What applications take for the same type has the same canonical type. -/
theorem FieldType.canonical_eq_of_same : ∀ t u : FieldType, t.same u = true →
    t.canonical = u.canonical
  | .enum a, u, h => by
    cases u with
    | enum b => rw [eq_of_beq h]
    | _ => cases h
  | .optional t, u, h => by
    cases u with
    | optional u => rw [FieldType.canonical, FieldType.canonical, t.canonical_eq_of_same u h]
    | _ => cases h
  | .list t, u, h => by
    cases u with
    | list u => rw [FieldType.canonical, FieldType.canonical, t.canonical_eq_of_same u h]
    | _ => cases h
  | .map t, u, h => by
    cases u with
    | map u => rw [FieldType.canonical, FieldType.canonical, t.canonical_eq_of_same u h]
    | _ => cases h
  | .record s, u, h => by
    cases u with
    | record s' => rw [FieldType.canonical, FieldType.canonical, s.canonical_eq_of_same s' h]
    | _ => cases h
  | .bool, u, h | .int, u, h | .long, u, h | .float, u, h | .double, u, h | .string, u, h
  | .bytes, u, h => by
    cases u <;> first | rfl | cases h
termination_by structural t => t

theorem Schema.canonical_eq_of_same : ∀ s s' : Schema, s.same s' = true →
    s.canonical = s'.canonical
  | ⟨name, fields⟩, ⟨name', others⟩, h => by
    rw [Schema.same, Bool.and_eq_true, beq_iff_eq] at h
    rw [Schema.canonical, Schema.canonical, h.1, canonicalFields_eq_of_same fields others h.2]
termination_by structural s => s

theorem canonicalFields_eq_of_same : ∀ fields others : List Field, sameFields fields others = true →
    canonicalFields fields = canonicalFields others
  | [], [], _ => rfl
  | [], ⟨_, _, _⟩ :: _, h => by cases h
  | ⟨_, _, _⟩ :: _, [], h => by cases h
  | ⟨name, t, d⟩ :: rest, ⟨name', u, e⟩ :: rest', h => by
    simp only [sameFields, Bool.and_eq_true, beq_iff_eq] at h
    obtain ⟨⟨⟨hname, htype⟩, -⟩, hrest⟩ := h
    rw [canonicalFields, canonicalFields, hname, t.canonical_eq_of_same u htype,
      canonicalFields_eq_of_same rest rest' hrest]
termination_by structural fields => fields

end

/-- Fields without defaults are the same as themselves, if their types are. -/
theorem sameFields_self : ∀ {fields : List Field},
    (∀ f ∈ fields, f.default = none ∧ f.type.same f.type = true) →
      sameFields fields fields = true
  | [], _ => rfl
  | ⟨name, type, dflt⟩ :: rest, h => by
    obtain ⟨hdefault, htype⟩ := h _ List.mem_cons_self
    obtain rfl : dflt = none := hdefault
    rw [sameFields, htype, sameFields_self fun f hf => h f (List.mem_cons_of_mem _ hf)]
    simp [Field.sameDefault]

mutual

/-- A canonical type is the same as itself: the only values that differ from themselves are numbers
in defaults, and it has none. -/
theorem FieldType.same_canonical_self : ∀ t : FieldType, t.canonical.same t.canonical = true
  | .bool | .int | .long | .float | .double | .string | .bytes => rfl
  | .enum symbols => beq_self_eq_true symbols
  | .optional inner => inner.same_canonical_self
  | .list item => item.same_canonical_self
  | .map item => item.same_canonical_self
  | .record s => s.same_canonical_self

theorem Schema.same_canonical_self : ∀ s : Schema, s.canonical.same s.canonical = true
  | ⟨name, fields⟩ => by
    rw [Schema.canonical, Schema.same, Bool.and_eq_true, beq_iff_eq, canonicalFields_eq_map]
    refine ⟨rfl, sameFields_self fun f hf => ?_⟩
    obtain ⟨g, hg, rfl⟩ := List.mem_map.mp ((sortFields_perm _).mem_iff.mp hf)
    exact ⟨rfl, same_canonical_of_mem fields g hg⟩

theorem same_canonical_of_mem : ∀ fields : List Field, ∀ f ∈ fields,
    f.type.canonical.same f.type.canonical = true
  | [], _, hf => absurd hf List.not_mem_nil
  | ⟨_, type, _⟩ :: rest, f, hf => by
    rcases List.mem_cons.mp hf with rfl | hf
    · exact type.same_canonical_self
    · exact same_canonical_of_mem rest f hf

end

/-- Applications take canonical schemas for the same exactly when they are equal. -/
theorem Schema.same_canonical_iff (a b : Schema) :
    a.canonical.same b.canonical = true ↔ a.canonical = b.canonical := by
  constructor
  · intro h
    have hcanonical := Schema.canonical_eq_of_same _ _ h
    rwa [a.canonical_canonical, b.canonical_canonical] at hcanonical
  · intro h
    rw [h]
    exact b.same_canonical_self

/-! ## Three notions of sameness -/

/-- **What the canonical text says.** A valid schema has the canonical text of another schema
exactly when the two differ in nothing but the order of fields and defaults, exactly when their
canonical schemas are equal, and exactly when applications take these for the same. -/
theorem Schema.canonicalText_eq_iff {a b : Schema} (h : a.check = .ok ()) :
    (a.canonicalText = b.canonicalText ↔ a.Similar b) ∧
      (a.canonicalText = b.canonicalText ↔ a.canonical = b.canonical) ∧
      (a.canonicalText = b.canonicalText ↔ a.canonical.same b.canonical = true) := by
  have htext := Schema.canonicalText_eq_iff_canonical_eq a b
  refine ⟨?_, htext, ?_⟩
  · rw [htext]
    constructor
    · exact a.similar_of_canonical_eq b
    · exact fun hsimilar => hsimilar.canonical_eq (a.check_eq_ok_iff.mp h)
  · rw [htext, Schema.same_canonical_iff]

/-- Rows under a quoted name, with defaults. -/
def rows : Schema :=
  ⟨"Table",
    [⟨"\"rows\"", .list (.record ⟨"Row",
        [⟨"y", .int, some (.int 1)⟩, ⟨"x", .enum ["on", "off"], none⟩]⟩), none⟩,
      ⟨"count", .int, some (.int 3)⟩]⟩

/-- The same rows, with all fields in another order and with other defaults. -/
def rearrangedRows : Schema :=
  ⟨"Table",
    [⟨"count", .int, none⟩,
      ⟨"\"rows\"", .list (.record ⟨"Row",
        [⟨"x", .enum ["on", "off"], some (.symbol "off")⟩, ⟨"y", .int, none⟩]⟩), none⟩]⟩

/-- The same rows, with the symbols in another order. -/
def switchedRows : Schema :=
  ⟨"Table",
    [⟨"\"rows\"", .list (.record ⟨"Row",
        [⟨"y", .int, some (.int 1)⟩, ⟨"x", .enum ["off", "on"], none⟩]⟩), none⟩,
      ⟨"count", .int, some (.int 3)⟩]⟩

theorem canonicalText_rows :
    rows.canonicalText = rearrangedRows.canonicalText ∧
      rows.canonicalText ≠ switchedRows.canonicalText := by
  have hcheck : rows.check = .ok () := rfl
  have hsimilar : rows.Similar rearrangedRows :=
    .mk (.swap _ _ _) (.cons (.refl _) (.cons (.list (.record (.mk (.swap _ _ _)
      (.cons (.refl _) (.cons (.refl _) .nil))))) .nil))
  have hother : rows.canonical ≠ switchedRows.canonical := by
    simp [rows, switchedRows, Schema.canonical, canonicalFields, FieldType.canonical, sortFields,
      List.mergeSort, List.MergeSort.Internal.splitInTwo]
  constructor
  · exact (Schema.canonicalText_eq_iff hcheck).1.mpr hsimilar
  · intro htext
    exact hother ((Schema.canonicalText_eq_iff hcheck).2.1.mp htext)

end RecordExchange
