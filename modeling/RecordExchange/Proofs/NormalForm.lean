import RecordExchange.Proofs.CanonicalOrder
import RecordExchange.Proofs.Resolution

/-!
# Normal forms

A record may leave fields out and may have fields that its schema does not know, in any order. Its
normal form under the schema has neither: exactly the declared fields, in declared order, the ones
left out with their defaults, and so on in the records within it.

- `FieldType.normalize`, `Schema.normalForm`: the normal form.
- `Schema.map_fst_normalForm`: its fields are the declared ones.
- `Schema.resolve_self`: what a schema makes of a record that was written with it.
-/

namespace RecordExchange

mutual

/-- A value with the records within it in normal form. -/
def FieldType.normalize : FieldType → Value → Value
  | .optional inner, v => if v.isNull then .null else inner.normalize v
  | .list item, .list vs => .list (vs.map fun v => item.normalize v)
  | .map item, .map es => .map (es.map fun e => (e.1, item.normalize e.2))
  | .record s, .record r => .record (s.normalForm r)
  | _, v => v

/-- The normal form of a record: the fields of the schema in declared order, with the values that
the record has for them or else their defaults. -/
def Schema.normalForm : Schema → Record → Record
  | ⟨name, fields⟩, r => ⟨name, normalFields fields r⟩

/-- The fields of a normal form. -/
def normalFields : List Field → Record → List (String × Value)
  | [], _ => []
  | ⟨name, type, dflt⟩ :: rest, r =>
    match r.valueOf ⟨name, type, dflt⟩ with
    | some v => (name, type.normalize v) :: normalFields rest r
    | none => normalFields rest r

end

/-! ## The fields of a normal form -/

theorem normalFields_cons {f : Field} {rest : List Field} {r : Record} {v : Value}
    (h : r.valueOf f = some v) :
    normalFields (f :: rest) r = (f.name, f.type.normalize v) :: normalFields rest r := by
  obtain ⟨name, type, dflt⟩ := f
  rw [normalFields, h]

/-- A record that can be written has a value for every field. -/
theorem map_fst_normalFields {typeName : String} {r : Record} : ∀ {fields : List Field}
    {bytes : List UInt8}, encodeFields typeName fields r = .ok bytes →
      (normalFields fields r).map Prod.fst = fields.map Field.name
  | [], _, _ => rfl
  | _ :: rest, _, h => by
    obtain ⟨v, first, others, hv, -, hothers, -⟩ := encodeFields_cons_eq_ok_iff.mp h
    rw [normalFields_cons hv, List.map_cons, List.map_cons, map_fst_normalFields hothers]

/-- The normal form of a record that can be written has the declared fields in declared order. -/
theorem Schema.map_fst_normalForm {s : Schema} {r : Record} {bytes : List UInt8}
    (h : s.encode r = .ok bytes) :
    (s.normalForm r).typeName = s.name ∧
      (s.normalForm r).fields.map Prod.fst = s.fieldNames := by
  obtain ⟨-, others, hothers, -⟩ := Schema.encode_eq_ok_iff.mp h
  obtain ⟨name, fields⟩ := s
  exact ⟨rfl, map_fst_normalFields hothers⟩

/-! ## Resolution within one schema -/

/-- An entry under a name that stands once is found by that name. -/
theorem lookup_of_mem {α : Type} {entries : List (String × α)}
    (distinct : (entries.map Prod.fst).Nodup) {e : String × α} (he : e ∈ entries) :
    entries.lookup e.1 = some e.2 := by
  induction entries with
  | nil => exact absurd he List.not_mem_nil
  | cons head rest ih =>
    obtain ⟨fresh, distinct⟩ := List.nodup_cons.mp distinct
    rw [List.lookup_cons]
    rcases List.mem_cons.mp he with rfl | he
    · rw [beq_self_eq_true]
    · have other : e.1 ≠ head.1 := fun same => fresh (same ▸ List.mem_map_of_mem he)
      rw [beq_eq_false_iff_ne.mpr other]
      exact ih distinct he

/-- Nothing has to be completed when every field has been converted. -/
theorem mapM_complete {typeName : String} {converted : List (String × Value)} :
    ∀ {fields : List Field} {entries : List (String × Value)},
      entries.map Prod.fst = fields.map Field.name →
      (∀ e ∈ entries, converted.lookup e.1 = some e.2) →
        fields.mapM (Field.complete typeName converted) = .ok entries
  | [], [], _, _ => rfl
  | [], _ :: _, h, _ => by cases h
  | _ :: _, [], h, _ => by cases h
  | f :: rest, e :: entries, h, hlookup => by
    obtain ⟨hname, hrest⟩ := List.cons.inj h
    have hfirst : Field.complete typeName converted f = .ok e := by
      have hfound : converted.lookup f.name = some e.2 := hname ▸ hlookup e List.mem_cons_self
      rw [Field.complete, hfound, Option.some_or, ← hname]
    exact mapM_cons_eq_ok_iff.mpr ⟨e, entries, hfirst,
      mapM_complete hrest fun e' he' => hlookup e' (List.mem_cons_of_mem e he'), rfl⟩

/-- A loop each of whose steps succeeds gives what the steps give. -/
theorem mapM_eq_ok_map {α β ε : Type} {g : α → Except ε β} {f : α → β} : ∀ {l : List α},
    (∀ a ∈ l, g a = .ok (f a)) → l.mapM g = .ok (l.map f)
  | [], _ => rfl
  | a :: _, h => mapM_cons_eq_ok_iff.mpr ⟨f a, _, h a List.mem_cons_self,
      mapM_eq_ok_map fun b hb => h b (List.mem_cons_of_mem a hb), rfl⟩

/-- A field is found by its name among the converters of its schema. -/
theorem lookup_fieldConverters_of_mem {typeName : String} {fields : List Field}
    (distinct : (fields.map Field.name).Nodup) {f : Field} (hf : f ∈ fields) :
    (fieldConverters typeName fields).lookup f.name
      = some (f.type.convert typeName f.name) := by
  rw [fieldConverters_eq_map]
  refine lookup_of_mem (e := (f.name, f.type.convert typeName f.name)) ?_ ?_
  · rw [List.map_map]
    exact distinct
  · exact List.mem_map_of_mem hf

/-- Conversion of the fields that are written with the very types they are read with. -/
theorem convertFields_self {typeName tn : String} {wanted : FieldConverters} {r : Record} :
    ∀ {rest : List Field} {bytes : List UInt8}, encodeFields tn rest r = .ok bytes →
      (∀ f ∈ rest, wanted.lookup f.name = some (f.type.convert typeName f.name)) →
      (∀ f ∈ rest, ∀ v part, f.type.encode tn f.name v = .ok part →
        f.type.convert typeName f.name f.type v = .ok (f.type.normalize v)) →
      convertFields wanted r rest = .ok (normalFields rest r)
  | [], _, _, _, _ => rfl
  | f :: rest, _, h, hlookup, hconvert => by
    obtain ⟨v, first, others, hv, hfirst, hothers, -⟩ := encodeFields_cons_eq_ok_iff.mp h
    have hrest := convertFields_self hothers
      (fun g hg => hlookup g (List.mem_cons_of_mem f hg))
      fun g hg => hconvert g (List.mem_cons_of_mem f hg)
    rw [convertFields_cons_of_some (hlookup f List.mem_cons_self) hv, normalFields_cons hv,
      hconvert f List.mem_cons_self v first hfirst, hrest]
    rfl

mutual

/-- A value that can be written becomes its normal form when its type is the one wanted. -/
theorem FieldType.convert_self (typeName field : String) : ∀ t : FieldType, t.WellFormed →
    ∀ tn fd v bytes, t.encode tn fd v = .ok bytes →
      t.convert typeName field t v = .ok (t.normalize v)
  | .optional inner, h, tn, fd, v, bytes, hb => by
    rw [FieldType.encode] at hb
    rw [FieldType.convert, FieldType.normalize]
    split at hb
    next hnull => rw [if_pos hnull, if_pos hnull]
    next hnull =>
      obtain ⟨others, hothers, -⟩ := except_map_eq_ok_iff.mp hb
      rw [if_neg hnull, if_neg hnull]
      exact inner.convert_self typeName field h tn fd v others hothers
  | .list item, h, tn, fd, v, bytes, hb => by
    cases v with
    | list vs =>
      obtain ⟨parts, hparts, -⟩ := except_bind_eq_ok.mp hb
      -- The list as a whole was written, so that each of its items can be.
      have hitems := exists_mapM_eq_ok_iff.mp ⟨parts, hparts⟩
      have hloop : (vs.mapM fun v => item.convert typeName field item v)
          = .ok (vs.map fun v => item.normalize v) := mapM_eq_ok_map fun v hv => by
        obtain ⟨part, hpart⟩ := hitems v hv
        exact item.convert_self typeName field h tn fd v part hpart
      rw [FieldType.convert, FieldType.normalize, hloop]
      rfl
    | _ => cases hb
  | .map item, h, tn, fd, v, bytes, hb => by
    cases v with
    | map es =>
      obtain ⟨parts, hparts, -⟩ := except_bind_eq_ok.mp hb
      have hentries := exists_mapM_eq_ok_iff.mp ⟨parts, hparts⟩
      -- Keys stay as they are; only the values of the entries are converted.
      have hloop : (es.mapM fun e => (fun u => (e.1, u)) <$>
          item.convert typeName field item e.2) = .ok (es.map fun e => (e.1, item.normalize e.2)) :=
        mapM_eq_ok_map fun e he => by
          obtain ⟨part, hpart⟩ := hentries e he
          obtain ⟨first, hfirst, -⟩ := except_map_eq_ok_iff.mp hpart
          rw [item.convert_self typeName field h tn fd e.2 first hfirst]
          rfl
      rw [FieldType.convert, FieldType.normalize, hloop]
      rfl
    | _ => cases hb
  | .record s, h, tn, fd, v, bytes, hb => by
    cases v with
    | record r =>
      rw [FieldType.convert, FieldType.normalize, s.resolve_self h r bytes hb]
      rfl
    | _ => cases hb
  | .enum symbols, _, tn, fd, v, bytes, hb => by
    cases v with
    | symbol x =>
      obtain ⟨i, hi, -⟩ := FieldType.encode_symbol_eq_ok_iff.mp hb
      -- A symbol that is written has an index, and so is one of those that are wanted.
      have hmem : symbols.contains x = true :=
        List.contains_iff_mem.mpr (List.isSome_idxOf?.mp (by rw [hi]; rfl))
      rw [FieldType.convert, if_pos hmem]
      rfl
    | _ => cases hb
  | .bool, _, _, _, v, _, hb | .int, _, _, _, v, _, hb | .long, _, _, _, v, _, hb
  | .float, _, _, _, v, _, hb | .double, _, _, _, v, _, hb | .string, _, _, _, v, _, hb
  | .bytes, _, _, _, v, _, hb => by
    cases v <;> rfl
termination_by structural t => t

/-- **Resolution within one schema.** What a schema makes of a record that can be written with it
is the normal form of the record. -/
theorem Schema.resolve_self : ∀ s : Schema, s.WellFormed → ∀ r bytes, s.encode r = .ok bytes →
    s.resolve s r = .ok (s.normalForm r)
  | ⟨name, fields⟩, h, r, bytes, hb => by
    obtain ⟨-, others, hothers, -⟩ := Schema.encode_eq_ok_iff.mp hb
    have distinct : (fields.map Field.name).Nodup := h.2.1
    have hnames := map_fst_normalFields hothers
    have hconvert := convertFields_self hothers
      (fun f hf => lookup_fieldConverters_of_mem distinct hf)
      fun f hf v part hpart => convert_of_mem name fields h.2.2 f hf name f.name v part hpart
    -- Every field was written, so there is no default left to fill in.
    have hcomplete := @mapM_complete name (normalFields fields r) fields (normalFields fields r)
      hnames fun e he => lookup_of_mem (by rw [hnames]; exact distinct) he
    rw [Schema.resolve_eq, if_neg fun hne => hne rfl, hconvert]
    show (fields.mapM (Field.complete name (normalFields fields r)) >>= _) = _
    rw [hcomplete]
    rfl
termination_by structural s => s

theorem convert_of_mem (typeName : String) : ∀ fields : List Field, WellFormedFields fields →
    ∀ f ∈ fields, ∀ tn fd v part, f.type.encode tn fd v = .ok part →
      f.type.convert typeName f.name f.type v = .ok (f.type.normalize v)
  | [], _, _, hf => absurd hf List.not_mem_nil
  | ⟨name, type, _⟩ :: rest, h, f, hf => by
    rcases List.mem_cons.mp hf with rfl | hf
    · exact type.convert_self typeName name h.1.2.1
    · exact convert_of_mem typeName rest h.2 f hf
termination_by structural fields => fields

end

end RecordExchange
