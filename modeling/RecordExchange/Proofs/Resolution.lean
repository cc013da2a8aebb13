import RecordExchange.Proofs.Acceptance

/-!
# Resolution

What a reader with its own schema is to make of a record that was written with another one is a
matter of the two schemas and the record alone. This module says so without any bytes.

- `FieldType.promote`: the scalars that one type takes from another.
- `FieldType.convert`, `Schema.resolve`: a value or record of one type as one of another.
- `Schema.resolve_eq`: resolution in its steps.
-/

namespace RecordExchange

/-! ## The rule -/

/-- A scalar as one of the wanted type. Equal types leave it as it is, and a number is widened to a
type that holds larger or finer ones. -/
def FieldType.promote : (wanted written : FieldType) → Value → Option Value
  | .bool, .bool, v | .int, .int, v | .long, .long, v | .float, .float, v | .double, .double, v
  | .string, .string, v | .bytes, .bytes, v => some v
  | .long, .int, .int n => some (.long n.toInt64)
  | .float, .int, .int n => some (.float (Binary.singleOfInt n.toInt))
  | .double, .int, .int n => some (.double (Binary.doubleOfInt n.toInt))
  | .float, .long, .long n => some (.float (Binary.singleOfInt n.toInt))
  | .double, .long, .long n => some (.double (Binary.doubleOfInt n.toInt))
  | .double, .float, .float word => some (.double (Binary.widen word))
  | _, _, _ => none

/-- For each wanted field, how to convert a value of any type. -/
abbrev FieldConverters := List (String × (FieldType → Value → Except ExchangeError Value))

/-- Converts the values of those of the writer's fields that are wanted, in the writer's order. -/
def convertFields (wanted : FieldConverters) (r : Record) :
    List Field → Except ExchangeError (List (String × Value))
  | [] => .ok []
  | w :: rest =>
    match wanted.lookup w.name, r.valueOf w with
    | none, _ => convertFields wanted r rest
    | some _, none => .error (.missingField r.typeName w.name)
    | some convert, some v => do
      let u ← convert w.type v
      let others ← convertFields wanted r rest
      .ok ((w.name, u) :: others)

/-- The value of a wanted field: what the writer has for it, or else its default. -/
def Field.complete (typeName : String) (converted : List (String × Value)) (f : Field) :
    Except ExchangeError (String × Value) :=
  match (converted.lookup f.name).or f.defaultValue with
  | some v => .ok (f.name, v)
  | none => .error (.missingField typeName f.name)

mutual

/-- A value of one type as a value of another: `null` stays between optional types, any other value
becomes an optional one, symbols must be among the wanted ones, lists and maps are converted element
by element, records are resolved, and scalars are promoted. -/
def FieldType.convert (typeName field : String) :
    (wanted written : FieldType) → Value → Except ExchangeError Value
  | .optional inner, .optional w, v =>
    if v.isNull then .ok .null else inner.convert typeName field w v
  | .optional inner, w, v => inner.convert typeName field w v
  | .enum wanted, .enum _, .symbol s =>
    if wanted.contains s then .ok (.symbol s)
    else .error (.mismatch (.unknownSymbol typeName field s))
  | .list item, .list w, .list vs =>
    .list <$> vs.mapM fun v => item.convert typeName field w v
  | .map item, .map w, .map es =>
    .map <$> es.mapM fun e => (fun u => (e.1, u)) <$> item.convert typeName field w e.2
  | .record reader, .record writer, .record r => .record <$> reader.resolve writer r
  | wanted, written, v =>
    match wanted.promote written v with
    | some u => .ok u
    | none => .error (.mismatch (.fieldType typeName field written.kind wanted.kind))

/-- A record of one schema as a record of another of the same name. It has the fields of the reader
in their declared order: converted from those of the writer of the same name, or else by default.
Fields that only the writer has are left out. -/
def Schema.resolve : (reader writer : Schema) → Record → Except ExchangeError Record
  | ⟨name, fields⟩, writer, r =>
    if writer.name ≠ name then .error (.mismatch (.writerName writer.name name))
    else do
      let converted ← convertFields (fieldConverters name fields) r writer.fields
      let completed ← fields.mapM (Field.complete name converted)
      .ok ⟨name, completed⟩

/-- For each wanted field, by its name, how to convert a value of any type. -/
def fieldConverters (typeName : String) : List Field → FieldConverters
  | [] => []
  | ⟨name, type, _⟩ :: rest => (name, type.convert typeName name) :: fieldConverters typeName rest

end

/-! ## Steps of a resolution -/

theorem fieldConverters_eq_map (typeName : String) (fields : List Field) :
    fieldConverters typeName fields
      = fields.map fun f => (f.name, f.type.convert typeName f.name) := by
  induction fields with
  | nil => rfl
  | cons f rest ih =>
    obtain ⟨name, type, dflt⟩ := f
    simp only [fieldConverters, ih, List.map_cons]

theorem lookup_map_name {α : Type} (g : Field → α) (n : String) (fields : List Field) :
    (fields.map fun f => (f.name, g f)).lookup n = (fields.find? (·.name == n)).map g := by
  induction fields with
  | nil => rfl
  | cons f rest ih =>
    rw [List.map_cons, List.lookup_cons, List.find?_cons, BEq.comm]
    split <;> simp_all

theorem lookup_fieldConverters (typeName n : String) (fields : List Field) :
    (fieldConverters typeName fields).lookup n
      = (fields.find? (·.name == n)).map fun f => f.type.convert typeName f.name := by
  rw [fieldConverters_eq_map, lookup_map_name]

theorem convertFields_cons_of_none {wanted : FieldConverters} {r : Record} {w : Field}
    {rest : List Field} (h : wanted.lookup w.name = none) :
    convertFields wanted r (w :: rest) = convertFields wanted r rest := by
  rw [convertFields, h]

theorem convertFields_cons_of_some {wanted : FieldConverters} {r : Record} {w : Field}
    {rest : List Field} {convert : FieldType → Value → Except ExchangeError Value} {v : Value}
    (h : wanted.lookup w.name = some convert) (hv : r.valueOf w = some v) :
    convertFields wanted r (w :: rest)
      = (convert w.type v >>= fun u => convertFields wanted r rest >>= fun others =>
          .ok ((w.name, u) :: others)) := by
  rw [convertFields, h, hv]

/-- Only fields of the writer are converted. -/
theorem name_mem_of_convertFields {wanted : FieldConverters} {r : Record} : ∀ {rest : List Field}
    {converted : List (String × Value)}, convertFields wanted r rest = .ok converted →
      ∀ n ∈ converted.map Prod.fst, n ∈ rest.map Field.name
  | [], _, h, n, hn => by
    cases h
    exact hn
  | w :: rest, converted, h, n, hn => by
    rw [List.map_cons, List.mem_cons]
    rw [convertFields] at h
    split at h
    · exact .inr (name_mem_of_convertFields h n hn)
    · cases h
    · obtain ⟨u, -, h⟩ := except_bind_eq_ok.mp h
      obtain ⟨others, hothers, h⟩ := except_bind_eq_ok.mp h
      cases h
      exact (List.mem_cons.mp hn).imp_right (name_mem_of_convertFields hothers n)

/-- A value that is converted is found by its name, and by no other one, whether it stands in front
of the later ones or was found before them. -/
theorem map_lookup_cons {n : String} (u : Value) {converted : List (String × Value)}
    (found : String → Option Value) (fresh : n ∉ converted.map Prod.fst) (fields : List Field) :
    (fields.map fun f => (((n, u) :: converted).lookup f.name).or (found f.name))
      = fields.map fun f =>
        (converted.lookup f.name).or (if f.name = n then some u else found f.name) := by
  refine List.map_congr_left fun f _ => ?_
  rw [List.lookup_cons]
  by_cases same : f.name = n
  · have hnone : converted.lookup f.name = none := by
      rw [List.lookup_eq_none_iff]
      intro e he
      rw [same, bne_iff_ne]
      exact fun h => fresh (h ▸ List.mem_map_of_mem he)
    rw [if_pos same, hnone, Option.none_or, beq_iff_eq.mpr same]
    rfl
  · rw [if_neg same, beq_eq_false_iff_ne.mpr same]

/-- The slots are the same, whether a value stands in front of those that are converted later or was
put into the slot of its name before them. -/
theorem convertFields_bind_slots (wanted : FieldConverters) (r : Record) {rest : List Field}
    {n : String} (fresh : n ∉ rest.map Field.name) (u : Value) (found : String → Option Value)
    (fields : List Field) :
    (convertFields wanted r rest >>= fun others =>
        .ok (fields.map fun f => (((n, u) :: others).lookup f.name).or (found f.name)))
      = (convertFields wanted r rest >>= fun others =>
        .ok (fields.map fun f =>
          (others.lookup f.name).or (if f.name = n then some u else found f.name))) := by
  cases hothers : convertFields wanted r rest with
  | error e => rfl
  | ok others =>
    have hnew : n ∉ others.map Prod.fst := fun h =>
      fresh (name_mem_of_convertFields hothers n h)
    exact congrArg Except.ok (map_lookup_cons u found hnew fields)

/-- A loop over fields that are completed keeps their names. -/
theorem map_fst_of_complete {typeName : String} {converted : List (String × Value)} :
    ∀ {fields : List Field} {completed : List (String × Value)},
      fields.mapM (Field.complete typeName converted) = .ok completed →
        completed.map Prod.fst = fields.map Field.name
  | [], _, h => by
    cases h
    rfl
  | f :: rest, completed, h => by
    obtain ⟨e, others, he, hothers, rfl⟩ := mapM_cons_eq_ok_iff.mp h
    have hname : e.1 = f.name := by
      unfold Field.complete at he
      split at he <;> cases he
      rfl
    rw [List.map_cons, List.map_cons, hname, map_fst_of_complete hothers]

theorem Schema.resolve_eq (reader writer : Schema) (r : Record) :
    reader.resolve writer r
      = if writer.name ≠ reader.name then
          .error (.mismatch (.writerName writer.name reader.name))
        else
          convertFields (fieldConverters reader.name reader.fields) r writer.fields >>=
          fun converted => reader.fields.mapM (Field.complete reader.name converted) >>=
          fun completed => .ok ⟨reader.name, completed⟩ := by
  obtain ⟨name, fields⟩ := reader
  rw [Schema.resolve]

end RecordExchange
