import RecordExchange.Payload.Encode
import RecordExchange.Proofs.Primitive
import RecordExchange.Proofs.Validity

/-!
# What can be written

A value can be written as a type exactly when it belongs to the type, and then it takes at least
one byte. The second fact is what allows a reader to refuse a count that exceeds the bytes left.

- `FieldType.encode_isOk_iff`, `Schema.encode_isOk_iff`: writing succeeds on the values of the type.
- `FieldType.encode_pos`, `Schema.encode_pos`: what is written is not empty.
-/

namespace RecordExchange

/-! ## Results of loops -/

section Loops

variable {α β ε : Type} {g : α → Except ε β}

/-- A result that was mapped came from a result. -/
theorem except_map_eq_ok_iff {f : α → β} {x : Except ε α} {b : β} :
    x.map f = .ok b ↔ ∃ a, x = .ok a ∧ f a = b := by
  cases x with
  | error e => simp [Except.map]
  | ok a => simp [Except.map]

/-- A computation that succeeds did so in both of its parts. -/
theorem except_bind_eq_ok {x : Except ε α} {k : α → Except ε β} {b : β} :
    (x >>= k) = .ok b ↔ ∃ a, x = .ok a ∧ k a = .ok b := by
  cases x with
  | error e => simp [bind, Except.bind]
  | ok a => simp [bind, Except.bind]

/-- What is only rearranged afterwards succeeds when it succeeds before. -/
theorem exists_map_eq_ok_iff {f : α → β} {x : Except ε α} :
    (∃ b, x.map f = .ok b) ↔ ∃ a, x = .ok a := by
  constructor
  · rintro ⟨b, hb⟩
    obtain ⟨a, ha, -⟩ := except_map_eq_ok_iff.mp hb
    exact ⟨a, ha⟩
  · rintro ⟨a, rfl⟩
    exact ⟨f a, rfl⟩

theorem mapM_cons_eq_ok_iff {a : α} {rest : List α} {bs : List β} :
    (a :: rest).mapM g = .ok bs ↔ ∃ b cs, g a = .ok b ∧ rest.mapM g = .ok cs ∧ bs = b :: cs := by
  rw [List.mapM_cons, except_bind_eq_ok]
  constructor
  · rintro ⟨b, hb, h⟩
    obtain ⟨cs, hcs, h⟩ := except_bind_eq_ok.mp h
    cases h
    exact ⟨b, cs, hb, hcs, rfl⟩
  · rintro ⟨b, cs, hb, hcs, rfl⟩
    exact ⟨b, hb, by rw [hcs]; rfl⟩

/-- A loop succeeds when each of its steps does. -/
theorem exists_mapM_eq_ok_iff {l : List α} :
    (∃ bs, l.mapM g = .ok bs) ↔ ∀ a ∈ l, ∃ b, g a = .ok b := by
  induction l with
  | nil => exact ⟨fun _ _ h => absurd h List.not_mem_nil, fun _ => ⟨[], rfl⟩⟩
  | cons a rest ih =>
    constructor
    · rintro ⟨bs, h⟩
      obtain ⟨b, cs, hb, hcs, -⟩ := mapM_cons_eq_ok_iff.mp h
      intro c hc
      rcases List.mem_cons.mp hc with rfl | hc
      · exact ⟨b, hb⟩
      · exact ih.mp ⟨cs, hcs⟩ c hc
    · intro h
      obtain ⟨b, hb⟩ := h a List.mem_cons_self
      obtain ⟨cs, hcs⟩ := ih.mpr fun c hc => h c (List.mem_cons_of_mem a hc)
      exact ⟨b :: cs, mapM_cons_eq_ok_iff.mpr ⟨b, cs, hb, hcs, rfl⟩⟩

end Loops

/-! ## The values of fields -/

/-- What a record has for a field: its own value, or else what stands for one that was left out. -/
def Record.valueOf (r : Record) (f : Field) : Option Value :=
  (r.get? f.name).or f.defaultValue

theorem encodeFields_cons (typeName : String) (f : Field) (rest : List Field) (r : Record) :
    encodeFields typeName (f :: rest) r
      = (match r.valueOf f with
        | none => .error (.missingField typeName f.name)
        | some v =>
          f.type.encode typeName f.name v >>= fun first =>
            encodeFields typeName rest r >>= fun others => .ok (first ++ others)) := by
  obtain ⟨name, type, dflt⟩ := f
  rfl

/-- Fields are written when each of them has a value that can be written. -/
theorem encodeFields_cons_eq_ok_iff {typeName : String} {f : Field} {rest : List Field}
    {r : Record} {bytes : List UInt8} :
    encodeFields typeName (f :: rest) r = .ok bytes ↔
      ∃ v first others, r.valueOf f = some v ∧ f.type.encode typeName f.name v = .ok first ∧
        encodeFields typeName rest r = .ok others ∧ bytes = first ++ others := by
  rw [encodeFields_cons]
  cases r.valueOf f with
  | none => simp
  | some v =>
    simp only [except_bind_eq_ok]
    constructor
    · rintro ⟨first, hfirst, others, hothers, h⟩
      cases h
      exact ⟨v, first, others, rfl, hfirst, hothers, rfl⟩
    · rintro ⟨v, first, others, hv, hfirst, hothers, rfl⟩
      cases hv
      exact ⟨first, hfirst, others, hothers, rfl⟩

/-- A record is written when it has the name of the schema and its fields can be written. -/
theorem Schema.encode_eq_ok_iff {s : Schema} {r : Record} {bytes : List UInt8} :
    s.encode r = .ok bytes ↔
      r.typeName = s.name ∧ ∃ others, encodeFields s.name s.fields r = .ok others ∧
        bytes = FieldOrder.encode s ++ others := by
  obtain ⟨name, fields⟩ := s
  rw [Schema.encode]
  by_cases hname : r.typeName = name
  · rw [if_pos hname, except_map_eq_ok_iff]
    simp only [hname, true_and, @eq_comm _ bytes]
  · simp [hname]

/-- A symbol is written as its index. -/
theorem FieldType.encode_symbol_eq_ok_iff {typeName field s : String} {symbols : List String}
    {bytes : List UInt8} :
    (FieldType.enum symbols).encode typeName field (.symbol s) = .ok bytes ↔
      ∃ i, symbols.idxOf? s = some i ∧ Wire.encodeLength i = bytes := by
  rw [FieldType.encode]
  cases symbols.idxOf? s with
  | none => simp
  | some i => simp

/-- What stands for a field that was left out belongs to the type of the field. -/
theorem Field.WellFormed.accepts_defaultValue {f : Field} (h : f.WellFormed) {v : Value}
    (hv : f.defaultValue = some v) : f.type.accepts v = true := by
  obtain ⟨name, type, dflt⟩ := f
  cases dflt with
  | some d =>
    cases hv
    exact h.2.2 _ rfl
  | none =>
    cases type with
    | optional inner =>
      cases hv
      rw [FieldType.accepts]
      rfl
    | _ => exact absurd hv (by simp [Field.defaultValue, FieldType.isOptional])

/-! ## Writing succeeds -/

mutual

/-- A value can be written as a type exactly when it belongs to it. -/
theorem FieldType.encode_isOk_iff (typeName field : String) :
    ∀ (t : FieldType) (v : Value), t.WellFormed →
      ((∃ bytes, t.encode typeName field v = .ok bytes) ↔ t.accepts v = true)
  | .bool, v, _ | .int, v, _ | .long, v, _ | .float, v, _ | .double, v, _ | .string, v, _
  | .bytes, v, _ => by cases v <;> simp [FieldType.encode, FieldType.accepts]
  | .enum symbols, v, _ => by
    cases v with
    | symbol s =>
      rw [FieldType.encode, FieldType.accepts, List.contains_iff_mem]
      -- A symbol is written as its index, so there are bytes when there is an index.
      cases hidx : symbols.idxOf? s with
      | none => simpa using List.idxOf?_eq_none_iff.mp hidx
      | some i =>
        have hmem : s ∈ symbols := List.isSome_idxOf?.mp (by rw [hidx]; rfl)
        simp [hmem]
    | _ => simp [FieldType.encode, FieldType.accepts]
  | .optional inner, v, h => by
    rw [FieldType.encode, FieldType.accepts]
    by_cases hnull : v.isNull = true
    · simp [hnull]
    · simp only [hnull, Bool.false_eq_true, if_false, Bool.false_or]
      rw [exists_map_eq_ok_iff]
      exact inner.encode_isOk_iff typeName field v h
  | .list item, v, h => by
    cases v with
    | list vs =>
      have hitem := fun w => item.encode_isOk_iff typeName field w h
      rw [FieldType.accepts, List.all_eq_true]
      -- Turned into a statement of items, acceptance is what writing them one by one needs.
      simp only [← hitem]
      rw [← exists_mapM_eq_ok_iff]
      exact exists_map_eq_ok_iff
    | _ => simp [FieldType.encode, FieldType.accepts]
  | .map item, v, h => by
    cases v with
    | map es =>
      have hentry : ∀ e : String × Value,
          (∃ part, (item.encode typeName field e.2).map (Wire.encodeString e.1 ++ ·) = .ok part) ↔
            item.accepts e.2 = true := by
        intro e
        rw [exists_map_eq_ok_iff]
        exact item.encode_isOk_iff typeName field e.2 h
      rw [FieldType.accepts, List.all_eq_true]
      simp only [← hentry]
      rw [← exists_mapM_eq_ok_iff]
      exact exists_map_eq_ok_iff
    | _ => simp [FieldType.encode, FieldType.accepts]
  | .record s, v, h => by
    cases v with
    | record r =>
      rw [FieldType.encode, FieldType.accepts]
      exact s.encode_isOk_iff r h
    | _ => simp [FieldType.encode, FieldType.accepts]

/-- A record can be written with a schema exactly when it belongs to it. -/
theorem Schema.encode_isOk_iff : ∀ (s : Schema) (r : Record), s.WellFormed →
    ((∃ bytes, s.encode r = .ok bytes) ↔ s.accepts r = true)
  | ⟨name, fields⟩, r, h => by
    rw [Schema.encode, Schema.accepts, Bool.and_eq_true, beq_iff_eq,
      ← encodeFields_isOk_iff name fields r h.2.2]
    by_cases hname : r.typeName = name
    · simp only [hname, if_true, true_and]
      exact exists_map_eq_ok_iff
    · simp [hname]

theorem encodeFields_isOk_iff (typeName : String) : ∀ (fields : List Field) (r : Record),
    WellFormedFields fields →
      ((∃ bytes, encodeFields typeName fields r = .ok bytes) ↔ acceptsFields fields r = true)
  | [], r, _ => by simp [encodeFields, acceptsFields]
  | ⟨name, type, dflt⟩ :: rest, r, h => by
    have ih := encodeFields_isOk_iff typeName rest r h.2
    have htype := fun v => type.encode_isOk_iff typeName name v h.1.2.1
    have hsplit : (∃ bytes, encodeFields typeName (⟨name, type, dflt⟩ :: rest) r = .ok bytes) ↔
        (∃ v, r.valueOf ⟨name, type, dflt⟩ = some v ∧ type.accepts v = true) ∧
          acceptsFields rest r = true := by
      simp only [encodeFields_cons_eq_ok_iff, ← ih, ← htype]
      constructor
      · rintro ⟨_, v, first, others, hv, hfirst, hothers, -⟩
        exact ⟨⟨v, hv, first, hfirst⟩, others, hothers⟩
      · rintro ⟨⟨v, hv, first, hfirst⟩, others, hothers⟩
        exact ⟨_, v, first, others, hv, hfirst, hothers, rfl⟩
    rw [hsplit, acceptsFields, Bool.and_eq_true]
    refine and_congr_left fun _ => ?_
    cases hget : r.get? name with
    | some v => simp [Record.valueOf, hget]
    | none =>
      -- The value left out is replaced by the default, which the schema's check has admitted.
      have hdefault := Field.defaultValue_eq_none_iff ⟨name, type, dflt⟩
      simp only [Record.valueOf, hget, Option.none_or, Bool.not_eq_true', ← Bool.not_eq_true,
        ← hdefault]
      constructor
      · rintro ⟨v, hv, -⟩ hnone
        rw [hnone] at hv
        cases hv
      · intro hsome
        obtain ⟨v, hv⟩ := Option.ne_none_iff_exists'.mp hsome
        have hfield : Field.WellFormed ⟨name, type, dflt⟩ := h.1
        exact ⟨v, hv, hfield.accepts_defaultValue hv⟩

end

/-! ## No value is written as nothing -/

/-- The order of the fields of a record takes a byte at least. -/
theorem FieldOrder.encode_pos (s : Schema) : 0 < (FieldOrder.encode s).length := by
  unfold FieldOrder.encode
  split <;> simp

theorem Schema.encode_pos {s : Schema} {r : Record} {bytes : List UInt8}
    (h : s.encode r = .ok bytes) : 0 < bytes.length := by
  obtain ⟨-, others, -, rfl⟩ := Schema.encode_eq_ok_iff.mp h
  have := FieldOrder.encode_pos s
  rw [List.length_append]
  omega

/-- The entry of a map takes a byte at least, which is that of its key. -/
theorem encodeEntry_pos {key : String} {x : Except ExchangeError (List UInt8)}
    {bytes : List UInt8} (h : x.map (Wire.encodeString key ++ ·) = .ok bytes) :
    0 < bytes.length := by
  obtain ⟨others, -, rfl⟩ := except_map_eq_ok_iff.mp h
  rw [Wire.encodeString, Wire.encodeBytes, Wire.encodeLength, List.append_assoc]
  exact Wire.encodeNat_append_pos _ _

/-- Every value takes a byte at least. -/
theorem FieldType.encode_pos {typeName field : String} {t : FieldType} {v : Value}
    {bytes : List UInt8} (h : t.encode typeName field v = .ok bytes) : 0 < bytes.length := by
  -- What comes first takes a byte: a branch, an index, a count, a length or an order.
  cases t with
  | optional inner =>
    rw [FieldType.encode] at h
    split at h
    · cases h
      exact Nat.one_pos
    · obtain ⟨others, -, rfl⟩ := except_map_eq_ok_iff.mp h
      exact Nat.succ_pos _
  | enum symbols =>
    cases v with
    | symbol s =>
      rw [FieldType.encode] at h
      split at h <;> cases h
      exact Wire.encodeNat_pos _
    | _ => cases h
  | list item =>
    cases v with
    | list vs =>
      obtain ⟨parts, -, hb⟩ := except_bind_eq_ok.mp h
      cases hb
      exact Wire.encodeNat_append_pos _ _
    | _ => cases h
  | map item =>
    cases v with
    | map es =>
      obtain ⟨parts, -, hb⟩ := except_bind_eq_ok.mp h
      cases hb
      exact Wire.encodeNat_append_pos _ _
    | _ => cases h
  | record s =>
    cases v with
    | record r => exact s.encode_pos h
    | _ => cases h
  | string | bytes =>
    cases v <;> cases h
    exact Wire.encodeNat_append_pos _ _
  | int | long =>
    cases v <;> cases h
    exact Wire.encodeNat_pos _
  | bool | float | double =>
    cases v <;> cases h
    exact Nat.succ_pos _

end RecordExchange
