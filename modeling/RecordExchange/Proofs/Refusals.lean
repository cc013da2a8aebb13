import RecordExchange.Proofs.Readers

/-!
# Why a record is not written

Writing does not check a record before it starts. It follows the schema, fills in what was left out,
and refuses the first thing that does not fit. It refuses exactly the records that do not belong to
the schema, and says of them what does not fit or what is missing. What the schema itself supplies
always fits, because the check of a schema has compared each default with the type of its field.

- `ExchangeError.FromWriting`: the failures of writing.
- `FieldType.fromWriting_encode`, `Schema.fromWriting_encode`: writing has no others.
- `Field.OccursIn`: the fields of a schema, at any depth.
- `Schema.encode_of_accepts`: which records are written, why others are not, and that defaults are.
-/

namespace RecordExchange

/-! ## Failures of loops -/

section Loops

variable {α β ε : Type} {P : ε → Prop}

/-- A computation fails with failures of one kind only. -/
def Except.FailsWith (x : Except ε α) (P : ε → Prop) : Prop := ∀ e, x = .error e → P e

theorem failsWith_ok (a : α) : Except.FailsWith (.ok a : Except ε α) P := by
  intro e he
  cases he

theorem failsWith_error {e : ε} (h : P e) : Except.FailsWith (.error e : Except ε α) P := by
  intro e' he
  cases he
  exact h

theorem Except.FailsWith.map {x : Except ε α} (h : Except.FailsWith x P) (f : α → β) :
    Except.FailsWith (x.map f) P := by
  cases x with
  | ok a => exact failsWith_ok (f a)
  | error e => exact failsWith_error (h e rfl)

theorem Except.FailsWith.bind {x : Except ε α} {k : α → Except ε β} (h : Except.FailsWith x P)
    (hk : ∀ a, Except.FailsWith (k a) P) : Except.FailsWith (x >>= k) P := by
  cases x with
  | ok a => exact hk a
  | error e => exact failsWith_error (h e rfl)

/-- A loop fails as one of its steps does. -/
theorem failsWith_mapM {g : α → Except ε β} (h : ∀ a, Except.FailsWith (g a) P) (l : List α) :
    Except.FailsWith (l.mapM g) P := by
  induction l with
  | nil => exact failsWith_ok []
  | cons a rest ih =>
    rw [List.mapM_cons]
    exact (h a).bind fun b => ih.bind fun bs => failsWith_ok (b :: bs)

end Loops

/-! ## Failures of writing -/

/-- The failures of writing: a record of another type, a value of another kind or an unknown symbol,
and a field that is missing. -/
def ExchangeError.FromWriting : ExchangeError → Prop
  | .mismatch (.recordName _ _) | .mismatch (.valueKind _ _ _ _)
  | .mismatch (.unknownSymbol _ _ _) | .missingField _ _ => True
  | _ => False

/-- What does not fit is reported as a mismatch, what is not there as a missing field. -/
theorem ExchangeError.FromWriting.cases {e : ExchangeError} (h : e.FromWriting) :
    (∃ cause, e = .mismatch cause) ∨ ∃ typeName field, e = .missingField typeName field := by
  cases e with
  | mismatch cause => exact .inl ⟨cause, rfl⟩
  | missingField typeName field => exact .inr ⟨typeName, field, rfl⟩
  | _ => exact h.elim

mutual

theorem FieldType.fromWriting_encode (typeName field : String) : ∀ (t : FieldType) (v : Value),
    Except.FailsWith (t.encode typeName field v) ExchangeError.FromWriting
  | .optional inner, v => by
    rw [FieldType.encode]
    split
    · exact failsWith_ok _
    · exact (inner.fromWriting_encode typeName field v).map _
  | .bool, v | .int, v | .long, v | .float, v | .double, v | .string, v | .bytes, v => by
    -- A scalar type writes the kind of value that is its own and refuses all others.
    intro e he
    cases v <;> cases he <;> trivial
  | .enum symbols, v => by
    cases v with
    | symbol s =>
      rw [FieldType.encode]
      cases symbols.idxOf? s with
      | none => exact failsWith_error trivial
      | some i => exact failsWith_ok _
    | _ => exact failsWith_error trivial
  | .list item, v => by
    cases v with
    | list vs =>
      rw [FieldType.encode]
      refine (failsWith_mapM (fun v => ?_) vs).bind fun parts => failsWith_ok _
      exact item.fromWriting_encode typeName field v
    | _ => exact failsWith_error trivial
  | .map item, v => by
    cases v with
    | map es =>
      rw [FieldType.encode]
      refine (failsWith_mapM (fun e => ?_) es).bind fun parts => failsWith_ok _
      exact (item.fromWriting_encode typeName field e.2).map _
    | _ => exact failsWith_error trivial
  | .record s, v => by
    cases v with
    | record r => exact s.fromWriting_encode r
    | _ => exact failsWith_error trivial

/-- Writing refuses a record for what does not fit or what is missing. -/
theorem Schema.fromWriting_encode : ∀ (s : Schema) (r : Record),
    Except.FailsWith (s.encode r) ExchangeError.FromWriting
  | ⟨name, fields⟩, r => by
    rw [Schema.encode]
    split
    · exact (fromWriting_encodeFields name fields r).map _
    · exact failsWith_error trivial

theorem fromWriting_encodeFields (typeName : String) : ∀ (fields : List Field) (r : Record),
    Except.FailsWith (encodeFields typeName fields r) ExchangeError.FromWriting
  | [], _ => failsWith_ok []
  | ⟨name, type, dflt⟩ :: rest, r => by
    rw [encodeFields_cons]
    cases r.valueOf ⟨name, type, dflt⟩ with
    | none => exact failsWith_error trivial
    | some v =>
      exact (type.fromWriting_encode typeName name v).bind fun first =>
        (fromWriting_encodeFields typeName rest r).bind fun others => failsWith_ok _

end

/-! ## Defaults -/

/-- A field occurs in a schema as one of its own or as one of a record type in it. -/
def Field.OccursIn (s : Schema) (f : Field) : Prop :=
  f ∈ s.fields ∨ ∃ r : Schema, (FieldType.record r).OccursIn s ∧ f ∈ r.fields

theorem Field.OccursIn.wellFormed {s : Schema} (hs : s.WellFormed) {f : Field}
    (h : f.OccursIn s) : f.WellFormed := by
  rcases h with hf | ⟨r, hr, hf⟩
  · exact (s.wellFormed_iff.mp hs).2.2 f hf
  · exact ((Schema.wellFormed_iff r).mp (hr.wellFormed hs)).2.2 f hf

/-- What stands for a field that was left out can be written. -/
theorem Field.WellFormed.encode_defaultValue {f : Field} (h : f.WellFormed) {v : Value}
    (hv : f.defaultValue = some v) (typeName field : String) :
    ∃ bytes, f.type.encode typeName field v = .ok bytes :=
  (f.type.encode_isOk_iff typeName field v h.2.1).mpr (h.accepts_defaultValue hv)

/-- **Which records are written.** With a checked schema exactly the records are written that belong to
it. The others are refused as a mismatch or for a missing field, and for no other reason. What the
schema supplies for a field that is left out, at any depth, is always written. -/
theorem Schema.encode_of_accepts {s : Schema} (hs : s.check = .ok ()) (r : Record) :
    ((∃ bytes, s.encode r = .ok bytes) ↔ (FieldType.record s).accepts (.record r) = true) ∧
    (∀ e, s.encode r = .error e →
      (∃ cause, e = .mismatch cause) ∨ ∃ typeName field, e = .missingField typeName field) ∧
    ∀ f : Field, f.OccursIn s → ∀ v, f.defaultValue = some v → ∀ typeName field,
      ∃ bytes, f.type.encode typeName field v = .ok bytes := by
  have hw := s.check_eq_ok_iff.mp hs
  refine ⟨?_, fun e he => (s.fromWriting_encode r e he).cases, fun f hf v hv typeName field => ?_⟩
  · rw [FieldType.accepts]
    exact s.encode_isOk_iff r hw
  · exact (hf.wellFormed hw).encode_defaultValue hv typeName field

/-- What is stuck on a crate: a colour, and how many copies of it there are. -/
def sticker : Schema :=
  ⟨"Sticker", [⟨"copies", .int, some (.int 1)⟩, ⟨"colour", .enum ["red", "blue"], none⟩]⟩

/-- Crates have a blue sticker unless they say otherwise. Its default leaves a field to the default of
its own. -/
def crate : Schema :=
  ⟨"Crate",
    [⟨"weight", .long, none⟩,
      ⟨"sticker", .optional (.record sticker),
        some (.record ⟨"Sticker", [("colour", .symbol "blue")]⟩)⟩]⟩

/-- A crate that leaves out its sticker is written with the default one. With a weight of another kind
it is refused for that, and without a weight because it is missing. -/
theorem encode_of_accepts_crate :
    crate.encode ⟨"Crate", [("weight", .long 3)]⟩ = .ok [1, 2, 1, 0, 6, 1, 1, 2, 1, 0, 2, 1] ∧
      (FieldType.record crate).accepts (.record ⟨"Crate", [("weight", .long 3)]⟩) = true ∧
      crate.encode ⟨"Crate", [("weight", .int 3)]⟩
        = .error (.mismatch (.valueKind "Crate" "weight" "long" "int")) ∧
      crate.encode ⟨"Crate", []⟩ = .error (.missingField "Crate" "weight") ∧
      (FieldType.record crate).accepts (.record ⟨"Crate", []⟩) = false ∧
      ∃ bytes, FieldType.int.encode "Sticker" "copies" (.int 1) = .ok bytes := by
  have hbytes : crate.encode ⟨"Crate", [("weight", .long 3)]⟩
      = .ok [1, 2, 1, 0, 6, 1, 1, 2, 1, 0, 2, 1] := rfl
  have hmissing : crate.encode ⟨"Crate", []⟩ = .error (.missingField "Crate" "weight") := rfl
  obtain ⟨hfull, -, hdefaults⟩ :=
    @Schema.encode_of_accepts crate rfl ⟨"Crate", [("weight", .long 3)]⟩
  obtain ⟨hempty, -, -⟩ := @Schema.encode_of_accepts crate rfl ⟨"Crate", []⟩
  refine ⟨hbytes, hfull.mp ⟨_, hbytes⟩, rfl, hmissing, ?_, ?_⟩
  · refine Bool.eq_false_iff.mpr fun haccepts => ?_
    obtain ⟨bytes, hwritten⟩ := hempty.mpr haccepts
    cases hmissing.symm.trans hwritten
  · have hsticker : (FieldType.record sticker).OccursIn crate :=
      .optional (.field (f := crate.fields[1]) (List.getElem_mem _))
    exact hdefaults ⟨"copies", .int, some (.int 1)⟩ (.inr ⟨sticker, hsticker, List.mem_cons_self⟩)
      _ rfl "Sticker" "copies"

end RecordExchange
