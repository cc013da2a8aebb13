import RecordExchange.Proofs.Acceptance
import RecordExchange.Proofs.Evolution

/-!
# What is read is what is wanted

A reader has no reason to trust the bytes in front of it, nor the schema that they are said to be
written with, which may have been made up and need not be valid. It does not have to: each value
that it reads belongs to the type that is wanted, at any depth, and a record has just the fields
that the reader declares. So what was read can be written.

- `Decoder.Ensures`: every value that a decoder ends with satisfies a condition.
- `SlotsConform`: slots hold values of the types of their fields. Each step of the loop over the
  values of a record keeps this, by places and by names.
- `FieldType.ensures_decodeFrom`, `Schema.ensures_decodeFrom`: what is read belongs to what is
  wanted.
- `Schema.decodeFrom_conforms`: the same for whole records of checked schemas, which can be written
  again.
-/

namespace RecordExchange

/-! ## What a decoder ensures -/

namespace Decoder

variable {α β : Type}

/-- Whatever the bytes, if a decoder ends with a value then this satisfies a condition. -/
def Ensures (d : Decoder α) (Q : α → Prop) : Prop :=
  ∀ c a after, d.run c = .ok a after → Q a

variable {P Q : α → Prop} {R : β → Prop}

theorem Ensures.mono {d : Decoder α} (h : d.Ensures P) (hPQ : ∀ a, P a → Q a) : d.Ensures Q :=
  fun c a after hrun => hPQ a (h c a after hrun)

theorem ensures_pure {a : α} (h : Q a) : (pure a : Decoder α).Ensures Q := by
  intro c b after hrun
  cases hrun
  exact h

theorem ensures_throw (e : ExchangeError) : (throw e : Decoder α).Ensures Q := by
  intro c a after hrun
  cases hrun

theorem ensures_mismatch (cause : Mismatch) : (mismatch cause : Decoder α).Ensures Q :=
  ensures_throw _

theorem ensures_corrupt (cause : Corruption) : (corrupt cause : Decoder α).Ensures Q :=
  ensures_throw _

/-- What the first part ensures may be used for the second one. -/
theorem Ensures.bind {d : Decoder α} {k : α → Decoder β} (h : d.Ensures P)
    (hk : ∀ a, P a → (k a).Ensures R) : (d >>= k).Ensures R := by
  intro c b after hrun
  obtain ⟨a, between, hfirst, hsecond⟩ := run_bind_eq_ok hrun
  exact hk a (h c a between hfirst) between b after hsecond

theorem ensures_true (d : Decoder α) : d.Ensures fun _ => True :=
  fun _ _ _ _ => trivial

/-- The first part need not ensure anything. -/
theorem ensures_bind {d : Decoder α} {k : α → Decoder β} (hk : ∀ a, (k a).Ensures R) :
    (d >>= k).Ensures R :=
  (ensures_true d).bind fun a _ => hk a

theorem Ensures.map {d : Decoder α} {f : α → β} (h : d.Ensures P) (hf : ∀ a, P a → R (f a)) :
    (f <$> d).Ensures R := by
  rw [map_eq_pure_bind]
  exact h.bind fun a ha => ensures_pure (hf a ha)

theorem ensures_map {d : Decoder α} {f : α → β} (hf : ∀ a, R (f a)) : (f <$> d).Ensures R := by
  rw [map_eq_pure_bind]
  exact ensures_bind fun a => ensures_pure (hf a)

/-- An optional computation ensures what its result, if there is one, is known to satisfy. -/
theorem ensures_orCorrupt {cause : Corruption} {x : Option α} (h : ∀ a, x = some a → Q a) :
    (orCorrupt cause x).Ensures Q := by
  cases x with
  | none => exact ensures_corrupt cause
  | some a => exact ensures_pure (h a rfl)

theorem ensures_ofSchemaResult {x : Except SchemaError α} (h : ∀ a, x = .ok a → Q a) :
    (ofSchemaResult x).Ensures Q := by
  cases x with
  | error e => exact ensures_throw _
  | ok a => exact ensures_pure (h a rfl)

/-- What each round of a loop keeps holds after the loop. -/
theorem ensures_foldlM {f : β → α → Decoder β} (hf : ∀ b a, R b → (f b a).Ensures R) :
    ∀ (l : List α) (b : β), R b → (l.foldlM f b).Ensures R := by
  intro l
  induction l with
  | nil => exact fun b hb => ensures_pure hb
  | cons a rest ih =>
    intro b hb
    rw [List.foldlM_cons]
    exact (hf b a hb).bind ih

theorem Ensures.times {d : Decoder α} (h : d.Ensures Q) (n : Nat) :
    (d.times n).Ensures fun as => ∀ a ∈ as, Q a := by
  induction n with
  | zero => exact ensures_pure fun a ha => absurd ha List.not_mem_nil
  | succ n ih =>
    rw [Decoder.times]
    refine h.bind fun a ha => ih.bind fun as has => ensures_pure ?_
    intro b hb
    rcases List.mem_cons.mp hb with rfl | hb
    · exact ha
    · exact has b hb

/-- The values of the entries of a map are those that were found before and those that are read. -/
theorem Ensures.entries {d : Decoder Value} {Q : Value → Prop} (h : d.Ensures Q) :
    ∀ (n : Nat) (found : List (String × Value)), (∀ e ∈ found, Q e.2) →
      (Decoder.entries d n found).Ensures fun es => ∀ e ∈ es, Q e.2 := by
  intro n
  induction n with
  | zero => exact fun found hfound => ensures_pure hfound
  | succ n ih =>
    intro found hfound
    rw [Decoder.entries]
    refine ensures_bind fun key => h.bind fun v hv => ?_
    -- A repeated key is refused, so that an entry is the new one or an old one.
    by_cases hkey : Entries.hasKey key found = true
    · rw [if_pos hkey]
      exact ensures_corrupt _
    · rw [if_neg hkey]
      refine ih _ fun e he => ?_
      rcases Entries.mem_insert he with rfl | he
      · exact hv
      · exact hfound e he

end Decoder

/-! ## Slots -/

/-- There is one slot for each field, and the value in it, if any, belongs to the type of the
field. -/
def SlotsConform : List Field → List (Option Value) → Prop
  | [], [] => True
  | f :: fields, slot :: slots =>
    (∀ v ∈ slot, f.type.accepts v = true) ∧ SlotsConform fields slots
  | _, _ => False

theorem slotsConform_empty (fields : List Field) :
    SlotsConform fields (fields.map fun _ => none) := by
  induction fields with
  | nil => trivial
  | cons f rest ih =>
    rw [List.map_cons]
    refine ⟨?_, ih⟩
    intro v hv
    cases hv

/-- A slot may be filled with a value of the type of its field. -/
theorem SlotsConform.set : ∀ {fields : List Field} {slots : List (Option Value)} {p : Nat}
    {f : Field} {v : Value}, SlotsConform fields slots → fields[p]? = some f →
      f.type.accepts v = true → SlotsConform fields (slots.set p (some v))
  | [], [], _, _, _, _, hf, _ => by cases hf
  | first :: fields, slot :: slots, 0, f, v, h, hf, hv => by
    obtain rfl : first = f := by simpa using hf
    refine ⟨fun u hu => ?_, h.2⟩
    cases hu
    exact hv
  | first :: fields, slot :: slots, p + 1, f, v, h, hf, hv => by
    rw [List.getElem?_cons_succ] at hf
    exact ⟨h.1, h.2.set hf hv⟩

/-- What is made of the slots has the names of the fields, and each value belongs to the type of the
field of its name: those that were read by assumption, and defaults by the check of the schema. -/
theorem SlotsConform.fillSlots {typeName : String} : ∀ {fields : List Field}
    {slots : List (Option Value)} {entries : List (String × Value)},
      SlotsConform fields slots → WellFormedFields fields →
      RecordExchange.fillSlots typeName fields slots = .ok entries →
        entries.map Prod.fst = fields.map Field.name ∧
          ∀ e ∈ entries, ∃ f ∈ fields, f.name = e.1 ∧ f.type.accepts e.2 = true
  | [], [], entries, _, _, hfill => by
    cases hfill
    exact ⟨rfl, fun e he => absurd he List.not_mem_nil⟩
  | f :: fields, slot :: slots, entries, h, hw, hfill => by
    have hfields := (wellFormedFields_iff _).mp hw
    rw [RecordExchange.fillSlots] at hfill
    -- An empty slot takes the default; where there is none, nothing is made.
    cases hv : slot.or f.defaultValue with
    | none =>
      rw [hv] at hfill
      cases hfill
    | some v =>
      rw [hv] at hfill
      obtain ⟨others, hothers, rfl⟩ := except_map_eq_ok_iff.mp hfill
      obtain ⟨hnames, haccepts⟩ := h.2.fillSlots
        ((wellFormedFields_iff _).mpr fun g hg => hfields g (List.mem_cons_of_mem f hg)) hothers
      have hfirst : f.type.accepts v = true := by
        rcases Option.or_eq_some_iff.mp hv with hslot | ⟨-, hdefault⟩
        · exact h.1 v hslot
        · exact (hfields f List.mem_cons_self).accepts_defaultValue hdefault
      refine ⟨by rw [List.map_cons, List.map_cons, hnames], fun e he => ?_⟩
      rcases List.mem_cons.mp he with rfl | he
      · exact ⟨f, List.mem_cons_self, rfl, hfirst⟩
      · obtain ⟨g, hg, hnamed⟩ := haccepts e he
        exact ⟨g, List.mem_cons_of_mem f hg, hnamed⟩

/-! ## Records -/

theorem acceptsFields_iff (fields : List Field) (r : Record) :
    acceptsFields fields r = true ↔ ∀ f ∈ fields,
      (∀ v, r.get? f.name = some v → f.type.accepts v = true) ∧
        (r.get? f.name = none → f.isRequired = false) := by
  induction fields with
  | nil => simp [acceptsFields]
  | cons f rest ih =>
    obtain ⟨name, type, dflt⟩ := f
    rw [acceptsFields, Bool.and_eq_true, ih, List.forall_mem_cons]
    refine and_congr_left fun _ => ?_
    cases r.get? name with
    | none => simp
    | some v => simp

/-- A record conforms to a schema when it has the name of the schema, the declared fields in
declared order and no others, and belongs to the schema. -/
structure Schema.Conforms (s : Schema) (r : Record) : Prop where
  typeName : r.typeName = s.name
  names : r.fields.map Prod.fst = s.fieldNames
  accepts : s.accepts r = true

/-- A record with the declared fields conforms when each value belongs to the type of the field of
its name, since no other field has this name. -/
theorem Schema.NamesDistinct.conforms {s : Schema} (h : s.NamesDistinct)
    {entries : List (String × Value)} (hnames : entries.map Prod.fst = s.fields.map Field.name)
    (haccepts : ∀ e ∈ entries, ∃ f ∈ s.fields, f.name = e.1 ∧ f.type.accepts e.2 = true) :
    s.Conforms ⟨s.name, entries⟩ := by
  obtain ⟨name, fields⟩ := s
  refine ⟨rfl, hnames, ?_⟩
  rw [Schema.accepts, Bool.and_eq_true, acceptsFields_iff]
  refine ⟨beq_iff_eq.mpr rfl, fun f hf => ⟨fun v hv => ?_, fun hnone => ?_⟩⟩
  · obtain ⟨e, he, rfl⟩ := Option.map_eq_some_iff.mp hv
    obtain ⟨g, hg, hname, hvalue⟩ := haccepts e (List.mem_of_find?_eq_some he)
    have hfound : e.1 = f.name := by simpa using List.find?_some he
    rw [eq_of_name_eq h hf hg (hfound.symm.trans hname.symm)]
    exact hvalue
  · -- A declared field is never missing.
    have hmem : f.name ∈ entries.map Prod.fst := by
      rw [hnames]
      exact List.mem_map_of_mem hf
    obtain ⟨e, he, hname⟩ := List.mem_map.mp hmem
    have habsent := List.find?_eq_none.mp (Option.map_eq_none_iff.mp hnone) e he
    simp [hname] at habsent

open Decoder

/-- The decoders of the wanted fields ensure that what they read, written as whatever type, belongs
to the type of their field. -/
def DecodersConform (fields : List Field) (wanted : FieldDecoders) : Prop :=
  ∀ (p : Nat) read, wanted[p]? = some read → ∃ f, fields[p]? = some f ∧
    ∀ written, (read written).Ensures fun v => f.type.accepts v = true

section Loops

variable {writer reader : Schema} {wanted : FieldDecoders} {slots : List (Option Value)}

/-- A value is put into the slot of the field whose decoder has read it, wherever the order of a
hostile message and the fields of a hostile schema lead. -/
theorem DecodersConform.ensures_set (hwanted : DecodersConform reader.fields wanted)
    (hslots : SlotsConform reader.fields slots) (p index : Nat) (written : FieldType) :
    (orCorrupt (.strayIndex index) wanted[p]? >>= fun read => read written >>= fun v =>
      pure (slots.set p (some v))).Ensures (SlotsConform reader.fields) := by
  refine (ensures_orCorrupt fun read hread => hread).bind fun read hread => ?_
  obtain ⟨f, hf, hensures⟩ := hwanted p read hread
  exact (hensures written).bind fun v hv => ensures_pure (hslots.set hf hv)

theorem DecodersConform.ensures_placed (hwanted : DecodersConform reader.fields wanted)
    (places : List Nat) (hslots : SlotsConform reader.fields slots) (index : Nat) :
    (placed writer wanted places slots index).Ensures (SlotsConform reader.fields) := by
  rw [placed]
  refine ensures_bind fun w => ensures_bind fun position => ?_
  exact hwanted.ensures_set hslots position index w.type

theorem DecodersConform.ensures_named (hwanted : DecodersConform reader.fields wanted)
    (hslots : SlotsConform reader.fields slots) (index : Nat) :
    (named writer reader wanted slots index).Ensures (SlotsConform reader.fields) := by
  rw [named]
  refine ensures_bind fun w => ?_
  cases reader.position? w.name with
  | none => exact ensures_bind fun _ => ensures_pure hslots
  | some position => exact hwanted.ensures_set hslots position index w.type

/-- Either loop over the values of a record fills the slots with values of the right types. -/
theorem DecodersConform.ensures_slots (hwanted : DecodersConform reader.fields wanted)
    (order : List Nat) :
    (Decoder.slots writer reader wanted order).Ensures (SlotsConform reader.fields) := by
  have hempty := slotsConform_empty reader.fields
  simp only [Decoder.slots]
  split
  next places _ =>
    exact ensures_foldlM (fun _ index hslots => hwanted.ensures_placed places hslots index)
      order _ hempty
  next =>
    exact ensures_foldlM (fun _ index hslots => hwanted.ensures_named hslots index)
      order _ hempty

/-- A record that is read conforms to the schema that is wanted, when its fields do. -/
theorem ensures_record (hreader : reader.WellFormed)
    (hwanted : DecodersConform reader.fields wanted) :
    (record writer reader wanted).Ensures reader.Conforms := by
  rw [record]
  by_cases hname : writer.name ≠ reader.name
  · rw [if_pos hname]
    exact ensures_mismatch _
  · rw [if_neg hname]
    refine ensures_bind fun order => (hwanted.ensures_slots order).bind fun filled hfilled => ?_
    refine (ensures_ofSchemaResult fun entries hentries => hentries).bind fun entries hentries => ?_
    have hfields := (wellFormedFields_iff _).mpr ((reader.wellFormed_iff).mp hreader).2.2
    obtain ⟨hnames, haccepts⟩ := hfilled.fillSlots hfields hentries
    have hdistinct : (entries.map Prod.fst).Nodup := by
      rw [hnames]
      exact hreader.namesDistinct
    rw [Record.ofFields_eq hdistinct]
    exact ensures_pure (hreader.namesDistinct.conforms hnames haccepts)

end Loops

/-! ## Values of all types -/

mutual

/-- Whatever the bytes and whatever type they are said to be written as, a value that is read
belongs to the type that is wanted. -/
theorem FieldType.ensures_decodeFrom (typeName field : String) : ∀ wanted : FieldType,
    wanted.WellFormed → ∀ written,
      (wanted.decodeFrom typeName field written).Ensures fun v => wanted.accepts v = true
  | .optional inner, h, written => by
    have hinner := inner.ensures_decodeFrom typeName field h
    have hsome : ∀ v, inner.accepts v = true → (FieldType.optional inner).accepts v = true := by
      intro v hv
      rw [FieldType.accepts, hv, Bool.or_true]
    cases written with
    | optional w =>
      rw [FieldType.decodeFrom]
      refine ensures_bind fun present => ?_
      cases present with
      | true => exact (hinner w).mono hsome
      | false => exact ensures_pure (by rw [FieldType.accepts]; rfl)
    | _ => exact (hinner _).mono hsome
  | .bool, _, written => by
    cases written with
    | bool => exact ensures_map fun _ => rfl
    | _ => exact ensures_mismatch _
  | .int, _, written => by
    cases written with
    | int => exact ensures_map fun _ => rfl
    | _ => exact ensures_mismatch _
  | .long, _, written => by
    cases written with
    | int | long => exact ensures_map fun _ => rfl
    | _ => exact ensures_mismatch _
  | .float, _, written => by
    cases written with
    | int | long | float => exact ensures_map fun _ => rfl
    | _ => exact ensures_mismatch _
  | .double, _, written => by
    cases written with
    | int | long | float | double => exact ensures_map fun _ => rfl
    | _ => exact ensures_mismatch _
  | .string, _, written => by
    cases written with
    | string => exact ensures_map fun _ => rfl
    | _ => exact ensures_mismatch _
  | .bytes, _, written => by
    cases written with
    | bytes => exact ensures_map fun _ => rfl
    | _ => exact ensures_mismatch _
  | .enum wanted, _, written => by
    cases written with
    | enum symbols =>
      rw [FieldType.decodeFrom]
      -- The symbol comes from the writer's list, and is looked for in the reader's.
      refine ensures_bind fun s => ?_
      by_cases hs : wanted.contains s = true
      · rw [if_pos hs]
        exact ensures_pure hs
      · rw [if_neg hs]
        exact ensures_mismatch _
    | _ => exact ensures_mismatch _
  | .list item, h, written => by
    cases written with
    | list w =>
      have hitem := item.ensures_decodeFrom typeName field h w
      rw [FieldType.decodeFrom]
      refine ensures_bind fun n => (hitem.times n).map fun vs hvs => ?_
      rw [FieldType.accepts, List.all_eq_true]
      exact hvs
    | _ => exact ensures_mismatch _
  | .map item, h, written => by
    cases written with
    | map w =>
      have hitem := item.ensures_decodeFrom typeName field h w
      rw [FieldType.decodeFrom]
      refine ensures_bind fun n => (hitem.entries n [] fun e he => ?_).map fun es hes => ?_
      · exact absurd he List.not_mem_nil
      · rw [FieldType.accepts, List.all_eq_true]
        exact hes
    | _ => exact ensures_mismatch _
  | .record reader, h, written => by
    cases written with
    | record writer =>
      refine (reader.ensures_decodeFrom h writer).map fun r hr => ?_
      rw [FieldType.accepts]
      exact hr.accepts
    | _ => exact ensures_mismatch _
termination_by structural wanted => wanted

/-- A record that is read conforms to the schema that is wanted. -/
theorem Schema.ensures_decodeFrom : ∀ reader : Schema, reader.WellFormed → ∀ writer,
    (reader.decodeFrom writer).Ensures reader.Conforms
  | ⟨name, fields⟩, h, writer => by
    refine ensures_record h fun p read hread => ?_
    rw [fieldDecoders_eq_map, List.getElem?_map] at hread
    obtain ⟨f, hf, rfl⟩ := Option.map_eq_some_iff.mp hread
    exact ⟨f, hf, ensures_decodeFrom_of_mem name fields h.2.2 f (List.mem_of_getElem? hf)⟩
termination_by structural reader => reader

theorem ensures_decodeFrom_of_mem (typeName : String) : ∀ fields : List Field,
    WellFormedFields fields → ∀ f ∈ fields, ∀ written,
      (f.type.decodeFrom typeName f.name written).Ensures fun v => f.type.accepts v = true
  | [], _, _, hf => absurd hf List.not_mem_nil
  | ⟨name, type, dflt⟩ :: rest, h, f, hf => by
    rcases List.mem_cons.mp hf with rfl | hf
    · exact type.ensures_decodeFrom typeName name h.1.2.1
    · exact ensures_decodeFrom_of_mem typeName rest h.2 f hf
termination_by structural fields => fields

end

/-- **Conformance.** Whatever the bytes, wherever they start, and whatever schema they are said to
be written with: a record that a reader with a checked schema makes of them has the name of this
schema and the declared fields in declared order, it belongs to the schema, and it can be written
with it. -/
theorem Schema.decodeFrom_conforms {reader writer : Schema} {c after : Cursor} {r : Record}
    (hreader : reader.check = .ok ()) (hread : (reader.decodeFrom writer).run c = .ok r after) :
    r.typeName = reader.name ∧ r.fields.map Prod.fst = reader.fieldNames ∧
      (FieldType.record reader).accepts (.record r) = true ∧
      ∃ bytes, reader.encode r = .ok bytes := by
  have hw := reader.check_eq_ok_iff.mp hreader
  obtain ⟨htypeName, hnames, haccepts⟩ := reader.ensures_decodeFrom hw writer c r after hread
  refine ⟨htypeName, hnames, ?_, (reader.encode_isOk_iff r hw).mpr haccepts⟩
  rw [FieldType.accepts]
  exact haccepts

/-- What no application would declare: a symbol and a field that stand twice, a field without a name
and an enumeration without symbols, in no order. -/
def forgedOrder : Schema :=
  ⟨"Order",
    [⟨"kind", .enum ["plain", "plain"], none⟩, ⟨"id", .int, none⟩, ⟨"id", .int, none⟩,
      ⟨"weight", .float, none⟩, ⟨"part", .optional (.record ⟨"Part", []⟩), none⟩,
      ⟨"", .list (.enum []), none⟩]⟩

/-- Bytes that are said to be written that way are read as an order all the same. Of the two values
for one field the last one counts. -/
theorem decodeFrom_conforms_forgedOrder :
    forgedOrder.check = .error (.invalidEnum "Order" "kind") ∧
      ∃ r, (laterOrder.decodeFrom forgedOrder).run
          ⟨[1, 6, 4, 5, 1, 0, 3, 2, 0, 0, 5, 1, 0, 0, 0x80, 0x3f, 8], 9⟩ = .ok r ⟨[], 26⟩ ∧
        r.get? "id" = some (.long 4) ∧ r.get? "weight" = some (.double 0x3ff0000000000000) ∧
        (FieldType.record laterOrder).accepts (.record r) = true ∧
        ∃ bytes, laterOrder.encode r = .ok bytes := by
  have hdistinct : laterOrder.NamesDistinct := (laterOrder.check_eq_ok_iff.mp rfl).namesDistinct
  have horder : (FieldOrder.decode forgedOrder).run
      ⟨[1, 6, 4, 5, 1, 0, 3, 2, 0, 0, 5, 1, 0, 0, 0x80, 0x3f, 8], 9⟩
        = .ok [4, 5, 1, 0, 3, 2] ⟨[0, 0, 5, 1, 0, 0, 0x80, 0x3f, 8], 17⟩ := rfl
  have hread : (laterOrder.decodeFrom forgedOrder).run
      ⟨[1, 6, 4, 5, 1, 0, 3, 2, 0, 0, 5, 1, 0, 0, 0x80, 0x3f, 8], 9⟩
        = .ok ⟨"Order",
          [("part", .null), ("note", .null), ("id", .long 4),
            ("weight", .double 0x3ff0000000000000), ("kind", .symbol "plain")]⟩ ⟨[], 26⟩ := by
    show EStateM.run (FieldOrder.decode forgedOrder >>= _) _ = _
    rw [EStateM.run_bind, horder]
    show EStateM.run (slots forgedOrder laterOrder _ [4, 5, 1, 0, 3, 2] >>= _) _ = _
    rw [slots_eq_foldlM_named hdistinct _ (by decide)]
    rfl
  exact ⟨rfl, _, hread, rfl, rfl, (Schema.decodeFrom_conforms rfl hread).2.2⟩

end RecordExchange
