import RecordExchange.Proofs.Conformance
import RecordExchange.Proofs.Contents
import RecordExchange.Schema.Draft

/-!
# Drafts are maps from field names to values

A draft is filled in by calls that name a field or its position, in any order and as often as one
likes, and some of them fail. Whatever the calls, a draft is no more than a sheet on which each
field has a value of its type or none: a call that succeeds writes a value on the sheet or rubs one
out, and a call that fails does nothing. A draft can be finished when the sheet has a value for
every required field.

- `Draft.Call`, `Draft.call`, `Draft.run`: the calls that change a draft, one and many.
- `Sheet`, `Sheet.call`, `Sheet.run`: the same on a sheet, which has names and no positions.
- `Draft.Holds`: a draft has in its slots what is on the sheet.
- `Draft.Holds.call`: one call does to the draft what it does to the sheet, hence `Draft.holds_run`.
- `Draft.Holds.conforms_of_finish`, `Draft.Holds.firstMissing_of_finish`: the finished record, and
  why there is none.
- `Draft.run_refines_sheet`: all of this after any calls.
-/

namespace RecordExchange

namespace Draft

/-- The calls that may change a draft. -/
inductive Call where
  | set (name : String) (v : Value)
  | setAt (index : Nat) (v : Value)
  | clear (name : String)

/-- What a call makes of a draft, or why it fails. -/
def call (d : Draft) : Call → Except SchemaError Draft
  | .set name v => d.set name v
  | .setAt index v => d.setAt index v
  | .clear name => .ok (d.clear name)

/-- The draft after a call. A call that fails leaves it as it was. -/
def after (d : Draft) (c : Call) : Draft :=
  match d.call c with
  | .ok d' => d'
  | .error _ => d

/-- The draft after calls one after another. -/
def run (d : Draft) (calls : List Call) : Draft :=
  calls.foldl after d

/-- The value that the field of a name is set to. -/
def get? (d : Draft) (name : String) : Option Value :=
  (d.schema.position? name).bind fun index => d.slots[index]?.getD none

end Draft

/-! ## Sheets -/

/-- What is known of fields by their names: a value, or nothing. -/
abbrev Sheet := String → Option Value

namespace Sheet

/-- A sheet on which nothing is written. -/
def blank : Sheet := fun _ => none

/-- Writes a value under a name in place of what stands there, or rubs that out. -/
def put (m : Sheet) (name : String) (entry : Option Value) : Sheet :=
  fun n => if n = name then entry else m n

/-- Writes a value under the name of a field, if it is of the type of the field. -/
def enter (s : Schema) (m : Sheet) (f : Field) (v : Value) : Except SchemaError Sheet :=
  if f.type.accepts v then .ok (m.put f.name (some v))
  else .error (.fieldTypeMismatch s.name f.name f.type.kind v.kind)

/-- What a call makes of a sheet, or why it fails. -/
def call (s : Schema) (m : Sheet) : Draft.Call → Except SchemaError Sheet
  | .set name v =>
    match s.fields.find? (·.name == name) with
    | some f => m.enter s f v
    | none => .error (.unknownField s.name name)
  | .setAt index v =>
    match s.fields[index]? with
    | some f => m.enter s f v
    | none => .error (.fieldIndexOutOfRange s.name index s.fields.length)
  | .clear name => .ok (m.put name none)

/-- The sheet after a call. A call that fails leaves it as it was. -/
def after (s : Schema) (m : Sheet) (c : Draft.Call) : Sheet :=
  match m.call s c with
  | .ok m' => m'
  | .error _ => m

/-- The sheet after calls one after another, of which the first finds it blank. -/
def run (s : Schema) (calls : List Draft.Call) : Sheet :=
  calls.foldl (after s) blank

/-- What the record will have for a field: what is written, or else what stands for a field that was
left out. -/
def valueOf (m : Sheet) (f : Field) : Option Value :=
  (m f.name).or f.defaultValue

theorem valueOf_eq_none_iff (m : Sheet) (f : Field) :
    m.valueOf f = none ↔ f.isRequired = true ∧ m f.name = none := by
  rw [valueOf, Option.or_eq_none_iff, f.defaultValue_eq_none_iff, and_comm]

/-- Nothing stands for a required field that was left out, so that its value was written. -/
theorem exists_entry_of_valueOf {m : Sheet} {f : Field} {v : Value} (hv : m.valueOf f = some v)
    (hrequired : f.isRequired = true) : ∃ u, m f.name = some u := by
  refine Option.ne_none_iff_exists'.mp fun hnone => ?_
  rw [(m.valueOf_eq_none_iff f).mpr ⟨hrequired, hnone⟩] at hv
  cases hv

end Sheet

/-! ## What a draft holds -/

namespace Draft

/-- A draft of a schema holds what is written on a sheet: each slot has what stands under the name
of its field. The sheet has only names of fields, with values of their types. -/
structure Holds (d : Draft) (s : Schema) (m : Sheet) : Prop where
  schema : d.schema = s
  slots : d.slots = s.fields.map fun f => m f.name
  declared {name : String} {v : Value} :
    m name = some v → ∃ f ∈ s.fields, f.name = name ∧ f.type.accepts v = true

variable {s : Schema} {d : Draft} {m : Sheet}

theorem holds_empty (s : Schema) : (empty s).Holds s .blank where
  schema := rfl
  slots := rfl
  declared h := by cases h

theorem Holds.get?_eq (h : d.Holds s m) (name : String) : d.get? name = m name := by
  rw [get?, h.schema]
  cases hposition : s.position? name with
  | none =>
    -- The sheet has nothing under a name that no field has.
    have hfind := Schema.find?_eq_none_of_position? hposition
    refine (Option.eq_none_iff_forall_ne_some.mpr fun v hv => ?_).symm
    obtain ⟨f, hf, hname, -⟩ := h.declared hv
    exact List.find?_eq_none.mp hfind f hf (by simpa using hname)
  | some index =>
    obtain ⟨f, hf, hname, -⟩ := Schema.find?_eq_some_of_position? hposition
    rw [Option.bind_some, h.slots, List.getElem?_map, hf, ← hname]
    rfl

theorem isSet_eq (d : Draft) (name : String) : d.isSet name = (d.get? name).isSome := by
  rw [isSet, get?]
  cases d.schema.position? name <;> rfl

/-! ## One call -/

/-- Changing the slot of a field is changing what stands under its name. -/
theorem Holds.put (hs : s.NamesDistinct) (h : d.Holds s m) {index : Nat} {f : Field}
    (hf : s.fields[index]? = some f) {entry : Option Value}
    (hentry : ∀ v ∈ entry, f.type.accepts v = true) :
    Holds { d with slots := d.slots.set index entry } s (m.put f.name entry) where
  schema := h.schema
  slots := by
    rw [h.slots]
    exact set_map_name hs hf
  declared {name v} hv := by
    rw [Sheet.put] at hv
    split at hv
    next hname => exact ⟨f, List.mem_of_getElem? hf, hname.symm, hentry v hv⟩
    next => exact h.declared hv

/-- Rubbing out what does not stand there changes nothing. -/
theorem Holds.put_none (h : d.Holds s m) {name : String} (hname : s.position? name = none) :
    m.put name none = m := by
  funext n
  rw [Sheet.put]
  split
  next same => rw [same, ← h.get?_eq name, get?, h.schema, hname, Option.bind_none]
  next => rfl

/-- A call does the same to a draft and to the sheet: it fails on both for the same reason, or
succeeds on both. -/
inductive Agrees (s : Schema) : Except SchemaError Draft → Except SchemaError Sheet → Prop
  | error (e : SchemaError) : Agrees s (.error e) (.error e)
  | ok {d : Draft} {m : Sheet} (h : d.Holds s m) : Agrees s (.ok d) (.ok m)

theorem Holds.setAt (hs : s.NamesDistinct) (h : d.Holds s m) {index : Nat} {f : Field}
    (hf : s.fields[index]? = some f) (v : Value) : Agrees s (d.setAt index v) (m.enter s f v) := by
  obtain rfl := h.schema
  rw [Draft.setAt, Sheet.enter, hf]
  by_cases haccepts : f.type.accepts v = true
  · simp only [haccepts, if_true]
    refine .ok (h.put hs hf fun u hu => ?_)
    cases hu
    exact haccepts
  · simp only [haccepts]
    exact .error _

/-- **One call.** What a call does to a draft it does to the sheet. -/
theorem Holds.call (hs : s.NamesDistinct) (h : d.Holds s m) (c : Call) :
    Agrees s (d.call c) (m.call s c) := by
  obtain rfl := h.schema
  cases c with
  | set name v =>
    simp only [Draft.call, Sheet.call, Draft.set]
    -- The sheet goes by names and the draft by positions; they find the same field.
    cases hposition : d.schema.position? name with
    | none =>
      rw [Schema.find?_eq_none_of_position? hposition]
      exact .error _
    | some index =>
      obtain ⟨f, hf, -, hfind⟩ := Schema.find?_eq_some_of_position? hposition
      rw [hfind]
      exact h.setAt hs hf v
  | setAt index v =>
    simp only [Draft.call, Sheet.call]
    cases hf : d.schema.fields[index]? with
    | none =>
      rw [Draft.setAt, hf]
      exact .error _
    | some f => exact h.setAt hs hf v
  | clear name =>
    simp only [Draft.call, Sheet.call, Draft.clear]
    cases hposition : d.schema.position? name with
    | none =>
      rw [h.put_none hposition]
      exact .ok h
    | some index =>
      obtain ⟨f, hf, rfl, -⟩ := Schema.find?_eq_some_of_position? hposition
      exact .ok (h.put hs hf fun v hv => by cases hv)

theorem Holds.after (hs : s.NamesDistinct) (h : d.Holds s m) (c : Call) :
    (d.after c).Holds s (m.after s c) := by
  have hagrees := h.call hs c
  rw [Draft.after, Sheet.after]
  generalize d.call c = answer, m.call s c = expected at hagrees ⊢
  cases hagrees with
  | error e => exact h
  | ok h' => exact h'

/-- Many calls do to a draft what they do to the sheet. -/
theorem holds_run (hs : s.NamesDistinct) (calls : List Call) :
    ((empty s).run calls).Holds s (Sheet.run s calls) := by
  suffices ∀ (d : Draft) (m : Sheet), d.Holds s m →
      (d.run calls).Holds s (calls.foldl (Sheet.after s) m) from
    this _ _ (holds_empty s)
  induction calls with
  | nil => exact fun d m h => h
  | cons c rest ih => exact fun d m h => ih _ _ (h.after hs c)

/-! ## Finishing -/

/-- The slots of a draft are filled in with what the sheet says of each field. -/
theorem fillSlots_cons (m : Sheet) (typeName : String) (f : Field) (rest : List Field) :
    fillSlots typeName (f :: rest) ((f :: rest).map fun f => m f.name)
      = (match m.valueOf f with
        | none => .error (.missingField typeName f.name)
        | some v =>
          (fillSlots typeName rest (rest.map fun f => m f.name)).map ((f.name, v) :: ·)) := rfl

/-- Where every field has a value, these are the values of the record. -/
theorem mem_of_fillSlots {typeName : String} : ∀ {fields : List Field}
    {entries : List (String × Value)},
      fillSlots typeName fields (fields.map fun f => m f.name) = .ok entries →
        ∀ f ∈ fields, ∃ v, m.valueOf f = some v ∧ (f.name, v) ∈ entries
  | [], _, _, _, hf => absurd hf List.not_mem_nil
  | first :: rest, entries, h, f, hf => by
    rw [fillSlots_cons] at h
    cases hv : m.valueOf first with
    | none =>
      rw [hv] at h
      cases h
    | some v =>
      rw [hv] at h
      obtain ⟨others, hothers, rfl⟩ := except_map_eq_ok_iff.mp h
      rcases List.mem_cons.mp hf with rfl | hf
      · exact ⟨v, hv, List.mem_cons_self⟩
      · obtain ⟨u, hu, hmem⟩ := mem_of_fillSlots hothers f hf
        exact ⟨u, hu, List.mem_cons_of_mem _ hmem⟩

/-- A field is the first of its list that is required and has no value on the sheet. -/
def FirstMissing (m : Sheet) (fields : List Field) (f : Field) : Prop :=
  ∃ before rest, fields = before ++ f :: rest ∧ (f.isRequired = true ∧ m f.name = none) ∧
    ∀ g ∈ before, g.isRequired = true → ∃ v, m g.name = some v

/-- Where a field has no value, the first such field is reported. -/
theorem firstMissing_of_fillSlots {typeName : String} {e : SchemaError} :
    ∀ {fields : List Field},
      fillSlots typeName fields (fields.map fun f => m f.name) = .error e →
        ∃ f, FirstMissing m fields f ∧ e = .missingField typeName f.name
  | [], h => by cases h
  | first :: rest, h => by
    rw [fillSlots_cons] at h
    cases hv : m.valueOf first with
    | none =>
      rw [hv] at h
      cases h
      exact ⟨first, ⟨[], rest, rfl, (m.valueOf_eq_none_iff first).mp hv,
        fun g hg => absurd hg List.not_mem_nil⟩, rfl⟩
    | some v =>
      rw [hv] at h
      -- The first field has a value, so that the missing one is among the rest.
      cases hrest : fillSlots typeName rest (rest.map fun f => m f.name) with
      | ok others =>
        rw [hrest] at h
        cases h
      | error e' =>
        rw [hrest] at h
        cases h
        obtain ⟨f, ⟨before, others, rfl, hmissing, hbefore⟩, he⟩ := firstMissing_of_fillSlots hrest
        refine ⟨f, ⟨first :: before, others, rfl, hmissing, fun g hg hrequired => ?_⟩, he⟩
        rcases List.mem_cons.mp hg with rfl | hg
        · exact Sheet.exists_entry_of_valueOf hv hrequired
        · exact hbefore g hg hrequired

/-- What a draft holds belongs to the types of the fields. -/
theorem Holds.conform (hs : s.NamesDistinct) (h : d.Holds s m) : SlotsConform s.fields d.slots := by
  rw [h.slots]
  have haccepts : ∀ f ∈ s.fields, ∀ v ∈ m f.name, f.type.accepts v = true := by
    intro f hf v hv
    obtain ⟨g, hg, hname, hvalue⟩ := h.declared hv
    rwa [eq_of_name_eq hs hg hf hname] at hvalue
  generalize s.fields = fields at haccepts
  induction fields with
  | nil => trivial
  | cons f rest ih =>
    exact ⟨haccepts f List.mem_cons_self, ih fun g hg => haccepts g (List.mem_cons_of_mem f hg)⟩

theorem Holds.finish_eq (h : d.Holds s m) :
    d.finish = (fillSlots s.name s.fields (s.fields.map fun f => m f.name)).map
      (Record.ofFields s.name) := by
  rw [Draft.finish, h.slots, h.schema]

/-- **The finished record.** It conforms to the schema, and has for each field what stands on the
sheet or else its default. -/
theorem Holds.conforms_of_finish (hs : s.WellFormed) (h : d.Holds s m) {r : Record}
    (hr : d.finish = .ok r) :
    s.Conforms r ∧ ∀ f ∈ s.fields, ∃ v, m.valueOf f = some v ∧ r.get? f.name = some v := by
  have distinct := hs.namesDistinct
  rw [h.finish_eq] at hr
  obtain ⟨entries, hentries, rfl⟩ := except_map_eq_ok_iff.mp hr
  have hconform := h.conform distinct
  rw [h.slots] at hconform
  obtain ⟨hnames, haccepts⟩ :=
    hconform.fillSlots ((wellFormedFields_iff _).mpr (s.wellFormed_iff.mp hs).2.2) hentries
  have hdistinct : (entries.map Prod.fst).Nodup := by
    rw [hnames]
    exact distinct
  rw [Record.ofFields_eq hdistinct]
  refine ⟨distinct.conforms hnames haccepts, fun f hf => ?_⟩
  obtain ⟨v, hv, hmem⟩ := mem_of_fillSlots hentries f hf
  exact ⟨v, hv, by rw [Record.get?_eq_lookup, lookup_of_mem hdistinct hmem]⟩

/-- A draft cannot be finished when a required field has no value; the first one is reported. -/
theorem Holds.firstMissing_of_finish (h : d.Holds s m) {e : SchemaError}
    (he : d.finish = .error e) :
    ∃ f, FirstMissing m s.fields f ∧ e = .missingField s.name f.name := by
  rw [h.finish_eq] at he
  cases hfill : fillSlots s.name s.fields (s.fields.map fun f => m f.name) with
  | ok entries =>
    rw [hfill] at he
    cases he
  | error e' =>
    rw [hfill] at he
    cases he
    exact firstMissing_of_fillSlots hfill

/-- A draft can be finished exactly when every required field has a value. -/
theorem Holds.exists_finish_iff (hs : s.WellFormed) (h : d.Holds s m) :
    (∃ r, d.finish = .ok r) ↔ ∀ f ∈ s.fields, f.isRequired = true → ∃ v, m f.name = some v := by
  constructor
  · rintro ⟨r, hr⟩ f hf hrequired
    obtain ⟨v, hv, -⟩ := (h.conforms_of_finish hs hr).2 f hf
    exact Sheet.exists_entry_of_valueOf hv hrequired
  · intro hset
    cases hfinish : d.finish with
    | ok r => exact ⟨r, rfl⟩
    | error e =>
      obtain ⟨f, ⟨before, rest, hfields, ⟨hrequired, hnone⟩, -⟩, -⟩ :=
        h.firstMissing_of_finish hfinish
      have hmem : f ∈ s.fields := hfields ▸ List.mem_append_right _ List.mem_cons_self
      obtain ⟨v, hv⟩ := hset f hmem hrequired
      rw [hnone] at hv
      cases hv

/-- **Drafts are maps.** Take a checked schema and any calls on a new draft of it, those that fail
included. The fields that are set, and their values, are those on the sheet after these calls; what
a further call would answer is what it would answer of the sheet; and naming a field is naming its
position. The draft can be finished exactly when every required field is set. The record then lists
the fields of the schema in declared order, each with what it was set to or else its default; it
belongs to the schema and can be written. Otherwise the first required field that is not set is
reported as missing. -/
theorem run_refines_sheet {s : Schema} (hs : s.check = .ok ()) (calls : List Call) :
    let d := (empty s).run calls
    let m := Sheet.run s calls
    (∀ name, d.get? name = m name ∧ d.isSet name = (m name).isSome) ∧
    (∀ c, (d.call c).map get? = m.call s c) ∧
    (∀ index f v, s.fields[index]? = some f → d.set f.name v = d.setAt index v) ∧
    ((∃ r, d.finish = .ok r) ↔ ∀ f ∈ s.fields, f.isRequired = true → (m f.name).isSome = true) ∧
    (∀ r, d.finish = .ok r →
      r.typeName = s.name ∧ r.fields.map Prod.fst = s.fieldNames ∧
      (∀ f ∈ s.fields, r.get? f.name = (m f.name).or f.defaultValue) ∧
      (FieldType.record s).accepts (.record r) = true ∧ ∃ bytes, s.encode r = .ok bytes) ∧
    ∀ e, d.finish = .error e →
      ∃ before f rest, s.fields = before ++ f :: rest ∧ f.isRequired = true ∧ m f.name = none ∧
        (∀ g ∈ before, g.isRequired = true → (m g.name).isSome = true) ∧
        e = .missingField s.name f.name := by
  intro d m
  have hw := s.check_eq_ok_iff.mp hs
  have distinct := hw.namesDistinct
  have h : d.Holds s m := holds_run distinct calls
  refine ⟨fun name => ⟨h.get?_eq name, ?_⟩, fun c => ?_, fun index f v hf => ?_, ?_, fun r hr => ?_,
    fun e he => ?_⟩
  · rw [d.isSet_eq, h.get?_eq]
  · have hagrees := h.call distinct c
    -- Both answers are generalized, or their agreement could not be taken apart.
    generalize d.call c = answer, m.call s c = expected at hagrees ⊢
    cases hagrees with
    | error e => rfl
    | ok h' => exact congrArg Except.ok (funext h'.get?_eq)
  · rw [Draft.set, h.schema, distinct.position?_eq hf]
  · simp only [h.exists_finish_iff hw, Option.isSome_iff_exists]
  · obtain ⟨hconforms, hvalues⟩ := h.conforms_of_finish hw hr
    refine ⟨hconforms.typeName, hconforms.names, fun f hf => ?_, ?_,
      (s.encode_isOk_iff r hw).mpr hconforms.accepts⟩
    · obtain ⟨v, hv, hget⟩ := hvalues f hf
      exact hget.trans hv.symm
    · rw [FieldType.accepts]
      exact hconforms.accepts
  · obtain ⟨f, ⟨before, rest, hfields, ⟨hrequired, hnone⟩, hbefore⟩, he⟩ :=
      h.firstMissing_of_finish he
    exact ⟨before, f, rest, hfields, hrequired, hnone,
      fun g hg hg' => Option.isSome_iff_exists.mpr (hbefore g hg hg'), he⟩

end Draft

/-- A ticket: a seat and its holder, a price that is 5 unless something else is said, and maybe a
note. -/
def ticket : Schema :=
  ⟨"Ticket", [⟨"seat", .string, none⟩, ⟨"price", .long, some (.long 5)⟩,
    ⟨"note", .optional .string, none⟩, ⟨"holder", .string, none⟩]⟩

/-- Calls on a ticket, of which the fourth, the fifth and the sixth fail: there are four fields, a
seat is a text, and there is no row. -/
def ticketCalls : List Draft.Call :=
  [.set "price" (.long 9), .set "seat" (.string "12a"), .clear "price", .setAt 4 .null,
    .set "seat" (.int 12), .set "row" (.int 12)]

/-- A ticket without a holder cannot be finished. With one it has the seat that was set last, and
the default price again. -/
theorem run_refines_sheet_ticket :
    ((Draft.empty ticket).run ticketCalls).get? "seat" = some (.string "12a") ∧
      ((Draft.empty ticket).run ticketCalls).isSet "price" = false ∧
      ((Draft.empty ticket).run ticketCalls).finish = .error (.missingField "Ticket" "holder") ∧
      ((Draft.empty ticket).run (ticketCalls ++ [.setAt 3 (.string "Ada")])).finish
        = .ok ⟨"Ticket", [("seat", .string "12a"), ("price", .long 5), ("note", .null),
            ("holder", .string "Ada")]⟩ ∧
      ∃ bytes, ticket.encode ⟨"Ticket", [("seat", .string "12a"), ("price", .long 5),
        ("note", .null), ("holder", .string "Ada")]⟩ = .ok bytes := by
  have hfinish : ((Draft.empty ticket).run (ticketCalls ++ [.setAt 3 (.string "Ada")])).finish
      = .ok ⟨"Ticket", [("seat", .string "12a"), ("price", .long 5), ("note", .null),
          ("holder", .string "Ada")]⟩ := rfl
  obtain ⟨hset, -⟩ := @Draft.run_refines_sheet ticket rfl ticketCalls
  obtain ⟨-, -, -, -, hrecord, -⟩ :=
    @Draft.run_refines_sheet ticket rfl (ticketCalls ++ [.setAt 3 (.string "Ada")])
  obtain ⟨-, -, -, -, hbytes⟩ := hrecord _ hfinish
  exact ⟨(hset "seat").1, (hset "price").2, rfl, hfinish, hbytes⟩

end RecordExchange
