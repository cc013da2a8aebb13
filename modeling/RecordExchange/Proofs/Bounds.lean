import Mathlib.Data.List.Forall2
import RecordExchange.Proofs.Following
import RecordExchange.Proofs.Shortcut

/-!
# Nothing that is sent leads out of bounds

A reader of a buffer follows the tables, counts and indices of whoever has sent the bytes, and the
schemas may be forged as well. Still it never reads in front of its position or behind the end of the
buffer, never looks up what is not there and never shifts by more bits than a word has. What it answers
is what the decoder answers that cannot do such things in the first place.

- `BufferReader.follows_orderEntries`: the marks of a table, which say what is in the list of the
  decoder.
- `BufferReader.positionsIn?_eq`, `Schema.positionsIn?_bounds`: the table of places.
- `BufferReader.AllFollow.follows_record`: a record, by places and by names.
- `FieldType.follows_readAs`, `Schema.follows_readAs`, `FieldType.follows_passOver`: by recursion.
- `ReaderCall.answers_within_bounds`: any sequence of calls.
-/

namespace RecordExchange

namespace BufferReader

/-! ## Parts of payloads -/

theorem follows_symbol (symbols : List String) :
    Follows (symbol symbols) (Decoder.symbol symbols) :=
  follows_index.bind fun _ => follows_orCorrupt id _

theorem Follows.entries {g : BufferReader Value} {d : Decoder Value} (h : Follows g d) (n : Nat)
    (found : List (String × Value)) : Follows (entries g n found) (Decoder.entries d n found) := by
  induction n generalizing found with
  | zero => exact follows_pure found
  | succ n ih =>
    refine follows_string.bind fun key => h.bind fun v => ?_
    exact .ite (follows_corrupt id) (ih _)

/-- The marks say which fields have been named. There are as many as fields, so that an index of a field
is one of a mark. -/
theorem follows_orderEntries (typeName : String) (left : Nat) (marks : List Bool)
    (seen : List Nat) (hmarks : ∀ i < marks.length, marks[i]? = some (seen.contains i)) :
    Follows (orderEntries typeName left marks)
      (FieldOrder.decodeEntries typeName marks.length left seen) := by
  -- By the number of indices left; the marks agree with the list of those seen.
  induction left generalizing marks seen with
  | zero => exact follows_pure []
  | succ left ih =>
    refine follows_index.bind fun i => ?_
    by_cases hi : marks.length ≤ i
    · rw [if_pos hi, List.getElem?_eq_none hi]
      exact follows_corrupt id
    have hlt := Nat.lt_of_not_le hi
    rw [if_neg hi, hmarks i hlt]
    cases hseen : seen.contains i with
    | true => exact follows_corrupt id
    | false =>
      -- Setting one mark is adding one index to those seen.
      have hnext : ∀ j < (marks.set i true).length,
          (marks.set i true)[j]? = some ((i :: seen).contains j) := by
        intro j hj
        rw [List.length_set] at hj
        by_cases hij : i = j
        · subst hij
          rw [List.getElem?_set_self hlt, List.contains_cons, beq_self_eq_true, Bool.true_or]
        · rw [List.getElem?_set_ne hij, hmarks j hj, List.contains_cons,
            beq_eq_false_iff_ne.mpr (Ne.symm hij), Bool.false_or]
      have hrest := ih (marks.set i true) (i :: seen) hnext
      rw [List.length_set] at hrest
      show Follows (store marks i true >>= fun marks => orderEntries typeName left marks >>= _) _
      rw [store_of_lt hlt, pure_bind]
      exact hrest.bind fun rest => follows_pure (i :: rest)

theorem follows_fieldOrder (writer : Schema) :
    Follows (fieldOrder writer) (FieldOrder.decode writer) := by
  refine follows_byte.bind fun marker => .ite (follows_pure _) (.ite ?_ (follows_corrupt id))
  refine follows_length.bind fun count => ?_
  by_cases hcount : count = writer.size
  · have hentries := follows_orderEntries writer.name count (List.replicate count false) []
      fun i hi => by
        rw [List.length_replicate] at hi
        rw [List.getElem?_replicate_of_lt hi]
        rfl
    rw [List.length_replicate] at hentries
    rw [if_neg (not_not.mpr hcount), if_neg (not_not.mpr hcount), ← hcount]
    exact hentries
  · rw [if_pos hcount, if_pos hcount]
    exact follows_corrupt id

theorem each_cons (steps : List (BufferReader Unit)) (i : Nat) (order : List Nat) :
    each steps (i :: order)
      = (pick steps i >>= fun step => step >>= fun _ => each steps order) := by
  simp [each]

theorem follows_each {steps : List (BufferReader Unit)} {steps' : List (Decoder Unit)}
    (h : List.Forall₂ Follows steps steps') (order : List Nat)
    (horder : ∀ i ∈ order, i < steps.length) :
    Follows (each steps order) (Decoder.each steps' order) := by
  induction order with
  | nil => exact follows_pure ()
  | cons i rest ih =>
    have hi : i < steps.length := horder i List.mem_cons_self
    have hi' : i < steps'.length := h.length_eq ▸ hi
    rw [each_cons, Decoder.each_cons, pick_of_lt hi, orCorrupt_of_lt hi', pure_bind, pure_bind]
    exact (h.get hi hi').bind fun _ => ih fun j hj => horder j (List.mem_cons_of_mem i hj)

end BufferReader

open BufferReader

/-! ## Passing over values -/

mutual

/-- A value is passed over without a fault, where the decoder passes over it. -/
theorem FieldType.follows_passOver : ∀ t : FieldType, Follows t.passOver t.skip
  | .bool => follows_bool.bind fun _ => follows_pure ()
  | .int => follows_int.bind fun _ => follows_pure ()
  | .long => follows_long.bind fun _ => follows_pure ()
  | .float => (follows_take 4).bind fun _ => follows_pure ()
  | .double => (follows_take 8).bind fun _ => follows_pure ()
  | .string => follows_string.bind fun _ => follows_pure ()
  | .bytes => follows_bytes.bind fun _ => follows_pure ()
  | .enum symbols => (follows_symbol symbols).bind fun _ => follows_pure ()
  | .optional inner => by
    rw [FieldType.passOver, FieldType.skip]
    exact follows_branch.bind fun present => .ite inner.follows_passOver (follows_pure ())
  | .list item => by
    rw [FieldType.passOver, FieldType.skip]
    refine follows_length.bind fun n => ?_
    exact (item.follows_passOver.times n).bind fun _ => follows_pure ()
  | .map item => by
    rw [FieldType.passOver, FieldType.skip]
    refine follows_length.bind fun n => ?_
    have hentry := follows_string.bind fun _ => item.follows_passOver
    exact (hentry.times n).bind fun _ => follows_pure ()
  | .record s => s.follows_passOver

theorem Schema.follows_passOver : ∀ s : Schema, Follows s.passOver s.skip
  | ⟨name, fields⟩ => by
    rw [Schema.passOver, Schema.skip]
    have hsteps := follows_fieldPasses fields
    have hsize : (fieldPasses fields).length = fields.length := by
      rw [hsteps.length_eq, fieldSkips_eq_map, List.length_map]
    -- The order of a record has been read, so that it names fields only.
    refine (follows_fieldOrder _).bind_of (FieldOrder.ensures_decode _) fun order horder => ?_
    refine follows_each hsteps order fun i hi => ?_
    rw [hsize]
    exact List.mem_range.mp (horder.subset hi)

theorem follows_fieldPasses : ∀ fields : List Field,
    List.Forall₂ Follows (fieldPasses fields) (fieldSkips fields)
  | [] => .nil
  | ⟨_, type, _⟩ :: rest => .cons type.follows_passOver (follows_fieldPasses rest)

end

/-! ## Finding the wanted fields -/

namespace BufferReader

variable {writer reader : Schema}

/-- The places are noted without a fault. A canonical position is compared with the size of the writer
before a place is noted at it, and there are as many places. -/
theorem placeFields_eq (hsize : writer.size = reader.size) : ∀ (fields : List Field)
    (position : Nat) (places : List Nat), reader.fields.drop position = fields →
      places.length = reader.size →
      placeFields writer reader position (fields.map fun f => reader.canonicalIndex f.name) places
        = pure (writer.placeFields reader position fields places)
  | [], _, _, _, _ => rfl
  | f :: rest, position, places, hdrop, hlength => by
    -- The position is one of the reader's fields, so looking it up is no fault.
    have hlt : position < reader.fields.length := by
      refine Nat.lt_of_not_le fun hle => ?_
      rw [List.drop_eq_nil_of_le hle] at hdrop
      cases hdrop
    rw [List.drop_eq_getElem_cons hlt] at hdrop
    obtain ⟨rfl, hrest⟩ := List.cons.inj hdrop
    rw [List.map_cons, placeFields, Schema.placeFields]
    cases hw : writer.fields[reader.canonicalIndex reader.fields[position].name]? with
    | none => rfl
    | some w =>
      -- The writer has a field there, and so has the list of places, which is as long.
      have hindex : reader.canonicalIndex reader.fields[position].name < places.length := by
        rw [hlength, ← hsize]
        exact (List.getElem?_eq_some_iff.mp hw).1
      show (pick reader.fields position >>= _) = _
      rw [pick_of_lt hlt, pure_bind]
      by_cases hname : w.name = reader.fields[position].name
      · rw [if_pos hname, store_of_lt hindex, pure_bind]
        show _ = pure (if w.name = reader.fields[position].name then _ else none)
        rw [if_pos hname]
        exact placeFields_eq hsize rest (position + 1) _ hrest (by rw [List.length_set, hlength])
      · rw [if_neg hname]
        show _ = pure (if w.name = reader.fields[position].name then _ else none)
        rw [if_neg hname]

theorem positionsIn?_eq (writer reader : Schema) :
    positionsIn? writer reader = pure (writer.positionsIn? reader) := by
  rw [positionsIn?, Schema.positionsIn?]
  by_cases hsize : writer.size = reader.size
  · rw [if_pos hsize, if_pos hsize]
    exact placeFields_eq hsize reader.fields 0 _ rfl List.length_replicate
  · rw [if_neg hsize, if_neg hsize]

end BufferReader

namespace Schema

variable {writer reader : Schema}

/-- Noting places keeps their number, and the new ones are positions of the fields. -/
theorem placeFields_bounds {size : Nat} : ∀ {fields : List Field} {position : Nat}
    {before places : List Nat}, placeFields writer reader position fields before = some places →
      position + fields.length ≤ size → (∀ p ∈ before, p < size) →
      places.length = before.length ∧ ∀ p ∈ places, p < size
  | [], _, _, _, h, _, hbefore => by
    cases h
    exact ⟨rfl, hbefore⟩
  | f :: rest, position, before, places, h, hsize, hbefore => by
    rw [List.length_cons] at hsize
    rw [placeFields] at h
    split at h
    next => cases h
    next w hw =>
      split at h
      next =>
        have hset : ∀ p ∈ before.set (reader.canonicalIndex f.name) position, p < size := by
          intro p hp
          rcases List.mem_or_eq_of_mem_set hp with hp | rfl
          · exact hbefore p hp
          · omega
        obtain ⟨hlength, hplaces⟩ := placeFields_bounds h (by omega) hset
        exact ⟨by rw [hlength, List.length_set], hplaces⟩
      next => cases h

/-- If there is a table of places, then both schemas have as many fields, the table has a place for each
of them, and all places are positions of the reader's fields. -/
theorem positionsIn?_bounds {places : List Nat} (h : writer.positionsIn? reader = some places) :
    writer.size = reader.size ∧ places.length = reader.size ∧ ∀ p ∈ places, p < reader.size := by
  rw [positionsIn?] at h
  by_cases hsize : writer.size = reader.size
  · rw [if_pos hsize] at h
    have hzero : ∀ p ∈ List.replicate reader.size 0, p < reader.size := by
      intro p hp
      obtain ⟨hne, rfl⟩ := List.mem_replicate.mp hp
      exact Nat.pos_of_ne_zero hne
    obtain ⟨hlength, hplaces⟩ := placeFields_bounds h (Nat.le_of_eq (Nat.zero_add _)) hzero
    exact ⟨hsize, by rw [hlength, List.length_replicate], hplaces⟩
  · rw [if_neg hsize] at h
    cases h

end Schema

/-! ## Reading records -/

namespace BufferReader

/-- Each reader follows the decoder for the same field, whatever type the value was written as. -/
def AllFollow (readers : FieldReaders) (decoders : FieldDecoders) : Prop :=
  List.Forall₂ (fun g d => ∀ written, Follows (g written) (d written)) readers decoders

section Records

variable {writer reader : Schema} {readers : FieldReaders} {decoders : FieldDecoders}
  {slots : List (Option Value)} {i : Nat}

/-- What is read for a field is put into its slot. -/
theorem AllFollow.fill (h : AllFollow readers decoders) {p : Nat} (hp : p < readers.length)
    (hp' : p < decoders.length) (hslots : p < slots.length) (written : FieldType) :
    Follows (readers[p] written >>= fun v => store slots p (some v))
      (decoders[p] written >>= fun v => pure (slots.set p (some v))) := by
  refine (h.get hp hp' written).bind fun v => ?_
  rw [store_of_lt hslots]
  exact follows_pure _

theorem AllFollow.follows_placed (h : AllFollow readers decoders) {places : List Nat}
    (hplaces : writer.positionsIn? reader = some places) (hreaders : readers.length = reader.size)
    (hslots : slots.length = reader.size) (hi : i < writer.size) :
    Follows (placed writer readers places slots i)
      (Decoder.placed writer decoders places slots i) := by
  obtain ⟨hsize, hlength, hbound⟩ := Schema.positionsIn?_bounds hplaces
  have hplace : i < places.length := by omega
  have hp : places[i] < reader.size := hbound _ (List.getElem_mem hplace)
  have hreader : places[i] < readers.length := by omega
  have hdecoder : places[i] < decoders.length := by
    rw [← h.length_eq]
    exact hreader
  rw [placed, Decoder.placed, pick_of_lt hplace, pure_bind, pick_of_lt hreader, pure_bind,
    pick_of_lt hi, pure_bind, orCorrupt_of_lt hi, pure_bind, orCorrupt_of_lt hplace, pure_bind,
    orCorrupt_of_lt hdecoder, pure_bind]
  exact h.fill hreader hdecoder (by omega) _

theorem AllFollow.follows_named (h : AllFollow readers decoders)
    (hreaders : readers.length = reader.size) (hslots : slots.length = reader.size)
    (hi : i < writer.size) :
    Follows (named writer reader readers slots i)
      (Decoder.named writer reader decoders slots i) := by
  have hlt : i < writer.fields.length := hi
  rw [named, Decoder.named, pick_of_lt hlt, pure_bind, orCorrupt_of_lt hlt, pure_bind]
  cases hposition : reader.position? writer.fields[i].name with
  | none => exact (FieldType.follows_passOver _).bind fun _ => follows_pure slots
  | some p =>
    obtain ⟨f, hf, -⟩ := Schema.find?_eq_some_of_position? hposition
    have hp : p < reader.size := (List.getElem?_eq_some_iff.mp hf).1
    have hreader : p < readers.length := by omega
    have hdecoder : p < decoders.length := by
      rw [← h.length_eq]
      exact hreader
    show Follows (pick readers p >>= _) (Decoder.orCorrupt _ decoders[p]? >>= _)
    rw [pick_of_lt hreader, pure_bind, orCorrupt_of_lt hdecoder, pure_bind]
    exact h.fill hreader hdecoder (by omega) _

theorem ensures_placed_length {places : List Nat} (hslots : slots.length = reader.size) :
    (Decoder.placed writer decoders places slots i).Ensures fun filled =>
      filled.length = reader.size := by
  rw [Decoder.placed]
  refine Decoder.ensures_bind fun w => Decoder.ensures_bind fun position => ?_
  refine Decoder.ensures_bind fun read => Decoder.ensures_bind fun v => Decoder.ensures_pure ?_
  rw [List.length_set, hslots]

theorem ensures_named_length (hslots : slots.length = reader.size) :
    (Decoder.named writer reader decoders slots i).Ensures fun filled =>
      filled.length = reader.size := by
  rw [Decoder.named]
  refine Decoder.ensures_bind fun w => ?_
  cases reader.position? w.name with
  | none => exact Decoder.ensures_bind fun _ => Decoder.ensures_pure hslots
  | some p =>
    refine Decoder.ensures_bind fun read => Decoder.ensures_bind fun v => Decoder.ensures_pure ?_
    rw [List.length_set, hslots]

/-- Either loop over the values of a record, for an order that names fields of the writer. -/
theorem AllFollow.follows_slots (h : AllFollow readers decoders)
    (hreaders : readers.length = reader.size) {order : List Nat}
    (horder : ∀ i ∈ order, i < writer.size) :
    Follows (BufferReader.slots writer reader readers order)
      (Decoder.slots writer reader decoders order) := by
  -- Either loop keeps the number of slots, which is what makes each step of it safe.
  have hempty : (reader.fields.map fun _ => (none : Option Value)).length = reader.size :=
    List.length_map _
  have hnamed : Follows (order.foldlM (named writer reader readers) (reader.fields.map fun _ => none))
      (order.foldlM (Decoder.named writer reader decoders) (reader.fields.map fun _ => none)) :=
    follows_foldlM (P := (·.length = reader.size)) (Q := (· < writer.size))
      (fun _ _ hslots hi => h.follows_named hreaders hslots hi)
      (fun _ _ hslots => ensures_named_length hslots) order _ hempty horder
  simp only [BufferReader.slots, Decoder.slots, positionsIn?_eq, pure_bind]
  by_cases hsame : writer.fingerprint = reader.fingerprint
  · rw [if_pos hsame, if_pos hsame]
    cases hplaces : writer.positionsIn? reader with
    | some places =>
      exact follows_foldlM (P := (·.length = reader.size)) (Q := (· < writer.size))
        (fun _ _ hslots hi => h.follows_placed hplaces hreaders hslots hi)
        (fun _ _ hslots => ensures_placed_length hslots) order _ hempty horder
    | none => exact hnamed
  · rw [if_neg hsame, if_neg hsame]
    exact hnamed

/-- A record of any schema, read with any other one. -/
theorem AllFollow.follows_record (h : AllFollow readers decoders)
    (hreaders : readers.length = reader.size) :
    Follows (record writer reader readers) (Decoder.record writer reader decoders) := by
  refine .ite (follows_mismatch _) ?_
  refine (follows_fieldOrder writer).bind_of (FieldOrder.ensures_decode writer) fun order horder => ?_
  refine (h.follows_slots hreaders fun i hi => List.mem_range.mp (horder.subset hi)).bind
    fun filled => ?_
  exact (follows_ofSchemaResult _).bind fun fields => follows_pure _

end Records

end BufferReader

/-! ## Reading values -/

mutual

/-- A value is read without a fault, where the decoder reads it, whatever it was written as. -/
theorem FieldType.follows_readAs (typeName field : String) : ∀ wanted written : FieldType,
    Follows (wanted.readAs typeName field written) (wanted.decodeFrom typeName field written)
  | .optional inner, written => by
    have hinner := inner.follows_readAs typeName field
    cases written with
    | optional w =>
      rw [FieldType.readAs, FieldType.decodeFrom]
      exact follows_branch.bind fun present => .ite (hinner w) (follows_pure _)
    | _ => exact hinner _
  -- A scalar is read as it was written, where that can be promoted.
  | .bool, written => by
    cases written with
    | bool => exact follows_bool.map _
    | _ => exact follows_mismatch _
  | .int, written => by
    cases written with
    | int => exact follows_int.map _
    | _ => exact follows_mismatch _
  | .long, written => by
    cases written with
    | int => exact follows_int.map _
    | long => exact follows_long.map _
    | _ => exact follows_mismatch _
  | .float, written => by
    cases written with
    | int => exact follows_int.map _
    | long => exact follows_long.map _
    | float => exact follows_float.map _
    | _ => exact follows_mismatch _
  | .double, written => by
    cases written with
    | int => exact follows_int.map _
    | long => exact follows_long.map _
    | float => exact follows_float.map _
    | double => exact follows_double.map _
    | _ => exact follows_mismatch _
  | .string, written => by
    cases written with
    | string => exact follows_string.map _
    | _ => exact follows_mismatch _
  | .bytes, written => by
    cases written with
    | bytes => exact follows_bytes.map _
    | _ => exact follows_mismatch _
  | .enum wanted, written => by
    cases written with
    | enum symbols =>
      rw [FieldType.readAs, FieldType.decodeFrom]
      exact (follows_symbol symbols).bind fun s => .ite (follows_pure _) (follows_mismatch _)
    | _ => exact follows_mismatch _
  | .list item, written => by
    cases written with
    | list w =>
      have hitem := item.follows_readAs typeName field w
      rw [FieldType.readAs, FieldType.decodeFrom]
      exact follows_length.bind fun n => (hitem.times n).map _
    | _ => exact follows_mismatch _
  | .map item, written => by
    cases written with
    | map w =>
      have hitem := item.follows_readAs typeName field w
      rw [FieldType.readAs, FieldType.decodeFrom]
      exact follows_length.bind fun n => (hitem.entries n []).map _
    | _ => exact follows_mismatch _
  | .record reader, written => by
    cases written with
    | record writer => exact (reader.follows_readAs writer).map _
    | _ => exact follows_mismatch _
termination_by structural wanted => wanted

/-- A record is read without a fault, where the decoder reads it, whatever schema it was written
with. -/
theorem Schema.follows_readAs : ∀ reader writer : Schema,
    Follows (reader.readAs writer) (reader.decodeFrom writer)
  | ⟨name, fields⟩, writer => by
    have hfields := follows_fieldReaders name fields
    refine hfields.follows_record ?_
    rw [hfields.length_eq, fieldDecoders_eq_map, List.length_map]
    rfl
termination_by structural reader => reader

theorem follows_fieldReaders (typeName : String) : ∀ fields : List Field,
    AllFollow (fieldReaders typeName fields) (fieldDecoders typeName fields)
  | [] => .nil
  | ⟨name, type, _⟩ :: rest =>
    .cons (type.follows_readAs typeName name) (follows_fieldReaders typeName rest)
termination_by structural fields => fields

end

theorem FieldType.follows_read : ∀ t : FieldType, Follows t.read t.decode
  | .bool => follows_bool.map _
  | .int => follows_int.map _
  | .long => follows_long.map _
  | .float => follows_float.map _
  | .double => follows_double.map _
  | .string => follows_string.map _
  | .bytes => follows_bytes.map _
  | .enum symbols => (follows_symbol symbols).map _
  | .optional inner => by
    rw [FieldType.read, FieldType.decode]
    exact follows_branch.bind fun present => .ite inner.follows_read (follows_pure _)
  | .list item => by
    rw [FieldType.read, FieldType.decode]
    exact follows_length.bind fun n => (item.follows_read.times n).map _
  | .map item => by
    rw [FieldType.read, FieldType.decode]
    exact follows_length.bind fun n => (item.follows_read.entries n []).map _
  | .record s => (s.follows_readAs s).map _

/-! ## Sequences of calls -/

section Attempts

variable {α : Type} {g : BufferReader α} {d : Decoder α} {buffer : List UInt8} {p n : Nat}

theorem BufferReader.runAt_attempt_of_ok {a : α} (h : g.runAt buffer p = .ok a n) :
    g.attempt.runAt buffer p = .ok (.ok a) n := by
  show g.attempt buffer p = _
  rw [BufferReader.attempt, h]

theorem BufferReader.runAt_attempt_of_error {e : ExchangeError}
    (h : g.runAt buffer p = .error (.error e) n) :
    g.attempt.runAt buffer p = .ok (.error e) n := by
  show g.attempt buffer p = _
  rw [BufferReader.attempt, h]

theorem Decoder.run_attempt_of_ok {c after : Cursor} {a : α} (h : d.run c = .ok a after) :
    d.attempt.run c = .ok (.ok a) after := by
  show d.attempt c = _
  rw [Decoder.attempt, h]

theorem Decoder.run_attempt_of_error {c after : Cursor} {e : ExchangeError}
    (h : d.run c = .error e after) : d.attempt.run c = .ok (.error e) after := by
  show d.attempt c = _
  rw [Decoder.attempt, h]

/-- After a failure the position is still one of the buffer, so that the next call may follow. -/
theorem BufferReader.Follows.runAt_attempt (h : Follows g d) (hp : p ≤ buffer.length) :
    ∃ reply n, p ≤ n ∧ n ≤ buffer.length ∧ g.attempt.runAt buffer p = .ok reply n ∧
      d.attempt.run (.within buffer p) = .ok reply (.within buffer n) ∧
      ∀ e, reply = .error e → ¬ e.Stray := by
  obtain ⟨n, hpn, hn, ⟨a, hg, hd⟩ | ⟨e, hg, hd, he⟩⟩ := h buffer p hp
  · refine ⟨.ok a, n, hpn, hn, runAt_attempt_of_ok hg, Decoder.run_attempt_of_ok hd, ?_⟩
    intro e he
    cases he
  · refine ⟨.error e, n, hpn, hn, runAt_attempt_of_error hg, Decoder.run_attempt_of_error hd, ?_⟩
    intro e' he'
    cases he'
    exact he

end Attempts

namespace ReaderCall

theorem follows_read (call : ReaderCall) : Follows call.read call.decode := by
  cases call with
  | remaining => exact follows_remaining.map _
  | finish => exact follows_finish.map _
  | length => exact follows_length.map _
  | array count => exact (follows_array count).map _
  | item form => exact (follows_item form).map _
  | fieldOrder writer => exact (follows_fieldOrder writer).map _
  | record writer reader => exact (reader.follows_readAs writer).map _
  | value t => exact t.follows_read.map _
  | skip t => exact t.follows_passOver.map _

/-- **Nothing that is sent leads out of bounds.** Take any bytes and any position of them, and make any
calls one after another, going on after failures: read numbers, texts, headers, field orders, values and
records, or pass over values, with whatever schemas, valid or not. None of them is at fault: the position
stays within the buffer, each part of it that is looked at is there, each index is one of what it is
looked up in, no difference is negative, no shift as wide as a word, and no number without an end. The
answers are those of the decoder, the positions never go back, and no answer is one that the decoder
gives for a stray index or a number without an end. -/
theorem answers_within_bounds (calls : List ReaderCall) {buffer : List UInt8} {start : Nat}
    (hstart : start ≤ buffer.length) :
    ∃ answers stop, (BufferReader.answers calls).runAt buffer start = .ok answers stop ∧
      (Decoder.answers calls).run (.within buffer start) = .ok answers (.within buffer stop) ∧
      answers.length = calls.length ∧
      (start :: answers.map Answer.position).Pairwise (· ≤ ·) ∧
      ∀ a ∈ answers, a.position ≤ buffer.length ∧ ∀ e, a.reply = .error e → ¬ e.Stray := by
  -- By the calls: each ends within the buffer, where the next one starts.
  induction calls generalizing start with
  | nil =>
    refine ⟨[], start, rfl, rfl, rfl, List.pairwise_singleton _ _, fun a ha => ?_⟩
    exact absurd ha List.not_mem_nil
  | cons call calls ih =>
    obtain ⟨reply, n, hle, hn, hread, hdecode, hreply⟩ := call.follows_read.runAt_attempt hstart
    obtain ⟨answers, stop, hanswers, hdecoded, hlength, hascending, hall⟩ := ih hn
    refine ⟨⟨reply, n⟩ :: answers, stop, ?_, ?_, ?_, ?_, ?_⟩
    · rw [BufferReader.answers, runAt_bind_of_ok hread, runAt_position_bind,
        runAt_bind_of_ok hanswers]
      rfl
    · rw [Decoder.answers, EStateM.run_bind, hdecode]
      show EStateM.run (Decoder.answers calls >>= fun answers => pure (⟨reply, n⟩ :: answers))
        (.within buffer n) = _
      rw [EStateM.run_bind, hdecoded]
      rfl
    · rw [List.length_cons, List.length_cons, hlength]
    · -- The later positions are behind the one after this call, and that is behind the start.
      refine List.pairwise_cons.mpr ⟨fun q hq => ?_, hascending⟩
      rcases List.mem_cons.mp hq with rfl | hq
      · exact hle
      · exact Nat.le_trans hle ((List.pairwise_cons.mp hascending).1 q hq)
    · intro a ha
      rcases List.mem_cons.mp ha with rfl | ha
      · exact ⟨hn, hreply⟩
      · exact hall a ha

/-- Two fields of one name. -/
def twins : Schema :=
  ⟨"Twins", [⟨"twin", .bool, none⟩, ⟨"twin", .int, none⟩]⟩

/-- A byte in front, a table that names a field that is not there, a number of too many bits, a record
with two fields of one name, and a byte too many. -/
def twinsInput : List UInt8 :=
  [9, 1, 2, 5, 0x80, 0x80, 0x80, 0x80, 0x80, 0x80, 0x80, 0x80, 0x80, 2, 1, 2, 1, 0, 6, 1, 3]

def twinsCalls : List ReaderCall :=
  [.record twins twins, .item .varint, .skip (.record twins), .finish]

/-- Each call starts where the one before it has stopped, also where that one has failed. -/
theorem answers_within_bounds_twins :
    1 ≤ twinsInput.length ∧
      (BufferReader.answers twinsCalls).runAt twinsInput 1
        = .ok [⟨.error (.corrupt (.orderOutOfBounds 5 "Twins" 2)), 4⟩,
          ⟨.error (.corrupt (.varintOverflow 4)), 14⟩, ⟨.ok .done, 20⟩,
          ⟨.error (.corrupt (.trailing 1 20)), 20⟩] 20 := by
  have hstart : 1 ≤ twinsInput.length := by decide
  obtain ⟨answers, stop, hread, hdecode, -⟩ := answers_within_bounds twinsCalls hstart
  have hrun : (Decoder.answers twinsCalls).run (.within twinsInput 1)
      = .ok [⟨.error (.corrupt (.orderOutOfBounds 5 "Twins" 2)), 4⟩,
        ⟨.error (.corrupt (.varintOverflow 4)), 14⟩, ⟨.ok .done, 20⟩,
        ⟨.error (.corrupt (.trailing 1 20)), 20⟩] ⟨[3], 20⟩ := rfl
  injection hdecode.symm.trans hrun with hanswers hafter
  have hstop : stop = 20 := congrArg Cursor.offset hafter
  rw [hanswers, hstop] at hread
  exact ⟨hstart, hread⟩

end ReaderCall

end RecordExchange
