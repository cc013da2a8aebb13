import RecordExchange.Proofs.Conformance

/-!
# The shortcut makes no difference

The loop over the values of a record finds the field of each value by its name, or in a table of
places that was made once for all fields. The table is used when the fingerprints of the two schemas
agree, and schemas with the same fingerprint need not have anything to do with each other. But
wherever there is a table at all, it leads to the fields that their names lead to, because the order
of the values names each field of the writer once and nothing else. So both loops read the same,
value by value, and where one stops the other one does.

- `FieldOrder.ensures_decode`: an order that is read names each field once.
- `Decoder.recordBy`: reading a record by a given loop.
- `Decoder.recordBy_placed_eq_recordBy_named`: with a table and by names, the same.
- `Schema.decodeFrom_eq_recordBy_named`: so a reader may do without the table.
-/

namespace RecordExchange

open Decoder

/-! ## Orders -/

namespace FieldOrder

/-- The table that is read has new entries within bounds, all different. -/
theorem ensures_decodeEntries (typeName : String) (size : Nat) : ∀ (left : Nat) (seen : List Nat),
    (decodeEntries typeName size left seen).Ensures fun order =>
      order.length = left ∧ order.Nodup ∧ ∀ i ∈ order, i < size ∧ i ∉ seen := by
  intro left
  induction left with
  | zero =>
    exact fun seen => ensures_pure ⟨rfl, List.nodup_nil, fun i hi => absurd hi List.not_mem_nil⟩
  | succ left ih =>
    intro seen
    rw [decodeEntries]
    refine ensures_bind fun i => ?_
    -- A place out of bounds or seen before is refused, so that one that is kept is neither.
    by_cases hbound : size ≤ i
    · rw [if_pos hbound]
      exact ensures_corrupt _
    rw [if_neg hbound]
    by_cases hseen : seen.contains i = true
    · rw [if_pos hseen]
      exact ensures_corrupt _
    rw [if_neg hseen]
    refine (ih (i :: seen)).bind fun rest htable => ?_
    obtain ⟨hlength, hnodup, hrest⟩ := htable
    refine ensures_pure ⟨?_, ?_, ?_⟩
    · rw [List.length_cons, hlength]
    · refine List.nodup_cons.mpr ⟨fun hmem => ?_, hnodup⟩
      exact (hrest i hmem).2 List.mem_cons_self
    · intro j hj
      rcases List.mem_cons.mp hj with rfl | hj
      · exact ⟨Nat.lt_of_not_le hbound, fun hmem => hseen (List.contains_iff_mem.mpr hmem)⟩
      · obtain ⟨hlt, hfresh⟩ := hrest j hj
        exact ⟨hlt, fun hmem => hfresh (List.mem_cons_of_mem i hmem)⟩

/-- Whatever the bytes, an order that is read names each field of the writer exactly once. -/
theorem ensures_decode (writer : Schema) :
    (decode writer).Ensures fun order => order.Perm (List.range writer.size) := by
  rw [decode]
  refine ensures_bind fun marker => ?_
  by_cases hcanonical : marker = 0
  · rw [if_pos hcanonical]
    exact ensures_pure (List.Perm.refl _)
  rw [if_neg hcanonical]
  by_cases htable : marker = 1
  · rw [if_pos htable]
    refine ensures_bind fun count => ?_
    by_cases hcount : count ≠ writer.size
    · rw [if_pos hcount]
      exact ensures_corrupt _
    rw [if_neg hcount]
    refine (ensures_decodeEntries _ _ _ _).mono ?_
    rintro order ⟨hlength, hnodup, horder⟩
    -- As many places as fields, all different and within bounds, so that none is left out.
    exact perm_range (hlength.trans (Decidable.not_not.mp hcount)) hnodup fun i hi => (horder i hi).1
  · rw [if_neg htable]
    exact ensures_corrupt _

end FieldOrder

/-! ## Records by either loop -/

namespace Decoder

variable {α β : Type}

/-- What comes second need only agree on what the first part may end with. -/
theorem Ensures.bind_congr {d : Decoder α} {P : α → Prop} {k k' : α → Decoder β}
    (h : d.Ensures P) (hk : ∀ a, P a → k a = k' a) : d >>= k = d >>= k' := by
  funext c
  show EStateM.run (d >>= k) c = EStateM.run (d >>= k') c
  rw [EStateM.run_bind, EStateM.run_bind]
  cases hd : d.run c with
  | error e after => rfl
  | ok a after => exact congrArg (EStateM.run · after) (hk a (h c a after hd))

/-- Reads a record that was written with one schema as a record of another by the given loop over its
values, of which `step` is one round. -/
def recordBy (writer reader : Schema)
    (step : List (Option Value) → Nat → Decoder (List (Option Value))) : Decoder Record := do
  if writer.name ≠ reader.name then mismatch (.writerName writer.name reader.name)
  else
    let order ← FieldOrder.decode writer
    let filled ← order.foldlM step (reader.fields.map fun _ => none)
    let fields ← ofSchemaResult (fillSlots reader.name reader.fields filled)
    return Record.ofFields reader.name fields

variable {writer reader : Schema}

theorem lt_size_of_perm_range {order : List Nat} (h : order.Perm (List.range writer.size)) :
    ∀ i ∈ order, i < writer.size :=
  fun _ hi => List.mem_range.mp (h.subset hi)

/-- The table of places, if there is one, and the names lead the loop the same way. -/
theorem recordBy_placed_eq_recordBy_named (hreader : reader.NamesDistinct) (wanted : FieldDecoders)
    {places : List Nat} (h : writer.positionsIn? reader = some places) :
    recordBy writer reader (placed writer wanted places)
      = recordBy writer reader (named writer reader wanted) := by
  simp only [recordBy]
  have hloop : ∀ order : List Nat, order.Perm (List.range writer.size) →
      order.foldlM (placed writer wanted places) (reader.fields.map fun _ => none)
        = order.foldlM (named writer reader wanted) (reader.fields.map fun _ => none) :=
    fun order horder =>
      foldlM_placed_eq_foldlM_named hreader h wanted order _ (lt_size_of_perm_range horder)
  rw [(FieldOrder.ensures_decode writer).bind_congr fun order horder => by rw [hloop order horder]]

/-- A record is read as by names, whether or not the fingerprints agree. -/
theorem record_eq_recordBy_named (hreader : reader.NamesDistinct) (wanted : FieldDecoders) :
    record writer reader wanted = recordBy writer reader (named writer reader wanted) := by
  simp only [record, recordBy]
  rw [(FieldOrder.ensures_decode writer).bind_congr fun order horder => by
    rw [slots_eq_foldlM_named hreader wanted (lt_size_of_perm_range horder)]]

end Decoder

theorem Schema.decodeFrom_eq_recordBy_named {writer reader : Schema}
    (hreader : reader.NamesDistinct) :
    reader.decodeFrom writer = recordBy writer reader
      (named writer reader (fieldDecoders reader.name reader.fields)) := by
  obtain ⟨name, fields⟩ := reader
  exact record_eq_recordBy_named hreader _

/-- A table of places leads from each field of the writer to the wanted field of its name. -/
theorem Schema.exists_place {writer reader : Schema} (hreader : reader.NamesDistinct)
    {places : List Nat} (h : writer.positionsIn? reader = some places) {i : Nat}
    (hi : i < writer.size) :
    ∃ w p f, writer.fields[i]? = some w ∧ places[i]? = some p ∧ reader.fields[p]? = some f ∧
      f.name = w.name := by
  have hw : writer.fields[i]? = some writer.fields[i] := List.getElem?_eq_getElem hi
  obtain ⟨p, hplace, hposition⟩ := position?_of_positionsIn? hreader h hw
  obtain ⟨f, hf, hname, -⟩ := find?_eq_some_of_position? hposition
  exact ⟨_, p, f, hw, hplace, hf, hname⟩

/-- **The shortcut makes no difference.** Take two schemas, related or not, of which the reader's has
no name twice. A table of places, if there is one, has one for every field that an order may name,
and reading with it ends as reading by names does: with the same record or with the same failure, and
with the cursor in the same place. So the reader, which chooses between the two by comparing
fingerprints, always ends as it would by names. -/
theorem Schema.decodeFrom_by_either_loop {writer reader : Schema} (hreader : reader.NamesDistinct)
    (c : Cursor) :
    let wanted := fieldDecoders reader.name reader.fields
    (∀ places, writer.positionsIn? reader = some places →
      (∀ i < writer.size, ∃ w p f, writer.fields[i]? = some w ∧ places[i]? = some p ∧
        reader.fields[p]? = some f ∧ f.name = w.name) ∧
      (recordBy writer reader (placed writer wanted places)).run c
        = (recordBy writer reader (named writer reader wanted)).run c) ∧
    (reader.decodeFrom writer).run c
      = (recordBy writer reader (named writer reader wanted)).run c := by
  refine ⟨fun places h => ⟨fun i hi => exists_place hreader h hi, ?_⟩, ?_⟩
  · rw [recordBy_placed_eq_recordBy_named hreader _ h]
  · rw [decodeFrom_eq_recordBy_named hreader]

/-- A pair as it was written. -/
def writtenPair : Schema :=
  ⟨"Pair", [⟨"flag", .bool, none⟩, ⟨"mark", .int, none⟩]⟩

/-- The same names with another type, declared the other way round. -/
def wantedPair : Schema :=
  ⟨"Pair", [⟨"mark", .optional .long, none⟩, ⟨"flag", .bool, none⟩]⟩

/-- There is a table for the pairs though they are different. With it and without it a pair is read
whose values follow in an order of their own, and where the last value is missing both stop at the
same byte. -/
theorem decodeFrom_by_either_loop_pair :
    writtenPair.positionsIn? wantedPair = some [1, 0] ∧
    (wantedPair.decodeFrom writtenPair).run ⟨[1, 2, 1, 0, 6, 1, 7], 20⟩
      = .ok ⟨"Pair", [("mark", .long 3), ("flag", .bool true)]⟩ ⟨[7], 26⟩ ∧
    (wantedPair.decodeFrom writtenPair).run ⟨[1, 2, 1, 0, 6], 20⟩
      = .error (.corrupt (.endOfInput 25 1 0)) ⟨[], 25⟩ := by
  have hreader : wantedPair.NamesDistinct := (wantedPair.check_eq_ok_iff.mp rfl).namesDistinct
  have hplaces : writtenPair.positionsIn? wantedPair = some [1, 0] := by decide
  refine ⟨hplaces, ?_, ?_⟩
  · obtain ⟨htable, hnames⟩ := @Schema.decodeFrom_by_either_loop writtenPair wantedPair hreader
      ⟨[1, 2, 1, 0, 6, 1, 7], 20⟩
    rw [hnames, ← (htable _ hplaces).2]
    rfl
  · obtain ⟨htable, hnames⟩ := @Schema.decodeFrom_by_either_loop writtenPair wantedPair hreader
      ⟨[1, 2, 1, 0, 6], 20⟩
    rw [hnames, ← (htable _ hplaces).2]
    rfl

end RecordExchange
