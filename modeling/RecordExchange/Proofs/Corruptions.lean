import RecordExchange.Proofs.Shortcut

/-!
# Where schemas agree, only the bytes can be at fault

A reader may find that the bytes are no message, that the writer's schema does not fit its own, or
that a field is missing. When both schemas have the same canonical form, the second and the third
cannot happen: every type is read as itself, every symbol of the writer is one of the reader's, and
as an order names each field once, no slot stays empty. Passing over a value asks for nothing but its
bytes to begin with.

- `Decoder.FailsCorrupt`: a decoder fails only because the bytes are no message.
- `Decoder.ensures_named_filled`, `exists_fillSlots`: no field is missing.
- `FieldType.failsCorrupt_skip`, `FieldType.failsCorrupt_decodeFrom`,
  `Schema.failsCorrupt_decodeFrom`: how passing over and reading fail.
-/

namespace RecordExchange

/-! ## Failing for the bytes only -/

namespace Decoder

variable {α β : Type}

/-- Whatever the bytes, if a decoder fails then because they are no message. -/
def FailsCorrupt (d : Decoder α) : Prop :=
  ∀ c e after, d.run c = .error e after → ∃ cause, e = .corrupt cause

theorem failsCorrupt_pure (a : α) : (pure a : Decoder α).FailsCorrupt := by
  intro c e after hrun
  cases hrun

theorem failsCorrupt_corrupt (cause : Corruption) : (corrupt cause : Decoder α).FailsCorrupt := by
  intro c e after hrun
  cases hrun
  exact ⟨cause, rfl⟩

/-- What the first part ensures may be used for the second one. -/
theorem FailsCorrupt.bind_of {d : Decoder α} {k : α → Decoder β} {P : α → Prop}
    (h : d.FailsCorrupt) (hd : d.Ensures P) (hk : ∀ a, P a → (k a).FailsCorrupt) :
    (d >>= k).FailsCorrupt := by
  intro c e after hrun
  rcases run_bind_eq_error hrun with hfirst | ⟨a, between, hfirst, hsecond⟩
  · exact h c e after hfirst
  · exact hk a (hd c a between hfirst) between e after hsecond

theorem FailsCorrupt.bind {d : Decoder α} {k : α → Decoder β} (h : d.FailsCorrupt)
    (hk : ∀ a, (k a).FailsCorrupt) : (d >>= k).FailsCorrupt :=
  h.bind_of (ensures_true d) fun a _ => hk a

theorem FailsCorrupt.map {d : Decoder α} (h : d.FailsCorrupt) (f : α → β) :
    (f <$> d).FailsCorrupt := by
  rw [map_eq_pure_bind]
  exact h.bind fun a => failsCorrupt_pure (f a)

theorem FailsCorrupt.ite {p : Prop} [Decidable p] {d d' : Decoder α} (h : d.FailsCorrupt)
    (h' : d'.FailsCorrupt) : (if p then d else d').FailsCorrupt := by
  split
  · exact h
  · exact h'

theorem failsCorrupt_offset : offset.FailsCorrupt := by
  intro c e after hrun
  cases hrun

theorem failsCorrupt_remaining : remaining.FailsCorrupt := by
  intro c e after hrun
  cases hrun

theorem failsCorrupt_byte : byte.FailsCorrupt := by
  rintro ⟨rest, start⟩ e after hrun
  cases rest <;> cases hrun
  exact ⟨_, rfl⟩

theorem failsCorrupt_take (n : Nat) : (take n).FailsCorrupt := by
  intro c e after hrun
  have htake : (take n).run c = if n ≤ c.remaining then _ else _ := rfl
  rw [htake] at hrun
  split at hrun <;> cases hrun
  exact ⟨_, rfl⟩

theorem failsCorrupt_orCorrupt (cause : Corruption) (x : Option α) :
    (orCorrupt cause x).FailsCorrupt := by
  cases x with
  | none => exact failsCorrupt_corrupt cause
  | some a => exact failsCorrupt_pure a

theorem FailsCorrupt.times {d : Decoder α} (h : d.FailsCorrupt) (n : Nat) :
    (d.times n).FailsCorrupt := by
  induction n with
  | zero => exact failsCorrupt_pure []
  | succ n ih =>
    rw [Decoder.times]
    exact h.bind fun a => ih.bind fun as => failsCorrupt_pure (a :: as)

theorem failsCorrupt_foldlM {f : β → α → Decoder β} (hf : ∀ b a, (f b a).FailsCorrupt)
    (l : List α) (b : β) : (l.foldlM f b).FailsCorrupt := by
  induction l generalizing b with
  | nil => exact failsCorrupt_pure b
  | cons a rest ih =>
    rw [List.foldlM_cons]
    exact (hf b a).bind ih

end Decoder

/-! ## Primitive forms -/

namespace Wire

open Decoder

theorem failsCorrupt_decodeGroups (start : Nat) : ∀ left shift sum,
    (decodeGroups start left shift sum).FailsCorrupt := by
  intro left
  induction left with
  | zero => exact fun shift sum => failsCorrupt_corrupt _
  | succ left ih =>
    intro shift sum
    rw [decodeGroups]
    refine failsCorrupt_byte.bind fun b => .ite (failsCorrupt_corrupt _) (.ite ?_ (ih _ _))
    exact .ite (failsCorrupt_corrupt _) (failsCorrupt_pure _)

theorem failsCorrupt_decodeVarint : decodeVarint.FailsCorrupt :=
  failsCorrupt_offset.bind fun start => failsCorrupt_decodeGroups start maxGroups 0 0

theorem failsCorrupt_decodeLong : decodeLong.FailsCorrupt := failsCorrupt_decodeVarint.map unfold

theorem failsCorrupt_decodeInt : decodeInt.FailsCorrupt := by
  refine failsCorrupt_offset.bind fun start => failsCorrupt_decodeLong.bind fun n => ?_
  exact .ite (failsCorrupt_pure _) (failsCorrupt_corrupt _)

theorem failsCorrupt_decodeBool : decodeBool.FailsCorrupt := by
  refine failsCorrupt_offset.bind fun start => failsCorrupt_byte.bind fun b => ?_
  exact .ite (failsCorrupt_pure _) (.ite (failsCorrupt_pure _) (failsCorrupt_corrupt _))

theorem failsCorrupt_decodeFloat : decodeFloat.FailsCorrupt :=
  (failsCorrupt_take 4).bind fun _ => failsCorrupt_pure _

theorem failsCorrupt_decodeDouble : decodeDouble.FailsCorrupt :=
  (failsCorrupt_take 8).bind fun _ => failsCorrupt_pure _

theorem failsCorrupt_decodeLength : decodeLength.FailsCorrupt := by
  refine failsCorrupt_offset.bind fun start => failsCorrupt_decodeVarint.bind fun n => ?_
  refine failsCorrupt_remaining.bind fun left => ?_
  exact .ite (failsCorrupt_pure _) (failsCorrupt_corrupt _)

theorem failsCorrupt_decodeBytes : decodeBytes.FailsCorrupt :=
  failsCorrupt_decodeLength.bind fun n => failsCorrupt_take n

theorem failsCorrupt_decodeString : decodeString.FailsCorrupt := by
  refine failsCorrupt_offset.bind fun start => failsCorrupt_decodeBytes.bind fun bytes => ?_
  cases Utf8.decode bytes with
  | ok s => exact failsCorrupt_pure s
  | error fault => exact failsCorrupt_corrupt _

theorem failsCorrupt_decodeIndex : decodeIndex.FailsCorrupt :=
  failsCorrupt_decodeVarint.map UInt64.toNat

end Wire

open Decoder

theorem Header.failsCorrupt_decode : Header.decode.FailsCorrupt := by
  refine (failsCorrupt_take 2).bind fun found => .ite (failsCorrupt_corrupt _) ?_
  refine (failsCorrupt_take _).bind fun bytes => failsCorrupt_byte.bind fun flag => ?_
  refine .ite (failsCorrupt_pure _) (.ite ?_ (failsCorrupt_corrupt _))
  exact Wire.failsCorrupt_decodeString.bind fun text => failsCorrupt_pure _

/-! ## Parts of payloads -/

namespace FieldOrder

theorem failsCorrupt_decodeEntries (typeName : String) (size : Nat) : ∀ left seen,
    (decodeEntries typeName size left seen).FailsCorrupt := by
  intro left
  induction left with
  | zero => exact fun seen => failsCorrupt_pure []
  | succ left ih =>
    intro seen
    rw [decodeEntries]
    refine Wire.failsCorrupt_decodeIndex.bind fun i => .ite (failsCorrupt_corrupt _) ?_
    refine .ite (failsCorrupt_corrupt _) ?_
    exact (ih (i :: seen)).bind fun rest => failsCorrupt_pure (i :: rest)

theorem failsCorrupt_decode (writer : Schema) : (decode writer).FailsCorrupt := by
  refine failsCorrupt_byte.bind fun marker => .ite (failsCorrupt_pure _) (.ite ?_ ?_)
  · refine Wire.failsCorrupt_decodeLength.bind fun count => .ite (failsCorrupt_corrupt _) ?_
    exact failsCorrupt_decodeEntries writer.name writer.size count []
  · exact failsCorrupt_corrupt _

end FieldOrder

namespace Decoder

theorem failsCorrupt_branch : branch.FailsCorrupt := by
  refine failsCorrupt_offset.bind fun start => failsCorrupt_byte.bind fun b => ?_
  exact .ite (failsCorrupt_pure _) (.ite (failsCorrupt_pure _) (failsCorrupt_corrupt _))

theorem failsCorrupt_symbol (symbols : List String) : (symbol symbols).FailsCorrupt :=
  Wire.failsCorrupt_decodeIndex.bind fun _ => failsCorrupt_orCorrupt _ _

/-- A symbol that is read is one of the enumeration. -/
theorem ensures_symbol (symbols : List String) : (symbol symbols).Ensures (· ∈ symbols) :=
  ensures_bind fun _ => ensures_orCorrupt fun _ h => List.mem_of_getElem? h

theorem FailsCorrupt.entries {d : Decoder Value} (h : d.FailsCorrupt) (n : Nat)
    (found : List (String × Value)) : (entries d n found).FailsCorrupt := by
  induction n generalizing found with
  | zero => exact failsCorrupt_pure found
  | succ n ih =>
    rw [Decoder.entries]
    refine Wire.failsCorrupt_decodeString.bind fun key => h.bind fun v => ?_
    exact .ite (failsCorrupt_corrupt _) (ih _)

theorem failsCorrupt_each {steps : List (Decoder Unit)}
    (h : ∀ step ∈ steps, step.FailsCorrupt) (order : List Nat) :
    (each steps order).FailsCorrupt := by
  induction order with
  | nil => exact failsCorrupt_pure ()
  | cons i rest ih =>
    rw [each_cons]
    cases hi : steps[i]? with
    | none => exact failsCorrupt_corrupt _
    | some step => exact (h step (List.mem_of_getElem? hi)).bind fun _ => ih

end Decoder

/-! ## Passing over values -/

mutual

/-- Passing over a value fails only for its bytes. -/
theorem FieldType.failsCorrupt_skip : ∀ t : FieldType, t.skip.FailsCorrupt
  | .bool => Wire.failsCorrupt_decodeBool.bind fun _ => failsCorrupt_pure ()
  | .int => Wire.failsCorrupt_decodeInt.bind fun _ => failsCorrupt_pure ()
  | .long => Wire.failsCorrupt_decodeLong.bind fun _ => failsCorrupt_pure ()
  | .float => (failsCorrupt_take 4).bind fun _ => failsCorrupt_pure ()
  | .double => (failsCorrupt_take 8).bind fun _ => failsCorrupt_pure ()
  | .string => Wire.failsCorrupt_decodeString.bind fun _ => failsCorrupt_pure ()
  | .bytes => Wire.failsCorrupt_decodeBytes.bind fun _ => failsCorrupt_pure ()
  | .enum symbols => (failsCorrupt_symbol symbols).bind fun _ => failsCorrupt_pure ()
  | .optional inner => by
    rw [FieldType.skip]
    exact failsCorrupt_branch.bind fun present =>
      .ite inner.failsCorrupt_skip (failsCorrupt_pure ())
  | .list item => by
    rw [FieldType.skip]
    refine Wire.failsCorrupt_decodeLength.bind fun n => ?_
    exact (item.failsCorrupt_skip.times n).bind fun _ => failsCorrupt_pure ()
  | .map item => by
    rw [FieldType.skip]
    refine Wire.failsCorrupt_decodeLength.bind fun n => ?_
    have hentry := Wire.failsCorrupt_decodeString.bind fun _ => item.failsCorrupt_skip
    exact (hentry.times n).bind fun _ => failsCorrupt_pure ()
  | .record s => s.failsCorrupt_skip

theorem Schema.failsCorrupt_skip : ∀ s : Schema, s.skip.FailsCorrupt
  | ⟨name, fields⟩ => by
    rw [Schema.skip]
    exact (FieldOrder.failsCorrupt_decode _).bind fun order =>
      failsCorrupt_each (failsCorrupt_fieldSkips fields) order

theorem failsCorrupt_fieldSkips : ∀ fields : List Field, ∀ step ∈ fieldSkips fields,
    step.FailsCorrupt
  | [], _, hstep => absurd hstep List.not_mem_nil
  | ⟨_, type, _⟩ :: rest, step, hstep => by
    rcases List.mem_cons.mp hstep with rfl | hstep
    · exact type.failsCorrupt_skip
    · exact failsCorrupt_fieldSkips rest step hstep

end

/-! ## No field is missing -/

/-- The slot at a position holds a value. -/
def Filled (slots : List (Option Value)) (p : Nat) : Prop :=
  ∃ v, slots[p]? = some (some v)

theorem Filled.set {slots : List (Option Value)} {p : Nat} (h : Filled slots p) (q : Nat)
    (v : Value) : Filled (slots.set q (some v)) p := by
  obtain ⟨u, hu⟩ := h
  by_cases hpq : q = p
  · subst hpq
    exact ⟨v, List.getElem?_set_self (List.getElem?_eq_some_iff.mp hu).1⟩
  · exact ⟨u, by rw [List.getElem?_set_ne hpq, hu]⟩

/-- Where all slots hold a value, there is no field that could be missing. -/
theorem exists_fillSlots (typeName : String) : ∀ (fields : List Field)
    (slots : List (Option Value)), (∀ p < fields.length, Filled slots p) →
      ∃ entries, fillSlots typeName fields slots = .ok entries
  | [], _, _ => ⟨[], rfl⟩
  | _ :: _, [], _ => ⟨[], rfl⟩
  | f :: fields, slot :: slots, h => by
    obtain ⟨v, hv⟩ := h 0 (Nat.succ_pos _)
    obtain rfl : slot = some v := by simpa using hv
    obtain ⟨entries, hentries⟩ := exists_fillSlots typeName fields slots fun p hp => by
      obtain ⟨u, hu⟩ := h (p + 1) (Nat.succ_lt_succ hp)
      exact ⟨u, by rwa [List.getElem?_cons_succ] at hu⟩
    exact ⟨(f.name, v) :: entries, by rw [fillSlots, Option.some_or, hentries]; rfl⟩

namespace Decoder

variable {writer reader : Schema} {wanted : FieldDecoders}

/-- The loop over the values of a record keeps every slot that holds a value, and leaves a value in
the slot of every wanted field that the order names. -/
theorem ensures_named_filled : ∀ (order : List Nat) (slots : List (Option Value)),
    slots.length = reader.size →
      (order.foldlM (named writer reader wanted) slots).Ensures fun filled =>
        (∀ p, Filled slots p → Filled filled p) ∧
          ∀ i ∈ order, ∀ w p, writer.fields[i]? = some w → reader.position? w.name = some p →
            Filled filled p := by
  intro order
  induction order with
  | nil =>
    exact fun slots _ => ensures_pure ⟨fun p hp => hp, fun i hi => absurd hi List.not_mem_nil⟩
  | cons i rest ih =>
    intro slots hlength
    rw [List.foldlM_cons]
    -- One round keeps what is there and fills the slot that its own index leads to.
    have hround : (named writer reader wanted slots i).Ensures fun next =>
        next.length = reader.size ∧ (∀ p, Filled slots p → Filled next p) ∧
          ∀ w p, writer.fields[i]? = some w → reader.position? w.name = some p → Filled next p := by
      rw [named]
      refine (ensures_orCorrupt fun w hw => hw).bind fun w hw => ?_
      cases hposition : reader.position? w.name with
      | none =>
        refine ensures_bind fun _ => ensures_pure ⟨hlength, fun p hp => hp, ?_⟩
        intro w' p hw' hp
        rw [hw] at hw'
        cases hw'
        rw [hposition] at hp
        cases hp
      | some position =>
        refine ensures_bind fun read => ensures_bind fun v => ensures_pure ⟨?_, ?_, ?_⟩
        · rw [List.length_set, hlength]
        · exact fun p hp => hp.set position v
        · intro w' p hw' hp
          rw [hw] at hw'
          cases hw'
          rw [hposition] at hp
          cases hp
          have hlt : position < slots.length := by
            rw [hlength]
            exact (List.findIdx?_eq_some_iff_getElem.mp hposition).1
          exact ⟨v, List.getElem?_set_self hlt⟩
    refine hround.bind fun next hstep => ?_
    obtain ⟨hnext, hkept, hnew⟩ := hstep
    refine (ih next hnext).mono ?_
    rintro filled ⟨hrest, hothers⟩
    refine ⟨fun p hp => hrest p (hkept p hp), fun j hj w p hw hp => ?_⟩
    rcases List.mem_cons.mp hj with rfl | hj
    · exact hrest p (hnew w p hw hp)
    · exact hothers j hj w p hw hp

end Decoder

/-! ## Schemas with the same canonical form -/

namespace Schema

variable {writer reader : Schema}

/-- Schemas with the same canonical form have the same canonical fields, in some order. -/
theorem canonical_fields_perm (h : writer.canonical = reader.canonical) :
    (writer.fields.map Field.canonical).Perm (reader.fields.map Field.canonical) := by
  have hwriter := writer.fields_canonical_perm
  rw [h] at hwriter
  exact hwriter.symm.trans reader.fields_canonical_perm

/-- A field of one has a counterpart in the other. -/
theorem exists_field_of_canonical_eq (h : writer.canonical = reader.canonical) {w : Field}
    (hw : w ∈ writer.fields) : ∃ f ∈ reader.fields, f.name = w.name ∧
      f.type.canonical = w.type.canonical := by
  have hmem := (canonical_fields_perm h).mem_iff.mp (List.mem_map_of_mem hw)
  obtain ⟨f, hf, hcanonical⟩ := List.mem_map.mp hmem
  have hname : f.canonical.name = w.canonical.name := by rw [hcanonical]
  have htype : f.canonical.type = w.canonical.type := by rw [hcanonical]
  exact ⟨f, hf, hname, htype⟩

end Schema

namespace Decoder

variable {writer reader : Schema} {wanted : FieldDecoders}

/-- Reading a record by names fails only for its bytes when both schemas have the same canonical
form, and when reading a field that was written with such a type does. -/
theorem failsCorrupt_record (hreader : reader.NamesDistinct)
    (hcanonical : writer.canonical = reader.canonical)
    (hwanted : ∀ (p : Nat) read, wanted[p]? = some read → ∃ f, reader.fields[p]? = some f ∧
      ∀ written, written.canonical = f.type.canonical → (read written).FailsCorrupt) :
    (record writer reader wanted).FailsCorrupt := by
  have hname : writer.name = reader.name := by
    rw [← writer.name_canonical, hcanonical, reader.name_canonical]
  rw [record_eq_recordBy_named hreader, recordBy, if_neg (fun hne => hne hname)]
  refine (FieldOrder.failsCorrupt_decode writer).bind_of (FieldOrder.ensures_decode writer)
    fun order horder => ?_
  -- A round reads one field as its counterpart.
  have hround : ∀ slots index, (named writer reader wanted slots index).FailsCorrupt := by
    intro slots index
    rw [named]
    refine (failsCorrupt_orCorrupt _ _).bind_of (ensures_orCorrupt fun _ hw => hw) fun w hw => ?_
    cases hposition : reader.position? w.name with
    | none => exact w.type.failsCorrupt_skip.bind fun _ => failsCorrupt_pure slots
    | some p =>
      refine (failsCorrupt_orCorrupt _ _).bind_of (ensures_orCorrupt fun _ hr => hr)
        fun read hread => ?_
      obtain ⟨f, hf, hreads⟩ := hwanted p read hread
      obtain ⟨g, hg, hgname, htype⟩ :=
        Schema.exists_field_of_canonical_eq hcanonical (List.mem_of_getElem? hw)
      obtain ⟨f', hf', hfname, -⟩ := Schema.find?_eq_some_of_position? hposition
      obtain rfl : f = f' := Option.some.inj (hf.symm.trans hf')
      obtain rfl := eq_of_name_eq hreader hg (List.mem_of_getElem? hf) (hgname.trans hfname.symm)
      exact (hreads w.type htype.symm).bind fun v => failsCorrupt_pure _
  have hempty : (reader.fields.map fun _ => (none : Option Value)).length = reader.size := by
    rw [List.length_map, Schema.size]
  refine (failsCorrupt_foldlM hround order _).bind_of (ensures_named_filled order _ hempty)
    fun filled hloop => ?_
  -- Each wanted field has a counterpart, which the order names.
  obtain ⟨entries, hentries⟩ := exists_fillSlots reader.name reader.fields filled fun p hp => by
    have hf : reader.fields[p]? = some reader.fields[p] := List.getElem?_eq_getElem hp
    obtain ⟨w, hw, hwname, -⟩ :=
      Schema.exists_field_of_canonical_eq hcanonical.symm (List.mem_of_getElem? hf)
    obtain ⟨i, hi⟩ := List.mem_iff_getElem?.mp hw
    have hnamed : i ∈ order := horder.mem_iff.mpr
      (List.mem_range.mpr (List.getElem?_eq_some_iff.mp hi).1)
    refine hloop.2 i hnamed w p hi ?_
    rw [hwname]
    exact hreader.position?_eq hf
  rw [hentries]
  exact failsCorrupt_pure _

end Decoder

mutual

/-- A value that was written as a type with the same canonical form fails to be read only for its
bytes. -/
theorem FieldType.failsCorrupt_decodeFrom (typeName field : String) : ∀ wanted : FieldType,
    wanted.WellFormed → ∀ written, written.canonical = wanted.canonical →
      (wanted.decodeFrom typeName field written).FailsCorrupt
  | .bool, _, written, hcanonical => by
    cases written <;> cases hcanonical
    exact Wire.failsCorrupt_decodeBool.map _
  | .int, _, written, hcanonical => by
    cases written <;> cases hcanonical
    exact Wire.failsCorrupt_decodeInt.map _
  | .long, _, written, hcanonical => by
    cases written <;> cases hcanonical
    exact Wire.failsCorrupt_decodeLong.map _
  | .float, _, written, hcanonical => by
    cases written <;> cases hcanonical
    exact Wire.failsCorrupt_decodeFloat.map _
  | .double, _, written, hcanonical => by
    cases written <;> cases hcanonical
    exact Wire.failsCorrupt_decodeDouble.map _
  | .string, _, written, hcanonical => by
    cases written <;> cases hcanonical
    exact Wire.failsCorrupt_decodeString.map _
  | .bytes, _, written, hcanonical => by
    cases written <;> cases hcanonical
    exact Wire.failsCorrupt_decodeBytes.map _
  | .enum symbols, _, written, hcanonical => by
    cases written <;> cases hcanonical
    rw [FieldType.decodeFrom]
    -- Both have the same symbols, so that the one that was read is known.
    refine (failsCorrupt_symbol symbols).bind_of (ensures_symbol symbols) fun s hs => ?_
    rw [if_pos (List.contains_iff_mem.mpr hs)]
    exact failsCorrupt_pure _
  | .optional inner, h, written, hcanonical => by
    cases written with
    | optional w =>
      have hinner := inner.failsCorrupt_decodeFrom typeName field h w
        (FieldType.optional.inj hcanonical)
      rw [FieldType.decodeFrom]
      exact failsCorrupt_branch.bind fun present => .ite hinner (failsCorrupt_pure Value.null)
    | _ => cases hcanonical
  | .list item, h, written, hcanonical => by
    cases written with
    | list w =>
      have hitem := item.failsCorrupt_decodeFrom typeName field h w (FieldType.list.inj hcanonical)
      rw [FieldType.decodeFrom]
      exact Wire.failsCorrupt_decodeLength.bind fun n => (hitem.times n).map _
    | _ => cases hcanonical
  | .map item, h, written, hcanonical => by
    cases written with
    | map w =>
      have hitem := item.failsCorrupt_decodeFrom typeName field h w (FieldType.map.inj hcanonical)
      rw [FieldType.decodeFrom]
      exact Wire.failsCorrupt_decodeLength.bind fun n => (hitem.entries n []).map _
    | _ => cases hcanonical
  | .record reader, h, written, hcanonical => by
    cases written with
    | record writer =>
      exact (reader.failsCorrupt_decodeFrom h writer (FieldType.record.inj hcanonical)).map _
    | _ => cases hcanonical
termination_by structural wanted => wanted

/-- A record that was written with a schema of the same canonical form fails to be read only for its
bytes. -/
theorem Schema.failsCorrupt_decodeFrom : ∀ reader : Schema, reader.WellFormed → ∀ writer,
    writer.canonical = reader.canonical → (reader.decodeFrom writer).FailsCorrupt
  | ⟨name, fields⟩, h, writer, hcanonical => by
    refine failsCorrupt_record h.namesDistinct hcanonical fun p read hread => ?_
    rw [fieldDecoders_eq_map, List.getElem?_map] at hread
    obtain ⟨f, hf, rfl⟩ := Option.map_eq_some_iff.mp hread
    exact ⟨f, hf, failsCorrupt_decodeFrom_of_mem name fields h.2.2 f (List.mem_of_getElem? hf)⟩
termination_by structural reader => reader

theorem failsCorrupt_decodeFrom_of_mem (typeName : String) : ∀ fields : List Field,
    WellFormedFields fields → ∀ f ∈ fields, ∀ written, written.canonical = f.type.canonical →
      (f.type.decodeFrom typeName f.name written).FailsCorrupt
  | [], _, _, hf => absurd hf List.not_mem_nil
  | ⟨name, type, dflt⟩ :: rest, h, f, hf => by
    rcases List.mem_cons.mp hf with rfl | hf
    · exact type.failsCorrupt_decodeFrom typeName name h.1.2.1
    · exact failsCorrupt_decodeFrom_of_mem typeName rest h.2 f hf
termination_by structural fields => fields

end

end RecordExchange
