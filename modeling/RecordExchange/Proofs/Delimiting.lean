import RecordExchange.Proofs.Readers

/-!
# What is read depends on what is read

A decoder that ends with a value has read some bytes, and it ends with the same value in front of the
same bytes whatever else follows them, more than before or less. Counts are the one place where this
could fail, since a count is compared with all the bytes that are left, whoever they belong to. But
whatever is counted takes a byte at least, so that a count that was met by what follows it is not
refused for want of anything behind.

- `Decoder.Delimits`: what a decoder ends with depends on the bytes that it has read only, and these
  are so many at least.
- `Wire.delimits_length_bind`: the rule for counts.
- `Header.delimits_decode`, `FieldOrder.delimits_decode`, `FieldType.delimits_skip`,
  `FieldType.delimits_decodeFrom`, `Schema.delimits_decodeFrom`: headers and payloads, whether or
  not the schemas are valid and whether or not they agree.
- `Decoder.Delimits.run_append`: with further bytes behind.
-/

namespace RecordExchange

/-! ## Delimiting -/

namespace Decoder

variable {α β : Type} {m n : Nat}

/-- When the decoder ends with a value it has read at least `least` bytes, and in front of these bytes
it ends with the same value whatever follows them. -/
def Delimits (least : Nat) (d : Decoder α) : Prop :=
  ∀ c a after, d.run c = .ok a after → ∃ bytes, least ≤ bytes.length ∧
    c.rest = bytes ++ after.rest ∧
      ∀ suffix, d.run ⟨bytes ++ suffix, c.offset⟩ = .ok a ⟨suffix, c.offset + bytes.length⟩

/-- The bytes that were read are those between the two offsets. -/
theorem offset_eq_of_run {d : Decoder α} {c after : Cursor} {a : α} {bytes : List UInt8}
    (hrun : d.run c = .ok a after) (hrest : c.rest = bytes ++ after.rest)
    (h : ∀ suffix, d.run ⟨bytes ++ suffix, c.offset⟩
      = .ok a ⟨suffix, c.offset + bytes.length⟩) :
    after.offset = c.offset + bytes.length := by
  have hsame := h after.rest
  rw [← hrest] at hsame
  have hafter := hrun.symm.trans hsame
  injection hafter with _ hafter
  rw [hafter]

theorem Delimits.mono {d : Decoder α} (h : d.Delimits m) (hle : n ≤ m) : d.Delimits n := by
  intro c a after hrun
  obtain ⟨bytes, hlength, hrest⟩ := h c a after hrun
  exact ⟨bytes, Nat.le_trans hle hlength, hrest⟩

theorem delimits_pure (a : α) : (pure a : Decoder α).Delimits 0 := by
  intro c b after hrun
  cases hrun
  exact ⟨[], Nat.zero_le _, rfl, fun suffix => rfl⟩

theorem delimits_throw (e : ExchangeError) (n : Nat) : (throw e : Decoder α).Delimits n := by
  intro c a after hrun
  cases hrun

theorem delimits_corrupt (cause : Corruption) (n : Nat) :
    (corrupt cause : Decoder α).Delimits n :=
  delimits_throw _ n

theorem delimits_mismatch (cause : Mismatch) (n : Nat) :
    (mismatch cause : Decoder α).Delimits n :=
  delimits_throw _ n

/-- The bytes of two parts are those of the first one and those of the second one. -/
theorem Delimits.bind_add {d : Decoder α} {k : α → Decoder β} (h : d.Delimits m)
    (hk : ∀ a, (k a).Delimits n) : (d >>= k).Delimits (m + n) := by
  intro c b after hrun
  obtain ⟨a, between, hfirst, hsecond⟩ := run_bind_eq_ok hrun
  obtain ⟨first, hm, hrest, hd⟩ := h c a between hfirst
  obtain ⟨second, hn, hbetween, hka⟩ := hk a between b after hsecond
  have hoffset := offset_eq_of_run hfirst hrest hd
  refine ⟨first ++ second, ?_, ?_, fun suffix => ?_⟩
  · rw [List.length_append]
    omega
  · rw [hrest, hbetween, List.append_assoc]
  · rw [EStateM.run_bind, List.append_assoc, hd (second ++ suffix), ← hoffset, List.length_append,
      ← Nat.add_assoc, ← hoffset]
    exact hka suffix

/-- What comes second need not read anything. -/
theorem Delimits.bind {d : Decoder α} {k : α → Decoder β} (h : d.Delimits n)
    (hk : ∀ a, (k a).Delimits 0) : (d >>= k).Delimits n :=
  h.bind_add hk

theorem Delimits.map {d : Decoder α} (h : d.Delimits n) (f : α → β) : (f <$> d).Delimits n := by
  rw [map_eq_pure_bind]
  exact h.bind fun a => delimits_pure (f a)

theorem Delimits.ite {p : Prop} [Decidable p] {d d' : Decoder α} (h : d.Delimits n)
    (h' : d'.Delimits n) : (if p then d else d').Delimits n := by
  split
  · exact h
  · exact h'

theorem delimits_offset_bind {k : Nat → Decoder β} (h : ∀ start, (k start).Delimits n) :
    (offset >>= k).Delimits n :=
  fun c b after hrun => h c.offset c b after hrun

theorem delimits_byte : byte.Delimits 1 := by
  rintro ⟨rest, start⟩ b after hrun
  cases rest with
  | nil => cases hrun
  | cons first rest =>
    cases hrun
    exact ⟨[b], Nat.le_refl _, rfl, fun suffix => rfl⟩

theorem delimits_take (n : Nat) : (take n).Delimits n := by
  rintro ⟨rest, start⟩ bytes after hrun
  have htake : (take n).run ⟨rest, start⟩ = if n ≤ rest.length then _ else _ := rfl
  rw [htake] at hrun
  split at hrun
  next hn =>
    cases hrun
    have hlength : (rest.take n).length = n := List.length_take_of_le hn
    refine ⟨rest.take n, Nat.le_of_eq hlength.symm, (List.take_append_drop n rest).symm,
      fun suffix => ?_⟩
    exact yields_take hlength suffix start
  next => cases hrun

theorem delimits_orCorrupt (cause : Corruption) (x : Option α) :
    (orCorrupt cause x).Delimits 0 := by
  cases x with
  | none => exact delimits_corrupt cause 0
  | some a => exact delimits_pure a

theorem delimits_ofSchemaResult (x : Except SchemaError α) : (ofSchemaResult x).Delimits 0 := by
  cases x with
  | error e => exact delimits_throw _ 0
  | ok a => exact delimits_pure a

/-- So many times over, a decoder that reads something reads so many bytes. -/
theorem Delimits.times {d : Decoder α} (h : d.Delimits 1) (n : Nat) : (d.times n).Delimits n := by
  induction n with
  | zero => exact delimits_pure []
  | succ n ih =>
    rw [Decoder.times]
    have hround := h.bind_add fun a => ih.bind fun as => delimits_pure (a :: as)
    exact hround.mono (Nat.le_of_eq (Nat.add_comm n 1))

theorem delimits_foldlM {f : β → α → Decoder β} (hf : ∀ b a, (f b a).Delimits 0) (l : List α)
    (b : β) : (l.foldlM f b).Delimits 0 := by
  induction l generalizing b with
  | nil => exact delimits_pure b
  | cons a rest ih =>
    rw [List.foldlM_cons]
    exact (hf b a).bind ih

end Decoder

/-! ## Primitive forms -/

namespace Wire

open Decoder

theorem delimits_decodeGroups (start : Nat) : ∀ left shift sum,
    (decodeGroups start left shift sum).Delimits 1 := by
  intro left
  induction left with
  | zero => exact fun shift sum => delimits_corrupt _ 1
  | succ left ih =>
    intro shift sum
    rw [decodeGroups]
    refine delimits_byte.bind fun b => .ite (delimits_corrupt _ 0) (.ite ?_ ?_)
    · exact .ite (delimits_corrupt _ 0) (delimits_pure _)
    · exact (ih _ _).mono (Nat.zero_le 1)

theorem delimits_decodeVarint : decodeVarint.Delimits 1 :=
  delimits_offset_bind fun start => delimits_decodeGroups start maxGroups 0 0

theorem delimits_decodeLong : decodeLong.Delimits 1 := delimits_decodeVarint.map unfold

theorem delimits_decodeInt : decodeInt.Delimits 1 := by
  refine delimits_offset_bind fun start => delimits_decodeLong.bind fun n => ?_
  exact .ite (delimits_pure _) (delimits_corrupt _ 0)

theorem delimits_decodeBool : decodeBool.Delimits 1 := by
  refine delimits_offset_bind fun start => delimits_byte.bind fun b => ?_
  exact .ite (delimits_pure _) (.ite (delimits_pure _) (delimits_corrupt _ 0))

theorem delimits_decodeFloat : decodeFloat.Delimits 4 :=
  (delimits_take 4).bind fun _ => delimits_pure _

theorem delimits_decodeDouble : decodeDouble.Delimits 8 :=
  (delimits_take 8).bind fun _ => delimits_pure _

/-- A count ends where its number does, if so many bytes are left. -/
theorem run_decodeLength {c after : Cursor} {n : UInt64} (h : decodeVarint.run c = .ok n after)
    (hle : n.toNat ≤ after.rest.length) : decodeLength.run c = .ok n.toNat after := by
  show EStateM.run (decodeVarint >>= fun n => remaining >>= _) c = _
  rw [EStateM.run_bind, h]
  show EStateM.run (if n.toNat ≤ after.rest.length then _ else _) after = _
  rw [if_pos hle]
  rfl

/-- A count that is read is a number, and at least so many bytes are left. -/
theorem run_decodeVarint_of_decodeLength {c after : Cursor} {n : Nat}
    (h : decodeLength.run c = .ok n after) :
    ∃ v, decodeVarint.run c = .ok v after ∧ v.toNat = n ∧ n ≤ after.rest.length := by
  obtain ⟨start, _, hstart, h⟩ := run_bind_eq_ok h
  cases hstart
  obtain ⟨v, between, hv, h⟩ := run_bind_eq_ok h
  obtain ⟨left, _, hleft, h⟩ := run_bind_eq_ok h
  cases hleft
  refine ⟨v, ?_⟩
  by_cases hle : v.toNat ≤ between.remaining
  · rw [if_pos hle] at h
    cases h
    exact ⟨hv, rfl, hle⟩
  · rw [if_neg hle] at h
    cases h

/-- A count in front of what it counts. What follows it takes as many bytes, so that the count is met
by them alone and is not refused whatever comes behind. -/
theorem delimits_length_bind {β : Type} {k : Nat → Decoder β} (hk : ∀ n, (k n).Delimits n) :
    (decodeLength >>= k).Delimits 1 := by
  intro c b after hrun
  obtain ⟨n, between, hlength, hcounted⟩ := run_bind_eq_ok hrun
  obtain ⟨v, hvarint, rfl, -⟩ := run_decodeVarint_of_decodeLength hlength
  obtain ⟨first, hpos, hrest, hd⟩ := delimits_decodeVarint c v between hvarint
  obtain ⟨second, hmet, hbetween, hkv⟩ := hk v.toNat between b after hcounted
  have hoffset := offset_eq_of_run hvarint hrest hd
  refine ⟨first ++ second, ?_, ?_, fun suffix => ?_⟩
  · rw [List.length_append]
    omega
  · rw [hrest, hbetween, List.append_assoc]
  · have hleft : v.toNat ≤ (second ++ suffix).length := by
      rw [List.length_append]
      omega
    rw [EStateM.run_bind, List.append_assoc, run_decodeLength (hd (second ++ suffix)) hleft,
      ← hoffset, List.length_append, ← Nat.add_assoc, ← hoffset]
    exact hkv suffix

theorem delimits_decodeBytes : decodeBytes.Delimits 1 :=
  delimits_length_bind delimits_take

theorem delimits_decodeString : decodeString.Delimits 1 := by
  refine delimits_offset_bind fun start => delimits_decodeBytes.bind fun bytes => ?_
  cases Utf8.decode bytes with
  | ok s => exact delimits_pure s
  | error fault => exact delimits_corrupt _ 0

theorem delimits_decodeIndex : decodeIndex.Delimits 1 := delimits_decodeVarint.map UInt64.toNat

end Wire

open Decoder

theorem Header.delimits_decode : Header.decode.Delimits 1 := by
  have hbehind : ∀ fingerprint : Fingerprint, ∀ flag : UInt8,
      Delimits 0 (if flag = 0 then pure (⟨fingerprint, none⟩ : Header)
        else if flag = 1 then return ⟨fingerprint, some (← Wire.decodeString)⟩
        else corrupt (.badSchemaFlag flag)) := by
    intro fingerprint flag
    refine .ite (delimits_pure _) (.ite ?_ (delimits_corrupt _ 0))
    exact (Wire.delimits_decodeString.bind fun text => delimits_pure _).mono (Nat.zero_le 1)
  have hmarked : Delimits 0 (take Fingerprint.width >>= fun bytes => byte >>= fun flag => _) :=
    ((delimits_take Fingerprint.width).mono (Nat.zero_le _)).bind fun bytes =>
      (delimits_byte.mono (Nat.zero_le 1)).bind fun flag =>
        hbehind (Fingerprint.ofBytes bytes) flag
  exact ((delimits_take 2).mono (by decide)).bind fun found =>
    .ite (delimits_corrupt _ 0) hmarked

/-! ## Parts of payloads -/

namespace FieldOrder

theorem delimits_decodeEntries (typeName : String) (size : Nat) : ∀ left seen,
    (decodeEntries typeName size left seen).Delimits left := by
  intro left
  induction left with
  | zero => exact fun seen => delimits_pure []
  | succ left ih =>
    intro seen
    rw [decodeEntries]
    have hround := Wire.delimits_decodeIndex.bind_add fun i => Delimits.ite
      (p := size ≤ i) (delimits_corrupt (.orderOutOfBounds i typeName size) left)
      (Delimits.ite (p := seen.contains i = true)
        (delimits_corrupt (.orderDuplicate i typeName) left)
        ((ih (i :: seen)).bind fun rest => delimits_pure (i :: rest)))
    exact hround.mono (Nat.le_of_eq (Nat.add_comm left 1))

theorem delimits_decode (writer : Schema) : (decode writer).Delimits 1 := by
  refine delimits_byte.bind fun marker => .ite (delimits_pure _) (.ite ?_ (delimits_corrupt _ 0))
  refine (Wire.delimits_length_bind fun count => ?_).mono (Nat.zero_le 1)
  exact .ite (delimits_corrupt _ count) (delimits_decodeEntries _ _ count [])

end FieldOrder

namespace Decoder

theorem delimits_branch : branch.Delimits 1 := by
  refine delimits_offset_bind fun start => delimits_byte.bind fun b => ?_
  exact .ite (delimits_pure _) (.ite (delimits_pure _) (delimits_corrupt _ 0))

theorem delimits_symbol (symbols : List String) : (symbol symbols).Delimits 1 :=
  Wire.delimits_decodeIndex.bind fun _ => delimits_orCorrupt _ _

theorem Delimits.entries {d : Decoder Value} (h : d.Delimits 1) (n : Nat)
    (found : List (String × Value)) : (entries d n found).Delimits n := by
  induction n generalizing found with
  | zero => exact delimits_pure found
  | succ n ih =>
    rw [Decoder.entries]
    have hround := Wire.delimits_decodeString.bind_add fun key => h.bind_add fun v => Delimits.ite
      (p := Entries.hasKey key found = true) (delimits_corrupt (.duplicateKey key) n)
      (ih (Entries.insert key v found))
    exact hround.mono (by omega)

theorem delimits_each {steps : List (Decoder Unit)} (h : ∀ step ∈ steps, step.Delimits 0)
    (order : List Nat) : (each steps order).Delimits 0 := by
  induction order with
  | nil => exact delimits_pure ()
  | cons i rest ih =>
    rw [each_cons]
    cases hi : steps[i]? with
    | none => exact delimits_corrupt _ 0
    | some step => exact (h step (List.mem_of_getElem? hi)).bind fun _ => ih

end Decoder

/-! ## Passing over values -/

mutual

/-- A value that is passed over takes a byte at least. -/
theorem FieldType.delimits_skip : ∀ t : FieldType, t.skip.Delimits 1
  | .bool => Wire.delimits_decodeBool.bind fun _ => delimits_pure ()
  | .int => Wire.delimits_decodeInt.bind fun _ => delimits_pure ()
  | .long => Wire.delimits_decodeLong.bind fun _ => delimits_pure ()
  | .float => ((delimits_take 4).bind fun _ => delimits_pure ()).mono (by decide)
  | .double => ((delimits_take 8).bind fun _ => delimits_pure ()).mono (by decide)
  | .string => Wire.delimits_decodeString.bind fun _ => delimits_pure ()
  | .bytes => Wire.delimits_decodeBytes.bind fun _ => delimits_pure ()
  | .enum symbols => (delimits_symbol symbols).bind fun _ => delimits_pure ()
  | .optional inner => by
    rw [FieldType.skip]
    -- The branch is a byte already, whatever follows it.
    exact delimits_branch.bind fun present =>
      .ite (inner.delimits_skip.mono (Nat.zero_le 1)) (delimits_pure ())
  | .list item => by
    rw [FieldType.skip]
    exact Wire.delimits_length_bind fun n =>
      (item.delimits_skip.times n).bind fun _ => delimits_pure ()
  | .map item => by
    rw [FieldType.skip]
    refine Wire.delimits_length_bind fun n => ?_
    -- The key takes a byte, so that the value need not.
    have hentry := Wire.delimits_decodeString.bind fun _ =>
      item.delimits_skip.mono (Nat.zero_le 1)
    exact (hentry.times n).bind fun _ => delimits_pure ()
  | .record s => s.delimits_skip

/-- A record that is passed over takes a byte at least: it starts with its order. -/
theorem Schema.delimits_skip : ∀ s : Schema, s.skip.Delimits 1
  | ⟨name, fields⟩ => by
    rw [Schema.skip]
    exact (FieldOrder.delimits_decode _).bind fun order =>
      delimits_each (delimits_fieldSkips fields) order

theorem delimits_fieldSkips : ∀ fields : List Field, ∀ step ∈ fieldSkips fields, step.Delimits 0
  | [], _, hstep => absurd hstep List.not_mem_nil
  | ⟨_, type, _⟩ :: rest, step, hstep => by
    rcases List.mem_cons.mp hstep with rfl | hstep
    · exact type.delimits_skip.mono (Nat.zero_le 1)
    · exact delimits_fieldSkips rest step hstep

end

/-! ## Reading values -/

/-- The decoders of the wanted fields delimit what they read. -/
def DelimitingDecoders (wanted : FieldDecoders) : Prop :=
  ∀ read ∈ wanted, ∀ written, Delimits 0 (read written)

section Loops

variable {writer reader : Schema} {wanted : FieldDecoders}

theorem DelimitingDecoders.delimits_set (h : DelimitingDecoders wanted)
    (slots : List (Option Value)) (p index : Nat) (written : FieldType) :
    Delimits 0 (orCorrupt (.strayIndex index) wanted[p]? >>= fun read => read written >>= fun v =>
      pure (slots.set p (some v))) := by
  cases hread : wanted[p]? with
  | none => exact delimits_corrupt _ 0
  | some read => exact (h read (List.mem_of_getElem? hread) written).bind fun v => delimits_pure _

theorem DelimitingDecoders.delimits_placed (h : DelimitingDecoders wanted) (places : List Nat)
    (slots : List (Option Value)) (index : Nat) :
    Delimits 0 (placed writer wanted places slots index) := by
  rw [placed]
  refine (delimits_orCorrupt _ _).bind fun w => (delimits_orCorrupt _ _).bind fun position => ?_
  exact h.delimits_set slots position index w.type

theorem DelimitingDecoders.delimits_named (h : DelimitingDecoders wanted)
    (slots : List (Option Value)) (index : Nat) :
    Delimits 0 (named writer reader wanted slots index) := by
  rw [named]
  refine (delimits_orCorrupt _ _).bind fun w => ?_
  cases reader.position? w.name with
  | none => exact (w.type.delimits_skip.mono (Nat.zero_le 1)).bind fun _ => delimits_pure slots
  | some position => exact h.delimits_set slots position index w.type

theorem DelimitingDecoders.delimits_slots (h : DelimitingDecoders wanted) (order : List Nat) :
    Delimits 0 (slots writer reader wanted order) := by
  simp only [slots]
  split
  next places _ => exact delimits_foldlM (h.delimits_placed places) order _
  next => exact delimits_foldlM h.delimits_named order _

theorem DelimitingDecoders.delimits_record (h : DelimitingDecoders wanted) :
    Delimits 1 (record writer reader wanted) := by
  rw [record]
  refine .ite (delimits_mismatch _ 1) ((FieldOrder.delimits_decode writer).bind fun order => ?_)
  refine (h.delimits_slots order).bind fun filled => ?_
  exact (delimits_ofSchemaResult _).bind fun fields => delimits_pure _

end Loops

mutual

/-- A value takes a byte at least, and is read for these bytes alone. -/
theorem FieldType.delimits_decodeFrom (typeName field : String) : ∀ wanted written : FieldType,
    (wanted.decodeFrom typeName field written).Delimits 1
  | .optional inner, written => by
    -- What is optional may be written as anything, so the induction is for all that is written.
    have hinner := inner.delimits_decodeFrom typeName field
    cases written with
    | optional w =>
      rw [FieldType.decodeFrom]
      exact delimits_branch.bind fun present =>
        .ite ((hinner w).mono (Nat.zero_le 1)) (delimits_pure Value.null)
    | _ => exact hinner _
  | .bool, written => by
    cases written with
    | bool => exact Wire.delimits_decodeBool.map _
    | _ => exact delimits_mismatch _ 1
  | .int, written => by
    cases written with
    | int => exact Wire.delimits_decodeInt.map _
    | _ => exact delimits_mismatch _ 1
  | .long, written => by
    cases written with
    | int => exact Wire.delimits_decodeInt.map _
    | long => exact Wire.delimits_decodeLong.map _
    | _ => exact delimits_mismatch _ 1
  | .float, written => by
    cases written with
    | int => exact Wire.delimits_decodeInt.map _
    | long => exact Wire.delimits_decodeLong.map _
    | float => exact (Wire.delimits_decodeFloat.mono (by decide)).map _
    | _ => exact delimits_mismatch _ 1
  | .double, written => by
    cases written with
    | int => exact Wire.delimits_decodeInt.map _
    | long => exact Wire.delimits_decodeLong.map _
    | float => exact (Wire.delimits_decodeFloat.mono (by decide)).map _
    | double => exact (Wire.delimits_decodeDouble.mono (by decide)).map _
    | _ => exact delimits_mismatch _ 1
  | .string, written => by
    cases written with
    | string => exact Wire.delimits_decodeString.map _
    | _ => exact delimits_mismatch _ 1
  | .bytes, written => by
    cases written with
    | bytes => exact Wire.delimits_decodeBytes.map _
    | _ => exact delimits_mismatch _ 1
  | .enum wanted, written => by
    cases written with
    | enum symbols =>
      rw [FieldType.decodeFrom]
      exact (delimits_symbol symbols).bind fun s => .ite (delimits_pure _) (delimits_mismatch _ 0)
    | _ => exact delimits_mismatch _ 1
  | .list item, written => by
    cases written with
    | list w =>
      have hitem := item.delimits_decodeFrom typeName field w
      rw [FieldType.decodeFrom]
      exact Wire.delimits_length_bind fun n => (hitem.times n).map _
    | _ => exact delimits_mismatch _ 1
  | .map item, written => by
    cases written with
    | map w =>
      have hitem := item.delimits_decodeFrom typeName field w
      rw [FieldType.decodeFrom]
      exact Wire.delimits_length_bind fun n => (hitem.entries n []).map _
    | _ => exact delimits_mismatch _ 1
  | .record reader, written => by
    cases written with
    | record writer => exact (reader.delimits_decodeFrom writer).map _
    | _ => exact delimits_mismatch _ 1
termination_by structural wanted => wanted

/-- A record takes a byte at least, and is read for these bytes alone. -/
theorem Schema.delimits_decodeFrom : ∀ reader writer : Schema,
    (reader.decodeFrom writer).Delimits 1
  | ⟨name, fields⟩, _ => DelimitingDecoders.delimits_record (delimits_fieldDecoders name fields)
termination_by structural reader => reader

theorem delimits_fieldDecoders (typeName : String) : ∀ fields : List Field,
    DelimitingDecoders (fieldDecoders typeName fields)
  | [] => fun _ hread => absurd hread List.not_mem_nil
  | ⟨name, type, _⟩ :: rest => by
    intro read hread written
    rcases List.mem_cons.mp hread with rfl | hread
    · exact (type.delimits_decodeFrom typeName name written).mono (Nat.zero_le 1)
    · exact delimits_fieldDecoders typeName rest read hread written
termination_by structural fields => fields

end

/-! ## Further bytes -/

/-- Further bytes behind a value make no difference, and are left where they are. -/
theorem Decoder.Delimits.run_append {α : Type} {d : Decoder α} {least : Nat} (h : d.Delimits least)
    {c after : Cursor} {a : α} (hrun : d.run c = .ok a after) (more : List UInt8) :
    d.run ⟨c.rest ++ more, c.offset⟩ = .ok a ⟨after.rest ++ more, after.offset⟩ := by
  obtain ⟨bytes, -, hrest, hd⟩ := h c a after hrun
  rw [hrest, List.append_assoc, hd, offset_eq_of_run hrun hrest hd]

end RecordExchange
