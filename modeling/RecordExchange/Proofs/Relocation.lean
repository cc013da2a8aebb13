import RecordExchange.Proofs.Evolution
import RecordExchange.Wire.Header

/-!
# Where a payload starts does not matter

A decoder knows how many bytes were read before the ones in front of it, and quotes that number in
its failures. It makes no other use of it: so many bytes further on, in front of the same bytes, it
reads the same value or fails in the same way, and only the quoted offsets are further on as well.

- `ExchangeError.moved`, `Cursor.moved`: the same failure and the same cursor, further on.
- `ExchangeError.FromReading`: the failures that a decoder may end with.
- `Decoder.InStep`: two decoders are made of the same parts, with offsets that lie `k` apart.
- `Decoder.InStep.run_moved`, `Decoder.InStep.fromReading`: what follows for their runs.
- `Decoder.Uniform`: a decoder is in step with itself, however far apart.
- `Header.uniform_decode`, `FieldType.uniform_skip`, `Schema.uniform_decodeFrom`: so are the
  decoders of headers and of payloads.
-/

namespace RecordExchange

/-! ## Further on -/

/-- The same corruption, found `k` bytes further on. -/
def Corruption.moved (k : Nat) : Corruption → Corruption
  | .endOfInput offset needed available => .endOfInput (offset + k) needed available
  | .badBool byte offset => .badBool byte (offset + k)
  | .varintOverflow offset => .varintOverflow (offset + k)
  | .varintPadded offset => .varintPadded (offset + k)
  | .varintTooLong offset => .varintTooLong (offset + k)
  | .intOutOfRange offset value => .intOutOfRange (offset + k) value
  | .lengthTooLarge length offset remaining => .lengthTooLarge length (offset + k) remaining
  | .badText offset fault => .badText (offset + k) fault
  | .trailing count offset => .trailing count (offset + k)
  | .badBranch byte offset => .badBranch byte (offset + k)
  | cause => cause

namespace ExchangeError

/-- The same failure, `k` bytes further on. -/
def moved (k : Nat) : ExchangeError → ExchangeError
  | corrupt cause => corrupt (cause.moved k)
  | err => err

/-- The failures of reading: the bytes are no message, the schemas do not agree or a field is
missing. -/
def FromReading : ExchangeError → Prop
  | corrupt _ | mismatch _ | missingField _ _ => True
  | _ => False

end ExchangeError

/-- The cursor in front of the same bytes, `k` bytes further on. -/
def Cursor.moved (k : Nat) (c : Cursor) : Cursor := ⟨c.rest, c.offset + k⟩

namespace Decoder

variable {α β : Type} {k : Nat}

/-! ## Decoders in step -/

/-- Two decoders do the same step by step, the second one `k` bytes further on. Only by asking for
the offset may they come to differ, and then by no more than that. -/
inductive InStep (k : Nat) : {α : Type} → Decoder α → Decoder α → Prop
  | pure {α : Type} (a : α) : InStep k (Pure.pure a) (Pure.pure a)
  | throw {α : Type} {e : ExchangeError} (h : e.FromReading) :
    InStep k (MonadExcept.throw e : Decoder α) (MonadExcept.throw (e.moved k))
  | bind {α β : Type} {d d' : Decoder α} {f f' : α → Decoder β} (h : InStep k d d')
    (hf : ∀ a, InStep k (f a) (f' a)) : InStep k (d >>= f) (d' >>= f')
  | offset {β : Type} {f f' : Nat → Decoder β}
    (hf : ∀ start, InStep k (f start) (f' (start + k))) :
    InStep k (Decoder.offset >>= f) (Decoder.offset >>= f')
  | remaining : InStep k Decoder.remaining Decoder.remaining
  | byte : InStep k Decoder.byte Decoder.byte
  | take (n : Nat) : InStep k (Decoder.take n) (Decoder.take n)

/-- The same end of a run, `k` bytes further on. -/
def movedEnd (k : Nat) :
    EStateM.Result ExchangeError Cursor α → EStateM.Result ExchangeError Cursor α
  | .ok a after => .ok a (after.moved k)
  | .error e after => .error (e.moved k) (after.moved k)

theorem run_byte_moved (k : Nat) (c : Cursor) :
    byte.run (c.moved k) = movedEnd k (byte.run c) := by
  obtain ⟨rest, start⟩ := c
  cases rest with
  | nil => rfl
  | cons b rest =>
    have hnext : start + k + 1 = start + 1 + k := Nat.add_right_comm start k 1
    exact congrArg (fun o => EStateM.Result.ok b (Cursor.mk rest o)) hnext

theorem run_take_moved (n k : Nat) (c : Cursor) :
    (take n).run (c.moved k) = movedEnd k ((take n).run c) := by
  obtain ⟨rest, start⟩ := c
  show (if n ≤ rest.length then _ else _) = movedEnd k (if n ≤ rest.length then _ else _)
  by_cases hn : n ≤ rest.length
  · rw [if_pos hn, if_pos hn]
    have hnext : start + k + n = start + n + k := Nat.add_right_comm start k n
    exact congrArg (fun o => EStateM.Result.ok (rest.take n) (Cursor.mk (rest.drop n) o)) hnext
  · rw [if_neg hn, if_neg hn]
    rfl

/-- The second of two decoders in step ends as the first one does, further on. -/
theorem InStep.run_moved {d d' : Decoder α} (h : InStep k d d') (c : Cursor) :
    d'.run (c.moved k) = movedEnd k (d.run c) := by
  induction h generalizing c with
  | pure a => rfl
  | throw h => rfl
  | bind h hf ih ihf =>
    rename_i d d' f f'
    rw [EStateM.run_bind, EStateM.run_bind, ih c]
    cases d.run c with
    | error e after => rfl
    | ok a after =>
      -- The first parts leave cursors that are as far apart as before.
      exact ihf a after
  | offset hf ihf => exact ihf c.offset c
  | remaining => rfl
  | byte => exact run_byte_moved k c
  | take n => exact run_take_moved n k c

/-- What a decoder fails with is a failure of reading, if it is in step with any other one. -/
theorem InStep.fromReading {d d' : Decoder α} (h : InStep k d d') {c after : Cursor}
    {e : ExchangeError} (hrun : d.run c = .error e after) : e.FromReading := by
  induction h generalizing c after with
  | pure a => cases hrun
  | throw h =>
    cases hrun
    exact h
  | bind h hf ih ihf =>
    rename_i d d' f f'
    rw [EStateM.run_bind] at hrun
    -- The failure is that of the first part, or of what follows it.
    cases hd : d.run c with
    | error e' between =>
      rw [hd] at hrun
      cases hrun
      exact ih hd
    | ok a between =>
      rw [hd] at hrun
      exact ihf a hrun
  | offset hf ihf => exact ihf c.offset hrun
  | remaining => cases hrun
  | byte =>
    obtain ⟨rest, start⟩ := c
    cases rest <;> cases hrun
    trivial
  | take n =>
    have htake : (Decoder.take n).run c = if n ≤ c.remaining then _ else _ := rfl
    rw [htake] at hrun
    split at hrun <;> cases hrun
    trivial

theorem InStep.ite {p : Prop} [Decidable p] {d d' f f' : Decoder α} (hd : InStep k d d')
    (hf : InStep k f f') : InStep k (if p then d else f) (if p then d' else f') := by
  split
  · exact hd
  · exact hf

theorem InStep.map {d d' : Decoder α} (h : InStep k d d') (f : α → β) :
    InStep k (f <$> d) (f <$> d') := by
  rw [map_eq_pure_bind, map_eq_pure_bind]
  exact .bind h fun a => .pure (f a)

theorem inStep_corrupt (k : Nat) (cause : Corruption) :
    InStep k (corrupt cause : Decoder α) (corrupt (cause.moved k)) :=
  .throw (e := .corrupt cause) trivial

/-! ## Uniform decoders -/

/-- A decoder does the same wherever it starts. -/
def Uniform (d : Decoder α) : Prop := ∀ k, InStep k d d

theorem uniform_pure (a : α) : Uniform (pure a : Decoder α) := fun _ => .pure a

theorem Uniform.bind {d : Decoder α} {f : α → Decoder β} (h : Uniform d)
    (hf : ∀ a, Uniform (f a)) : Uniform (d >>= f) :=
  fun k => .bind (h k) fun a => hf a k

theorem Uniform.map {d : Decoder α} (h : Uniform d) (f : α → β) : Uniform (f <$> d) :=
  fun k => (h k).map f

theorem Uniform.ite {p : Prop} [Decidable p] {d d' : Decoder α} (h : Uniform d)
    (h' : Uniform d') : Uniform (if p then d else d') :=
  fun k => .ite (h k) (h' k)

/-- A corruption that quotes no offset. -/
theorem uniform_corrupt {cause : Corruption} (h : ∀ k, cause.moved k = cause) :
    Uniform (corrupt cause : Decoder α) := by
  intro k
  have hcause := inStep_corrupt (α := α) k cause
  rwa [h k] at hcause

theorem uniform_mismatch (cause : Mismatch) : Uniform (mismatch cause : Decoder α) :=
  fun _ => .throw (e := .mismatch cause) trivial

theorem uniform_orCorrupt {cause : Corruption} (h : ∀ k, cause.moved k = cause) (x : Option α) :
    Uniform (orCorrupt cause x) := by
  cases x with
  | none => exact uniform_corrupt h
  | some a => exact uniform_pure a

/-- What comes after an optional computation has to do with its result only. -/
theorem uniform_orCorrupt_bind {cause : Corruption} (h : ∀ k, cause.moved k = cause)
    {x : Option α} {f : α → Decoder β} (hf : ∀ a, x = some a → Uniform (f a)) :
    Uniform (orCorrupt cause x >>= f) := by
  cases x with
  | none =>
    -- What would come next is not reached.
    exact uniform_corrupt h
  | some a => exact hf a rfl

theorem Uniform.times {d : Decoder α} (h : Uniform d) (n : Nat) : Uniform (d.times n) := by
  induction n with
  | zero => exact uniform_pure []
  | succ n ih =>
    rw [Decoder.times]
    exact h.bind fun a => ih.bind fun as => uniform_pure (a :: as)

theorem uniform_foldlM {f : β → α → Decoder β} (hf : ∀ b a, Uniform (f b a)) (l : List α)
    (b : β) : Uniform (l.foldlM f b) := by
  induction l generalizing b with
  | nil => exact uniform_pure b
  | cons a rest ih =>
    rw [List.foldlM_cons]
    exact (hf b a).bind ih

theorem uniform_finish : Uniform finish := by
  intro k
  refine .bind .remaining fun left => .ite ?_ (.pure ())
  exact .offset fun start => inStep_corrupt k (.trailing left start)

end Decoder

/-! ## Primitive forms -/

namespace Wire

open Decoder

theorem inStep_decodeGroups (k start : Nat) : ∀ left shift sum,
    InStep k (decodeGroups start left shift sum) (decodeGroups (start + k) left shift sum) := by
  intro left
  induction left with
  | zero => exact fun shift sum => inStep_corrupt k (.varintTooLong start)
  | succ left ih =>
    intro shift sum
    rw [decodeGroups, decodeGroups]
    refine .bind .byte fun b => .ite (inStep_corrupt k (.varintOverflow start)) (.ite ?_ (ih _ _))
    exact .ite (inStep_corrupt k (.varintPadded start)) (.pure _)

theorem uniform_decodeVarint : Uniform decodeVarint :=
  fun k => .offset fun start => inStep_decodeGroups k start maxGroups 0 0

theorem uniform_decodeLong : Uniform decodeLong := uniform_decodeVarint.map unfold

theorem uniform_decodeInt : Uniform decodeInt := by
  intro k
  refine .offset fun start => .bind (uniform_decodeLong k) fun n => .ite (.pure _) ?_
  exact inStep_corrupt k (.intOutOfRange start n)

theorem uniform_decodeBool : Uniform decodeBool := by
  intro k
  refine .offset fun start => .bind .byte fun b => .ite (.pure false) (.ite (.pure true) ?_)
  exact inStep_corrupt k (.badBool b start)

theorem uniform_decodeFloat : Uniform decodeFloat :=
  fun _ => .bind (.take 4) fun _ => .pure _

theorem uniform_decodeDouble : Uniform decodeDouble :=
  fun _ => .bind (.take 8) fun _ => .pure _

theorem uniform_decodeLength : Uniform decodeLength := by
  intro k
  refine .offset fun start => .bind (uniform_decodeVarint k) fun n => ?_
  refine .bind .remaining fun left => ?_
  exact .ite (.pure n.toNat) (inStep_corrupt k (.lengthTooLarge n start left))

theorem uniform_decodeBytes : Uniform decodeBytes :=
  fun k => .bind (uniform_decodeLength k) fun n => .take n

theorem uniform_decodeString : Uniform decodeString := by
  intro k
  refine .offset fun start => .bind (uniform_decodeBytes k) fun bytes => ?_
  cases Utf8.decode bytes with
  | ok s => exact .pure s
  | error fault => exact inStep_corrupt k (.badText start fault)

theorem uniform_decodeIndex : Uniform decodeIndex := uniform_decodeVarint.map UInt64.toNat

end Wire

open Decoder

/-- A header may start anywhere. -/
theorem Header.uniform_decode : Uniform Header.decode := by
  refine Uniform.bind (fun _ => .take 2) fun found => .ite (uniform_corrupt fun _ => rfl) ?_
  refine Uniform.bind (fun _ => .take _) fun bytes => Uniform.bind (fun _ => .byte) fun flag => ?_
  refine .ite (uniform_pure _) (.ite ?_ (uniform_corrupt fun _ => rfl))
  exact Wire.uniform_decodeString.bind fun text => uniform_pure _

/-! ## Parts of payloads -/

namespace FieldOrder

theorem uniform_decodeEntries (typeName : String) (size : Nat) : ∀ left seen,
    Uniform (decodeEntries typeName size left seen) := by
  intro left
  induction left with
  | zero => exact fun seen => uniform_pure []
  | succ left ih =>
    intro seen
    rw [decodeEntries]
    refine Wire.uniform_decodeIndex.bind fun i => .ite (uniform_corrupt fun _ => rfl) ?_
    refine .ite (uniform_corrupt fun _ => rfl) ?_
    exact (ih (i :: seen)).bind fun rest => uniform_pure (i :: rest)

theorem uniform_decode (writer : Schema) : Uniform (decode writer) := by
  refine Uniform.bind (fun _ => .byte) fun marker => .ite (uniform_pure _) (.ite ?_ ?_)
  · refine Wire.uniform_decodeLength.bind fun count => .ite (uniform_corrupt fun _ => rfl) ?_
    exact uniform_decodeEntries writer.name writer.size count []
  · exact uniform_corrupt fun _ => rfl

end FieldOrder

namespace Decoder

theorem uniform_branch : Uniform branch := by
  intro k
  refine .offset fun start => .bind .byte fun b => .ite (.pure false) (.ite (.pure true) ?_)
  exact inStep_corrupt k (.badBranch b start)

theorem uniform_symbol (symbols : List String) : Uniform (symbol symbols) :=
  Wire.uniform_decodeIndex.bind fun _ => uniform_orCorrupt (fun _ => rfl) _

theorem uniform_each {α : Type} {steps : List (Decoder α)} (h : ∀ step ∈ steps, Uniform step)
    (order : List Nat) : Uniform (each steps order) := by
  induction order with
  | nil => exact uniform_pure ()
  | cons i rest ih =>
    rw [each_cons]
    refine uniform_orCorrupt_bind (fun _ => rfl) fun step hstep => ?_
    exact (h step (List.mem_of_getElem? hstep)).bind fun _ => ih

theorem Uniform.entries {d : Decoder Value} (h : Uniform d) (n : Nat)
    (found : List (String × Value)) : Uniform (entries d n found) := by
  induction n generalizing found with
  | zero => exact uniform_pure found
  | succ n ih =>
    rw [Decoder.entries]
    refine Wire.uniform_decodeString.bind fun key => h.bind fun v => ?_
    exact .ite (uniform_corrupt fun _ => rfl) (ih _)

end Decoder

/-! ## Passing over values -/

mutual

/-- A value is passed over in the same way wherever it starts. -/
theorem FieldType.uniform_skip : ∀ t : FieldType, Uniform t.skip
  | .bool => Wire.uniform_decodeBool.bind fun _ => uniform_pure ()
  | .int => Wire.uniform_decodeInt.bind fun _ => uniform_pure ()
  | .long => Wire.uniform_decodeLong.bind fun _ => uniform_pure ()
  | .float => Uniform.bind (fun _ => .take 4) fun _ => uniform_pure ()
  | .double => Uniform.bind (fun _ => .take 8) fun _ => uniform_pure ()
  | .string => Wire.uniform_decodeString.bind fun _ => uniform_pure ()
  | .bytes => Wire.uniform_decodeBytes.bind fun _ => uniform_pure ()
  | .enum symbols => (uniform_symbol symbols).bind fun _ => uniform_pure ()
  | .optional inner => by
    rw [FieldType.skip]
    exact uniform_branch.bind fun present => .ite inner.uniform_skip (uniform_pure ())
  | .list item => by
    rw [FieldType.skip]
    refine Wire.uniform_decodeLength.bind fun n => ?_
    exact (item.uniform_skip.times n).bind fun _ => uniform_pure ()
  | .map item => by
    rw [FieldType.skip]
    refine Wire.uniform_decodeLength.bind fun n => ?_
    have hentry := Wire.uniform_decodeString.bind fun _ => item.uniform_skip
    exact (hentry.times n).bind fun _ => uniform_pure ()
  | .record s => s.uniform_skip

theorem Schema.uniform_skip : ∀ s : Schema, Uniform s.skip
  | ⟨name, fields⟩ => by
    rw [Schema.skip]
    exact (FieldOrder.uniform_decode _).bind fun order =>
      uniform_each (uniform_fieldSkips fields) order

theorem uniform_fieldSkips : ∀ fields : List Field, ∀ step ∈ fieldSkips fields, Uniform step
  | [], _, hstep => absurd hstep List.not_mem_nil
  | ⟨_, type, _⟩ :: rest, step, hstep => by
    rcases List.mem_cons.mp hstep with rfl | hstep
    · exact type.uniform_skip
    · exact uniform_fieldSkips rest step hstep

end

/-! ## Reading values -/

/-- Slots are made into a record unless a field is missing. -/
theorem Decoder.uniform_fillSlots (typeName : String) : ∀ fields slots,
    Uniform (Decoder.ofSchemaResult (fillSlots typeName fields slots)) := by
  intro fields
  induction fields with
  | nil => exact fun slots => uniform_pure []
  | cons f rest ih =>
    intro slots
    cases slots with
    | nil => exact uniform_pure []
    | cons slot slots =>
      rw [fillSlots]
      cases slot.or f.defaultValue with
      | none => exact fun k => .throw (e := .missingField typeName f.name) trivial
      | some v =>
        -- An entry is put in front either before the result is made a decoder or after.
        have hmap : ∀ x : Except SchemaError (List (String × Value)),
            Decoder.ofSchemaResult (x.map ((f.name, v) :: ·))
              = ((f.name, v) :: ·) <$> Decoder.ofSchemaResult x := by
          intro x
          cases x <;> rfl
        rw [hmap]
        exact (ih slots).map _

/-- The decoders of the wanted fields do the same wherever they start. -/
def UniformDecoders (wanted : FieldDecoders) : Prop :=
  ∀ read ∈ wanted, ∀ written, Uniform (read written)

section Loops

variable {writer reader : Schema} {wanted : FieldDecoders}

theorem UniformDecoders.uniform_set (h : UniformDecoders wanted) (slots : List (Option Value))
    (p index : Nat) (written : FieldType) :
    Uniform (orCorrupt (.strayIndex index) wanted[p]? >>= fun read => read written >>= fun v =>
      pure (slots.set p (some v))) := by
  refine uniform_orCorrupt_bind (fun _ => rfl) fun read hread => ?_
  exact (h read (List.mem_of_getElem? hread) written).bind fun v => uniform_pure _

theorem UniformDecoders.uniform_placed (h : UniformDecoders wanted) (places : List Nat)
    (slots : List (Option Value)) (index : Nat) :
    Uniform (placed writer wanted places slots index) := by
  rw [placed]
  refine (uniform_orCorrupt (fun _ => rfl) _).bind fun w => ?_
  refine (uniform_orCorrupt (fun _ => rfl) _).bind fun position => ?_
  exact h.uniform_set slots position index w.type

theorem UniformDecoders.uniform_named (h : UniformDecoders wanted) (slots : List (Option Value))
    (index : Nat) : Uniform (named writer reader wanted slots index) := by
  rw [named]
  refine (uniform_orCorrupt (fun _ => rfl) _).bind fun w => ?_
  cases reader.position? w.name with
  | none => exact w.type.uniform_skip.bind fun _ => uniform_pure slots
  | some position => exact h.uniform_set slots position index w.type

theorem UniformDecoders.uniform_slots (h : UniformDecoders wanted) (order : List Nat) :
    Uniform (slots writer reader wanted order) := by
  simp only [slots]
  split
  next places _ => exact uniform_foldlM (h.uniform_placed places) order _
  next => exact uniform_foldlM h.uniform_named order _

theorem UniformDecoders.uniform_record (h : UniformDecoders wanted) :
    Uniform (record writer reader wanted) := by
  rw [record]
  refine .ite (uniform_mismatch _) ((FieldOrder.uniform_decode writer).bind fun order => ?_)
  refine (h.uniform_slots order).bind fun filled => ?_
  exact (uniform_fillSlots reader.name reader.fields filled).bind fun fields => uniform_pure _

end Loops

mutual

/-- A value is read in the same way wherever it starts. -/
theorem FieldType.uniform_decodeFrom (typeName field : String) : ∀ wanted written : FieldType,
    Uniform (wanted.decodeFrom typeName field written)
  | .optional inner, written => by
    have hinner := inner.uniform_decodeFrom typeName field
    cases written with
    | optional w =>
      rw [FieldType.decodeFrom]
      exact uniform_branch.bind fun present => .ite (hinner w) (uniform_pure Value.null)
    | _ =>
      -- What was written without a choice is read as the type within.
      exact hinner _
  | .bool, written => by
    cases written with
    | bool => exact Wire.uniform_decodeBool.map _
    | _ => exact uniform_mismatch _
  | .int, written => by
    cases written with
    | int => exact Wire.uniform_decodeInt.map _
    | _ => exact uniform_mismatch _
  | .long, written => by
    cases written with
    | int => exact Wire.uniform_decodeInt.map _
    | long => exact Wire.uniform_decodeLong.map _
    | _ => exact uniform_mismatch _
  | .float, written => by
    cases written with
    | int => exact Wire.uniform_decodeInt.map _
    | long => exact Wire.uniform_decodeLong.map _
    | float => exact Wire.uniform_decodeFloat.map _
    | _ => exact uniform_mismatch _
  | .double, written => by
    cases written with
    | int => exact Wire.uniform_decodeInt.map _
    | long => exact Wire.uniform_decodeLong.map _
    | float => exact Wire.uniform_decodeFloat.map _
    | double => exact Wire.uniform_decodeDouble.map _
    | _ => exact uniform_mismatch _
  | .string, written => by
    cases written with
    | string => exact Wire.uniform_decodeString.map _
    | _ => exact uniform_mismatch _
  | .bytes, written => by
    cases written with
    | bytes => exact Wire.uniform_decodeBytes.map _
    | _ => exact uniform_mismatch _
  | .enum wanted, written => by
    cases written with
    | enum symbols =>
      rw [FieldType.decodeFrom]
      exact (uniform_symbol symbols).bind fun s => .ite (uniform_pure _) (uniform_mismatch _)
    | _ => exact uniform_mismatch _
  | .list item, written => by
    cases written with
    | list w =>
      have hitem := item.uniform_decodeFrom typeName field w
      rw [FieldType.decodeFrom]
      exact Wire.uniform_decodeLength.bind fun n => (hitem.times n).map _
    | _ => exact uniform_mismatch _
  | .map item, written => by
    cases written with
    | map w =>
      have hitem := item.uniform_decodeFrom typeName field w
      rw [FieldType.decodeFrom]
      exact Wire.uniform_decodeLength.bind fun n => (hitem.entries n []).map _
    | _ => exact uniform_mismatch _
  | .record reader, written => by
    cases written with
    | record writer => exact (reader.uniform_decodeFrom writer).map _
    | _ => exact uniform_mismatch _
termination_by structural wanted => wanted

/-- A record is read in the same way wherever it starts. -/
theorem Schema.uniform_decodeFrom : ∀ reader writer : Schema, Uniform (reader.decodeFrom writer)
  | ⟨name, fields⟩, _ => UniformDecoders.uniform_record (uniform_fieldDecoders name fields)
termination_by structural reader => reader

theorem uniform_fieldDecoders (typeName : String) : ∀ fields : List Field,
    UniformDecoders (fieldDecoders typeName fields)
  | [] => fun _ hread => absurd hread List.not_mem_nil
  | ⟨name, type, _⟩ :: rest => by
    intro read hread
    rcases List.mem_cons.mp hread with rfl | hread
    · exact type.uniform_decodeFrom typeName name
    · exact uniform_fieldDecoders typeName rest read hread
termination_by structural fields => fields

end

end RecordExchange
