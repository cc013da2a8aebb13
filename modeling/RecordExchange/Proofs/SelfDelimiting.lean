import RecordExchange.Proofs.Delimiting

/-!
# Values need no end mark

Headers, field orders, values and records stand one after another without anything between them. A
reader finds the end of each by reading it: what it reads, and where it stops, is settled by the bytes
up to there. Inputs that have these bytes in common are read alike, whether one of them ends there or
goes on in whatever way.

- `Cursor.within`: a position of an input.
- `Decoder.SelfDelimiting`: the end of what a decoder reads is settled by the bytes in front of it.
- `Decoder.Delimits.selfDelimiting`: so it is for decoders that delimit what they read.
- `selfDelimiting_readers`: all readers of headers and payloads are of this kind.
-/

namespace RecordExchange

/-- The cursor at a position of an input. -/
def Cursor.within (input : List UInt8) (position : Nat) : Cursor :=
  ⟨input.drop position, position⟩

namespace Decoder

variable {α : Type} {d : Decoder α} {input other front : List UInt8} {p n : Nat} {a : α}

/-- A decoder is self-delimiting when a successful read depends on the bytes it has consumed and on no
others. -/
structure SelfDelimiting (d : Decoder α) : Prop where
  /-- It ends further on in the same input. -/
  advances {input : List UInt8} {p : Nat} {a : α} {after : Cursor} :
    d.run (.within input p) = .ok a after →
      ∃ n, p < n ∧ n ≤ input.length ∧ after = .within input n
  /-- It ends so in every input, shorter or longer, that has the same bytes up to this end. -/
  agrees {input other : List UInt8} {p n : Nat} {a : α} :
    d.run (.within input p) = .ok a (.within input n) → other.take n = input.take n →
      d.run (.within other p) = .ok a (.within other n)
  /-- If it consumes an input to its end, then it does not succeed on a part of it. -/
  prefixFree {input front : List UInt8} {p : Nat} {a : α} :
    d.run (.within input p) = .ok a (.within input input.length) → front <+: input →
      front ≠ input → ∀ b after, d.run (.within front p) ≠ .ok b after

/-- The bytes between the position where a decoder starts and the one where it ends. -/
theorem Delimits.exists_bytes (h : d.Delimits 1) {after : Cursor}
    (hrun : d.run (.within input p) = .ok a after) :
    ∃ bytes, 0 < bytes.length ∧ p + bytes.length ≤ input.length ∧
      input.drop p = bytes ++ input.drop (p + bytes.length) ∧
      after = .within input (p + bytes.length) ∧
      ∀ suffix, d.run ⟨bytes ++ suffix, p⟩ = .ok a ⟨suffix, p + bytes.length⟩ := by
  obtain ⟨bytes, hpos, hrest, hd⟩ := h _ a after hrun
  have hoffset := offset_eq_of_run hrun hrest hd
  replace hrest : input.drop p = bytes ++ after.rest := hrest
  have hafter : after.rest = input.drop (p + bytes.length) := by
    rw [← List.drop_drop, hrest, List.drop_left]
  have hlength := congrArg List.length hrest
  rw [List.length_drop, List.length_append] at hlength
  refine ⟨bytes, hpos, by omega, by rw [← hafter, hrest], ?_, hd⟩
  obtain ⟨rest, offset⟩ := after
  rw [Cursor.within, ← hafter, ← show offset = p + bytes.length from hoffset]

/-- Inputs that agree up to a position have the same bytes in front of it. -/
theorem drop_eq_append_of_take_eq {bytes : List UInt8}
    (hinput : input.drop p = bytes ++ input.drop (p + bytes.length))
    (hsame : other.take (p + bytes.length) = input.take (p + bytes.length)) :
    other.drop p = bytes ++ other.drop (p + bytes.length) := by
  have hbetween := congrArg (List.drop p) hsame
  rw [List.drop_take, List.drop_take, Nat.add_sub_cancel_left, hinput, List.take_left] at hbetween
  calc other.drop p
      = (other.drop p).take bytes.length ++ (other.drop p).drop bytes.length :=
        (List.take_append_drop _ _).symm
    _ = bytes ++ other.drop (p + bytes.length) := by rw [hbetween, List.drop_drop]

theorem Delimits.run_within_congr (h : d.Delimits 1)
    (hrun : d.run (.within input p) = .ok a (.within input n))
    (hsame : other.take n = input.take n) :
    d.run (.within other p) = .ok a (.within other n) := by
  obtain ⟨bytes, -, -, hinput, hafter, hd⟩ := h.exists_bytes hrun
  obtain rfl : n = p + bytes.length := congrArg Cursor.offset hafter
  rw [Cursor.within, drop_eq_append_of_take_eq hinput hsame]
  exact hd _

/-- What is delimited by its own bytes needs no end mark. -/
theorem Delimits.selfDelimiting (h : d.Delimits 1) : d.SelfDelimiting where
  advances hrun := by
    obtain ⟨bytes, hpos, hle, -, hafter, -⟩ := h.exists_bytes hrun
    exact ⟨_, by omega, hle, hafter⟩
  agrees := h.run_within_congr
  prefixFree {input front p a} hrun hfront hproper b after hpart := by
    -- The part ends within itself, and the whole would end there as well.
    obtain ⟨bytes, -, hle, -, rfl, -⟩ := h.exists_bytes hpart
    have hsame : input.take (p + bytes.length) = front.take (p + bytes.length) := by
      obtain ⟨lost, rfl⟩ := hfront
      exact List.take_append_of_le_length hle
    have hwhole := h.run_within_congr hpart hsame
    have hcursor : Cursor.within input (p + bytes.length) = .within input input.length := by
      injection hwhole.symm.trans hrun
    have hend : p + bytes.length = input.length := congrArg Cursor.offset hcursor
    exact hproper (hfront.eq_of_length (Nat.le_antisymm hfront.length_le (hend ▸ hle)))

end Decoder

theorem FieldType.delimits_decode (t : FieldType) : t.decode.Delimits 1 := by
  rw [← t.decodeFrom_self "" ""]
  exact t.delimits_decodeFrom "" "" t

/-- **Values need no end mark.** Whatever the schemas and types, valid or not and related or not:
reading a record, reading a value as the type that it was written as or as another one, passing over a
value, and reading a field order or a header consume bytes whose end they find by themselves. -/
theorem selfDelimiting_readers (writer reader : Schema) (t wanted : FieldType)
    (typeName field : String) :
    (reader.decodeFrom writer).SelfDelimiting ∧ t.decode.SelfDelimiting ∧
      (wanted.decodeFrom typeName field t).SelfDelimiting ∧ t.skip.SelfDelimiting ∧
      (FieldOrder.decode writer).SelfDelimiting ∧ Header.decode.SelfDelimiting :=
  ⟨(reader.delimits_decodeFrom writer).selfDelimiting, t.delimits_decode.selfDelimiting,
    (wanted.delimits_decodeFrom typeName field t).selfDelimiting, t.delimits_skip.selfDelimiting,
    (FieldOrder.delimits_decode writer).selfDelimiting, Header.delimits_decode.selfDelimiting⟩

/-- A count may be met by the last bytes of an input as well as in the middle of one. -/
example : (FieldType.list .bool).decode.run (.within [9, 2, 1, 0] 1)
      = .ok (.list [.bool true, .bool false]) (.within [9, 2, 1, 0] 4) ∧
    (FieldType.list .bool).decode.run (.within [9, 2, 1, 0, 7] 1)
      = .ok (.list [.bool true, .bool false]) (.within [9, 2, 1, 0, 7] 4) :=
  ⟨rfl, rfl⟩

end RecordExchange
