import RecordExchange.Payload.Encode
import RecordExchange.Proofs.Corruptions
import RecordExchange.Proofs.Spelling

/-!
# The grammar of field orders

What stands in front of the values of a record is either the mark of the canonical order or a table.
The bytes of both are known: those of a table are a count and the names of all fields, in whatever
order, each once. A reader accepts these bytes and no others, so that it reads each field once whoever
has written the table.

- `FieldOrder.IsOrder`: the bytes of an order for so many fields.
- `FieldOrder.reads_decode`: just these are read as this order.
- `FieldOrder.isOrder_encode`: the order of a schema is written as one for its canonical schema.
- `FieldOrder.IsOrder.fields_perm`: an order leads to each field once.
- `FieldOrder.decode_grammar`: what is read, what is refused and what is written.
-/

namespace RecordExchange

namespace FieldOrder

open Decoder

/-- The bytes of an order for `size` fields: the mark of the canonical order, or the mark of a table,
how many entries it has, and the entries. These are the places from zero on, each once, as many as 64
bits can count. -/
inductive IsOrder (size : Nat) : List Nat → List UInt8 → Prop where
  | canonical : IsOrder size (List.range size) [0]
  | table {order : List Nat} : order.Perm (List.range size) → size < UInt64.size →
    IsOrder size order (1 :: (Wire.encodeLength size ++ order.flatMap Wire.encodeLength))

/-! ## Reading -/

/-- The bytes of a table that is read are those of its entries. -/
theorem consumes_decodeEntries (typeName : String) (size : Nat) : ∀ (left : Nat) (seen : List Nat),
    (decodeEntries typeName size left seen).Consumes fun order bytes =>
      bytes = order.flatMap Wire.encodeLength := by
  intro left
  induction left with
  | zero => exact fun seen => consumes_pure rfl
  | succ left ih =>
    intro seen
    rw [decodeEntries]
    refine Wire.consumes_decodeIndex.bind fun i first hfirst => ?_
    refine consumes_ite (fun _ => consumes_corrupt _) fun _ =>
      consumes_ite (fun _ => consumes_corrupt _) fun _ => ?_
    refine (ih (i :: seen)).bind fun rest others hothers => consumes_pure ?_
    rw [hfirst, hothers, List.append_nil, List.flatMap_cons]

theorem consumes_decode (writer : Schema) : (decode writer).Consumes (IsOrder writer.size) := by
  refine consumes_byte.bind fun marker first hfirst => ?_
  rw [hfirst]
  refine consumes_ite (fun hcanonical => consumes_pure ?_) fun _ =>
    consumes_ite (fun htable => ?_) fun _ => consumes_corrupt _
  · rw [hcanonical]
    exact .canonical
  · refine Wire.consumes_decodeLength.bind fun count second hcount => ?_
    obtain ⟨hsize, rfl⟩ := hcount
    refine consumes_ite (fun _ => consumes_corrupt _) fun hne => ?_
    obtain rfl : count = writer.size := Decidable.not_not.mp hne
    have hentries := consumes_decodeEntries writer.name writer.size writer.size []
    refine (hentries.and_ensures (ensures_decodeEntries _ _ _ _)).mono fun order bytes h => ?_
    obtain ⟨rfl, hlength, hnodup, horder⟩ := h
    rw [htable]
    exact .table (perm_range hlength hnodup fun i hi => (horder i hi).1) hsize

/-- An order is read from its bytes. The count of a table is accepted since each entry takes a byte. -/
theorem IsOrder.yields {writer : Schema} {order : List Nat} {bytes : List UInt8}
    (h : IsOrder writer.size order bytes) : (decode writer).Yields bytes (.ok order) := by
  cases h with
  | canonical => exact (yields_byte 0).bind_ok_nil (yields_pure _)
  | table hperm hsize =>
    have hlength : order.length = writer.size := by rw [hperm.length_eq, List.length_range]
    have hnodup : order.Nodup := hperm.nodup_iff.mpr List.nodup_range
    have hlt : ∀ i ∈ order, i < writer.size ∧ i ∉ [] := fun i hi =>
      ⟨List.mem_range.mp (hperm.mem_iff.mp hi), List.not_mem_nil⟩
    have htable : writer.size ≤ (order.flatMap Wire.encodeLength).length := by
      rw [← hlength]
      exact Wire.length_le_flatMap fun i _ => Wire.encodeNat_pos i
    have hentries := yields_entries writer.name writer.size (Nat.le_of_lt hsize) order [] hlt hnodup
    rw [hlength] at hentries
    refine (yields_byte 1).bind_ok (Wire.yields_length_bind_of_lt htable hsize ?_)
    rw [if_neg (fun hne => hne rfl)]
    exact hentries

theorem reads_decode (writer : Schema) : (decode writer).Reads (IsOrder writer.size) :=
  (consumes_decode writer).reads fun _ _ h => h.yields

/-! ## What an order leads to -/

/-- The places of a list lead to its elements in turn. -/
theorem map_getElem?_range {α : Type} (l : List α) :
    (List.range l.length).map (fun i => l[i]?) = l.map some := by
  refine List.ext_getElem (by rw [List.length_map, List.length_map, List.length_range]) ?_
  intro i hi hi'
  rw [List.getElem_map, List.getElem_map, List.getElem_range, List.getElem?_eq_getElem]

/-- Whoever has written the order, it leads to each field once. -/
theorem IsOrder.fields_perm {writer : Schema} {order : List Nat} {bytes : List UInt8}
    (h : IsOrder writer.size order bytes) :
    (order.map fun i => writer.fields[i]?).Perm (writer.fields.map some) := by
  have hperm : order.Perm (List.range writer.size) := by
    cases h with
    | canonical => exact .refl _
    | table hperm _ => exact hperm
  rw [← map_getElem?_range]
  exact hperm.map _

/-! ## Writing -/

/-- The declared order of a schema is written as an order for as many fields. -/
theorem isOrder_encode {s : Schema} (h : s.NamesDistinct) (hsize : s.size < UInt64.size) :
    IsOrder s.size s.canonicalOrder (encode s) := by
  by_cases hcanonical : s.isCanonicalOrder = true
  · have horder : s.canonicalOrder = List.range s.size := by
      simpa [Schema.isCanonicalOrder] using hcanonical
    rw [encode, if_pos hcanonical, horder]
    exact .canonical
  · rw [encode, if_neg hcanonical]
    exact .table (Schema.perm_canonicalOrder h) hsize

/-- What is written for a record starts with the declared order of the schema. -/
theorem exists_values_of_encode {s : Schema} {r : Record} {written : List UInt8}
    (h : s.encode r = .ok written) : ∃ values, written = encode s ++ values := by
  obtain ⟨name, fields⟩ := s
  rw [Schema.encode] at h
  by_cases hname : r.typeName = name
  · rw [if_pos hname] at h
    obtain ⟨values, -, rfl⟩ := except_map_eq_ok_iff.mp h
    exact ⟨values, rfl⟩
  · rw [if_neg hname] at h
    cases h

/-- **Grammar of field orders.** A reader accepts the bytes of the orders for the fields of the writer,
with the order that they spell, and refuses all others as no message. Each order that is read leads to
each field of the writer once. What a checked schema writes in front of the values of a record is read
back, with its canonical schema alone, as the order in which it declares its fields. -/
theorem decode_grammar (s : Schema) :
    (decode s).Reads (IsOrder s.size) ∧
    (∀ c, (∀ order bytes, IsOrder s.size order bytes → ¬ bytes <+: c.rest) →
      ∃ cause after, (decode s).run c = .error (.corrupt cause) after) ∧
    (∀ c order after, (decode s).run c = .ok order after →
      (order.map fun i => s.fields[i]?).Perm (s.fields.map some)) ∧
    (s.check = .ok () → s.size < UInt64.size → ∀ r written, s.encode r = .ok written →
      ∃ values, written = encode s ++ values ∧ ∀ suffix p,
        (decode s.canonical).run ⟨written ++ suffix, p⟩
          = .ok s.canonicalOrder ⟨values ++ suffix, p + (encode s).length⟩) := by
  refine ⟨reads_decode s, fun c hno => ?_, fun c order after hrun => ?_,
    fun hcheck hsize r written hr => ?_⟩
  -- A run that does not fail has read an order, so that all others fail for their bytes.
  · cases hrun : (decode s).run c with
    | ok order after =>
      obtain ⟨bytes, horder, hrest, -⟩ := consumes_decode s c order after hrun
      exact absurd ⟨after.rest, hrest.symm⟩ (hno order bytes horder)
    | error e after =>
      obtain ⟨cause, rfl⟩ := failsCorrupt_decode s c e after hrun
      exact ⟨cause, after, rfl⟩
  · obtain ⟨bytes, horder, -⟩ := consumes_decode s c order after hrun
    exact horder.fields_perm
  · obtain ⟨values, rfl⟩ := exists_values_of_encode hr
    have hdistinct := (s.check_eq_ok_iff.mp hcheck).namesDistinct
    have horder := isOrder_encode hdistinct hsize
    rw [← s.size_canonical] at horder
    refine ⟨values, rfl, fun suffix p => ?_⟩
    rw [List.append_assoc]
    exact horder.yields (values ++ suffix) p

/-- A table that is written in front of a pair is read back. One that names the first field twice is
refused. -/
theorem decode_grammar_wantedPair :
    wantedPair.check = .ok () ∧ wantedPair.size < UInt64.size ∧
    wantedPair.encode ⟨"Pair", [("mark", .null), ("flag", .bool true)]⟩ = .ok [1, 2, 1, 0, 0, 1] ∧
    (∃ values, [1, 2, 1, 0, 0, 1] = encode wantedPair ++ values ∧ ∀ suffix p,
      (decode wantedPair.canonical).run ⟨[1, 2, 1, 0, 0, 1] ++ suffix, p⟩
        = .ok [1, 0] ⟨values ++ suffix, p + 4⟩) ∧
    (decode wantedPair).run ⟨[1, 2, 0, 0, 0, 1], 0⟩
      = .error (.corrupt (.orderDuplicate 0 "Pair")) ⟨[0, 1], 4⟩ := by
  have hwritten : wantedPair.encode ⟨"Pair", [("mark", .null), ("flag", .bool true)]⟩
      = .ok [1, 2, 1, 0, 0, 1] := rfl
  exact ⟨rfl, by decide, hwritten, (decode_grammar wantedPair).2.2.2 rfl (by decide) _ _ hwritten, rfl⟩

end FieldOrder

end RecordExchange
