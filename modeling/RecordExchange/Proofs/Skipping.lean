import RecordExchange.Proofs.Acceptance
import RecordExchange.Proofs.CanonicalOrder
import RecordExchange.Value.Validity

/-!
# Passing over what was written

A reader that does not want a value still has to find its end. It knows the canonical type of the
value, and passes over exactly the bytes that were written for it.

- `FieldType.Representable`, `Schema.Representable`: schemas as a machine holds them.
- `FieldType.yields_skip`, `Schema.yields_skip`: skipping reads what writing wrote.
-/

namespace RecordExchange

/-! ## Schemas that a machine holds -/

mutual

/-- A type is representable when 64 bits count the symbols of its enumerations and its schemas are
representable. -/
def FieldType.Representable : FieldType → Prop
  | .enum symbols => symbols.length ≤ UInt64.size
  | .optional inner => inner.Representable
  | .list item => item.Representable
  | .map item => item.Representable
  | .record s => s.Representable
  | _ => True

/-- A schema is representable when the types of its fields are and its defaults are well-formed
values. -/
def Schema.Representable : Schema → Prop
  | ⟨_, fields⟩ => RepresentableFields fields

/-- Every field has a representable type and a well-formed default, if any. -/
def RepresentableFields : List Field → Prop
  | [] => True
  | ⟨_, type, dflt⟩ :: rest =>
    (type.Representable ∧ ∀ v ∈ dflt, v.WellFormed) ∧ RepresentableFields rest

end

/-- A field is representable when its type is and its default is a well-formed value. -/
def Field.Representable (f : Field) : Prop :=
  f.type.Representable ∧ ∀ v ∈ f.default, v.WellFormed

theorem representableFields_iff (fields : List Field) :
    RepresentableFields fields ↔ ∀ f ∈ fields, f.Representable := by
  induction fields with
  | nil => simp [RepresentableFields]
  | cons f rest ih =>
    obtain ⟨name, type, dflt⟩ := f
    simp [RepresentableFields, ih, Field.Representable]

theorem Schema.representable_iff (s : Schema) :
    s.Representable ↔ ∀ f ∈ s.fields, f.Representable := by
  obtain ⟨name, fields⟩ := s
  rw [Schema.Representable, representableFields_iff]

theorem Schema.WellFormed.namesDistinct {s : Schema} (h : s.WellFormed) : s.NamesDistinct :=
  ((s.wellFormed_iff).mp h).2.1

/-! ## Loops over parts -/

namespace Decoder

variable {α β : Type}

/-- A loop reads the parts of a list one after another, when each part gives the result of its
item. -/
theorem yields_times {d : Decoder β} {write : α → Except ExchangeError (List UInt8)}
    (result : α → Except ExchangeError β) :
    ∀ (items : List α) (parts : List (List UInt8)), items.mapM write = .ok parts →
      (∀ a ∈ items, ∀ part, write a = .ok part → part.length ≤ parts.flatten.length →
        d.Yields part (result a)) →
      (d.times items.length).Yields parts.flatten (items.mapM result)
  | [], parts, hparts, _ => by
    cases hparts
    exact yields_pure []
  | a :: rest, parts, hparts, h => by
    obtain ⟨part, others, hpart, hothers, rfl⟩ := mapM_cons_eq_ok_iff.mp hparts
    have hfirst := h a List.mem_cons_self part hpart (by simp)
    have hrest := yields_times result rest others hothers fun b hb p hp hle =>
      h b (List.mem_cons_of_mem a hb) p hp (by
        rw [List.flatten_cons, List.length_append]
        omega)
    rw [List.mapM_cons, List.flatten_cons, List.length_cons, times]
    exact hfirst.bind fun b _ => hrest.bind_nil fun bs _ => yields_pure (b :: bs)

/-- Parts that all take a byte are no fewer bytes than items. -/
theorem length_le_flatten {write : α → Except ExchangeError (List UInt8)} :
    ∀ {items : List α} {parts : List (List UInt8)}, items.mapM write = .ok parts →
      (∀ a ∈ items, ∀ part, write a = .ok part → 0 < part.length) →
      items.length ≤ parts.flatten.length
  | [], _, _, _ => Nat.zero_le _
  | a :: rest, parts, h, hpos => by
    obtain ⟨part, others, hpart, hothers, rfl⟩ := mapM_cons_eq_ok_iff.mp h
    have hfirst := hpos a List.mem_cons_self part hpart
    have hrest := length_le_flatten hothers fun b hb => hpos b (List.mem_cons_of_mem a hb)
    rw [List.flatten_cons, List.length_append, List.length_cons]
    omega

/-- A loop whose parts only have to be passed over. -/
theorem yields_times_unit {d : Decoder Unit} {write : α → Except ExchangeError (List UInt8)}
    {items : List α} {parts : List (List UInt8)} (hparts : items.mapM write = .ok parts)
    (hpos : ∀ a ∈ items, ∀ part, write a = .ok part → 0 < part.length)
    (hsize : parts.flatten.length < UInt64.size)
    (h : ∀ a ∈ items, ∀ part, write a = .ok part → part.length ≤ parts.flatten.length →
      d.Yields part (.ok ())) :
    (Wire.decodeLength >>= fun n => d.times n >>= fun _ => pure ()).Yields
      (Wire.encodeLength items.length ++ parts.flatten) (.ok ()) := by
  refine Wire.yields_length_bind (length_le_flatten hparts hpos) hsize ?_
  have hloop := yields_times (fun _ => .ok ()) items parts hparts h
  have hall : items.mapM (fun _ => (.ok () : Except ExchangeError Unit))
      = .ok (items.map fun _ => ()) :=
    List.mapM_pure
  rw [hall] at hloop
  exact hloop.bind_ok_nil (yields_pure ())

end Decoder

/-! ## Skipping -/

@[simp] theorem Decoder.each_cons {α : Type} (steps : List (Decoder α)) (i : Nat)
    (order : List Nat) :
    Decoder.each steps (i :: order)
      = (Decoder.orCorrupt (.strayIndex i) steps[i]? >>= fun step => step >>= fun _ =>
          Decoder.each steps order) := by
  simp [Decoder.each]

theorem fieldSkips_eq_map (fields : List Field) :
    fieldSkips fields = fields.map (·.type.skip) := by
  induction fields with
  | nil => rfl
  | cons f rest ih =>
    obtain ⟨name, type, dflt⟩ := f
    simp only [fieldSkips, ih, List.map_cons]

theorem Schema.skip_eq (s : Schema) :
    s.skip = FieldOrder.decode s >>= fun order =>
      Decoder.each (s.fields.map (·.type.skip)) order := by
  obtain ⟨name, fields⟩ := s
  rw [Schema.skip, fieldSkips_eq_map]

open Decoder

mutual

/-- A reader that knows the canonical type passes over exactly what was written for a value. -/
theorem FieldType.yields_skip (typeName field : String) : ∀ (t : FieldType) (v : Value)
    (bytes : List UInt8), t.WellFormed → t.Representable →
      t.encode typeName field v = .ok bytes → bytes.length < UInt64.size →
      t.canonical.skip.Yields bytes (.ok ())
  | .bool, v, bytes, _, _, hb, _ => by
    cases v <;> cases hb
    exact (Wire.yields_bool _).bind_ok_nil (yields_pure ())
  | .int, v, bytes, _, _, hb, _ => by
    cases v <;> cases hb
    exact (Wire.yields_int _).bind_ok_nil (yields_pure ())
  | .long, v, bytes, _, _, hb, _ => by
    cases v <;> cases hb
    exact (Wire.yields_long _).bind_ok_nil (yields_pure ())
  | .float, v, bytes, _, _, hb, _ => by
    cases v <;> cases hb
    exact (yields_take (ByteOrder.length_lowFirst 4 _)).bind_ok_nil (yields_pure ())
  | .double, v, bytes, _, _, hb, _ => by
    cases v <;> cases hb
    exact (yields_take (ByteOrder.length_lowFirst 8 _)).bind_ok_nil (yields_pure ())
  | .string, v, bytes, _, _, hb, hsize => by
    cases v <;> cases hb
    exact (Wire.yields_string hsize).bind_ok_nil (yields_pure ())
  | .bytes, v, bytes, _, _, hb, hsize => by
    cases v <;> cases hb
    exact (Wire.yields_bytes hsize).bind_ok_nil (yields_pure ())
  | .enum symbols, v, bytes, _, hrep, hb, _ => by
    cases v with
    | symbol s =>
      obtain ⟨i, hi, rfl⟩ := FieldType.encode_symbol_eq_ok_iff.mp hb
      exact (yields_symbol_of_idxOf? hrep hi).bind_ok_nil (yields_pure ())
    | _ => cases hb
  | .optional inner, v, bytes, h, hrep, hb, hsize => by
    rw [FieldType.encode] at hb
    split at hb
    · cases hb
      exact (yields_branch false).bind_ok_nil (yields_pure ())
    · obtain ⟨others, hothers, rfl⟩ := except_map_eq_ok_iff.mp hb
      rw [List.length_append] at hsize
      exact (yields_branch true).bind_ok
        (inner.yields_skip typeName field v others h hrep hothers (by omega))
  | .list item, v, bytes, h, hrep, hb, hsize => by
    cases v with
    | list vs =>
      obtain ⟨parts, hparts, hb⟩ := except_bind_eq_ok.mp hb
      cases hb
      rw [List.length_append] at hsize
      exact yields_times_unit hparts (fun v _ part hpart => item.encode_pos hpart) (by omega)
        fun v _ part hpart hle =>
          item.yields_skip typeName field v part h hrep hpart (by omega)
    | _ => cases hb
  | .map item, v, bytes, h, hrep, hb, hsize => by
    cases v with
    | map es =>
      obtain ⟨parts, hparts, hb⟩ := except_bind_eq_ok.mp hb
      cases hb
      rw [List.length_append] at hsize
      -- A key is read as a text and dropped; only its value is passed over by its type.
      refine yields_times_unit hparts (fun e _ part hpart => ?_) (by omega)
        fun e _ part hpart hle => ?_
      · exact encodeEntry_pos hpart
      · obtain ⟨first, hfirst, rfl⟩ := except_map_eq_ok_iff.mp hpart
        rw [List.length_append] at hle
        exact (Wire.yields_string (by omega)).bind_ok
          (item.yields_skip typeName field e.2 first h hrep hfirst (by omega))
    | _ => cases hb
  | .record s, v, bytes, h, hrep, hb, hsize => by
    cases v with
    | record r => exact s.yields_skip r bytes h hrep hb hsize
    | _ => cases hb

/-- A reader that knows the canonical schema passes over exactly what was written for a record. -/
theorem Schema.yields_skip : ∀ (s : Schema) (r : Record) (bytes : List UInt8), s.WellFormed →
    s.Representable → s.encode r = .ok bytes → bytes.length < UInt64.size →
      s.canonical.skip.Yields bytes (.ok ())
  | ⟨name, fields⟩, r, bytes, h, hrep, hb, hsize => by
    have distinct : Schema.NamesDistinct ⟨name, fields⟩ := h.namesDistinct
    obtain ⟨-, others, hothers, rfl⟩ := Schema.encode_eq_ok_iff.mp hb
    rw [List.length_append] at hsize
    rw [Schema.skip_eq]
    refine (FieldOrder.yields_encode distinct (by omega)).bind_ok ?_
    exact yields_skip_fields name fields r others _ (Schema.canonicalIndex ⟨name, fields⟩ ·.name)
      (fun f hf => by
        rw [List.getElem?_map, Schema.getElem?_canonicalIndex distinct hf]
        rfl)
      h.2.2 hrep hothers (by omega)

/-- The values of fields are passed over in the order in which they are declared, when the order
leads from each field to a computation that passes over its type. -/
theorem yields_skip_fields (typeName : String) : ∀ (fields : List Field) (r : Record)
    (bytes : List UInt8) (steps : List (Decoder Unit)) (place : Field → Nat),
    (∀ f ∈ fields, steps[place f]? = some f.type.canonical.skip) → WellFormedFields fields →
      RepresentableFields fields → encodeFields typeName fields r = .ok bytes →
      bytes.length < UInt64.size → (each steps (fields.map place)).Yields bytes (.ok ())
  | [], r, bytes, steps, place, _, _, _, hb, _ => by
    cases hb
    exact yields_pure ()
  | ⟨name, type, dflt⟩ :: rest, r, bytes, steps, place, hsteps, h, hrep, hb, hsize => by
    obtain ⟨v, first, others, -, hfirst, hothers, rfl⟩ := encodeFields_cons_eq_ok_iff.mp hb
    rw [List.length_append] at hsize
    have hskip := type.yields_skip typeName name v first h.1.2.1 hrep.1.1 hfirst (by omega)
    have hrest := yields_skip_fields typeName rest r others steps place
      (fun f hf => hsteps f (List.mem_cons_of_mem _ hf)) h.2 hrep.2 hothers (by omega)
    have hstep := hsteps ⟨name, type, dflt⟩ List.mem_cons_self
    rw [List.map_cons, each_cons, hstep]
    exact hskip.bind_ok hrest

end

end RecordExchange
