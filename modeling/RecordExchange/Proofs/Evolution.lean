import RecordExchange.Payload.Decode
import RecordExchange.Proofs.Resolution
import RecordExchange.Proofs.Skipping

/-!
# Evolution

A record that is written with one schema and read with another comes out as it is resolved. The
proof follows the reader: it finds the wanted fields by name or by the shortcut, converts values as
it reads them, passes over what is not wanted, and fills the rest from defaults.

- `slots_eq_foldlM_named`: the shortcut makes no difference.
- `FieldType.yields_convert`, `Schema.yields_resolve`: reading what was written gives the conversion
  of the value, or fails as the conversion fails.
- `Schema.decodeFrom_encode`: the same for whole records of checked schemas.
-/

namespace RecordExchange

/-! ## Wanted fields by name -/

theorem fieldDecoders_eq_map (typeName : String) (fields : List Field) :
    fieldDecoders typeName fields = fields.map fun f => f.type.decodeFrom typeName f.name := by
  induction fields with
  | nil => rfl
  | cons f rest ih =>
    obtain ⟨name, type, dflt⟩ := f
    simp only [fieldDecoders, ih, List.map_cons]

namespace Schema

theorem find?_eq_none_of_position? {s : Schema} {n : String} (h : s.position? n = none) :
    s.fields.find? (·.name == n) = none := by
  rw [position?, List.findIdx?_eq_none_iff] at h
  exact List.find?_eq_none.mpr fun f hf => by simp [h f hf]

/-- A position that is found is that of the field of the name. -/
theorem find?_eq_some_of_position? {s : Schema} {n : String} {p : Nat}
    (h : s.position? n = some p) :
    ∃ f, s.fields[p]? = some f ∧ f.name = n ∧ s.fields.find? (·.name == n) = some f := by
  obtain ⟨hlt, hname, hbefore⟩ := List.findIdx?_eq_some_iff_getElem.mp h
  refine ⟨s.fields[p], List.getElem?_eq_some_iff.mpr ⟨hlt, rfl⟩, by simpa using hname, ?_⟩
  rw [List.find?_eq_some_iff_getElem]
  exact ⟨hname, p, hlt, rfl, fun j hj => by simpa using hbefore j hj⟩

end Schema

/-- Slots that hold what is known of each name are changed for one name only. -/
theorem set_map_name {g : String → Option Value} {u : Option Value} : ∀ {fields : List Field}
    {p : Nat} {f : Field}, (fields.map Field.name).Nodup → fields[p]? = some f →
      (fields.map fun h => g h.name).set p u
        = fields.map fun h => if h.name = f.name then u else g h.name
  | [], _, _, _, hp => by simp at hp
  | first :: rest, 0, f, distinct, hp => by
    obtain rfl : first = f := by simpa using hp
    rw [List.map_cons, List.nodup_cons] at distinct
    -- Names are distinct, so that no field behind has the name of the first.
    have hrest : ∀ h ∈ rest, g h.name = if h.name = first.name then u else g h.name := by
      intro h hh
      have hne : h.name ≠ first.name := fun same =>
        distinct.1 (same ▸ List.mem_map_of_mem hh)
      rw [if_neg hne]
    rw [List.map_cons, List.map_cons, List.set_cons_zero, if_pos rfl, List.map_congr_left hrest]
  | first :: rest, p + 1, f, distinct, hp => by
    rw [List.map_cons, List.nodup_cons] at distinct
    rw [List.getElem?_cons_succ] at hp
    have hne : first.name ≠ f.name := fun same =>
      distinct.1 (same ▸ List.mem_map_of_mem (List.mem_of_getElem? hp))
    rw [List.map_cons, List.map_cons, List.set_cons_succ, if_neg hne,
      set_map_name distinct.2 hp]

/-! ## Finishing a record -/

/-- Setting fields of distinct names one after another lists them. -/
theorem Record.ofFields_eq {typeName : String} {fields : List (String × Value)}
    (distinct : (fields.map Prod.fst).Nodup) :
    Record.ofFields typeName fields = ⟨typeName, fields⟩ := by
  have hassign : ∀ (n : String) (v : Value) (before : List (String × Value)),
      n ∉ before.map Prod.fst → assign n v before = before ++ [(n, v)] := by
    intro n v before fresh
    induction before with
    | nil => rfl
    | cons e rest ih =>
      rw [List.map_cons, List.mem_cons, not_or] at fresh
      rw [assign, if_neg (Ne.symm fresh.1), ih fresh.2, List.cons_append]
  -- By the fields that are left; those before them are listed already.
  suffices ∀ (fields before : List (String × Value)), ((before ++ fields).map Prod.fst).Nodup →
      fields.foldl (fun r f => r.set f.1 f.2) (⟨typeName, before⟩ : Record)
        = ⟨typeName, before ++ fields⟩ from
    this fields [] distinct
  intro fields
  induction fields with
  | nil => simp
  | cons e rest ih =>
    intro before distinct
    have fresh : e.1 ∉ before.map Prod.fst := by
      rw [List.map_append, List.nodup_append] at distinct
      exact fun he => distinct.2.2 e.1 he e.1 (List.mem_map_of_mem List.mem_cons_self) rfl
    rw [List.foldl_cons, Record.set, hassign e.1 e.2 before fresh]
    rw [List.append_cons] at distinct
    rw [ih (before ++ [e]) distinct, List.append_assoc, List.singleton_append]

open Decoder

/-- Filling the slots completes the fields. -/
theorem yields_fillSlots (typeName : String) (converted : List (String × Value)) :
    ∀ fields : List Field,
      (ofSchemaResult
          (fillSlots typeName fields (fields.map fun f => converted.lookup f.name))).Yields
        [] (fields.mapM (Field.complete typeName converted))
  | [] => yields_pure []
  | f :: rest => by
    have hrest := yields_fillSlots typeName converted rest
    rw [List.mapM_cons, List.map_cons, fillSlots, Field.complete]
    cases (converted.lookup f.name).or f.defaultValue with
    | none => exact yields_throw _
    | some v =>
      have hmap : ∀ x : Except SchemaError (List (String × Value)),
          ofSchemaResult (x.map ((f.name, v) :: ·)) = ((f.name, v) :: ·) <$> ofSchemaResult x := by
        intro x
        cases x <;> rfl
      rw [hmap]
      exact hrest.map _

/-! ## The shortcut -/

namespace Schema

/-- Places that were noted are the declared positions of the fields, and all others are as
before. -/
theorem placeFields_eq_some {writer reader : Schema} : ∀ {fields : List Field} {position : Nat}
    {before places : List Nat}, placeFields writer reader position fields before = some places →
      (fields.map fun f => reader.canonicalIndex f.name).Nodup →
      (∀ f ∈ fields, reader.canonicalIndex f.name < before.length) →
      (∀ i, (∀ f ∈ fields, reader.canonicalIndex f.name ≠ i) → places[i]? = before[i]?) ∧
        ∀ (k : Nat) (f : Field), fields[k]? = some f →
          places[reader.canonicalIndex f.name]? = some (position + k) ∧
            ∃ w, writer.fields[reader.canonicalIndex f.name]? = some w ∧ w.name = f.name
  | [], _, _, _, h, _, _ => by
    cases h
    exact ⟨fun _ _ => rfl, fun k f hf => by simp at hf⟩
  | first :: rest, position, before, places, h, distinct, hlt => by
    rw [List.map_cons, List.nodup_cons] at distinct
    obtain ⟨fresh, distinct⟩ := distinct
    rw [placeFields] at h
    split at h
    · cases h
    next w hw =>
      split at h
      next hname =>
        obtain ⟨hothers, hrest⟩ := placeFields_eq_some h distinct fun f hf => by
          rw [List.length_set]
          exact hlt f (List.mem_cons_of_mem first hf)
        refine ⟨fun i hi => ?_, fun k f hf => ?_⟩
        · have hne := hi first List.mem_cons_self
          rw [hothers i fun f hf => hi f (List.mem_cons_of_mem first hf), List.getElem?_set_ne hne]
        · cases k with
          | zero =>
            obtain rfl : first = f := by simpa using hf
            -- Later fields have other names, so they leave the place of this one alone.
            have hkeep := hothers (reader.canonicalIndex first.name) fun f hf same =>
              fresh (List.mem_map.mpr ⟨f, hf, same⟩)
            rw [List.getElem?_set_self (hlt first List.mem_cons_self)] at hkeep
            exact ⟨hkeep, w, hw, hname⟩
          | succ k =>
            rw [List.getElem?_cons_succ] at hf
            obtain ⟨hplace, hwritten⟩ := hrest k f hf
            exact ⟨by rw [hplace, Nat.add_right_comm, Nat.add_assoc], hwritten⟩
      next => cases h

/-- The field of a position is found there by its name. -/
theorem NamesDistinct.position?_eq {s : Schema} (h : s.NamesDistinct) {p : Nat} {f : Field}
    (hp : s.fields[p]? = some f) : s.position? f.name = some p := by
  obtain ⟨hlt, rfl⟩ := List.getElem?_eq_some_iff.mp hp
  refine List.findIdx?_eq_some_iff_getElem.mpr ⟨hlt, by simp, fun j hj => ?_⟩
  have hne := List.pairwise_iff_getElem.mp (List.pairwise_map.mp h) j p (by omega) hlt hj
  simpa using hne

/-- The shortcut finds each written field at the position where a search by its name would. -/
theorem position?_of_positionsIn? {writer reader : Schema} {places : List Nat}
    (hreader : reader.NamesDistinct) (h : writer.positionsIn? reader = some places) {i : Nat}
    {w : Field} (hw : writer.fields[i]? = some w) :
    ∃ p, places[i]? = some p ∧ reader.position? w.name = some p := by
  rw [positionsIn?] at h
  split at h
  next hsize =>
    have hi : i < reader.size := by
      rw [← hsize]
      exact (List.getElem?_eq_some_iff.mp hw).1
    -- The written field stands at the place of some wanted one, and the shortcut has compared their
    -- names.
    obtain ⟨f, hf, rfl⟩ := exists_canonicalIndex_eq hreader hi
    obtain ⟨k, hk⟩ := List.mem_iff_getElem?.mp hf
    obtain ⟨-, hplaces⟩ := placeFields_eq_some h (nodup_canonicalOrder hreader) fun f hf => by
      rw [List.length_replicate]
      exact lt_of_mem_canonicalOrder hreader (List.mem_map_of_mem hf)
    obtain ⟨hplace, w', hw', hname⟩ := hplaces k f hk
    obtain rfl : w = w' := by
      rw [hw] at hw'
      exact Option.some.inj hw'
    rw [Nat.zero_add] at hplace
    refine ⟨k, hplace, ?_⟩
    rw [hname]
    exact hreader.position?_eq hk
  next => cases h

end Schema

/-- The loop by places and the loop by names read the same, wherever all places are those of written
fields. -/
theorem placed_eq_named {writer reader : Schema} {places : List Nat}
    (hreader : reader.NamesDistinct) (h : writer.positionsIn? reader = some places)
    (wanted : FieldDecoders) (found : List (Option Value)) {i : Nat} (hi : i < writer.size) :
    placed writer wanted places found i = named writer reader wanted found i := by
  have hw : writer.fields[i]? = some writer.fields[i] := List.getElem?_eq_getElem hi
  obtain ⟨p, hplace, hposition⟩ := Schema.position?_of_positionsIn? hreader h hw
  simp only [placed, named, hw, hplace, hposition, orCorrupt, pure_bind]

theorem foldlM_placed_eq_foldlM_named {writer reader : Schema} {places : List Nat}
    (hreader : reader.NamesDistinct) (h : writer.positionsIn? reader = some places)
    (wanted : FieldDecoders) : ∀ (order : List Nat) (found : List (Option Value)),
      (∀ i ∈ order, i < writer.size) →
        order.foldlM (placed writer wanted places) found
          = order.foldlM (named writer reader wanted) found
  | [], _, _ => rfl
  | i :: rest, found, horder => by
    rw [List.foldlM_cons, List.foldlM_cons,
      placed_eq_named hreader h wanted found (horder i List.mem_cons_self)]
    exact bind_congr fun filled => foldlM_placed_eq_foldlM_named hreader h wanted rest filled
      fun j hj => horder j (List.mem_cons_of_mem i hj)

/-- The values of a record are read by either loop with the same result. -/
theorem slots_eq_foldlM_named {writer reader : Schema} (hreader : reader.NamesDistinct)
    (wanted : FieldDecoders) {order : List Nat} (horder : ∀ i ∈ order, i < writer.size) :
    slots writer reader wanted order
      = order.foldlM (named writer reader wanted) (reader.fields.map fun _ => none) := by
  simp only [slots]
  split
  next places hplaces =>
    have hpositions : writer.positionsIn? reader = some places := by
      split at hplaces
      · exact hplaces
      · cases hplaces
    exact foldlM_placed_eq_foldlM_named hreader hpositions wanted order _ horder
  next => rfl

/-! ## Reading the fields of a record -/

/-- Reading what was written as one type gives what it is converted to as another. -/
def FieldType.ReadsAs (typeName field : String) (wanted written : FieldType) : Prop :=
  ∀ (writerName writerField : String) (v : Value) (bytes : List UInt8),
    written.encode writerName writerField v = .ok bytes → v.WellFormed →
      bytes.length < UInt64.size →
      (wanted.decodeFrom typeName field written.canonical).Yields bytes
        (wanted.convert typeName field written v)

/-- Values of a record, its own or defaults, are well formed. -/
theorem Record.WellFormed.valueOf {r : Record} {f : Field} {v : Value} (hr : r.WellFormed)
    (hf : f.Representable) (h : r.valueOf f = some v) : v.WellFormed := by
  obtain ⟨typeName, fields⟩ := r
  rw [Record.valueOf, Record.get?, Option.or_eq_some_iff] at h
  rcases h with h | ⟨-, h⟩
  · obtain ⟨e, he, rfl⟩ := Option.map_eq_some_iff.mp h
    exact wellFormedEntries_iff.mp hr.2 e (List.mem_of_find?_eq_some he)
  · unfold Field.defaultValue at h
    split at h
    next d hd =>
      cases h
      exact hf.2 v hd
    next =>
      split at h <;> cases h
      exact trivial

theorem named_of_none {writer reader : Schema} {wanted : FieldDecoders} {i : Nat} {w : Field}
    {filled : List (Option Value)} (hw : writer.fields[i]? = some w)
    (h : reader.position? w.name = none) :
    named writer reader wanted filled i = (w.type.skip >>= fun _ => pure filled) := by
  simp only [named, hw, h, orCorrupt, pure_bind]

theorem named_of_some {writer reader : Schema} {wanted : FieldDecoders} {i p : Nat} {w : Field}
    {filled : List (Option Value)} {read : FieldType → Decoder Value}
    (hw : writer.fields[i]? = some w) (h : reader.position? w.name = some p)
    (hread : wanted[p]? = some read) :
    named writer reader wanted filled i
      = (read w.type >>= fun v => pure (filled.set p (some v))) := by
  simp only [named, hw, h, hread, orCorrupt, pure_bind]

/-- The loop over the values of a record, in the order in which the writer declares them. Each slot
holds what was converted for its name so far, which the function `found` gives. -/
theorem yields_named {writer reader : Schema} {r : Record} (hreader : reader.NamesDistinct)
    (hr : r.WellFormed) {place : Field → Nat}
    (hplace : ∀ w ∈ writer.fields, writer.canonical.fields[place w]? = some w.canonical)
    (hwell : ∀ w ∈ writer.fields, w.WellFormed ∧ w.Representable)
    (hreads : ∀ f ∈ reader.fields, ∀ w ∈ writer.fields,
      f.type.ReadsAs reader.name f.name w.type) :
    ∀ (rest : List Field) (found : String → Option Value) (bytes : List UInt8),
      (∀ w ∈ rest, w ∈ writer.fields) → (rest.map Field.name).Nodup →
      encodeFields writer.name rest r = .ok bytes → bytes.length < UInt64.size →
      ((rest.map place).foldlM
          (named writer.canonical reader (fieldDecoders reader.name reader.fields))
          (reader.fields.map fun f => found f.name)).Yields bytes
        (convertFields (fieldConverters reader.name reader.fields) r rest >>= fun converted =>
          .ok (reader.fields.map fun f => (converted.lookup f.name).or (found f.name)))
  | [], found, bytes, _, _, hb, _ => by
    cases hb
    exact yields_pure _
  | w :: rest, found, bytes, hrest, distinct, hb, hsize => by
    rw [List.map_cons, List.nodup_cons] at distinct
    obtain ⟨fresh, distinct⟩ := distinct
    obtain ⟨v, first, others, hv, hfirst, hothers, rfl⟩ := encodeFields_cons_eq_ok_iff.mp hb
    rw [List.length_append] at hsize
    have hw := hrest w List.mem_cons_self
    obtain ⟨hwellFormed, hrep⟩ := hwell w hw
    have ih := fun found => yields_named hreader hr hplace hwell hreads rest found others
      (fun w hw => hrest w (List.mem_cons_of_mem _ hw)) distinct hothers (by omega)
    have hlookup := lookup_fieldConverters reader.name w.name reader.fields
    rw [List.map_cons, List.foldlM_cons]
    -- The loop passes over a field that is not wanted, and fills the slot of one that is.
    cases hposition : reader.position? w.name with
    | none =>
      rw [Schema.find?_eq_none_of_position? hposition] at hlookup
      have hskip := w.type.yields_skip writer.name w.name v first hwellFormed.2.1 hrep.1 hfirst
        (by omega)
      rw [named_of_none (hplace w hw) hposition, convertFields_cons_of_none hlookup, bind_assoc]
      exact hskip.bind_ok (ih found)
    | some p =>
      obtain ⟨f, hf, hname, hfind⟩ := Schema.find?_eq_some_of_position? hposition
      rw [hfind] at hlookup
      have hread := hreads f (List.mem_of_getElem? hf) w hw writer.name w.name v first hfirst
        (hr.valueOf hrep hv) (by omega)
      have hwanted : (fieldDecoders reader.name reader.fields)[p]?
          = some (f.type.decodeFrom reader.name f.name) := by
        rw [fieldDecoders_eq_map, List.getElem?_map, hf]
        rfl
      rw [named_of_some (hplace w hw) hposition hwanted, convertFields_cons_of_some hlookup hv,
        bind_assoc, bind_assoc]
      refine hread.bind fun u _ => ?_
      have hstep := ih fun n => if n = w.name then some u else found n
      rw [← convertFields_bind_slots _ r fresh u found] at hstep
      rw [pure_bind, set_map_name hreader hf, bind_assoc, hname]
      exact hstep

/-- A record is read as it is resolved, when each pair of fields is read as it is converted. -/
theorem yields_record {writer reader : Schema} {r : Record} {bytes : List UInt8}
    (hwriter : writer.WellFormed) (hrep : writer.Representable) (hreader : reader.NamesDistinct)
    (hr : r.WellFormed) (hb : writer.encode r = .ok bytes) (hsize : bytes.length < UInt64.size)
    (hreads : ∀ f ∈ reader.fields, ∀ w ∈ writer.fields,
      f.type.ReadsAs reader.name f.name w.type) :
    (record writer.canonical reader (fieldDecoders reader.name reader.fields)).Yields bytes
      (reader.resolve writer r) := by
  have distinct := hwriter.namesDistinct
  obtain ⟨-, others, hothers, rfl⟩ := Schema.encode_eq_ok_iff.mp hb
  rw [List.length_append] at hsize
  rw [Schema.resolve_eq, record, Schema.name_canonical]
  by_cases hname : writer.name ≠ reader.name
  · rw [if_pos hname, if_pos hname]
    exact (yields_throw _).append_error _
  · rw [if_neg hname, if_neg hname]
    refine (FieldOrder.yields_encode distinct (by omega)).bind_ok ?_
    rw [slots_eq_foldlM_named hreader _ fun i hi => by
      rw [Schema.size_canonical]
      exact Schema.lt_of_mem_canonicalOrder distinct hi]
    -- At the start no slot is filled.
    have hloop := yields_named hreader hr (fun w hw => Schema.getElem?_canonicalIndex distinct hw)
      (fun w hw => ⟨((writer.wellFormed_iff).mp hwriter).2.2 w hw,
        (writer.representable_iff.mp hrep) w hw⟩)
      hreads writer.fields (fun _ => none) others (fun _ hw => hw) distinct hothers (by omega)
    simp only [Option.or_none] at hloop
    have hfinish : ∀ converted, (ofSchemaResult (fillSlots reader.name reader.fields
        (reader.fields.map fun f => converted.lookup f.name)) >>= fun fields =>
          pure (Record.ofFields reader.name fields)).Yields []
        (reader.fields.mapM (Field.complete reader.name converted) >>= fun completed =>
          .ok ⟨reader.name, completed⟩) := by
      intro converted
      refine (yields_fillSlots reader.name converted reader.fields).bind_nil fun completed h => ?_
      have hnames : (completed.map Prod.fst).Nodup := by
        rw [map_fst_of_complete h]
        exact hreader
      rw [Record.ofFields_eq hnames]
      exact yields_pure _
    cases hconverted :
      convertFields (fieldConverters reader.name reader.fields) r writer.fields with
    | error e =>
      rw [hconverted] at hloop
      exact hloop.bind_nil (s := fun _ => .error e) (fun a h => by cases h)
    | ok converted =>
      rw [hconverted] at hloop
      exact hloop.bind_ok_nil (hfinish converted)

/-! ## Reading maps -/

theorem insert_of_forall_lt {key : String} {v : Value} : ∀ {found : List (String × Value)},
    (∀ e ∈ found, e.1 < key) → Entries.insert key v found = found ++ [(key, v)]
  | [], _ => rfl
  | (k, u) :: rest, h => by
    have hlt : k < key := h (k, u) List.mem_cons_self
    have hnot : ¬ key < k := fun hgt => String.lt_irrefl k (String.lt_trans hlt hgt)
    have hne : ¬ key = k := by
      rintro rfl
      exact String.lt_irrefl key hlt
    rw [Entries.insert, if_neg hnot, if_neg hne,
      insert_of_forall_lt fun e he => h e (List.mem_cons_of_mem _ he), List.cons_append]

theorem hasKey_of_forall_lt {key : String} {found : List (String × Value)}
    (h : ∀ e ∈ found, e.1 < key) : Entries.hasKey key found = false := by
  rw [Entries.hasKey, List.any_eq_false]
  intro e he
  rw [beq_iff_eq]
  intro same
  exact String.lt_irrefl key (same ▸ h e he)

/-- The entries of a map are read in the ascending order in which they are written, behind those
found before. -/
theorem yields_entries {d : Decoder Value} {write : Value → Except ExchangeError (List UInt8)}
    (result : Value → Except ExchangeError Value) :
    ∀ (es found : List (String × Value)) (parts : List (List UInt8)),
      (es.mapM fun e => (write e.2).map (Wire.encodeString e.1 ++ ·)) = .ok parts →
      ((found ++ es).map Prod.fst).Pairwise (· < ·) → parts.flatten.length < UInt64.size →
      (∀ e ∈ es, ∀ part, write e.2 = .ok part → part.length ≤ parts.flatten.length →
        d.Yields part (result e.2)) →
      (entries d es.length found).Yields parts.flatten
        ((found ++ ·) <$> es.mapM fun e => (fun u => (e.1, u)) <$> result e.2)
  | [], found, parts, hparts, _, _, _ => by
    cases hparts
    rw [List.mapM_nil, map_pure, List.append_nil]
    exact yields_pure found
  | (key, v) :: rest, found, parts, hparts, ascending, hsize, h => by
    obtain ⟨part, others, hpart, hothers, rfl⟩ := mapM_cons_eq_ok_iff.mp hparts
    obtain ⟨first, hfirst, rfl⟩ := except_map_eq_ok_iff.mp hpart
    rw [List.flatten_cons, List.length_append, List.length_append] at hsize
    have hread := h (key, v) List.mem_cons_self first hfirst (by
      rw [List.flatten_cons, List.length_append, List.length_append]
      omega)
    -- Keys ascend, so that each entry comes behind those found before it.
    have hlt : ∀ e ∈ found, e.1 < key := by
      rw [List.map_append, List.pairwise_append] at ascending
      exact fun e he => ascending.2.2 e.1 (List.mem_map_of_mem he) key
        (List.mem_map_of_mem List.mem_cons_self)
    rw [List.append_cons] at ascending
    have hrest := fun u => yields_entries result rest (found ++ [(key, u)]) others hothers
      (by simpa using ascending) (by omega) fun e he p hp hle =>
        h e (List.mem_cons_of_mem _ he) p hp (by
          rw [List.flatten_cons, List.length_append]
          omega)
    rw [List.flatten_cons, List.length_cons, entries, List.append_assoc, List.mapM_cons]
    refine (Wire.yields_string (by omega)).bind_ok ?_
    simp only [List.append_assoc, List.singleton_append] at hrest
    simp only [map_eq_pure_bind, bind_assoc, pure_bind] at hrest ⊢
    refine hread.bind fun u _ => ?_
    have hinsert := insert_of_forall_lt (v := u) hlt
    simp only [hasKey_of_forall_lt hlt, Bool.false_eq_true, if_false, hinsert]
    exact hrest u

/-! ## Reading and converting agree -/

theorem yields_mismatch {α : Type} (cause : Mismatch) (bytes : List UInt8) :
    (mismatch cause : Decoder α).Yields bytes (.error (.mismatch cause)) :=
  (yields_throw _).append_error bytes

mutual

/-- Whatever was written as one type is read as another the way it is converted. -/
theorem FieldType.yields_convert (typeName field : String) : ∀ wanted written : FieldType,
    wanted.WellFormed → written.WellFormed → written.Representable →
      wanted.ReadsAs typeName field written
  | .optional inner, written, h, hw, hrep => by
    intro tn fd v bytes hb hv hsize
    cases written with
    | optional w =>
      rw [FieldType.encode] at hb
      rw [FieldType.convert]
      split at hb
      next hnull =>
        cases hb
        rw [if_pos hnull]
        exact (yields_branch false).bind_ok_nil (yields_pure _)
      next hnull =>
        obtain ⟨others, hothers, rfl⟩ := except_map_eq_ok_iff.mp hb
        rw [List.length_append] at hsize
        rw [if_neg hnull]
        exact (yields_branch true).bind_ok
          (inner.yields_convert typeName field w h hw hrep tn fd v others hothers hv (by omega))
    -- What was not written as optional is read as a value that is there.
    | _ => exact inner.yields_convert typeName field _ h hw hrep tn fd v bytes hb hv hsize
  | .bool, written, _, _, _ => by
    intro tn fd v bytes hb _ _
    cases written with
    | bool =>
      cases v <;> cases hb
      exact (Wire.yields_bool _).map_ok _
    | _ => exact yields_mismatch _ _
  | .int, written, _, _, _ => by
    intro tn fd v bytes hb _ _
    cases written with
    | int =>
      cases v <;> cases hb
      exact (Wire.yields_int _).map_ok _
    | _ => exact yields_mismatch _ _
  | .long, written, _, _, _ => by
    intro tn fd v bytes hb _ _
    cases written with
    | int =>
      cases v <;> cases hb
      exact (Wire.yields_int _).map_ok _
    | long =>
      cases v <;> cases hb
      exact (Wire.yields_long _).map_ok _
    | _ => exact yields_mismatch _ _
  | .float, written, _, _, _ => by
    intro tn fd v bytes hb _ _
    cases written with
    | int =>
      cases v <;> cases hb
      exact (Wire.yields_int _).map_ok _
    | long =>
      cases v <;> cases hb
      exact (Wire.yields_long _).map_ok _
    | float =>
      cases v <;> cases hb
      exact (Wire.yields_float _).map_ok _
    | _ => exact yields_mismatch _ _
  | .double, written, _, _, _ => by
    intro tn fd v bytes hb _ _
    cases written with
    | int =>
      cases v <;> cases hb
      exact (Wire.yields_int _).map_ok _
    | long =>
      cases v <;> cases hb
      exact (Wire.yields_long _).map_ok _
    | float =>
      cases v <;> cases hb
      exact (Wire.yields_float _).map_ok _
    | double =>
      cases v <;> cases hb
      exact (Wire.yields_double _).map_ok _
    | _ => exact yields_mismatch _ _
  | .string, written, _, _, _ => by
    intro tn fd v bytes hb _ hsize
    cases written with
    | string =>
      cases v <;> cases hb
      exact (Wire.yields_string hsize).map_ok _
    | _ => exact yields_mismatch _ _
  | .bytes, written, _, _, _ => by
    intro tn fd v bytes hb _ hsize
    cases written with
    | bytes =>
      cases v <;> cases hb
      exact (Wire.yields_bytes hsize).map_ok _
    | _ => exact yields_mismatch _ _
  | .enum wanted, written, _, _, hrep => by
    intro tn fd v bytes hb _ _
    cases written with
    | enum symbols =>
      cases v with
      | symbol s =>
        obtain ⟨i, hi, rfl⟩ := FieldType.encode_symbol_eq_ok_iff.mp hb
        refine (yields_symbol_of_idxOf? hrep hi).bind_ok_nil ?_
        rw [FieldType.convert]
        by_cases hs : wanted.contains s = true
        · rw [if_pos hs, if_pos hs]
          exact yields_pure _
        · rw [if_neg hs, if_neg hs]
          exact yields_mismatch _ _
      | _ => cases hb
    | _ => exact yields_mismatch _ _
  | .list item, written, h, hw, hrep => by
    intro tn fd v bytes hb hv hsize
    cases written with
    | list w =>
      cases v with
      | list vs =>
        obtain ⟨parts, hparts, hb⟩ := except_bind_eq_ok.mp hb
        cases hb
        rw [List.length_append] at hsize
        refine Wire.yields_length_bind
          (length_le_flatten hparts fun v _ part hpart => FieldType.encode_pos hpart) (by omega) ?_
        have hloop := yields_times (fun v => item.convert typeName field w v) vs parts
          hparts fun v hmem part hpart hle =>
            item.yields_convert typeName field w h hw hrep tn fd v part hpart
              (wellFormedItems_iff.mp hv v hmem) (by omega)
        exact hloop.map _
      | _ => cases hb
    | _ => exact yields_mismatch _ _
  | .map item, written, h, hw, hrep => by
    intro tn fd v bytes hb hv hsize
    cases written with
    | map w =>
      cases v with
      | map es =>
        obtain ⟨parts, hparts, hb⟩ := except_bind_eq_ok.mp hb
        cases hb
        rw [List.length_append] at hsize
        refine Wire.yields_length_bind
          (length_le_flatten hparts fun e _ part hpart => encodeEntry_pos hpart) (by omega) ?_
        have hloop := yields_entries (fun v => item.convert typeName field w v) es [] parts
          hparts hv.1 (by omega) fun e hmem part hpart hle =>
            item.yields_convert typeName field w h hw hrep tn fd e.2 part hpart
              (wellFormedEntries_iff.mp hv.2 e hmem) (by omega)
        simp only [List.nil_append, id_map'] at hloop
        exact hloop.map Value.map
      | _ => cases hb
    | _ => exact yields_mismatch _ _
  | .record reader, written, h, hw, hrep => by
    intro tn fd v bytes hb hv hsize
    cases written with
    | record writer =>
      cases v with
      | record r => exact (reader.yields_resolve writer r bytes h hw hrep hb hv hsize).map _
      | _ => cases hb
    | _ => exact yields_mismatch _ _
termination_by structural wanted => wanted

/-- Whatever was written with one schema is read with another the way it is resolved. -/
theorem Schema.yields_resolve : ∀ (reader writer : Schema) (r : Record) (bytes : List UInt8),
    reader.WellFormed → writer.WellFormed → writer.Representable → writer.encode r = .ok bytes →
      r.WellFormed → bytes.length < UInt64.size →
      (reader.decodeFrom writer.canonical).Yields bytes (reader.resolve writer r)
  | ⟨name, fields⟩, writer, r, bytes, h, hw, hrep, hb, hr, hsize => by
    have distinct : Schema.NamesDistinct ⟨name, fields⟩ := h.namesDistinct
    exact yields_record hw hrep distinct hr hb hsize fun f hf w hmem =>
      readsAs_of_mem name fields h.2.2 f hf w.type
        (((writer.wellFormed_iff).mp hw).2.2 w hmem).2.1
        ((writer.representable_iff.mp hrep) w hmem).1
termination_by structural reader => reader

theorem readsAs_of_mem (typeName : String) : ∀ fields : List Field, WellFormedFields fields →
    ∀ f ∈ fields, ∀ written : FieldType, written.WellFormed → written.Representable →
      f.type.ReadsAs typeName f.name written
  | [], _, _, hf, _, _, _ => absurd hf List.not_mem_nil
  | ⟨name, type, dflt⟩ :: rest, h, f, hf, written, hw, hrep => by
    rcases List.mem_cons.mp hf with rfl | hf
    · exact type.yields_convert typeName name written h.1.2.1 hw hrep
    · exact readsAs_of_mem typeName rest h.2 f hf written hw hrep
termination_by structural fields => fields

end

/-- **Writing and then reading is resolution.** A record that a checked schema accepts can be
written, and every reader with a checked schema makes of the bytes what resolution makes of the
record, in front of any further bytes and wherever they start: the same record, with nothing else
read, or the same failure. -/
theorem Schema.decodeFrom_encode {writer reader : Schema} {r : Record}
    (hwriter : writer.check = .ok ()) (hreader : reader.check = .ok ())
    (hrep : writer.Representable) (hr : r.WellFormed)
    (haccepts : (FieldType.record writer).accepts (.record r) = true) :
    ∃ bytes, writer.encode r = .ok bytes ∧
      (bytes.length < UInt64.size →
        (reader.decodeFrom writer.canonical).Yields bytes (reader.resolve writer r)) := by
  have hw := writer.check_eq_ok_iff.mp hwriter
  have hrd := reader.check_eq_ok_iff.mp hreader
  rw [FieldType.accepts] at haccepts
  obtain ⟨bytes, hbytes⟩ := (writer.encode_isOk_iff r hw).mpr haccepts
  exact ⟨bytes, hbytes, reader.yields_resolve writer r bytes hrd hw hrep hbytes hr⟩

/-- An order as it was first declared. -/
def firstOrder : Schema :=
  ⟨"Order",
    [⟨"id", .int, none⟩, ⟨"weight", .float, some (.float 0x3f800000)⟩,
      ⟨"marks", .list .bool, none⟩, ⟨"kind", .enum ["gift", "plain"], none⟩,
      ⟨"part", .record ⟨"Part", [⟨"count", .int, none⟩]⟩, none⟩]⟩

/-- An order as it was declared later: wider numbers, an optional part that has a default of its
own, one field more and one less. -/
def laterOrder : Schema :=
  ⟨"Order",
    [⟨"part", .optional (.record ⟨"Part",
        [⟨"new", .bool, some (.bool true)⟩, ⟨"count", .long, none⟩]⟩), none⟩,
      ⟨"note", .optional .string, none⟩, ⟨"id", .long, none⟩, ⟨"weight", .double, none⟩,
      ⟨"kind", .enum ["plain"], none⟩]⟩

/-- An order of the first kind that leaves its weight out. -/
def plainOrder : Record :=
  ⟨"Order",
    [("id", .int (-1)), ("marks", .list [.bool true]), ("kind", .symbol "plain"),
      ("part", .record ⟨"Part", [("count", .int 7)]⟩)]⟩

theorem decodeFrom_encode_plainOrder :
    firstOrder.encode plainOrder
        = .ok [1, 5, 0, 4, 2, 1, 3, 1, 0, 0, 0x80, 0x3f, 1, 1, 1, 0, 14] ∧
      (laterOrder.decodeFrom firstOrder.canonical).Yields
        [1, 5, 0, 4, 2, 1, 3, 1, 0, 0, 0x80, 0x3f, 1, 1, 1, 0, 14]
        (.ok ⟨"Order",
          [("part", .record ⟨"Part", [("new", .bool true), ("count", .long 7)]⟩), ("note", .null),
            ("id", .long (-1)), ("weight", .double 0x3ff0000000000000),
            ("kind", .symbol "plain")]⟩) := by
  have hrep : firstOrder.Representable := by
    simp [firstOrder, Schema.Representable, RepresentableFields, FieldType.Representable,
      Value.WellFormed, UInt64.size]
  have hr : plainOrder.WellFormed := by
    simp [plainOrder, Record.WellFormed, WellFormedEntries, Value.WellFormed, WellFormedItems]
  have hencode : firstOrder.encode plainOrder
      = .ok [1, 5, 0, 4, 2, 1, 3, 1, 0, 0, 0x80, 0x3f, 1, 1, 1, 0, 14] := rfl
  obtain ⟨bytes, hbytes, h⟩ :=
    @Schema.decodeFrom_encode firstOrder laterOrder plainOrder rfl rfl hrep hr rfl
  rw [hencode] at hbytes
  cases hbytes
  exact ⟨rfl, h (by decide)⟩

end RecordExchange
