import RecordExchange.Proofs.Evolution
import RecordExchange.Proofs.NormalForm

/-!
# Fields that are added

A schema may gain fields that have defaults. A record that sets none of them is written without them
by those who do not know the fields yet, and with their defaults by those who do. Who reads the
first message fills the defaults in as they are declared; who reads the second one finds them in
normal form. Both have the same record only if this makes no difference.

- `Schema.without`: a schema before fields were added.
- `Schema.olderForm`: a record of before, with the defaults as they are declared.
- `Schema.resolve_without`: what the schema makes of a record that was written before.
- `Schema.decodeFrom_encode_without`: both readings, and when they agree.
-/

namespace RecordExchange

/-! ## Schemas without fields that were added -/

/-- The schema without the fields of some names. -/
def Schema.without (s : Schema) (added : String → Bool) : Schema :=
  ⟨s.name, s.fields.filter fun f => !added f.name⟩

variable {s : Schema} {added : String → Bool} {r : Record}

theorem Schema.mem_fields_without {f : Field} :
    f ∈ (s.without added).fields ↔ f ∈ s.fields ∧ added f.name = false := by
  show f ∈ s.fields.filter _ ↔ _
  rw [List.mem_filter, Bool.not_eq_true']

theorem Schema.nodup_without (h : (s.fields.map Field.name).Nodup) :
    ((s.without added).fields.map Field.name).Nodup :=
  (List.filter_sublist.map Field.name).nodup h

theorem Schema.WellFormed.without (h : s.WellFormed) : (s.without added).WellFormed := by
  obtain ⟨hname, distinct, hfields⟩ := s.wellFormed_iff.mp h
  refine (Schema.wellFormed_iff _).mpr ⟨hname, Schema.nodup_without distinct, fun f hf => ?_⟩
  exact hfields f (Schema.mem_fields_without.mp hf).1

theorem Schema.Representable.without (h : s.Representable) : (s.without added).Representable := by
  rw [Schema.representable_iff] at h ⊢
  intro f hf
  exact h f (Schema.mem_fields_without.mp hf).1

/-- Where all fields can be written, some of them can. -/
theorem exists_encodeFields_filter {typeName : String} (p : Field → Bool) : ∀ {fields : List Field}
    {bytes : List UInt8}, encodeFields typeName fields r = .ok bytes →
      ∃ some, encodeFields typeName (fields.filter p) r = .ok some
  | [], _, _ => ⟨[], rfl⟩
  | f :: rest, _, h => by
    obtain ⟨v, first, others, hv, hfirst, hothers, -⟩ := encodeFields_cons_eq_ok_iff.mp h
    obtain ⟨kept, hkept⟩ := exists_encodeFields_filter p hothers
    rw [List.filter_cons]
    split
    · exact ⟨first ++ kept,
        encodeFields_cons_eq_ok_iff.mpr ⟨v, first, kept, hv, hfirst, hkept, rfl⟩⟩
    · exact ⟨kept, hkept⟩

/-- A record that can be written could be written before. -/
theorem Schema.exists_encode_without {bytes : List UInt8} (h : s.encode r = .ok bytes) :
    ∃ older, (s.without added).encode r = .ok older := by
  obtain ⟨hname, others, hothers, -⟩ := Schema.encode_eq_ok_iff.mp h
  obtain ⟨kept, hkept⟩ := exists_encodeFields_filter (fun f => !added f.name) hothers
  exact ⟨_, Schema.encode_eq_ok_iff.mpr ⟨hname, kept, hkept, rfl⟩⟩

/-! ## Records of before -/

/-- A record of before the fields of some names were added: these hold their defaults as they are
declared, the others are in normal form. -/
def Schema.olderForm (s : Schema) (added : String → Bool) (r : Record) : Record :=
  ⟨s.name, s.fields.filterMap fun f =>
    (r.valueOf f).map fun v => (f.name, if added f.name then v else f.type.normalize v)⟩

theorem normalFields_eq_filterMap (fields : List Field) (r : Record) :
    normalFields fields r
      = fields.filterMap fun f => (r.valueOf f).map fun v => (f.name, f.type.normalize v) := by
  induction fields with
  | nil => rfl
  | cons f rest ih =>
    obtain ⟨name, type, dflt⟩ := f
    rw [normalFields, List.filterMap_cons]
    cases r.valueOf ⟨name, type, dflt⟩ with
    | none => exact ih
    | some v => rw [ih]; rfl

theorem Schema.normalForm_eq (s : Schema) (r : Record) :
    s.normalForm r
      = ⟨s.name, s.fields.filterMap fun f =>
          (r.valueOf f).map fun v => (f.name, f.type.normalize v)⟩ := by
  obtain ⟨name, fields⟩ := s
  rw [Schema.normalForm, normalFields_eq_filterMap]

/-- All fields of a record that can be written have a value. -/
theorem exists_valueOf_of_encodeFields {typeName : String} : ∀ {fields : List Field}
    {bytes : List UInt8}, encodeFields typeName fields r = .ok bytes →
      ∀ f ∈ fields, ∃ v, r.valueOf f = some v
  | [], _, _, _, hf => absurd hf List.not_mem_nil
  | _ :: _, _, h, f, hf => by
    obtain ⟨v, first, others, hv, -, hothers, -⟩ := encodeFields_cons_eq_ok_iff.mp h
    rcases List.mem_cons.mp hf with rfl | hf
    · exact ⟨v, hv⟩
    · exact exists_valueOf_of_encodeFields hothers f hf

/-- A loop each of whose steps succeeds with something that is there gives what is there. -/
theorem mapM_eq_ok_filterMap {α β ε : Type} {g : α → Except ε β} {h : α → Option β} :
    ∀ {l : List α}, (∀ a ∈ l, ∃ b, h a = some b ∧ g a = .ok b) → l.mapM g = .ok (l.filterMap h)
  | [], _ => rfl
  | a :: rest, hsteps => by
    obtain ⟨b, hb, hg⟩ := hsteps a List.mem_cons_self
    have hrest := mapM_eq_ok_filterMap fun c hc => hsteps c (List.mem_cons_of_mem a hc)
    rw [List.filterMap_cons_some hb]
    exact mapM_cons_eq_ok_iff.mpr ⟨b, _, hg, hrest, rfl⟩

/-- A field of a normal form is found by its name. -/
theorem lookup_normalFields_of_mem {typeName : String} {fields : List Field} {bytes : List UInt8}
    (h : encodeFields typeName fields r = .ok bytes) (distinct : (fields.map Field.name).Nodup)
    {f : Field} (hf : f ∈ fields) {v : Value} (hv : r.valueOf f = some v) :
    (normalFields fields r).lookup f.name = some (f.type.normalize v) := by
  have hentry : (f.name, f.type.normalize v) ∈ normalFields fields r := by
    rw [normalFields_eq_filterMap]
    exact List.mem_filterMap.mpr ⟨f, hf, by rw [hv]; rfl⟩
  rw [← map_fst_normalFields h] at distinct
  exact lookup_of_mem distinct hentry

/-- Under other names than those of its fields a normal form has nothing. -/
theorem lookup_normalFields_of_not_mem {typeName : String} {fields : List Field}
    {bytes : List UInt8} (h : encodeFields typeName fields r = .ok bytes) {n : String}
    (hn : n ∉ fields.map Field.name) : (normalFields fields r).lookup n = none := by
  rw [List.lookup_eq_none_iff]
  intro e he
  rw [bne_iff_ne]
  intro same
  rw [← map_fst_normalFields h, same] at hn
  exact hn (List.mem_map_of_mem he)

/-- A field that was added is completed with its default as it is declared, any other one with its
value in normal form. -/
theorem Schema.complete_without (distinct : (s.fields.map Field.name).Nodup) {bytes : List UInt8}
    (hencode : encodeFields s.name (s.without added).fields r = .ok bytes) {f : Field}
    (hf : f ∈ s.fields) (hunset : added f.name = true → r.get? f.name = none) {v : Value}
    (hv : r.valueOf f = some v) :
    Field.complete s.name (normalFields (s.without added).fields r) f
      = .ok (f.name, if added f.name then v else f.type.normalize v) := by
  cases hadded : added f.name with
  | true =>
    -- No field of the older schema has this name, so that nothing was written for it.
    have hnew : f.name ∉ (s.without added).fields.map Field.name := by
      intro hmem
      obtain ⟨g, hg, hname⟩ := List.mem_map.mp hmem
      have hold := (Schema.mem_fields_without.mp hg).2
      rw [hname, hadded] at hold
      cases hold
    rw [Record.valueOf, hunset hadded, Option.none_or] at hv
    rw [Field.complete, lookup_normalFields_of_not_mem hencode hnew, Option.none_or, hv]
    rfl
  | false =>
    have hold : f ∈ (s.without added).fields := Schema.mem_fields_without.mpr ⟨hf, hadded⟩
    rw [Field.complete, lookup_normalFields_of_mem hencode (Schema.nodup_without distinct) hold hv]
    rfl

/-- What a schema makes of a record that was written before some of its fields were added, and that
sets none of these. -/
theorem Schema.resolve_without (hs : s.WellFormed) {bytes : List UInt8}
    (hencode : s.encode r = .ok bytes)
    (hunset : ∀ f ∈ s.fields, added f.name = true → r.get? f.name = none) :
    s.resolve (s.without added) r = .ok (s.olderForm added r) := by
  obtain ⟨-, distinct, hfields⟩ := s.wellFormed_iff.mp hs
  obtain ⟨-, others, hothers, -⟩ := Schema.encode_eq_ok_iff.mp hencode
  obtain ⟨kept, hkept⟩ : ∃ kept, encodeFields s.name (s.without added).fields r = .ok kept :=
    exists_encodeFields_filter _ hothers
  have hlookup : ∀ f ∈ (s.without added).fields,
      (fieldConverters s.name s.fields).lookup f.name = some (f.type.convert s.name f.name) :=
    fun f hf => lookup_fieldConverters_of_mem distinct (Schema.mem_fields_without.mp hf).1
  -- What was written is read with the types it was written with.
  have hconvert : convertFields (fieldConverters s.name s.fields) r (s.without added).fields
      = .ok (normalFields (s.without added).fields r) := by
    refine convertFields_self hkept hlookup fun f hf v part hpart => ?_
    have hwell := hfields f (Schema.mem_fields_without.mp hf).1
    exact f.type.convert_self s.name f.name hwell.2.1 s.name f.name v part hpart
  -- Fields that were added find nothing and take their default as it stands.
  have hcomplete : s.fields.mapM
      (Field.complete s.name (normalFields (s.without added).fields r))
        = .ok (s.olderForm added r).fields := by
    refine mapM_eq_ok_filterMap fun f hf => ?_
    obtain ⟨v, hv⟩ := exists_valueOf_of_encodeFields hothers f hf
    exact ⟨_, by rw [hv]; rfl, Schema.complete_without distinct hkept hf (hunset f hf) hv⟩
  rw [Schema.resolve_eq, if_neg fun hne => hne rfl, hconvert]
  show (s.fields.mapM (Field.complete s.name _) >>= _) = _
  rw [hcomplete]
  rfl

/-! ## When it makes no difference -/

/-- What is kept of each element of a list is the same when it is so for every element. -/
theorem filterMap_eq_filterMap_iff {α β : Type} {g h : α → Option β} : ∀ {l : List α},
    (∀ a ∈ l, (g a).isSome = true ∧ (h a).isSome = true) →
      (l.filterMap g = l.filterMap h ↔ ∀ a ∈ l, g a = h a)
  | [], _ => by simp
  | a :: rest, hsome => by
    obtain ⟨b, hb⟩ := Option.isSome_iff_exists.mp (hsome a List.mem_cons_self).1
    obtain ⟨c, hc⟩ := Option.isSome_iff_exists.mp (hsome a List.mem_cons_self).2
    have hrest := filterMap_eq_filterMap_iff fun d hd => hsome d (List.mem_cons_of_mem a hd)
    rw [List.filterMap_cons_some hb, List.filterMap_cons_some hc, List.forall_mem_cons, hb, hc,
      ← hrest, List.cons.injEq, Option.some_inj]

/-- The older form is the normal form when the defaults of the fields that were added are in normal
form themselves. -/
theorem Schema.olderForm_eq_normalForm_iff {bytes : List UInt8} (hencode : s.encode r = .ok bytes)
    (hunset : ∀ f ∈ s.fields, added f.name = true → r.get? f.name = none) :
    s.olderForm added r = s.normalForm r ↔
      ∀ f ∈ s.fields, added f.name = true → ∀ v, f.defaultValue = some v →
        f.type.normalize v = v := by
  obtain ⟨-, others, hothers, -⟩ := Schema.encode_eq_ok_iff.mp hencode
  have hvalue := exists_valueOf_of_encodeFields hothers
  rw [Schema.normalForm_eq, Schema.olderForm, Record.mk.injEq, filterMap_eq_filterMap_iff]
  · simp only [true_and]
    refine forall₂_congr fun f hf => ?_
    obtain ⟨v, hv⟩ := hvalue f hf
    -- Only a field that was added can stand differently in the two forms.
    cases hadded : added f.name with
    | true =>
      have hdefault : f.defaultValue = some v := by
        rw [Record.valueOf, hunset f hf hadded, Option.none_or] at hv
        exact hv
      rw [hv, hdefault]
      simp [eq_comm]
    | false => simp
  · intro f hf
    obtain ⟨v, hv⟩ := hvalue f hf
    rw [hv]
    exact ⟨rfl, rfl⟩

/-- **Fields that are added.** A record that a checked schema accepts, and that sets none of some
fields, can be written with the schema and could be written before these fields were there. The
schema reads both messages to their end: it makes the normal form of the record of the one that has
the defaults, and the older form of the other one, where defaults stand as they are declared. These
are the same record exactly when the defaults in question are in normal form. -/
theorem Schema.decodeFrom_encode_without (hs : s.check = .ok ()) (hrep : s.Representable)
    (hr : r.WellFormed) (haccepts : (FieldType.record s).accepts (.record r) = true)
    (hunset : ∀ f ∈ s.fields, added f.name = true → r.get? f.name = none) :
    ∃ older newer, (s.without added).encode r = .ok older ∧ s.encode r = .ok newer ∧
      (older.length < UInt64.size →
        (s.decodeFrom (s.without added).canonical).Yields older (.ok (s.olderForm added r))) ∧
      (newer.length < UInt64.size →
        (s.decodeFrom s.canonical).Yields newer (.ok (s.normalForm r))) ∧
      (s.olderForm added r = s.normalForm r ↔
        ∀ f ∈ s.fields, added f.name = true → ∀ v, f.defaultValue = some v →
          f.type.normalize v = v) := by
  have hw := s.check_eq_ok_iff.mp hs
  rw [FieldType.accepts] at haccepts
  obtain ⟨newer, hnewer⟩ := (s.encode_isOk_iff r hw).mpr haccepts
  obtain ⟨older, holder⟩ : ∃ older, (s.without added).encode r = .ok older :=
    Schema.exists_encode_without hnewer
  refine ⟨older, newer, holder, hnewer, fun hsize => ?_, fun hsize => ?_,
    Schema.olderForm_eq_normalForm_iff hnewer hunset⟩
  -- Either message is read as what the schema makes of the record.
  · rw [← Schema.resolve_without hw hnewer hunset]
    exact s.yields_resolve _ r older hw hw.without hrep.without holder hr hsize
  · rw [← s.resolve_self hw r newer hnewer]
    exact s.yields_resolve s r newer hw hw hrep hnewer hr hsize

/-! ## Shipments that gain a label -/

/-- Shipments had a weight only and gained a label, of which a default is given. -/
def shipment (label : Record) : Schema :=
  ⟨"Shipment",
    [⟨"weight", .int, none⟩,
      ⟨"label", .record ⟨"Label", [⟨"copies", .int, some (.int 1)⟩]⟩, some (.record label)⟩]⟩

/-- A shipment whose default label has all its fields. -/
def fullShipment : Schema := shipment ⟨"Label", [("copies", .int 1)]⟩

/-- A shipment whose default label leaves the number of copies to its own default. -/
def bareShipment : Schema := shipment ⟨"Label", []⟩

/-- The field that was added. -/
def isLabel (name : String) : Bool := name == "label"

/-- A shipment that sets no label. -/
def bale : Record := ⟨"Shipment", [("weight", .int 3)]⟩

/-- A shipment with a label of which there is one copy. -/
def labelledBale : Record :=
  ⟨"Shipment", [("weight", .int 3), ("label", .record ⟨"Label", [("copies", .int 1)]⟩)]⟩

theorem representable_shipment {label : Record} (h : label.WellFormed) :
    (shipment label).Representable := by
  simp [shipment, Schema.Representable, RepresentableFields, FieldType.Representable,
    Value.WellFormed, h]

theorem wellFormed_bale : bale.WellFormed := by
  simp [bale, Record.WellFormed, WellFormedEntries, Value.WellFormed]

/-- A default with all its fields is the same for both readings. -/
theorem decodeFrom_encode_without_label :
    (fullShipment.without isLabel).encode bale = .ok [0, 6] ∧
      fullShipment.encode bale = .ok [1, 2, 1, 0, 6, 0, 2] ∧
      (fullShipment.decodeFrom (fullShipment.without isLabel).canonical).Yields [0, 6]
        (.ok labelledBale) ∧
      (fullShipment.decodeFrom fullShipment.canonical).Yields [1, 2, 1, 0, 6, 0, 2]
        (.ok labelledBale) := by
  have hlabel : Record.WellFormed ⟨"Label", [("copies", .int 1)]⟩ := by
    simp [Record.WellFormed, WellFormedEntries, Value.WellFormed]
  have hunset : ∀ f ∈ fullShipment.fields, isLabel f.name = true → bale.get? f.name = none := by
    decide
  obtain ⟨older, newer, holder, hnewer, hyields, hyields', -⟩ :=
    Schema.decodeFrom_encode_without (s := fullShipment) rfl (representable_shipment hlabel)
      wellFormed_bale rfl hunset
  have hbytes : (fullShipment.without isLabel).encode bale = .ok [0, 6] := rfl
  have hbytes' : fullShipment.encode bale = .ok [1, 2, 1, 0, 6, 0, 2] := rfl
  cases hbytes.symm.trans holder
  cases hbytes'.symm.trans hnewer
  exact ⟨hbytes, hbytes', hyields (by decide), hyields' (by decide)⟩

/-- A default that leaves a field out is sent with the field, but filled in without it, so that one
record is read as two different ones. -/
theorem decodeFrom_bareShipment :
    bareShipment.check = .ok () ∧
      (FieldType.record bareShipment).accepts (.record bale) = true ∧
      (bareShipment.without isLabel).encode bale = .ok [0, 6] ∧
      bareShipment.encode bale = .ok [1, 2, 1, 0, 6, 0, 2] ∧
      (bareShipment.decodeFrom (bareShipment.without isLabel).canonical).run (Cursor.start [0, 6])
        = .ok ⟨"Shipment", [("weight", .int 3), ("label", .record ⟨"Label", []⟩)]⟩ ⟨[], 2⟩ ∧
      (bareShipment.decodeFrom bareShipment.canonical).run (Cursor.start [1, 2, 1, 0, 6, 0, 2])
        = .ok labelledBale ⟨[], 7⟩ ∧
      ¬ ∃ read after after',
        (bareShipment.decodeFrom (bareShipment.without isLabel).canonical).run
          (Cursor.start [0, 6]) = .ok read after ∧
        (bareShipment.decodeFrom bareShipment.canonical).run
          (Cursor.start [1, 2, 1, 0, 6, 0, 2]) = .ok read after' := by
  have hlabel : Record.WellFormed ⟨"Label", []⟩ := by
    simp [Record.WellFormed, WellFormedEntries]
  have hw : bareShipment.WellFormed := bareShipment.check_eq_ok_iff.mp rfl
  have hrep : bareShipment.Representable := representable_shipment hlabel
  have hbytes : (bareShipment.without isLabel).encode bale = .ok [0, 6] := rfl
  have hbytes' : bareShipment.encode bale = .ok [1, 2, 1, 0, 6, 0, 2] := rfl
  have holder := bareShipment.yields_resolve _ bale [0, 6] hw hw.without hrep.without hbytes
    wellFormed_bale (by decide) [] 0
  have hnewer := bareShipment.yields_resolve _ bale _ hw hw hrep hbytes' wellFormed_bale
    (by decide) [] 0
  refine ⟨rfl, rfl, hbytes, hbytes', holder, hnewer, ?_⟩
  -- Reading depends on the bytes alone, so that the two results would be one.
  rintro ⟨read, after, after', hread, hread'⟩
  cases holder.symm.trans hread
  cases hnewer.symm.trans hread'

end RecordExchange
