import Mathlib.Data.List.Perm.Subperm
import RecordExchange.Proofs.Primitive
import RecordExchange.Schema.Validity

/-!
# Canonical order

The canonical schema lists the fields of a schema by name. Where the names are distinct, each
declared field has one place there, and the field order that is written in front of a record leads
from the declared places to the canonical ones.

- `sortFields_eq_of_perm`: sorting forgets the order in which fields are declared.
- `Schema.canonical_canonical`: a canonical schema is its own canonical schema.
- `Schema.getElem?_canonicalIndex`: the place of a field in the canonical schema.
- `Schema.perm_canonicalOrder`: the canonical order names each place once.
- `Schema.isCanonicalOrder_iff`: canonical order is ascending order of names.
- `FieldOrder.yields_encode`: the order that is written is the order that is read.
-/

namespace RecordExchange

/-! ## Sorted fields -/

theorem sortFields_perm (fields : List Field) : (sortFields fields).Perm fields :=
  List.mergeSort_perm _ _

theorem pairwise_sortFields (fields : List Field) :
    (sortFields fields).Pairwise fun a b => a.name ≤ b.name := by
  have htrans : ∀ a b c : Field, decide (a.name ≤ b.name) = true → decide (b.name ≤ c.name) = true →
      decide (a.name ≤ c.name) = true := by
    simp only [decide_eq_true_eq]
    exact fun a b c => String.le_trans
  have htotal : ∀ a b : Field, (decide (a.name ≤ b.name) || decide (b.name ≤ a.name)) = true := by
    simp only [Bool.or_eq_true, decide_eq_true_eq]
    exact fun a b => String.le_total a.name b.name
  have h := List.pairwise_mergeSort htrans htotal fields
  simp only [decide_eq_true_eq] at h
  exact h

/-- Fields that are sorted already stay as they are. -/
theorem sortFields_of_pairwise {fields : List Field}
    (h : fields.Pairwise fun a b => a.name ≤ b.name) : sortFields fields = fields :=
  List.mergeSort_of_pairwise (by simpa using h)

/-- Of fields with distinct names there is only one of each name. -/
theorem eq_of_name_eq : ∀ {fields : List Field}, (fields.map Field.name).Nodup →
    ∀ {f g : Field}, f ∈ fields → g ∈ fields → f.name = g.name → f = g
  | [], _, _, _, hf, _, _ => absurd hf List.not_mem_nil
  | first :: rest, distinct, f, g, hf, hg, same => by
    rw [List.map_cons, List.nodup_cons] at distinct
    obtain ⟨fresh, distinct⟩ := distinct
    rcases List.mem_cons.mp hf with rfl | hf'
    · rcases List.mem_cons.mp hg with rfl | hg'
      · rfl
      · exact absurd (same ▸ List.mem_map_of_mem hg') fresh
    · rcases List.mem_cons.mp hg with rfl | hg'
      · exact absurd (same ▸ List.mem_map_of_mem hf') fresh
      · exact eq_of_name_eq distinct hf' hg' same

/-- Sorting brings fields of distinct names into one order, whatever order they come in. -/
theorem sortFields_eq_of_perm {fields others : List Field} (h : fields.Perm others)
    (distinct : (fields.map Field.name).Nodup) : sortFields fields = sortFields others := by
  -- Sorting leaves open only the order of fields of one name, and no two fields have one.
  refine List.Perm.eq_of_pairwise ?_ (pairwise_sortFields fields) (pairwise_sortFields others)
    ((sortFields_perm fields).trans (h.trans (sortFields_perm others).symm))
  intro a b ha hb hab hba
  have ha' : a ∈ fields := (sortFields_perm fields).mem_iff.mp ha
  have hb' : b ∈ fields := h.mem_iff.mpr ((sortFields_perm others).mem_iff.mp hb)
  exact eq_of_name_eq distinct ha' hb' (String.le_antisymm hab hba)

/-- Where names are distinct, no two neighbours are equal in order. -/
theorem pairwise_lt_sortFields {fields : List Field} (distinct : (fields.map Field.name).Nodup) :
    (sortFields fields).Pairwise fun a b => a.name < b.name := by
  have hne : (sortFields fields).Pairwise fun a b => a.name ≠ b.name :=
    List.pairwise_map.mp (((sortFields_perm fields).map Field.name).nodup_iff.mpr distinct)
  exact (pairwise_sortFields fields).imp₂
    (fun a b hle hne => Std.lt_of_le_of_ne hle hne) hne

/-! ## Canonical schemas -/

/-- A field as it stands in the canonical schema. -/
def Field.canonical (f : Field) : Field := ⟨f.name, f.type.canonical, none⟩

@[simp] theorem Field.name_canonical (f : Field) : f.canonical.name = f.name := rfl

theorem canonicalFields_eq_map (fields : List Field) :
    canonicalFields fields = fields.map Field.canonical := by
  induction fields with
  | nil => rfl
  | cons f rest ih =>
    obtain ⟨name, type, dflt⟩ := f
    simp only [canonicalFields, ih, List.map_cons, Field.canonical]

theorem map_name_canonical (fields : List Field) :
    (fields.map Field.canonical).map Field.name = fields.map Field.name := by
  rw [List.map_map]
  rfl

namespace Schema

@[simp] theorem name_canonical (s : Schema) : s.canonical.name = s.name := by
  obtain ⟨name, fields⟩ := s
  rfl

theorem fields_canonical (s : Schema) :
    s.canonical.fields = sortFields (s.fields.map Field.canonical) := by
  obtain ⟨name, fields⟩ := s
  rw [Schema.canonical, canonicalFields_eq_map]

theorem fields_canonical_perm (s : Schema) :
    s.canonical.fields.Perm (s.fields.map Field.canonical) := by
  rw [fields_canonical]
  exact sortFields_perm _

@[simp] theorem size_canonical (s : Schema) : s.canonical.size = s.size := by
  rw [size, s.fields_canonical_perm.length_eq, List.length_map, size]

end Schema

mutual

theorem FieldType.canonical_canonical : ∀ t : FieldType, t.canonical.canonical = t.canonical
  | .bool | .int | .long | .float | .double | .string | .bytes | .enum _ => rfl
  | .optional inner => by simp only [FieldType.canonical, inner.canonical_canonical]
  | .list item => by simp only [FieldType.canonical, item.canonical_canonical]
  | .map item => by simp only [FieldType.canonical, item.canonical_canonical]
  | .record s => by simp only [FieldType.canonical, s.canonical_canonical]

/-- A canonical schema is its own canonical schema. -/
theorem Schema.canonical_canonical : ∀ s : Schema, s.canonical.canonical = s.canonical
  | ⟨name, fields⟩ => by
    -- The sorted fields are canonical one by one, and sorted.
    have hfields : ∀ f ∈ sortFields (fields.map Field.canonical), f.canonical = f := by
      intro f hf
      obtain ⟨g, hg, rfl⟩ := List.mem_map.mp ((sortFields_perm _).mem_iff.mp hf)
      simp only [Field.canonical, fields_canonical_canonical fields g hg]
    have hmap : (sortFields (fields.map Field.canonical)).map Field.canonical
        = sortFields (fields.map Field.canonical) := by
      rw [List.map_congr_left hfields, List.map_id']
    simp only [Schema.canonical, canonicalFields_eq_map, hmap,
      sortFields_of_pairwise (pairwise_sortFields _)]

theorem fields_canonical_canonical : ∀ fields : List Field, ∀ f ∈ fields,
    f.type.canonical.canonical = f.type.canonical
  | [], _, hf => absurd hf List.not_mem_nil
  | ⟨_, type, _⟩ :: rest, f, hf => by
    rcases List.mem_cons.mp hf with rfl | hf
    · exact type.canonical_canonical
    · exact fields_canonical_canonical rest f hf

end

/-! ## Ascending keys -/

section Ascending

variable {α : Type} (key : α → String)

/-- In a list of ascending keys, those up to some bound stand in front of all others. -/
theorem key_getElem_le_iff {l : List α} (ascending : l.Pairwise fun a b => key a ≤ key b)
    (bound : String) : ∀ (i : Nat) (hi : i < l.length),
      key l[i] ≤ bound ↔ i < l.countP fun a => decide (key a ≤ bound) := by
  -- By the list: while keys are up to the bound, place and count go down together.
  induction l with
  | nil => exact fun i hi => absurd hi (Nat.not_lt_zero i)
  | cons first rest ih =>
    rw [List.pairwise_cons] at ascending
    obtain ⟨lowest, ascending⟩ := ascending
    intro i hi
    by_cases hfirst : key first ≤ bound
    · rw [List.countP_cons, if_pos (decide_eq_true hfirst)]
      cases i with
      | zero => exact iff_of_true hfirst (Nat.succ_pos _)
      | succ i => exact (ih ascending i (Nat.lt_of_succ_lt_succ hi)).trans Nat.succ_lt_succ_iff.symm
    · -- The first key is beyond the bound, and so are all others.
      have hbeyond : ∀ a ∈ first :: rest, ¬ key a ≤ bound := by
        intro a ha hle
        rcases List.mem_cons.mp ha with rfl | ha
        · exact hfirst hle
        · exact hfirst (String.le_trans (lowest a ha) hle)
      have hnone : (first :: rest).countP (fun a => decide (key a ≤ bound)) = 0 :=
        List.countP_eq_zero.mpr fun a ha => by simpa using hbeyond a ha
      rw [hnone]
      exact iff_of_false (hbeyond _ (List.getElem_mem hi)) (Nat.not_lt_zero i)

/-- Where the keys are distinct too, those up to the key of a place are one more than the places in
front of it. -/
theorem countP_key_le {l : List α} (ascending : l.Pairwise fun a b => key a < key b) {i : Nat}
    (hi : i < l.length) : (l.countP fun a => decide (key a ≤ key l[i])) = i + 1 := by
  have hle : l.Pairwise fun a b => key a ≤ key b := ascending.imp Std.le_of_lt
  have hself := (key_getElem_le_iff key hle (key l[i]) i hi).mp (String.le_refl _)
  have hnext : ¬ i + 1 < l.countP fun a => decide (key a ≤ key l[i]) := by
    intro hlt
    have hlength : i + 1 < l.length := Nat.lt_of_lt_of_le hlt List.countP_le_length
    have hback := (key_getElem_le_iff key hle (key l[i]) (i + 1) hlength).mpr hlt
    exact hback (List.pairwise_iff_getElem.mp ascending i (i + 1) hi hlength (Nat.lt_succ_self i))
  omega

end Ascending

/-! ## Places in the canonical schema -/

/-- So many different entries below the size leave none out. -/
theorem perm_range {order : List Nat} {size : Nat} (hlength : order.length = size)
    (hnodup : order.Nodup) (hlt : ∀ i ∈ order, i < size) : order.Perm (List.range size) := by
  have hsub : order ⊆ List.range size := fun i hi => List.mem_range.mpr (hlt i hi)
  have hsame : (List.range size).length = order.length := by rw [List.length_range, hlength]
  exact (List.subperm_of_subset hnodup hsub).perm_of_length_le (Nat.le_of_eq hsame)

namespace Schema

/-- The names of the fields are distinct. -/
def NamesDistinct (s : Schema) : Prop := (s.fields.map Field.name).Nodup

theorem NamesDistinct.canonical {s : Schema} (h : s.NamesDistinct) :
    s.canonical.NamesDistinct := by
  rw [NamesDistinct, (s.fields_canonical_perm.map Field.name).nodup_iff, map_name_canonical]
  exact h

/-- The canonical schema lists distinct names in ascending order. -/
theorem NamesDistinct.pairwise_lt_canonical {s : Schema} (h : s.NamesDistinct) :
    s.canonical.fields.Pairwise fun a b => a.name < b.name := by
  rw [fields_canonical]
  exact pairwise_lt_sortFields (by rw [map_name_canonical]; exact h)

/-- A declared field stands in the canonical schema at the place of its name. -/
theorem getElem?_canonicalIndex {s : Schema} (h : s.NamesDistinct) {f : Field}
    (hf : f ∈ s.fields) : s.canonical.fields[s.canonicalIndex f.name]? = some f.canonical := by
  have hcount : s.canonicalIndex f.name
      = s.canonical.fields.countP (fun g => decide (g.name ≤ f.canonical.name)) - 1 := by
    rw [canonicalIndex, s.fields_canonical_perm.countP_eq, List.countP_map]
    rfl
  have hmem : f.canonical ∈ s.canonical.fields :=
    s.fields_canonical_perm.mem_iff.mpr (List.mem_map_of_mem hf)
  obtain ⟨i, hi, hfield⟩ := List.getElem_of_mem hmem
  rw [hcount, ← hfield, countP_key_le Field.name h.pairwise_lt_canonical hi, Nat.add_sub_cancel]
  exact List.getElem?_eq_getElem hi

/-- Distinct fields have distinct places. -/
theorem nodup_canonicalOrder {s : Schema} (h : s.NamesDistinct) : s.canonicalOrder.Nodup := by
  have hne : s.fields.Pairwise fun a b => a.name ≠ b.name := List.pairwise_map.mp h
  refine List.pairwise_map.mpr (hne.imp_of_mem fun {a b} ha hb hab same => hab ?_)
  have hplace := getElem?_canonicalIndex h ha
  rw [same, getElem?_canonicalIndex h hb] at hplace
  exact (congrArg Field.name (Option.some.inj hplace)).symm

theorem lt_of_mem_canonicalOrder {s : Schema} (h : s.NamesDistinct) {i : Nat}
    (hi : i ∈ s.canonicalOrder) : i < s.size := by
  obtain ⟨f, hf, rfl⟩ := List.mem_map.mp hi
  obtain ⟨hlt, -⟩ := List.getElem?_eq_some_iff.mp (getElem?_canonicalIndex h hf)
  rw [← s.size_canonical]
  exact hlt

@[simp] theorem length_canonicalOrder (s : Schema) : s.canonicalOrder.length = s.size :=
  List.length_map _

/-- The canonical order names each place once. -/
theorem perm_canonicalOrder {s : Schema} (h : s.NamesDistinct) :
    s.canonicalOrder.Perm (List.range s.size) :=
  perm_range s.length_canonicalOrder (nodup_canonicalOrder h) fun _ hi =>
    lt_of_mem_canonicalOrder h hi

/-- Every place of the canonical schema is that of a declared field. -/
theorem exists_canonicalIndex_eq {s : Schema} (h : s.NamesDistinct) {i : Nat} (hi : i < s.size) :
    ∃ f ∈ s.fields, s.canonicalIndex f.name = i :=
  List.mem_map.mp ((perm_canonicalOrder h).mem_iff.mpr (List.mem_range.mpr hi))

theorem getElem?_canonicalOrder (s : Schema) (i : Nat) :
    s.canonicalOrder[i]? = s.fields[i]?.map fun f => s.canonicalIndex f.name :=
  List.getElem?_map

theorem isCanonicalOrder_iff_canonicalIndex (s : Schema) : s.isCanonicalOrder = true ↔
    ∀ i (hi : i < s.fields.length), s.canonicalIndex s.fields[i].name = i := by
  rw [isCanonicalOrder, beq_iff_eq]
  constructor
  · intro horder i hi
    have hplace := s.getElem?_canonicalOrder i
    rw [horder, List.getElem?_range (show i < s.size from hi), List.getElem?_eq_getElem hi] at hplace
    exact (Option.some.inj hplace).symm
  · intro hplace
    refine List.ext_getElem (by rw [s.length_canonicalOrder, List.length_range]) fun i hi _ => ?_
    rw [s.length_canonicalOrder] at hi
    simp only [canonicalOrder, List.getElem_map, List.getElem_range]
    exact hplace i hi

theorem canonicalIndex_le {s : Schema} {m n : String} (h : m ≤ n) :
    s.canonicalIndex m ≤ s.canonicalIndex n := by
  refine Nat.sub_le_sub_right (List.countP_mono_left fun f _ hf => ?_) 1
  rw [decide_eq_true_eq] at hf ⊢
  exact String.le_trans hf h

/-- The fields of a schema, checked or not, are declared in canonical order when their names
ascend, and only then. -/
theorem isCanonicalOrder_iff (s : Schema) :
    s.isCanonicalOrder = true ↔ s.fields.Pairwise fun a b => a.name < b.name := by
  rw [isCanonicalOrder_iff_canonicalIndex]
  constructor
  · intro hplace
    refine List.pairwise_iff_getElem.mpr fun i j hi hj hij => Decidable.byContradiction fun hle => ?_
    -- A later name that is not above an earlier one would not have a later place.
    have hback := canonicalIndex_le (s := s) (String.not_lt.mp hle)
    rw [hplace i hi, hplace j hj] at hback
    omega
  · intro ascending i hi
    rw [canonicalIndex, countP_key_le Field.name ascending hi, Nat.add_sub_cancel]

end Schema

/-! ## Field orders -/

namespace FieldOrder

open Decoder

/-- A table of places that are all different and within bounds is read back. The places in `seen`
have been read before. -/
theorem yields_entries (typeName : String) (size : Nat) (hsize : size ≤ UInt64.size) :
    ∀ (order seen : List Nat), (∀ i ∈ order, i < size ∧ i ∉ seen) → order.Nodup →
      (decodeEntries typeName size order.length seen).Yields (order.flatMap Wire.encodeLength)
        (.ok order)
  | [], _, _, _ => yields_pure []
  | i :: rest, seen, horder, distinct => by
    rw [List.nodup_cons] at distinct
    obtain ⟨fresh, distinct⟩ := distinct
    obtain ⟨hi, unseen⟩ := horder i List.mem_cons_self
    -- A place that is read is seen from then on, and no later one is the same.
    have hrest := yields_entries typeName size hsize rest (i :: seen)
      (fun j hj => ⟨(horder j (List.mem_cons_of_mem i hj)).1, fun hmem => by
        rcases List.mem_cons.mp hmem with rfl | hmem
        · exact fresh hj
        · exact (horder j (List.mem_cons_of_mem i hj)).2 hmem⟩) distinct
    have hseen : ¬ seen.contains i = true := fun h => unseen (List.contains_iff_mem.mp h)
    refine (Wire.yields_index (Nat.lt_of_lt_of_le hi hsize)).bind_ok ?_
    simp only [if_neg (Nat.not_le_of_lt hi), if_neg hseen]
    exact hrest.bind_ok_nil (yields_pure _)

/-- The order that a schema declares its fields in is read back, by readers that know no more than
the canonical schema. -/
theorem yields_encode {s : Schema} (h : s.NamesDistinct)
    (hsize : (encode s).length < UInt64.size) :
    (decode s.canonical).Yields (encode s) (.ok s.canonicalOrder) := by
  by_cases hcanonical : s.isCanonicalOrder = true
  · have horder : s.canonicalOrder = List.range s.size := by
      simpa [Schema.isCanonicalOrder] using hcanonical
    simp only [encode, if_pos hcanonical]
    refine (yields_byte 0).bind_ok_nil ?_
    simp only [Schema.size_canonical, horder]
    exact yields_pure _
  · simp only [encode, if_neg hcanonical] at hsize ⊢
    rw [List.length_cons, List.length_append] at hsize
    -- Each place takes a byte, so that the count is one that the bytes can hold.
    have htable : s.size ≤ (s.canonicalOrder.flatMap Wire.encodeLength).length := by
      rw [← s.length_canonicalOrder]
      exact Wire.length_le_flatMap fun i _ => Wire.encodeNat_pos i
    refine (yields_byte 1).bind_ok (Wire.yields_length_bind htable (by omega) ?_)
    simp only [Schema.size_canonical, Schema.name_canonical]
    rw [if_neg (fun hne => hne rfl)]
    have := yields_entries s.name s.size (by omega) s.canonicalOrder []
      (fun i hi => ⟨Schema.lt_of_mem_canonicalOrder h hi, List.not_mem_nil⟩)
      (Schema.nodup_canonicalOrder h)
    rwa [s.length_canonicalOrder] at this

end FieldOrder

end RecordExchange
