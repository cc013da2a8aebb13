import RecordExchange.Proofs.Nesting
import RecordExchange.Proofs.Skipping
import RecordExchange.Proofs.TextOrder

/-!
# Places in canonical order

Who writes a record sorts the names of the fields and looks each name up among them. Who reads it
has the canonical schema, for which the fields themselves were sorted. The two never meet, and if
they differed about a place, values of one type would be swapped without anyone noticing. They agree:
a search by halving ends at the last of the names up to the one that is looked for, the canonical
index counts just these, and the canonical schema has the field there.

- `Names.search`: a name among sorted names, found by halving; names compare by their bytes.
- `Names.search_eq`: what it finds, also where a name stands several times.
- `Schema.canonicalOrder_eq_search`: the canonical order is what these searches find.
- `Schema.canonicalOrder_places`: where each field stands in the canonical schema, and when a schema
  is declared in canonical order.
-/

namespace RecordExchange

/-! ## Searching sorted names -/

namespace Names

/-- Halves a stretch of `size` names from `base` on until one is left. A name in the middle that is
above the one that is looked for is left out with the names after it, any other becomes the first. -/
def narrow (names : List String) (name : String) (base size : Nat)
    (hsize : base + size ≤ names.length) : Nat :=
  if h : 1 < size then
    have : base + size / 2 < names.length := by omega
    if Utf8.encode name < Utf8.encode names[base + size / 2] then
      narrow names name base (size - size / 2) (by omega)
    else narrow names name (base + size / 2) (size - size / 2) (by omega)
  else base
termination_by size

/-- The place of a name among sorted names, if it is one of them. -/
def search (names : List String) (name : String) : Option Nat :=
  let place := narrow names name 0 names.length (Nat.le_of_eq (Nat.zero_add _))
  if names[place]? = some name then some place else none

/-- How many names there are up to some name. -/
def countUpTo (names : List String) (name : String) : Nat :=
  names.countP fun n => decide (n ≤ name)

variable {names : List String} {name : String}

theorem getElem_le_iff (ascending : names.Pairwise (· ≤ ·)) (i : Nat) (hi : i < names.length) :
    names[i] ≤ name ↔ i < countUpTo names name :=
  key_getElem_le_iff id ascending name i hi

/-- Halving ends at the last of the names up to the one that is looked for, if the stretch has it. -/
theorem narrow_eq (ascending : names.Pairwise (· ≤ ·)) {base size : Nat}
    (hsize : base + size ≤ names.length) (hlow : base < countUpTo names name)
    (hhigh : countUpTo names name ≤ base + size) :
    narrow names name base size hsize = countUpTo names name - 1 := by
  -- The last name up to this one is in the stretch before each halving, and so in what is left.
  fun_induction narrow names name base size hsize with
  | case1 base size hsize hmore hmid habove ih =>
    rw [Utf8.encode_lt_encode_iff, ← String.not_le, getElem_le_iff ascending] at habove
    exact ih hlow (by omega)
  | case2 base size hsize hmore hmid hbelow ih =>
    rw [Utf8.encode_lt_encode_iff, String.not_lt, getElem_le_iff ascending] at hbelow
    exact ih hbelow (by omega)
  | case3 base size hsize hone => omega

/-- A name that is there is found, and where it stands several times, at the last of its places. -/
theorem search_eq (ascending : names.Pairwise (· ≤ ·)) (hname : name ∈ names) :
    search names name = some (countUpTo names name - 1) := by
  obtain ⟨i, hi, rfl⟩ := List.getElem_of_mem hname
  have hlength : countUpTo names names[i] ≤ names.length := List.countP_le_length
  have hself := (getElem_le_iff ascending i hi).mp (String.le_refl _)
  have hlast : countUpTo names names[i] - 1 < names.length := by omega
  have hfound : names[countUpTo names names[i] - 1] = names[i] := by
    refine String.le_antisymm ((getElem_le_iff ascending _ hlast).mpr (by omega)) ?_
    rcases Nat.lt_or_eq_of_le (Nat.le_sub_one_of_lt hself) with hlt | heq
    · exact List.pairwise_iff_getElem.mp ascending i _ hi hlast hlt
    · exact Std.le_of_eq (getElem_congr_idx heq)
  rw [search, narrow_eq ascending _ (by omega) (by omega), List.getElem?_eq_getElem hlast, hfound,
    if_pos rfl]

theorem getElem?_of_search {place : Nat} (h : search names name = some place) :
    names[place]? = some name := by
  rw [search] at h
  split at h
  next hfound =>
    cases h
    exact hfound
  next => cases h

end Names

/-! ## The canonical order by searches -/

namespace Schema

theorem canonicalIndex_eq_countUpTo {s : Schema} {names : List String}
    (hperm : names.Perm s.fieldNames) (name : String) :
    s.canonicalIndex name = Names.countUpTo names name - 1 := by
  rw [Names.countUpTo, hperm.countP_eq, fieldNames, List.countP_map]
  rfl

/-- However the names of a schema, checked or not, have been sorted, the canonical order is what is
found when each name is searched there. No search fails. -/
theorem canonicalOrder_eq_search {s : Schema} {names : List String}
    (hperm : names.Perm s.fieldNames)
    (ascending : names.Pairwise fun a b => Utf8.encode a ≤ Utf8.encode b) :
    s.fieldNames.map (Names.search names) = s.canonicalOrder.map some := by
  simp only [Utf8.encode_le_encode_iff] at ascending
  rw [canonicalOrder, fieldNames, List.map_map, List.map_map]
  refine List.map_congr_left fun f hf => ?_
  have hname : f.name ∈ names := hperm.mem_iff.mpr (List.mem_map_of_mem hf)
  rw [Function.comp_apply, Function.comp_apply, Names.search_eq ascending hname,
    canonicalIndex_eq_countUpTo hperm]

/-- Where names are distinct, each stands at one place only when they are sorted, and that is its
place in the canonical order. -/
theorem getElem?_eq_some_iff_place {s : Schema} (distinct : s.NamesDistinct) {names : List String}
    (hperm : names.Perm s.fieldNames)
    (ascending : names.Pairwise fun a b => Utf8.encode a ≤ Utf8.encode b) {i k : Nat} {f : Field}
    (hf : s.fields[i]? = some f) (hk : s.canonicalOrder[i]? = some k) (j : Nat) :
    names[j]? = some f.name ↔ j = k := by
  have hplace : names[k]? = some f.name := by
    have hsearch := congrArg (·[i]?) (canonicalOrder_eq_search hperm ascending)
    simp only [fieldNames, List.map_map, List.getElem?_map, hf, hk, Option.map_some] at hsearch
    exact Names.getElem?_of_search (Option.some.inj hsearch)
  constructor
  · intro hj
    have hnodup : names.Nodup := hperm.nodup_iff.mpr distinct
    exact (List.getElem?_inj (List.getElem?_eq_some_iff.mp hj).1 hnodup).mp (hj.trans hplace.symm)
  · rintro rfl
    exact hplace

theorem isCanonicalOrder_iff_bytes (s : Schema) : s.isCanonicalOrder = true ↔
    s.fieldNames.Pairwise fun a b => Utf8.encode a < Utf8.encode b := by
  simp only [s.isCanonicalOrder_iff, fieldNames, List.pairwise_map, Utf8.encode_lt_encode_iff]

/-- **Places in canonical order.** The canonical order of a checked schema names each place from zero
on once. The field that is declared at some position stands in the canonical schema at the place
that this order has for the position: under its name, with its canonical type and without its
default. Searches by halving in the names, in whatever way these have been sorted, find just these
places, and each name stands at no other. A schema is declared in canonical order exactly when its
names ascend by their bytes. The canonical schema is its own canonical schema and is declared in
canonical order, and the same holds of each schema in it. -/
theorem canonicalOrder_places {s : Schema} (h : s.check = .ok ()) :
    s.canonicalOrder.Perm (List.range s.size) ∧
    (∀ (i : Nat) (f : Field), s.fields[i]? = some f → ∃ k, s.canonicalOrder[i]? = some k ∧
      s.canonical.fields[k]? = some ⟨f.name, f.type.canonical, none⟩) ∧
    (∀ names : List String, names.Perm s.fieldNames →
      (names.Pairwise fun a b => Utf8.encode a ≤ Utf8.encode b) →
      s.fieldNames.map (Names.search names) = s.canonicalOrder.map some ∧
      ∀ (i k : Nat) (f : Field), s.fields[i]? = some f → s.canonicalOrder[i]? = some k →
        ∀ j : Nat, names[j]? = some f.name ↔ j = k) ∧
    (s.isCanonicalOrder = true ↔
      s.fieldNames.Pairwise fun a b => Utf8.encode a < Utf8.encode b) ∧
    s.canonical.canonical = s.canonical ∧
    s.canonical.EveryLevel fun level =>
      level.canonical = level ∧ level.isCanonicalOrder = true := by
  have hwell := s.check_eq_ok_iff.mp h
  have distinct := hwell.namesDistinct
  refine ⟨perm_canonicalOrder distinct, fun i f hf => ?_,
    fun names hperm ascending => ⟨canonicalOrder_eq_search hperm ascending,
      fun i k f hf hk => getElem?_eq_some_iff_place distinct hperm ascending hf hk⟩,
    s.isCanonicalOrder_iff_bytes, s.canonical_canonical, ?_⟩
  · refine ⟨s.canonicalIndex f.name, ?_, getElem?_canonicalIndex distinct (List.mem_of_getElem? hf)⟩
    rw [s.getElem?_canonicalOrder, hf, Option.map_some]
  · exact Schema.WellFormed.everyLevel_canonical (fun level hlevel =>
      ⟨level.canonical_canonical, hlevel.namesDistinct.isCanonicalOrder_canonical⟩) hwell

end Schema

/-- A postcard. Its stamps, in which the value stands before the colour, come last, though their name
is the lowest; an order by UTF-16 units would have the two other names the other way round. -/
def postcard : Schema :=
  ⟨"Postcard", [⟨"😀", .int, some (.int 1)⟩, ⟨"ﬀ", .int, none⟩,
    ⟨"stamps", .list (.record ⟨"Stamp", [⟨"value", .long, none⟩, ⟨"colour", .string, none⟩]⟩), none⟩]⟩

/-- The first field of a postcard is the last of the canonical ones, and searches among the sorted
names say so. Postcards are not declared in canonical order, but their canonical schema is, and so is
that of the stamps in it. -/
theorem canonicalOrder_places_postcard :
    postcard.check = .ok () ∧ postcard.canonicalOrder = [2, 1, 0] ∧
    postcard.canonical.fields[2]? = some ⟨"😀", .int, none⟩ ∧
    postcard.fieldNames.map (Names.search ["stamps", "ﬀ", "😀"]) = [some 2, some 1, some 0] ∧
    postcard.isCanonicalOrder = false ∧
    postcard.canonical.EveryLevel fun level =>
      level.canonical = level ∧ level.isCanonicalOrder = true := by
  have hcheck : postcard.check = .ok () := rfl
  have horder : postcard.canonicalOrder = [2, 1, 0] := by decide
  obtain ⟨-, hplaces, hsearch, hascending, -, hlevels⟩ := Schema.canonicalOrder_places hcheck
  obtain ⟨k, hk, hfield⟩ := hplaces 0 _ rfl
  rw [horder] at hk
  cases hk
  have hsorted : ["stamps", "ﬀ", "😀"].Pairwise fun a b => Utf8.encode a ≤ Utf8.encode b := by
    decide
  obtain ⟨hfound, -⟩ := hsearch ["stamps", "ﬀ", "😀"] (by decide) hsorted
  rw [horder] at hfound
  have hdeclared : ¬ postcard.isCanonicalOrder = true := mt hascending.mp (by decide)
  exact ⟨hcheck, horder, hfield, hfound, Bool.eq_false_iff.mpr hdeclared, hlevels⟩

end RecordExchange
