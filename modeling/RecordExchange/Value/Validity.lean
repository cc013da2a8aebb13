import RecordExchange.Value.Basic

/-!
# Well-formed values

What is built by the operations on values and records keeps an order: maps list their entries in
ascending order of keys, records name no field twice. The rule holds at every depth.

- `Value.WellFormed`, `Record.WellFormed`: the rule.
- `Value.wellFormed_ofEntries`: maps are built in order.
- `Record.wellFormed_set`: setting a field keeps the rule.
-/

namespace RecordExchange

mutual

/-- A value is well formed when its maps are in order and its records have distinct fields. -/
def Value.WellFormed : Value → Prop
  | .list items => WellFormedItems items
  | .map entries => (entries.map Prod.fst).Pairwise (· < ·) ∧ WellFormedEntries entries
  | .record r => r.WellFormed
  | _ => True

/-- A record is well formed when it names no field twice and its values are well formed. -/
def Record.WellFormed : Record → Prop
  | ⟨_, fields⟩ => (fields.map Prod.fst).Nodup ∧ WellFormedEntries fields

def WellFormedItems : List Value → Prop
  | [] => True
  | v :: rest => v.WellFormed ∧ WellFormedItems rest

def WellFormedEntries : List (String × Value) → Prop
  | [] => True
  | (_, v) :: rest => v.WellFormed ∧ WellFormedEntries rest

end

theorem wellFormedItems_iff {items : List Value} :
    WellFormedItems items ↔ ∀ v ∈ items, v.WellFormed := by
  induction items with
  | nil => simp [WellFormedItems]
  | cons v rest ih => simp [WellFormedItems, ih]

theorem wellFormedEntries_iff {entries : List (String × Value)} :
    WellFormedEntries entries ↔ ∀ e ∈ entries, e.2.WellFormed := by
  induction entries with
  | nil => simp [WellFormedEntries]
  | cons e rest ih => simp [WellFormedEntries, ih]

/-! ## Maps -/

namespace Entries

/-- What is in a list after an insertion was inserted or was in it before. -/
theorem mem_insert {key : String} {value : Value} {entries : List (String × Value)}
    {e : String × Value} (h : e ∈ insert key value entries) :
    e = (key, value) ∨ e ∈ entries := by
  induction entries with
  | nil => simpa [insert] using h
  | cons head rest ih =>
    simp only [insert] at h
    split at h
    · simpa using h
    · split at h
      · exact (List.mem_cons.mp h).imp_right (List.mem_cons_of_mem _)
      · rcases List.mem_cons.mp h with rfl | h
        · exact .inr List.mem_cons_self
        · exact (ih h).imp_right (List.mem_cons_of_mem _)

/-- An insertion keeps the order of keys. -/
theorem pairwise_insert {key : String} {value : Value} {entries : List (String × Value)}
    (h : (entries.map Prod.fst).Pairwise (· < ·)) :
    ((insert key value entries).map Prod.fst).Pairwise (· < ·) := by
  induction entries with
  | nil => simp [insert]
  | cons head rest ih =>
    obtain ⟨k, v⟩ := head
    rw [List.map_cons, List.pairwise_cons] at h
    obtain ⟨below, ordered⟩ := h
    simp only [insert]
    -- In front of a greater key, in place of the same one, or further on.
    split
    next less =>
      simp only [List.map_cons, List.pairwise_cons, List.mem_cons]
      refine ⟨?_, below, ordered⟩
      rintro l (rfl | hl)
      · exact less
      · exact String.lt_trans less (below l hl)
    next notLess =>
      split
      next same =>
        subst same
        rw [List.map_cons, List.pairwise_cons]
        exact ⟨below, ordered⟩
      next other =>
        have greater : k < key := Std.lt_of_le_of_ne (String.not_lt.mp notLess) (Ne.symm other)
        simp only [List.map_cons, List.pairwise_cons, List.mem_map]
        refine ⟨?_, ih ordered⟩
        rintro l ⟨e, he, rfl⟩
        rcases mem_insert he with rfl | he
        · exact greater
        · exact below _ (List.mem_map_of_mem he)

theorem wellFormedEntries_insert {key : String} {value : Value}
    {entries : List (String × Value)} (hv : value.WellFormed) (h : WellFormedEntries entries) :
    WellFormedEntries (insert key value entries) := by
  rw [wellFormedEntries_iff] at h ⊢
  intro e he
  rcases mem_insert he with rfl | he
  · exact hv
  · exact h e he

end Entries

/-- A map of well-formed values is well formed, in whatever order its entries come. -/
theorem Value.wellFormed_ofEntries {entries : List (String × Value)}
    (h : ∀ e ∈ entries, e.2.WellFormed) : (Value.ofEntries entries).WellFormed := by
  suffices ∀ sorted : List (String × Value), (sorted.map Prod.fst).Pairwise (· < ·) →
      WellFormedEntries sorted →
      (Value.map (entries.foldl (fun s e => Entries.insert e.1 e.2 s) sorted)).WellFormed from
    this [] List.Pairwise.nil trivial
  induction entries with
  | nil => exact fun sorted ordered inner => ⟨ordered, inner⟩
  | cons e rest ih =>
    intro sorted ordered inner
    exact ih (fun e he => h e (List.mem_cons_of_mem _ he)) _ (Entries.pairwise_insert ordered)
      (Entries.wellFormedEntries_insert (h e List.mem_cons_self) inner)

/-! ## Records -/

namespace Record

/-- Setting a field adds its name unless it is there. -/
theorem map_fst_assign (name : String) (value : Value) (fields : List (String × Value)) :
    (assign name value fields).map Prod.fst
      = if name ∈ fields.map Prod.fst then fields.map Prod.fst
        else fields.map Prod.fst ++ [name] := by
  induction fields with
  | nil => simp [assign]
  | cons f rest ih =>
    obtain ⟨n, v⟩ := f
    by_cases same : n = name
    · simp [assign, same]
    · simp only [assign, if_neg same, List.map_cons, ih, List.mem_cons, Ne.symm same, false_or]
      split <;> simp

theorem mem_assign {name : String} {value : Value} {fields : List (String × Value)}
    {e : String × Value} (h : e ∈ assign name value fields) :
    e = (name, value) ∨ e ∈ fields := by
  induction fields with
  | nil => simpa [assign] using h
  | cons f rest ih =>
    simp only [assign] at h
    split at h
    · rename_i same
      exact (List.mem_cons.mp h).imp (fun h => by rw [h, same]) (List.mem_cons_of_mem _)
    · rcases List.mem_cons.mp h with rfl | h
      · exact .inr List.mem_cons_self
      · exact (ih h).imp_right (List.mem_cons_of_mem _)

theorem wellFormed_empty (typeName : String) : (empty typeName).WellFormed :=
  ⟨List.nodup_nil, trivial⟩

/-- A record stays well formed when a field is set to a well-formed value. -/
theorem wellFormed_set {r : Record} {name : String} {value : Value} (h : r.WellFormed)
    (hv : value.WellFormed) : (r.set name value).WellFormed := by
  obtain ⟨typeName, fields⟩ := r
  obtain ⟨distinct, inner⟩ := h
  refine ⟨?_, ?_⟩
  -- Setting a field keeps the names that are there, or puts a new one behind them.
  · rw [map_fst_assign]
    split
    · exact distinct
    · rename_i absent
      exact List.nodup_append.mpr ⟨distinct, List.pairwise_singleton _ _,
        fun a ha b hb => by
          rw [List.mem_singleton.mp hb]
          exact fun same => absent (same ▸ ha)⟩
  · rw [wellFormedEntries_iff] at inner ⊢
    intro e he
    rcases mem_assign he with rfl | he
    · exact hv
    · exact inner e he

end Record

end RecordExchange
