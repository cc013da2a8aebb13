import RecordExchange.Proofs.Deployments
import RecordExchange.Proofs.Nesting

/-!
# Stores never lie and never forget

A store is shared: any number of clients put schemas in and ask for them, in any order, and the
source outside may answer with a schema that was not asked for, or answer differently from one time
to the next. Whatever happens, a store lists canonical schemas under their own fingerprints, and
what it lists it lists for ever.

- `StoreCall.answer`: what a call answers, beside its effect.
- `StoreEvent`, `SchemaStore.step`, `SchemaStore.play`: what may happen to a store.
- `Schema.Tidy`, `Schema.everyLevel_canonical`: no defaults and sorted fields, at every level.
- `SchemaStore.step_entries`: an event adds at most one entry, and that is all it does to entries.
- `SchemaStore.Faithful`, `SchemaStore.faithful_play`: what holds of a store after any events.
-/

namespace RecordExchange

/-! ## What may happen to a store -/

namespace StoreCall

/-- What a call answers: a schema and the fingerprint that it stands for, or nothing but that the
source was replaced. -/
def answer (store : SchemaStore) :
    StoreCall → Except SchemaError (Option (Fingerprint × Schema))
  | .register s => .ok (some (store.register s).1)
  | .registerAs f s => (store.registerAs f s).map fun found => some (f, found.1)
  | .resolve f => (store.resolve f).map fun found => some (f, found.1)
  | .setSource _ => .ok none

/-- The fingerprint that a call asks for, which is computed when a schema is just registered. -/
def asked : StoreCall → Option Fingerprint
  | .register s => some s.fingerprint
  | .registerAs f _ => some f
  | .resolve f => some f
  | .setSource _ => none

end StoreCall

/-- What happens to a store that is shared. A client that waits for the source while others call
puts the answer in as `registerAs` does, so that what it does falls into two calls. -/
inductive StoreEvent where
  /-- One of the clients calls. -/
  | call (call : StoreCall)
  /-- The source, if there is one, changes what it answers. -/
  | turn (source : SchemaSource)

namespace SchemaStore

/-- The store after an event. -/
def step (store : SchemaStore) : StoreEvent → SchemaStore
  | .call call => call.effect store
  | .turn source => { store with source := store.source.map fun _ => source }

/-- The store after events, one after another. -/
def play (store : SchemaStore) (events : List StoreEvent) : SchemaStore :=
  events.foldl step store

end SchemaStore

/-! ## Levels of a canonical schema -/

/-- A schema is tidy when no field has a default and the fields are in ascending order of names. -/
def Schema.Tidy (s : Schema) : Prop :=
  (∀ f ∈ s.fields, f.default = none) ∧ s.fields.Pairwise fun a b => a.name ≤ b.name

/-- A canonical schema is tidy, also that of a schema that is not valid. -/
theorem Schema.tidy_canonical (s : Schema) : s.canonical.Tidy := by
  rw [Schema.Tidy, Schema.fields_canonical]
  refine ⟨fun f hf => ?_, pairwise_sortFields _⟩
  obtain ⟨g, -, rfl⟩ := List.mem_map.mp ((sortFields_perm _).mem_iff.mp hf)
  rfl

mutual

theorem FieldType.everyLevel_canonical {rule : Schema → Prop}
    (hrule : ∀ s : Schema, rule s.canonical) : ∀ t : FieldType, t.canonical.EveryLevel rule
  | .bool | .int | .long | .float | .double | .string | .bytes | .enum _ => trivial
  | .optional inner => @FieldType.everyLevel_canonical rule hrule inner
  | .list item => @FieldType.everyLevel_canonical rule hrule item
  | .map item => @FieldType.everyLevel_canonical rule hrule item
  | .record s => @Schema.everyLevel_canonical rule hrule s

/-- What holds of every canonical schema holds at every level of a canonical schema. -/
theorem Schema.everyLevel_canonical {rule : Schema → Prop}
    (hrule : ∀ s : Schema, rule s.canonical) : ∀ s : Schema, s.canonical.EveryLevel rule
  | ⟨name, fields⟩ => by
    refine ⟨hrule ⟨name, fields⟩, (everyLevelOfFields_iff _).mpr fun f hf => ?_⟩
    exact everyLevel_canonical_of_mem hrule fields f ((sortFields_perm _).mem_iff.mp hf)

theorem everyLevel_canonical_of_mem {rule : Schema → Prop}
    (hrule : ∀ s : Schema, rule s.canonical) : ∀ fields : List Field,
      ∀ f ∈ canonicalFields fields, f.type.EveryLevel rule
  | [], _, hf => absurd hf List.not_mem_nil
  | ⟨_, type, _⟩ :: rest, f, hf => by
    rcases List.mem_cons.mp hf with rfl | hf
    · exact @FieldType.everyLevel_canonical rule hrule type
    · exact everyLevel_canonical_of_mem hrule rest f hf

end

/-! ## One event -/

namespace SchemaStore

variable {store after : SchemaStore}

/-- What may become of the entries: they stay, or a canonical schema is added under its own
fingerprint, which had no entry. -/
def Adds (store after : SchemaStore) : Prop :=
  after.entries = store.entries ∨ ∃ s : Schema, store.get? s.fingerprint = none ∧
    after.entries = store.entries ++ [(s.fingerprint, s.canonical)]

theorem adds_install (store : SchemaStore) (s : Schema) :
    store.Adds (store.install s.fingerprint s.canonical).2 := by
  unfold install
  cases hget : store.get? s.fingerprint with
  | some kept => exact .inl rfl
  | none => exact .inr ⟨s, hget, rfl⟩

/-- Putting a schema in under a fingerprint fails only if it is not its own. -/
theorem registerAs_cases (store : SchemaStore) (f : Fingerprint) (s : Schema) :
    (s.fingerprint = f ∧ store.registerAs f s = .ok (store.install f s.canonical)) ∨
      (s.fingerprint ≠ f ∧
        store.registerAs f s = .error (.fingerprintMismatch f s.fingerprint)) := by
  unfold registerAs
  by_cases hf : s.fingerprint = f
  · exact .inl ⟨hf, if_pos hf⟩
  · exact .inr ⟨hf, if_neg hf⟩

/-- A schema that is asked for is kept, or is put in as `registerAs` does it when the source
answers, or is unknown. -/
theorem resolve_cases (store : SchemaStore) (f : Fingerprint) :
    (∃ kept, store.get? f = some kept ∧ store.resolve f = .ok (kept, store)) ∨
      (∃ s : Schema, s.fingerprint = f ∧
        store.resolve f = .ok (store.install f s.canonical)) ∨
      (store.get? f = none ∧ store.resolve f = .error (.unknownSchema f)) := by
  unfold resolve
  cases hget : store.get? f with
  | some kept => exact .inl ⟨kept, rfl, rfl⟩
  | none =>
    refine .inr ?_
    cases store.source.bind fun source => source f with
    | none => exact .inr ⟨rfl, rfl⟩
    | some s =>
      -- Only an answer that has the fingerprint which was asked for is put in.
      by_cases hf : s.fingerprint = f
      · exact .inl ⟨s, hf, if_pos hf⟩
      · exact .inr ⟨rfl, if_neg hf⟩

/-- Why a call may fail. -/
inductive Refuses (store : SchemaStore) : StoreCall → SchemaError → Prop
  /-- The schema that is put in has another fingerprint than it is said to have. -/
  | mismatch {f : Fingerprint} {s : Schema} (h : s.fingerprint ≠ f) :
    store.Refuses (.registerAs f s) (.fingerprintMismatch f s.fingerprint)
  /-- The schema that is asked for is not in the store, and the source does not have it. -/
  | unknown {f : Fingerprint} (h : store.get? f = none) :
    store.Refuses (.resolve f) (.unknownSchema f)

/-- A call that succeeds with a schema: it adds what it answers, if it was not there. -/
def Finds (store : SchemaStore) (call : StoreCall) : Prop :=
  ∃ f kept, call.asked = some f ∧ call.answer store = .ok (some (f, kept)) ∧
    (call.effect store).get? f = some kept ∧ store.Adds (call.effect store)

/-- A call finds a schema, or is refused and does nothing, or replaces the source. -/
theorem call_cases (store : SchemaStore) (call : StoreCall) :
    store.Finds call ∨
      (∃ err, call.answer store = .error err ∧ store.Refuses call err ∧
        call.effect store = store) ∨
      (call.answer store = .ok none ∧ (call.effect store).entries = store.entries) := by
  cases call with
  | register s =>
    exact .inl ⟨_, _, rfl, rfl, store.get?_install_self _ _, store.adds_install s⟩
  | setSource source => exact .inr (.inr ⟨rfl, rfl⟩)
  | registerAs f s =>
    unfold Finds
    simp only [StoreCall.answer, StoreCall.effect, StoreCall.asked]
    obtain ⟨rfl, hrun⟩ | ⟨hf, hrun⟩ := store.registerAs_cases f s
    · rw [hrun]
      exact .inl ⟨_, _, rfl, rfl, store.get?_install_self _ _, store.adds_install s⟩
    · rw [hrun]
      exact .inr (.inl ⟨_, rfl, .mismatch hf, rfl⟩)
  | resolve f =>
    unfold Finds
    simp only [StoreCall.answer, StoreCall.effect, StoreCall.asked]
    -- The schema was kept, or comes from the source, or is not to be had.
    obtain ⟨kept, hget, hrun⟩ | ⟨s, rfl, hrun⟩ | ⟨hnone, hrun⟩ := store.resolve_cases f
    · rw [hrun]
      exact .inl ⟨_, _, rfl, rfl, hget, .inl rfl⟩
    · rw [hrun]
      exact .inl ⟨_, _, rfl, rfl, store.get?_install_self _ _, store.adds_install s⟩
    · rw [hrun]
      exact .inr (.inl ⟨_, rfl, .unknown hnone, rfl⟩)

/-- An event adds at most one entry, and changes none. -/
theorem step_entries (store : SchemaStore) (event : StoreEvent) :
    store.Adds (store.step event) := by
  cases event with
  | turn source => exact .inl rfl
  | call call =>
    rcases store.call_cases call with ⟨f, kept, -, -, -, hadds⟩ | ⟨err, -, -, hsame⟩ | ⟨-, hsame⟩
    · exact hadds
    · exact .inl (congrArg entries hsame)
    · exact .inl hsame

/-- What a call answers is kept afterwards, under the fingerprint that was asked for. -/
theorem get?_effect {call : StoreCall} {f : Fingerprint} {kept : Schema}
    (h : call.answer store = .ok (some (f, kept))) :
    call.asked = some f ∧ (call.effect store).get? f = some kept := by
  rcases store.call_cases call with ⟨g, found, hasked, hrun, hget, -⟩ | ⟨err, hrun, -⟩ | ⟨hrun, -⟩
  · rw [hrun] at h
    cases h
    exact ⟨hasked, hget⟩
  · rw [hrun] at h
    cases h
  · rw [hrun] at h
    cases h

/-- A call that fails does nothing to the store. -/
theorem effect_of_error {call : StoreCall} {err : SchemaError}
    (h : call.answer store = .error err) : store.Refuses call err ∧ call.effect store = store := by
  rcases store.call_cases call with ⟨f, kept, -, hrun, -⟩ | ⟨err', hrun, hrefuses⟩ | ⟨hrun, -⟩
  · rw [hrun] at h
    cases h
  · rw [hrun] at h
    cases h
    exact hrefuses
  · rw [hrun] at h
    cases h

/-! ## Many events -/

/-- What holds of the entries of a store after any events. -/
structure Orderly (store : SchemaStore) : Prop where
  distinct : (store.entries.map Prod.fst).Nodup
  sound : store.Sound

theorem orderly_empty : empty.Orderly :=
  ⟨List.nodup_nil, sound_empty⟩

theorem not_mem_of_get?_eq_none {f : Fingerprint} (h : store.get? f = none) :
    f ∉ store.entries.map Prod.fst := by
  intro hmem
  obtain ⟨entry, hentry, rfl⟩ := List.mem_map.mp hmem
  have hne := List.lookup_eq_none_iff.mp h entry hentry
  simp at hne

theorem Orderly.adds (h : store.Orderly) (hadds : store.Adds after) : after.Orderly := by
  rcases hadds with hsame | ⟨s, hnone, hmore⟩
  · refine ⟨?_, fun f kept hmem => h.sound f kept ?_⟩
    · rw [hsame]
      exact h.distinct
    · rwa [hsame] at hmem
  · -- What is added stands under a fingerprint that had no entry.
    constructor
    · rw [hmore, List.map_append]
      refine List.nodup_append.mpr ⟨h.distinct, List.pairwise_singleton _ _, ?_⟩
      intro f hf g hg same
      rw [same, List.mem_singleton.mp hg] at hf
      exact not_mem_of_get?_eq_none hnone hf
    · intro f kept hmem
      rw [hmore] at hmem
      rcases List.mem_append.mp hmem with hmem | hmem
      · exact h.sound f kept hmem
      · obtain ⟨rfl, rfl⟩ := Prod.mk.inj (List.mem_singleton.mp hmem)
        exact ⟨s.fingerprint_canonical, s.canonical_canonical⟩

theorem Orderly.play (h : store.Orderly) (events : List StoreEvent) :
    (store.play events).Orderly := by
  induction events generalizing store with
  | nil => exact h
  | cons event rest ih => exact ih (h.adds (store.step_entries event))

/-- An event leaves the entries in front of those that it adds. -/
theorem Adds.isPrefix (h : store.Adds after) : store.entries <+: after.entries := by
  rcases h with hsame | ⟨s, -, hmore⟩
  · exact ⟨[], (List.append_nil _).trans hsame.symm⟩
  · exact ⟨[(s.fingerprint, s.canonical)], hmore.symm⟩

theorem isPrefix_play (store : SchemaStore) (events : List StoreEvent) :
    store.entries <+: (store.play events).entries := by
  induction events generalizing store with
  | nil => exact List.prefix_refl _
  | cons event rest ih => exact (store.step_entries event).isPrefix.trans (ih (store.step event))

/-! ## What holds after any events -/

theorem install_of_get?_eq_none {f : Fingerprint} (hnone : store.get? f = none) (s : Schema) :
    store.install f s = (s, { store with entries := store.entries ++ [(f, s)] }) := by
  rw [install, hnone]

/-- A schema that was put in, or that a new source has, is found where there was none. -/
theorem answer_retry {s : Schema} (hnone : store.get? s.fingerprint = none) :
    (StoreCall.resolve s.fingerprint).answer (store.step (.call (.register s)))
        = .ok (some (s.fingerprint, s.canonical)) ∧
      ∀ source : SchemaSource, source s.fingerprint = some s →
        (StoreCall.resolve s.fingerprint).answer (store.step (.call (.setSource source)))
          = .ok (some (s.fingerprint, s.canonical)) := by
  constructor
  · have hkept := store.get?_install_self s.fingerprint s.canonical
    rw [install_of_get?_eq_none hnone s.canonical] at hkept
    show ((store.register s).2.resolve s.fingerprint).map _ = _
    rw [register, install_of_get?_eq_none hnone, resolve_of_get? hkept]
    rfl
  · intro source hsource
    show ((store.setSource source).resolve s.fingerprint).map _ = _
    have hnone' : (store.setSource source).get? s.fingerprint = none := hnone
    rw [resolve_of_source hnone' hsource]
    rfl

/-- A store neither lies about what it has nor forgets it. -/
structure Faithful (store : SchemaStore) : Prop where
  /-- Every entry is a schema without defaults and with sorted fields, at every level, and it stands
  under its own fingerprint. -/
  entries : ∀ f kept, (f, kept) ∈ store.entries →
    kept.fingerprint = f ∧ kept.EveryLevel Schema.Tidy
  /-- No fingerprint has two entries. -/
  distinct : (store.entries.map Prod.fst).Nodup
  /-- Whatever happens next, the entries stay where they are, and what is found stays found. -/
  lasting : ∀ events, store.entries <+: (store.play events).entries ∧
    ∀ f kept, store.get? f = some kept → (store.play events).get? f = some kept
  /-- What a call answers is the entry that is there afterwards for the fingerprint which was asked
  for. -/
  answered : ∀ (call : StoreCall) f kept, call.answer store = .ok (some (f, kept)) →
    call.asked = some f ∧ (call.effect store).get? f = some kept
  /-- A call that fails does so for one of two reasons, and does nothing to the store. -/
  refused : ∀ (call : StoreCall) err, call.answer store = .error err →
    store.Refuses call err ∧ call.effect store = store
  /-- A schema that was unknown can be asked for again, once it was put in or a source has it. -/
  retry : ∀ s : Schema, (∃ err, (StoreCall.resolve s.fingerprint).answer store = .error err) →
    (StoreCall.resolve s.fingerprint).answer (store.step (.call (.register s)))
        = .ok (some (s.fingerprint, s.canonical)) ∧
      ∀ source : SchemaSource, source s.fingerprint = some s →
        (StoreCall.resolve s.fingerprint).answer (store.step (.call (.setSource source)))
          = .ok (some (s.fingerprint, s.canonical))

theorem extends_play (store : SchemaStore) (events : List StoreEvent) :
    store.Extends (store.play events) := by
  intro f kept hget
  obtain ⟨more, hmore⟩ := store.isPrefix_play events
  show (store.play events).entries.lookup f = some kept
  have hkept : store.entries.lookup f = some kept := hget
  rw [← hmore, List.lookup_append, hkept]
  rfl

/-- **Stores never lie and never forget.** Whatever calls have come in, whoever made them, and
whatever the sources have answered. -/
theorem faithful_play (events : List StoreEvent) : (empty.play events).Faithful := by
  have horderly := orderly_empty.play events
  constructor
  case entries =>
    intro f kept hmem
    obtain ⟨hf, hcanonical⟩ := horderly.sound f kept hmem
    refine ⟨hf, ?_⟩
    -- A schema that is its own canonical schema is tidy at every level.
    rw [← hcanonical]
    exact kept.everyLevel_canonical Schema.tidy_canonical
  case distinct => exact horderly.distinct
  case lasting =>
    intro further
    exact ⟨isPrefix_play _ further, extends_play _ further⟩
  case answered =>
    intro call f kept h
    exact get?_effect h
  case refused =>
    intro call err h
    exact effect_of_error h
  case retry =>
    intro s herr
    obtain ⟨err, herr⟩ := herr
    obtain ⟨hrefuses, -⟩ := effect_of_error herr
    cases hrefuses with
    | unknown hnone => exact answer_retry hnone

end SchemaStore

end RecordExchange
