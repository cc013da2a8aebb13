import RecordExchange.Proofs.Exchanges
import RecordExchange.Proofs.RecordNames
import RecordExchange.Proofs.Stores

/-!
# Calls on an endpoint

An endpoint starts with nothing built up. Calls on it, on its store by others and its disposal come
in any order, and each may fail. What is built up satisfies an invariant throughout: serializers
are those of bound classes, what they mention was admitted, and their schemas are in the store.

- `Call`, `Endpoint.step`, `Endpoint.run`, `Endpoint.Reachable`.
- `Endpoint.Admits`: the whitelist admits all record types that a schema mentions.
- `Endpoint.Invariant`: what holds of everything built up.
- `Endpoint.ends_serializerFor`, `Endpoint.ends_encode`, `Endpoint.ends_receive`,
  `Endpoint.ends_decode`: how each operation ends.
- `Endpoint.advances_step`, `Endpoint.advances_run`, `Endpoint.Reachable.invariant`: one call, many
  calls and all reachable states.
-/

namespace RecordExchange

open Exchange

variable {app : Application}

/-! ## Calls and runs -/

/-- A call on an endpoint or on its store. -/
inductive Call (app : Application) where
  | serializerFor (c : app.Class)
  | encode (c : app.Class) (object : app.Object c)
  | decode (message : List UInt8)
  | decodeAs (c : app.Class) (message : List UInt8)
  | dispose
  | register (s : Schema)
  | registerAs (f : Fingerprint) (s : Schema)
  | resolve (f : Fingerprint)
  | setSource (source : SchemaSource)

/-- What an exchange leaves behind, whether it succeeds or not. -/
def Exchange.after {α : Type} (x : Exchange app α) (s : State app) : State app :=
  match x.run s with
  | .ok _ t => t
  | .error _ t => t

theorem Registry.mem_entries_of_get? {r : Registry (Binding app)} {name : String}
    {kept : Serializer app} (h : r.get? name = some kept) : (name, kept) ∈ r.entries := by
  obtain ⟨before, after, hentries, -⟩ := List.lookup_eq_some_iff.mp h
  rw [hentries]
  exact List.mem_append_right before List.mem_cons_self

namespace Endpoint

/-- The state after a call. -/
def step (e : Endpoint app) : Call app → State app → State app
  | .serializerFor c => (e.serializerFor c).after
  | .encode c object => (e.encode c object).after
  | .decode message => (e.decode message).after
  | .decodeAs c message => (e.decodeAs c message).after
  | .dispose => (dispose : Exchange app Unit).after
  | .register s => (updateStore fun store => store.register s : Exchange app _).after
  | .registerAs f s => (tryStore fun store => store.registerAs f s : Exchange app _).after
  | .resolve f => (tryStore fun store => store.resolve f : Exchange app _).after
  | .setSource source =>
    (updateStore fun store => ((), store.setSource source) : Exchange app Unit).after

/-- The state after calls, one after another. -/
def run (e : Endpoint app) (calls : List (Call app)) (s : State app) : State app :=
  calls.foldl (fun t call => e.step call t) s

/-- Nothing has been built up. -/
def start : State app := (.empty, ⟨[], .empty⟩)

/-- A state that calls lead to. -/
def Reachable (e : Endpoint app) (s : State app) : Prop :=
  ∃ calls, e.run calls start = s

/-! ## Admission -/

/-- The whitelist admits every record type that a schema mentions. -/
def Admits (e : Endpoint app) (s : Schema) : Prop :=
  ∀ n, s.Mentions n → e.whitelist e.group n = true

theorem forM_permit_eq (e : Endpoint app) (names : List String) :
    names.forM e.permit
      = (match names.find? fun n => !e.whitelist e.group n with
        | none => .ok ()
        | some n => .error (.notPermitted e.group.name n)) := by
  -- By the names in order: the first that is refused ends the walk.
  induction names with
  | nil => rfl
  | cons n rest ih =>
    rw [List.find?_cons]
    by_cases h : e.whitelist e.group n = true
    · have hpermit : e.permit n = .ok () := by
        rw [permit, if_pos h]
      rw [h]
      show (e.permit n >>= fun _ => rest.forM e.permit) = _
      rw [hpermit]
      exact ih
    · have hpermit : e.permit n = .error (.notPermitted e.group.name n) := by
        rw [permit, if_neg h]
      rw [Bool.not_eq_true] at h
      rw [h]
      show (e.permit n >>= fun _ => rest.forM e.permit) = _
      rw [hpermit]
      rfl

/-- Admission reports the first name that is refused. -/
theorem permitAll_eq (e : Endpoint app) (s : Schema) :
    e.permitAll s
      = (match s.recordNames.find? fun n => !e.whitelist e.group n with
        | none => .ok ()
        | some n => .error (.notPermitted e.group.name n)) :=
  e.forM_permit_eq s.recordNames

/-- A schema passes admission when all that it mentions is admitted. -/
theorem permitAll_eq_ok_iff (e : Endpoint app) (s : Schema) :
    e.permitAll s = .ok () ↔ e.Admits s := by
  have hnone : (s.recordNames.find? fun n => !e.whitelist e.group n) = none ↔ e.Admits s := by
    rw [List.find?_eq_none]
    simp only [s.mem_recordNames_iff, Bool.not_eq_true', Bool.not_eq_false]
    rfl
  rw [e.permitAll_eq, ← hnone]
  cases s.recordNames.find? fun n => !e.whitelist e.group n <;> simp

/-- Admission fails by refusing a name, and in no other way. -/
theorem exists_notPermitted_of_permitAll {e : Endpoint app} {s : Schema} {err : ExchangeError}
    (h : e.permitAll s = .error err) : ∃ n, err = .notPermitted e.group.name n := by
  rw [e.permitAll_eq] at h
  split at h <;> cases h
  exact ⟨_, rfl⟩

/-! ## The invariant -/

/-- What holds of everything that an endpoint has built up. -/
structure Invariant (e : Endpoint app) (s : State app) : Prop where
  /-- A serializer is that of the class which the group binds under its name. -/
  bound : ∀ name kept, (name, kept) ∈ s.1.entries → e.group.resolve? name = some kept.content
  admitted : ∀ name kept, (name, kept) ∈ s.1.entries → e.Admits kept.content.schema
  /-- The schemas of serializers are in the store. -/
  stored : ∀ name kept, (name, kept) ∈ s.1.entries →
    s.2.store.contains kept.content.schema.fingerprint = true
  sound : s.2.store.Sound

/-- The invariant holds afterwards, and the store has lost nothing. -/
structure Advances (e : Endpoint app) (s t : State app) : Prop where
  invariant : e.Invariant t
  extend : s.2.store.Extends t.2.store

variable {e : Endpoint app} {s t u : State app}

theorem Invariant.advances (h : e.Invariant s) : e.Advances s s :=
  ⟨h, .refl _⟩

theorem Advances.trans (hst : e.Advances s t) (htu : e.Advances t u) : e.Advances s u :=
  ⟨htu.invariant, hst.extend.trans htu.extend⟩

/-- Where no serializer is added and the store may at most grow, the invariant is kept. -/
theorem Invariant.advances_of_grows (h : e.Invariant s)
    (hregistry : ∀ entry ∈ t.1.entries, entry ∈ s.1.entries)
    (hgrows : s.2.store.Grows t.2.store) : e.Advances s t := by
  refine ⟨⟨?_, ?_, ?_, hgrows.sound h.sound⟩, hgrows.extend⟩
  · intro name kept hmem
    exact h.bound name kept (hregistry _ hmem)
  · intro name kept hmem
    exact h.admitted name kept (hregistry _ hmem)
  · intro name kept hmem
    exact hgrows.extend.contains (h.stored name kept (hregistry _ hmem))

/-- Where nothing has been built up, the invariant holds over any sound store. -/
theorem invariant_of_sound (e : Endpoint app) {store : SchemaStore} (hsound : store.Sound) :
    e.Invariant (.empty, ⟨[], store⟩) := by
  refine ⟨?_, ?_, ?_, hsound⟩
  all_goals
    intro name kept hmem
    exact absurd hmem List.not_mem_nil

theorem invariant_start (e : Endpoint app) : e.Invariant start :=
  e.invariant_of_sound SchemaStore.sound_empty

/-! ## Serializers -/

/-- A serializer is made of an admitted schema, which is in the store then. -/
theorem ends_synthesize (h : e.Invariant s) (b : Binding app) :
    (e.synthesize b).Ends s
      (fun b' t => b' = b ∧ e.Admits b.schema ∧ e.Advances s t ∧
        t = (s.1, { s.2 with store := (s.2.store.register b.schema).2 }))
      (fun _ t => t = s ∧ ¬ e.Admits b.schema) := by
  rw [synthesize, ends_bind, ends_ofExcept]
  refine ⟨fun _ hpermit => ?_, fun err hrefused => ⟨rfl, fun hadmits => ?_⟩⟩
  · rw [ends_bind, ends_updateStore, ends_pure]
    have hgrows := s.2.store.grows_register b.schema
    exact ⟨rfl, (e.permitAll_eq_ok_iff b.schema).mp hpermit,
      h.advances_of_grows (fun _ hmem => hmem) hgrows, rfl⟩
  · rw [(e.permitAll_eq_ok_iff b.schema).mpr hadmits] at hrefused
    cases hrefused

/-- A serializer that is installed keeps the invariant. -/
theorem Invariant.install (h : e.Invariant s) {b : Binding app}
    (hb : e.group.resolve? b.typeName = some b) (hadmits : e.Admits b.schema)
    (hstored : s.2.store.contains b.schema.fingerprint = true) (serial made : Nat) :
    e.Invariant (⟨s.1.entries ++ [(b.typeName, ⟨b, serial⟩)], made⟩, s.2) := by
  -- The entries are those of before and the new one.
  have hcases : ∀ {name kept},
      (name, kept) ∈ s.1.entries ++ [(b.typeName, (⟨b, serial⟩ : Serializer app))] →
        (name, kept) ∈ s.1.entries ∨ name = b.typeName ∧ kept.content = b := by
    intro name kept hmem
    rcases List.mem_append.mp hmem with hmem | hmem
    · exact .inl hmem
    · obtain ⟨rfl, rfl⟩ := Prod.mk.inj (List.mem_singleton.mp hmem)
      exact .inr ⟨rfl, rfl⟩
  refine ⟨?_, ?_, ?_, h.sound⟩
  · intro name kept hmem
    rcases hcases hmem with hmem | ⟨rfl, hkept⟩
    · exact h.bound name kept hmem
    · rw [hkept, hb]
  · intro name kept hmem
    rcases hcases hmem with hmem | ⟨-, hkept⟩
    · exact h.admitted name kept hmem
    · rw [hkept]
      exact hadmits
  · intro name kept hmem
    rcases hcases hmem with hmem | ⟨-, hkept⟩
    · exact h.stored name kept hmem
    · rw [hkept]
      exact hstored

/-- What is known of the serializer of a class once there is one. -/
structure Serves (e : Endpoint app) (s : State app) (b : Binding app) (kept : Serializer app)
    (t : State app) : Prop where
  advances : e.Advances s t
  content : kept.content = b
  admits : e.Admits b.schema
  announced : t.2.announced = s.2.announced
  stored : t.2.store.contains b.schema.fingerprint = true
  store : t.2.store = s.2.store ∨ t.2.store = (s.2.store.register b.schema).2

/-- The serializer of a bound class is that of the class, whether it is made or found, and what it
mentions has been admitted at the latest now. Only for a refusal there is none, which leaves
everything as it is. -/
theorem ends_serializerOf (h : e.Invariant s) {b : Binding app}
    (hb : e.group.resolve? b.typeName = some b) :
    (e.serializerOf b).Ends s (e.Serves s b) (fun _ t => t = s ∧ ¬ e.Admits b.schema) := by
  rw [serializerOf, Registry.getOrSynthesize, ends_bind, ends_get]
  cases hget : s.1.get? b.typeName with
  | some kept =>
    -- A serializer that is found was admitted when it was made, which the invariant remembers.
    have hmem := Registry.mem_entries_of_get? hget
    have hcontent : kept.content = b := by
      have hbound := h.bound b.typeName kept hmem
      rw [hb] at hbound
      exact (Option.some.inj hbound).symm
    have hadmits := h.admitted b.typeName kept hmem
    have hstored := h.stored b.typeName kept hmem
    rw [hcontent] at hadmits hstored
    exact ⟨h.advances, hcontent, hadmits, rfl, hstored, .inl rfl⟩
  | none =>
    show Ends _ s _ _
    rw [ends_bind]
    refine (ends_synthesize h b).mono ?_ fun _ _ ht => ht
    rintro b' t ⟨rfl, hadmits, hadvances, rfl⟩
    have hstored := s.2.store.contains_register b'.schema
    show e.Serves s b' (s.1.install b'.typeName b').1 ((s.1.install b'.typeName b').2, _)
    simp only [Registry.install, hget]
    exact ⟨⟨hadvances.invariant.install hb hadmits hstored _ _, hadvances.extend⟩, rfl, hadmits,
      rfl, hstored, .inr rfl⟩

/-- The group binds a class under its own name. -/
structure Binds (e : Endpoint app) (c : app.Class) (b : Binding app) : Prop where
  cls : b.cls = c
  resolve : e.group.resolve? b.typeName = some b

theorem bound_eq_ok_iff {typeName : String} {b : Binding app} :
    e.bound typeName = .ok b ↔ e.group.resolve? typeName = some b := by
  unfold bound
  cases e.group.resolve? typeName <;> simp

theorem eq_notBound_of_bound {typeName : String} {err : ExchangeError}
    (h : e.bound typeName = .error err) : err = .notBound e.group.name typeName := by
  unfold bound at h
  split at h <;> cases h
  rfl

theorem Binds.bound {c : app.Class} {b : Binding app} (h : e.Binds c b) :
    e.bound (app.typeName c) = .ok b := by
  obtain ⟨rfl, hresolve⟩ := h
  exact bound_eq_ok_iff.mpr hresolve

/-- The serializer of a class is to be had exactly when the group binds the class under its name and
all that it mentions is admitted. -/
theorem ends_serializerFor (h : e.Invariant s) (c : app.Class) :
    (e.serializerFor c).Ends s (fun kept t => ∃ b, e.Binds c b ∧ e.Serves s b kept t)
      (fun _ t => t = s ∧ ∀ b, e.Binds c b → ¬ e.Admits b.schema) := by
  rw [serializerFor, ends_bind, ends_ofExcept]
  refine ⟨fun b hbound => ?_, fun _ hnone => ⟨rfl, ?_⟩⟩
  · have hresolve := bound_eq_ok_iff.mp hbound
    rw [← Group.typeName_of_resolve? hresolve] at hresolve
    -- The group has the name; what matters is whether it binds this class under it.
    split
    next hcls =>
      refine (ends_serializerOf h hresolve).mono ?_ ?_
      · intro kept t hserves
        exact ⟨b, ⟨hcls, hresolve⟩, hserves⟩
      · rintro _ t ⟨rfl, hrefused⟩
        -- A binding of the class is this one, so that every binding is refused.
        refine ⟨rfl, fun b' hb' => ?_⟩
        rw [Binding.eq_of_cls_eq (hb'.cls.trans hcls.symm)]
        exact hrefused
    next hcls =>
      refine ⟨rfl, fun b' hb' => ?_⟩
      rw [hb'.bound] at hbound
      cases hbound
      exact absurd hb'.cls hcls
  · intro b hb
    rw [hb.bound] at hnone
    cases hnone

/-! ## Messages -/

/-- The message of a payload: a header, which carries the schema if it is to be embedded, and the
payload. -/
def message (e : Endpoint app) (announced : List Fingerprint) (schema : Schema)
    (payload : List UInt8) : List UInt8 :=
  Header.encode ⟨schema.fingerprint,
    if e.embeds announced schema.fingerprint then some schema.canonicalText else none⟩ ++ payload

/-- What is known of a message that an endpoint has written: all that the class mentions was
admitted, its schema is in the store, and the message is that of a payload, within the limit. -/
structure Writes (e : Endpoint app) (s : State app) (b : Binding app) (r : Record)
    (message : List UInt8) (t : State app) : Prop where
  advances : e.Advances s t
  admits : e.Admits b.schema
  stored : t.2.store.contains b.schema.fingerprint = true
  store : t.2.store = s.2.store ∨ t.2.store = (s.2.store.register b.schema).2
  size : message.length ≤ e.settings.maxMessageSize
  message : ∃ payload, b.schema.encode r = .ok payload ∧
    message = e.message s.2.announced b.schema payload

/-- Announcing a schema touches neither the serializers nor the store. -/
theorem ends_announce (h : e.Invariant s) (f : Fingerprint) :
    (e.announce f).Ends s (fun _ t => e.Advances s t ∧ t.2.store = s.2.store)
      (fun _ _ => False) := by
  unfold announce
  split
  · have hstore : (if s.2.announced.contains f then s.2
        else { s.2 with announced := f :: s.2.announced }).store = s.2.store := by
      split <;> rfl
    refine ⟨h.advances_of_grows (fun _ hmem => hmem) ?_, hstore⟩
    show s.2.store.Grows (if s.2.announced.contains f then s.2
      else { s.2 with announced := f :: s.2.announced }).store
    rw [hstore]
    exact .refl s.2.store
  · exact ⟨h.advances, rfl⟩

/-- Sending a message fails only when it is too long, and touches neither the serializers nor the
store. -/
theorem ends_send (h : e.Invariant s) (message : List UInt8) (carried : Bool) (f : Fingerprint) :
    Ends
      (do
        if e.settings.maxMessageSize < message.length then
          throw (.messageTooLarge message.length e.settings.maxMessageSize)
        if carried then e.announce f
        return message : Exchange app (List UInt8)) s
      (fun m t => m = message ∧ message.length ≤ e.settings.maxMessageSize ∧ e.Advances s t ∧
        t.2.store = s.2.store)
      (fun _ t => t = s ∧ e.settings.maxMessageSize < message.length) := by
  by_cases hsize : e.settings.maxMessageSize < message.length
  · rw [if_pos hsize]
    exact ⟨rfl, hsize⟩
  · rw [if_neg hsize]
    have hle := Nat.not_lt.mp hsize
    cases carried with
    | false => exact ⟨rfl, hle, h.advances, rfl⟩
    | true =>
      show Ends (e.announce f >>= _) s _ _
      rw [ends_bind]
      refine (ends_announce h f).mono ?_ fun _ _ hfalse => hfalse.elim
      rintro _ t ⟨hst, hstore⟩
      exact ⟨rfl, hle, hst, hstore⟩

/-- A message is written for objects of bound classes only, and for these whenever what the class
mentions is admitted, the record belongs to it and the message is within the limit. -/
theorem ends_encode (h : e.Invariant s) (c : app.Class) (object : app.Object c) :
    (e.encode c object).Ends s
      (fun message t => ∃ b, e.Binds c b ∧ e.Writes s b (app.toRecord c object) message t)
      (fun _ t => e.Advances s t ∧ ∀ b, e.Binds c b → e.Admits b.schema → ∀ payload,
        b.schema.encode (app.toRecord c object) = .ok payload →
          e.settings.maxMessageSize < (e.message s.2.announced b.schema payload).length) := by
  rw [encode, ends_bind]
  refine (ends_serializerFor h c).mono ?_ ?_
  · rintro kept t ⟨b, hbinds, hserves⟩
    obtain ⟨hadvances, rfl, hadmits, hannounced, hstored, hstore⟩ := hserves
    -- A class has one binding, so whatever is said of a binding of the class is said of this one.
    have hsame : ∀ b, e.Binds c b → b = kept.content := fun b hb =>
      Binding.eq_of_cls_eq (hb.cls.trans hbinds.cls.symm)
    rw [ends_bind, ends_get, ends_bind, ends_ofExcept]
    refine ⟨fun payload hpayload => ?_, fun err hfailed => ⟨hadvances, ?_⟩⟩
    · rw [hannounced]
      refine (ends_send hadvances.invariant (e.message s.2.announced kept.schema payload) _ _).mono
        ?_ ?_
      · rintro _ u ⟨rfl, hsize, htu, hkeep⟩
        rw [← hkeep] at hstored hstore
        exact ⟨kept.content, hbinds, hadvances.trans htu, hadmits, hstored, hstore, hsize, payload,
          hpayload, rfl⟩
      · rintro _ u ⟨rfl, hsize⟩
        refine ⟨hadvances, fun b hb _ payload' hpayload' => ?_⟩
        rw [hsame b hb] at hpayload' ⊢
        cases hpayload.symm.trans hpayload'
        exact hsize
    · intro b hb _ payload hpayload
      rw [hsame b hb] at hpayload
      cases hfailed.symm.trans hpayload
  · rintro _ t ⟨rfl, hnone⟩
    exact ⟨h.advances, fun b hb hadmits => absurd hadmits (hnone b hb)⟩

/-- Writing succeeds when nothing stands against it. -/
theorem exists_run_encode (h : e.Invariant s) {b : Binding app} {object : app.Object b.cls}
    {payload : List UInt8} (hbound : e.group.resolve? b.typeName = some b)
    (hadmits : e.Admits b.schema)
    (hpayload : b.schema.encode (app.toRecord b.cls object) = .ok payload)
    (hsize : (e.message s.2.announced b.schema payload).length ≤ e.settings.maxMessageSize) :
    ∃ t, (e.encode b.cls object).run s = .ok (e.message s.2.announced b.schema payload) t ∧
      e.Writes s b (app.toRecord b.cls object) (e.message s.2.announced b.schema payload) t := by
  have hends := (ends_encode h b.cls object).mono (fun _ _ hQ => hQ) fun _ _ hE =>
    Nat.not_lt.mpr hsize (hE.2 b ⟨rfl, hbound⟩ hadmits payload hpayload)
  obtain ⟨message, t, hrun, b', hb', hwrites⟩ := hends.exists_run_ok
  rw [Binding.eq_of_cls_eq hb'.cls] at hwrites
  obtain ⟨payload', hpayload', rfl⟩ := hwrites.message
  rw [hpayload] at hpayload'
  cases hpayload'
  exact ⟨t, hrun, hwrites⟩

/-- The schema of a writer as it follows from the header and a store alone, with the store that is
left. -/
def writerSchemaIn (store : SchemaStore) (header : Header) :
    Except ExchangeError (WriterSchema × SchemaStore) :=
  match header.schemaText with
  | none =>
    match store.resolve header.fingerprint with
    | .ok (kept, after) => .ok (⟨kept, false⟩, after)
    | .error err => .error (.ofSchemaError err)
  | some text =>
    match Schema.ofText text with
    | .error err => .error (.corrupt (.embeddedSchema err))
    | .ok schema =>
      if schema.fingerprint = header.fingerprint then .ok (⟨schema.canonical, true⟩, store)
      else .error (.corrupt (.embeddedFingerprint schema.fingerprint header.fingerprint))

/-- Finding the schema of a writer depends on the store alone and changes nothing else. -/
theorem run_writerSchema (header : Header) (s : State app) :
    (writerSchema header : Exchange app WriterSchema).run s
      = (match writerSchemaIn s.2.store header with
        | .ok (writer, store) => .ok writer (s.1, { s.2 with store := store })
        | .error err => .error err s) := by
  unfold writerSchema writerSchemaIn
  -- Only a header without text asks the store.
  cases header.schemaText with
  | none =>
    rw [EStateM.run_bind, run_tryStore]
    cases s.2.store.resolve header.fingerprint <;> rfl
  | some text =>
    cases htext : Schema.ofText text with
    | error err =>
      simp only [htext]
      rfl
    | ok schema =>
      simp only [htext]
      by_cases hf : schema.fingerprint = header.fingerprint
      · simp only [if_pos hf]
        rfl
      · simp only [if_neg hf]
        rfl

/-- The schema of a writer is canonical and has the fingerprint that the header names. Finding it
may add it to the store. -/
theorem writerSchemaIn_spec {store after : SchemaStore} {header : Header} {writer : WriterSchema}
    (hsound : store.Sound) (h : writerSchemaIn store header = .ok (writer, after)) :
    store.Grows after ∧ writer.schema.fingerprint = header.fingerprint ∧
      writer.schema.canonical = writer.schema := by
  unfold writerSchemaIn at h
  -- Without a text the store answers; a text is parsed and compared with the header.
  split at h
  · split at h
    next kept store' hresolve =>
      cases h
      obtain ⟨hgrows, hkept⟩ := SchemaStore.grows_resolve hresolve
      exact ⟨hgrows, hgrows.sound hsound _ _ (SchemaStore.mem_entries_of_get? hkept)⟩
    next => cases h
  · split at h
    · cases h
    next schema _ =>
      split at h
      next hf =>
        cases h
        refine ⟨.refl store, ?_, schema.canonical_canonical⟩
        rw [← hf]
        exact schema.fingerprint_canonical
      next => cases h

/-- Finding the schema of a writer, in one step. -/
theorem ends_writerSchema_iff {header : Header} {Q : WriterSchema → State app → Prop}
    {E : ExchangeError → State app → Prop} :
    (writerSchema header : Exchange app WriterSchema).Ends s Q E
      ↔ (∀ writer after, writerSchemaIn s.2.store header = .ok (writer, after) →
          Q writer (s.1, { s.2 with store := after })) ∧
        ∀ err, writerSchemaIn s.2.store header = .error err → E err s := by
  unfold Ends
  rw [run_writerSchema]
  cases writerSchemaIn s.2.store header with
  | ok found =>
    obtain ⟨writer, after⟩ := found
    simp
  | error err => simp

theorem ends_writerSchema (h : e.Invariant s) (header : Header) :
    (writerSchema header : Exchange app WriterSchema).Ends s
      (fun writer t => e.Advances s t ∧ writer.schema.fingerprint = header.fingerprint ∧
        writer.schema.canonical = writer.schema)
      (fun _ t => t = s) := by
  rw [ends_writerSchema_iff]
  refine ⟨fun writer after hwriter => ?_, fun _ _ => rfl⟩
  obtain ⟨hgrows, hwriter⟩ := writerSchemaIn_spec h.sound hwriter
  exact ⟨h.advances_of_grows (fun _ hmem => hmem) hgrows, hwriter⟩

/-- What is known of what a message holds, before an object is made of it: all that the writer's
schema mentions was admitted, and so was all that the class mentions which the group binds under
the name of that schema. -/
structure Receives (e : Endpoint app) (s : State app) (r : Received app) (t : State app) :
    Prop where
  advances : e.Advances s t
  fingerprint : r.writer.schema.fingerprint = r.fingerprint
  canonical : r.writer.schema.canonical = r.writer.schema
  admitsWriter : e.Admits r.writer.schema
  bound : e.group.resolve? r.writer.schema.name = some r.binding
  admitsBinding : e.Admits r.binding.schema

/-- What is done with a message once the schema of its writer is known. -/
def receiveFrom (e : Endpoint app) (header : Header) (writer : WriterSchema) (cursor : Cursor) :
    Exchange app (Received app) := do
  Exchange.ofExcept (e.permitAll writer.schema)
  let b ← Exchange.ofExcept (e.bound writer.schema.name)
  let s ← e.serializerOf b
  let (record, cursor) ← Exchange.read (s.schema.decodeFrom writer.schema) cursor
  let _ ← Exchange.read Decoder.finish cursor
  return ⟨header.fingerprint, writer, s.content, record⟩

/-- A message within the limit whose header is read is received once the schema of its writer is
found, in the state that this leaves behind. -/
theorem run_receive {message : List UInt8} {header : Header} {cursor : Cursor}
    (hsize : message.length ≤ e.settings.maxMessageSize)
    (hheader : Header.decode.run (Cursor.start message) = .ok header cursor) (s : State app) :
    (e.receive message).run s
      = (match writerSchemaIn s.2.store header with
        | .ok (writer, store) =>
          (e.receiveFrom header writer cursor).run (s.1, { s.2 with store := store })
        | .error err => .error err s) := by
  rw [receive, if_neg (Nat.not_lt.mpr hsize)]
  show EStateM.run (Exchange.read Header.decode (Cursor.start message) >>= _) s = _
  rw [EStateM.run_bind, run_read hheader]
  show EStateM.run (writerSchema header >>= _) s = _
  rw [EStateM.run_bind, run_writerSchema]
  cases writerSchemaIn s.2.store header <;> rfl

/-- Admission comes first, then the class, then its serializer; the payload is read last. -/
theorem ends_receiveFrom (h : e.Invariant s) {header : Header} {writer : WriterSchema}
    (hfingerprint : writer.schema.fingerprint = header.fingerprint)
    (hcanonical : writer.schema.canonical = writer.schema) (cursor : Cursor) :
    (e.receiveFrom header writer cursor).Ends s (e.Receives s) (fun _ t => e.Advances s t) := by
  rw [receiveFrom, ends_bind, ends_ofExcept]
  refine ⟨fun _ hpermit => ?_, fun _ _ => h.advances⟩
  have hadmits := (e.permitAll_eq_ok_iff writer.schema).mp hpermit
  rw [ends_bind, ends_ofExcept]
  refine ⟨fun b hbound => ?_, fun _ _ => h.advances⟩
  have hresolve := bound_eq_ok_iff.mp hbound
  have hname : b.typeName = writer.schema.name := Group.typeName_of_resolve? hresolve
  rw [ends_bind]
  refine (ends_serializerOf h (by rw [hname]; exact hresolve)).mono ?_ fun _ t ht => ?_
  · rintro kept t ⟨hst, rfl, hadmitsBinding, -, -, -⟩
    -- The payload is read and must then be at its end; neither touches the state.
    rw [ends_bind, ends_read]
    refine ⟨fun record after _ => ?_, fun _ _ _ => hst⟩
    show Ends _ t _ _
    rw [ends_bind, ends_read]
    exact ⟨fun _ _ _ => ⟨hst, hfingerprint, hcanonical, hadmits, hresolve, hadmitsBinding⟩,
      fun _ _ _ => hst⟩
  · rw [ht.1]
    exact h.advances

theorem ends_receive (h : e.Invariant s) (message : List UInt8) :
    (e.receive message).Ends s (e.Receives s) (fun _ t => e.Advances s t) := by
  unfold receive
  by_cases hsize : e.settings.maxMessageSize < message.length
  · rw [if_pos hsize]
    exact h.advances
  · rw [if_neg hsize]
    show Ends (Exchange.read Header.decode (Cursor.start message) >>= _) s _ _
    rw [ends_bind, ends_read]
    refine ⟨fun header cursor _ => ?_, fun _ _ _ => h.advances⟩
    show Ends (writerSchema header >>= fun writer => e.receiveFrom header writer cursor) s _ _
    rw [ends_bind]
    refine (ends_writerSchema h header).mono ?_ fun _ t ht => ht ▸ h.advances
    rintro writer t ⟨hst, hfingerprint, hcanonical⟩
    refine (ends_receiveFrom hst.invariant hfingerprint hcanonical cursor).mono ?_
      fun _ u htu => hst.trans htu
    intro r u hreceives
    exact { hreceives with advances := hst.trans hreceives.advances }

/-- What cannot be received is not decoded, and no object is made of it. -/
theorem run_decode_of_run_receive_error {message : List UInt8} {err : ExchangeError}
    (h : (e.receive message).run s = .error err t) : (e.decode message).run s = .error err t := by
  rw [decode, EStateM.run_bind, h]

/-- An object is made of what was received, by the class that is bound for it; only then the schema
that came with the message is put into the store. -/
theorem ends_decode (h : e.Invariant s) (message : List UInt8) :
    (e.decode message).Ends s
      (fun d t => e.Advances s t ∧ ∃ r u, (e.receive message).run s = .ok r u ∧
        d.cls = r.binding.cls ∧ d.fingerprint = r.fingerprint)
      (fun _ t => e.Advances s t) := by
  rw [decode, ends_bind]
  have hreceive := ends_receive h message
  -- Whatever follows the receiving starts from the state that it left.
  unfold Ends at hreceive ⊢
  split
  next r t hrun =>
    rw [hrun] at hreceive
    show Ends _ t _ _
    rw [ends_bind, ends_ofSchemaResult]
    refine ⟨fun object _ => ?_, fun _ _ => hreceive.advances⟩
    split
    · rw [ends_bind, ends_tryStore]
      refine ⟨fun kept store hregister => ⟨hreceive.advances.trans ?_, r, t, hrun, rfl, rfl⟩,
        fun _ _ => hreceive.advances⟩
      exact hreceive.advances.invariant.advances_of_grows (fun _ hmem => hmem)
        (SchemaStore.grows_registerAs hregister)
    · exact ⟨hreceive.advances, r, t, hrun, rfl, rfl⟩
  next err t hrun =>
    rw [hrun] at hreceive
    exact hreceive

theorem ends_decodeAs (h : e.Invariant s) (c : app.Class) (message : List UInt8) :
    (e.decodeAs c message).Ends s (fun _ t => e.Advances s t) (fun _ t => e.Advances s t) := by
  rw [decodeAs, ends_bind]
  refine (ends_decode h message).mono ?_ fun _ _ ht => ht
  rintro d t ⟨hst, -⟩
  split <;> exact hst

/-! ## One call and many -/

theorem advances_after {α : Type} {x : Exchange app α} {Q : α → State app → Prop}
    (h : x.Ends s Q fun _ t => e.Advances s t) (hQ : ∀ a t, Q a t → e.Advances s t) :
    e.Advances s (x.after s) := by
  unfold Ends at h
  unfold Exchange.after
  split
  next a t hrun =>
    rw [hrun] at h
    exact hQ a t h
  next err t hrun =>
    rw [hrun] at h
    exact h

/-- One call keeps the invariant and loses nothing from the store, whether it succeeds or fails. -/
theorem advances_step (h : e.Invariant s) (call : Call app) : e.Advances s (e.step call s) := by
  -- The first four calls have specifications; the others change registry or store alone.
  cases call with
  | serializerFor c =>
    refine advances_after (ends_serializerFor h c |>.mono (fun _ _ hQ => hQ) ?_) ?_
    · intro _ t ht
      rw [ht.1]
      exact h.advances
    · rintro kept t ⟨b, -, hserves⟩
      exact hserves.advances
  | encode c object =>
    refine advances_after ((ends_encode h c object).mono (fun _ _ hQ => hQ) fun _ _ hE => hE.1) ?_
    rintro message t ⟨b, -, hwrites⟩
    exact hwrites.advances
  | decode message => exact advances_after (ends_decode h message) fun _ _ hQ => hQ.1
  | decodeAs c message => exact advances_after (ends_decodeAs h c message) fun _ _ hQ => hQ
  | dispose => exact h.advances_of_grows (fun _ hmem => absurd hmem List.not_mem_nil) (.refl _)
  | register schema =>
    exact h.advances_of_grows (fun _ hmem => hmem) (s.2.store.grows_register schema)
  | registerAs f schema =>
    refine advances_after (Q := fun _ t => e.Advances s t) ?_ fun _ _ hQ => hQ
    rw [ends_tryStore]
    refine ⟨fun kept store hregister => ?_, fun _ _ => h.advances⟩
    exact h.advances_of_grows (fun _ hmem => hmem) (SchemaStore.grows_registerAs hregister)
  | resolve f =>
    refine advances_after (Q := fun _ t => e.Advances s t) ?_ fun _ _ hQ => hQ
    rw [ends_tryStore]
    refine ⟨fun kept store hresolve => ?_, fun _ _ => h.advances⟩
    exact h.advances_of_grows (fun _ hmem => hmem) (SchemaStore.grows_resolve hresolve).1
  | setSource source =>
    exact h.advances_of_grows (fun _ hmem => hmem) (s.2.store.grows_setSource source)

/-- Any calls keep the invariant and lose nothing from the store. -/
theorem advances_run (calls : List (Call app)) (h : e.Invariant s) :
    e.Advances s (e.run calls s) := by
  induction calls generalizing s with
  | nil => exact h.advances
  | cons call rest ih =>
    have hstep := advances_step h call
    exact hstep.trans (ih hstep.invariant)

/-- The invariant holds in every state that calls lead to. -/
theorem Reachable.invariant (h : e.Reachable s) : e.Invariant s := by
  obtain ⟨calls, rfl⟩ := h
  exact (advances_run calls e.invariant_start).invariant

end Endpoint

end RecordExchange
