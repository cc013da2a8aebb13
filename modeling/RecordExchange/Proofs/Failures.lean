import RecordExchange.Proofs.Admission
import RecordExchange.Proofs.Outcomes

/-!
# What a failure leaves behind

A call that fails may have made a serializer before it failed, and it may have asked the source of
the store for a schema. Nothing else is left of it: what was there is there as before, nothing has
been announced, and a schema that came with the message was not put into the store. This holds from
any state, also from those that calls do not lead to.

- `SchemaStore.Gains`: a store has gained one entry at most.
- `Endpoint.Makes`: one serializer has been made at most, with what belongs to it.
- `Endpoint.makes_of_run_encode`, `Endpoint.makes_of_run_decode`: that is all that an operation does
  before it fails, apart from what the source was asked for.
- `Endpoint.Residue`, `Endpoint.run_error_leaves`: what is left behind.
-/

namespace RecordExchange

open Exchange

variable {app : Application}

/-! ## Gains -/

namespace SchemaStore

/-- A store has kept all entries and its source, and has gained one entry at most, where it had
none. -/
structure Gains (before after : SchemaStore) (gain : Fingerprint → Schema → Prop) : Prop where
  source : after.source = before.source
  entries : after.entries = before.entries ∨ ∃ f kept, gain f kept ∧ before.get? f = none ∧
    after.entries = before.entries ++ [(f, kept)]

variable {before after : SchemaStore} {gain gain' : Fingerprint → Schema → Prop}

theorem Gains.refl (store : SchemaStore) (gain : Fingerprint → Schema → Prop) :
    store.Gains store gain :=
  ⟨rfl, .inl rfl⟩

theorem Gains.mono (h : before.Gains after gain) (hgain : ∀ f kept, gain f kept → gain' f kept) :
    before.Gains after gain' := by
  refine ⟨h.source, h.entries.imp_right ?_⟩
  rintro ⟨f, kept, hkept, hnone, hentries⟩
  exact ⟨f, kept, hgain f kept hkept, hnone, hentries⟩

theorem Gains.extend (h : before.Gains after gain) : before.Extends after := by
  intro f kept hkept
  have hlookup : before.entries.lookup f = some kept := hkept
  show after.entries.lookup f = some kept
  rcases h.entries with hentries | ⟨_, _, -, -, hentries⟩
  · rw [hentries, hlookup]
  · rw [hentries, List.lookup_append, hlookup]
    rfl

/-- What a store has was there or was gained. -/
theorem Gains.get?_cases (h : before.Gains after gain) {f : Fingerprint} {kept : Schema}
    (hkept : after.get? f = some kept) : before.get? f = some kept ∨ gain f kept := by
  have hlookup : after.entries.lookup f = some kept := hkept
  rcases h.entries with hentries | ⟨f', kept', hgain, -, hentries⟩
  · rw [hentries] at hlookup
    exact .inl hlookup
  · rw [hentries, List.lookup_append] at hlookup
    cases hbefore : before.entries.lookup f with
    | some old =>
      rw [hbefore] at hlookup
      exact .inl (hbefore.trans hlookup)
    | none =>
      rw [hbefore] at hlookup
      have hgained : get? ⟨[(f', kept')], none⟩ f = some kept := hlookup
      have hmem := mem_entries_of_get? hgained
      obtain ⟨rfl, rfl⟩ := Prod.mk.inj (List.mem_singleton.mp hmem)
      exact .inr hgain

theorem gains_install (store : SchemaStore) (f : Fingerprint) (s : Schema) :
    store.Gains (store.install f s).2 fun f' kept => f' = f ∧ kept = s := by
  unfold install
  cases hget : store.get? f with
  | some kept => exact .refl store _
  | none => exact ⟨rfl, .inr ⟨f, s, ⟨rfl, rfl⟩, hget, rfl⟩⟩

/-- A store that is asked for a schema gains nothing but the answer of its source, which has the
fingerprint that was asked for. -/
theorem gains_resolve {store after : SchemaStore} {f : Fingerprint} {kept : Schema}
    (h : store.resolve f = .ok (kept, after)) :
    store.Gains after fun f' kept => f' = f ∧ ∃ source answer, store.source = some source ∧
      source f = some answer ∧ answer.fingerprint = f ∧ kept = answer.canonical := by
  unfold resolve at h
  split at h
  next =>
    cases h
    exact .refl store _
  next =>
    split at h
    next => cases h
    next answer hanswer =>
      -- The answer of the source is installed only under the fingerprint it has.
      split at h
      next hf =>
        obtain ⟨source, hsource, hanswer⟩ := Option.bind_eq_some_iff.mp hanswer
        have hgains := store.gains_install f answer.canonical
        rw [Except.ok.inj h] at hgains
        refine hgains.mono ?_
        rintro f' kept' ⟨rfl, rfl⟩
        exact ⟨rfl, source, answer, hsource, hanswer, hf, rfl⟩
      next => cases h

end SchemaStore

namespace Endpoint

/-! ## What is made -/

/-- The state once the serializer of a class has been made. -/
def serving (s : State app) (b : Binding app) : State app :=
  ((s.1.install b.typeName b).2, { s.2 with store := (s.2.store.register b.schema).2 })

/-- Nothing was done, or the serializer of a class was made, which is one of those that `serves`
tells and is admitted, and which had none. -/
def Makes (e : Endpoint app) (serves : Binding app → Prop) (s t : State app) : Prop :=
  t = s ∨ ∃ b, serves b ∧ e.Admits b.schema ∧ s.1.get? b.typeName = none ∧ t = serving s b

variable {e : Endpoint app} {s t : State app} {serves : Binding app → Prop}

theorem Makes.mono {serves' : Binding app → Prop} (h : e.Makes serves s t)
    (hserves : ∀ b, serves b → serves' b) : e.Makes serves' s t := by
  rcases h with rfl | ⟨b, hb, hmade⟩
  · exact .inl rfl
  · exact .inr ⟨b, hserves b hb, hmade⟩

/-- Asking for the serializer of a class makes it at most. If it is refused, nothing was done. -/
theorem ends_serializerOf_makes (b : Binding app) (s : State app) :
    (e.serializerOf b).Ends s (fun _ t => e.Makes (· = b) s t) (fun _ t => t = s) := by
  rw [serializerOf, Registry.getOrSynthesize, ends_bind, ends_get]
  cases hget : s.1.get? b.typeName with
  | some kept => exact .inl rfl
  | none =>
    show Ends (e.synthesize b >>= _) s _ _
    rw [synthesize, bind_assoc, ends_bind, ends_ofExcept]
    refine ⟨fun _ hpermit => ?_, fun _ _ => rfl⟩
    exact .inr ⟨b, rfl, (e.permitAll_eq_ok_iff b.schema).mp hpermit, hget, rfl⟩

/-- The class of a serializer that is asked for by its class is bound under its own name. -/
theorem ends_serializerFor_makes (c : app.Class) (s : State app) :
    (e.serializerFor c).Ends s (fun _ t => e.Makes (e.Binds c) s t) (fun _ t => t = s) := by
  rw [serializerFor, ends_bind, ends_ofExcept]
  refine ⟨fun b hbound => ?_, fun _ _ => rfl⟩
  have hresolve := bound_eq_ok_iff.mp hbound
  rw [← Group.typeName_of_resolve? hresolve] at hresolve
  split
  next hcls =>
    refine (ends_serializerOf_makes b s).mono (fun kept t ht => ht.mono ?_) fun _ _ ht => ht
    rintro b' rfl
    exact ⟨hcls, hresolve⟩
  next => rfl

/-- A message that is not sent leaves nothing behind. -/
theorem ends_send_of_failure (message : List UInt8) (carried : Bool) (f : Fingerprint)
    (s : State app) :
    Ends
      (do
        if e.settings.maxMessageSize < message.length then
          throw (.messageTooLarge message.length e.settings.maxMessageSize)
        if carried then e.announce f
        return message : Exchange app (List UInt8)) s
      (fun _ _ => True) (fun _ t => t = s) := by
  by_cases hsize : e.settings.maxMessageSize < message.length
  · rw [if_pos hsize]
    exact rfl
  · rw [if_neg hsize]
    unfold announce
    -- Within the limit nothing fails any more, whether the schema is announced or not.
    cases carried with
    | false => trivial
    | true =>
      by_cases hembedding : e.settings.embedding = .firstUse
      · simp only [hembedding, if_true]
        trivial
      · simp only [hembedding, if_false]
        trivial

theorem makes_of_run_encode {c : app.Class} {object : app.Object c} {err : ExchangeError}
    (hrun : (e.encode c object).run s = .error err t) : e.Makes (e.Binds c) s t := by
  have hends : (e.encode c object).Ends s (fun _ _ => True) fun _ t => e.Makes (e.Binds c) s t := by
    rw [encode, ends_bind]
    refine (ends_serializerFor_makes c s).mono ?_ fun _ t ht => .inl ht
    intro kept t ht
    rw [ends_bind, ends_get, ends_bind, ends_ofExcept]
    refine ⟨fun payload _ => ?_, fun _ _ => ht⟩
    refine (ends_send_of_failure _ _ _ t).mono (fun _ _ _ => trivial) ?_
    rintro _ u rfl
    exact ht
  exact hends.of_run_error hrun

/-- What the group binds under the name of a writer's schema that is admitted. -/
def Called (e : Endpoint app) (writer : Schema) (b : Binding app) : Prop :=
  e.Admits writer ∧ e.group.resolve? writer.name = some b

theorem ends_receiveFrom_makes (header : Header) (writer : WriterSchema) (cursor : Cursor)
    (s : State app) :
    (e.receiveFrom header writer cursor).Ends s
      (fun m t => m.fingerprint = header.fingerprint ∧ m.writer = writer ∧
        e.Makes (e.Called writer.schema) s t)
      (fun _ t => e.Makes (e.Called writer.schema) s t) := by
  -- Before the serializer is asked for nothing is done, and after that nothing more is made.
  have hnothing : e.Makes (e.Called writer.schema) s s := .inl rfl
  rw [receiveFrom, ends_bind, ends_ofExcept]
  refine ⟨fun _ hpermit => ?_, fun _ _ => hnothing⟩
  have hadmits := (e.permitAll_eq_ok_iff writer.schema).mp hpermit
  rw [ends_bind, ends_ofExcept]
  refine ⟨fun b hbound => ?_, fun _ _ => hnothing⟩
  have hcalled : e.Called writer.schema b := ⟨hadmits, bound_eq_ok_iff.mp hbound⟩
  rw [ends_bind]
  refine (ends_serializerOf_makes b s).mono ?_ fun _ t ht => .inl ht
  intro kept t ht
  have hmade : e.Makes (e.Called writer.schema) s t := by
    refine ht.mono ?_
    rintro b' rfl
    exact hcalled
  rw [ends_bind, ends_read]
  refine ⟨fun record after _ => ?_, fun _ _ _ => hmade⟩
  show Ends _ t _ _
  rw [ends_bind, ends_read]
  exact ⟨fun _ _ _ => ⟨rfl, rfl, hmade⟩, fun _ _ _ => hmade⟩

/-- A schema that comes with a message has the fingerprint of its header, whatever the store has. -/
theorem fingerprint_of_carried {store after : SchemaStore} {header : Header}
    {writer : WriterSchema} (h : writerSchemaIn store header = .ok (writer, after))
    (hcarried : writer.carried = true) : writer.schema.fingerprint = header.fingerprint := by
  unfold writerSchemaIn at h
  split at h
  next =>
    split at h <;> cases h
    cases hcarried
  next =>
    split at h
    next => cases h
    next schema _ =>
      split at h <;> cases h
      next hf => rw [← hf, schema.fingerprint_canonical]

theorem opens_of_opening {message : List UInt8} {header : Header} {cursor : Cursor}
    {writer : WriterSchema} {after : SchemaStore}
    (hopening : e.opening message = .ok (header, cursor))
    (hwriter : writerSchemaIn s.2.store header = .ok (writer, after)) :
    e.Opens s message writer after := by
  unfold opening Decoder.result at hopening
  split at hopening
  next => cases hopening
  next hsize =>
    split at hopening <;> cases hopening
    next hheader => exact ⟨Nat.not_lt.mp hsize, header, cursor, hheader, hwriter⟩

/-- The class that the group binds under the name of the schema that a message was written with,
once this schema is found and admitted. -/
def CalledBy (e : Endpoint app) (s : State app) (message : List UInt8) (b : Binding app) : Prop :=
  ∃ writer after, e.Opens s message writer after ∧ e.Called writer.schema b

/-- Before a message fails to be decoded, the store may have asked for its schema, and after that a
serializer may have been made. -/
theorem makes_of_run_decode {message : List UInt8} {err : ExchangeError}
    (hrun : (e.decode message).run s = .error err t) :
    e.Makes (e.CalledBy s message)
      (s.1, { s.2 with store := e.consulted s.2.store message }) t := by
  have hends : (e.decode message).Ends s (fun _ _ => True) fun _ t =>
      e.Makes (e.CalledBy s message)
        (s.1, { s.2 with store := e.consulted s.2.store message }) t := by
    rw [decode_eq, receive_eq, bind_assoc]
    unfold consulted
    cases hopening : e.opening message with
    | error err => exact .inl rfl
    | ok opened =>
      obtain ⟨header, cursor⟩ := opened
      show Ends ((writerSchema header >>= fun writer => e.receiveFrom header writer cursor) >>= _) s
        _ fun _ t => e.Makes (e.CalledBy s message)
          (s.1, { s.2 with store := storeBehind s.2.store header }) t
      rw [bind_assoc, ends_bind]
      unfold Ends storeBehind
      rw [run_writerSchema]
      cases hwriter : writerSchemaIn s.2.store header with
      | error err => exact .inl rfl
      | ok found =>
        obtain ⟨writer, after⟩ := found
        have hopens := opens_of_opening (s := s) hopening hwriter
        -- What was found is the schema of the message, so that the class is the one it calls for.
        have hcalled : ∀ b, e.Called writer.schema b → e.CalledBy s message b :=
          fun b hb => ⟨writer, after, hopens, hb⟩
        show Ends _ _ _ _
        rw [ends_bind]
        refine (ends_receiveFrom_makes header writer cursor _).mono ?_ fun _ t ht => ht.mono hcalled
        rintro m t ⟨hheader, rfl, ht⟩
        refine (ends_making (fun hcarried => ?_) t).mono (fun _ _ _ => trivial) ?_
        · rw [hheader]
          exact fingerprint_of_carried hwriter hcarried
        · rintro err u ⟨-, rfl⟩
          exact ht.mono hcalled
  exact hends.of_run_error hrun

/-! ## What is left behind -/

/-- What a store fetches from its source for a message that does not carry its schema: a schema with
the fingerprint that the message names, which is kept in canonical order. -/
def Fetches (e : Endpoint app) (store : SchemaStore) (message : List UInt8) (f : Fingerprint)
    (kept : Schema) : Prop :=
  ∃ header cursor source answer, e.opening message = .ok (header, cursor) ∧
    header.schemaText = none ∧ header.fingerprint = f ∧ store.source = some source ∧
    source f = some answer ∧ answer.fingerprint = f ∧ kept = answer.canonical

theorem gains_consulted (e : Endpoint app) (store : SchemaStore) (message : List UInt8) :
    store.Gains (e.consulted store message) (e.Fetches store message) := by
  unfold consulted
  cases hopening : e.opening message with
  | error err => exact .refl store _
  | ok opened =>
    obtain ⟨⟨f, text⟩, cursor⟩ := opened
    show store.Gains (storeBehind store ⟨f, text⟩) _
    -- With a text the store is not asked; without one its source may add the schema.
    cases text with
    | none =>
      cases hresolve : store.resolve f with
      | error err =>
        simp only [storeBehind, writerSchemaIn, hresolve]
        exact .refl store _
      | ok found =>
        rw [storeBehind, writerSchemaIn_of_resolve hresolve]
        refine (SchemaStore.gains_resolve hresolve).mono ?_
        rintro f' kept ⟨rfl, source, answer, hsource, hanswer, hf, rfl⟩
        exact ⟨_, cursor, source, answer, hopening, rfl, rfl, hsource, hanswer, hf, rfl⟩
    | some text =>
      rw [storeBehind_of_carried]
      exact .refl store _

/-- What a failed call may leave behind, given the classes that it may make a serializer of and the
schemas that the store may have asked for. -/
structure Residue (serves : Binding app → Prop) (fetches : Fingerprint → Schema → Prop)
    (s t : State app) : Prop where
  announced : t.2.announced = s.2.announced
  /-- A serializer that was kept is kept. -/
  registry_kept : ∀ name kept, s.1.get? name = some kept → t.1.get? name = some kept
  /-- A schema that was stored is stored. -/
  store_kept : s.2.store.Extends t.2.store
  /-- One serializer is new at most, under a name that had none. -/
  registry : t.1.entries = s.1.entries ∨ ∃ b serial, serves b ∧ s.1.get? b.typeName = none ∧
    t.1.entries = s.1.entries ++ [(b.typeName, ⟨b, serial⟩)]
  /-- Two schemas are new at most: one that was asked for, and then that of the class. -/
  store : ∃ between, s.2.store.Gains between fetches ∧
    between.Gains t.2.store fun f kept =>
      ∃ b, serves b ∧ f = b.schema.fingerprint ∧ kept = b.schema.canonical

theorem get?_append_of_some {r : Registry (Binding app)} {name : String} {kept : Serializer app}
    (h : r.get? name = some kept) (more : List (String × Serializer app)) (made : Nat) :
    Registry.get? ⟨r.entries ++ more, made⟩ name = some kept := by
  have hlookup : r.entries.lookup name = some kept := h
  show (r.entries ++ more).lookup name = some kept
  rw [List.lookup_append, hlookup]
  rfl

/-- What is made after the store has gained what it asked for is a residue. -/
theorem residue_of_makes {fetches : Fingerprint → Schema → Prop} {between : SchemaStore}
    (hgains : s.2.store.Gains between fetches)
    (h : e.Makes serves (s.1, { s.2 with store := between }) t) :
    Residue (fun b => serves b ∧ e.Admits b.schema) fetches s t := by
  rcases h with rfl | ⟨b, hb, hadmits, hnone, rfl⟩
  · exact ⟨rfl, fun _ _ h => h, hgains.extend, .inl rfl, between, hgains, .refl between _⟩
  -- The registry gains a new entry, and the store the schema of the class.
  · have hinstall : (s.1.install b.typeName b).2
        = ⟨s.1.entries ++ [(b.typeName, ⟨b, s.1.synthesized⟩)], s.1.synthesized + 1⟩ := by
      have hget : s.1.get? b.typeName = none := hnone
      unfold Registry.install
      rw [hget]
    have hown : between.Gains (between.register b.schema).2 fun f kept =>
        ∃ b, (serves b ∧ e.Admits b.schema) ∧ f = b.schema.fingerprint ∧
          kept = b.schema.canonical := by
      refine (between.gains_install b.schema.fingerprint b.schema.canonical).mono ?_
      rintro f kept ⟨rfl, rfl⟩
      exact ⟨b, ⟨hb, hadmits⟩, rfl, rfl⟩
    refine ⟨rfl, fun name kept hkept => ?_, hgains.extend.trans hown.extend, .inr ?_, between,
      hgains, hown⟩
    · show (s.1.install b.typeName b).2.get? name = some kept
      rw [hinstall]
      exact get?_append_of_some hkept _ _
    · show ∃ b' serial, _ ∧ _ ∧ (s.1.install b.typeName b).2.entries = _
      rw [hinstall]
      exact ⟨b, s.1.synthesized, ⟨hb, hadmits⟩, hnone, rfl⟩

theorem Residue.get?_cases {fetches : Fingerprint → Schema → Prop}
    (h : Residue serves fetches s t) {f : Fingerprint} {kept : Schema}
    (hkept : t.2.store.get? f = some kept) :
    s.2.store.get? f = some kept ∨ fetches f kept ∨ ∃ b, serves b ∧ f = b.schema.fingerprint := by
  obtain ⟨between, hfound, hown⟩ := h.store
  rcases hown.get?_cases hkept with hbetween | ⟨b, hb, hf, -⟩
  · rcases hfound.get?_cases hbetween with hbefore | hanswer
    · exact .inl hbefore
    · exact .inr (.inl hanswer)
  · exact .inr (.inr ⟨b, hb, hf⟩)

/-- A source is not asked for a schema that a message carries. -/
theorem not_fetches_of_carried {store : SchemaStore} {message : List UInt8} {header : Header}
    {cursor : Cursor} {text : String}
    (hheader : Header.decode.run (Cursor.start message) = .ok header cursor)
    (htext : header.schemaText = some text) (f : Fingerprint) (kept : Schema) :
    ¬ e.Fetches store message f kept := by
  rintro ⟨header', cursor', -, -, hopening, hnone, -⟩
  unfold opening Decoder.result at hopening
  split at hopening
  next => cases hopening
  next =>
    rw [hheader] at hopening
    cases hopening
    rw [htext] at hnone
    cases hnone

/-- **Failures.** Whatever an endpoint has built up, a call that fails leaves behind no more than a
residue. An object that is not written leaves that of its class, if the group binds it under its
name and all that it mentions is admitted. A message that is not decoded leaves that of the class
which is bound under the name of its schema, if both are admitted, and what the source of the store
answered if the message does not carry its schema. If it does, then this schema is stored afterwards
only if one with its fingerprint was stored before or is that of the class. -/
theorem run_error_leaves (e : Endpoint app) (s t : State app) :
    (∀ c object err, (e.encode c object).run s = .error err t →
      Residue (fun b => e.Binds c b ∧ e.Admits b.schema) (fun _ _ => False) s t) ∧
    ∀ message err, (e.decode message).run s = .error err t →
      Residue (fun b => e.CalledBy s message b ∧ e.Admits b.schema) (e.Fetches s.2.store message)
        s t ∧
      ∀ header cursor text schema,
        Header.decode.run (Cursor.start message) = .ok header cursor →
        header.schemaText = some text → Schema.ofText text = .ok schema →
        t.2.store.contains schema.fingerprint = true →
          s.2.store.contains schema.fingerprint = true ∨
            ∃ b, (e.CalledBy s message b ∧ e.Admits b.schema) ∧
              schema.fingerprint = b.schema.fingerprint := by
  constructor
  · intro c object err hrun
    exact residue_of_makes (.refl s.2.store _) (makes_of_run_encode hrun)
  · intro message err hrun
    have hresidue := residue_of_makes (e.gains_consulted s.2.store message)
      (makes_of_run_decode hrun)
    refine ⟨hresidue, ?_⟩
    intro header cursor text schema hheader htext _ hcontains
    obtain ⟨kept, hkept⟩ := Option.isSome_iff_exists.mp hcontains
    -- Where the schema is carried nothing is fetched, which leaves two of three cases.
    rcases hresidue.get?_cases hkept with hbefore | hfetches | hown
    · exact .inl (Option.isSome_iff_exists.mpr ⟨kept, hbefore⟩)
    · exact absurd hfetches (not_fetches_of_carried hheader htext _ kept)
    · exact .inr hown

end Endpoint

/-- A message without a payload is not decoded. What it leaves behind is a residue, although the
source was asked for its schema and a serializer was made before the payload was missed. -/
theorem run_error_leaves_coin :
    ∃ t, (mintEndpoint.decode (coinMessage [])).run (.empty, ⟨[], mintStore⟩)
        = .error (.corrupt (.endOfInput 11 1 0)) t ∧
      Endpoint.Residue
        (fun b => mintEndpoint.CalledBy (.empty, ⟨[], mintStore⟩) (coinMessage []) b ∧
          mintEndpoint.Admits b.schema)
        (mintEndpoint.Fetches mintStore (coinMessage [])) (.empty, ⟨[], mintStore⟩) t := by
  let b : Binding mint := ⟨(), rfl⟩
  have hadmits : ∀ schema, mintEndpoint.Admits schema := fun _ _ _ => rfl
  have hbound : mintEndpoint.bound plainCoin.canonical.name = .ok b := rfl
  have hread : (b.schema.decodeFrom plainCoin.canonical).result ⟨[], 11⟩
      = .error (.corrupt (.endOfInput 11 1 0)) := rfl
  have houtcome : mintEndpoint.outcome mintStore (coinMessage [])
      = .error (.corrupt (.endOfInput 11 1 0)) := by
    rw [Endpoint.outcome_of_writerSchemaIn (opening_coinMessage (Nat.zero_le _))
      writerSchemaIn_mintStore, Endpoint.received_of_admits (hadmits _) hbound (hadmits _), hread]
    rfl
  have hsound : mintStore.Sound := fun _ _ hmem => absurd hmem List.not_mem_nil
  have hresult := (Endpoint.answers_decode (mintEndpoint.invariant_of_sound hsound)
    (coinMessage [])).result_eq
  rw [houtcome] at hresult
  obtain ⟨t, hrun⟩ := exists_run_error hresult
  exact ⟨t, hrun, ((mintEndpoint.run_error_leaves _ t).2 _ _ hrun).1⟩

end RecordExchange
