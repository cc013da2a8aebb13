import RecordExchange.Proofs.Interchange

/-!
# Schemas that are announced once

An endpoint may send each schema with the first message only that needs it. It has to remember what
it has announced, and must not take a message for sent that was refused in the end. The reader has
to keep what was announced, from the message that carries the schema until the last one that relies
on it.

- `Header.of?`, `Endpoint.outbox`: the header of a message, and the messages that were sent since
  the last disposal.
- `Exchange.Quiet`: exchanges that announce nothing, which are all but writing and disposal.
- `Announces`: what is announced is what the messages in the outbox have carried. One call keeps
  this, and so do many.
- `ExchangeError.Lasting`: the failures of receiving that do not pass.
- `Endpoint.ends_receive_final`: once the store has the schema, nothing more can be unknown.
- `Endpoint.firstUse_suffices`: the sender and the reader put together.
-/

namespace RecordExchange

open Exchange

variable {app : Application} {α β : Type}

/-- The header of a message, if it has one. -/
def Header.of? (message : List UInt8) : Option Header :=
  match Header.decode.run (Cursor.start message) with
  | .ok header _ => some header
  | .error _ _ => none

/-- A message with a fingerprint is among others. -/
def Sent (messages : List (List UInt8)) (f : Fingerprint) : Prop :=
  ∃ message ∈ messages, ∃ text, Header.of? message = some ⟨f, text⟩

namespace Endpoint

/-- The messages that were sent since the last disposal, after one more call. -/
def sent (e : Endpoint app) (s : State app) (out : List (List UInt8)) :
    Call app → List (List UInt8)
  | .encode c object =>
    match (e.encode c object).run s with
    | .ok message _ => message :: out
    | .error _ _ => out
  | .dispose => []
  | _ => out

/-- The messages that were sent since the last disposal, after more calls. -/
def outboxFrom (e : Endpoint app) : List (Call app) → State app → List (List UInt8) →
    List (List UInt8)
  | [], _, out => out
  | call :: rest, s, out => e.outboxFrom rest (e.step call s) (e.sent s out call)

/-- The messages that an endpoint has sent since it was built or last disposed, the latest first. -/
def outbox (e : Endpoint app) (calls : List (Call app)) : List (List UInt8) :=
  e.outboxFrom calls start []

end Endpoint

/-! ## Exchanges that announce nothing -/

namespace Exchange

/-- An exchange leaves the announcements as they are, whether it succeeds or fails. -/
def Quiet (x : Exchange app α) : Prop :=
  ∀ s, x.Ends s (fun _ t => t.2.announced = s.2.announced) fun _ t => t.2.announced = s.2.announced

theorem Quiet.bind {x : Exchange app β} {f : β → Exchange app α} (h : x.Quiet)
    (hf : ∀ b, (f b).Quiet) : (x >>= f).Quiet := by
  intro s
  rw [ends_bind]
  refine (h s).mono ?_ fun _ _ ht => ht
  intro b t ht
  refine (hf b t).mono ?_ ?_
  · intro a u hu
    exact hu.trans ht
  · intro err u hu
    exact hu.trans ht

theorem quiet_pure (a : α) : (pure a : Exchange app α).Quiet := fun _ => rfl

theorem quiet_throw (err : ExchangeError) : (throw err : Exchange app α).Quiet := fun _ => rfl

theorem quiet_ofExcept (x : Except ExchangeError α) : (ofExcept x : Exchange app α).Quiet := by
  cases x with
  | ok a => exact quiet_pure a
  | error err => exact quiet_throw err

theorem quiet_tryStore (f : SchemaStore → Except SchemaError (α × SchemaStore)) :
    (tryStore f : Exchange app α).Quiet := by
  intro s
  rw [ends_tryStore]
  exact ⟨fun _ _ _ => rfl, fun _ _ => rfl⟩

theorem Quiet.after {x : Exchange app α} (h : x.Quiet) (s : State app) :
    (x.after s).2.announced = s.2.announced := by
  have hs := h s
  unfold Ends at hs
  unfold Exchange.after
  split
  next hrun =>
    rw [hrun] at hs
    exact hs
  next hrun =>
    rw [hrun] at hs
    exact hs

end Exchange

namespace Endpoint

variable {e : Endpoint app} {s t : State app}

/-- Making a serializer announces nothing. -/
theorem Makes.announced {serves : Binding app → Prop} (h : e.Makes serves s t) :
    t.2.announced = s.2.announced := by
  rcases h with rfl | ⟨b, -, -, -, rfl⟩
  · rfl
  · rfl

theorem quiet_serializerFor (e : Endpoint app) (c : app.Class) : (e.serializerFor c).Quiet := by
  intro s
  refine (ends_serializerFor_makes c s).mono ?_ ?_
  · intro _ _ hmakes
    exact hmakes.announced
  · rintro _ _ rfl
    rfl

theorem quiet_writerSchema (header : Header) :
    (writerSchema header : Exchange app WriterSchema).Quiet := by
  intro s
  rw [ends_writerSchema_iff]
  exact ⟨fun _ _ _ => rfl, fun _ _ => rfl⟩

theorem quiet_receive (e : Endpoint app) (message : List UInt8) : (e.receive message).Quiet := by
  rw [receive_eq]
  refine (quiet_ofExcept _).bind fun opened => (quiet_writerSchema opened.1).bind fun writer => ?_
  intro s
  refine (ends_receiveFrom_makes opened.1 writer opened.2 s).mono ?_ ?_
  · intro _ _ hmakes
    exact hmakes.2.2.announced
  · intro _ _ hmakes
    exact hmakes.announced

theorem quiet_decode (e : Endpoint app) (message : List UInt8) : (e.decode message).Quiet := by
  refine (quiet_receive e message).bind fun m => ?_
  rw [ofSchemaResult_eq_ofExcept]
  refine (quiet_ofExcept _).bind fun object => ?_
  split
  · exact (quiet_tryStore _).bind fun _ => quiet_pure _
  · exact quiet_pure _

theorem quiet_decodeAs (e : Endpoint app) (c : app.Class) (message : List UInt8) :
    (e.decodeAs c message).Quiet := by
  refine (quiet_decode e message).bind fun d => ?_
  split
  · exact quiet_pure _
  · exact quiet_throw _

/-! ## What writing announces -/

/-- A message that is sent leaves its schema announced, which it carries unless it was before. A
message that is refused announces nothing. -/
theorem ends_send_announced (hfirst : e.settings.embedding = .firstUse) (message : List UInt8)
    (f : Fingerprint) (s : State app) :
    Ends
      (do
        if e.settings.maxMessageSize < message.length then
          throw (.messageTooLarge message.length e.settings.maxMessageSize)
        if e.embeds s.2.announced f then e.announce f
        return message : Exchange app (List UInt8)) s
      (fun _ t => ∀ g, g ∈ t.2.announced ↔ g = f ∨ g ∈ s.2.announced) (fun _ t => t = s) := by
  by_cases hsize : e.settings.maxMessageSize < message.length
  · rw [if_pos hsize]
    exact rfl
  · rw [if_neg hsize]
    unfold embeds announce
    simp only [hfirst, if_true]
    by_cases hmem : f ∈ s.2.announced
    · -- The schema was announced before, and nothing changes.
      have hcontains : s.2.announced.contains f = true := List.contains_iff_mem.mpr hmem
      rw [hcontains]
      intro g
      constructor
      · exact Or.inr
      · rintro (rfl | hg)
        · exact hmem
        · exact hg
    · -- The schema is carried, and is announced from now on.
      have hcontains : s.2.announced.contains f = false := by
        simpa using hmem
      rw [hcontains]
      intro g
      show g ∈ (if s.2.announced.contains f then s.2
        else { s.2 with announced := f :: s.2.announced }).announced ↔ _
      rw [hcontains]
      exact List.mem_cons

theorem ends_encode_announced (h : e.Invariant s) (hfirst : e.settings.embedding = .firstUse)
    (c : app.Class) (object : app.Object c) :
    (e.encode c object).Ends s
      (fun _ t => ∀ g, g ∈ t.2.announced ↔ g = (app.schema c).fingerprint ∨ g ∈ s.2.announced)
      (fun _ t => t.2.announced = s.2.announced) := by
  rw [encode, ends_bind]
  refine (ends_serializerFor h c).mono ?_ ?_
  · rintro kept t ⟨b, ⟨rfl, -⟩, hserves⟩
    rw [← hserves.announced, ends_bind, ends_get, ends_bind, ends_ofExcept]
    refine ⟨fun payload _ => ?_, fun _ _ => rfl⟩
    have hschema : kept.fingerprint = (app.schema b.cls).fingerprint := by
      rw [Serializer.fingerprint, Serializer.schema, hserves.content]
      rfl
    rw [← hschema]
    refine (ends_send_announced hfirst _ kept.fingerprint t).mono (fun _ _ ht => ht) ?_
    rintro _ _ rfl
    rfl
  · rintro _ _ ⟨rfl, -⟩
    rfl

/-- The header of a message that was written. -/
theorem header_of_writes {b : Binding app} {r : Record} {message : List UInt8}
    (hlimit : e.settings.maxMessageSize < UInt64.size) (h : e.Writes s b r message t) :
    Header.of? message = some ⟨b.schema.fingerprint,
      if e.embeds s.2.announced b.schema.fingerprint then some b.schema.canonicalText
      else none⟩ := by
  obtain ⟨payload, -, rfl⟩ := h.message
  obtain ⟨offset, hrun⟩ := run_header_message (Nat.lt_of_le_of_lt h.size hlimit)
  rw [Header.of?, hrun]

end Endpoint

/-- What is announced is what the messages in an outbox have carried. -/
structure Announces (s : State app) (out : List (List UInt8)) : Prop where
  /-- Every message has a header, with a fingerprint that is announced. -/
  listed : ∀ message ∈ out, ∃ header, Header.of? message = some header ∧
    header.fingerprint ∈ s.2.announced
  /-- Every announced schema was carried by a message. -/
  carried : ∀ f ∈ s.2.announced, ∃ message ∈ out, ∃ text, Header.of? message = some ⟨f, some text⟩

namespace Announces

variable {s t : State app} {out : List (List UInt8)}

theorem sent_iff (h : Announces s out) (f : Fingerprint) : Sent out f ↔ f ∈ s.2.announced := by
  constructor
  · rintro ⟨message, hmem, text, hheader⟩
    obtain ⟨header, hheader', hf⟩ := h.listed message hmem
    rw [hheader] at hheader'
    cases hheader'
    exact hf
  · intro hf
    obtain ⟨message, hmem, text, hheader⟩ := h.carried f hf
    exact ⟨message, hmem, some text, hheader⟩

theorem of_announced_eq (h : Announces s out) (heq : t.2.announced = s.2.announced) :
    Announces t out := by
  constructor
  · rw [heq]
    exact h.listed
  · rw [heq]
    exact h.carried

/-- A further message is announced, and carries its schema if this is new. -/
theorem cons (h : Announces s out) {message : List UInt8} {f : Fingerprint} {text : String}
    (hannounced : ∀ g, g ∈ t.2.announced ↔ g = f ∨ g ∈ s.2.announced)
    (hheader : Header.of? message
      = some ⟨f, if s.2.announced.contains f then none else some text⟩) :
    Announces t (message :: out) := by
  constructor
  · intro m hm
    -- The new message is told by its header, and older ones stay announced.
    rcases List.mem_cons.mp hm with rfl | hm
    · exact ⟨_, hheader, (hannounced f).mpr (.inl rfl)⟩
    · obtain ⟨header, hof, hmem⟩ := h.listed m hm
      exact ⟨header, hof, (hannounced _).mpr (.inr hmem)⟩
  · intro g hg
    have hbefore : ∀ g ∈ s.2.announced, ∃ m ∈ message :: out, ∃ text,
        Header.of? m = some ⟨g, some text⟩ := by
      intro g hg
      obtain ⟨m, hm, htext⟩ := h.carried g hg
      exact ⟨m, List.mem_cons_of_mem message hm, htext⟩
    rcases (hannounced g).mp hg with rfl | hg
    · -- The message itself carries the schema, or an earlier one did.
      by_cases hmem : s.2.announced.contains g = true
      · exact hbefore g (List.contains_iff_mem.mp hmem)
      · rw [if_neg hmem] at hheader
        exact ⟨message, List.mem_cons_self, text, hheader⟩
    · exact hbefore g hg

end Announces

namespace Endpoint

variable {e : Endpoint app} {s t : State app} {out : List (List UInt8)}

/-- The header of a message that is sent with its schema on first use. -/
theorem header_of_run_encode (h : e.Invariant s) (hfirst : e.settings.embedding = .firstUse)
    (hlimit : e.settings.maxMessageSize < UInt64.size) {c : app.Class} {object : app.Object c}
    {message : List UInt8} (hrun : (e.encode c object).run s = .ok message t) :
    Header.of? message = some ⟨(app.schema c).fingerprint,
      if s.2.announced.contains (app.schema c).fingerprint then none
      else some (app.schema c).canonicalText⟩ := by
  obtain ⟨b, ⟨rfl, -⟩, hwrites⟩ := (ends_encode h c object).of_run_ok hrun
  have hschema : app.schema b.cls = b.schema := rfl
  rw [header_of_writes hlimit hwrites, embeds, hfirst, hschema]
  cases s.2.announced.contains b.schema.fingerprint with
  | true => rfl
  | false => rfl

/-- One call keeps what is announced in line with what was sent. -/
theorem announces_step (h : e.Invariant s) (hfirst : e.settings.embedding = .firstUse)
    (hlimit : e.settings.maxMessageSize < UInt64.size) (hout : Announces s out)
    (call : Call app) : Announces (e.step call s) (e.sent s out call) := by
  cases call with
  | encode c object =>
    have hends := ends_encode_announced h hfirst c object
    show Announces ((e.encode c object).after s)
      (match (e.encode c object).run s with
        | .ok message _ => message :: out
        | .error _ _ => out)
    unfold Exchange.after
    cases hrun : (e.encode c object).run s with
    | ok message t =>
      exact hout.cons (hends.of_run_ok hrun) (header_of_run_encode h hfirst hlimit hrun)
    | error err t => exact hout.of_announced_eq (hends.of_run_error hrun)
  | dispose =>
    constructor
    · intro message hmem
      cases hmem
    · intro f hf
      cases hf
  -- The other calls neither send nor announce anything.
  | serializerFor c => exact hout.of_announced_eq ((e.quiet_serializerFor c).after s)
  | decode message => exact hout.of_announced_eq ((e.quiet_decode message).after s)
  | decodeAs c message => exact hout.of_announced_eq ((e.quiet_decodeAs c message).after s)
  | register schema => exact hout.of_announced_eq rfl
  | registerAs f schema => exact hout.of_announced_eq ((quiet_tryStore _).after s)
  | resolve f => exact hout.of_announced_eq ((quiet_tryStore _).after s)
  | setSource source => exact hout.of_announced_eq rfl

/-- Many calls do so as well. -/
theorem announces_run (hfirst : e.settings.embedding = .firstUse)
    (hlimit : e.settings.maxMessageSize < UInt64.size) (calls : List (Call app)) :
    ∀ {s : State app} {out : List (List UInt8)}, e.Invariant s → Announces s out →
      Announces (e.run calls s) (e.outboxFrom calls s out) := by
  induction calls with
  | nil =>
    intro s out _ hout
    exact hout
  | cons call rest ih =>
    intro s out h hout
    exact ih (advances_step h call).invariant (announces_step h hfirst hlimit hout call)

theorem announces_outbox (hfirst : e.settings.embedding = .firstUse)
    (hlimit : e.settings.maxMessageSize < UInt64.size) (calls : List (Call app)) :
    Announces (e.run calls start) (e.outbox calls) := by
  refine announces_run hfirst hlimit calls e.invariant_start ⟨?_, ?_⟩
  · intro message hmem
    cases hmem
  · intro f hf
    cases hf

end Endpoint

/-! ## The reader -/

namespace ExchangeError

/-- The failures of receiving that do not pass: the whitelist or the group refuses a type, or reading
fails. -/
def Lasting : ExchangeError → Prop
  | notPermitted _ _ | notBound _ _ | corrupt _ | mismatch _ | missingField _ _ => True
  | _ => False

variable {err : ExchangeError}

theorem Lasting.not_retryable (h : err.Lasting) : err.isRetryable = false := by
  cases err with
  | unknownSchema f => exact h.elim
  | _ => rfl

theorem FromReading.lasting (h : err.FromReading) : err.Lasting := by
  cases err with
  | corrupt _ | mismatch _ | missingField _ _ => trivial
  | _ => exact h.elim

end ExchangeError

namespace Endpoint

variable {e : Endpoint app} {s t : State app}

theorem ends_read_lasting {d : Decoder α} (h : d.Uniform) (c : Cursor) (s : State app) :
    (read d c : Exchange app (α × Cursor)).Ends s (fun _ _ => True) fun err _ => err.Lasting := by
  rw [ends_read]
  constructor
  · intro _ _ _
    trivial
  · intro err after hrun
    exact ((h 0).fromReading hrun).lasting

/-- Once the schema of the writer is known, no failure is one that may pass. -/
theorem ends_receiveFrom_lasting (header : Header) (writer : WriterSchema) (cursor : Cursor)
    (s : State app) :
    (e.receiveFrom header writer cursor).Ends s (fun _ _ => True) fun err _ => err.Lasting := by
  -- From here on no schema is looked up, so every failure is one for good.
  have hpermit : ∀ {schema err}, e.permitAll schema = .error err → err.Lasting := by
    intro schema err herr
    obtain ⟨n, rfl⟩ := exists_notPermitted_of_permitAll herr
    trivial
  rw [receiveFrom, ends_bind, ends_ofExcept]
  refine ⟨fun _ _ => ?_, fun _ herr => hpermit herr⟩
  rw [ends_bind, ends_ofExcept]
  refine ⟨fun b _ => ?_, fun err herr => ?_⟩
  · rw [ends_bind]
    refine (ends_serializerOf_permitAll b).mono ?_ fun _ _ herr => hpermit herr
    intro kept t _
    rw [ends_bind]
    refine (ends_read_lasting (kept.schema.uniform_decodeFrom writer.schema) cursor t).mono ?_
      fun _ _ herr => herr
    rintro ⟨record, after⟩ u _
    rw [ends_bind]
    exact (ends_read_lasting Decoder.uniform_finish after u).mono (fun _ _ _ => trivial)
      fun _ _ herr => herr
  · rw [eq_notBound_of_bound herr]
    trivial

/-- A header is looked up without a failure that may pass, if the store has the schema. -/
theorem not_retryable_of_writerSchemaIn {store : SchemaStore} {header : Header} {kept : Schema}
    (hkept : store.get? header.fingerprint = some kept) {err : ExchangeError}
    (h : writerSchemaIn store header = .error err) : err.isRetryable = false := by
  unfold writerSchemaIn at h
  cases htext : header.schemaText with
  | none =>
    rw [htext, SchemaStore.resolve_of_get? hkept] at h
    cases h
  | some text =>
    simp only [htext] at h
    split at h
    · cases h
      rfl
    · split at h <;> cases h
      rfl

theorem of?_of_opening {message : List UInt8} {header : Header} {cursor : Cursor}
    (h : e.opening message = .ok (header, cursor)) : Header.of? message = some header := by
  unfold opening Decoder.result at h
  split at h
  · cases h
  · split at h <;> cases h
    next hrun => rw [Header.of?, hrun]

theorem lasting_of_opening {message : List UInt8} {err : ExchangeError}
    (h : e.opening message = .error err) : err.Lasting := by
  unfold opening Decoder.result at h
  split at h
  · cases h
    trivial
  · split at h <;> cases h
    next hrun => exact ((Header.uniform_decode 0).fromReading hrun).lasting

/-- A message whose schema the store has is received, or refused for good. -/
theorem ends_receive_final {message : List UInt8} {f : Fingerprint} {text : Option String}
    {kept : Schema} (hheader : Header.of? message = some ⟨f, text⟩)
    (hkept : s.2.store.get? f = some kept) :
    (e.receive message).Ends s (fun _ _ => True) fun err _ => err.isRetryable = false := by
  rw [receive_eq, ends_bind, ends_ofExcept]
  refine ⟨fun opened hopening => ?_, fun _ herr => (lasting_of_opening herr).not_retryable⟩
  obtain ⟨header, cursor⟩ := opened
  have hof := of?_of_opening hopening
  rw [hheader] at hof
  cases hof
  show Ends (writerSchema ⟨f, text⟩ >>= fun writer => e.receiveFrom ⟨f, text⟩ writer cursor) s _ _
  rw [ends_bind, ends_writerSchema_iff]
  constructor
  · intro writer after _
    exact (ends_receiveFrom_lasting _ writer cursor _).mono (fun _ _ _ => trivial)
      fun _ _ herr => herr.not_retryable
  · intro err hwriter
    exact not_retryable_of_writerSchemaIn hkept hwriter

theorem ofSchemaError_eq_unknownSchema {err : SchemaError} {g : Fingerprint}
    (h : ExchangeError.ofSchemaError err = .unknownSchema g) : err = .unknownSchema g := by
  cases err <;> cases h
  rfl

/-- Making an object fails for want of a schema only if the class says so. -/
theorem of_run_making_unknownSchema {m : Received app} {g : Fingerprint}
    (h : (making m).run s = .error (.unknownSchema g) t) :
    app.ofRecord m.binding.cls m.record = .error (.unknownSchema g) := by
  have hends : (making m).Ends s (fun _ _ => True) fun err _ => err = .unknownSchema g →
      app.ofRecord m.binding.cls m.record = .error (.unknownSchema g) := by
    unfold making
    rw [ends_bind, ends_ofSchemaResult]
    constructor
    · intro object _
      split
      · rw [ends_bind, ends_tryStore]
        refine ⟨fun _ _ _ => trivial, fun err hregister hunknown => ?_⟩
        -- The store refuses a schema for its fingerprint, never for being unknown.
        rw [ofSchemaError_eq_unknownSchema hunknown, SchemaStore.registerAs] at hregister
        split at hregister <;> cases hregister
      · trivial
    · intro err hconstruct hunknown
      rw [ofSchemaError_eq_unknownSchema hunknown, Binding.construct] at hconstruct
      split at hconstruct
      · exact hconstruct
      · cases hconstruct
  exact hends.of_run_error h rfl

/-- A schema that comes with a message is carried, if it is found to be the one that is named. -/
theorem carried_of_writerSchemaIn {store after : SchemaStore} {header : Header} {text : String}
    {writer : WriterSchema} (htext : header.schemaText = some text)
    (h : writerSchemaIn store header = .ok (writer, after)) : writer.carried = true := by
  simp only [writerSchemaIn, htext] at h
  split at h
  · cases h
  · split at h <;> cases h
    rfl

/-- A schema that comes with a message is stored once the message is decoded. -/
theorem get?_of_run_decode {message : List UInt8} {f : Fingerprint} {text : String}
    {d : Decoded app} (hheader : Header.of? message = some ⟨f, some text⟩)
    (hrun : (e.decode message).run s = .ok d t) : ∃ kept, t.2.store.get? f = some kept := by
  have hends : (e.decode message).Ends s (fun _ t => ∃ kept, t.2.store.get? f = some kept)
      fun _ _ => True := by
    rw [decode_eq, receive_eq, bind_assoc, ends_bind, ends_ofExcept]
    refine ⟨fun opened hopening => ?_, fun _ _ => trivial⟩
    obtain ⟨header, cursor⟩ := opened
    have hof := of?_of_opening hopening
    rw [hheader] at hof
    cases hof
    show Ends ((writerSchema ⟨f, some text⟩ >>= fun writer =>
      e.receiveFrom ⟨f, some text⟩ writer cursor) >>= making) s _ _
    rw [bind_assoc, ends_bind, ends_writerSchema_iff]
    refine ⟨fun writer after hwriter => ?_, fun _ _ => trivial⟩
    have hcarried := carried_of_writerSchemaIn rfl hwriter
    rw [ends_bind]
    refine (ends_receiveFrom_makes _ writer cursor _).mono ?_ fun _ _ _ => trivial
    rintro m u ⟨hf, rfl, -⟩
    -- The object is made first, and then the schema is put in, under the name of the header.
    unfold making
    rw [ends_bind, ends_ofSchemaResult]
    refine ⟨fun object _ => ?_, fun _ _ => trivial⟩
    rw [if_pos hcarried, ends_bind, ends_tryStore]
    refine ⟨fun kept store hregister => ?_, fun _ _ => trivial⟩
    rw [hf] at hregister
    exact ⟨kept, SchemaStore.get?_of_registerAs hregister⟩
  exact hends.of_run_ok hrun

/-! ## The sender and the reader -/

/-- **First use suffices.** An endpoint that sends schemas on first use only, after any calls,
whether they fail or not: a message that it sends carries the schema of its class if none with the
same fingerprint was sent since the endpoint was built or last disposed, and carries none if one
was. So for every message that was sent, one was sent that carries the schema. And a reader, of any
application, that has decoded a message which carries a schema knows that schema for every message
that names it: whatever calls come in between, such a message is never refused because its schema
is unknown, unless that is what the class itself says of a record that was received. -/
theorem firstUse_suffices {reading : Application} (e : Endpoint app)
    (hfirst : e.settings.embedding = .firstUse)
    (hlimit : e.settings.maxMessageSize < UInt64.size) (calls : List (Call app))
    (r : Endpoint reading) {s : State reading} (hs : r.Reachable s) :
    (∀ c object message t, (e.encode c object).run (e.run calls start) = .ok message t →
      (¬ Sent (e.outbox calls) (app.schema c).fingerprint →
        Header.of? message
          = some ⟨(app.schema c).fingerprint, some (app.schema c).canonicalText⟩) ∧
      (Sent (e.outbox calls) (app.schema c).fingerprint →
        Header.of? message = some ⟨(app.schema c).fingerprint, none⟩)) ∧
    (∀ f, Sent (e.outbox calls) f →
      ∃ message ∈ e.outbox calls, ∃ text, Header.of? message = some ⟨f, some text⟩) ∧
    ∀ f text message d t, Header.of? message = some ⟨f, some text⟩ →
      (r.decode message).run s = .ok d t → ∀ further later text' g u,
        Header.of? later = some ⟨f, text'⟩ →
        (r.decode later).run (r.run further t) = .error (.unknownSchema g) u →
          ∃ m v, (r.receive later).run (r.run further t) = .ok m v ∧
            reading.ofRecord m.binding.cls m.record = .error (.unknownSchema g) := by
  have hout := announces_outbox hfirst hlimit calls
  refine ⟨?_, ?_, ?_⟩
  · intro c object message t hrun
    have hreach : e.Reachable (e.run calls start) := ⟨calls, rfl⟩
    have hheader := header_of_run_encode hreach.invariant hfirst hlimit hrun
    rw [hout.sent_iff, ← List.contains_iff_mem]
    constructor
    · intro hnew
      rw [hheader, if_neg hnew]
    · intro hold
      rw [hheader, if_pos hold]
  · intro f hsent
    exact hout.carried f ((hout.sent_iff f).mp hsent)
  · intro f text message d t hheader hrun further later text' g u hlater hfail
    obtain ⟨kept, hkept⟩ := get?_of_run_decode hheader hrun
    have hdecode := (ends_decode hs.invariant message).of_run_ok hrun
    -- What is stored after the first message is stored when the later one is read.
    have hstill := (advances_run further hdecode.1.invariant).extend f kept hkept
    have hfinal := ends_receive_final (e := r) hlater hstill
    rw [decode_eq, EStateM.run_bind] at hfail
    cases hreceive : (r.receive later).run (r.run further t) with
    | error err v =>
      -- A message that is not received is refused for good.
      rw [hreceive] at hfail
      cases hfail
      have hnever := hfinal.of_run_error hreceive
      exact absurd hnever.symm Bool.false_ne_true
    | ok m v =>
      rw [hreceive] at hfail
      exact ⟨m, v, rfl, of_run_making_unknownSchema hfail⟩

end Endpoint

/-! ## Coins of an older mint -/

/-- The mint as it was before there were notes. -/
def olderMint : Application := { mint with fields := fun _ => plainCoin.fields }

/-- An endpoint for plain coins, whose messages carry their schema on first use. -/
def olderMintEndpoint : Endpoint olderMint where
  whitelist _ _ := true
  group := ⟨⟨0⟩, "mint", [⟨(), rfl⟩], by decide⟩
  settings := ⟨.firstUse, 1000⟩

/-- A plain coin. -/
def oldCoin : Record := ⟨"Coin", [("value", .int 3)]⟩

theorem canonicalJson_plainCoin :
    plainCoin.canonicalJson
      = .record [("fields", .array [.field ("value", .text "int")]), ("name", .text "Coin")] := by
  rw [plainCoin, Schema.canonicalJson, fieldBodies, fieldBodies, Json.sortMembers,
    List.mergeSort_singleton, List.map_singleton]
  rfl

theorem length_oldCoinMessage_le (announced : List Fingerprint) :
    (olderMintEndpoint.message announced plainCoin [0, 6]).length ≤ 1000 := by
  have hlength := olderMintEndpoint.length_message_le announced plainCoin [0, 6]
  have hprint : plainCoin.canonicalJson.print.length = 56 := by
    rw [canonicalJson_plainCoin]
    rfl
  rw [hprint] at hlength
  exact Nat.le_trans hlength (by decide)

/-- Whatever was announced, the older mint writes its coins. -/
theorem exists_run_encode_oldCoin {s : State olderMint} (h : olderMintEndpoint.Invariant s) :
    ∃ t, (olderMintEndpoint.encode () oldCoin).run s
      = .ok (olderMintEndpoint.message s.2.announced plainCoin [0, 6]) t := by
  obtain ⟨t, hrun, -⟩ := @Endpoint.exists_run_encode olderMint olderMintEndpoint s h ⟨(), rfl⟩
    oldCoin [0, 6] rfl (fun _ _ => rfl) rfl (length_oldCoinMessage_le _)
  exact ⟨t, hrun⟩

/-- The newer mint reads the first of these messages, which carries the schema. -/
theorem exists_run_decode_oldCoin :
    ∃ t, (wideMint.decode (olderMintEndpoint.message [] plainCoin [0, 6])).run Endpoint.start
      = .ok ⟨(), ⟨"Coin", [("value", .int 3), ("note", .string "none")]⟩,
          plainCoin.fingerprint⟩ t := by
  let b : Binding mint := ⟨(), rfl⟩
  let header : Header := ⟨plainCoin.fingerprint, some plainCoin.canonicalText⟩
  have hsize : (header.encode ++ [0, 6]).length ≤ wideMint.settings.maxMessageSize :=
    Nat.le_trans (length_oldCoinMessage_le []) (by decide)
  -- The stages of decoding are settled one by one: header, schema, record, object.
  have hopening := Endpoint.opening_append (e := wideMint) (by decide) hsize
  have hwriter : Endpoint.writerSchemaIn SchemaStore.empty header
      = .ok (⟨plainCoin.canonical, true⟩, .empty) := by
    have hdepth : plainCoin.canonicalJson.depth ≤ Schema.nestingLimit := by
      rw [canonicalJson_plainCoin]
      decide
    rw [Endpoint.writerSchemaIn_of_carried _ (plainCoin.check_eq_ok_iff.mp rfl), if_pos hdepth]
  have hread : (b.schema.decodeFrom plainCoin.canonical).run ⟨[0, 6], header.encode.length⟩
      = .ok ⟨"Coin", [("value", .int 3), ("note", .string "none")]⟩
          ⟨[], header.encode.length + 2⟩ :=
    run_decodeFrom_plainCoin _
  refine exists_run_ok ?_
  rw [(Endpoint.answers_decode wideMint.invariant_start _).result_eq]
  show wideMint.outcome .empty (header.encode ++ [0, 6]) = _
  rw [Endpoint.outcome_of_writerSchemaIn hopening hwriter,
    Endpoint.received_eq_ok (b := b) (fun _ _ => rfl) rfl (fun _ _ => rfl) hread]
  rfl

/-- Of two coins that the older mint sends, the first message carries the schema and the second one
does not. The newer mint, once it has read the first one, knows the schema of the second one, also
after it was disposed. -/
theorem firstUse_suffices_oldCoin :
    ∃ first second t u d v,
      (olderMintEndpoint.encode () oldCoin).run Endpoint.start = .ok first t ∧
      (olderMintEndpoint.encode () oldCoin).run t = .ok second u ∧
      Header.of? first = some ⟨plainCoin.fingerprint, some plainCoin.canonicalText⟩ ∧
      Header.of? second = some ⟨plainCoin.fingerprint, none⟩ ∧
      (wideMint.decode first).run Endpoint.start = .ok d v ∧
      ∀ g w, (wideMint.decode second).run (wideMint.run [.dispose] v)
        ≠ .error (.unknownSchema g) w := by
  obtain ⟨t, hfirst⟩ := exists_run_encode_oldCoin olderMintEndpoint.invariant_start
  have hrun : olderMintEndpoint.run [.encode () oldCoin] Endpoint.start = t := by
    show (olderMintEndpoint.encode () oldCoin).after Endpoint.start = t
    rw [Exchange.after, hfirst]
  have hreach : olderMintEndpoint.Reachable t := ⟨_, hrun⟩
  obtain ⟨u, hsecond⟩ := exists_run_encode_oldCoin hreach.invariant
  obtain ⟨v, hread⟩ := exists_run_decode_oldCoin
  -- The theorem is used twice: before the first message and after it.
  have hnobody := olderMintEndpoint.firstUse_suffices rfl (by decide) [] wideMint ⟨[], rfl⟩
  have hone := olderMintEndpoint.firstUse_suffices rfl (by decide) [.encode () oldCoin] wideMint
    ⟨[], rfl⟩
  have hheader : Header.of? _ = some ⟨plainCoin.fingerprint, some plainCoin.canonicalText⟩ :=
    (hnobody.1 () oldCoin _ t hfirst).1 fun hsent => by
      obtain ⟨message, hmem, -⟩ := hsent
      cases hmem
  have hout : olderMintEndpoint.outbox [.encode () oldCoin]
      = [olderMintEndpoint.message [] plainCoin [0, 6]] := by
    simp only [Endpoint.outbox, Endpoint.outboxFrom, Endpoint.sent, hfirst]
    rfl
  rw [← hrun] at hsecond
  have hheader' : Header.of? _ = some ⟨plainCoin.fingerprint, none⟩ :=
    (hone.1 () oldCoin _ u hsecond).2 ⟨_, hout ▸ List.mem_cons_self, _, hheader⟩
  rw [hrun] at hsecond
  refine ⟨_, _, t, u, _, v, hfirst, hsecond, hheader, ?_, hread, ?_⟩
  · rw [hrun] at hheader'
    exact hheader'
  · intro g w hfail
    rw [hrun] at hheader'
    obtain ⟨m, -, -, hclass⟩ := hone.2.2 _ _ _ _ v hheader hread [.dispose] _ _ g w hheader' hfail
    cases hclass

end RecordExchange
