import RecordExchange.Proofs.Announcements
import RecordExchange.Proofs.Conformance

/-!
# Why a message is not decoded

What a caller does about a failure depends on its kind: a refusal is reported, a message that is none is
dropped, and only one kind is worth waiting for, that of a message whose schema may still turn up. So
the kinds have to mean what they say, in whatever state the endpoint is. And once the class has made an
object nothing may go wrong any more, since the object could not be taken back.

- `ExchangeError.OfDecoding`: the kinds of failures that decoding has.
- `SchemaStore.Lacks`, `Endpoint.NamesUnknown`: a schema that is not to be had, and a message that
  needs one.
- `Endpoint.ends_receive_lasting`: a message that is not received is refused for good, or its schema is
  not to be had.
- `Endpoint.run_making`: making an object of what was received is left to the class alone.
- `Endpoint.lasting_of_run_decode`: so decoding fails in the same ways as receiving.
- `Endpoint.decode_failures`: all of this for decoding.
-/

namespace RecordExchange

open Exchange

/-! ## Kinds of failures -/

/-- The kinds of failures that decoding has. The others are those of classes that cannot be bound and of
messages that cannot be written. -/
def ExchangeError.OfDecoding : ExchangeError → Prop
  | notPermitted _ _ | notBound _ _ | unknownSchema _ | corrupt _ | missingField _ _ | mismatch _ => True
  | invalidSchema _ | messageTooLarge _ _ => False

theorem ExchangeError.Lasting.ofDecoding {err : ExchangeError} (h : err.Lasting) : err.OfDecoding := by
  cases err with
  | notPermitted _ _ | notBound _ _ | corrupt _ | mismatch _ | missingField _ _ => trivial
  | _ => exact h.elim

/-- The classes refuse a record only because a field is missing or of another type. -/
def Application.RefusesFields (app : Application) : Prop :=
  ∀ c r err, app.ofRecord c r = .error err →
    (∃ typeName field, err = .missingField typeName field) ∨
      ∃ typeName field expected found, err = .fieldTypeMismatch typeName field expected found

theorem Application.RefusesFields.lasting {app : Application} (h : app.RefusesFields) {c : app.Class}
    {r : Record} {err : SchemaError} (hrefused : app.ofRecord c r = .error err) :
    (ExchangeError.ofSchemaError err).Lasting := by
  rcases h c r err hrefused with ⟨typeName, field, rfl⟩ | ⟨typeName, field, expected, found, rfl⟩
  · trivial
  · trivial

/-! ## Schemas that are not to be had -/

/-- The store has no schema under the fingerprint, and the source, if there is one, answers with none
that has it. -/
structure SchemaStore.Lacks (store : SchemaStore) (f : Fingerprint) : Prop where
  entries : store.get? f = none
  source : ∀ s, store.source.bind (fun source => source f) = some s → s.fingerprint ≠ f

theorem SchemaStore.resolve_eq_error_iff {store : SchemaStore} {f : Fingerprint} {err : SchemaError} :
    store.resolve f = .error err ↔ err = .unknownSchema f ∧ store.Lacks f := by
  constructor
  · intro h
    -- An entry would be found, and so would a schema of the source with this fingerprint.
    refine ⟨eq_unknownSchema_of_resolve h, ?_, fun s hs hf => ?_⟩
    · cases hget : store.get? f with
      | none => rfl
      | some kept =>
        rw [resolve_of_get? hget] at h
        cases h
    · cases hget : store.get? f with
      | some kept =>
        rw [resolve_of_get? hget] at h
        cases h
      | none =>
        subst hf
        rw [resolve_of_source hget hs] at h
        cases h
  · rintro ⟨rfl, hentries, hsource⟩
    rw [resolve, hentries]
    cases hs : store.source.bind fun source => source f with
    | none => rfl
    | some s => exact if_neg (hsource s hs)

namespace Endpoint

variable {app : Application} {e : Endpoint app} {s t : State app}

/-- The message is within the limit, it has a header, and this names a schema that is neither carried nor
to be had. -/
structure NamesUnknown (e : Endpoint app) (store : SchemaStore) (message : List UInt8)
    (f : Fingerprint) : Prop where
  size : message.length ≤ e.settings.maxMessageSize
  header : Header.of? message = some ⟨f, none⟩
  lacks : store.Lacks f

/-- The schema of a writer is not found because the text that the header carries is none of it, which
lasts, or because there is no text and the schema is not to be had. -/
theorem of_writerSchemaIn_error {store : SchemaStore} {header : Header} {err : ExchangeError}
    (h : writerSchemaIn store header = .error err) :
    err.Lasting ∨ header.schemaText = none ∧ err = .unknownSchema header.fingerprint ∧
      store.Lacks header.fingerprint := by
  unfold writerSchemaIn at h
  cases htext : header.schemaText with
  | none =>
    rw [htext] at h
    cases hresolve : store.resolve header.fingerprint with
    | ok found =>
      rw [hresolve] at h
      cases h
    | error cause =>
      rw [hresolve] at h
      cases h
      obtain ⟨rfl, hlacks⟩ := SchemaStore.resolve_eq_error_iff.mp hresolve
      exact .inr ⟨rfl, rfl, hlacks⟩
  | some text =>
    -- With a text the store is not asked, and what is wrong with the text lasts.
    left
    simp only [htext] at h
    split at h
    · cases h
      trivial
    · split at h <;> cases h
      trivial

theorem size_le_of_opening {message : List UInt8} {opened : Header × Cursor}
    (h : e.opening message = .ok opened) : message.length ≤ e.settings.maxMessageSize := by
  unfold opening at h
  by_cases hsize : e.settings.maxMessageSize < message.length
  · rw [if_pos hsize] at h
    cases h
  · exact Nat.not_lt.mp hsize

/-! ## What is received -/

/-- A record that is read is one of the serializer's own schema. -/
theorem ends_receiveFrom_conforms (header : Header) (writer : WriterSchema) (cursor : Cursor)
    (s : State app) :
    (e.receiveFrom header writer cursor).Ends s
      (fun m _ => m.binding.schema.Conforms m.record) fun _ _ => True := by
  rw [receiveFrom, ends_bind, ends_ofExcept]
  refine ⟨fun _ _ => ?_, fun _ _ => trivial⟩
  rw [ends_bind, ends_ofExcept]
  refine ⟨fun b _ => ?_, fun _ _ => trivial⟩
  rw [ends_bind]
  refine (ends_serializerOf_permitAll b).mono ?_ fun _ _ _ => trivial
  intro kept t _
  rw [ends_bind, ends_read]
  refine ⟨fun record after hread => ?_, fun _ _ _ => trivial⟩
  have hvalid := kept.schema.check_eq_ok_iff.mp kept.content.valid
  have hconforms := kept.schema.ensures_decodeFrom hvalid writer.schema cursor record after hread
  show Ends _ t _ _
  rw [ends_bind, ends_read]
  exact ⟨fun _ _ _ => hconforms, fun _ _ _ => trivial⟩

/-- What is needed of what was received for nothing to stand in the way of its class. -/
structure Received.Settled (m : Received app) : Prop where
  /-- The record is of the type of the class. -/
  typeName : m.record.typeName = m.binding.typeName
  /-- A schema that came with the message is the one that its header names. -/
  fingerprint : m.writer.carried = true → m.writer.schema.fingerprint = m.fingerprint

/-- Whatever the state, a message is received as far as this is settled, or refused for good, or its
schema is not to be had. -/
theorem ends_receive_lasting (e : Endpoint app) (message : List UInt8) (s : State app) :
    (e.receive message).Ends s (fun m _ => m.Settled)
      fun err _ => err.Lasting ∨ ∃ f, err = .unknownSchema f ∧ e.NamesUnknown s.2.store message f := by
  rw [receive_eq, ends_bind, ends_ofExcept]
  refine ⟨fun opened hopening => ?_, fun _ herr => .inl (lasting_of_opening herr)⟩
  obtain ⟨header, cursor⟩ := opened
  show Ends (writerSchema header >>= fun writer => e.receiveFrom header writer cursor) s _ _
  rw [ends_bind, ends_writerSchema_iff]
  refine ⟨fun writer after hwriter => ?_, fun err herr => ?_⟩
  -- From here on all failures last, and what is read is of the header's fingerprint.
  · have hread := (ends_receiveFrom_makes (e := e) header writer cursor _).and
      (ends_receiveFrom_conforms header writer cursor (s.1, { s.2 with store := after }))
    refine (hread.and (ends_receiveFrom_lasting header writer cursor _)).mono ?_ ?_
    · rintro m t ⟨⟨⟨hfingerprint, rfl, -⟩, hconforms⟩, -⟩
      refine ⟨hconforms.typeName, fun hcarried => ?_⟩
      rw [hfingerprint]
      exact fingerprint_of_carried hwriter hcarried
    · rintro err t ⟨-, hlasting⟩
      exact .inl hlasting
  · refine (of_writerSchemaIn_error herr).imp_right ?_
    rintro ⟨htext, rfl, hlacks⟩
    obtain ⟨f, text⟩ := header
    obtain rfl : text = none := htext
    exact ⟨f, rfl, size_le_of_opening hopening, of?_of_opening hopening, hlacks⟩

/-- A message whose schema is not to be had is not received, and nothing is done. -/
theorem NamesUnknown.run_receive {message : List UInt8} {f : Fingerprint}
    (h : e.NamesUnknown s.2.store message f) :
    (e.receive message).run s = .error (.unknownSchema f) s := by
  obtain ⟨hsize, hheader, hlacks⟩ := h
  unfold Header.of? at hheader
  cases hrun : Header.decode.run (Cursor.start message) with
  | error err after =>
    rw [hrun] at hheader
    cases hheader
  | ok header cursor =>
    rw [hrun] at hheader
    cases hheader
    have hresolve := SchemaStore.resolve_eq_error_iff.mpr ⟨rfl, hlacks⟩
    rw [Endpoint.run_receive hsize hrun, writerSchemaIn, hresolve]
    rfl

/-! ## What is made of it -/

/-- What is left when an object has been made: the schema that came with the message is in the store. -/
def Received.keptIn (m : Received app) (t : State app) : State app :=
  if m.writer.carried then
    (t.1, { t.2 with store := (t.2.store.install m.fingerprint m.writer.schema.canonical).2 })
  else t

/-- Making an object is left to the class alone: its record is accepted, and a schema that came with the
message is put into the store without fail. -/
theorem run_making {m : Received app} (h : m.Settled) (t : State app) :
    (making m).run t
      = (match app.ofRecord m.binding.cls m.record with
        | .ok object => .ok ⟨m.binding.cls, object, m.fingerprint⟩ (m.keptIn t)
        | .error err => .error (.ofSchemaError err) t) := by
  unfold making
  rw [Binding.construct, if_pos h.typeName]
  cases app.ofRecord m.binding.cls m.record with
  | error err => rfl
  | ok object =>
    unfold Received.keptIn
    cases hcarried : m.writer.carried with
    | false => rfl
    | true =>
      show EStateM.run (tryStore _ >>= _) t = _
      rw [EStateM.run_bind, run_tryStore, SchemaStore.registerAs, if_pos (h.fingerprint hcarried)]
      rfl

/-- A message that is not decoded is refused for good, or its schema is not to be had. -/
theorem lasting_of_run_decode {message : List UInt8} {err : ExchangeError}
    (happ : app.RefusesFields) (hrun : (e.decode message).run s = .error err t) :
    err.Lasting ∨ ∃ f, err = .unknownSchema f ∧ e.NamesUnknown s.2.store message f := by
  have hreceive := e.ends_receive_lasting message s
  cases hreceived : (e.receive message).run s with
  | error err' t' =>
    rw [run_decode_of_run_receive_error hreceived] at hrun
    cases hrun
    exact hreceive.of_run_error hreceived
  | ok m t' =>
    left
    rw [decode_eq, EStateM.run_bind, hreceived] at hrun
    change (making m).run t' = _ at hrun
    rw [run_making (hreceive.of_run_ok hreceived)] at hrun
    split at hrun <;> cases hrun
    next hrefused => exact happ.lasting hrefused

/-- **Why a message is not decoded.** Take any state of an endpoint, reachable or not, and any message,
for an application whose classes refuse a record only because a field is missing or of another type.
Decoding fails because of a refusal by the whitelist or the group, an unknown schema, a message that is
none, a missing field or a mismatch. It fails in a way that may pass exactly if the message is within the
limit and has a header that carries no schema and names one which neither the store nor its source has;
and then this is what it says, and nothing was done. Once the message is received its record is of the
type of the class, and what the class says of it decides: if it makes an object, then decoding ends with
this object. -/
theorem decode_failures (e : Endpoint app) (happ : app.RefusesFields) (s : State app)
    (message : List UInt8) :
    (∀ err t, (e.decode message).run s = .error err t → err.OfDecoding) ∧
    ((∃ err t, (e.decode message).run s = .error err t ∧ err.isRetryable = true) ↔
      ∃ f, e.NamesUnknown s.2.store message f) ∧
    (∀ f, e.NamesUnknown s.2.store message f →
      (e.decode message).run s = .error (.unknownSchema f) s) ∧
    ∀ m t, (e.receive message).run s = .ok m t →
      m.record.typeName = m.binding.typeName ∧
      (e.decode message).run s
        = (match app.ofRecord m.binding.cls m.record with
          | .ok object => .ok ⟨m.binding.cls, object, m.fingerprint⟩ (m.keptIn t)
          | .error err => .error (.ofSchemaError err) t) := by
  have hunknown : ∀ f, e.NamesUnknown s.2.store message f →
      (e.decode message).run s = .error (.unknownSchema f) s :=
    fun _ h => run_decode_of_run_receive_error h.run_receive
  refine ⟨fun err t hrun => ?_, ⟨?_, ?_⟩, hunknown, fun m t hrun => ?_⟩
  · rcases lasting_of_run_decode happ hrun with hlasting | ⟨f, rfl, -⟩
    · exact hlasting.ofDecoding
    · trivial
  -- Lasting failures are not retryable, so that only the unknown schema is left.
  · rintro ⟨err, t, hrun, hretryable⟩
    rcases lasting_of_run_decode happ hrun with hlasting | ⟨f, -, hnames⟩
    · rw [hlasting.not_retryable] at hretryable
      cases hretryable
    · exact ⟨f, hnames⟩
  · rintro ⟨f, hnames⟩
    exact ⟨_, s, hunknown f hnames, rfl⟩
  · have hsettled := (e.ends_receive_lasting message s).of_run_ok hrun
    refine ⟨hsettled.typeName, ?_⟩
    rw [decode_eq, EStateM.run_bind, hrun]
    exact run_making hsettled t

end Endpoint

/-! ## A mint that wants a note on its coins -/

/-- The mint with a class that refuses a coin without a note. -/
def strictMint : Application :=
  { mint with
    ofRecord := fun _ r =>
      match r.get? "note" with
      | some (.string _) => .ok r
      | some v => .error (.fieldTypeMismatch "Coin" "note" "string" v.kind)
      | none => .error (.missingField "Coin" "note") }

theorem refusesFields_strictMint : strictMint.RefusesFields := by
  intro c r err hrefused
  change (match r.get? "note" with
    | some (.string _) => .ok r
    | some v => .error (.fieldTypeMismatch "Coin" "note" "string" v.kind)
    | none => .error (.missingField "Coin" "note") : Except SchemaError Record) = .error err at hrefused
  split at hrefused <;> cases hrefused
  · exact .inr ⟨_, _, _, _, rfl⟩
  · exact .inl ⟨_, _, rfl⟩

/-- An endpoint for such coins. -/
def strictEndpoint : Endpoint strictMint where
  whitelist _ _ := true
  group := ⟨⟨0⟩, "mint", [⟨(), rfl⟩], by decide⟩
  settings := ⟨.never, 64⟩

theorem opening_strictEndpoint :
    strictEndpoint.opening (coinMessage [0, 6])
      = .ok (⟨plainCoin.fingerprint, none⟩, ⟨[0, 6], 11⟩) :=
  opening_coinMessage (by decide)

/-- Where a source knows the schema of plain coins, one is received with the default note. -/
theorem exists_run_receive_strictEndpoint :
    ∃ t, (strictEndpoint.receive (coinMessage [0, 6])).run (.empty, ⟨[], mintStore⟩)
      = .ok ⟨plainCoin.fingerprint, ⟨plainCoin.canonical, false⟩, ⟨(), rfl⟩,
          ⟨"Coin", [("value", .int 3), ("note", .string "none")]⟩⟩ t := by
  let b : Binding strictMint := ⟨(), rfl⟩
  let header : Header := ⟨plainCoin.fingerprint, none⟩
  let writer : Endpoint.WriterSchema := ⟨plainCoin.canonical, false⟩
  have hsound : mintStore.Sound := fun _ _ hmem => absurd hmem List.not_mem_nil
  have hkept := (mintStore.grows_register plainCoin).sound hsound
  have hinvariant := strictEndpoint.invariant_of_sound hkept
  have hread : (b.schema.decodeFrom writer.schema).run ⟨[0, 6], 11⟩
      = .ok ⟨"Coin", [("value", .int 3), ("note", .string "none")]⟩ ⟨[], 13⟩ :=
    run_decodeFrom_plainCoin 11
  have hreceived : strictEndpoint.received header writer ⟨[0, 6], 11⟩ = .ok ⟨header.fingerprint,
      writer, b, ⟨"Coin", [("value", .int 3), ("note", .string "none")]⟩⟩ :=
    Endpoint.received_eq_ok (fun _ _ => rfl) rfl (fun _ _ => rfl) hread
  -- What is received does not depend on the registry, so some state goes with it.
  have hanswer := Endpoint.answers_receiveFrom hinvariant header writer ⟨[0, 6], 11⟩
  obtain ⟨t, hrun⟩ := exists_run_ok (hanswer.result_eq.trans hreceived)
  refine ⟨t, ?_⟩
  rw [Endpoint.receive_eq, opening_strictEndpoint]
  show EStateM.run (Endpoint.writerSchema header >>= fun writer =>
    strictEndpoint.receiveFrom header writer ⟨[0, 6], 11⟩) _ = _
  rw [EStateM.run_bind, Endpoint.run_writerSchema, writerSchemaIn_mintStore]
  exact hrun

/-- The schema of a plain coin is not to be had where there is no store, which may pass. Where a source
knows it the coin is received, its class accepts it for its default note, and that is how decoding
ends. -/
theorem decode_failures_strictMint :
    strictMint.RefusesFields ∧
    (strictEndpoint.decode (coinMessage [0, 6])).run Endpoint.start
      = .error (.unknownSchema plainCoin.fingerprint) Endpoint.start ∧
    ∃ t, (strictEndpoint.decode (coinMessage [0, 6])).run (.empty, ⟨[], mintStore⟩)
      = .ok ⟨(), ⟨"Coin", [("value", .int 3), ("note", .string "none")]⟩,
          plainCoin.fingerprint⟩ t := by
  have hsize := Endpoint.size_le_of_opening opening_strictEndpoint
  have hheader := Endpoint.of?_of_opening opening_strictEndpoint
  have hlacks : SchemaStore.empty.Lacks plainCoin.fingerprint := ⟨rfl, fun _ hs => by cases hs⟩
  obtain ⟨-, -, hunknown, -⟩ :=
    strictEndpoint.decode_failures refusesFields_strictMint Endpoint.start (coinMessage [0, 6])
  obtain ⟨-, -, -, hmade⟩ := strictEndpoint.decode_failures refusesFields_strictMint
    (.empty, ⟨[], mintStore⟩) (coinMessage [0, 6])
  obtain ⟨t, hreceived⟩ := exists_run_receive_strictEndpoint
  exact ⟨refusesFields_strictMint, hunknown _ ⟨hsize, hheader, hlacks⟩, _, (hmade _ t hreceived).2⟩

end RecordExchange
