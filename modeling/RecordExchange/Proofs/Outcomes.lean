import RecordExchange.Proofs.Acceptance
import RecordExchange.Proofs.Calls
import RecordExchange.Proofs.Evolution

/-!
# What decides an outcome

What an endpoint makes of a message follows from the message and from the schema that the store has
or finds for it. Which serializers are kept and what has been announced makes no difference. Once
the schema of a message has been found it stays in the store, and so the outcome stays as well.

- `Exchange.result`: the value or the failure that an exchange ends with.
- `Exchange.Answers`: an exchange gives the answer of a computation without effects.
- `Endpoint.opening`, `Endpoint.received`, `Endpoint.outcome`: a message step by step, without a
  registry and without announcements.
- `Endpoint.answers_decode`: decoding answers with the outcome.
- `Endpoint.outcome_later`: an outcome is the same for every later store, unless the schema was
  unknown.
- `Endpoint.Invariant.decode_again`: decoding again, in any state over a later store.
-/

namespace RecordExchange

variable {app : Application} {α β : Type}

/-- What a decoder makes of the bytes behind a cursor, and the cursor behind what it has read. -/
def Decoder.result (d : Decoder α) (c : Cursor) : Except ExchangeError (α × Cursor) :=
  match d.run c with
  | .ok a after => .ok (a, after)
  | .error err _ => .error err

/-! ## Answers -/

namespace Exchange

/-- From a state, an exchange gives the answer of a computation without effects, be it a value or a
failure, and leaves a state that satisfies `Q`. -/
def Answers (x : Exchange app α) (s : State app) (answer : Except ExchangeError α)
    (Q : State app → Prop) : Prop :=
  x.Ends s (fun a t => answer = .ok a ∧ Q t) fun err t => answer = .error err ∧ Q t

/-- The value or the failure that an exchange ends with. -/
def result (x : Exchange app α) (s : State app) : Except ExchangeError α :=
  match x.run s with
  | .ok a _ => .ok a
  | .error err _ => .error err

theorem exists_run_ok {x : Exchange app α} {s : State app} {a : α} (h : x.result s = .ok a) :
    ∃ t, x.run s = .ok a t := by
  unfold result at h
  split at h <;> cases h
  next hrun => exact ⟨_, hrun⟩

theorem exists_run_error {x : Exchange app α} {s : State app} {err : ExchangeError}
    (h : x.result s = .error err) : ∃ t, x.run s = .error err t := by
  unfold result at h
  split at h <;> cases h
  next hrun => exact ⟨_, hrun⟩

variable {s t : State app} {P Q : State app → Prop}

theorem Answers.result_eq {x : Exchange app α} {answer : Except ExchangeError α}
    (h : x.Answers s answer P) : x.result s = answer := by
  unfold Answers Ends at h
  unfold result
  split <;> simp_all

theorem Answers.after {x : Exchange app α} {answer : Except ExchangeError α}
    (h : x.Answers s answer P) : P (x.after s) := by
  unfold Answers Ends at h
  unfold Exchange.after
  split <;> simp_all

theorem Answers.mono {x : Exchange app α} {answer : Except ExchangeError α}
    (h : x.Answers s answer P) (hQ : ∀ t, P t → Q t) : x.Answers s answer Q :=
  Ends.mono h (fun _ t ⟨ha, ht⟩ => ⟨ha, hQ t ht⟩) fun _ t ⟨ha, ht⟩ => ⟨ha, hQ t ht⟩

theorem answers_ofExcept (answer : Except ExchangeError α) :
    (ofExcept answer : Exchange app α).Answers s answer fun t => t = s := by
  cases answer with
  | ok a => exact ⟨rfl, rfl⟩
  | error err => exact ⟨rfl, rfl⟩

/-- The answers of the parts of an exchange make up the answer of the whole. -/
theorem Answers.bind {x : Exchange app β} {k : β → Exchange app α}
    {first : Except ExchangeError β} {rest : β → Except ExchangeError α}
    (hx : x.Answers s first P) (hfail : ∀ t, P t → Q t)
    (hk : ∀ b t, first = .ok b → P t → (k b).Answers t (rest b) Q) :
    (x >>= k).Answers s (first >>= rest) Q := by
  rw [Answers, ends_bind]
  refine Ends.mono hx ?_ ?_
  · rintro b t ⟨hb, ht⟩
    have hrest := hk b t hb ht
    rw [hb]
    exact hrest
  · rintro err t ⟨herr, ht⟩
    rw [herr]
    exact ⟨rfl, hfail t ht⟩

/-- A computation without effects that comes first leaves the state to the rest. -/
theorem answers_ofExcept_bind {k : β → Exchange app α} {first : Except ExchangeError β}
    {rest : β → Except ExchangeError α} (hs : Q s)
    (hk : ∀ b, first = .ok b → (k b).Answers s (rest b) Q) :
    (ofExcept first >>= k).Answers s (first >>= rest) Q := by
  refine (answers_ofExcept first).bind (fun t ht => ht ▸ hs) ?_
  rintro b _ hb rfl
  exact hk b hb

theorem read_eq_ofExcept (d : Decoder α) (c : Cursor) :
    (read d c : Exchange app (α × Cursor)) = ofExcept (d.result c) := by
  unfold read Decoder.result
  cases d.run c <;> rfl

theorem ofSchemaResult_eq_ofExcept (x : Except SchemaError α) :
    (ofSchemaResult x : Exchange app α) = ofExcept (x.mapError .ofSchemaError) := by
  cases x <;> rfl

end Exchange

open Exchange

namespace Endpoint

/-! ## A message step by step -/

/-- The header of a message and where its payload starts, if the message is within the limit. -/
def opening (e : Endpoint app) (message : List UInt8) : Except ExchangeError (Header × Cursor) :=
  if e.settings.maxMessageSize < message.length then
    .error (.corrupt (.messageTooLarge message.length e.settings.maxMessageSize))
  else Header.decode.result (Cursor.start message)

/-- What is received behind a header, once the schema of the writer is known. -/
def received (e : Endpoint app) (header : Header) (writer : WriterSchema) (cursor : Cursor) :
    Except ExchangeError (Received app) := do
  e.permitAll writer.schema
  let b ← e.bound writer.schema.name
  e.permitAll b.schema
  let (record, cursor) ← (b.schema.decodeFrom writer.schema).result cursor
  let _ ← Decoder.finish.result cursor
  .ok ⟨header.fingerprint, writer, b, record⟩

/-- The object that is made of what was received. -/
def made (m : Received app) : Except ExchangeError (Decoded app) := do
  let object ← (m.binding.construct m.record).mapError .ofSchemaError
  .ok ⟨m.binding.cls, object, m.fingerprint⟩

/-- What an endpoint makes of a message over a store. -/
def outcome (e : Endpoint app) (store : SchemaStore) (message : List UInt8) :
    Except ExchangeError (Decoded app) := do
  let (header, cursor) ← e.opening message
  let writer ← (writerSchemaIn store header).map Prod.fst
  let m ← e.received header writer cursor
  made m

/-- The store that is left when the schema of the writer has been looked for. -/
def storeBehind (store : SchemaStore) (header : Header) : SchemaStore :=
  match writerSchemaIn store header with
  | .ok (_, after) => after
  | .error _ => store

/-- The store that is left when a message has been opened as far as possible. -/
def consulted (e : Endpoint app) (store : SchemaStore) (message : List UInt8) : SchemaStore :=
  match e.opening message with
  | .ok (header, _) => storeBehind store header
  | .error _ => store

/-- A schema that a message carries leaves the store as it is, whether it is read or refused. -/
theorem storeBehind_of_carried (store : SchemaStore) (f : Fingerprint) (text : String) :
    storeBehind store ⟨f, some text⟩ = store := by
  simp only [storeBehind, writerSchemaIn]
  cases Schema.ofText text with
  | error err => rfl
  | ok schema =>
    by_cases hf : schema.fingerprint = f
    · simp only [if_pos hf]
    · simp only [if_neg hf]

variable {e : Endpoint app} {s t : State app}

/-- The outcome for a message that opens. -/
theorem outcome_of_opening {message : List UInt8} {header : Header} {cursor : Cursor}
    (hopening : e.opening message = .ok (header, cursor)) (store : SchemaStore) :
    e.outcome store message
      = ((writerSchemaIn store header).map Prod.fst >>= fun writer =>
          e.received header writer cursor >>= made) := by
  unfold outcome
  rw [hopening]
  rfl

/-- The outcome for a message that opens and whose schema is found. -/
theorem outcome_of_writerSchemaIn {message : List UInt8} {header : Header} {cursor : Cursor}
    {store after : SchemaStore} {writer : WriterSchema}
    (hopening : e.opening message = .ok (header, cursor))
    (hwriter : writerSchemaIn store header = .ok (writer, after)) :
    e.outcome store message = (e.received header writer cursor >>= made) := by
  rw [outcome_of_opening hopening, hwriter]
  rfl

/-- Once all is admitted, it is the payload that decides what is received. -/
theorem received_of_admits {header : Header} {writer : WriterSchema} {cursor : Cursor}
    {b : Binding app} (hwriter : e.Admits writer.schema)
    (hbound : e.bound writer.schema.name = .ok b) (hadmits : e.Admits b.schema) :
    e.received header writer cursor
      = ((b.schema.decodeFrom writer.schema).result cursor >>= fun read =>
          Decoder.finish.result read.2 >>= fun _ =>
            .ok ⟨header.fingerprint, writer, b, read.1⟩) := by
  unfold received
  rw [(e.permitAll_eq_ok_iff _).mpr hwriter, hbound]
  show (e.permitAll b.schema >>= fun _ => _) = _
  rw [(e.permitAll_eq_ok_iff _).mpr hadmits]
  rfl

/-- A record is received when its payload is read to its end. -/
theorem received_eq_ok {header : Header} {writer : WriterSchema} {cursor : Cursor}
    {b : Binding app} {record : Record} {offset : Nat} (hwriter : e.Admits writer.schema)
    (hbound : e.bound writer.schema.name = .ok b) (hadmits : e.Admits b.schema)
    (hread : (b.schema.decodeFrom writer.schema).run cursor = .ok record ⟨[], offset⟩) :
    e.received header writer cursor = .ok ⟨header.fingerprint, writer, b, record⟩ := by
  rw [received_of_admits hwriter hbound hadmits, Decoder.result, hread]
  rfl

/-! ## Decoding answers with the outcome -/

/-- A serializer is refused with the very answer of the admission of its class. -/
theorem ends_serializerOf_permitAll (b : Binding app) :
    (e.serializerOf b).Ends s (fun _ _ => True)
      (fun err _ => e.permitAll b.schema = .error err) := by
  rw [serializerOf, Registry.getOrSynthesize, ends_bind, ends_get]
  cases s.1.get? b.typeName with
  | some kept => trivial
  | none =>
    show Ends (e.synthesize b >>= _) s _ _
    rw [synthesize, ends_bind, ends_bind, ends_ofExcept]
    exact ⟨fun _ _ => trivial, fun _ herr => herr⟩

/-- A serializer takes the place of the admission of its class: whether it is found or made, the
exchange goes on as it would after an admission. -/
theorem answers_serializerOf_bind {b : Binding app} {k : Serializer app → Exchange app α}
    {rest : Except ExchangeError α} {Q : State app → Prop} (h : e.Invariant s)
    (hb : e.group.resolve? b.typeName = some b) (hs : Q s)
    (hk : ∀ kept t, e.Serves s b kept t → (k kept).Answers t rest Q) :
    (e.serializerOf b >>= k).Answers s (e.permitAll b.schema >>= fun _ => rest) Q := by
  rw [Answers, ends_bind]
  refine ((ends_serializerOf h hb).and (ends_serializerOf_permitAll b)).mono ?_ ?_
  · rintro kept t ⟨hserves, -⟩
    rw [(e.permitAll_eq_ok_iff b.schema).mpr hserves.admits]
    exact hk kept t hserves
  · rintro err t ⟨⟨rfl, -⟩, hrefused⟩
    rw [hrefused]
    exact ⟨rfl, hs⟩

/-- What is received follows from the message alone once the schema of the writer is known. -/
theorem answers_receiveFrom (h : e.Invariant s) (header : Header) (writer : WriterSchema)
    (cursor : Cursor) :
    (e.receiveFrom header writer cursor).Answers s (e.received header writer cursor)
      fun t => s.2.store.Extends t.2.store := by
  have hrefl := SchemaStore.Extends.refl s.2.store
  refine answers_ofExcept_bind hrefl fun _ _ => answers_ofExcept_bind hrefl fun b hbound => ?_
  have hresolve := bound_eq_ok_iff.mp hbound
  rw [← Group.typeName_of_resolve? hresolve] at hresolve
  refine answers_serializerOf_bind h hresolve hrefl ?_
  rintro kept t ⟨hst, rfl, -, -, -, -⟩
  simp only [read_eq_ofExcept]
  refine answers_ofExcept_bind hst.extend fun found _ => ?_
  refine answers_ofExcept_bind hst.extend fun _ _ => ?_
  exact ⟨rfl, hst.extend⟩

/-- The schema of the writer is what the store has or finds for the header. -/
theorem answers_writerSchema (h : e.Invariant s) (header : Header) :
    (writerSchema header : Exchange app WriterSchema).Answers s
      ((writerSchemaIn s.2.store header).map Prod.fst)
      fun t => e.Invariant t ∧ t.2.store = storeBehind s.2.store header := by
  unfold Answers Ends storeBehind
  rw [run_writerSchema]
  cases hwriter : writerSchemaIn s.2.store header with
  | error err => exact ⟨rfl, h, rfl⟩
  | ok found =>
    have hst : e.Advances s (s.1, { s.2 with store := found.2 }) :=
      h.advances_of_grows (fun _ hmem => hmem) (writerSchemaIn_spec h.sound hwriter).1
    exact ⟨rfl, hst.invariant, rfl⟩

/-- What is received stems from the header and the schema of the writer. -/
theorem of_received_eq_ok {header : Header} {writer : WriterSchema} {cursor : Cursor}
    {m : Received app} (h : e.received header writer cursor = .ok m) :
    m.fingerprint = header.fingerprint ∧ m.writer = writer := by
  obtain ⟨-, -, h⟩ := except_bind_eq_ok.mp h
  obtain ⟨b, -, h⟩ := except_bind_eq_ok.mp h
  obtain ⟨-, -, h⟩ := except_bind_eq_ok.mp h
  obtain ⟨⟨record, after⟩, -, h⟩ := except_bind_eq_ok.mp h
  obtain ⟨-, -, h⟩ := except_bind_eq_ok.mp h
  cases h
  exact ⟨rfl, rfl⟩

theorem receive_eq (e : Endpoint app) (message : List UInt8) :
    e.receive message
      = (ofExcept (e.opening message) >>= fun opened =>
          writerSchema opened.1 >>= fun writer => e.receiveFrom opened.1 writer opened.2) := by
  unfold receive opening
  by_cases hsize : e.settings.maxMessageSize < message.length
  · rw [if_pos hsize, if_pos hsize]
    rfl
  · rw [if_neg hsize, if_neg hsize, ← read_eq_ofExcept]
    rfl

/-- Makes the object of what was received, and puts the schema into the store that came with it. -/
def making (m : Received app) : Exchange app (Decoded app) := do
  let object ← Exchange.ofSchemaResult (m.binding.construct m.record)
  if m.writer.carried then
    let _ ← Exchange.tryStore fun store => store.registerAs m.fingerprint m.writer.schema
  return ⟨m.binding.cls, object, m.fingerprint⟩

theorem decode_eq (e : Endpoint app) (message : List UInt8) :
    e.decode message = e.receive message >>= making := rfl

/-- Nothing can fail once the object is made: the schema that came with the message has the
fingerprint under which it is put into the store. -/
theorem ends_making {m : Received app}
    (hfingerprint : m.writer.carried = true → m.writer.schema.fingerprint = m.fingerprint)
    (s : State app) :
    (making m).Ends s (fun d t => made m = .ok d ∧ s.2.store.Extends t.2.store)
      (fun err t => made m = .error err ∧ t = s) := by
  unfold making made
  rw [ofSchemaResult_eq_ofExcept]
  cases (m.binding.construct m.record).mapError ExchangeError.ofSchemaError with
  | error err => exact ⟨rfl, rfl⟩
  | ok object =>
    cases hcarried : m.writer.carried with
    | false => exact ⟨rfl, .refl _⟩
    | true =>
      show Ends (tryStore _ >>= _) s _ _
      rw [ends_bind, ends_tryStore]
      constructor
      · intro kept store hregister
        exact ⟨rfl, (SchemaStore.grows_registerAs hregister).extend⟩
      · intro err herr
        -- The store refuses a schema only under a fingerprint that is not its own.
        rw [SchemaStore.registerAs, if_pos (hfingerprint hcarried)] at herr
        cases herr

/-- Decoding answers with the outcome, and the store keeps what was found for the message. -/
theorem answers_decode (h : e.Invariant s) (message : List UInt8) :
    (e.decode message).Answers s (e.outcome s.2.store message)
      fun t => (e.consulted s.2.store message).Extends t.2.store := by
  rw [decode_eq, receive_eq, bind_assoc]
  unfold consulted
  cases hopening : e.opening message with
  | error err =>
    unfold outcome
    rw [hopening]
    exact ⟨rfl, .refl _⟩
  | ok opened =>
    obtain ⟨header, cursor⟩ := opened
    rw [outcome_of_opening hopening]
    show Answers ((writerSchema header >>= fun writer => e.receiveFrom header writer cursor) >>= _)
      s _ fun t => (storeBehind s.2.store header).Extends t.2.store
    rw [bind_assoc]
    -- The schema of the writer, the record and the object, one after the other.
    refine (answers_writerSchema h header).bind ?_ ?_
    · rintro t ⟨-, ht⟩
      rw [ht]
      exact .refl _
    · rintro writer t hwriter ⟨ht, hstore⟩
      obtain ⟨⟨writer', after⟩, hfound, hw⟩ := except_map_eq_ok_iff.mp hwriter
      -- What is carried has the fingerprint of the header, so that keeping it cannot fail.
      have hfingerprint := (writerSchemaIn_spec h.sound hfound).2.1
      rw [← hstore]
      refine (answers_receiveFrom ht header writer cursor).bind (fun _ hu => hu) ?_
      intro m u hm hu
      obtain ⟨hheader, rfl⟩ := of_received_eq_ok hm
      cases hw
      rw [← hheader] at hfingerprint
      refine (ends_making (fun _ => hfingerprint) u).mono ?_ ?_
      · rintro d v ⟨hd, hv⟩
        exact ⟨hd, hu.trans hv⟩
      · rintro err v ⟨herr, rfl⟩
        exact ⟨herr, hu⟩

/-! ## Outcomes last -/

theorem writerSchemaIn_of_resolve {store after : SchemaStore} {f : Fingerprint} {kept : Schema}
    (h : store.resolve f = .ok (kept, after)) :
    writerSchemaIn store ⟨f, none⟩ = .ok (⟨kept, false⟩, after) := by
  rw [writerSchemaIn, h]

/-- A schema that was found for a header is found in every store that has kept it, and a text that
was refused is refused again. -/
theorem writerSchemaIn_later {store later : SchemaStore} {header : Header}
    (hknown : ∀ f, writerSchemaIn store header ≠ .error (.unknownSchema f))
    (hlater : (storeBehind store header).Extends later) :
    (writerSchemaIn later header).map Prod.fst = (writerSchemaIn store header).map Prod.fst := by
  obtain ⟨f, text⟩ := header
  cases text with
  | none =>
    cases hresolve : store.resolve f with
    | error err =>
      have hunknown : writerSchemaIn store ⟨f, none⟩ = .error (.unknownSchema f) := by
        rw [writerSchemaIn, hresolve, SchemaStore.eq_unknownSchema_of_resolve hresolve]
        rfl
      exact absurd hunknown (hknown f)
    | ok found =>
      obtain ⟨kept, after⟩ := found
      have hfound := writerSchemaIn_of_resolve hresolve
      rw [storeBehind, hfound] at hlater
      have hkept := hlater f kept (SchemaStore.grows_resolve hresolve).2
      rw [hfound, writerSchemaIn_of_resolve (SchemaStore.resolve_of_get? hkept)]
      rfl
  | some text =>
    -- A schema that the message carries is read from its text alone.
    simp only [writerSchemaIn]
    cases Schema.ofText text with
    | error err => rfl
    | ok schema =>
      by_cases hf : schema.fingerprint = f
      · simp only [if_pos hf]
        rfl
      · simp only [if_neg hf]

/-- An outcome is the same over every store that has kept what was found for the message, unless
nothing was found. -/
theorem outcome_later {store later : SchemaStore} {message : List UInt8}
    (hknown : ∀ f, e.outcome store message ≠ .error (.unknownSchema f))
    (hlater : (e.consulted store message).Extends later) :
    e.outcome later message = e.outcome store message := by
  unfold consulted at hlater
  cases hopening : e.opening message with
  | error err =>
    unfold outcome
    rw [hopening]
    rfl
  | ok opened =>
    rw [hopening] at hlater
    rw [outcome_of_opening hopening] at hknown ⊢
    rw [outcome_of_opening hopening, writerSchemaIn_later (fun f hunknown => hknown f ?_) hlater]
    rw [hunknown]
    rfl

/-- A message that is decoded again, in any state over a store that has kept what the first decoding
left, has the same result, unless its schema was unknown. -/
theorem Invariant.decode_again (hs : e.Invariant s) (ht : e.Invariant t) {message : List UInt8}
    (hknown : ∀ f, (e.decode message).result s ≠ .error (.unknownSchema f))
    (hlater : ((e.decode message).after s).2.store.Extends t.2.store) :
    (e.decode message).result t = (e.decode message).result s := by
  have hfirst := answers_decode hs message
  rw [hfirst.result_eq] at hknown ⊢
  rw [(answers_decode ht message).result_eq]
  exact outcome_later hknown (hfirst.after.trans hlater)

end Endpoint

/-! ## A message whose schema a source knows -/

/-- One class, of coins. A note may be left out. -/
def mint : Application where
  Class := Unit
  Object _ := Record
  decideClass := inferInstance
  typeName _ := "Coin"
  fields _ := [⟨"value", .int, none⟩, ⟨"note", .string, some (.string "none")⟩]
  toRecord _ r := r
  ofRecord _ r := .ok r

/-- An endpoint for coins, with room for short messages. -/
def mintEndpoint : Endpoint mint where
  whitelist _ _ := true
  group := ⟨⟨0⟩, "mint", [⟨(), rfl⟩], by decide⟩
  settings := ⟨.never, 64⟩

/-- The schema of coins before there were notes. -/
def plainCoin : Schema := ⟨"Coin", [⟨"value", .int, none⟩]⟩

/-- A store that has nothing, with a source that knows plain coins. -/
def mintStore : SchemaStore := ⟨[], some fun _ => some plainCoin⟩

/-- A message that names the schema of plain coins, in front of a payload. -/
def coinMessage (payload : List UInt8) : List UInt8 :=
  Header.encode ⟨plainCoin.fingerprint, none⟩ ++ payload

/-- The message opens to what it names and to its payload. -/
theorem opening_coinMessage {payload : List UInt8} (h : payload.length ≤ 53) :
    mintEndpoint.opening (coinMessage payload)
      = .ok (⟨plainCoin.fingerprint, none⟩, ⟨payload, 11⟩) := by
  have hheader : (Header.encode ⟨plainCoin.fingerprint, none⟩).length = 11 := by
    have hwidth := plainCoin.fingerprint.length_toBytes
    simp [Header.encode, Header.marker, hwidth, Fingerprint.width]
  have hsize : (coinMessage payload).length ≤ 64 := by
    rw [coinMessage, List.length_append, hheader]
    omega
  have hrun := Header.yields_encode (h := ⟨plainCoin.fingerprint, none⟩)
    (by rw [hheader]; decide) payload 0
  rw [hheader] at hrun
  have hlimit : mintEndpoint.settings.maxMessageSize = 64 := rfl
  unfold Endpoint.opening Decoder.result Cursor.start
  rw [hlimit, if_neg (Nat.not_lt.mpr hsize), coinMessage, hrun]

/-- Its schema is found by asking the source. -/
theorem writerSchemaIn_mintStore :
    Endpoint.writerSchemaIn mintStore ⟨plainCoin.fingerprint, none⟩
      = .ok (⟨plainCoin.canonical, false⟩, (mintStore.register plainCoin).2) :=
  Endpoint.writerSchemaIn_of_resolve (SchemaStore.resolve_of_source rfl rfl)

/-- The payload of a plain coin is read as a coin without a note. -/
theorem run_decodeFrom_plainCoin (offset : Nat) :
    ((mint.schema ()).decodeFrom plainCoin.canonical).run ⟨[0, 6], offset⟩
      = .ok ⟨"Coin", [("value", .int 3), ("note", .string "none")]⟩ ⟨[], offset + 2⟩ := by
  have hw : plainCoin.WellFormed := plainCoin.check_eq_ok_iff.mp rfl
  have hreader : (mint.schema ()).WellFormed := (mint.schema ()).check_eq_ok_iff.mp rfl
  have hrep : plainCoin.Representable := by
    simp [plainCoin, Schema.Representable, RepresentableFields, FieldType.Representable]
  have hr : Record.WellFormed ⟨"Coin", [("value", .int 3)]⟩ := by
    simp [Record.WellFormed, WellFormedEntries, Value.WellFormed]
  exact (mint.schema ()).yields_resolve plainCoin _ [0, 6] hreader hw hrep rfl hr (by decide) []
    offset

/-- A plain coin is decoded as a coin without a note. -/
theorem outcome_coinMessage :
    mintEndpoint.outcome mintStore (coinMessage [0, 6])
      = .ok ⟨(), ⟨"Coin", [("value", .int 3), ("note", .string "none")]⟩,
          plainCoin.fingerprint⟩ := by
  let b : Binding mint := ⟨(), rfl⟩
  have hread : (b.schema.decodeFrom plainCoin.canonical).run ⟨[0, 6], 11⟩
      = .ok ⟨"Coin", [("value", .int 3), ("note", .string "none")]⟩ ⟨[], 13⟩ :=
    run_decodeFrom_plainCoin 11
  rw [Endpoint.outcome_of_writerSchemaIn (opening_coinMessage (by decide)) writerSchemaIn_mintStore,
    Endpoint.received_eq_ok (b := b) (fun _ _ => rfl) rfl (fun _ _ => rfl) hread]
  rfl

end RecordExchange
