import RecordExchange.Proofs.Delivery
import RecordExchange.Proofs.Failures
import RecordExchange.Proofs.Relocation

/-!
# Schemas that are carried and schemas that are stored

A message may carry the schema that it was written with, in any of its texts, or rely on the store
for it. To the reader this makes no difference: it goes on with the same canonical schema, from the
same payload. Only the payload starts further on in a message that carries a text, so that offsets
which a failure quotes are further on by the length of that text.

- `Exchange.moved`: the same exchange, whose failures quote offsets that are further on.
- `Endpoint.readFrom`: a message behind its header, once the schema of the writer is known.
- `Endpoint.run_decode_carried`, `Endpoint.run_decode_stored`: what messages come down to that carry
  a text and that do not.
- `Endpoint.interchangeable`: the three ways to send a payload.
-/

namespace RecordExchange

variable {app : Application} {α β : Type}

/-! ## Exchanges further on -/

/-- A failure that is moved twice is moved by both distances. -/
theorem ExchangeError.moved_moved (err : ExchangeError) (j k : Nat) :
    (err.moved j).moved k = err.moved (j + k) := by
  cases err with
  | corrupt cause => cases cause <;> simp [ExchangeError.moved, Corruption.moved, Nat.add_assoc]
  | _ => rfl

/-- Failures of a whitelist, of a group or of a schema quote no offset. -/
theorem ExchangeError.moved_ofSchemaError (err : SchemaError) (k : Nat) :
    (ofSchemaError err).moved k = ofSchemaError err := by
  cases err <;> rfl

namespace Exchange

variable {k : Nat}

/-- The same end, with a failure that is moved. -/
def movedEnd (k : Nat) :
    EStateM.Result ExchangeError (State app) α → EStateM.Result ExchangeError (State app) α
  | .ok a t => .ok a t
  | .error err t => .error (err.moved k) t

/-- The same exchange, whose failures are moved. -/
def moved (k : Nat) (x : Exchange app α) : Exchange app α := fun s => movedEnd k (x.run s)

theorem run_moved (x : Exchange app α) (s : State app) :
    (x.moved k).run s = movedEnd k (x.run s) := rfl

theorem run_moved_congr {x y : Exchange app α} {s t : State app} (h : x.run s = y.run t)
    (k : Nat) : (x.moved k).run s = (y.moved k).run t := by
  rw [run_moved, run_moved, h]

theorem moved_moved (x : Exchange app α) (j k : Nat) : (x.moved j).moved k = x.moved (j + k) := by
  funext s
  show movedEnd k (movedEnd j (x.run s)) = movedEnd (j + k) (x.run s)
  cases x.run s with
  | ok a t => rfl
  | error err t => exact congrArg (fun e => EStateM.Result.error e t) (err.moved_moved j k)

/-- An exchange is moved by moving its parts. -/
theorem moved_bind (x : Exchange app β) (f : β → Exchange app α) (k : Nat) :
    (x >>= f).moved k = x.moved k >>= fun b => (f b).moved k := by
  funext s
  show movedEnd k ((x >>= f).run s) = (x.moved k >>= fun b => (f b).moved k).run s
  rw [EStateM.run_bind, EStateM.run_bind, run_moved]
  cases x.run s <;> rfl

/-- Where no failure quotes an offset there is nothing to move. -/
theorem moved_eq_self {x : Exchange app α}
    (h : ∀ s, x.Ends s (fun _ _ => True) fun err _ => err.moved k = err) : x.moved k = x := by
  funext s
  have hs := h s
  unfold Ends at hs
  show movedEnd k (x.run s) = x.run s
  cases hrun : x.run s with
  | ok a t => rfl
  | error err t =>
    rw [hrun] at hs
    exact congrArg (fun e => EStateM.Result.error e t) hs

theorem moved_ofExcept {x : Except ExchangeError α}
    (h : ∀ err, x = .error err → err.moved k = err) :
    (ofExcept x : Exchange app α).moved k = ofExcept x := by
  refine moved_eq_self fun s => ?_
  rw [ends_ofExcept]
  exact ⟨fun _ _ => trivial, h⟩

/-- A uniform decoder reads the same further on, and leaves the cursor further on. -/
theorem read_moved_bind {d : Decoder α} (h : d.Uniform) (c : Cursor)
    (f : α × Cursor → Exchange app β) :
    (read d (c.moved k) >>= f)
      = ((read d c : Exchange app (α × Cursor)).moved k >>= fun found =>
          f (found.1, found.2.moved k)) := by
  unfold read
  rw [(h k).run_moved c]
  cases d.run c <;> rfl

end Exchange

open Exchange

namespace Endpoint

variable {e : Endpoint app} {s t : State app} {k : Nat}

/-! ## Behind the header -/

/-- Finds the class for the schema of a writer and reads a payload to its end. -/
def readPayload (e : Endpoint app) (writer : Schema) (cursor : Cursor) :
    Exchange app (Binding app × Record) := do
  Exchange.ofExcept (e.permitAll writer)
  let b ← Exchange.ofExcept (e.bound writer.name)
  let s ← e.serializerOf b
  let (record, cursor) ← Exchange.read (s.schema.decodeFrom writer) cursor
  let _ ← Exchange.read Decoder.finish cursor
  return (s.content, record)

/-- The object of a message behind its header. -/
def readFrom (e : Endpoint app) (f : Fingerprint) (writer : WriterSchema) (cursor : Cursor) :
    Exchange app (Decoded app) :=
  e.readPayload writer.schema cursor >>= fun found => making ⟨f, writer, found.1, found.2⟩

/-- What is received is what the payload is read as, together with where it comes from. -/
theorem receiveFrom_eq (e : Endpoint app) (header : Header) (writer : WriterSchema)
    (cursor : Cursor) :
    e.receiveFrom header writer cursor
      = e.readPayload writer.schema cursor >>= fun found =>
          pure ⟨header.fingerprint, writer, found.1, found.2⟩ := by
  simp only [receiveFrom, readPayload, bind_assoc, pure_bind]

theorem receiveFrom_bind_making (e : Endpoint app) (header : Header) (writer : WriterSchema)
    (cursor : Cursor) :
    (e.receiveFrom header writer cursor >>= making)
      = e.readFrom header.fingerprint writer cursor := by
  simp only [receiveFrom_eq, readFrom, bind_assoc, pure_bind]

/-- A message that opens and whose schema is found is decoded from behind its header. -/
theorem run_decode_of_opening {message : List UInt8} {header : Header} {cursor : Cursor}
    {writer : WriterSchema} {after : SchemaStore}
    (hopening : e.opening message = .ok (header, cursor))
    (hwriter : writerSchemaIn s.2.store header = .ok (writer, after)) :
    (e.decode message).run s
      = (e.readFrom header.fingerprint writer cursor).run (s.1, { s.2 with store := after }) := by
  rw [decode_eq, receive_eq, hopening, bind_assoc]
  show (((writerSchema header >>= fun writer => e.receiveFrom header writer cursor) >>=
    making).run s) = _
  rw [bind_assoc, EStateM.run_bind, run_writerSchema, hwriter, ← receiveFrom_bind_making]

/-! ## A payload further on -/

theorem moved_permitAll {writer : Schema} {err : ExchangeError}
    (h : e.permitAll writer = .error err) (k : Nat) : err.moved k = err := by
  obtain ⟨n, rfl⟩ := exists_notPermitted_of_permitAll h
  rfl

/-- A serializer is refused by the whitelist only. -/
theorem moved_serializerOf (e : Endpoint app) (b : Binding app) (k : Nat) :
    (e.serializerOf b).moved k = e.serializerOf b := by
  refine moved_eq_self fun s => (ends_serializerOf_permitAll b).mono (fun _ _ h => h) ?_
  intro err _ herr
  exact moved_permitAll herr k

theorem moved_bound (e : Endpoint app) (typeName : String) (k : Nat) :
    (Exchange.ofExcept (e.bound typeName) : Exchange app (Binding app)).moved k
      = Exchange.ofExcept (e.bound typeName) := by
  refine moved_ofExcept fun err herr => ?_
  rw [eq_notBound_of_bound herr]
  rfl

/-- Only the payload has to do with where it starts. -/
theorem moved_readPayload (e : Endpoint app) (writer : Schema) (cursor : Cursor) (k : Nat) :
    (e.readPayload writer cursor).moved k = e.readPayload writer (cursor.moved k) := by
  unfold readPayload
  -- Admission, the class and its serializer have nothing to do with the cursor.
  rw [moved_bind, moved_ofExcept fun _ herr => moved_permitAll herr k]
  refine congrArg _ (funext fun _ => ?_)
  rw [moved_bind, moved_bound]
  refine congrArg _ (funext fun b => ?_)
  rw [moved_bind, moved_serializerOf]
  refine congrArg _ (funext fun s => ?_)
  -- The payload leaves the cursor further on as well, which is where the end is looked for.
  rw [moved_bind, read_moved_bind (s.schema.uniform_decodeFrom writer)]
  refine congrArg _ (funext fun found => ?_)
  obtain ⟨record, after⟩ := found
  show (Exchange.read Decoder.finish after >>= fun _ => pure (s.content, record)).moved k
    = Exchange.read Decoder.finish (after.moved k) >>= fun _ => pure (s.content, record)
  rw [moved_bind, read_moved_bind Decoder.uniform_finish]
  rfl

/-- What is made of a record quotes no offset. -/
theorem moved_making (m : Received app) (k : Nat) : (making m).moved k = making m := by
  refine moved_eq_self fun s => ?_
  unfold making
  rw [ends_bind, ends_ofSchemaResult]
  constructor
  · intro object _
    split
    · rw [ends_bind, ends_tryStore]
      exact ⟨fun _ _ _ => trivial, fun err _ => ExchangeError.moved_ofSchemaError err k⟩
    · trivial
  · intro err _
    exact ExchangeError.moved_ofSchemaError err k

theorem moved_readFrom (e : Endpoint app) (f : Fingerprint) (writer : WriterSchema)
    (cursor : Cursor) (k : Nat) :
    (e.readFrom f writer cursor).moved k = e.readFrom f writer (cursor.moved k) := by
  unfold readFrom
  rw [moved_bind, moved_readPayload]
  exact congrArg _ (funext fun found => moved_making _ k)

/-! ## Schemas that are put in again -/

/-- Making a serializer takes nothing from the store. -/
theorem Makes.extend {serves : Binding app → Prop} (h : e.Makes serves s t) :
    s.2.store.Extends t.2.store := by
  rcases h with rfl | ⟨b, -, -, -, rfl⟩
  · exact .refl _
  · exact (s.2.store.grows_register b.schema).extend

/-- Reading a payload makes a serializer at most, so that the store keeps what it has. -/
theorem ends_readPayload_extends (writer : Schema) (cursor : Cursor) (s : State app) :
    (e.readPayload writer cursor).Ends s (fun _ t => s.2.store.Extends t.2.store)
      fun _ t => s.2.store.Extends t.2.store := by
  have hmakes := ends_receiveFrom_makes (e := e) ⟨writer.fingerprint, none⟩ ⟨writer, false⟩ cursor s
  rw [receiveFrom_eq, ends_bind] at hmakes
  refine hmakes.mono ?_ ?_
  · rintro found t ⟨-, -, hmade⟩
    exact hmade.extend
  · intro _ t hmade
    exact hmade.extend

/-- A schema that is stored already is not put in again. -/
theorem run_making_carried {f : Fingerprint} {schema kept : Schema}
    (hf : schema.fingerprint = f) (hkept : t.2.store.get? f = some kept) (b : Binding app)
    (r : Record) :
    (making ⟨f, ⟨schema, true⟩, b, r⟩).run t = (making ⟨f, ⟨schema, false⟩, b, r⟩).run t := by
  have hregister : t.2.store.registerAs f schema = .ok (kept, t.2.store) := by
    rw [SchemaStore.registerAs, if_pos hf, SchemaStore.install, hkept]
  unfold making
  rw [EStateM.run_bind, EStateM.run_bind]
  cases hobject : b.construct r with
  | error err => rfl
  | ok object =>
    show EStateM.run (tryStore (fun store => store.registerAs f schema) >>= _) t = _
    rw [EStateM.run_bind, run_tryStore, hregister]
    rfl

/-- It makes no difference to carry a schema that is stored. -/
theorem run_readFrom_carried {f : Fingerprint} {schema kept : Schema}
    (hf : schema.fingerprint = f) (hkept : s.2.store.get? f = some kept) (cursor : Cursor) :
    (e.readFrom f ⟨schema, true⟩ cursor).run s = (e.readFrom f ⟨schema, false⟩ cursor).run s := by
  have hextends := ends_readPayload_extends (e := e) schema cursor s
  unfold readFrom
  rw [EStateM.run_bind, EStateM.run_bind]
  cases hrun : (e.readPayload schema cursor).run s with
  | error err t => rfl
  | ok found t =>
    -- What the store had when the payload was read it has when the object is made.
    have hlater := hextends.of_run_ok hrun f kept hkept
    exact run_making_carried hf hlater found.1 found.2

end Endpoint

/-! ## Three ways to send a payload -/

theorem Header.length_encode_bare (f : Fingerprint) : (Header.encode ⟨f, none⟩).length = 11 := by
  have hwidth := f.length_toBytes
  simp [Header.encode, Header.marker, hwidth, Fingerprint.width]

theorem Header.length_encode_carrying (f : Fingerprint) (text : String) :
    (Header.encode ⟨f, some text⟩).length = 11 + (Wire.encodeString text).length := by
  have hwidth := f.length_toBytes
  simp [Header.encode, Header.marker, hwidth, Fingerprint.width]
  omega

namespace Endpoint

variable {e : Endpoint app} {f : Fingerprint} {payload : List UInt8}

/-- A message opens to its header, and its payload starts behind that. -/
theorem opening_append (hlimit : e.settings.maxMessageSize < UInt64.size) {header : Header}
    (hsize : (header.encode ++ payload).length ≤ e.settings.maxMessageSize) :
    e.opening (header.encode ++ payload) = .ok (header, ⟨payload, header.encode.length⟩) := by
  have hlength : header.encode.length < UInt64.size := by
    rw [List.length_append] at hsize
    omega
  have hrun := Header.yields_encode hlength payload 0
  rw [Nat.zero_add] at hrun
  unfold opening Decoder.result Cursor.start
  rw [if_neg (Nat.not_lt.mpr hsize), hrun]

/-- A message that carries a text comes down to the canonical schema of the text, with a payload
that starts behind the text. -/
theorem run_decode_carried {text : String} {schema : Schema}
    (htext : Schema.ofText text = .ok schema) (hf : schema.fingerprint = f)
    (hlimit : e.settings.maxMessageSize < UInt64.size)
    (hsize : (Header.encode ⟨f, some text⟩ ++ payload).length ≤ e.settings.maxMessageSize)
    (s : State app) :
    (e.decode (Header.encode ⟨f, some text⟩ ++ payload)).run s
      = ((e.readFrom f ⟨schema.canonical, true⟩ ⟨payload, 11⟩).moved
          (Wire.encodeString text).length).run s := by
  have hwriter : writerSchemaIn s.2.store ⟨f, some text⟩
      = .ok (⟨schema.canonical, true⟩, s.2.store) := by
    simp only [writerSchemaIn, htext, if_pos hf]
  rw [run_decode_of_opening (opening_append hlimit hsize) hwriter, Header.length_encode_carrying,
    moved_readFrom]
  rfl

/-- A message that carries no text comes down to the schema that is stored. -/
theorem run_decode_stored {kept : Schema} {s : State app} (hkept : s.2.store.get? f = some kept)
    (hlimit : e.settings.maxMessageSize < UInt64.size)
    (hsize : (Header.encode ⟨f, none⟩ ++ payload).length ≤ e.settings.maxMessageSize) :
    (e.decode (Header.encode ⟨f, none⟩ ++ payload)).run s
      = (e.readFrom f ⟨kept, false⟩ ⟨payload, 11⟩).run s := by
  have hwriter := writerSchemaIn_of_resolve (SchemaStore.resolve_of_get? hkept)
  rw [run_decode_of_opening (opening_append hlimit hsize) hwriter, Header.length_encode_bare]

/-- **Interchange.** Whatever an endpoint has built up, and whatever the payload: a message that
carries a text of a schema and one that relies on the store for this schema are decoded alike, to
the same object or with the same failure, and leave the same behind. Offsets that the failure quotes
are further on by the length of the text. So any two texts of one canonical schema are decoded
alike, also when the store does not have it. -/
theorem interchangeable (e : Endpoint app) (s : State app) {text : String} {schema : Schema}
    {payload : List UInt8} (htext : Schema.ofText text = .ok schema)
    (hlimit : e.settings.maxMessageSize < UInt64.size)
    (hsize : (Header.encode ⟨schema.fingerprint, some text⟩ ++ payload).length
      ≤ e.settings.maxMessageSize) :
    (s.2.store.get? schema.fingerprint = some schema.canonical →
      (e.decode (Header.encode ⟨schema.fingerprint, some text⟩ ++ payload)).run s
        = ((e.decode (Header.encode ⟨schema.fingerprint, none⟩ ++ payload)).moved
            (Wire.encodeString text).length).run s) ∧
    ∀ text' schema', Schema.ofText text' = .ok schema' → schema'.canonical = schema.canonical →
      (Header.encode ⟨schema'.fingerprint, some text'⟩ ++ payload).length
        ≤ e.settings.maxMessageSize →
      ((e.decode (Header.encode ⟨schema.fingerprint, some text⟩ ++ payload)).moved
          (Wire.encodeString text').length).run s
        = ((e.decode (Header.encode ⟨schema'.fingerprint, some text'⟩ ++ payload)).moved
            (Wire.encodeString text).length).run s := by
  have hcarried := run_decode_carried htext rfl hlimit hsize s
  constructor
  · intro hkept
    -- Without the text the message is shorter, so that it is within the limit too.
    have hbare : (Header.encode ⟨schema.fingerprint, none⟩ ++ payload).length
        ≤ e.settings.maxMessageSize := by
      rw [List.length_append, Header.length_encode_carrying] at hsize
      rw [List.length_append, Header.length_encode_bare]
      omega
    rw [hcarried]
    refine run_moved_congr ?_ _
    rw [run_decode_stored hkept hlimit hbare]
    exact run_readFrom_carried schema.fingerprint_canonical hkept _
  · intro text' schema' htext' hsame hsize'
    have hfingerprint : schema'.fingerprint = schema.fingerprint := by
      rw [← schema'.fingerprint_canonical, hsame, schema.fingerprint_canonical]
    have hcarried' := run_decode_carried htext' rfl hlimit hsize' s
    rw [hsame, hfingerprint] at hcarried'
    -- Either side is moved by the length of the other's text, so that offsets meet.
    rw [hfingerprint, run_moved_congr hcarried, run_moved_congr hcarried', moved_moved, moved_moved,
      Nat.add_comm]

end Endpoint

/-! ## A coin that is sent in three ways -/

/-- A tree for the schema of plain coins whose text is not the canonical one: the name comes first,
and so does the type of the field. -/
def coinObject : Json :=
  .record
    [("name", .text "Coin"),
      ("fields", .array [.record [("type", .text "int"), ("name", .text "value")]])]

/-- A tree for the same schema without keys. -/
def coinRow : Json :=
  .array [.text "Coin", .array [.array [.text "value", .text "int"]]]

theorem ofText_coinObject : Schema.ofText coinObject.render = .ok plainCoin := by
  have hplain : coinObject.Plain := by
    simp [coinObject, Json.record, Json.text, Json.Plain, Json.PlainItems, Json.PlainMembers]
  rw [Schema.ofText, Json.parse_render hplain]
  rfl

theorem ofText_coinRow : Schema.ofText coinRow.render = .ok plainCoin := by
  have hplain : coinRow.Plain := by
    simp [coinRow, Json.text, Json.Plain, Json.PlainItems]
  rw [Schema.ofText, Json.parse_render hplain]
  rfl

/-- A message of a plain coin that carries the text of a tree. -/
def coinMessageWith (j : Json) : List UInt8 :=
  Header.encode ⟨plainCoin.fingerprint, some j.render⟩ ++ [0, 6]

/-- An endpoint for coins, with room for long messages. -/
def wideMint : Endpoint mint := { mintEndpoint with settings := .standard }

theorem length_coinMessageWith_le {j : Json} (h : j.print.length ≤ 100) :
    (coinMessageWith j).length ≤ wideMint.settings.maxMessageSize := by
  have hbytes := Wire.length_utf8_ofList_le j.print
  have htext := Wire.length_encodeString_le j.render
  rw [Json.render] at htext
  have hlimit : 1000 ≤ wideMint.settings.maxMessageSize := by decide
  rw [coinMessageWith, List.length_append, Header.length_encode_carrying, Json.render,
    List.length_cons, List.length_singleton]
  omega

/-- A coin is decoded alike whichever text its message carries, and also when it carries none and
the store has the schema. -/
theorem interchangeable_coin :
    ∃ s : Exchange.State mint, s.2.store.get? plainCoin.fingerprint = some plainCoin.canonical ∧
      (wideMint.decode (coinMessageWith coinObject)).run s
        = ((wideMint.decode (coinMessage [0, 6])).moved
            (Wire.encodeString coinObject.render).length).run s ∧
      ((wideMint.decode (coinMessageWith coinObject)).moved
          (Wire.encodeString coinRow.render).length).run s
        = ((wideMint.decode (coinMessageWith coinRow)).moved
            (Wire.encodeString coinObject.render).length).run s := by
  have hkept := mintStore.get?_install_self plainCoin.fingerprint plainCoin.canonical
  have hsize := length_coinMessageWith_le (j := coinObject) (by decide)
  have hsize' := length_coinMessageWith_le (j := coinRow) (by decide)
  have halike := wideMint.interchangeable (.empty, ⟨[], (mintStore.register plainCoin).2⟩)
    ofText_coinObject (by decide) hsize
  exact ⟨_, hkept, halike.1 hkept, halike.2 _ _ ofText_coinRow rfl hsize'⟩

end RecordExchange
