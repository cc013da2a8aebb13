import RecordExchange.Proofs.Calls
import RecordExchange.Proofs.Evolution
import RecordExchange.Proofs.Nesting
import RecordExchange.Proofs.NormalForm

/-!
# Delivery

What an endpoint has written it can read, at once and after any further calls, a disposal included.
The record arrives in its normal form, and an object is made of it when the class makes one. This
holds for messages that carry their schema and for messages that rely on the store, with one
exception: the text of a schema that nests too deeply is carried, but not read.

- `SchemaStore.Distinguishes`: no other canonical text shares the fingerprint of a schema.
- `Endpoint.writerSchemaIn_message`: the schema that is found for a message.
- `Endpoint.Overburdens`: a message carries a text that is not read back.
- `Endpoint.ends_receiveFrom_canonical`: what a class receives that was written with its schema.
- `Endpoint.Delivers`: a message arrives.
- `Endpoint.Reachable.delivers`: every message that was written arrives, with that exception.
-/

namespace RecordExchange

open Exchange

/-! ## The schema of the writer -/

/-- What a store has under the fingerprint of a schema has the canonical text of the schema. -/
def SchemaStore.Distinguishes (store : SchemaStore) (schema : Schema) : Prop :=
  ∀ f kept, (f, kept) ∈ store.entries → kept.fingerprint = schema.fingerprint →
    kept.canonicalText = schema.canonicalText

/-- Under the fingerprint of a schema a store has the canonical schema, if it has anything. -/
theorem SchemaStore.get?_fingerprint {store : SchemaStore} {schema : Schema}
    (hsound : store.Sound) (hcontains : store.contains schema.fingerprint = true)
    (hdistinct : store.Distinguishes schema) :
    store.get? schema.fingerprint = some schema.canonical := by
  obtain ⟨kept, hkept⟩ := Option.isSome_iff_exists.mp hcontains
  have hmem := SchemaStore.mem_entries_of_get? hkept
  obtain ⟨hfingerprint, hcanonical⟩ := hsound _ _ hmem
  have htext := hdistinct _ _ hmem hfingerprint
  rw [hkept, ← (Schema.canonicalText_eq_iff_canonical_eq _ _).mp htext, hcanonical]

namespace Endpoint

variable {app : Application} {e : Endpoint app} {s t u v : State app} {b : Binding app}

/-- The schema of the writer is found where the message does not carry it: it is in the store. -/
theorem writerSchemaIn_of_not_carried {store : SchemaStore} {schema : Schema}
    (hkept : store.get? schema.fingerprint = some schema.canonical) :
    writerSchemaIn store ⟨schema.fingerprint, none⟩ = .ok (⟨schema.canonical, false⟩, store) := by
  rw [writerSchemaIn, SchemaStore.resolve_of_get? hkept]

/-- The schema of the writer is found in a message that carries it, unless it nests too deeply. -/
theorem writerSchemaIn_of_carried (store : SchemaStore) {schema : Schema}
    (hw : schema.WellFormed) :
    writerSchemaIn store ⟨schema.fingerprint, some schema.canonicalText⟩
      = if schema.canonicalJson.depth ≤ Schema.nestingLimit then
          .ok (⟨schema.canonical, true⟩, store)
        else .error (.corrupt (.embeddedSchema .malformed)) := by
  simp only [writerSchemaIn, Schema.ofText_canonicalText hw]
  by_cases hdepth : schema.canonicalJson.depth ≤ Schema.nestingLimit
  · rw [if_pos hdepth, if_pos hdepth]
    simp only [schema.fingerprint_canonical, if_true, schema.canonical_canonical]
  · rw [if_neg hdepth, if_neg hdepth]

/-- Messages would carry a text that nests deeper than texts are read. -/
def Overburdens (e : Endpoint app) (announced : List Fingerprint) (schema : Schema) : Prop :=
  e.embeds announced schema.fingerprint = true ∧
    Schema.nestingLimit < schema.canonicalJson.depth

/-- The schema of the writer is found for a message, unless this is overburdened. -/
theorem writerSchemaIn_message {store : SchemaStore} {schema : Schema}
    {announced : List Fingerprint} (hw : schema.WellFormed)
    (hkept : store.get? schema.fingerprint = some schema.canonical)
    (hlight : ¬ e.Overburdens announced schema) :
    writerSchemaIn store ⟨schema.fingerprint,
        if e.embeds announced schema.fingerprint then some schema.canonicalText else none⟩
      = .ok (⟨schema.canonical, e.embeds announced schema.fingerprint⟩, store) := by
  by_cases hcarried : e.embeds announced schema.fingerprint = true
  · have hdepth : schema.canonicalJson.depth ≤ Schema.nestingLimit :=
      Nat.not_lt.mp fun hdeep => hlight ⟨hcarried, hdeep⟩
    rw [if_pos hcarried, writerSchemaIn_of_carried store hw, if_pos hdepth, hcarried]
  · rw [if_neg hcarried, writerSchemaIn_of_not_carried hkept, Bool.eq_false_iff.mpr hcarried]

/-! ## What is received -/

/-- A class that is bound and admitted receives what was written with its own schema, if the payload
is read to its end. -/
theorem ends_receiveFrom_canonical (header : Header) {cursor : Cursor} (carried : Bool)
    {record : Record} {offset : Nat} (h : e.Invariant u)
    (hbound : e.group.resolve? b.typeName = some b) (hadmits : e.Admits b.schema)
    (hpayload : (b.schema.decodeFrom b.schema.canonical).run cursor = .ok record ⟨[], offset⟩) :
    (e.receiveFrom header ⟨b.schema.canonical, carried⟩ cursor).Ends u
      (fun m _ => m = ⟨header.fingerprint, ⟨b.schema.canonical, carried⟩, b, record⟩)
      (fun _ _ => False) := by
  have hpermit : e.permitAll b.schema.canonical = .ok () := by
    rw [e.permitAll_eq_ok_iff]
    intro n hn
    exact hadmits n ((Schema.mentions_canonical_iff n _).mp hn)
  have hname : e.bound b.schema.canonical.name = .ok b := by
    rw [Schema.name_canonical, bound_eq_ok_iff]
    exact hbound
  show Ends (Exchange.ofExcept (e.permitAll b.schema.canonical) >>= fun _ =>
    Exchange.ofExcept (e.bound b.schema.canonical.name) >>= _) u _ _
  rw [hpermit, hname]
  show Ends (e.serializerOf b >>= _) u _ _
  rw [ends_bind]
  refine (ends_serializerOf h hbound).mono ?_ fun _ _ hrefused => hrefused.2 hadmits
  rintro kept v ⟨-, rfl, -, -, -, -⟩
  show Ends (Exchange.read (kept.content.schema.decodeFrom kept.content.schema.canonical) cursor
    >>= _) v _ _
  rw [ends_bind, ends_iff_of_run_ok (run_read hpayload v)]
  -- Nothing is left behind the payload.
  rfl

/-! ## What is decoded -/

/-- A message arrives at a class as a record: this is what the class is handed, an object is
decoded when the class makes one of it, and otherwise the failure of the class is reported. -/
structure Delivers (e : Endpoint app) (u : State app) (c : app.Class) (r : Record)
    (message : List UInt8) : Prop where
  receive : ∃ m v, (e.receive message).run u = .ok m v ∧ m.binding.cls = c ∧ m.record = r
  make : ∀ object, app.ofRecord c r = .ok object →
    ∃ v, (e.decode message).run u = .ok ⟨c, object, (app.schema c).fingerprint⟩ v
  fail : ∀ err, app.ofRecord c r = .error err →
    ∃ v, (e.decode message).run u = .error (.ofSchemaError err) v

/-- A message that is received arrives. A schema that came with it is put into the store, which
never fails: the fingerprint is its own. -/
theorem delivers_of_run_receive {message : List UInt8} {carried : Bool} {r : Record}
    (hname : r.typeName = b.typeName)
    (hrun : (e.receive message).run u
      = .ok ⟨b.schema.fingerprint, ⟨b.schema.canonical, carried⟩, b, r⟩ v) :
    e.Delivers u b.cls r message := by
  have hconstruct : b.construct r = app.ofRecord b.cls r := by
    rw [Binding.construct, if_pos hname]
  refine ⟨⟨_, v, hrun, rfl, rfl⟩, fun object hobject => ?_, fun err herr => ?_⟩
  · rw [decode, EStateM.run_bind, hrun]
    show ∃ w, EStateM.run (Exchange.ofSchemaResult (b.construct r) >>= _) v = _
    rw [hconstruct, hobject]
    -- A schema that came along is installed, under a fingerprint that is its own.
    cases carried with
    | false => exact ⟨v, rfl⟩
    | true =>
      have hregister : v.2.store.registerAs b.schema.fingerprint b.schema.canonical
          = .ok (v.2.store.install b.schema.fingerprint b.schema.canonical.canonical) := by
        rw [SchemaStore.registerAs, if_pos b.schema.fingerprint_canonical]
      show ∃ w, EStateM.run (tryStore (fun store =>
        store.registerAs b.schema.fingerprint b.schema.canonical) >>= _) v = _
      rw [EStateM.run_bind, run_tryStore, hregister]
      exact ⟨_, rfl⟩
  · refine ⟨v, ?_⟩
    rw [decode, EStateM.run_bind, hrun]
    show EStateM.run (Exchange.ofSchemaResult (b.construct r) >>= _) v = _
    rw [hconstruct, herr]
    rfl

/-! ## Messages arrive -/

/-- A message whose writer's schema is not found fails for that reason, and changes nothing. -/
theorem run_decode_of_writerSchemaIn_error {message : List UInt8} {header : Header}
    {cursor : Cursor} {err : ExchangeError} (hsize : message.length ≤ e.settings.maxMessageSize)
    (hheader : Header.decode.run (Cursor.start message) = .ok header cursor)
    (hwriter : writerSchemaIn u.2.store header = .error err) :
    (e.decode message).run u = .error err u := by
  refine run_decode_of_run_receive_error ?_
  rw [run_receive hsize hheader, hwriter]

/-- A message opens to its header, in front of its payload. -/
theorem run_header_message {announced : List Fingerprint} {schema : Schema}
    {payload : List UInt8} (hsize : (e.message announced schema payload).length < UInt64.size) :
    ∃ offset, Header.decode.run (Cursor.start (e.message announced schema payload))
      = .ok ⟨schema.fingerprint,
          if e.embeds announced schema.fingerprint then some schema.canonicalText else none⟩
        ⟨payload, offset⟩ := by
  rw [message, List.length_append] at hsize
  exact ⟨_, Header.yields_encode (by omega) payload 0⟩

/-- An overburdened message is refused in every state. -/
theorem run_decode_of_overburdens {announced : List Fingerprint} {schema : Schema}
    {payload : List UInt8} (hdeep : e.Overburdens announced schema) (hw : schema.WellFormed)
    (hsize : (e.message announced schema payload).length ≤ e.settings.maxMessageSize)
    (hlimit : e.settings.maxMessageSize < UInt64.size) (u : State app) :
    (e.decode (e.message announced schema payload)).run u
      = .error (.corrupt (.embeddedSchema .malformed)) u := by
  obtain ⟨hcarried, hdepth⟩ := hdeep
  obtain ⟨offset, hheader⟩ := run_header_message (Nat.lt_of_le_of_lt hsize hlimit)
  refine run_decode_of_writerSchemaIn_error hsize hheader ?_
  rw [if_pos hcarried, writerSchemaIn_of_carried _ hw, if_neg (Nat.not_le.mpr hdepth)]

/-- A payload is read to its end, as the normal form of the record. -/
theorem run_payload {schema : Schema} {r : Record} {payload : List UInt8}
    (hw : schema.WellFormed) (hrep : schema.Representable) (hr : r.WellFormed)
    (hpayload : schema.encode r = .ok payload) (hsize : payload.length < UInt64.size)
    (offset : Nat) :
    (schema.decodeFrom schema.canonical).run ⟨payload, offset⟩
      = .ok (schema.normalForm r) ⟨[], offset + payload.length⟩ := by
  have hyields := schema.yields_resolve schema r payload hw hw hrep hpayload hr hsize
  rw [schema.resolve_self hw r payload hpayload] at hyields
  have hrun := hyields [] offset
  rwa [List.append_nil] at hrun

/-- **Delivery.** A message that was written in a state that calls lead to arrives after any further
calls as the normal form of the record that was written, whether it carries its schema or not. The
one exception is a message that carries a text which nests deeper than texts are read: it is refused
for that. -/
theorem Reachable.delivers (h : e.Reachable s) {c : app.Class} {object : app.Object c}
    {message : List UInt8} (hencode : (e.encode c object).run s = .ok message t)
    (hrep : (app.schema c).Representable) (hrecord : (app.toRecord c object).WellFormed)
    (hlimit : e.settings.maxMessageSize < UInt64.size) (calls : List (Call app))
    (hdistinct : (e.run calls t).2.store.Distinguishes (app.schema c)) :
    (¬ e.Overburdens s.2.announced (app.schema c) →
      e.Delivers (e.run calls t) c ((app.schema c).normalForm (app.toRecord c object)) message) ∧
    (e.Overburdens s.2.announced (app.schema c) →
      (e.decode message).run (e.run calls t)
        = .error (.corrupt (.embeddedSchema .malformed)) (e.run calls t)) := by
  obtain ⟨b, ⟨rfl, hbound⟩, hwrites⟩ := (ends_encode h.invariant c object).of_run_ok hencode
  -- Further calls keep the invariant and whatever the store has.
  have hadvances := advances_run calls hwrites.advances.invariant
  have hw : b.schema.WellFormed := b.schema.check_eq_ok_iff.mp b.valid
  obtain ⟨payload, hpayload, rfl⟩ := hwrites.message
  have hsize := hwrites.size
  refine ⟨fun hlight => ?_, fun hdeep => run_decode_of_overburdens hdeep hw hsize hlimit _⟩
  obtain ⟨offset, hheader⟩ := run_header_message (Nat.lt_of_le_of_lt hsize hlimit)
  have hkept := SchemaStore.get?_fingerprint hadvances.invariant.sound
    (hadvances.extend.contains hwrites.stored) hdistinct
  have hwriter := writerSchemaIn_message hw hkept hlight
  have hlength : payload.length ≤ e.settings.maxMessageSize := by
    rw [message, List.length_append] at hsize
    omega
  have hread := run_payload hw hrep hrecord hpayload (Nat.lt_of_le_of_lt hlength hlimit) offset
  have hreceive := run_receive hsize hheader (e.run calls t)
  rw [hwriter] at hreceive
  obtain ⟨m, v, hrun, rfl⟩ := (ends_receiveFrom_canonical ⟨b.schema.fingerprint, _⟩ _
    hadvances.invariant hbound hwrites.admits hread).exists_run_ok
  exact delivers_of_run_receive (Schema.map_fst_normalForm hpayload).1 (hreceive.trans hrun)

end Endpoint

/-! ## A message that relies on the store -/

/-- One class, of parcels. A note may be left out, and so may the sender. -/
def post : Application where
  Class := Unit
  Object _ := Record
  decideClass := inferInstance
  typeName _ := "Parcel"
  fields _ :=
    [⟨"weight", .int, none⟩, ⟨"note", .string, some (.string "none")⟩,
      ⟨"sender", .optional (.record ⟨"Person", [⟨"name", .string, none⟩]⟩), none⟩,
      ⟨"marks", .list (.record ⟨"Mark", [⟨"code", .long, some (.long 7)⟩]⟩), none⟩]
  toRecord _ r := r
  ofRecord _ r := .ok r

/-- An endpoint whose messages never carry their schema. -/
def postEndpoint : Endpoint post where
  whitelist _ _ := true
  group := ⟨⟨0⟩, "post", [⟨(), rfl⟩], by decide⟩
  settings := ⟨.never, 64⟩

/-- A parcel with fields in another order, one that is not known, and a mark without a code. -/
def parcel : Record :=
  ⟨"Parcel",
    [("marks", .list [.record ⟨"Mark", [("color", .string "red")]⟩]), ("weight", .int 3)]⟩

/-- The parcel arrives after a disposal, when only the store knows the schema. -/
theorem delivers_parcel :
    ∃ message t, (postEndpoint.encode () parcel).run Endpoint.start = .ok message t ∧
      postEndpoint.Delivers (postEndpoint.run [.dispose] t) ()
        ⟨"Parcel",
          [("weight", .int 3), ("note", .string "none"), ("sender", .null),
            ("marks", .list [.record ⟨"Mark", [("code", .long 7)]⟩])]⟩ message := by
  obtain ⟨message, t, hencode, hstore⟩ : ∃ message t,
      (postEndpoint.encode () parcel).run Endpoint.start = .ok message t ∧
        (postEndpoint.run [.dispose] t).2.store.entries
          = [((post.schema ()).fingerprint, (post.schema ()).canonical)] :=
    ⟨_, _, rfl, rfl⟩
  have hrep : (post.schema ()).Representable := by
    simp [post, Application.schema, Schema.Representable, RepresentableFields,
      FieldType.Representable, Value.WellFormed]
  have hrecord : Record.WellFormed parcel := by
    simp [parcel, Record.WellFormed, WellFormedEntries, Value.WellFormed, WellFormedItems]
  refine ⟨message, t, hencode, ?_⟩
  refine (Endpoint.Reachable.delivers ⟨[], rfl⟩ hencode hrep hrecord (by decide) [.dispose] ?_).1 ?_
  -- The store holds the canonical schema of parcels and no other one.
  · intro f kept hmem _
    rw [hstore] at hmem
    obtain ⟨-, rfl⟩ := Prod.mk.inj (List.mem_singleton.mp hmem)
    exact Schema.canonicalText_canonical _
  · exact fun hdeep => Bool.false_ne_true hdeep.1

/-! ## A message that is not read back -/

/-- A message is hardly longer than the text of its schema and its payload. -/
theorem Endpoint.length_message_le {app : Application} (e : Endpoint app)
    (announced : List Fingerprint) (schema : Schema) (payload : List UInt8) :
    (e.message announced schema payload).length
      ≤ 8 * schema.canonicalJson.print.length + payload.length + 12 := by
  have hwidth := schema.fingerprint.length_toBytes
  have hbytes := Wire.length_utf8_ofList_le schema.canonicalJson.print
  have htext := Wire.length_encodeString_le schema.canonicalText
  rw [Schema.canonicalText, Json.render] at htext
  unfold message Header.encode
  split <;>
    simp only [Header.marker, Schema.canonicalText, Json.render, List.length_append,
      List.length_cons, List.length_nil, hwidth, Fingerprint.width] <;> omega

theorem length_print_nestedList (n : Nat) :
    (nestedList n).canonicalJson.print.length = 9 * n + 6 := by
  induction n with
  | zero => rfl
  | succ n ih =>
    have hkey : (Json.text "list").print.length = 6 := rfl
    rw [nestedList, FieldType.canonicalJson, Json.length_print_record_singleton, ih, hkey]
    omega

/-- One class, of towers, whose floors are lists within lists. -/
def city : Application where
  Class := Unit
  Object _ := Record
  decideClass := inferInstance
  typeName _ := "Tower"
  fields _ := [⟨"floors", nestedList 125, none⟩]
  toRecord _ r := r
  ofRecord _ r := .ok r

/-- An endpoint of standard settings, whose messages always carry their schema. -/
def cityEndpoint : Endpoint city where
  whitelist _ _ := true
  group := ⟨⟨0⟩, "city", [⟨(), rfl⟩], by decide⟩
  settings := .standard

/-- A tower without floors. -/
def tower : Record := ⟨"Tower", [("floors", .list [])]⟩

theorem canonicalJson_tower :
    (city.schema ()).canonicalJson
      = .record
        [("fields", .array [.field ("floors", (nestedList 125).canonicalJson)]),
          ("name", .text "Tower")] := by
  have hschema : city.schema () = ⟨"Tower", [⟨"floors", nestedList 125, none⟩]⟩ := rfl
  rw [hschema, Schema.canonicalJson, fieldBodies, fieldBodies, Json.sortMembers,
    List.mergeSort_singleton, List.map_singleton]

theorem depth_tower : (city.schema ()).canonicalJson.depth = 128 := by
  rw [canonicalJson_tower]
  show max (max (Json.field ("floors", (nestedList 125).canonicalJson)).depth 0 + 1) (max 0 0) + 1
    = 128
  rw [Json.depth_field, depth_nestedList]
  rfl

theorem length_print_tower : (city.schema ()).canonicalJson.print.length = 1184 := by
  have hkeys : (Json.text "fields").print.length = 8 ∧ (Json.text "name").print.length = 6 ∧
      (Json.text "type").print.length = 6 := ⟨rfl, rfl, rfl⟩
  have hnames : (Json.text "floors").print.length = 8 ∧ (Json.text "Tower").print.length = 7 :=
    ⟨rfl, rfl⟩
  have hfield : ∀ j, (Json.field ("floors", j)).print.length = j.print.length + 25 := fun j => by
    show (Json.record [("name", .text "floors"), ("type", j)]).print.length = _
    rw [Json.length_print_record_pair, hkeys.2.1, hkeys.2.2, hnames.1]
    omega
  rw [canonicalJson_tower, Json.length_print_record_pair, Json.length_print_array_singleton, hfield,
    length_print_nestedList, hkeys.1, hkeys.2.1, hnames.2]

/-- The tower is written, and its message is refused by the endpoint that has written it, although
the store knows its schema and no other one. -/
theorem decode_encode_tower :
    ∃ message t, (cityEndpoint.encode () tower).run Endpoint.start = .ok message t ∧
      t.2.store.Distinguishes (city.schema ()) ∧
      (cityEndpoint.decode message).run t
        = .error (.corrupt (.embeddedSchema .malformed)) t := by
  let b : Binding city := ⟨(), rfl⟩
  -- The text has 1184 bytes on 128 levels: short enough to send, too deep to parse.
  have hlength := cityEndpoint.length_message_le [] b.schema [0, 0]
  have hprint : b.schema.canonicalJson.print.length = 1184 := length_print_tower
  have hdepth : b.schema.canonicalJson.depth = 128 := depth_tower
  rw [hprint] at hlength
  have hsize : (cityEndpoint.message [] b.schema [0, 0]).length
      ≤ cityEndpoint.settings.maxMessageSize := Nat.le_trans hlength (by decide)
  obtain ⟨t, hencode, hwrites⟩ := @Endpoint.exists_run_encode city cityEndpoint Endpoint.start
    cityEndpoint.invariant_start b tower [0, 0] rfl (fun _ _ => rfl) rfl hsize
  have hw : b.schema.WellFormed := b.schema.check_eq_ok_iff.mp b.valid
  have hdeep : cityEndpoint.Overburdens [] b.schema := ⟨rfl, by rw [hdepth]; decide⟩
  refine ⟨_, t, hencode, fun f kept hmem _ => ?_,
    Endpoint.run_decode_of_overburdens hdeep hw hsize (by decide) t⟩
  -- Whatever writing did to the store, there is at most this schema in it.
  rcases hwrites.store with hstore | hstore
  · rw [hstore] at hmem
    cases hmem
  · rw [hstore] at hmem
    obtain ⟨-, rfl⟩ := Prod.mk.inj (List.mem_singleton.mp hmem)
    exact Schema.canonicalText_canonical _

end RecordExchange
