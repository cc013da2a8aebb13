import RecordExchange.Proofs.Calls

/-!
# Admission

No record type crosses the boundary of a group before the whitelist has admitted it, whatever calls
went before: found in the registry or made anew, after a disposal or after a failure. And a refusal
gives nothing away about what lies behind the header of a message.

- `Endpoint.Opens`: a message is within the limit, and its header and the schema of its writer are
  found.
- `Endpoint.run_decode_of_refused`: the outcome for an opened message whose writer's schema names a
  type that is refused.
- `Endpoint.Guarded`: what admission guarantees in a state.
- `Endpoint.Reachable.guarded`: every reachable state guarantees it.
-/

namespace RecordExchange

open Exchange

variable {app : Application}

namespace Endpoint

/-! ## Refusals -/

/-- A message opens when it is within the limit, its header is read, and the schema of its writer
is found, which leaves the store as `after`. -/
structure Opens (e : Endpoint app) (s : State app) (message : List UInt8) (writer : WriterSchema)
    (after : SchemaStore) : Prop where
  size : message.length ≤ e.settings.maxMessageSize
  found : ∃ header cursor, Header.decode.run (Cursor.start message) = .ok header cursor ∧
    writerSchemaIn s.2.store header = .ok (writer, after)

/-- The first of the names in a schema that the whitelist refuses. -/
def firstRefused (e : Endpoint app) (s : Schema) : Option String :=
  s.recordNames.find? fun n => !e.whitelist e.group n

/-- A name is refused when some name that the schema mentions is. -/
theorem firstRefused_isSome_iff (e : Endpoint app) (s : Schema) :
    (e.firstRefused s).isSome = true ↔ ∃ n, s.Mentions n ∧ e.whitelist e.group n = false := by
  rw [firstRefused, List.find?_isSome]
  simp only [s.mem_recordNames_iff, Bool.not_eq_true']

variable {e : Endpoint app} {s : State app} {message : List UInt8} {writer : WriterSchema}
  {after : SchemaStore} {n : String}

/-- What is received of an opened message whose writer's schema is refused: the first name that is,
before anything behind the header is looked at. -/
theorem run_receive_of_refused (h : e.Opens s message writer after)
    (hn : e.firstRefused writer.schema = some n) :
    (e.receive message).run s
      = .error (.notPermitted e.group.name n) (s.1, { s.2 with store := after }) := by
  obtain ⟨hsize, header, cursor, hheader, hwriter⟩ := h
  have hpermit : e.permitAll writer.schema = .error (.notPermitted e.group.name n) := by
    have hfind : (writer.schema.recordNames.find? fun n => !e.whitelist e.group n) = some n := hn
    rw [e.permitAll_eq, hfind]
  rw [run_receive hsize hheader, hwriter]
  show EStateM.run (Exchange.ofExcept (e.permitAll writer.schema) >>= _) _ = _
  rw [hpermit]
  rfl

theorem run_decode_of_refused (h : e.Opens s message writer after)
    (hn : e.firstRefused writer.schema = some n) :
    (e.decode message).run s
      = .error (.notPermitted e.group.name n) (s.1, { s.2 with store := after }) :=
  run_decode_of_run_receive_error (run_receive_of_refused h hn)

/-! ## What admission guarantees -/

/-- What admission guarantees in a state of an endpoint. -/
structure Guarded (e : Endpoint app) (s : State app) : Prop where
  /-- A serializer in the registry is that of the class which the group binds under its name, and
  the whitelist admits all record names in its schema. -/
  registry : ∀ name kept, (name, kept) ∈ s.1.entries →
    e.group.resolve? name = some kept.content ∧
      ∀ n ∈ kept.content.schema.recordNames, e.whitelist e.group n = true
  /-- A class has a serializer only if every record type in its schema is admitted. -/
  serializerFor : ∀ c kept t, (e.serializerFor c).run s = .ok kept t → e.Admits (app.schema c)
  /-- An object is written only if every record type in the schema of its class is admitted. -/
  encode : ∀ c object message t, (e.encode c object).run s = .ok message t →
    e.Admits (app.schema c)
  /-- A record is handed to a class only if every record type is admitted that occurs in the schema
  of the writer or in that of the class, which is the one bound under the name of the former. -/
  receive : ∀ message r t, (e.receive message).run s = .ok r t →
    e.Admits r.writer.schema ∧ e.group.resolve? r.writer.schema.name = some r.binding ∧
      e.Admits r.binding.schema
  /-- Nothing is decoded, and no object made, unless a record has been received. -/
  decode : ∀ message, (∀ d t, (e.decode message).run s = .ok d t →
      ∃ r u, (e.receive message).run s = .ok r u ∧ d.cls = r.binding.cls) ∧
    ∀ err t, (e.receive message).run s = .error err t → (e.decode message).run s = .error err t
  /-- If the schema of the writer names a type that is refused, the first such name is reported,
  and neither registry nor announcements change. -/
  refused : ∀ message writer after, e.Opens s message writer after →
    (∃ n, writer.schema.Mentions n ∧ e.whitelist e.group n = false) →
      ∃ n, e.firstRefused writer.schema = some n ∧ (e.decode message).run s
        = .error (.notPermitted e.group.name n) (s.1, { s.2 with store := after })
  /-- This outcome is the same for any other message that opens to the schema of the same writer,
  at any endpoint of any application, in any state, as long as the verdicts are the same under the
  same name of the group: it depends neither on payloads and bindings nor on how objects are
  made. -/
  refused_alike : ∀ (other : Application) (e' : Endpoint other) (s' : State other)
    (message message' : List UInt8) writer after after',
    e.Opens s message writer after → e'.Opens s' message' writer after' →
    e.group.name = e'.group.name → (∀ n, e.whitelist e.group n = e'.whitelist e'.group n) →
    (∃ n, writer.schema.Mentions n ∧ e.whitelist e.group n = false) →
      ∃ err, (e.decode message).run s = .error err (s.1, { s.2 with store := after }) ∧
        (e'.decode message').run s' = .error err (s'.1, { s'.2 with store := after' })

theorem guarded_of_invariant (h : e.Invariant s) : e.Guarded s where
  registry name kept hmem := by
    refine ⟨h.bound name kept hmem, fun n hn => ?_⟩
    exact h.admitted name kept hmem n ((Schema.mem_recordNames_iff _ n).mp hn)
  serializerFor c kept t hrun := by
    obtain ⟨b, ⟨rfl, -⟩, hserves⟩ := (ends_serializerFor h c).of_run_ok hrun
    exact hserves.admits
  encode c object message t hrun := by
    obtain ⟨b, ⟨rfl, -⟩, hwrites⟩ := (ends_encode h c object).of_run_ok hrun
    exact hwrites.admits
  receive message r t hrun := by
    have hreceives := (ends_receive h message).of_run_ok hrun
    exact ⟨hreceives.admitsWriter, hreceives.bound, hreceives.admitsBinding⟩
  decode message := by
    -- Success goes through receiving, and a refusal while receiving is that of decoding.
    refine ⟨fun d t hrun => ?_, fun err t hrun => run_decode_of_run_receive_error hrun⟩
    obtain ⟨-, r, u, hreceive, hcls, -⟩ := (ends_decode h message).of_run_ok hrun
    exact ⟨r, u, hreceive, hcls⟩
  refused message writer after hopens hrefused := by
    obtain ⟨n, hn⟩ := Option.isSome_iff_exists.mp
      ((e.firstRefused_isSome_iff writer.schema).mpr hrefused)
    exact ⟨n, hn, run_decode_of_refused hopens hn⟩
  refused_alike other e' s' message message' writer after after' hopens hopens' hname hverdicts
      hrefused := by
    obtain ⟨n, hn⟩ := Option.isSome_iff_exists.mp
      ((e.firstRefused_isSome_iff writer.schema).mpr hrefused)
    -- Equal verdicts on the names of the schema refuse the same name first.
    have hn' : e'.firstRefused writer.schema = some n := by
      rw [← hn, firstRefused, firstRefused]
      simp only [hverdicts]
    refine ⟨_, run_decode_of_refused hopens hn, ?_⟩
    rw [hname]
    exact run_decode_of_refused hopens' hn'

/-- **Admission.** In every state that calls lead to, in any order and with any failures, nothing
is built up, written or handed to a class before all record types in it are admitted. -/
theorem Reachable.guarded (h : e.Reachable s) : e.Guarded s :=
  guarded_of_invariant h.invariant

end Endpoint

/-- Two classes: orders, which list their parts, and secrets. -/
def depot : Application where
  Class := Bool
  Object _ := Record
  decideClass := inferInstance
  typeName c := if c then "Order" else "Secret"
  fields c :=
    if c then [⟨"parts", .list (.record ⟨"Part", [⟨"count", .int, none⟩]⟩), none⟩]
    else [⟨"key", .bytes, none⟩]
  toRecord _ r := r
  ofRecord _ r := .ok r

/-- An endpoint that binds both classes and admits all but secrets. -/
def depotEndpoint : Endpoint depot where
  whitelist _ typeName := typeName != "Secret"
  group := ⟨⟨0⟩, "depot", [⟨true, rfl⟩, ⟨false, rfl⟩], by decide⟩
  settings := .standard

/-- The state after a disposal, a refused call and one that succeeds. -/
def depotState : State depot :=
  depotEndpoint.run [.dispose, .serializerFor false, .serializerFor true] Endpoint.start

theorem guarded_depotState : depotState.1.size = 1 ∧ depotEndpoint.Guarded depotState :=
  ⟨rfl, Endpoint.Reachable.guarded ⟨_, rfl⟩⟩

end RecordExchange
