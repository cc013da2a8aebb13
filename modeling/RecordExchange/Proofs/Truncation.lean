import RecordExchange.Proofs.Announcements
import RecordExchange.Proofs.Delimiting

/-!
# Truncation

A message that has lost its end is never taken for another one. If the loss reaches into the header,
then there is no header: one that was found in fewer bytes would be found in the whole message and
leave its payload short of what it is. If it does not, the schema of the writer is found as for the
whole message, and it is the payload that ends too early. It cannot be read to an end of its own for
the same reason, and it fails for nothing but its bytes, since it was written with the very schema
that it is read with.

- `Schema.exists_corrupt_of_front`: a payload without its end.
- `Endpoint.opening_front`: a message without its end, as far as its header.
- `Endpoint.Reachable.detects_truncation`: whatever is left of a message that was written is
  refused as corrupt.
-/

namespace RecordExchange

open Exchange

/-- A payload that has lost its end is corrupt. -/
theorem Schema.exists_corrupt_of_front {schema : Schema} {r : Record} {front lost : List UInt8}
    (hw : schema.WellFormed) (hrep : schema.Representable) (hr : r.WellFormed)
    (hpayload : schema.encode r = .ok (front ++ lost)) (hlost : lost ≠ [])
    (hsize : (front ++ lost).length < UInt64.size) (offset : Nat) :
    ∃ cause, (schema.decodeFrom schema.canonical).result ⟨front, offset⟩
      = .error (.corrupt cause) := by
  unfold Decoder.result
  cases hrun : (schema.decodeFrom schema.canonical).run ⟨front, offset⟩ with
  | ok record after =>
    -- With the rest behind it the same value would be read, and the rest would be left.
    have hlonger := (schema.delimits_decodeFrom schema.canonical).run_append hrun lost
    rw [Endpoint.run_payload hw hrep hr hpayload hsize offset] at hlonger
    injection hlonger with _ hcursor
    injection hcursor with hrest _
    exact absurd (List.append_eq_nil_iff.mp hrest.symm).2 hlost
  | error err after =>
    obtain ⟨cause, rfl⟩ := schema.failsCorrupt_decodeFrom hw schema.canonical
      schema.canonical_canonical _ _ _ hrun
    exact ⟨cause, rfl⟩

namespace Endpoint

variable {app : Application} {e : Endpoint app} {s t : State app}

/-- A message that has lost its end has no header, or it has the header of the whole message and the
payload has lost its end. -/
theorem opening_front {announced : List Fingerprint} {schema : Schema}
    {payload front lost : List UInt8}
    (hmessage : e.message announced schema payload = front ++ lost)
    (hsize : (front ++ lost).length ≤ e.settings.maxMessageSize)
    (hlimit : e.settings.maxMessageSize < UInt64.size) :
    (∃ cause, e.opening front = .error (.corrupt cause)) ∨
      ∃ rest offset, payload = rest ++ lost ∧
        e.opening front = .ok (⟨schema.fingerprint,
          if e.embeds announced schema.fingerprint then some schema.canonicalText else none⟩,
          ⟨rest, offset⟩) := by
  have hfront : ¬ e.settings.maxMessageSize < front.length := by
    rw [List.length_append] at hsize
    omega
  rw [opening, if_neg hfront, Decoder.result]
  cases hrun : Header.decode.run (Cursor.start front) with
  | error err after =>
    obtain ⟨cause, rfl⟩ := Header.failsCorrupt_decode _ _ _ hrun
    exact .inl ⟨cause, rfl⟩
  | ok header after =>
    right
    rw [← hmessage] at hsize
    obtain ⟨offset, hwhole⟩ := run_header_message (Nat.lt_of_le_of_lt hsize hlimit)
    -- A header that is read from the front is read from the whole message as well.
    have hlonger := Header.delimits_decode.run_append hrun lost
    rw [hmessage] at hwhole
    have hsame := hlonger.symm.trans hwhole
    injection hsame with hheader hcursor
    injection hcursor with hrest _
    exact ⟨after.rest, after.offset, hrest.symm, by rw [hheader]⟩

theorem Admits.canonical {schema : Schema} (h : e.Admits schema) : e.Admits schema.canonical :=
  fun n hn => h n ((Schema.mentions_canonical_iff n schema).mp hn)

/-- What is left of a message is corrupt over every store that has the schema of the writer. -/
theorem outcome_front {announced : List Fingerprint} {b : Binding app} {store : SchemaStore}
    {r : Record} {payload front lost : List UInt8} (hbound : e.bound b.typeName = .ok b)
    (hadmits : e.Admits b.schema) (hrep : b.schema.Representable) (hr : r.WellFormed)
    (hpayload : b.schema.encode r = .ok payload)
    (hmessage : e.message announced b.schema payload = front ++ lost) (hlost : lost ≠ [])
    (hsize : (front ++ lost).length ≤ e.settings.maxMessageSize)
    (hlimit : e.settings.maxMessageSize < UInt64.size)
    (hkept : store.get? b.schema.fingerprint = some b.schema.canonical) :
    ∃ cause, e.outcome store front = .error (.corrupt cause) := by
  have hw : b.schema.WellFormed := b.schema.check_eq_ok_iff.mp b.valid
  rcases opening_front hmessage hsize hlimit with ⟨cause, hopening⟩ | ⟨rest, offset, rfl, hopening⟩
  · exact ⟨cause, by rw [outcome, hopening]; rfl⟩
  by_cases hdeep : e.Overburdens announced b.schema
  · -- The text that comes with the message is whole, but it is not read in any message.
    obtain ⟨hcarried, hdepth⟩ := hdeep
    refine ⟨.embeddedSchema .malformed, ?_⟩
    rw [outcome_of_opening hopening, if_pos hcarried, writerSchemaIn_of_carried store hw,
      if_neg (Nat.not_le.mpr hdepth)]
    rfl
  · have hwriter := writerSchemaIn_message hw hkept hdeep
    have hlength : (rest ++ lost).length < UInt64.size := by
      rw [← hmessage, message, List.length_append] at hsize
      omega
    obtain ⟨cause, hread⟩ :=
      Schema.exists_corrupt_of_front hw hrep hr hpayload hlost hlength offset
    have hname : e.bound b.schema.canonical.name = .ok b := by
      rw [Schema.name_canonical]
      exact hbound
    refine ⟨cause, ?_⟩
    rw [outcome_of_writerSchemaIn hopening hwriter,
      received_of_admits hadmits.canonical hname hadmits, hread]
    rfl

/-- **Truncation.** Whatever is left of a message that was written in a state that calls lead to, if
it is not the whole message, is refused as corrupt after any further calls, whether the message
carried its schema or not, and wherever it was cut. -/
theorem Reachable.detects_truncation (h : e.Reachable s) {c : app.Class} {object : app.Object c}
    {message : List UInt8} (hencode : (e.encode c object).run s = .ok message t)
    (hrep : (app.schema c).Representable) (hrecord : (app.toRecord c object).WellFormed)
    (hlimit : e.settings.maxMessageSize < UInt64.size) (calls : List (Call app))
    (hdistinct : (e.run calls t).2.store.Distinguishes (app.schema c))
    {front : List UInt8} (hfront : front <+: message) (hproper : front ≠ message) :
    ∃ cause after, (e.decode front).run (e.run calls t) = .error (.corrupt cause) after := by
  obtain ⟨b, ⟨rfl, hbound⟩, hwrites⟩ := (ends_encode h.invariant c object).of_run_ok hencode
  obtain ⟨payload, hpayload, rfl⟩ := hwrites.message
  obtain ⟨lost, hmessage⟩ := hfront
  have hlost : lost ≠ [] := by
    rintro rfl
    exact hproper (by rw [← hmessage, List.append_nil])
  have hsize := hwrites.size
  rw [← hmessage] at hsize
  -- Further calls keep the invariant and whatever the store has.
  have hadvances := advances_run calls hwrites.advances.invariant
  have hkept := SchemaStore.get?_fingerprint hadvances.invariant.sound
    (hadvances.extend.contains hwrites.stored) hdistinct
  obtain ⟨cause, houtcome⟩ := outcome_front (bound_eq_ok_iff.mpr hbound) hwrites.admits hrep hrecord
    hpayload hmessage.symm hlost hsize hlimit hkept
  have hanswer := (answers_decode hadvances.invariant front).result_eq
  rw [houtcome] at hanswer
  obtain ⟨after, hrun⟩ := exists_run_error hanswer
  exact ⟨cause, after, hrun⟩

end Endpoint

/-- Cut anywhere, also within the text of its schema, the first message of the older mint is refused
by the mint that has sent it, also after it was disposed. -/
theorem detects_truncation_oldCoin :
    ∃ t, (olderMintEndpoint.encode () oldCoin).run Endpoint.start
        = .ok (olderMintEndpoint.message [] plainCoin [0, 6]) t ∧
      ∀ n < (olderMintEndpoint.message [] plainCoin [0, 6]).length, ∃ cause after,
        (olderMintEndpoint.decode ((olderMintEndpoint.message [] plainCoin [0, 6]).take n)).run
          (olderMintEndpoint.run [.dispose] t) = .error (.corrupt cause) after := by
  obtain ⟨t, hencode, hwrites⟩ := @Endpoint.exists_run_encode olderMint olderMintEndpoint
    Endpoint.start olderMintEndpoint.invariant_start ⟨(), rfl⟩ oldCoin [0, 6] rfl (fun _ _ => rfl)
    rfl (length_oldCoinMessage_le [])
  have hrep : (olderMint.schema ()).Representable := by
    simp [olderMint, plainCoin, Application.schema, Schema.Representable, RepresentableFields,
      FieldType.Representable]
  have hrecord : Record.WellFormed oldCoin := by
    simp [oldCoin, Record.WellFormed, WellFormedEntries, Value.WellFormed]
  have hdistinct : (olderMintEndpoint.run [.dispose] t).2.store.Distinguishes
      (olderMint.schema ()) := by
    intro f kept hmem _
    have hstore : (f, kept) ∈ t.2.store.entries := hmem
    -- If writing has stored anything, then it is the schema of coins.
    rcases hwrites.store with hsame | hregistered
    · rw [hsame] at hstore
      cases hstore
    · rw [hregistered] at hstore
      obtain ⟨-, rfl⟩ := Prod.mk.inj (List.mem_singleton.mp hstore)
      exact Schema.canonicalText_canonical _
  refine ⟨t, hencode, fun n hn => ?_⟩
  refine Endpoint.Reachable.detects_truncation ⟨[], rfl⟩ hencode hrep hrecord (by decide) [.dispose]
    hdistinct (List.take_prefix n _) fun hwhole => ?_
  have hlength : ((olderMintEndpoint.message [] plainCoin [0, 6]).take n).length
      = (olderMintEndpoint.message [] plainCoin [0, 6]).length := congrArg List.length hwhole
  rw [List.length_take] at hlength
  omega

end RecordExchange
