import RecordExchange.Proofs.Corruptions

/-!
# Three readers of one type

A value that was written as a type can be read as that type, read as another type that happens to be
the same one, or passed over. All three walk over the same bytes. The first two differ in nothing.
Passing over does not look at the keys of maps, so it alone gets past a key that stands twice;
everything else it takes and refuses as the others do, at the same byte.

- `FieldType.decodeFrom_self`: reading as the same type, by either reader.
- `Decoder.PassesOver`: a decoder walks over the bytes that another one reads.
- `FieldType.passesOver_decodeFrom`, `Schema.passesOver_decodeFrom`: so skipping does, at any depth.
- `FieldType.OccursIn`: the types of a schema.
- `FieldType.readers_agree`: all of it for the types of a checked schema.
-/

namespace RecordExchange

open Decoder

/-! ## Two readers -/

/-- Reading a type as itself is reading it. -/
theorem FieldType.decodeFrom_self (typeName field : String) :
    ∀ t : FieldType, t.decodeFrom typeName field t = t.decode
  | .bool | .int | .long | .float | .double | .string | .bytes | .record _ => rfl
  | .enum symbols => by
    rw [decodeFrom, decode, map_eq_pure_bind]
    -- The symbol that was read is one of the symbols, so the second look at them finds it.
    exact (ensures_symbol symbols).bind_congr fun s hs => if_pos (List.contains_iff_mem.mpr hs)
  | .optional inner => by rw [decodeFrom, decode, inner.decodeFrom_self typeName field]
  | .list item => by rw [decodeFrom, decode, item.decodeFrom_self typeName field]
  | .map item => by rw [decodeFrom, decode, item.decodeFrom_self typeName field]

/-! ## Walking over what is read -/

/-- A failure because of a key that stands twice. -/
def ExchangeError.OfDuplicateKey (e : ExchangeError) : Prop :=
  ∃ key, e = .corrupt (.duplicateKey key)

namespace Decoder

variable {α β γ : Type}

/-- Wherever one decoder ends with a value, the other one ends at the same cursor. Wherever it
fails, the other one fails in the same way at the same cursor, unless a key stands twice. -/
structure PassesOver (skip : Decoder β) (read : Decoder α) : Prop where
  ok : ∀ c a after, read.run c = .ok a after → ∃ b, skip.run c = .ok b after
  error : ∀ c e after, read.run c = .error e after →
    e.OfDuplicateKey ∨ skip.run c = .error e after

theorem passesOver_pure (b : β) (a : α) :
    PassesOver (pure b : Decoder β) (pure a : Decoder α) where
  ok c a after hrun := by
    cases hrun
    exact ⟨b, rfl⟩
  error c e after hrun := by cases hrun

theorem passesOver_duplicateKey (skip : Decoder β) (key : String) :
    PassesOver skip (corrupt (.duplicateKey key) : Decoder α) where
  ok c a after hrun := by cases hrun
  error c e after hrun := by
    cases hrun
    exact .inl ⟨key, rfl⟩

section Rules

variable {skip : Decoder β} {read : Decoder α}

theorem PassesOver.bind {β' α' : Type} {k : β → Decoder β'} {f : α → Decoder α'}
    (h : PassesOver skip read) (hk : ∀ b a, PassesOver (k b) (f a)) :
    PassesOver (skip >>= k) (read >>= f) where
  ok c a' after hrun := by
    obtain ⟨a, between, hread, hnext⟩ := run_bind_eq_ok hrun
    obtain ⟨b, hskip⟩ := h.ok c a between hread
    rw [EStateM.run_bind, hskip]
    exact (hk b a).ok between a' after hnext
  error c e after hrun := by
    rcases run_bind_eq_error hrun with hread | ⟨a, between, hread, hnext⟩
    · refine (h.error c e after hread).imp_right fun hskip => ?_
      rw [EStateM.run_bind, hskip]
    · obtain ⟨b, hskip⟩ := h.ok c a between hread
      rw [EStateM.run_bind, hskip]
      exact (hk b a).error between e after hnext

/-- What both do first may be used by both. -/
theorem passesOver_bind {d : Decoder γ} {P : γ → Prop} {k : γ → Decoder β} {f : γ → Decoder α}
    (hd : d.Ensures P) (hk : ∀ x, P x → PassesOver (k x) (f x)) :
    PassesOver (d >>= k) (d >>= f) where
  ok c a after hrun := by
    obtain ⟨x, between, hfirst, hnext⟩ := run_bind_eq_ok hrun
    rw [EStateM.run_bind, hfirst]
    exact (hk x (hd c x between hfirst)).ok between a after hnext
  error c e after hrun := by
    rcases run_bind_eq_error hrun with hfirst | ⟨x, between, hfirst, hnext⟩
    · right
      rw [EStateM.run_bind, hfirst]
    · rw [EStateM.run_bind, hfirst]
      exact (hk x (hd c x between hfirst)).error between e after hnext

/-- What is made of a value without reading makes no difference. -/
theorem PassesOver.before_pure {α' : Type} {P : α → Prop} {f : α → Decoder α'}
    (h : PassesOver skip read) (hread : read.Ensures P) (hf : ∀ a, P a → ∃ a', f a = pure a') :
    PassesOver skip (read >>= f) where
  ok c a' after hrun := by
    obtain ⟨a, between, hfirst, hnext⟩ := run_bind_eq_ok hrun
    obtain ⟨v, hv⟩ := hf a (hread c a between hfirst)
    rw [hv] at hnext
    cases hnext
    exact h.ok c a after hfirst
  error c e after hrun := by
    rcases run_bind_eq_error hrun with hfirst | ⟨a, between, hfirst, hnext⟩
    · exact h.error c e after hfirst
    · obtain ⟨v, hv⟩ := hf a (hread c a between hfirst)
      rw [hv] at hnext
      cases hnext

theorem PassesOver.map {α' : Type} (h : PassesOver skip read) (f : α → α') :
    PassesOver skip (f <$> read) := by
  rw [map_eq_pure_bind]
  exact h.before_pure (ensures_true read) fun a _ => ⟨f a, rfl⟩

/-- A result may be dropped. -/
theorem PassesOver.drop (h : PassesOver skip read) :
    PassesOver (skip >>= fun _ => pure ()) read := by
  have hdrop := h.bind fun b a => passesOver_pure () a
  rwa [bind_pure] at hdrop

theorem passesOver_self (d : Decoder α) : PassesOver d d where
  ok _ a _ hrun := ⟨a, hrun⟩
  error _ _ _ hrun := .inr hrun

theorem PassesOver.ite {p : Prop} [Decidable p] {skip' : Decoder β} {read' : Decoder α}
    (h : PassesOver skip read) (h' : PassesOver skip' read') :
    PassesOver (if p then skip else skip') (if p then read else read') := by
  split
  · exact h
  · exact h'

theorem PassesOver.times (h : PassesOver skip read) (n : Nat) :
    PassesOver (skip.times n) (read.times n) := by
  induction n with
  | zero => exact passesOver_pure [] []
  | succ n ih =>
    rw [Decoder.times, Decoder.times]
    exact h.bind fun b a => ih.bind fun bs as => passesOver_pure (b :: bs) (a :: as)

/-- The entries of a map are passed over key by key and value by value. Only reading them notices a
key that stands twice. -/
theorem PassesOver.entries {read : Decoder Value} (h : PassesOver skip read) (n : Nat)
    (found : List (String × Value)) :
    PassesOver ((Wire.decodeString >>= fun _ => skip).times n) (Decoder.entries read n found) := by
  induction n generalizing found with
  | zero => exact passesOver_pure [] found
  | succ n ih =>
    rw [Decoder.times, Decoder.entries, bind_assoc]
    refine (passesOver_self _).bind fun _ key => h.bind fun b v => ?_
    by_cases hkey : Entries.hasKey key found = true
    · rw [if_pos hkey]
      exact passesOver_duplicateKey _ key
    · rw [if_neg hkey]
      have hrest := (ih (Entries.insert key v found)).bind fun bs es =>
        passesOver_pure (b :: bs) es
      rwa [bind_pure] at hrest

end Rules

/-! ## Records -/

variable {s : Schema} {wanted : FieldDecoders}

/-- The loop over the values of a record that is read with the schema that it was written with. -/
theorem passesOver_each (hs : s.NamesDistinct)
    (hwanted : ∀ (i : Nat) f, s.fields[i]? = some f → ∃ read, wanted[i]? = some read ∧
      PassesOver f.type.skip (read f.type)) :
    ∀ (order : List Nat) (slots : List (Option Value)), (∀ i ∈ order, i < s.size) →
      PassesOver (each (s.fields.map (·.type.skip)) order)
        (order.foldlM (named s s wanted) slots) := by
  intro order
  induction order with
  | nil => exact fun slots _ => passesOver_pure () slots
  | cons i rest ih =>
    intro slots horder
    obtain ⟨f, hf⟩ : ∃ f, s.fields[i]? = some f :=
      ⟨_, List.getElem?_eq_getElem (horder i List.mem_cons_self)⟩
    obtain ⟨read, hread, hpass⟩ := hwanted i f hf
    -- Each field of the writer is found by its name, so that every round reads a value.
    have hround : named s s wanted slots i
        = (read f.type >>= fun v => pure (slots.set i (some v))) :=
      named_of_some hf (hs.position?_eq hf) hread
    have hstep : (s.fields.map (·.type.skip))[i]? = some f.type.skip := by
      rw [List.getElem?_map, hf, Option.map_some]
    rw [each_cons, List.foldlM_cons, hround, bind_assoc, hstep]
    refine hpass.bind fun _ v => ?_
    exact ih _ fun j hj => horder j (List.mem_cons_of_mem i hj)

/-- A record is passed over value by value. Reading it with its own schema misses no field. -/
theorem passesOver_record (hs : s.NamesDistinct)
    (hwanted : ∀ (i : Nat) f, s.fields[i]? = some f → ∃ read, wanted[i]? = some read ∧
      PassesOver f.type.skip (read f.type)) :
    PassesOver s.skip (record s s wanted) := by
  rw [record_eq_recordBy_named hs, recordBy, if_neg (fun hne => hne rfl), Schema.skip_eq]
  refine passesOver_bind (FieldOrder.ensures_decode s) fun order horder => ?_
  have hempty : (s.fields.map fun _ => (none : Option Value)).length = s.size := by
    rw [List.length_map, Schema.size]
  refine (passesOver_each hs hwanted order _ (lt_size_of_perm_range horder)).before_pure
    (ensures_named_filled order _ hempty) fun filled hloop => ?_
  obtain ⟨entries, hentries⟩ := exists_fillSlots s.name s.fields filled fun p hp => by
    have hf : s.fields[p]? = some s.fields[p] := List.getElem?_eq_getElem hp
    exact hloop.2 p (horder.mem_iff.mpr (List.mem_range.mpr hp)) _ p hf (hs.position?_eq hf)
  exact ⟨Record.ofFields s.name entries, by rw [hentries]; rfl⟩

end Decoder

/-! ## All types -/

mutual

/-- A value is passed over as it is read. -/
theorem FieldType.passesOver_decodeFrom (typeName field : String) : ∀ t : FieldType,
    t.WellFormed → PassesOver t.skip (t.decodeFrom typeName field t)
  | .bool, _ => ((passesOver_self _).map _).drop
  | .int, _ => ((passesOver_self _).map _).drop
  | .long, _ => ((passesOver_self _).map _).drop
  | .float, _ => (((passesOver_self _).map _).map _).drop
  | .double, _ => (((passesOver_self _).map _).map _).drop
  | .string, _ => ((passesOver_self _).map _).drop
  | .bytes, _ => ((passesOver_self _).map _).drop
  | .enum symbols, _ => by
    rw [FieldType.decodeFrom_self, FieldType.decode, FieldType.skip]
    exact ((passesOver_self _).map _).drop
  | .optional inner, h => by
    rw [FieldType.decodeFrom, FieldType.skip]
    -- Branch or count are read alike, and decide how both readers go on.
    refine passesOver_bind (ensures_true _) fun present _ => ?_
    exact .ite (inner.passesOver_decodeFrom typeName field h) (passesOver_pure () Value.null)
  | .list item, h => by
    rw [FieldType.decodeFrom, FieldType.skip]
    refine passesOver_bind (ensures_true _) fun n _ => ?_
    exact (((item.passesOver_decodeFrom typeName field h).times n).map _).drop
  | .map item, h => by
    rw [FieldType.decodeFrom, FieldType.skip]
    refine passesOver_bind (ensures_true _) fun n _ => ?_
    exact (((item.passesOver_decodeFrom typeName field h).entries n []).map _).drop
  | .record s, h => by
    rw [FieldType.decodeFrom, FieldType.skip]
    exact (s.passesOver_decodeFrom h).map _
termination_by structural t => t

/-- A record is passed over as it is read with its own schema. -/
theorem Schema.passesOver_decodeFrom : ∀ s : Schema, s.WellFormed →
    PassesOver s.skip (s.decodeFrom s)
  | ⟨name, fields⟩, h => by
    refine passesOver_record h.namesDistinct fun i f hf => ?_
    refine ⟨f.type.decodeFrom name f.name, ?_, ?_⟩
    · rw [fieldDecoders_eq_map, List.getElem?_map, hf, Option.map_some]
    · exact passesOver_decodeFrom_of_mem name fields h.2.2 f (List.mem_of_getElem? hf)
termination_by structural s => s

theorem passesOver_decodeFrom_of_mem (typeName : String) : ∀ fields : List Field,
    WellFormedFields fields → ∀ f ∈ fields,
      PassesOver f.type.skip (f.type.decodeFrom typeName f.name f.type)
  | [], _, _, hf => absurd hf List.not_mem_nil
  | ⟨name, type, dflt⟩ :: rest, h, f, hf => by
    rcases List.mem_cons.mp hf with rfl | hf
    · exact type.passesOver_decodeFrom typeName name h.1.2.1
    · exact passesOver_decodeFrom_of_mem typeName rest h.2 f hf
termination_by structural fields => fields

end

/-! ## The types of a schema -/

/-- A type occurs in a schema as the type of a field, as what an optional type, a list or a map is
made of, or in a record type that does. -/
inductive FieldType.OccursIn (s : Schema) : FieldType → Prop
  | field {f : Field} (hf : f ∈ s.fields) : OccursIn s f.type
  | optional {t : FieldType} (h : OccursIn s (.optional t)) : OccursIn s t
  | list {t : FieldType} (h : OccursIn s (.list t)) : OccursIn s t
  | map {t : FieldType} (h : OccursIn s (.map t)) : OccursIn s t
  | nested {r : Schema} {f : Field} (h : OccursIn s (.record r)) (hf : f ∈ r.fields) :
    OccursIn s f.type

/-- What occurs in a well-formed schema is well formed. -/
theorem FieldType.OccursIn.wellFormed {s : Schema} (hs : s.WellFormed) {t : FieldType}
    (h : t.OccursIn s) : t.WellFormed := by
  induction h with
  | field hf => exact ((s.wellFormed_iff.mp hs).2.2 _ hf).2.1
  | optional _ ih => exact ih
  | list _ ih => exact ih
  | map _ ih => exact ih
  | nested _ hf ih => exact ((Schema.wellFormed_iff _).mp ih).2.2 _ hf |>.2.1

/-- **The readers of a type agree.** Take a type that occurs in a checked schema, and any bytes,
wherever they start. Reading it as itself by way of conversion is reading it, whatever field is named
in failures. Where this succeeds, passing over the value ends at the same cursor; where it fails,
passing over fails in the same way at the same cursor, unless a key stands twice in a map. And
whichever of the three fails, it is because the bytes are no message. -/
theorem FieldType.readers_agree {s : Schema} (hs : s.check = .ok ()) {t : FieldType}
    (ht : t.OccursIn s) (typeName field : String) (c : Cursor) :
    (t.decodeFrom typeName field t).run c = t.decode.run c ∧
    (match t.decode.run c with
      | .ok _ after => t.skip.run c = .ok () after
      | .error e after => e.OfDuplicateKey ∨ t.skip.run c = .error e after) ∧
    (∀ e after, t.decode.run c = .error e after → ∃ cause, e = .corrupt cause) ∧
    ∀ e after, t.skip.run c = .error e after → ∃ cause, e = .corrupt cause := by
  have hwell := ht.wellFormed (s.check_eq_ok_iff.mp hs)
  have hself := t.decodeFrom_self typeName field
  have hpass := t.passesOver_decodeFrom typeName field hwell
  have hcorrupt := t.failsCorrupt_decodeFrom typeName field hwell t rfl
  rw [hself] at hpass hcorrupt
  refine ⟨by rw [hself], ?_, hcorrupt c, t.failsCorrupt_skip c⟩
  cases hread : t.decode.run c with
  | ok v after =>
    obtain ⟨_, hskip⟩ := hpass.ok c v after hread
    exact hskip
  | error e after => exact hpass.error c e after hread

/-- A box with a label on some of its sides. -/
def labelledBox : Schema :=
  ⟨"Box", [⟨"sides", .list (.map .bool), none⟩]⟩

/-- A side with a label that is neither there nor missing is refused by all three readers at the same
byte. One on which a label stands twice is passed over. -/
theorem readers_agree_labelledBox :
    let side := FieldType.map .bool
    (side.decodeFrom "Box" "sides" side).run ⟨[1, 1, 97, 7, 9], 3⟩
        = .error (.corrupt (.badBool 7 6)) ⟨[9], 7⟩ ∧
      side.skip.run ⟨[1, 1, 97, 7, 9], 3⟩ = .error (.corrupt (.badBool 7 6)) ⟨[9], 7⟩ ∧
      side.decode.run ⟨[2, 1, 97, 1, 1, 97, 0, 9], 3⟩
        = .error (.corrupt (.duplicateKey "a")) ⟨[9], 10⟩ ∧
      side.skip.run ⟨[2, 1, 97, 1, 1, 97, 0, 9], 3⟩ = .ok () ⟨[9], 10⟩ := by
  intro side
  have hsides : (FieldType.list side).OccursIn labelledBox :=
    .field (f := ⟨"sides", .list side, none⟩) List.mem_cons_self
  have hside : side.OccursIn labelledBox := .list hsides
  have hbad : side.decode.run ⟨[1, 1, 97, 7, 9], 3⟩
      = .error (.corrupt (.badBool 7 6)) ⟨[9], 7⟩ := by rfl
  obtain ⟨hself, hskip, -, -⟩ :=
    FieldType.readers_agree rfl hside "Box" "sides" ⟨[1, 1, 97, 7, 9], 3⟩
  rw [hbad] at hself hskip
  refine ⟨hself, hskip.resolve_left ?_, rfl, rfl⟩
  rintro ⟨key, hkey⟩
  cases hkey

end RecordExchange
