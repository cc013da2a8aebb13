import RecordExchange.Proofs.SelfDelimiting
import RecordExchange.Proofs.Spelling

/-!
# What is read weighs no more than its bytes

A few bytes could say that a great many values follow, and a reader that believed them would be kept
busy or would run out of memory. It does not happen: every value takes a byte at least, also a record
without fields, a list without items and an optional value that is not there. So the parts of a value
that is read are no more than its bytes, and a loop ends after no more rounds than it has read bytes.

- `Value.weight`: the nodes of a value and the bytes of its texts, byte strings and keys.
- `FieldType.consumes_decodeFrom`, `Schema.consumes_decodeFrom`: what is read weighs no more than the
  bytes it was read from.
- `Decoder.Paced`: the rounds of a loop are no more than the bytes that it has read, whether it ends or
  fails in one of them.
- `FieldType.weight_le_bytes`: values, what is passed over, and all loops.
-/

namespace RecordExchange

/-! ## Weights -/

mutual

/-- The weight of a value: one for itself, the bytes of a text or a byte string, and the weight of what
it is made of. A symbol has no text of its own, it is one of those that its type declares. -/
def Value.weight : Value → Nat
  | .null | .bool _ | .int _ | .long _ | .float _ | .double _ | .symbol _ => 1
  | .string text => (Utf8.encode text).length + 1
  | .bytes content => content.length + 1
  | .list items => weightOfItems items + 1
  | .map entries => weightOfEntries entries + 1
  | .record r => r.weight + 1

/-- The weight of the values of a record. The names are those of its type. -/
def Record.weight : Record → Nat
  | ⟨_, fields⟩ => weightOfFields fields

/-- The weight of the items of a list. -/
def weightOfItems : List Value → Nat
  | [] => 0
  | v :: rest => v.weight + weightOfItems rest

/-- The weight of the entries of a map, each with the bytes of its key. -/
def weightOfEntries : List (String × Value) → Nat
  | [] => 0
  | (key, v) :: rest => (Utf8.encode key).length + v.weight + weightOfEntries rest

/-- The weight of named values without the names. -/
def weightOfFields : List (String × Value) → Nat
  | [] => 0
  | (_, v) :: rest => v.weight + weightOfFields rest

end

/-! ## Weights of what is put together -/

/-- An insertion adds a key and a value at most. -/
theorem weightOfEntries_insert_le (key : String) (v : Value) : ∀ entries : List (String × Value),
    weightOfEntries (Entries.insert key v entries)
      ≤ weightOfEntries entries + (Utf8.encode key).length + v.weight
  | [] => by
    simp only [Entries.insert, weightOfEntries]
    omega
  | (k, u) :: rest => by
    have ih := weightOfEntries_insert_le key v rest
    rw [Entries.insert]
    by_cases hlt : key < k
    · rw [if_pos hlt, weightOfEntries]
      omega
    · rw [if_neg hlt]
      by_cases heq : key = k
      · rw [if_pos heq, weightOfEntries, weightOfEntries]
        omega
      · rw [if_neg heq, weightOfEntries, weightOfEntries]
        omega

theorem weightOfFields_assign_le (name : String) (v : Value) : ∀ fields : List (String × Value),
    weightOfFields (Record.assign name v fields) ≤ weightOfFields fields + v.weight
  | [] => by
    simp only [Record.assign, weightOfFields]
    omega
  | (n, u) :: rest => by
    have ih := weightOfFields_assign_le name v rest
    rw [Record.assign]
    by_cases heq : n = name
    · rw [if_pos heq, weightOfFields, weightOfFields]
      omega
    · rw [if_neg heq, weightOfFields, weightOfFields]
      omega

/-- Of two values for one field only the later one is in the record. -/
theorem Record.weight_ofFields_le (typeName : String) (fields : List (String × Value)) :
    (Record.ofFields typeName fields).weight ≤ weightOfFields fields := by
  -- By the fields, whatever record they are set in.
  have hfold : ∀ (fields : List (String × Value)) (r : Record),
      (fields.foldl (fun r f => r.set f.1 f.2) r).weight ≤ r.weight + weightOfFields fields := by
    intro fields
    induction fields with
    | nil => exact fun r => Nat.le_add_right _ _
    | cons f rest ih =>
      intro r
      have hset : (r.set f.1 f.2).weight ≤ r.weight + f.2.weight := by
        obtain ⟨typeName, before⟩ := r
        exact weightOfFields_assign_le f.1 f.2 before
      have hrest := ih (r.set f.1 f.2)
      rw [List.foldl_cons, weightOfFields]
      omega
  have hempty := hfold fields (Record.empty typeName)
  have hzero : (Record.empty typeName).weight = 0 := rfl
  rw [hzero, Nat.zero_add] at hempty
  exact hempty

/-- The weight of the values in slots. -/
def weightOfSlots : List (Option Value) → Nat
  | [] => 0
  | slot :: rest => slot.elim 0 Value.weight + weightOfSlots rest

theorem weightOfSlots_empty (fields : List Field) :
    weightOfSlots (fields.map fun _ => none) = 0 := by
  induction fields with
  | nil => rfl
  | cons f rest ih =>
    rw [List.map_cons, weightOfSlots, ih]
    rfl

theorem weightOfSlots_set_le (v : Value) : ∀ (slots : List (Option Value)) (p : Nat),
    weightOfSlots (slots.set p (some v)) ≤ weightOfSlots slots + v.weight
  | [], _ => Nat.zero_le _
  | slot :: rest, 0 => by
    have hv : (some v).elim 0 Value.weight = v.weight := rfl
    rw [List.set_cons_zero, weightOfSlots, weightOfSlots, hv]
    omega
  | slot :: rest, p + 1 => by
    have ih := weightOfSlots_set_le v rest p
    rw [List.set_cons_succ, weightOfSlots, weightOfSlots]
    omega

/-- Where all slots hold a value no default is filled in, so that nothing is added. -/
theorem weightOfFields_fillSlots_le {typeName : String} : ∀ {fields : List Field}
    {slots : List (Option Value)} {entries : List (String × Value)},
      fillSlots typeName fields slots = .ok entries → (∀ p < fields.length, Filled slots p) →
        weightOfFields entries ≤ weightOfSlots slots
  | [], _, _, hfill, _ => by
    cases hfill
    exact Nat.zero_le _
  | _ :: _, [], _, hfill, _ => by
    cases hfill
    exact Nat.zero_le _
  | f :: fields, slot :: slots, entries, hfill, hfilled => by
    -- The slot in front is filled, so that its default is not asked for.
    obtain ⟨v, hv⟩ := hfilled 0 (Nat.succ_pos _)
    obtain rfl : slot = some v := by simpa using hv
    rw [fillSlots, Option.some_or] at hfill
    obtain ⟨others, hothers, rfl⟩ := except_map_eq_ok_iff.mp hfill
    have hrest := weightOfFields_fillSlots_le hothers fun p hp => by
      obtain ⟨u, hu⟩ := hfilled (p + 1) (Nat.succ_lt_succ hp)
      exact ⟨u, by rwa [List.getElem?_cons_succ] at hu⟩
    have hslot : (some v).elim 0 Value.weight = v.weight := rfl
    rw [weightOfFields, weightOfSlots, hslot]
    omega

/-! ## Parts of payloads -/

namespace Decoder

/-- What is delimited takes so many bytes at least. -/
theorem Delimits.consumes {α : Type} {d : Decoder α} {least : Nat} (h : d.Delimits least) :
    d.Consumes fun _ bytes => least ≤ bytes.length := by
  intro c a after hrun
  obtain ⟨bytes, hlength, hrest, hd⟩ := h c a after hrun
  exact ⟨bytes, hlength, hrest, offset_eq_of_run hrun hrest hd⟩

/-- A decoder of values that weigh no more than the bytes they are read from. -/
abbrev Weighs (d : Decoder Value) : Prop :=
  d.Consumes fun v bytes => v.weight ≤ bytes.length

/-- A value that is made of a part without texts weighs no more than any part that takes a byte. -/
theorem Delimits.weighs {α : Type} {d : Decoder α} (h : d.Delimits 1) {f : α → Value}
    (hf : ∀ a, (f a).weight = 1) : (f <$> d).Weighs :=
  h.consumes.map fun a bytes hbytes => by rwa [hf a]

theorem Weighs.items {d : Decoder Value} (h : d.Weighs) (n : Nat) :
    (d.times n).Consumes fun vs bytes => weightOfItems vs ≤ bytes.length := by
  have hnil : weightOfItems [] ≤ ([] : List UInt8).length := Nat.le_refl 0
  refine (h.times hnil (fun v first vs others hv hvs => ?_) n).mono fun vs bytes hvs => hvs.2
  rw [weightOfItems, List.length_append]
  exact Nat.add_le_add hv hvs

/-- The weight of entries that are read is that of those found before, and of the bytes read. -/
theorem Weighs.entries {d : Decoder Value} (h : d.Weighs) (n : Nat)
    (found : List (String × Value)) : (entries d n found).Consumes fun es bytes =>
      weightOfEntries es ≤ weightOfEntries found + bytes.length := by
  induction n generalizing found with
  | zero => exact consumes_pure (Nat.le_refl _)
  | succ n ih =>
    rw [Decoder.entries]
    refine Wire.consumes_decodeString.bind fun key first hkey => h.bind fun v second hv => ?_
    refine consumes_ite (fun _ => consumes_corrupt _) fun _ => ?_
    refine (ih (Entries.insert key v found)).mono fun es others hothers => ?_
    have hinsert := weightOfEntries_insert_le key v found
    -- A key weighs as much as its bytes, which are among those read.
    have hfirst : (Utf8.encode key).length ≤ first.length := by
      rw [hkey.2, Wire.encodeString, Wire.encodeBytes, List.length_append]
      omega
    rw [List.length_append, List.length_append]
    omega

/-- Each field has a reader, which reads a value of its type that weighs no more than its bytes. -/
def WeighingDecoders (s : Schema) (wanted : FieldDecoders) : Prop :=
  ∀ (i : Nat) f, s.fields[i]? = some f → ∃ read, wanted[i]? = some read ∧ (read f.type).Weighs

section Slots

variable {s : Schema} {wanted : FieldDecoders}

/-- The value of one field adds to the slots no more than the bytes it is read from. -/
theorem WeighingDecoders.consumes_named (h : WeighingDecoders s wanted) (hs : s.NamesDistinct)
    (slots : List (Option Value)) (i : Nat) : (named s s wanted slots i).Consumes fun next bytes =>
      weightOfSlots next ≤ weightOfSlots slots + bytes.length := by
  cases hf : s.fields[i]? with
  | none =>
    rw [named, hf]
    exact consumes_corrupt _
  | some f =>
    obtain ⟨read, hread, hweighs⟩ := h i f hf
    rw [named_of_some hf (hs.position?_eq hf) hread]
    refine hweighs.bind fun v first hv => consumes_pure ?_
    have hset := weightOfSlots_set_le v slots i
    rw [List.append_nil]
    omega

/-- The loop over the values of a record puts into the slots no more than it has read. -/
theorem WeighingDecoders.consumes_slots (h : WeighingDecoders s wanted) (hs : s.NamesDistinct)
    (order : List Nat) :
    (order.foldlM (named s s wanted) (s.fields.map fun _ => none)).Consumes fun slots bytes =>
      weightOfSlots slots ≤ bytes.length := by
  have hround : ∀ (slots : List (Option Value)) (sofar : List UInt8) (i : Nat),
      weightOfSlots slots ≤ sofar.length → (named s s wanted slots i).Consumes fun next bytes =>
        weightOfSlots next ≤ (sofar ++ bytes).length := by
    intro slots sofar i hslots
    refine (h.consumes_named hs slots i).mono fun next bytes hnext => ?_
    rw [List.length_append]
    omega
  have hempty := Nat.le_of_eq (weightOfSlots_empty s.fields)
  exact consumes_foldlM (R := fun slots bytes => weightOfSlots slots ≤ bytes.length) hround order _ []
    hempty

/-- Each field has a slot of its own, so that the record, which needs no default, weighs no more than
its values. Its order takes a byte at least. -/
theorem WeighingDecoders.consumes_record (h : WeighingDecoders s wanted) (hs : s.NamesDistinct) :
    (record s s wanted).Consumes fun r bytes => r.weight + 1 ≤ bytes.length := by
  rw [record_eq_recordBy_named hs, recordBy, if_neg (fun hne => hne rfl)]
  have horder := (FieldOrder.delimits_decode s).consumes.and_ensures (FieldOrder.ensures_decode s)
  refine horder.bind fun order first hread => ?_
  obtain ⟨hfirst, hperm⟩ := hread
  have hempty : (s.fields.map fun _ => (none : Option Value)).length = s.size := by
    rw [List.length_map, Schema.size]
  have hslots := (h.consumes_slots hs order).and_ensures (ensures_named_filled order _ hempty)
  refine hslots.bind fun filled second hfound => ?_
  obtain ⟨hweight, -, hnamed⟩ := hfound
  have hfilling : (ofSchemaResult (fillSlots s.name s.fields filled)).Consumes fun entries bytes =>
      bytes = [] ∧ fillSlots s.name s.fields filled = .ok entries :=
    consumes_ofSchemaResult fun entries h => ⟨rfl, h⟩
  refine hfilling.bind fun entries third hthird => consumes_pure ?_
  obtain ⟨rfl, hentries⟩ := hthird
  -- The order names every field, so that all slots are filled and no default is needed.
  have hfilled : ∀ p < s.fields.length, Filled filled p := fun p hp =>
    hnamed p (hperm.mem_iff.mpr (List.mem_range.mpr hp)) _ p (List.getElem?_eq_getElem hp)
      (hs.position?_eq (List.getElem?_eq_getElem hp))
  have hfields := weightOfFields_fillSlots_le hentries hfilled
  have hrecord := Record.weight_ofFields_le s.name entries
  rw [List.append_nil, List.append_nil, List.length_append]
  omega

end Slots

end Decoder

open Decoder

/-! ## Values of all types -/

mutual

/-- A value that is read weighs no more than its bytes. -/
theorem FieldType.consumes_decodeFrom (typeName field : String) : ∀ t : FieldType, t.WellFormed →
    (t.decodeFrom typeName field t).Weighs
  | .bool, _ => Wire.delimits_decodeBool.weighs fun _ => rfl
  | .int, _ => Wire.delimits_decodeInt.weighs fun _ => rfl
  | .long, _ => Wire.delimits_decodeLong.weighs fun _ => rfl
  | .float, _ => (Wire.delimits_decodeFloat.mono (by decide)).weighs fun _ => rfl
  | .double, _ => (Wire.delimits_decodeDouble.mono (by decide)).weighs fun _ => rfl
  | .string, _ => by
    refine Wire.consumes_decodeString.map fun s bytes hbytes => ?_
    -- The count takes a byte, which stands for the value itself.
    have hcount := Wire.encodeNat_pos (Utf8.encode s).length
    rw [hbytes.2, Value.weight, Wire.encodeString, Wire.encodeBytes, Nat.add_comm, List.length_append]
    exact Nat.add_le_add_right hcount _
  | .bytes, _ => by
    refine Wire.consumes_decodeBytes.map fun content bytes hbytes => ?_
    have hcount := Wire.encodeNat_pos content.length
    rw [hbytes.2, Value.weight, Wire.encodeBytes, Nat.add_comm, List.length_append]
    exact Nat.add_le_add_right hcount _
  | .enum symbols, _ => by
    rw [FieldType.decodeFrom_self, FieldType.decode]
    exact (delimits_symbol symbols).weighs fun _ => rfl
  | .optional inner, h => by
    rw [FieldType.decodeFrom]
    refine delimits_branch.consumes.bind fun present first hfirst => consumes_ite (fun _ => ?_)
      fun _ => consumes_pure ?_
    · refine (inner.consumes_decodeFrom typeName field h).mono fun v bytes hv => ?_
      rw [List.length_append]
      omega
    · rw [List.append_nil]
      exact hfirst
  | .list item, h => by
    have hitem := item.consumes_decodeFrom typeName field h
    rw [FieldType.decodeFrom]
    refine Wire.consumes_decodeLength_pos.bind fun n first hfirst =>
      (hitem.items n).map fun vs bytes hvs => ?_
    rw [Value.weight, List.length_append]
    omega
  | .map item, h => by
    have hitem := item.consumes_decodeFrom typeName field h
    rw [FieldType.decodeFrom]
    refine Wire.consumes_decodeLength_pos.bind fun n first hfirst =>
      (hitem.entries n []).map fun es bytes hes => ?_
    have hnone : weightOfEntries [] = 0 := rfl
    rw [Value.weight, List.length_append]
    omega
  | .record s, h => by
    rw [FieldType.decodeFrom]
    refine (s.consumes_decodeFrom h).map fun r bytes hr => ?_
    rw [Value.weight]
    exact hr
termination_by structural t => t

/-- A record that is read weighs no more than its bytes, with one for itself. -/
theorem Schema.consumes_decodeFrom : ∀ s : Schema, s.WellFormed →
    (s.decodeFrom s).Consumes fun r bytes => r.weight + 1 ≤ bytes.length
  | ⟨name, fields⟩, h => by
    refine WeighingDecoders.consumes_record (fun i f hf => ?_) h.namesDistinct
    refine ⟨f.type.decodeFrom name f.name, ?_, ?_⟩
    · rw [fieldDecoders_eq_map, List.getElem?_map, hf, Option.map_some]
    · exact consumes_decodeFrom_of_mem name fields h.2.2 f (List.mem_of_getElem? hf)
termination_by structural s => s

theorem consumes_decodeFrom_of_mem (typeName : String) : ∀ fields : List Field,
    WellFormedFields fields → ∀ f ∈ fields, (f.type.decodeFrom typeName f.name f.type).Weighs
  | [], _, _, hf => absurd hf List.not_mem_nil
  | ⟨name, type, dflt⟩ :: rest, h, f, hf => by
    rcases List.mem_cons.mp hf with rfl | hf
    · exact type.consumes_decodeFrom typeName name h.1.2.1
    · exact consumes_decodeFrom_of_mem typeName rest h.2 f hf
termination_by structural fields => fields

end

/-! ## Loops -/

namespace Decoder

variable {α : Type}

/-- A loop makes no more rounds than it reads bytes. What it does in `n` rounds is `loop n`. -/
structure Paced (loop : Nat → Decoder α) : Prop where
  /-- When all rounds succeed they have read as many bytes at least. -/
  done {n : Nat} {c after : Cursor} {a : α} : (loop n).run c = .ok a after →
    n + after.rest.length ≤ c.rest.length
  /-- When one round fails, those before it have read as many bytes at least, and the loop stops there
  however many rounds it was meant to make. -/
  stopped {n : Nat} {c after : Cursor} {e : ExchangeError} : (loop n).run c = .error e after →
    ∃ k < n, (∃ a between, (loop k).run c = .ok a between ∧
        k + between.rest.length ≤ c.rest.length) ∧
      ∀ m, k < m → (loop m).run c = .error e after

theorem Delimits.le_length {d : Decoder α} {least : Nat} (h : d.Delimits least) {c after : Cursor}
    {a : α} (hrun : d.run c = .ok a after) : least + after.rest.length ≤ c.rest.length := by
  obtain ⟨bytes, hlength, hrest, -⟩ := h c a after hrun
  rw [hrest, List.length_append]
  exact Nat.add_le_add_right hlength _

section Rounds

variable {σ τ : Type} {loop : Nat → σ → Decoder α} {round : σ → Decoder τ} (next : τ → σ)
  {collect : τ → α → α}

/-- A loop that fails does so in one of its rounds, and stops there. The induction is on the rounds: the
loop that is left after one of them starts with another state, and fails in one of its own. -/
theorem run_rounds_error (hzero : ∀ s c, ∃ a, (loop 0 s).run c = .ok a c)
    (hsucc : ∀ n s, loop (n + 1) s
      = round s >>= fun t => loop n (next t) >>= fun a => pure (collect t a)) :
    ∀ (n : Nat) (s : σ) (c : Cursor) (e : ExchangeError) (after : Cursor),
      (loop n s).run c = .error e after → ∃ k < n, (∃ a between, (loop k s).run c = .ok a between) ∧
        ∀ m, k < m → (loop m s).run c = .error e after := by
  intro n
  induction n with
  | zero =>
    intro s c e after hrun
    obtain ⟨a, ha⟩ := hzero s c
    rw [ha] at hrun
    cases hrun
  | succ n ih =>
    intro s c e after hrun
    rw [hsucc] at hrun
    rcases run_bind_eq_error hrun with hround | ⟨t, between, hround, hothers⟩
    -- The first round fails, whatever would follow it.
    · refine ⟨0, Nat.succ_pos n, ?_, fun m hm => ?_⟩
      · obtain ⟨a, ha⟩ := hzero s c
        exact ⟨a, c, ha⟩
      · obtain ⟨m, rfl⟩ := Nat.exists_eq_succ_of_ne_zero (Nat.ne_of_gt hm)
        rw [hsucc, EStateM.run_bind, hround]
    · rcases run_bind_eq_error hothers with hleft | ⟨a, stop, -, hpure⟩
      -- The rounds behind the first one fail, in one that counts one more from here.
      · obtain ⟨k, hk, ⟨a, stop, hdone⟩, hstops⟩ := ih (next t) between e after hleft
        refine ⟨k + 1, Nat.succ_lt_succ hk, ⟨collect t a, stop, ?_⟩, fun m hm => ?_⟩
        · rw [hsucc, EStateM.run_bind, hround]
          show EStateM.run (loop k (next t) >>= _) between = _
          rw [EStateM.run_bind, hdone]
          rfl
        · obtain ⟨m, rfl⟩ := Nat.exists_eq_succ_of_ne_zero (Nat.ne_of_gt (Nat.zero_lt_of_lt hm))
          rw [hsucc, EStateM.run_bind, hround]
          show EStateM.run (loop m (next t) >>= _) between = _
          rw [EStateM.run_bind, hstops m (Nat.lt_of_succ_lt_succ hm)]
      · cases hpure

/-- A loop whose rounds read a byte each makes no more rounds than it reads bytes. -/
theorem paced_of_rounds (hzero : ∀ s c, ∃ a, (loop 0 s).run c = .ok a c)
    (hsucc : ∀ n s, loop (n + 1) s
      = round s >>= fun t => loop n (next t) >>= fun a => pure (collect t a))
    (hreads : ∀ n s, (loop n s).Delimits n) (s : σ) : Paced fun n => loop n s where
  done hrun := (hreads _ s).le_length hrun
  stopped {n c after e} hrun := by
    obtain ⟨k, hk, ⟨a, between, hdone⟩, hstops⟩ := run_rounds_error next hzero hsucc n s c e after hrun
    exact ⟨k, hk, ⟨a, between, hdone, (hreads k s).le_length hdone⟩, hstops⟩

end Rounds

theorem Delimits.paced_times {d : Decoder α} (h : d.Delimits 1) : Paced d.times := by
  -- the rounds of this loop have no state
  let loop (n : Nat) (_ : Unit) : Decoder (List α) := d.times n
  have hsucc : ∀ n s, loop (n + 1) s = d >>= fun a => loop n () >>= fun l => pure (a :: l) :=
    fun _ _ => rfl
  exact paced_of_rounds (fun _ => ()) (fun _ _ => ⟨[], rfl⟩) hsucc (fun n _ => h.times n) ()

theorem Delimits.paced_entries {d : Decoder Value} (h : d.Delimits 1)
    (found : List (String × Value)) : Paced fun n => Decoder.entries d n found := by
  have hsucc : ∀ (n : Nat) (found : List (String × Value)), Decoder.entries d (n + 1) found
      = (Wire.decodeString >>= fun key => d >>= fun v =>
          if Entries.hasKey key found then corrupt (.duplicateKey key)
          else pure (Entries.insert key v found)) >>= fun next =>
        Decoder.entries d n next >>= fun es => pure es := by
    intro n found
    rw [Decoder.entries, bind_assoc]
    refine congrArg _ (funext fun key => ?_)
    rw [bind_assoc]
    refine congrArg _ (funext fun v => ?_)
    by_cases hkey : Entries.hasKey key found = true
    · rw [if_pos hkey, if_pos hkey]
      rfl
    · rw [if_neg hkey, if_neg hkey, pure_bind, bind_pure]
  exact paced_of_rounds id (fun found c => ⟨found, rfl⟩) hsucc (fun n found => h.entries n found) found

end Decoder

/-- **No amplification.** Take a type that occurs in a checked schema, any input and any position in it.
A value of the type that is read there takes at least one byte and weighs no more than the bytes it
takes. Passing over a value takes at least one byte as well. So the loops over the items of a list and
over the entries of a map, of whatever count, make no more rounds than they read bytes, be it to read
them as they are, as another type, or to pass over them. -/
theorem FieldType.weight_le_bytes {s : Schema} (hs : s.check = .ok ()) {t : FieldType}
    (ht : t.OccursIn s) (input : List UInt8) (p : Nat) :
    (∀ v after, t.decode.run (.within input p) = .ok v after → ∃ n, p < n ∧ n ≤ input.length ∧
      after = .within input n ∧ v.weight ≤ n - p) ∧
    (∀ after, t.skip.run (.within input p) = .ok () after → ∃ n, p < n ∧ n ≤ input.length ∧
      after = .within input n) ∧
    Paced t.decode.times ∧ (Paced fun n => entries t.decode n []) ∧
    (∀ wanted typeName field, let converted := FieldType.decodeFrom typeName field wanted t
      Paced converted.times ∧ Paced fun n => entries converted n []) ∧
    Paced t.skip.times ∧ Paced (Wire.decodeString >>= fun _ => t.skip).times := by
  have hwell := ht.wellFormed (s.check_eq_ok_iff.mp hs)
  have hentry := Wire.delimits_decodeString.bind fun _ => t.delimits_skip.mono (Nat.zero_le 1)
  refine ⟨fun v after hrun => ?_, fun after hrun => t.delimits_skip.selfDelimiting.advances hrun,
    t.delimits_decode.paced_times, t.delimits_decode.paced_entries [],
    fun wanted typeName field => ?_, t.delimits_skip.paced_times, hentry.paced_times⟩
  · obtain ⟨n, hlt, hle, rfl⟩ := t.delimits_decode.selfDelimiting.advances hrun
    refine ⟨n, hlt, hle, rfl, ?_⟩
    -- The names are those of failures only, so that any will do.
    have hweighs := t.consumes_decodeFrom "" "" hwell
    rw [t.decodeFrom_self "" ""] at hweighs
    obtain ⟨bytes, hweight, -, hoffset⟩ := hweighs _ v _ hrun
    have hn : n = p + bytes.length := hoffset
    omega
  · have hconverted := wanted.delimits_decodeFrom typeName field t
    exact ⟨hconverted.paced_times, hconverted.paced_entries []⟩

/-- Sides without labels take a byte each, and so many nodes: a box of three weighs as much as its bytes.
Where a hundred are announced and the third one is cut short, the loop stops there. -/
theorem weight_le_bytes_labelledBox :
    let side := FieldType.map .bool
    labelledBox.check = .ok () ∧
    (FieldType.list side).decode.run (.within [9, 3, 0, 0, 0, 9] 1)
      = .ok (.list [.map [], .map [], .map []]) (.within [9, 3, 0, 0, 0, 9] 5) ∧
    (Value.list [.map [], .map [], .map []]).weight = 4 ∧
    (Value.list [.map [], .map [], .map []]).weight ≤ 5 - 1 ∧
    (side.decode.times 100).run ⟨[0, 0, 1], 3⟩
      = .error (.corrupt (.lengthTooLarge 1 5 0)) ⟨[], 6⟩ ∧
    ∃ k < 100, (∃ a between, (side.decode.times k).run ⟨[0, 0, 1], 3⟩ = .ok a between ∧
        k + between.rest.length ≤ 3) ∧
      ∀ m, k < m → (side.decode.times m).run ⟨[0, 0, 1], 3⟩
        = .error (.corrupt (.lengthTooLarge 1 5 0)) ⟨[], 6⟩ := by
  intro side
  have hsides : (FieldType.list side).OccursIn labelledBox :=
    .field (f := ⟨"sides", .list side, none⟩) List.mem_cons_self
  have hread : (FieldType.list side).decode.run (.within [9, 3, 0, 0, 0, 9] 1)
      = .ok (.list [.map [], .map [], .map []]) (.within [9, 3, 0, 0, 0, 9] 5) := rfl
  have hcut : (side.decode.times 100).run ⟨[0, 0, 1], 3⟩
      = .error (.corrupt (.lengthTooLarge 1 5 0)) ⟨[], 6⟩ := rfl
  obtain ⟨hvalue, -⟩ := FieldType.weight_le_bytes rfl hsides [9, 3, 0, 0, 0, 9] 1
  obtain ⟨-, -, hrounds, -⟩ := FieldType.weight_le_bytes rfl (.list hsides) [0, 0, 1] 0
  obtain ⟨n, -, -, hafter, hweight⟩ := hvalue _ _ hread
  obtain rfl : 5 = n := congrArg Cursor.offset hafter
  exact ⟨rfl, hread, rfl, hweight, hcut, hrounds.stopped hcut⟩

end RecordExchange
