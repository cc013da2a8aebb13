import RecordExchange.Proofs.Defaults

/-!
# Payloads and contents

What is written for a record says what its normal form is, and nothing else. It does not say in which
order the record has its fields, whether it has fields that the schema does not know, or whether a
field has its default value or was left out. But whatever the normal form is, it can be told from the
bytes, in front of whatever follows them: what is written for one content never starts what is written
for another one.

- `PrefixCode`: a form of writing that tells values apart in front of further bytes.
- `Wire.prefixCode_encodeNat` and its like: the primitive forms are of this kind.
- `Separates`: a writer that refuses some values, and tells the contents of the others apart.
- `FieldType.separates_encode`, `Schema.separates_encode`: payloads tell normal forms apart.
- `FieldType.encode_normalize`, `Schema.encode_normalForm`: a normal form is written as what it is the
  normal form of.
- `Schema.encode_eq_iff_normalForm_eq`: both together.
-/

namespace RecordExchange

/-! ## Prefix codes -/

/-- What is written for one value never starts what is written for another one, so that values are told
apart in front of anything that follows them. -/
def PrefixCode {α : Type} (write : α → List UInt8) : Prop :=
  ∀ a b rest rest', write a ++ rest = write b ++ rest' → a = b ∧ rest = rest'

namespace PrefixCode

variable {α β : Type}

theorem comp {write : α → List UInt8} (h : PrefixCode write) {f : β → α}
    (hf : ∀ a b, f a = f b → a = b) : PrefixCode fun b => write (f b) := by
  intro a b rest rest' hsame
  obtain ⟨hvalue, hrest⟩ := h (f a) (f b) rest rest' hsame
  exact ⟨hf a b hvalue, hrest⟩

/-- Where everything is written in one width, values need only be written differently. -/
theorem of_length {write : α → List UInt8} {n : Nat} (hlength : ∀ a, (write a).length = n)
    (hwrite : ∀ a b, write a = write b → a = b) : PrefixCode write := by
  intro a b rest rest' hsame
  obtain ⟨hvalue, hrest⟩ := List.append_inj hsame (by rw [hlength, hlength])
  exact ⟨hwrite a b hvalue, hrest⟩

end PrefixCode

namespace Wire

/-- The first group of a number is below 128 exactly when it is the last one. -/
theorem groups_succ_cases (left n : Nat) :
    ∃ b others, groups (left + 1) n = b :: others ∧
      (n < 128 ∧ b.toNat = n ∧ others = [] ∨
        128 ≤ n ∧ b.toNat = n % 128 + 128 ∧ others = groups left (n / 128)) := by
  rw [groups]
  by_cases hsmall : n < 128
  · have hbyte : (UInt8.ofNat n).toNat = n :=
      UInt8.toNat_ofNat_of_lt' (Nat.lt_trans hsmall (by decide))
    rw [if_pos hsmall]
    exact ⟨_, [], rfl, .inl ⟨hsmall, hbyte, rfl⟩⟩
  · have hlt : n % 128 + 128 < UInt8.size := Nat.add_lt_add_right (Nat.mod_lt n (by decide)) 128
    rw [if_neg hsmall]
    exact ⟨_, _, rfl, .inr ⟨Nat.le_of_not_lt hsmall, UInt8.toNat_ofNat_of_lt' hlt, rfl⟩⟩

/-- Numbers are told apart group by group: as long as the groups agree, both numbers go on or both
end. -/
theorem groups_append_inj : ∀ (left left' m n : Nat) (rest rest' : List UInt8),
    0 < left → m < Nat.pow 128 left → 0 < left' → n < Nat.pow 128 left' →
      groups left m ++ rest = groups left' n ++ rest' → m = n ∧ rest = rest'
  | 0, _, _, _, _, _, hleft, _, _, _, _ => absurd hleft (Nat.lt_irrefl 0)
  | _ + 1, 0, _, _, _, _, _, _, hleft', _, _ => absurd hleft' (Nat.lt_irrefl 0)
  | left + 1, left' + 1, m, n, rest, rest', _, hm, _, hn, hsame => by
    obtain ⟨b, others, hgroups, hb⟩ := groups_succ_cases left m
    obtain ⟨b', others', hgroups', hb'⟩ := groups_succ_cases left' n
    rw [hgroups, hgroups', List.cons_append, List.cons_append] at hsame
    obtain ⟨rfl, hbehind⟩ := List.cons.inj hsame
    have hbyte : n % 128 < 128 := Nat.mod_lt n (by decide)
    -- The top bit of the first byte tells whether more groups follow.
    rcases hb with ⟨hsmall, hvalue, rfl⟩ | ⟨hlarge, hvalue, rfl⟩
    · rcases hb' with ⟨-, hvalue', rfl⟩ | ⟨-, hvalue', -⟩
      · exact ⟨hvalue.symm.trans hvalue', hbehind⟩
      · omega
    · rcases hb' with ⟨hsmall', hvalue', -⟩ | ⟨hlarge', hvalue', rfl⟩
      · omega
      · obtain ⟨hleft, hm⟩ := lt_pow_of_large hlarge hm
        obtain ⟨hleft', hn⟩ := lt_pow_of_large hlarge' hn
        obtain ⟨hquotient, hrest⟩ :=
          groups_append_inj left left' (m / 128) (n / 128) rest rest' hleft hm hleft' hn hbehind
        exact ⟨by omega, hrest⟩

/-- Numbers of any size are told apart. -/
theorem prefixCode_encodeNat : PrefixCode encodeNat := fun m n rest rest' =>
  groups_append_inj (groupCount m) (groupCount n) m n rest rest' (Nat.succ_pos _)
    (lt_pow_groupCount m) (Nat.succ_pos _) (lt_pow_groupCount n)

theorem prefixCode_encodeLong : PrefixCode encodeLong := by
  refine prefixCode_encodeNat.comp fun a b hfold => ?_
  rw [← unfold_fold a, UInt64.toNat_inj.mp hfold, unfold_fold]

theorem prefixCode_encodeInt : PrefixCode encodeInt :=
  prefixCode_encodeLong.comp fun a b hlong => by
    rw [← Int32.toInt32_toInt64 a, hlong, Int32.toInt32_toInt64]

theorem prefixCode_encodeBool : PrefixCode encodeBool :=
  .of_length (n := 1) (fun _ => rfl) (by decide)

theorem prefixCode_encodeFloat : PrefixCode encodeFloat :=
  .of_length (fun word => ByteOrder.length_lowFirst 4 word.toNat) fun a b hbytes => by
    have hvalue := congrArg ByteOrder.ofLowFirst hbytes
    rw [encodeFloat, encodeFloat, ByteOrder.ofLowFirst_lowFirst a.toNat_lt,
      ByteOrder.ofLowFirst_lowFirst b.toNat_lt] at hvalue
    exact UInt32.toNat_inj.mp hvalue

theorem prefixCode_encodeDouble : PrefixCode encodeDouble :=
  .of_length (fun word => ByteOrder.length_lowFirst 8 word.toNat) fun a b hbytes => by
    have hvalue := congrArg ByteOrder.ofLowFirst hbytes
    rw [encodeDouble, encodeDouble, ByteOrder.ofLowFirst_lowFirst a.toNat_lt,
      ByteOrder.ofLowFirst_lowFirst b.toNat_lt] at hvalue
    exact UInt64.toNat_inj.mp hvalue

/-- The length in front says where a byte string ends. -/
theorem prefixCode_encodeBytes : PrefixCode encodeBytes := by
  intro a b rest rest' hsame
  rw [encodeBytes, encodeBytes, List.append_assoc, List.append_assoc] at hsame
  obtain ⟨hlength, hbehind⟩ := prefixCode_encodeNat _ _ _ _ hsame
  exact List.append_inj hbehind hlength

theorem prefixCode_encodeString : PrefixCode encodeString :=
  prefixCode_encodeBytes.comp fun a b hbytes => by
    have hdecode := decode_encode_utf8 a
    rw [hbytes, decode_encode_utf8] at hdecode
    exact (Except.ok.inj hdecode).symm

end Wire

/-! ## Writers that refuse some values -/

/-- Values that are written have the same content when one of them is written as the start of the
other. -/
def Separates {α β ε : Type} (write : α → Except ε (List UInt8)) (content : α → β) : Prop :=
  ∀ a b bytes bytes' rest rest', write a = .ok bytes → write b = .ok bytes' →
    bytes ++ rest = bytes' ++ rest' → content a = content b ∧ rest = rest'

section Separates

variable {α β ε : Type} {write : α → Except ε (List UInt8)} {content : α → β}

/-- Lists of one length are told apart item by item. -/
theorem Separates.mapM (h : Separates write content) : ∀ (items items' : List α)
    (parts parts' : List (List UInt8)) (rest rest' : List UInt8), items.length = items'.length →
      items.mapM write = .ok parts → items'.mapM write = .ok parts' →
      parts.flatten ++ rest = parts'.flatten ++ rest' →
      items.map content = items'.map content ∧ rest = rest'
  | [], [], _, _, _, _, _, hparts, hparts', hsame => by
    cases hparts
    cases hparts'
    exact ⟨rfl, hsame⟩
  | [], _ :: _, _, _, _, _, hlength, _, _, _ => by cases hlength
  | _ :: _, [], _, _, _, _, hlength, _, _, _ => by cases hlength
  | a :: items, b :: items', _, _, rest, rest', hlength, hparts, hparts', hsame => by
    obtain ⟨part, others, hpart, hothers, rfl⟩ := mapM_cons_eq_ok_iff.mp hparts
    obtain ⟨part', others', hpart', hothers', rfl⟩ := mapM_cons_eq_ok_iff.mp hparts'
    rw [List.flatten_cons, List.flatten_cons, List.append_assoc, List.append_assoc] at hsame
    obtain ⟨hfirst, hbehind⟩ := h a b part part' _ _ hpart hpart' hsame
    obtain ⟨hitems, hrest⟩ := h.mapM items items' others others' rest rest'
      (Nat.succ.inj hlength) hothers hothers' hbehind
    exact ⟨by rw [List.map_cons, List.map_cons, hfirst, hitems], hrest⟩

/-- The count in front says how many items there are. -/
theorem Separates.counted (h : Separates write content) :
    Separates (fun items : List α => items.mapM write >>= fun parts =>
      .ok (Wire.encodeLength items.length ++ parts.flatten)) (List.map content) := by
  intro items items' bytes bytes' rest rest' hbytes hbytes' hsame
  obtain ⟨parts, hparts, hbytes⟩ := except_bind_eq_ok.mp hbytes
  obtain ⟨parts', hparts', hbytes'⟩ := except_bind_eq_ok.mp hbytes'
  cases hbytes
  cases hbytes'
  rw [List.append_assoc, List.append_assoc] at hsame
  obtain ⟨hlength, hbehind⟩ := Wire.prefixCode_encodeNat _ _ _ _ hsame
  exact h.mapM items items' parts parts' rest rest' hlength hparts hparts' hbehind

/-- The entry of a map is its key and the content of its value. -/
theorem Separates.entry (h : Separates write content) :
    Separates (fun e : String × α => (write e.2).map (Wire.encodeString e.1 ++ ·))
      fun e => (e.1, content e.2) := by
  intro e e' bytes bytes' rest rest' hbytes hbytes' hsame
  obtain ⟨value, hvalue, rfl⟩ := except_map_eq_ok_iff.mp hbytes
  obtain ⟨value', hvalue', rfl⟩ := except_map_eq_ok_iff.mp hbytes'
  rw [List.append_assoc, List.append_assoc] at hsame
  obtain ⟨hkey, hbehind⟩ := Wire.prefixCode_encodeString _ _ _ _ hsame
  obtain ⟨hcontent, hrest⟩ := h _ _ value value' rest rest' hvalue hvalue' hbehind
  exact ⟨Prod.ext hkey hcontent, hrest⟩

end Separates

/-! ## Payloads tell normal forms apart -/

section Payloads

variable (typeName field : String)

/-- A type whose values are all of one kind and are written in a prefix code. -/
theorem FieldType.separates_scalar {α : Type} {t : FieldType} {form : α → List UInt8}
    (wrap : α → Value) (hform : PrefixCode form)
    (hencode : ∀ v bytes, t.encode typeName field v = .ok bytes →
      ∃ a, v = wrap a ∧ bytes = form a) :
    Separates (t.encode typeName field) t.normalize := by
  intro v v' bytes bytes' rest rest' hbytes hbytes' hsame
  obtain ⟨a, rfl, rfl⟩ := hencode v bytes hbytes
  obtain ⟨b, rfl, rfl⟩ := hencode v' bytes' hbytes'
  obtain ⟨rfl, hrest⟩ := hform a b rest rest' hsame
  exact ⟨rfl, hrest⟩

theorem FieldType.separates_enum (symbols : List String) :
    Separates ((FieldType.enum symbols).encode typeName field) (FieldType.enum symbols).normalize := by
  intro v v' bytes bytes' rest rest' hbytes hbytes' hsame
  cases v with
  | symbol s =>
    cases v' with
    | symbol s' =>
      obtain ⟨i, hi, rfl⟩ := FieldType.encode_symbol_eq_ok_iff.mp hbytes
      obtain ⟨j, hj, rfl⟩ := FieldType.encode_symbol_eq_ok_iff.mp hbytes'
      obtain ⟨rfl, hrest⟩ := Wire.prefixCode_encodeNat i j rest rest' hsame
      -- The symbol is the one at the index.
      obtain ⟨_, hat, -⟩ := List.idxOf?_eq_some_iff.mp hi
      obtain ⟨_, hat', -⟩ := List.idxOf?_eq_some_iff.mp hj
      exact ⟨by rw [← hat, ← hat'], hrest⟩
    | _ => cases hbytes'
  | _ => cases hbytes

theorem FieldType.separates_optional {inner : FieldType}
    (h : Separates (inner.encode typeName field) inner.normalize) :
    Separates ((FieldType.optional inner).encode typeName field)
      (FieldType.optional inner).normalize := by
  intro v v' bytes bytes' rest rest' hbytes hbytes' hsame
  rw [FieldType.encode] at hbytes hbytes'
  rw [FieldType.normalize, FieldType.normalize]
  -- The first byte says whether there is a value.
  split at hbytes <;> split at hbytes'
  next hnull hnull' =>
    cases hbytes
    cases hbytes'
    exact ⟨by rw [if_pos hnull, if_pos hnull'], (List.cons.inj hsame).2⟩
  next =>
    obtain ⟨others, -, rfl⟩ := except_map_eq_ok_iff.mp hbytes'
    cases hbytes
    exact absurd (List.cons.inj hsame).1 (by decide)
  next =>
    obtain ⟨others, -, rfl⟩ := except_map_eq_ok_iff.mp hbytes
    cases hbytes'
    exact absurd (List.cons.inj hsame).1 (by decide)
  next hsome hsome' =>
    obtain ⟨others, hothers, rfl⟩ := except_map_eq_ok_iff.mp hbytes
    obtain ⟨others', hothers', rfl⟩ := except_map_eq_ok_iff.mp hbytes'
    rw [if_neg hsome, if_neg hsome']
    exact h v v' others others' rest rest' hothers hothers' (List.cons.inj hsame).2

end Payloads

mutual

/-- What is written for values of a type tells their normal forms apart. -/
theorem FieldType.separates_encode (typeName field : String) : ∀ t : FieldType,
    Separates (t.encode typeName field) t.normalize
  | .bool => FieldType.separates_scalar typeName field .bool Wire.prefixCode_encodeBool
      fun v _ h => by cases v <;> cases h; exact ⟨_, rfl, rfl⟩
  | .int => FieldType.separates_scalar typeName field .int Wire.prefixCode_encodeInt
      fun v _ h => by cases v <;> cases h; exact ⟨_, rfl, rfl⟩
  | .long => FieldType.separates_scalar typeName field .long Wire.prefixCode_encodeLong
      fun v _ h => by cases v <;> cases h; exact ⟨_, rfl, rfl⟩
  | .float => FieldType.separates_scalar typeName field .float Wire.prefixCode_encodeFloat
      fun v _ h => by cases v <;> cases h; exact ⟨_, rfl, rfl⟩
  | .double => FieldType.separates_scalar typeName field .double Wire.prefixCode_encodeDouble
      fun v _ h => by cases v <;> cases h; exact ⟨_, rfl, rfl⟩
  | .string => FieldType.separates_scalar typeName field .string Wire.prefixCode_encodeString
      fun v _ h => by cases v <;> cases h; exact ⟨_, rfl, rfl⟩
  | .bytes => FieldType.separates_scalar typeName field .bytes Wire.prefixCode_encodeBytes
      fun v _ h => by cases v <;> cases h; exact ⟨_, rfl, rfl⟩
  | .enum symbols => FieldType.separates_enum typeName field symbols
  | .optional inner =>
    FieldType.separates_optional typeName field (inner.separates_encode typeName field)
  | .list item => by
    intro v v' bytes bytes' rest rest' hbytes hbytes' hsame
    -- Of other values nothing is written, so that both are lists.
    cases v with
    | list vs =>
      cases v' with
      | list vs' =>
        obtain ⟨hitems, hrest⟩ := (item.separates_encode typeName field).counted vs vs' bytes
          bytes' rest rest' hbytes hbytes' hsame
        exact ⟨congrArg Value.list hitems, hrest⟩
      | _ => cases hbytes'
    | _ => cases hbytes
  | .map item => by
    intro v v' bytes bytes' rest rest' hbytes hbytes' hsame
    cases v with
    | map es =>
      cases v' with
      | map es' =>
        obtain ⟨hentries, hrest⟩ := (item.separates_encode typeName field).entry.counted es es'
          bytes bytes' rest rest' hbytes hbytes' hsame
        exact ⟨congrArg Value.map hentries, hrest⟩
      | _ => cases hbytes'
    | _ => cases hbytes
  | .record s => by
    intro v v' bytes bytes' rest rest' hbytes hbytes' hsame
    cases v with
    | record r =>
      cases v' with
      | record r' =>
        obtain ⟨hform, hrest⟩ :=
          s.separates_encode r r' bytes bytes' rest rest' hbytes hbytes' hsame
        exact ⟨congrArg Value.record hform, hrest⟩
      | _ => cases hbytes'
    | _ => cases hbytes

/-- What is written for records of a schema tells their normal forms apart. -/
theorem Schema.separates_encode : ∀ s : Schema, Separates s.encode s.normalForm
  | ⟨name, fields⟩ => by
    intro r r' bytes bytes' rest rest' hbytes hbytes' hsame
    obtain ⟨-, others, hothers, rfl⟩ := Schema.encode_eq_ok_iff.mp hbytes
    obtain ⟨-, others', hothers', rfl⟩ := Schema.encode_eq_ok_iff.mp hbytes'
    -- The order of the fields depends on the schema only.
    rw [List.append_assoc, List.append_assoc] at hsame
    obtain ⟨hfields, hrest⟩ := separates_encodeFields name fields r r' others others' rest rest'
      hothers hothers' (List.append_cancel_left hsame)
    exact ⟨by rw [Schema.normalForm, Schema.normalForm, hfields], hrest⟩

theorem separates_encodeFields (typeName : String) : ∀ fields : List Field,
    Separates (encodeFields typeName fields) (normalFields fields)
  | [] => by
    intro r r' bytes bytes' rest rest' hbytes hbytes' hsame
    cases hbytes
    cases hbytes'
    exact ⟨rfl, hsame⟩
  | ⟨name, type, dflt⟩ :: fields => by
    intro r r' bytes bytes' rest rest' hbytes hbytes' hsame
    obtain ⟨v, first, others, hv, hfirst, hothers, rfl⟩ := encodeFields_cons_eq_ok_iff.mp hbytes
    obtain ⟨v', first', others', hv', hfirst', hothers', rfl⟩ :=
      encodeFields_cons_eq_ok_iff.mp hbytes'
    -- First parts may differ in length, so each is taken with all that follows it.
    rw [List.append_assoc, List.append_assoc] at hsame
    obtain ⟨hvalue, hbehind⟩ :=
      type.separates_encode typeName name v v' first first' _ _ hfirst hfirst' hsame
    obtain ⟨hfields, hrest⟩ := separates_encodeFields typeName fields r r' others others' rest rest'
      hothers hothers' hbehind
    refine ⟨?_, hrest⟩
    rw [normalFields_cons hv, normalFields_cons hv', hfields]
    exact congrArg (fun u => (name, u) :: normalFields fields r') hvalue

end

/-! ## Normal forms are written like what they are made of -/

/-- What is not there stays so, and what is there too. -/
theorem FieldType.isNull_normalize : ∀ (t : FieldType) (v : Value),
    (t.normalize v).isNull = v.isNull
  | .optional inner, v => by
    rw [FieldType.normalize]
    split
    next hnull => exact hnull.symm
    next => exact inner.isNull_normalize v
  | .list _, v | .map _, v | .record _, v => by cases v <;> rfl
  | .bool, _ | .int, _ | .long, _ | .float, _ | .double, _ | .string, _ | .bytes, _ | .enum _, _ => rfl

theorem Record.get?_eq_lookup (r : Record) (n : String) : r.get? n = r.fields.lookup n := by
  obtain ⟨typeName, entries⟩ := r
  show (entries.find? (·.1 == n)).map (·.2) = entries.lookup n
  induction entries with
  | nil => rfl
  | cons e rest ih =>
    rw [List.find?_cons, List.lookup_cons, ← ih, BEq.comm]
    cases n == e.1 <;> rfl

/-- The normal form has a value of its own for every field, so that no default is needed. -/
theorem valueOf_normalForm {typeName : String} {fields : List Field} {r : Record}
    {bytes : List UInt8} (h : encodeFields typeName fields r = .ok bytes)
    (distinct : (fields.map Field.name).Nodup) {f : Field} (hf : f ∈ fields) {v : Value}
    (hv : r.valueOf f = some v) :
    (Record.mk typeName (normalFields fields r)).valueOf f = some (f.type.normalize v) := by
  rw [Record.valueOf, Record.get?_eq_lookup, lookup_normalFields_of_mem h distinct hf hv,
    Option.some_or]

/-- A loop gives the same for other items each of which gives the same. -/
theorem mapM_map_eq_ok {α β ε : Type} {g : α → Except ε β} {f : α → α}
    (h : ∀ a b, g a = .ok b → g (f a) = .ok b) : ∀ {l : List α} {bs : List β},
      l.mapM g = .ok bs → (l.map f).mapM g = .ok bs
  | [], _, hl => hl
  | a :: _, _, hl => by
    obtain ⟨b, bs, hb, hbs, rfl⟩ := mapM_cons_eq_ok_iff.mp hl
    exact mapM_cons_eq_ok_iff.mpr ⟨b, bs, h a b hb, mapM_map_eq_ok h hbs, rfl⟩

mutual

/-- A value and its normal form are written alike. -/
theorem FieldType.encode_normalize (typeName field : String) : ∀ t : FieldType, t.WellFormed →
    ∀ v bytes, t.encode typeName field v = .ok bytes →
      t.encode typeName field (t.normalize v) = .ok bytes
  | .optional inner, h, v, bytes, hb => by
    rw [FieldType.encode] at hb
    rw [FieldType.normalize]
    split at hb
    next hnull =>
      rw [if_pos hnull]
      exact hb
    next hnull =>
      obtain ⟨others, hothers, rfl⟩ := except_map_eq_ok_iff.mp hb
      rw [if_neg hnull, FieldType.encode, inner.isNull_normalize, if_neg hnull,
        inner.encode_normalize typeName field h v others hothers]
      rfl
  | .list item, h, v, bytes, hb => by
    cases v with
    | list vs =>
      obtain ⟨parts, hparts, hb⟩ := except_bind_eq_ok.mp hb
      have hnormal := mapM_map_eq_ok (item.encode_normalize typeName field h) hparts
      rw [FieldType.normalize, FieldType.encode, hnormal, List.length_map]
      exact hb
    | _ => cases hb
  | .map item, h, v, bytes, hb => by
    cases v with
    | map es =>
      obtain ⟨parts, hparts, hb⟩ := except_bind_eq_ok.mp hb
      -- Keys stay as they are: entries are written alike once their values are.
      have hnormal : (es.map fun e => (e.1, item.normalize e.2)).mapM (fun e =>
          (item.encode typeName field e.2).map (Wire.encodeString e.1 ++ ·)) = .ok parts := by
        refine mapM_map_eq_ok (fun e part hpart => ?_) hparts
        obtain ⟨value, hvalue, rfl⟩ := except_map_eq_ok_iff.mp hpart
        rw [item.encode_normalize typeName field h e.2 value hvalue]
        rfl
      rw [FieldType.normalize, FieldType.encode, hnormal, List.length_map]
      exact hb
    | _ => cases hb
  | .record s, h, v, bytes, hb => by
    cases v with
    | record r => exact s.encode_normalForm h r bytes hb
    | _ => cases hb
  | .bool, _, _, _, hb | .int, _, _, _, hb | .long, _, _, _, hb | .float, _, _, _, hb
  | .double, _, _, _, hb | .string, _, _, _, hb | .bytes, _, _, _, hb | .enum _, _, _, _, hb => hb

/-- A record and its normal form are written alike. -/
theorem Schema.encode_normalForm : ∀ s : Schema, s.WellFormed → ∀ r bytes,
    s.encode r = .ok bytes → s.encode (s.normalForm r) = .ok bytes
  | ⟨name, fields⟩, h, r, bytes, hb => by
    obtain ⟨-, others, hothers, rfl⟩ := Schema.encode_eq_ok_iff.mp hb
    have hvalues : ∀ f ∈ fields, ∀ v, r.valueOf f = some v →
        (Record.mk name (normalFields fields r)).valueOf f = some (f.type.normalize v) :=
      fun f hf v hv => valueOf_normalForm hothers h.2.1 hf hv
    refine Schema.encode_eq_ok_iff.mpr ⟨rfl, others, ?_, rfl⟩
    exact encodeFields_normal name fields h.2.2 r _ others hvalues hothers

/-- Fields are written alike for a record that has the normal forms of the values. -/
theorem encodeFields_normal (typeName : String) : ∀ fields : List Field, WellFormedFields fields →
    ∀ (r normal : Record) (bytes : List UInt8),
      (∀ f ∈ fields, ∀ v, r.valueOf f = some v → normal.valueOf f = some (f.type.normalize v)) →
      encodeFields typeName fields r = .ok bytes →
      encodeFields typeName fields normal = .ok bytes
  | [], _, _, _, _, _, hb => hb
  | ⟨name, type, dflt⟩ :: rest, h, r, normal, bytes, hvalues, hb => by
    obtain ⟨v, first, others, hv, hfirst, hothers, rfl⟩ := encodeFields_cons_eq_ok_iff.mp hb
    exact encodeFields_cons_eq_ok_iff.mpr ⟨type.normalize v, first, others,
      hvalues _ List.mem_cons_self v hv, type.encode_normalize typeName name h.1.2.1 v first hfirst,
      encodeFields_normal typeName rest h.2 r normal others
        (fun f hf => hvalues f (List.mem_cons_of_mem _ hf)) hothers, rfl⟩

end

/-! ## Both together -/

/-- **Payloads and contents.** Two records that belong to a checked schema are both written, and what is
written is the same exactly when their normal forms are: the declared fields in declared order, those
left out with their defaults, no others, and so on in the records within them. -/
theorem Schema.encode_eq_iff_normalForm_eq {s : Schema} (hs : s.check = .ok ()) {r r' : Record}
    (haccepts : (FieldType.record s).accepts (.record r) = true)
    (haccepts' : (FieldType.record s).accepts (.record r') = true) :
    ∃ bytes bytes', s.encode r = .ok bytes ∧ s.encode r' = .ok bytes' ∧
      (bytes = bytes' ↔ s.normalForm r = s.normalForm r') := by
  have hw := s.check_eq_ok_iff.mp hs
  rw [FieldType.accepts] at haccepts haccepts'
  obtain ⟨bytes, hbytes⟩ := (s.encode_isOk_iff r hw).mpr haccepts
  obtain ⟨bytes', hbytes'⟩ := (s.encode_isOk_iff r' hw).mpr haccepts'
  refine ⟨bytes, bytes', hbytes, hbytes', fun hsame => ?_, fun hsame => ?_⟩
  · exact (s.separates_encode r r' bytes bytes' [] [] hbytes hbytes' (by rw [hsame])).1
  · have hnormal := s.encode_normalForm hw r bytes hbytes
    have hnormal' := s.encode_normalForm hw r' bytes' hbytes'
    rw [← hsame, hnormal] at hnormal'
    exact Except.ok.inj hnormal'

/-- One leg of a trip. -/
def leg : Schema :=
  ⟨"Leg", [⟨"km", .int, none⟩, ⟨"by", .optional .string, some .null⟩, ⟨"days", .int, some (.int 1)⟩]⟩

/-- A trip and its legs. -/
def trip : Schema :=
  ⟨"Trip", [⟨"legs", .list (.record leg), none⟩, ⟨"open", .bool, some (.bool false)⟩]⟩

/-- A trip of one leg with these fields. -/
def tripOf (fields : List (String × Value)) : Record :=
  ⟨"Trip", [("legs", .list [.record ⟨"Leg", fields⟩])]⟩

/-- A trip that leaves out its defaults is written like one that has them, in another order and with a
field that no leg is known to have, but not like one with a leg of two days. -/
theorem encode_eq_iff_normalForm_eq_trip :
    trip.encode (tripOf [("km", .int 7)])
        = trip.encode ⟨"Trip", ("open", .bool false) ::
          (tripOf [("days", .int 1), ("dog", .bool true), ("km", .int 7)]).fields⟩ ∧
      trip.encode (tripOf [("km", .int 7)])
        ≠ trip.encode (tripOf [("km", .int 7), ("days", .int 2)]) := by
  obtain ⟨brief, full, hbrief, hfull, hsame⟩ := @Schema.encode_eq_iff_normalForm_eq trip rfl
    (tripOf [("km", .int 7)]) ⟨"Trip", ("open", .bool false) ::
      (tripOf [("days", .int 1), ("dog", .bool true), ("km", .int 7)]).fields⟩ rfl rfl
  obtain ⟨brief', long, hbrief', hlong, hother⟩ := @Schema.encode_eq_iff_normalForm_eq trip rfl
    (tripOf [("km", .int 7)]) (tripOf [("km", .int 7), ("days", .int 2)]) rfl rfl
  refine ⟨by rw [hbrief, hfull, hsame.mpr rfl], fun hcontra => ?_⟩
  rw [hbrief', hlong] at hcontra
  -- The normal forms differ in the days of the leg.
  have hforms : (⟨"Trip", [("legs", .list [.record ⟨"Leg",
        [("km", .int 7), ("by", .null), ("days", .int 1)]⟩]), ("open", .bool false)]⟩ : Record)
      = ⟨"Trip", [("legs", .list [.record ⟨"Leg",
        [("km", .int 7), ("by", .null), ("days", .int 2)]⟩]), ("open", .bool false)]⟩ :=
    hother.mp (Except.ok.inj hcontra)
  exact absurd hforms (by simp)

end RecordExchange
