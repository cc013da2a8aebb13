import RecordExchange.Proofs.BufferReading
import RecordExchange.Proofs.SelfDelimiting

/-!
# Following a decoder

A reader of a buffer follows a decoder when it ends as the decoder does, where the decoder does, and is
never at fault. This module has the rules, and the readers of the primitive forms and of headers.

- `ExchangeError.Stray`: the failures of a decoder where a reader of a buffer would be at fault.
- `BufferReader.Follows`: the same end, in the same place, without a fault.
- `BufferReader.Follows.bind`, `BufferReader.follows_foldlM` and their like: the rules.
- `BufferReader.follows_take`: a part of the buffer, compared with what is left.
- `BufferReader.follows_groups`: the loop over the groups of a number, whose end is not reached.
- `BufferReader.follows_header`, `BufferReader.follows_item`: headers, and items of all forms.
-/

namespace RecordExchange

/-- A number without an end, and an index of nothing. -/
def ExchangeError.Stray : ExchangeError → Prop
  | .corrupt (.varintTooLong _) | .corrupt (.strayIndex _) => True
  | _ => False

theorem ExchangeError.not_stray_ofSchemaError (e : SchemaError) : ¬ (ofSchemaError e).Stray := by
  cases e <;> exact id

/-! ## Decoders within an input -/

theorem Cursor.remaining_within (input : List UInt8) (p : Nat) :
    (Cursor.within input p).remaining = input.length - p :=
  List.length_drop

theorem Decoder.run_byte_within {input : List UInt8} {p : Nat} (h : p < input.length) :
    byte.run (.within input p) = .ok input[p] (.within input (p + 1)) := by
  rw [Cursor.within, List.drop_eq_getElem_cons h]
  rfl

theorem Decoder.ensures_take (n : Nat) :
    (take n).Ensures fun bytes => bytes.length = n := by
  intro c bytes after hrun
  have htake : (take n).run c = if n ≤ c.rest.length then _ else _ := rfl
  rw [htake] at hrun
  split at hrun
  next hn =>
    cases hrun
    exact List.length_take_of_le hn
  next => cases hrun

namespace BufferReader

variable {α β : Type} {buffer : List UInt8} {p n : Nat}

/-! ## Following a decoder -/

/-- From any position of any buffer a reader of a buffer ends as the decoder does, at the position where
the decoder ends. This is no position in front of the first one and none behind the end. Neither of
them is at fault. -/
def Follows (g : BufferReader α) (d : Decoder α) : Prop :=
  ∀ buffer p, p ≤ buffer.length → ∃ n, p ≤ n ∧ n ≤ buffer.length ∧
    ((∃ a, g.runAt buffer p = .ok a n ∧ d.run (.within buffer p) = .ok a (.within buffer n)) ∨
      ∃ e, g.runAt buffer p = .error (.error e) n ∧
        d.run (.within buffer p) = .error e (.within buffer n) ∧ ¬ e.Stray)

theorem runAt_bind (g : BufferReader α) (k : α → BufferReader β) (buffer : List UInt8) (p : Nat) :
    (g >>= k).runAt buffer p
      = (match g.runAt buffer p with
        | .ok a n => (k a).runAt buffer n
        | .error e n => .error e n) := by
  show EStateM.run (ReaderT.run g buffer >>= fun a => ReaderT.run (k a) buffer) p = _
  rw [EStateM.run_bind, runAt]
  cases EStateM.run (ReaderT.run g buffer) p <;> rfl

theorem runAt_bind_of_ok {g : BufferReader α} {a : α} (h : g.runAt buffer p = .ok a n)
    (k : α → BufferReader β) : (g >>= k).runAt buffer p = (k a).runAt buffer n := by
  rw [runAt_bind, h]

theorem runAt_read_bind (k : List UInt8 → BufferReader β) :
    (read >>= k).runAt buffer p = (k buffer).runAt buffer p := rfl

theorem runAt_position_bind (k : Nat → BufferReader β) :
    (position >>= k).runAt buffer p = (k p).runAt buffer p := rfl

theorem follows_pure (a : α) : Follows (pure a) (pure a) :=
  fun _ p hp => ⟨p, Nat.le_refl p, hp, .inl ⟨a, rfl, rfl⟩⟩

theorem follows_error {e : ExchangeError} (h : ¬ e.Stray) :
    Follows (error e : BufferReader α) (throw e) :=
  fun _ p hp => ⟨p, Nat.le_refl p, hp, .inr ⟨e, rfl, rfl, h⟩⟩

theorem follows_corrupt {cause : Corruption} (h : ¬ (ExchangeError.corrupt cause).Stray) :
    Follows (corrupt cause : BufferReader α) (Decoder.corrupt cause) :=
  follows_error h

theorem follows_mismatch (cause : Mismatch) :
    Follows (mismatch cause : BufferReader α) (Decoder.mismatch cause) :=
  follows_error id

theorem follows_orCorrupt {cause : Corruption} (h : ¬ (ExchangeError.corrupt cause).Stray)
    (x : Option α) : Follows (orCorrupt cause x) (Decoder.orCorrupt cause x) := by
  cases x with
  | none => exact follows_corrupt h
  | some a => exact follows_pure a

theorem follows_ofSchemaResult (x : Except SchemaError α) :
    Follows (ofSchemaResult x) (Decoder.ofSchemaResult x) := by
  cases x with
  | error e => exact follows_error (ExchangeError.not_stray_ofSchemaError e)
  | ok a => exact follows_pure a

/-- What the decoder ensures may be used for what comes second. -/
theorem Follows.bind_of {g : BufferReader α} {d : Decoder α} {k : α → BufferReader β}
    {k' : α → Decoder β} {P : α → Prop} (h : Follows g d) (hd : d.Ensures P)
    (hk : ∀ a, P a → Follows (k a) (k' a)) : Follows (g >>= k) (d >>= k') := by
  intro buffer p hp
  rw [runAt_bind, EStateM.run_bind]
  obtain ⟨n, hpn, hn, ⟨a, hg, hrun⟩ | ⟨e, hg, hrun, he⟩⟩ := h buffer p hp
  · rw [hg, hrun]
    obtain ⟨m, hnm, hm, hend⟩ := hk a (hd _ a _ hrun) buffer n hn
    exact ⟨m, Nat.le_trans hpn hnm, hm, hend⟩
  · rw [hg, hrun]
    exact ⟨n, hpn, hn, .inr ⟨e, rfl, rfl, he⟩⟩

theorem Follows.bind {g : BufferReader α} {d : Decoder α} {k : α → BufferReader β}
    {k' : α → Decoder β} (h : Follows g d) (hk : ∀ a, Follows (k a) (k' a)) :
    Follows (g >>= k) (d >>= k') :=
  h.bind_of (Decoder.ensures_true d) fun a _ => hk a

theorem Follows.map {g : BufferReader α} {d : Decoder α} (h : Follows g d) (f : α → β) :
    Follows (f <$> g) (f <$> d) := by
  rw [map_eq_pure_bind, map_eq_pure_bind]
  exact h.bind fun a => follows_pure (f a)

theorem Follows.ite {c : Prop} [Decidable c] {g g' : BufferReader α} {d d' : Decoder α}
    (h : Follows g d) (h' : Follows g' d') :
    Follows (if c then g else g') (if c then d else d') := by
  by_cases hc : c
  · rw [if_pos hc, if_pos hc]
    exact h
  · rw [if_neg hc, if_neg hc]
    exact h'

theorem Follows.times {g : BufferReader α} {d : Decoder α} (h : Follows g d) (n : Nat) :
    Follows (g.times n) (d.times n) := by
  induction n with
  | zero => exact follows_pure []
  | succ n ih => exact h.bind fun a => ih.bind fun as => follows_pure (a :: as)

/-- A loop whose rounds keep an invariant. -/
theorem follows_foldlM {f : β → α → BufferReader β} {f' : β → α → Decoder β} {P : β → Prop}
    {Q : α → Prop} (hf : ∀ b a, P b → Q a → Follows (f b a) (f' b a))
    (hP : ∀ b a, P b → (f' b a).Ensures P) : ∀ (l : List α) (b : β), P b → (∀ a ∈ l, Q a) →
      Follows (l.foldlM f b) (l.foldlM f' b) := by
  intro l
  induction l with
  | nil => exact fun b _ _ => follows_pure b
  | cons a rest ih =>
    intro b hb hl
    rw [List.foldlM_cons, List.foldlM_cons]
    refine (hf b a hb (hl a List.mem_cons_self)).bind_of (hP b a hb) fun b' hb' => ?_
    exact ih b' hb' fun a' ha' => hl a' (List.mem_cons_of_mem a ha')

/-! ## Accesses within bounds -/

theorem pick_of_lt {items : List α} {i : Nat} (h : i < items.length) :
    pick items i = pure items[i] := by
  rw [pick, List.getElem?_eq_getElem h]

theorem store_of_lt {items : List α} {i : Nat} (h : i < items.length) (a : α) :
    store items i a = pure (items.set i a) :=
  if_pos h

theorem subtract_of_le {m k : Nat} (h : k ≤ m) : subtract m k = pure (m - k) :=
  if_pos h

theorem shiftLeft_of_lt {bits : Nat} (h : bits < 64) (word : UInt64) :
    shiftLeft word bits = pure (word <<< UInt64.ofNat bits) :=
  if_pos h

theorem orCorrupt_of_lt {items : List α} {i : Nat} (h : i < items.length) (cause : Corruption) :
    Decoder.orCorrupt cause items[i]? = pure items[i] := by
  rw [List.getElem?_eq_getElem h]
  rfl

/-! ## Positions -/

theorem follows_position : Follows position Decoder.offset :=
  fun _ p hp => ⟨p, Nat.le_refl p, hp, .inl ⟨p, rfl, rfl⟩⟩

theorem runAt_remaining (hp : p ≤ buffer.length) :
    remaining.runAt buffer p = .ok (buffer.length - p) p := by
  rw [remaining, runAt_read_bind, runAt_position_bind, subtract_of_le hp]
  rfl

theorem follows_remaining : Follows remaining Decoder.remaining := by
  intro buffer p hp
  refine ⟨p, Nat.le_refl p, hp, .inl ⟨buffer.length - p, runAt_remaining hp, ?_⟩⟩
  rw [← Cursor.remaining_within]
  rfl

theorem runAt_advance (h : p + n ≤ buffer.length) :
    (advance n).runAt buffer p = .ok () (p + n) := by
  rw [advance, runAt_position_bind, moveTo, runAt_position_bind, runAt_read_bind,
    if_pos ⟨Nat.le_add_right p n, h⟩]
  rfl

theorem runAt_endOfInput (hp : p ≤ buffer.length) :
    (endOfInput n : BufferReader α).runAt buffer p
      = .error (.error (.corrupt (.endOfInput p n (buffer.length - p)))) p := by
  rw [endOfInput, runAt_position_bind, runAt_bind_of_ok (runAt_remaining hp)]
  rfl

theorem runAt_byte (h : p < buffer.length) : byte.runAt buffer p = .ok buffer[p] (p + 1) := by
  rw [byte, runAt_read_bind, runAt_position_bind, List.getElem?_eq_getElem h]
  exact runAt_bind_of_ok (runAt_advance h) _

theorem follows_byte : Follows byte Decoder.byte := by
  intro buffer p hp
  by_cases hlt : p < buffer.length
  · exact ⟨p + 1, Nat.le_succ p, hlt, .inl ⟨buffer[p], runAt_byte hlt, Decoder.run_byte_within hlt⟩⟩
  · obtain rfl : p = buffer.length := Nat.le_antisymm hp (Nat.le_of_not_lt hlt)
    refine ⟨_, Nat.le_refl _, hp, .inr ⟨.corrupt (.endOfInput buffer.length 1 0), ?_, ?_, id⟩⟩
    · rw [byte, runAt_read_bind, runAt_position_bind, List.getElem?_length]
      show (endOfInput 1 : BufferReader UInt8).runAt buffer _ = _
      rw [runAt_endOfInput hp, Nat.sub_self]
    · rw [Cursor.within, List.drop_length]
      rfl

/-- The part of the buffer that is taken is compared with what is left before it is looked at. -/
theorem follows_take (n : Nat) : Follows (take n) (Decoder.take n) := by
  intro buffer p hp
  have hdecode : (Decoder.take n).run (.within buffer p)
      = if n ≤ (Cursor.within buffer p).remaining then
          .ok ((buffer.drop p).take n) ⟨(buffer.drop p).drop n, p + n⟩
        else .error (.corrupt (.endOfInput p n (Cursor.within buffer p).remaining))
          (.within buffer p) := rfl
  rw [hdecode, Cursor.remaining_within, take, runAt_bind_of_ok (runAt_remaining hp)]
  by_cases hn : n ≤ buffer.length - p
  · have hend : p + n ≤ buffer.length := by omega
    have hslice : (slice p (p + n)).runAt buffer p = .ok ((buffer.drop p).take n) p := by
      rw [slice, runAt_read_bind, if_pos ⟨Nat.le_add_right p n, hend⟩, Nat.add_sub_cancel_left]
      rfl
    rw [if_pos hn, if_pos hn, runAt_position_bind, runAt_bind_of_ok hslice,
      runAt_bind_of_ok (runAt_advance hend), List.drop_drop]
    exact ⟨p + n, Nat.le_add_right p n, hend, .inl ⟨(buffer.drop p).take n, rfl, rfl⟩⟩
  · rw [if_neg hn, if_neg hn, runAt_endOfInput hp]
    exact ⟨p, Nat.le_refl p, hp, .inr ⟨_, rfl, rfl, id⟩⟩

/-! ## Primitive forms -/

theorem follows_array (n : Nat) : Follows (array n) (Decoder.take n) := by
  rw [← bind_pure (Decoder.take n)]
  refine (follows_take n).bind_of (Decoder.ensures_take n) fun bytes hlength => ?_
  rw [if_pos hlength]
  exact follows_pure bytes

/-- The position in front of the byte that was read is the one where it was read. -/
theorem runAt_flag (cause : UInt8 → Nat → Corruption) (hp : p ≤ buffer.length) :
    (flag cause).runAt buffer p
      = (position >>= fun start => byte >>= fun b => if b = 0 then pure false
          else if b = 1 then pure true else corrupt (cause b start)).runAt buffer p := by
  rw [flag, runAt_position_bind, runAt_bind, runAt_bind]
  by_cases hlt : p < buffer.length
  -- Reading the byte has moved the position on, which is what one is subtracted for.
  · have hstart : (position >>= fun after => subtract after 1 >>= fun start =>
          corrupt (cause buffer[p] start) : BufferReader Bool).runAt buffer (p + 1)
        = (corrupt (cause buffer[p] p) : BufferReader Bool).runAt buffer (p + 1) := by
      rw [runAt_position_bind, subtract_of_le (Nat.le_add_left 1 p), pure_bind, Nat.add_sub_cancel]
    rw [runAt_byte hlt]
    show (if buffer[p] = 0 then pure false else if buffer[p] = 1 then pure true else _
        : BufferReader Bool).runAt buffer (p + 1)
      = (if buffer[p] = 0 then pure false else if buffer[p] = 1 then pure true else _
        : BufferReader Bool).runAt buffer (p + 1)
    by_cases hno : buffer[p] = 0
    · rw [if_pos hno, if_pos hno]
    by_cases hyes : buffer[p] = 1
    · rw [if_neg hno, if_neg hno, if_pos hyes, if_pos hyes]
    · rw [if_neg hno, if_neg hno, if_neg hyes, if_neg hyes]
      exact hstart
  · have hend : byte.runAt buffer p = (endOfInput 1 : BufferReader UInt8).runAt buffer p := by
      rw [byte, runAt_read_bind, runAt_position_bind, List.getElem?_eq_none (Nat.le_of_not_lt hlt)]
    rw [hend, runAt_endOfInput hp]

theorem follows_flag {cause : UInt8 → Nat → Corruption}
    (h : ∀ b start, ¬ (ExchangeError.corrupt (cause b start)).Stray) :
    Follows (flag cause) (Decoder.offset >>= fun start => Decoder.byte >>= fun b =>
      if b = 0 then pure false else if b = 1 then pure true
      else Decoder.corrupt (cause b start)) := by
  intro buffer p hp
  rw [runAt_flag cause hp]
  have hflag := follows_position.bind fun start => follows_byte.bind fun b =>
    .ite (c := b = 0) (follows_pure false) (.ite (c := b = 1) (follows_pure true)
      (follows_corrupt (h b start)))
  exact hflag buffer p hp

theorem follows_bool : Follows (flag .badBool) Wire.decodeBool :=
  follows_flag fun _ _ => id

theorem follows_branch : Follows (flag .badBranch) Decoder.branch :=
  follows_flag fun _ _ => id

/-- The bits of a group are shifted to where the sum has none. -/
theorem toNat_or_shiftLeft {sum : UInt64} {b : UInt8} {shift : Nat} (hshift : shift < 64)
    (hsum : sum.toNat < Nat.pow 2 shift) (hfit : b.toNat % 128 * Nat.pow 2 shift < UInt64.size) :
    (sum ||| (b &&& 0x7f).toUInt64 <<< UInt64.ofNat shift).toNat
      = sum.toNat + b.toNat % 128 * Nat.pow 2 shift := by
  have hgroup : (b &&& 0x7f).toUInt64.toNat = b.toNat % 128 := by
    rw [UInt8.toNat_toUInt64, UInt8.toNat_and]
    exact Nat.and_two_pow_sub_one_eq_mod b.toNat 7
  have hbits : (UInt64.ofNat shift).toNat % 64 = shift := by
    rw [UInt64.toNat_ofNat_of_lt' (Nat.lt_trans hshift (by decide)), Nat.mod_eq_of_lt hshift]
  have hshifted : b.toNat % 128 * Nat.pow 2 shift = (b.toNat % 128) <<< shift :=
    (Nat.shiftLeft_eq _ _).symm
  rw [hshifted] at hfit
  rw [UInt64.toNat_or, UInt64.toNat_shiftLeft, hbits, hgroup, hshifted, Nat.mod_eq_of_lt hfit,
    Nat.or_comm, ← Nat.shiftLeft_add_eq_or_of_lt hsum, Nat.add_comm]

/-- One round of the loop, with `left` more to follow. Only the last one shifts by 63 bits, and it reads
a single bit or fails, so that it is never followed by another. -/
theorem follows_groups_round {start left shift : Nat} {sum : UInt64}
    (hshift : shift + 7 * (left + 1) = 70) (hsum : sum.toNat < Nat.pow 2 shift)
    (hnext : 0 < left → ∀ next : UInt64, next.toNat < Nat.pow 2 (shift + 7) →
      Follows (groups start left (shift + 7) next)
        (Wire.decodeGroups start left (shift + 7) next.toNat)) :
    Follows (groups start (left + 1) shift sum)
      (Wire.decodeGroups start (left + 1) shift sum.toNat) := by
  rw [groups, Wire.decodeGroups]
  refine follows_byte.bind fun b => ?_
  by_cases hover : left = 0 ∧ 1 < b.toNat
  · rw [if_pos hover, if_pos hover]
    exact follows_corrupt id
  rw [if_neg hover, if_neg hover, shiftLeft_of_lt (by omega), pure_bind]
  -- The last group has room for a single bit, any other one for all seven.
  have hfit : b.toNat % 128 * Nat.pow 2 shift < UInt64.size := by
    by_cases hzero : left = 0
    · obtain rfl : shift = 63 := by omega
      calc b.toNat % 128 * Nat.pow 2 63 ≤ 1 * Nat.pow 2 63 := Nat.mul_le_mul_right _ (by omega)
        _ < UInt64.size := by decide
    · calc b.toNat % 128 * Nat.pow 2 shift ≤ 127 * Nat.pow 2 56 :=
          Nat.mul_le_mul (by omega) (Nat.pow_le_pow_right (by decide) (by omega))
        _ < UInt64.size := by decide
  have hvalue := toNat_or_shiftLeft (b := b) (by omega) hsum hfit
  by_cases hlast : b.toNat < 128
  · rw [if_pos hlast, if_pos hlast, ← hvalue, UInt64.ofNat_toNat]
    exact .ite (follows_corrupt id) (follows_pure _)
  · rw [if_neg hlast, if_neg hlast, ← hvalue]
    refine hnext (by omega) _ ?_
    -- The sum stays below the power of two that the next group is shifted by.
    have hpow : Nat.pow 2 (shift + 7) = Nat.pow 2 shift * 128 := Nat.pow_add 2 shift 7
    have hgroup : b.toNat % 128 * Nat.pow 2 shift ≤ 127 * Nat.pow 2 shift :=
      Nat.mul_le_mul_right _ (by omega)
    rw [hvalue, hpow]
    omega

/-- There are as many rounds as groups that a word takes. The loop is always left, and no shift goes
beyond the word. -/
theorem follows_groups (start left : Nat) : ∀ (shift : Nat) (sum : UInt64),
    shift + 7 * (left + 1) = 70 → sum.toNat < Nat.pow 2 shift →
      Follows (groups start (left + 1) shift sum)
        (Wire.decodeGroups start (left + 1) shift sum.toNat) := by
  induction left with
  | zero =>
    intro shift sum hshift hsum
    exact follows_groups_round hshift hsum fun hpos => absurd hpos (Nat.lt_irrefl 0)
  | succ left ih =>
    intro shift sum hshift hsum
    exact follows_groups_round hshift hsum fun _ next hnext =>
      ih (shift + 7) next (by omega) hnext

theorem follows_varint : Follows varint Wire.decodeVarint :=
  follows_position.bind fun start => follows_groups start 9 0 0 rfl (by decide)

theorem follows_long : Follows long Wire.decodeLong :=
  follows_varint.map Wire.unfold

theorem follows_int : Follows int Wire.decodeInt := by
  refine follows_position.bind fun start => follows_long.bind fun n => ?_
  exact .ite (follows_pure _) (follows_corrupt id)

theorem follows_float : Follows float Wire.decodeFloat :=
  (follows_array 4).bind fun _ => follows_pure _

theorem follows_double : Follows double Wire.decodeDouble :=
  (follows_array 8).bind fun _ => follows_pure _

theorem follows_length : Follows length Wire.decodeLength := by
  refine follows_position.bind fun start => follows_varint.bind fun n => ?_
  exact follows_remaining.bind fun left => .ite (follows_pure _) (follows_corrupt id)

theorem follows_bytes : Follows bytes Wire.decodeBytes :=
  follows_length.bind follows_take

theorem follows_string : Follows string Wire.decodeString := by
  refine follows_position.bind fun start => follows_bytes.bind fun content => ?_
  cases Utf8.decode content with
  | ok s => exact follows_pure s
  | error fault => exact follows_corrupt id

theorem follows_index : Follows index Wire.decodeIndex :=
  follows_varint.map UInt64.toNat

theorem follows_finish : Follows finish Decoder.finish := by
  refine follows_remaining.bind fun left => .ite ?_ (follows_pure ())
  exact follows_position.bind fun start => follows_corrupt id

theorem follows_header : Follows header Header.decode := by
  refine (follows_array 2).bind_of (Decoder.ensures_take 2) fun found hlength => ?_
  obtain ⟨first, second, rfl⟩ := List.length_eq_two.mp hlength
  refine .ite (follows_corrupt id) ((follows_array _).bind fun fingerprint => ?_)
  refine follows_byte.bind fun flag => .ite (follows_pure _) (.ite ?_ (follows_corrupt id))
  exact follows_string.bind fun text => follows_pure _

theorem follows_item (form : Wire.Form) : Follows (item form) form.decode := by
  cases form with
  | byte => exact follows_byte.map _
  | bool => exact follows_bool.map _
  | varint => exact follows_varint.map _
  | int => exact follows_int.map _
  | long => exact follows_long.map _
  | float => exact follows_float.map _
  | double => exact follows_double.map _
  | bytes => exact follows_bytes.map _
  | string => exact follows_string.map _
  | raw count => exact (follows_take count).map _
  | header => exact follows_header.map _

end BufferReader

end RecordExchange
