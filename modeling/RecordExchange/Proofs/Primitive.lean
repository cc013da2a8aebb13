import RecordExchange.Payload.Skip
import RecordExchange.Proofs.Reading
import RecordExchange.Wire.Header

/-!
# Primitive forms read back

Every primitive that is written is read back as it was, in front of any further bytes. A number
must fit 64 bits for that; a length must also not exceed the bytes behind it, which it counts.

- `Wire.yields_varint`, `Wire.yields_long`, `Wire.yields_int`: numbers.
- `Wire.yields_length_bind`: a length in front of what it counts.
- `Wire.yields_bytes`, `Wire.yields_string`: byte strings and texts.
- `Decoder.yields_branch`, `Decoder.yields_symbol`: the parts of optional values and enumerations.
- `Header.yields_encode`: the headers of messages.
-/

namespace RecordExchange

namespace Wire

open Decoder

/-! ## Varints -/

/-- A number fits the groups that are reserved for it. -/
theorem lt_pow_groupCount (n : Nat) : n < Nat.pow 128 (groupCount n) := by
  have hlog : n < 2 ^ (n.log2 + 1) := Nat.lt_log2_self
  have hle : n.log2 + 1 ≤ 7 * groupCount n := by
    unfold groupCount
    omega
  calc n < 2 ^ (n.log2 + 1) := hlog
    _ ≤ 2 ^ (7 * groupCount n) := Nat.pow_le_pow_right (by decide) hle
    _ = 128 ^ groupCount n := by rw [Nat.pow_mul]

/-- The higher groups of a number that has them fit in what is left. -/
theorem lt_pow_of_large {left n : Nat} (hlarge : 128 ≤ n) (hn : n < Nat.pow 128 (left + 1)) :
    0 < left ∧ n / 128 < Nat.pow 128 left := by
  have hquotient : n / 128 < Nat.pow 128 left := (Nat.div_lt_iff_lt_mul (by decide)).mpr hn
  refine ⟨Nat.pos_of_ne_zero ?_, hquotient⟩
  rintro rfl
  have hone : n / 128 < 1 := hquotient
  omega

theorem encodeNat_pos (n : Nat) : 0 < (encodeNat n).length := by
  unfold encodeNat groupCount groups
  split <;> simp

/-- What stands behind a number is written after at least one byte. -/
theorem encodeNat_append_pos (n : Nat) (rest : List UInt8) :
    0 < (encodeNat n ++ rest).length := by
  rw [List.length_append]
  exact Nat.lt_of_lt_of_le (encodeNat_pos n) (Nat.le_add_right _ _)

/-- A number is its lowest group and the others, which stand seven bits higher. -/
theorem lowest_group_add (n shift : Nat) :
    n % 128 * Nat.pow 2 shift + n / 128 * Nat.pow 2 (shift + 7) = n * Nat.pow 2 shift := by
  have hup : Nat.pow 2 (shift + 7) = 128 * Nat.pow 2 shift := by
    show 2 ^ (shift + 7) = 128 * 2 ^ shift
    rw [Nat.pow_add, Nat.mul_comm]
  rw [hup, ← Nat.mul_assoc, ← Nat.add_mul, Nat.mul_comm (n / 128), Nat.mod_add_div]

/-- The loop over the groups of a number, of which it has read the groups below bit `shift`. The
invariant is that the number at hand, moved up by `shift`, still fits 64 bits; it keeps the tenth
group to a single bit and leaves at least one more group to read. -/
theorem yields_groups (start : Nat) :
    ∀ (count n left shift sum : Nat), 0 < count → n < Nat.pow 128 count →
      shift + 7 * left = 70 → (shift ≠ 0 → n ≠ 0) → n * Nat.pow 2 shift < UInt64.size →
      (decodeGroups start left shift sum).Yields (groups count n)
        (.ok (UInt64.ofNat (sum + n * Nat.pow 2 shift)))
  | count, n, 0, shift, sum, _, _, hshift, hn, hfit => by
    -- Ten groups have been read: nothing but zero would be left, and zero ends a number earlier.
    obtain rfl : shift = 70 := by omega
    have hfit : n * 2 ^ 70 < UInt64.size := hfit
    have hpos : 0 < n := Nat.pos_of_ne_zero (hn (by decide))
    have : 1 * 2 ^ 70 ≤ n * 2 ^ 70 := Nat.mul_le_mul_right _ hpos
    have hsize : UInt64.size < 2 ^ 70 := by decide
    omega
  | 0, _, _ + 1, _, _, hcount, _, _, _, _ => absurd hcount (Nat.lt_irrefl 0)
  | count + 1, n, left + 1, shift, sum, _, hlt, hshift, hn, hfit => by
    have htenth : left = 0 → n < 2 := by
      rintro rfl
      obtain rfl : shift = 63 := by omega
      have hsize : UInt64.size = 2 * Nat.pow 2 63 := by decide
      rw [hsize] at hfit
      exact Nat.lt_of_mul_lt_mul_right hfit
    by_cases hsmall : n < 128
    · -- The last group is the number itself. Only zero is written as a zero group.
      have hb : (UInt8.ofNat n).toNat = n :=
        UInt8.toNat_ofNat_of_lt' (show n < 256 by omega)
      have hover : ¬ (left = 0 ∧ 1 < n) := by
        rintro ⟨h0, h1⟩
        have := htenth h0
        omega
      have hpad : ¬ (n = 0 ∧ shift ≠ 0) := fun h => hn h.2 h.1
      simp only [groups, if_pos hsmall]
      refine (yields_byte (UInt8.ofNat n)).bind_ok_nil ?_
      simp only [hb, if_neg hover, if_pos hsmall, if_neg hpad, Nat.mod_eq_of_lt hsmall]
      exact yields_pure _
    · -- The invariant holds of the other groups, since the lowest one is not negative.
      have hb : (UInt8.ofNat (n % 128 + 128)).toNat = n % 128 + 128 :=
        UInt8.toNat_ofNat_of_lt' (show n % 128 + 128 < 256 by omega)
      have hover : ¬ (left = 0 ∧ 1 < n % 128 + 128) := by
        rintro ⟨h0, -⟩
        have := htenth h0
        omega
      have hmore : ¬ n % 128 + 128 < 128 := by omega
      have hmod : (n % 128 + 128) % 128 = n % 128 := by omega
      have hlowest := lowest_group_add n shift
      obtain ⟨hcount, hothers⟩ := lt_pow_of_large (Nat.le_of_not_lt hsmall) hlt
      have hrest := yields_groups start count (n / 128) left (shift + 7)
        (sum + n % 128 * Nat.pow 2 shift) hcount hothers (by omega) (fun _ => by omega) (by omega)
      rw [Nat.add_assoc, hlowest] at hrest
      simp only [groups, if_neg hsmall]
      refine (yields_byte _).bind_ok ?_
      simp only [hb, if_neg hover, if_neg hmore, hmod]
      exact hrest

/-- A number of 64 bits is read back. -/
theorem yields_nat {n : Nat} (h : n < UInt64.size) :
    decodeVarint.Yields (encodeNat n) (.ok (UInt64.ofNat n)) := by
  refine yields_offset_bind fun start => ?_
  have hcount : 0 < groupCount n := Nat.succ_pos _
  have := yields_groups start (groupCount n) n maxGroups 0 0 hcount (lt_pow_groupCount n) rfl
    (fun h => absurd rfl h) (by simpa using h)
  simpa [encodeNat] using this

theorem yields_varint (n : UInt64) : decodeVarint.Yields (encodeVarint n) (.ok n) := by
  have := yields_nat n.toNat_lt
  rwa [UInt64.ofNat_toNat] at this

/-! ## Signed numbers -/

/-- Folding keeps all signed numbers apart. -/
theorem unfold_fold (n : Int64) : unfold (fold n) = n := by
  have hlo : -2 ^ 63 ≤ n.toInt := n.le_toInt
  have hhi : n.toInt < 2 ^ 63 := n.toInt_lt
  have hback : ∀ m : Nat, m < UInt64.size → (UInt64.ofNat m).toNat = m := fun m hm =>
    Nat.mod_eq_of_lt hm
  have hsize : UInt64.size = 2 ^ 64 := by decide
  by_cases hneg : n.toInt < 0
  · have hfold : (fold n).toNat = (-2 * n.toInt - 1).toNat := by
      simp only [fold, if_pos hneg]
      exact hback _ (by omega)
    have hodd : (fold n).toNat % 2 = 1 := by omega
    have hhalf : -(((fold n).toNat / 2 : Nat) : Int) - 1 = n.toInt := by omega
    simp only [unfold, if_pos hodd, hhalf, Int64.ofInt_toInt]
  · have hfold : (fold n).toNat = (2 * n.toInt).toNat := by
      simp only [fold, if_neg hneg]
      exact hback _ (by omega)
    have heven : ¬ (fold n).toNat % 2 = 1 := by omega
    have hhalf : (((fold n).toNat / 2 : Nat) : Int) = n.toInt := by omega
    simp only [unfold, if_neg heven, hhalf, Int64.ofInt_toInt]

theorem yields_long (n : Int64) : decodeLong.Yields (encodeLong n) (.ok n) := by
  have := (yields_varint (fold n)).map_ok unfold
  rwa [unfold_fold] at this

theorem yields_int (n : Int32) : decodeInt.Yields (encodeInt n) (.ok n) := by
  refine yields_offset_bind fun start => ?_
  have hrange : Int32.minValue.toInt ≤ n.toInt64.toInt ∧
      n.toInt64.toInt ≤ Int32.maxValue.toInt := by
    rw [Int32.toInt_toInt64]
    exact ⟨n.minValue_le_toInt, n.toInt_le⟩
  refine (yields_long n.toInt64).bind_ok_nil ?_
  simp only [if_pos hrange, Int32.toInt32_toInt64]
  exact yields_pure n

/-! ## Truth values and floating-point words -/

theorem yields_bool (b : Bool) : decodeBool.Yields (encodeBool b) (.ok b) := by
  cases b <;> exact fun _ _ => rfl

theorem yields_float (word : UInt32) : decodeFloat.Yields (encodeFloat word) (.ok word) := by
  have hword : ByteOrder.ofLowFirst (encodeFloat word) = word.toNat :=
    ByteOrder.ofLowFirst_lowFirst word.toNat_lt
  have := (yields_take (ByteOrder.length_lowFirst 4 word.toNat)).map_ok
    fun bytes => UInt32.ofNat (ByteOrder.ofLowFirst bytes)
  change Yields _ _ (.ok (UInt32.ofNat (ByteOrder.ofLowFirst (encodeFloat word)))) at this
  rw [hword, UInt32.ofNat_toNat] at this
  exact this

theorem yields_double (word : UInt64) : decodeDouble.Yields (encodeDouble word) (.ok word) := by
  have hword : ByteOrder.ofLowFirst (encodeDouble word) = word.toNat :=
    ByteOrder.ofLowFirst_lowFirst word.toNat_lt
  have := (yields_take (ByteOrder.length_lowFirst 8 word.toNat)).map_ok
    fun bytes => UInt64.ofNat (ByteOrder.ofLowFirst bytes)
  change Yields _ _ (.ok (UInt64.ofNat (ByteOrder.ofLowFirst (encodeDouble word)))) at this
  rw [hword, UInt64.ofNat_toNat] at this
  exact this

/-! ## Lengths, byte strings and texts -/

/-- Parts that all take a byte take as many bytes as there are parts. -/
theorem length_le_flatMap {α : Type} {l : List α} {part : α → List UInt8}
    (h : ∀ a ∈ l, 0 < (part a).length) : l.length ≤ (l.flatMap part).length := by
  induction l with
  | nil => exact Nat.le_refl 0
  | cons a rest ih =>
    have hfirst := h a List.mem_cons_self
    have hrest := ih fun b hb => h b (List.mem_cons_of_mem a hb)
    rw [List.flatMap_cons, List.length_append, List.length_cons]
    omega

/-- A length is accepted in front of at least as many bytes as it says. -/
theorem yields_length_bind_of_lt {β : Type} {n : Nat} {bytes : List UInt8} {k : Nat → Decoder β}
    {r : Except ExchangeError β} (hn : n ≤ bytes.length) (hsize : n < UInt64.size)
    (h : (k n).Yields bytes r) : (decodeLength >>= k).Yields (encodeLength n ++ bytes) r := by
  have hword : (UInt64.ofNat n).toNat = n := Nat.mod_eq_of_lt hsize
  have hrun : ∀ suffix start, (decodeLength >>= k).run ⟨encodeLength n ++ bytes ++ suffix, start⟩
      = (k n).run ⟨bytes ++ suffix, start + (encodeLength n).length⟩ := by
    intro suffix start
    have hnat := yields_nat hsize (bytes ++ suffix) start
    have hle : n ≤ (bytes ++ suffix).length := by
      rw [List.length_append]
      omega
    have hlength : decodeLength.run ⟨encodeLength n ++ (bytes ++ suffix), start⟩
        = .ok n ⟨bytes ++ suffix, start + (encodeLength n).length⟩ := by
      unfold decodeLength offset remaining
      simp only [encodeLength, EStateM.run_bind, EStateM.run_get, EStateM.run_pure, hnat,
        Cursor.remaining, hword, if_pos hle]
    rw [EStateM.run_bind, List.append_assoc, hlength]
  -- Of a result it is said where reading stops, of a failure only which one it is.
  cases r with
  | ok a =>
    intro suffix start
    rw [hrun, h suffix _, List.length_append, Nat.add_assoc]
  | error e =>
    intro suffix start
    rw [hrun]
    exact h suffix _

theorem yields_length_bind {β : Type} {n : Nat} {bytes : List UInt8} {k : Nat → Decoder β}
    {r : Except ExchangeError β} (hn : n ≤ bytes.length) (hsize : bytes.length < UInt64.size)
    (h : (k n).Yields bytes r) : (decodeLength >>= k).Yields (encodeLength n ++ bytes) r :=
  yields_length_bind_of_lt hn (Nat.lt_of_le_of_lt hn hsize) h

/-- Only the content has to be one that 64 bits can count. -/
theorem yields_bytes_of_length {bytes : List UInt8} (h : bytes.length < UInt64.size) :
    decodeBytes.Yields (encodeBytes bytes) (.ok bytes) :=
  yields_length_bind (Nat.le_refl _) h (yields_take rfl)

theorem yields_bytes {bytes : List UInt8} (h : (encodeBytes bytes).length < UInt64.size) :
    decodeBytes.Yields (encodeBytes bytes) (.ok bytes) := by
  rw [encodeBytes, List.length_append] at h
  exact yields_bytes_of_length (by omega)

/-- Every text is the text of its own bytes. -/
theorem decode_encode_utf8 (s : String) : Utf8.decode (Utf8.encode s) = .ok s := by
  have hvalid : s.toUTF8.IsValidUTF8 := s.isValidUTF8
  have hbytes : (⟨(Utf8.encode s).toArray⟩ : ByteArray) = s.toUTF8 := by
    simp [Utf8.encode]
  simp only [Utf8.decode, hbytes, String.fromUTF8?, dif_pos hvalid]
  rfl

theorem yields_string_of_length {s : String} (h : (Utf8.encode s).length < UInt64.size) :
    decodeString.Yields (encodeString s) (.ok s) := by
  refine yields_offset_bind fun start => ?_
  refine (yields_bytes_of_length h).bind_ok_nil ?_
  simp only [decode_encode_utf8]
  exact yields_pure s

theorem yields_string {s : String} (h : (encodeString s).length < UInt64.size) :
    decodeString.Yields (encodeString s) (.ok s) := by
  rw [encodeString, encodeBytes, List.length_append] at h
  exact yields_string_of_length (by omega)

theorem yields_index {i : Nat} (h : i < UInt64.size) :
    decodeIndex.Yields (encodeLength i) (.ok i) := by
  have := (yields_nat h).map_ok UInt64.toNat
  rwa [show (UInt64.ofNat i).toNat = i from Nat.mod_eq_of_lt h] at this

/-! ## How long texts are -/

/-- A character takes at most four bytes. -/
theorem length_utf8_ofList_le (cs : List Char) :
    (Utf8.encode (String.ofList cs)).length ≤ 4 * cs.length := by
  have hsum : (Utf8.encode (String.ofList cs)).length = (cs.map Char.utf8Size).sum := by
    simp [Utf8.encode, List.utf8Encode]
  rw [hsum]
  clear hsum
  induction cs with
  | nil => exact Nat.le_refl 0
  | cons c rest ih =>
    have hc := c.utf8Size_le_four
    rw [List.map_cons, List.sum_cons, List.length_cons]
    omega

theorem length_groups_le (left : Nat) : ∀ n, (groups left n).length ≤ left := by
  induction left with
  | zero => exact fun _ => Nat.le_refl 0
  | succ left ih =>
    intro n
    rw [groups]
    split
    · exact Nat.succ_le_succ (Nat.zero_le left)
    · exact Nat.succ_le_succ (ih (n / 128))

/-- A text takes at most twice its bytes and one. -/
theorem length_encodeString_le (s : String) :
    (encodeString s).length ≤ 2 * (Utf8.encode s).length + 1 := by
  have hcount := length_groups_le (groupCount (Utf8.encode s).length) (Utf8.encode s).length
  have hlog : groupCount (Utf8.encode s).length ≤ (Utf8.encode s).length + 1 := by
    have hself := Nat.log2_le_self (Utf8.encode s).length
    unfold groupCount
    omega
  rw [encodeString, encodeBytes, encodeLength, encodeNat, List.length_append]
  omega

end Wire

namespace Decoder

/-! ## Optional values and enumerations -/

theorem yields_branch (present : Bool) :
    branch.Yields [if present then 1 else 0] (.ok present) := by
  cases present <;> exact fun _ _ => rfl

/-- The index of a symbol is read as the symbol. -/
theorem yields_symbol {symbols : List String} {i : Nat} {s : String} (hs : symbols[i]? = some s)
    (h : i < UInt64.size) : (symbol symbols).Yields (Wire.encodeLength i) (.ok s) := by
  refine (Wire.yields_index h).bind_ok_nil ?_
  rw [hs]
  exact yields_pure s

/-- Symbols that 64 bits can count are all read back. -/
theorem yields_symbol_of_idxOf? {symbols : List String} {i : Nat} {s : String}
    (hsize : symbols.length ≤ UInt64.size) (h : symbols.idxOf? s = some i) :
    (symbol symbols).Yields (Wire.encodeLength i) (.ok s) := by
  obtain ⟨hlt, hat, -⟩ := List.idxOf?_eq_some_iff.mp h
  exact yields_symbol (List.getElem?_eq_some_iff.mpr ⟨hlt, by simpa using hat⟩)
    (Nat.lt_of_lt_of_le hlt hsize)

end Decoder

/-! ## Headers -/

/-- A header is read back, whether it carries the text of a schema or not. Only this text has to be
one that 64 bits can count. -/
theorem Header.yields_encode_of_length {h : Header}
    (hsize : ∀ text ∈ h.schemaText, (Utf8.encode text).length < UInt64.size) :
    decode.Yields h.encode (.ok h) := by
  obtain ⟨fingerprint, schemaText⟩ := h
  have hfingerprint : (Decoder.take Fingerprint.width).Yields fingerprint.toBytes
      (.ok fingerprint.toBytes) := Decoder.yields_take fingerprint.length_toBytes
  have hback : Fingerprint.ofBytes fingerprint.toBytes = fingerprint :=
    fingerprint.ofBytes_toBytes
  rw [encode, List.append_assoc]
  refine (Decoder.yields_take (show marker.length = 2 from rfl)).bind_ok ?_
  rw [if_neg fun hne => hne rfl]
  refine hfingerprint.bind_ok ?_
  rw [hback]
  cases schemaText with
  | none => exact (Decoder.yields_byte 0).bind_ok_nil (Decoder.yields_pure _)
  | some text =>
    exact (Decoder.yields_byte 1).bind_ok
      ((Wire.yields_string_of_length (hsize text rfl)).bind_ok_nil (Decoder.yields_pure _))

theorem Header.yields_encode {h : Header} (hsize : h.encode.length < UInt64.size) :
    decode.Yields h.encode (.ok h) := by
  refine Header.yields_encode_of_length fun text htext => ?_
  rw [encode, Option.mem_def.mp htext] at hsize
  simp only [Wire.encodeString, Wire.encodeBytes, List.length_append, List.length_cons] at hsize
  omega

end RecordExchange
