import RecordExchange.Text.Utf8

/-!
# The order of texts

Texts are ordered by their characters, and characters by their codes. A reader that knows only the
bytes of two texts comes to the same order when it compares byte by byte, unsigned: a character of a
lower code is spelled with a lower byte where the two spellings first differ. That holds beyond the
characters of 16 bits too, where an order by UTF-16 units would be another one.

- `Utf8.spell`: the bytes of a character, its code in digits of six bits.
- `Utf8.Form`: the four forms of spelling, by their marks and how many bytes follow the first.
- `Utf8.utf8EncodeChar_append_lt`: characters compare as their spellings do, whatever comes after.
- `Utf8.encode_lt_encode_iff`, `Utf8.encode_le_encode_iff`: texts compare as their bytes do.
-/

namespace RecordExchange.Utf8

/-! ## Spellings of a character -/

/-- A code in digits of six bits, so many of them in tail bytes. The first byte has what is left of
the code, and a mark. -/
def spell (mark : Nat) : Nat → Nat → List UInt8
  | 0, code => [UInt8.ofNat (mark + code)]
  | tails + 1, code => spell mark tails (code / 64) ++ [UInt8.ofNat (0x80 + code % 64)]

/-- The first byte of a spelling. -/
def lead (mark : Nat) : Nat → Nat → Nat
  | 0, code => mark + code
  | tails + 1, code => lead mark tails (code / 64)

/-- The mark that the first byte of a code has, and the number of tail bytes after it. -/
inductive Form : Nat → Nat → Nat → Prop where
  | one {code : Nat} : code ≤ 0x7f → Form code 0 0
  | two {code : Nat} : 0x7f < code → code ≤ 0x7ff → Form code 0xc0 1
  | three {code : Nat} : 0x7ff < code → code ≤ 0xffff → Form code 0xe0 2
  | four {code : Nat} : 0xffff < code → code ≤ 0x10ffff → Form code 0xf0 3

theorem toNat_le (c : Char) : c.toNat ≤ 0x10ffff := by
  rcases c.valid with h | ⟨-, h⟩
  · exact Nat.le_trans (Nat.le_of_lt h) (by decide)
  · exact Nat.le_of_lt_succ h

/-- A character is spelled in one of the four forms. -/
theorem exists_form (c : Char) : ∃ mark tails, Form c.toNat mark tails ∧
    String.utf8EncodeChar c = spell mark tails c.toNat := by
  have hvalid := toNat_le c
  have hval : c.val.toNat = c.toNat := rfl
  simp only [String.utf8EncodeChar, hval]
  generalize c.toNat = code at hvalid
  have htwo : code / 4096 = code / 64 / 64 := by omega
  have hthree : code / 262144 = code / 64 / 64 / 64 := by omega
  -- The code takes one to four bytes, by the bounds that it is compared with.
  split
  next hone => exact ⟨0, 0, .one hone, by simp only [spell, Nat.zero_add]⟩
  split
  next hmore hfits =>
    have hfirst : code / 64 < 32 := by omega
    refine ⟨0xc0, 1, .two (Nat.lt_of_not_le hmore) hfits, ?_⟩
    simp only [spell, List.cons_append, List.nil_append, Nat.add_comm, Nat.mod_eq_of_lt hfirst]
  split
  next hmore hfits =>
    have hfirst : code / 64 / 64 < 16 := by omega
    refine ⟨0xe0, 2, .three (Nat.lt_of_not_le hmore) hfits, ?_⟩
    simp only [spell, List.cons_append, List.nil_append, htwo, Nat.add_comm,
      Nat.mod_eq_of_lt hfirst]
  next hmore =>
    have hfirst : code / 64 / 64 / 64 < 8 := by omega
    refine ⟨0xf0, 3, .four (Nat.lt_of_not_le hmore) hvalid, ?_⟩
    simp only [spell, List.cons_append, List.nil_append, htwo, hthree, Nat.add_comm,
      Nat.mod_eq_of_lt hfirst]

theorem exists_spell_eq (mark : Nat) : ∀ tails code : Nat,
    ∃ rest, spell mark tails code = UInt8.ofNat (lead mark tails code) :: rest
  | 0, code => ⟨[], rfl⟩
  | tails + 1, code => by
    obtain ⟨rest, hrest⟩ := exists_spell_eq mark tails (code / 64)
    exact ⟨rest ++ [UInt8.ofNat (0x80 + code % 64)], by rw [spell, hrest, lead, List.cons_append]⟩

/-! ## Comparing spellings -/

theorem ofNat_lt_ofNat {m n : Nat} (h : m < n) (hn : n < 256) : UInt8.ofNat m < UInt8.ofNat n := by
  rw [UInt8.lt_iff_toNat_lt, UInt8.toNat_ofNat', UInt8.toNat_ofNat', Nat.mod_eq_of_lt hn,
    Nat.mod_eq_of_lt (Nat.lt_trans h hn)]
  exact h

/-- Spellings of one form compare as their codes do: the digits stand with the highest in front. -/
theorem spell_append_lt {mark : Nat} : ∀ {tails m n : Nat}, m < n → lead mark tails n < 256 →
    ∀ xs ys : List UInt8, spell mark tails m ++ xs < spell mark tails n ++ ys
  | 0, m, n, h, hn, xs, ys => List.Lex.rel (ofNat_lt_ofNat (Nat.add_lt_add_left h mark) hn)
  | tails + 1, m, n, h, hn, xs, ys => by
    rw [spell, spell, List.append_assoc, List.append_assoc]
    by_cases hhigh : m / 64 < n / 64
    · exact spell_append_lt hhigh hn _ _
    · -- The higher digits are the same, so that the lowest decides.
      have hsame : m / 64 = n / 64 := by omega
      rw [hsame]
      exact List.append_left_lt (List.Lex.rel (ofNat_lt_ofNat (by omega) (by omega)))

namespace Form

variable {m n mark mark' tails tails' : Nat}

theorem lead_lt (h : Form n mark tails) : lead mark tails n < 256 := by
  cases h <;> simp only [lead] <;> omega

theorem mark_eq (hm : Form m mark tails) (hn : Form n mark' tails) : mark = mark' := by
  cases hm <;> cases hn <;> rfl

/-- A lower code takes no more bytes. -/
theorem tails_le (hm : Form m mark tails) (hn : Form n mark' tails') (h : m < n) :
    tails ≤ tails' := by
  cases hm <;> cases hn <;> omega

/-- The first byte of a short spelling is below that of a longer one. -/
theorem lead_lt_lead (hm : Form m mark tails) (hn : Form n mark' tails') (h : tails < tails') :
    lead mark tails m < lead mark' tails' n := by
  cases hm <;> cases hn <;> simp only [lead] <;> omega

end Form

/-- The spelling of a lower character is below that of a higher one, whatever follows them. -/
theorem utf8EncodeChar_append_lt {c d : Char} (h : c < d) (xs ys : List UInt8) :
    String.utf8EncodeChar c ++ xs < String.utf8EncodeChar d ++ ys := by
  obtain ⟨mark, tails, hc, hspell⟩ := exists_form c
  obtain ⟨mark', tails', hd, hspell'⟩ := exists_form d
  have hlt : c.toNat < d.toNat := h
  rw [hspell, hspell']
  rcases Nat.lt_or_eq_of_le (hc.tails_le hd hlt) with hshorter | rfl
  · obtain ⟨rest, hrest⟩ := exists_spell_eq mark tails c.toNat
    obtain ⟨rest', hrest'⟩ := exists_spell_eq mark' tails' d.toNat
    rw [hrest, hrest']
    exact List.Lex.rel (ofNat_lt_ofNat (hc.lead_lt_lead hd hshorter) hd.lead_lt)
  · obtain rfl := hc.mark_eq hd
    exact spell_append_lt hlt hd.lead_lt xs ys

/-! ## Comparing texts -/

theorem flatMap_lt_flatMap {cs ds : List Char} (h : cs < ds) :
    cs.flatMap String.utf8EncodeChar < ds.flatMap String.utf8EncodeChar := by
  induction h with
  | @nil d ds =>
    rw [List.flatMap_nil, List.flatMap_cons]
    cases hd : String.utf8EncodeChar d with
    | nil => exact absurd hd String.utf8EncodeChar_ne_nil
    | cons b rest => exact List.Lex.nil
  | cons _ ih => exact List.append_left_lt ih
  | rel hlt => exact utf8EncodeChar_append_lt hlt _ _

theorem encode_ofList (cs : List Char) :
    encode (String.ofList cs) = cs.flatMap String.utf8EncodeChar := by
  simp [encode, List.utf8Encode]

theorem encode_lt_encode {a b : String} (h : a < b) : encode a < encode b := by
  rw [← a.ofList_toList, ← b.ofList_toList, encode_ofList, encode_ofList]
  exact flatMap_lt_flatMap h

/-- One text is below another exactly when its bytes are. -/
theorem encode_lt_encode_iff {a b : String} : encode a < encode b ↔ a < b := by
  refine ⟨fun h => Decidable.byContradiction fun hle => ?_, encode_lt_encode⟩
  by_cases hsame : b = a
  · exact List.lt_irrefl _ (hsame ▸ h)
  · exact List.lt_asymm h (encode_lt_encode (Std.lt_of_le_of_ne (String.not_lt.mp hle) hsame))

theorem encode_le_encode_iff {a b : String} : encode a ≤ encode b ↔ a ≤ b :=
  not_congr encode_lt_encode_iff

/-- The last character of 16 bits is below one that takes two UTF-16 units. -/
example : encode "\uffff" < encode "😀" := by decide

end RecordExchange.Utf8
