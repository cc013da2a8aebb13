import RecordExchange.Proofs.Resolution
import RecordExchange.Proofs.Rounding

/-!
# Promoted numbers

A reader that wants a wider type than was written takes the number over. This module proves which
number that is.

- `Binary.isNearest_singleOfInt`, `Binary.isNearest_doubleOfInt`: the word of an integer is nearest
  to it; `Binary.number?_singleOfInt`, `Binary.number?_doubleOfInt`: it is the integer itself up to
  the first that the fraction has no room for.
- `Binary.number?_widen`: a single word as a double word, of the same number, sign and kind.
- `FieldType.isNearest_promote`: a promoted value is as near to what was written as its type allows.
- `FieldType.number?_promote_double`: what a double takes over without any loss.
-/

namespace RecordExchange

namespace BinaryFormat

variable {f : BinaryFormat}

/-! ## Integers -/

theorem Proper.inRange_int (h : f.Proper) {m : Nat} (hm : m < bit f.bias) : f.InRange m 0 := by
  rcases Nat.eq_zero_or_pos m with rfl | hpos
  · exact .inl rfl
  · have hne : m ≠ 0 := Nat.ne_of_gt hpos
    have hlog : m.log2 < f.bias := (Nat.log2_lt hne).mpr hm
    have hbias := h.bias_pos
    have htop := h.topExponent_eq
    exact .inr ⟨hne, by omega, by omega⟩

theorem sign_mul_natAbs (n : ℤ) : sign (n < 0) * ((n.natAbs : ℚ) * 2 ^ (0 : ℤ)) = n := by
  have habs : ((n.natAbs : ℤ) : ℚ) = |(n : ℚ)| := by rw [Int.natCast_natAbs, Int.cast_abs]
  rw [zpow_zero, mul_one, ← Int.cast_natCast, habs]
  by_cases hn : n < 0
  · rw [abs_of_neg (by exact_mod_cast hn)]
    simp [sign, hn]
  · rw [abs_of_nonneg (by exact_mod_cast Int.not_lt.mp hn)]
    simp [sign, hn]

theorem dvd_of_le_bit {m : Nat} (h : m ≤ bit (f.fractionBits + 1)) :
    bit (m.log2 - f.fractionBits) ∣ m := by
  rcases Nat.lt_or_eq_of_le h with hlt | rfl
  · have hlog : m.log2 ≤ f.fractionBits := by
      by_cases hm : m = 0
      · rw [hm, Nat.log2_zero]
        exact Nat.zero_le _
      · exact Nat.le_of_lt_succ ((Nat.log2_lt hm).mpr hlt)
    rw [Nat.sub_eq_zero_of_le hlog]
    exact Nat.one_dvd m
  · have hlog : (bit (f.fractionBits + 1)).log2 = f.fractionBits + 1 := Nat.log2_two_pow
    rw [hlog, Nat.add_sub_cancel_left, Nat.add_comm, bit_add]
    exact Nat.dvd_mul_right _ _

/-- The word of an integer. -/
def wordOfInt (f : BinaryFormat) (n : ℤ) : Nat :=
  f.signBit (n < 0) + f.round n.natAbs 0

section Integers

variable {n : ℤ} (h : f.Proper) (hn : n.natAbs < bit f.bias)

include h hn

theorem Proper.wordOfInt_lt : f.wordOfInt n < bit (f.exponentBits + f.fractionBits + 1) :=
  h.round_lt _ (h.inRange_int hn)

theorem Proper.isNegative_wordOfInt : f.isNegative (f.wordOfInt n) = decide (n < 0) :=
  h.isNegative_round _ (h.inRange_int hn)

theorem Proper.isNearest_wordOfInt : f.IsNearest n (f.wordOfInt n) := by
  have hnearest := h.isNearest_round (decide (n < 0)) (h.inRange_int hn)
  rwa [sign_mul_natAbs] at hnearest

/-- Of the words with the sign of an integer only this one is nearest to it. -/
theorem Proper.eq_wordOfInt {word : Nat} (hnearest : f.IsNearest n word)
    (hsign : f.isNegative word = decide (n < 0))
    (hlt : word < bit (f.exponentBits + f.fractionBits + 1)) : word = f.wordOfInt n := by
  refine hnearest.unique h.fractionBits (h.isNearest_wordOfInt hn) ?_ hlt (h.wordOfInt_lt hn)
  rw [hsign, h.isNegative_wordOfInt hn]

theorem Proper.number?_wordOfInt (hfits : n.natAbs ≤ bit (f.fractionBits + 1)) :
    f.number? (f.wordOfInt n) = some (n : ℚ) := by
  unfold wordOfInt
  rw [h.number?_round _ (h.inRange_int hn) (dvd_of_le_bit hfits), sign_mul_natAbs]

end Integers

end BinaryFormat

namespace Binary

open BinaryFormat

section Integers

variable {n : ℤ}

theorem toNat_singleOfInt (hn : n.natAbs < bit single.bias) :
    (singleOfInt n).toNat = single.wordOfInt n := by
  unfold singleOfInt
  rw [UInt32.toNat_ofNat']
  exact Nat.mod_eq_of_lt (proper_single.wordOfInt_lt hn)

theorem toNat_doubleOfInt (hn : n.natAbs < bit double.bias) :
    (doubleOfInt n).toNat = double.wordOfInt n := by
  unfold doubleOfInt
  rw [UInt64.toNat_ofNat']
  exact Nat.mod_eq_of_lt (proper_double.wordOfInt_lt hn)

theorem isNearest_singleOfInt (hn : n.natAbs < bit single.bias) :
    single.IsNearest n (singleOfInt n).toNat := by
  rw [toNat_singleOfInt hn]
  exact proper_single.isNearest_wordOfInt hn

theorem isNearest_doubleOfInt (hn : n.natAbs < bit double.bias) :
    double.IsNearest n (doubleOfInt n).toNat := by
  rw [toNat_doubleOfInt hn]
  exact proper_double.isNearest_wordOfInt hn

theorem eq_singleOfInt (hn : n.natAbs < bit single.bias) {word : UInt32}
    (hnearest : single.IsNearest n word.toNat)
    (hsign : single.isNegative word.toNat = decide (n < 0)) : word = singleOfInt n := by
  refine UInt32.toNat_inj.mp ?_
  rw [toNat_singleOfInt hn]
  exact proper_single.eq_wordOfInt hn hnearest hsign word.toNat_lt

theorem eq_doubleOfInt (hn : n.natAbs < bit double.bias) {word : UInt64}
    (hnearest : double.IsNearest n word.toNat)
    (hsign : double.isNegative word.toNat = decide (n < 0)) : word = doubleOfInt n := by
  refine UInt64.toNat_inj.mp ?_
  rw [toNat_doubleOfInt hn]
  exact proper_double.eq_wordOfInt hn hnearest hsign word.toNat_lt

/-- Integers up to `2 ^ 24` are kept by a single word. -/
theorem number?_singleOfInt (hn : n.natAbs ≤ bit 24) :
    single.number? (singleOfInt n).toNat = some (n : ℚ) := by
  have hsmall : n.natAbs < bit single.bias := Nat.lt_of_le_of_lt hn (bit_lt_bit (by decide))
  rw [toNat_singleOfInt hsmall]
  exact proper_single.number?_wordOfInt hsmall hn

/-- Integers up to `2 ^ 53` are kept by a double word. -/
theorem number?_doubleOfInt (hn : n.natAbs ≤ bit 53) :
    double.number? (doubleOfInt n).toNat = some (n : ℚ) := by
  have hsmall : n.natAbs < bit double.bias := Nat.lt_of_le_of_lt hn (bit_lt_bit (by decide))
  rw [toNat_doubleOfInt hsmall]
  exact proper_double.number?_wordOfInt hsmall hn

end Integers

/-! ## From single to double -/

section Widening

variable {word : UInt32}

theorem inRange_widen {m : Nat} {q : ℤ} (h : single.classify word.toNat = .finite m q) :
    double.InRange m q := by
  obtain ⟨hlt, hleast, hmost⟩ := classify_finite h
  rcases Nat.eq_zero_or_pos m with rfl | hpos
  · exact .inl rfl
  · have hne : m ≠ 0 := Nat.ne_of_gt hpos
    have hlog : m.log2 < single.fractionBits + 1 := (Nat.log2_lt hne).mpr hlt
    have hsingle : single.bias = 127 := rfl
    have hdouble : double.bias = 1023 := rfl
    have htop : double.topExponent = 2047 := rfl
    have hfraction : single.fractionBits = 23 := rfl
    have hexponent : bit single.exponentBits = 256 := rfl
    exact .inr ⟨hne, by omega, by omega⟩

theorem toNat_widen_of_finite {m : Nat} {q : ℤ} (h : single.classify word.toNat = .finite m q) :
    (widen word).toNat = double.signBit (single.isNegative word.toNat) + double.round m q := by
  simp only [widen, h]
  rw [UInt64.toNat_ofNat']
  exact Nat.mod_eq_of_lt (proper_double.round_lt _ (inRange_widen h))

theorem toNat_ofTop (negative : Bool) {m : Nat} (hm : m < bit double.fractionBits) :
    (UInt64.ofNat (double.signBit negative +
      (double.topExponent * bit double.fractionBits + m))).toNat =
      double.signBit negative + (double.topExponent * bit double.fractionBits + m) := by
  rw [UInt64.toNat_ofNat']
  exact Nat.mod_eq_of_lt (word_lt negative (topExponent_lt double) hm)

theorem toNat_widen_of_infinite (h : single.classify word.toNat = .infinite) :
    (widen word).toNat = double.signBit (single.isNegative word.toNat) +
      (double.topExponent * bit double.fractionBits + 0) := by
  rw [← toNat_ofTop _ (bit_pos _)]
  simp only [widen, h, Nat.add_zero]

/-- The fraction that a NaN gets: its own in the leading bits, the first of which is set. -/
def quietPayload (word : UInt32) : Nat :=
  single.fractionField word.toNat * bit 29 ||| bit 51

theorem quietPayload_pos (word : UInt32) : 0 < quietPayload word :=
  Nat.lt_of_lt_of_le (bit_pos 51) Nat.right_le_or

theorem quietPayload_lt (word : UInt32) : quietPayload word < bit double.fractionBits := by
  refine Nat.or_lt_two_pow ?_ (bit_lt_bit (by decide))
  calc single.fractionField word.toNat * bit 29 < bit 23 * bit 29 :=
        Nat.mul_lt_mul_of_pos_right (fractionField_lt single _) (bit_pos _)
    _ = bit 52 := (bit_add 23 29).symm

theorem toNat_widen_of_nan (h : single.classify word.toNat = .nan) :
    (widen word).toNat = double.signBit (single.isNegative word.toNat) +
      (double.topExponent * bit double.fractionBits + quietPayload word) := by
  simp only [widen, h]
  exact toNat_ofTop _ (quietPayload_lt word)

theorem isNegative_widen (word : UInt32) :
    double.isNegative (widen word).toNat = single.isNegative word.toNat := by
  cases h : single.classify word.toNat with
  | nan =>
    rw [toNat_widen_of_nan h]
    exact isNegative_word _ (topExponent_lt double) (quietPayload_lt word)
  | infinite =>
    rw [toNat_widen_of_infinite h]
    exact isNegative_word _ (topExponent_lt double) (bit_pos _)
  | finite m q =>
    rw [toNat_widen_of_finite h]
    exact proper_double.isNegative_round _ (inRange_widen h)

theorem classify_widen_of_infinite (h : single.classify word.toNat = .infinite) :
    double.classify (widen word).toNat = .infinite := by
  rw [toNat_widen_of_infinite h, classify_top _ (bit_pos _), if_pos rfl]

theorem classify_widen_of_nan (h : single.classify word.toNat = .nan) :
    double.classify (widen word).toNat = .nan := by
  rw [toNat_widen_of_nan h, classify_top _ (quietPayload_lt word),
    if_neg (Nat.ne_of_gt (quietPayload_pos word))]

/-- The double word of a single word has its number, below the normal range of single words too. -/
theorem number?_widen (word : UInt32) :
    double.number? (widen word).toNat = single.number? word.toNat := by
  cases h : single.classify word.toNat with
  | nan => simp only [number?, h, classify_widen_of_nan h]
  | infinite => simp only [number?, h, classify_widen_of_infinite h]
  | finite m q =>
    have hle : m ≤ bit (double.fractionBits + 1) :=
      Nat.le_of_lt (Nat.lt_trans (classify_finite h).1 (bit_lt_bit (by decide)))
    rw [toNat_widen_of_finite h, proper_double.number?_round _ (inRange_widen h) (dvd_of_le_bit hle)]
    simp only [number?, h]

end Widening

end Binary

/-! ## Promoted values -/

/-- The number of a value. -/
def Value.number? : Value → Option ℚ
  | .int n => some n.toInt
  | .long n => some n.toInt
  | .float word => BinaryFormat.single.number? word.toNat
  | .double word => BinaryFormat.double.number? word.toNat
  | _ => none

/-- Whether a value is as near to a number as its type allows. -/
def Value.IsNearest (x : ℚ) : Value → Prop
  | .float word => BinaryFormat.single.IsNearest x word.toNat
  | .double word => BinaryFormat.double.IsNearest x word.toNat
  | v => v.number? = some x

theorem Value.isNearest_of_number? {v : Value} {x : ℚ} (h : v.number? = some x) :
    v.IsNearest x := by
  cases v with
  | float word => exact BinaryFormat.isNearest_of_number? h
  | double word => exact BinaryFormat.isNearest_of_number? h
  | _ => exact h

theorem natAbs_int_lt (n : Int32) : n.toInt.natAbs < BinaryFormat.bit 32 := by
  have hle := n.le_toInt
  have hlt := n.toInt_lt
  have hbit : BinaryFormat.bit 32 = 4294967296 := rfl
  omega

theorem natAbs_long_lt (n : Int64) : n.toInt.natAbs < BinaryFormat.bit 64 := by
  have hle := n.le_toInt
  have hlt := n.toInt_lt
  have hbit : BinaryFormat.bit 64 = 18446744073709551616 := rfl
  omega

/-- What promotion can do: leave a value as it is or move a number to a wider type. -/
theorem FieldType.promote_cases {wanted written : FieldType} {v u : Value}
    (h : wanted.promote written v = some u) :
    u = v ∨
    (∃ n : Int32, v = .int n ∧
      (wanted = .long ∧ u = .long n.toInt64 ∨
        wanted = .float ∧ u = .float (Binary.singleOfInt n.toInt) ∨
        wanted = .double ∧ u = .double (Binary.doubleOfInt n.toInt))) ∨
    (∃ n : Int64, v = .long n ∧
      (wanted = .float ∧ u = .float (Binary.singleOfInt n.toInt) ∨
        wanted = .double ∧ u = .double (Binary.doubleOfInt n.toInt))) ∨
    ∃ word, v = .float word ∧ u = .double (Binary.widen word) := by
  unfold FieldType.promote at h
  split at h
  case h_8 n => exact .inr (.inl ⟨n, rfl, .inl ⟨rfl, (Option.some.inj h).symm⟩⟩)
  case h_9 n => exact .inr (.inl ⟨n, rfl, .inr (.inl ⟨rfl, (Option.some.inj h).symm⟩)⟩)
  case h_10 n => exact .inr (.inl ⟨n, rfl, .inr (.inr ⟨rfl, (Option.some.inj h).symm⟩)⟩)
  case h_11 n => exact .inr (.inr (.inl ⟨n, rfl, .inl ⟨rfl, (Option.some.inj h).symm⟩⟩))
  case h_12 n => exact .inr (.inr (.inl ⟨n, rfl, .inr ⟨rfl, (Option.some.inj h).symm⟩⟩))
  case h_13 word => exact .inr (.inr (.inr ⟨word, rfl, (Option.some.inj h).symm⟩))
  case h_14 => cases h
  all_goals exact .inl (Option.some.inj h).symm

/-- A promoted number is the nearest one that the wanted type has. -/
theorem FieldType.isNearest_promote {wanted written : FieldType} {v u : Value}
    (h : wanted.promote written v = some u) {x : ℚ} (hx : v.number? = some x) : u.IsNearest x := by
  rcases promote_cases h with rfl | ⟨n, rfl, hu⟩ | ⟨n, rfl, hu⟩ | ⟨word, rfl, rfl⟩
  · exact Value.isNearest_of_number? hx
  -- Integers of 32 bits are far below the greatest number of either type.
  · have hsmall : ∀ k, 32 < k → n.toInt.natAbs < BinaryFormat.bit k := fun k hk =>
      Nat.lt_trans (natAbs_int_lt n) (BinaryFormat.bit_lt_bit hk)
    cases Option.some.inj hx
    rcases hu with ⟨-, rfl⟩ | ⟨-, rfl⟩ | ⟨-, rfl⟩
    · simp [Value.IsNearest, Value.number?]
    · exact Binary.isNearest_singleOfInt (hsmall _ (by decide))
    · exact Binary.isNearest_doubleOfInt (hsmall _ (by decide))
  · have hsmall : ∀ k, 64 < k → n.toInt.natAbs < BinaryFormat.bit k := fun k hk =>
      Nat.lt_trans (natAbs_long_lt n) (BinaryFormat.bit_lt_bit hk)
    cases Option.some.inj hx
    rcases hu with ⟨-, rfl⟩ | ⟨-, rfl⟩
    · exact Binary.isNearest_singleOfInt (hsmall _ (by decide))
    · exact Binary.isNearest_doubleOfInt (hsmall _ (by decide))
  · exact BinaryFormat.isNearest_of_number? ((Binary.number?_widen word).trans hx)

/-- A double keeps the number of every `int`, of every `float` and of a `long` up to `2 ^ 53`. -/
theorem FieldType.number?_promote_double {written : FieldType} {v u : Value}
    (h : FieldType.double.promote written v = some u)
    (hlong : ∀ n, v = .long n → n.toInt.natAbs ≤ BinaryFormat.bit 53) : u.number? = v.number? := by
  rcases promote_cases h with rfl | ⟨n, rfl, hu⟩ | ⟨n, rfl, hu⟩ | ⟨word, rfl, rfl⟩
  · rfl
  · have hfits : n.toInt.natAbs ≤ BinaryFormat.bit 53 := Nat.le_of_lt
      (Nat.lt_trans (natAbs_int_lt n) (BinaryFormat.bit_lt_bit (by decide)))
    obtain ⟨hwanted, -⟩ | ⟨hwanted, -⟩ | ⟨-, rfl⟩ := hu
    · cases hwanted
    · cases hwanted
    · exact Binary.number?_doubleOfInt hfits
  · obtain ⟨hwanted, -⟩ | ⟨-, rfl⟩ := hu
    · cases hwanted
    · exact Binary.number?_doubleOfInt (hlong n rfl)
  · exact Binary.number?_widen word

end RecordExchange
