import RecordExchange.Proofs.WordNumbers

/-!
# Rounding

A number that a format does not have is replaced by the nearest one that it has, and half-way between
two by the one whose word is even. This module proves that `BinaryFormat.round` does so.

- `BinaryFormat.IsNearest`: a word compared with all others of its format.
- `BinaryFormat.Proper.isNearest_round`: the rounded word is nearest, for every number in the normal
  range.
- `BinaryFormat.IsNearest.exact`: a number that the format has is kept.
- `BinaryFormat.IsNearest.unique`: with its sign, the nearest word is the only one.

Let `u` be what the last place of a number `x` is worth. Rounding errs by `u / 2` at most. Any other
number of the format is either a multiple of `u`, hence at least `u` away from the rounded one, or
below the power of two that `x` lies above. That power is a multiple of `u` as well and lies between
the two.
-/

namespace RecordExchange

namespace BinaryFormat

variable {f : BinaryFormat}

/-- A format whose exponents have a middle and whose fraction has a last place. -/
structure Proper (f : BinaryFormat) : Prop where
  exponentBits : 1 < f.exponentBits
  fractionBits : 0 < f.fractionBits

theorem proper_single : single.Proper := ⟨by decide, by decide⟩

theorem proper_double : double.Proper := ⟨by decide, by decide⟩

theorem Proper.bias_pos (h : f.Proper) : 0 < f.bias := by
  have hbit : bit 1 ≤ bit (f.exponentBits - 1) :=
    Nat.pow_le_pow_right (by decide) (Nat.le_sub_of_add_le h.exponentBits)
  exact Nat.sub_pos_of_lt hbit

theorem Proper.topExponent_eq (h : f.Proper) : f.topExponent = 2 * f.bias + 1 := by
  have hbit : bit f.exponentBits = 2 * bit (f.exponentBits - 1) := by
    rw [← bit_succ, Nat.sub_add_cancel (Nat.le_of_lt h.exponentBits)]
  have hpos : 0 < bit (f.exponentBits - 1) := bit_pos _
  unfold topExponent bias
  omega

theorem Proper.topExponent_pos (h : f.Proper) : 0 < f.topExponent := by
  rw [h.topExponent_eq]
  exact Nat.succ_pos _

theorem Proper.number?_zero (h : f.Proper) (negative : Bool) :
    f.number? (f.signBit negative) = some 0 := by
  have hword : f.signBit negative = f.signBit negative + (0 * bit f.fractionBits + 0) := by
    rw [Nat.zero_mul]
    rfl
  rw [hword, number?_word negative h.topExponent_pos (bit_pos _)]
  simp [magnitude]

/-! ## The last place -/

theorem shiftToEven_error (n s : Nat) :
    2 * |(n : ℤ) - (shiftToEven n s * bit s : Nat)| ≤ bit s ∧
    (2 * |(n : ℤ) - (shiftToEven n s * bit s : Nat)| = bit s → shiftToEven n s % 2 = 0) := by
  have hrest : n % bit s < bit s := Nat.mod_lt n (bit_pos s)
  have hdiv : n / bit s * bit s + n % bit s = n := Nat.div_add_mod' n (bit s)
  simp only [shiftToEven]
  -- Up or down, the error is what was added or what was left out.
  split
  next hup =>
    have herror : |(n : ℤ) - ((n / bit s + 1) * bit s : Nat)| = (bit s - n % bit s : Nat) := by
      rw [Nat.add_mul, Nat.one_mul, abs_of_nonpos (by omega)]
      omega
    rw [herror]
    omega
  next hdown =>
    have herror : |(n : ℤ) - (n / bit s * bit s : Nat)| = (n % bit s : Nat) := by
      rw [abs_of_nonneg (by omega)]
      omega
    rw [herror]
    omega

theorem le_shiftToEven {n p s : Nat} (h : bit (p + s) ≤ n) : bit p ≤ shiftToEven n s := by
  have hlow : bit p ≤ n / bit s := by
    rw [Nat.le_div_iff_mul_le (bit_pos s), ← bit_add]
    exact h
  simp only [shiftToEven]
  split
  · exact Nat.le_succ_of_le hlow
  · exact hlow

theorem shiftToEven_le {n p s : Nat} (h : n < bit (p + s)) : shiftToEven n s ≤ bit p := by
  have hlow : n / bit s < bit p := by
    rw [Nat.div_lt_iff_lt_mul (bit_pos s), ← bit_add]
    exact h
  simp only [shiftToEven]
  split
  · exact hlow
  · exact Nat.le_of_lt hlow

theorem shiftToEven_of_dvd {n s : Nat} (h : bit s ∣ n) : shiftToEven n s * bit s = n := by
  have hpos : 0 < bit s := bit_pos s
  simp only [shiftToEven, Nat.mod_eq_zero_of_dvd h]
  rw [if_neg (by omega), Nat.div_mul_cancel h]

/-- The fraction that a number is rounded to, its leading bit included. -/
def significand (f : BinaryFormat) (m : Nat) : Nat :=
  if m.log2 ≤ f.fractionBits then m * bit (f.fractionBits - m.log2)
  else shiftToEven m (m.log2 - f.fractionBits)

theorem round_eq {m : Nat} (hm : m ≠ 0) (q : ℤ) :
    f.round m q = ((m.log2 : ℤ) + q + f.bias).toNat * bit f.fractionBits + f.significand m -
      bit f.fractionBits := by
  simp only [round, if_neg hm, significand]

theorem le_significand {m : Nat} (hm : m ≠ 0) : bit f.fractionBits ≤ f.significand m := by
  have hlog : bit m.log2 ≤ m := Nat.log2_self_le hm
  unfold significand
  split
  next h =>
    calc bit f.fractionBits
        = bit m.log2 * bit (f.fractionBits - m.log2) := by rw [← bit_add, Nat.add_sub_cancel' h]
      _ ≤ m * bit (f.fractionBits - m.log2) := Nat.mul_le_mul_right _ hlog
  next h =>
    refine le_shiftToEven ?_
    rw [Nat.add_sub_cancel' (Nat.le_of_not_le h)]
    exact hlog

theorem significand_le {m : Nat} : f.significand m ≤ bit (f.fractionBits + 1) := by
  have hlog : m < bit (m.log2 + 1) := Nat.lt_log2_self
  unfold significand
  split
  next h =>
    calc m * bit (f.fractionBits - m.log2)
        ≤ bit (m.log2 + 1) * bit (f.fractionBits - m.log2) :=
          Nat.mul_le_mul_right _ (Nat.le_of_lt hlog)
      _ = bit (f.fractionBits + 1) := by
        rw [← bit_add]
        congr 1
        omega
  next h =>
    refine shiftToEven_le ?_
    have hsum : f.fractionBits + 1 + (m.log2 - f.fractionBits) = m.log2 + 1 := by omega
    rw [hsum]
    exact hlog

theorem significand_exact {m : Nat} (h : bit (m.log2 - f.fractionBits) ∣ m) :
    (f.significand m : ℚ) * 2 ^ ((m.log2 : ℤ) - f.fractionBits) = m := by
  unfold significand
  split
  next hle =>
    rw [Nat.cast_mul, cast_bit, Nat.cast_sub hle, mul_assoc, ← zpow_add₀ two_ne_zero]
    simp
  next hlt =>
    rw [← Nat.cast_sub (Nat.le_of_not_le hlt), ← cast_bit, ← Nat.cast_mul, shiftToEven_of_dvd h]

theorem unit_scale (f : BinaryFormat) (e q : ℤ) :
    (2 : ℚ) ^ (e + q - f.fractionBits) = 2 ^ (e - f.fractionBits) * 2 ^ q := by
  rw [← zpow_add₀ two_ne_zero]
  congr 1
  omega

theorem significand_error (m : Nat) :
    2 * |(m : ℚ) - f.significand m * 2 ^ ((m.log2 : ℤ) - f.fractionBits)| ≤
      2 ^ ((m.log2 : ℤ) - f.fractionBits) ∧
    (2 * |(m : ℚ) - f.significand m * 2 ^ ((m.log2 : ℤ) - f.fractionBits)| =
      2 ^ ((m.log2 : ℤ) - f.fractionBits) → f.significand m % 2 = 0) := by
  have hpos : (0 : ℚ) < 2 ^ ((m.log2 : ℤ) - f.fractionBits) := zpow_pos two_pos _
  by_cases h : m.log2 ≤ f.fractionBits
  · have hexact : (f.significand m : ℚ) * 2 ^ ((m.log2 : ℤ) - f.fractionBits) = m := by
      refine significand_exact ?_
      rw [Nat.sub_eq_zero_of_le h]
      exact Nat.one_dvd m
    rw [hexact, sub_self, abs_zero, mul_zero]
    exact ⟨le_of_lt hpos, fun h => absurd h (ne_of_lt hpos)⟩
  · have hunit : (2 : ℚ) ^ ((m.log2 : ℤ) - f.fractionBits) =
        (bit (m.log2 - f.fractionBits) : Nat) := by
      rw [cast_bit, Nat.cast_sub (Nat.le_of_not_le h)]
    obtain ⟨hle, heven⟩ := shiftToEven_error m (m.log2 - f.fractionBits)
    rw [hunit, significand, if_neg h]
    constructor
    · exact_mod_cast hle
    · intro heq
      exact heven (by exact_mod_cast heq)

/-- A positive number whose exponent is in the normal range, also after a carry. -/
structure Normal (f : BinaryFormat) (m : Nat) (q : ℤ) : Prop where
  ne_zero : m ≠ 0
  low : 0 < (m.log2 : ℤ) + q + f.bias
  high : (m.log2 : ℤ) + q + f.bias + 1 < f.topExponent

/-- The fields of a rounded number. A significand that has reached the next power of two adds one to
the exponent and leaves the fraction empty, which is the same number. -/
theorem Normal.round_fields {m : Nat} {q : ℤ} (h : f.Normal m q) :
    ∃ e r, f.round m q = e * bit f.fractionBits + r ∧ e < f.topExponent ∧
      r < bit f.fractionBits ∧
      f.magnitude e r = f.significand m * 2 ^ ((m.log2 : ℤ) + q - f.fractionBits) := by
  obtain ⟨hm, hlow, hhigh⟩ := h
  obtain ⟨e, he⟩ := Int.eq_ofNat_of_zero_le (le_of_lt hlow)
  have hleast : bit f.fractionBits ≤ f.significand m := le_significand hm
  have hmost : f.significand m ≤ 2 * bit f.fractionBits := by
    rw [← bit_succ]
    exact significand_le
  have hexponent : (m.log2 : ℤ) + q - f.fractionBits = (e : ℤ) - f.bias - f.fractionBits := by omega
  rw [round_eq hm, he, Int.toNat_natCast, hexponent]
  rcases Nat.lt_or_eq_of_le hmost with hsmall | hcarry
  · refine ⟨e, f.significand m - bit f.fractionBits, by omega, by omega, by omega, ?_⟩
    rw [magnitude, if_neg (by omega), Nat.add_sub_cancel' hleast]
  · refine ⟨e + 1, 0, ?_, by omega, bit_pos _, ?_⟩
    · rw [hcarry, Nat.add_mul]
      omega
    · have hnext : ((e + 1 : Nat) : ℤ) - f.bias - f.fractionBits =
          ((e : ℤ) - f.bias - f.fractionBits) + 1 := by omega
      rw [magnitude, if_neg (Nat.succ_ne_zero e), hcarry, hnext, zpow_add_one₀ two_ne_zero]
      push_cast
      ring

theorem Normal.number?_round (negative : Bool) {m : Nat} {q : ℤ} (h : f.Normal m q) :
    f.number? (f.signBit negative + f.round m q) =
      some (sign negative * (f.significand m * 2 ^ ((m.log2 : ℤ) + q - f.fractionBits))) := by
  obtain ⟨e, r, hround, he, hr, hnumber⟩ := h.round_fields
  rw [hround, number?_word negative he hr, hnumber]

/-- A number that `round` is meant for. -/
def InRange (f : BinaryFormat) (m : Nat) (q : ℤ) : Prop :=
  m = 0 ∨ f.Normal m q

theorem round_zero (q : ℤ) : f.round 0 q = 0 := rfl

theorem Proper.round_fields (hf : f.Proper) {m : Nat} {q : ℤ} (h : f.InRange m q) :
    ∃ e r, f.round m q = e * bit f.fractionBits + r ∧ e < f.topExponent ∧
      r < bit f.fractionBits := by
  rcases h with rfl | h
  · exact ⟨0, 0, by rw [round_zero, Nat.zero_mul], hf.topExponent_pos, bit_pos _⟩
  · obtain ⟨e, r, hround, he, hr, -⟩ := h.round_fields
    exact ⟨e, r, hround, he, hr⟩

theorem Proper.round_lt (hf : f.Proper) (negative : Bool) {m : Nat} {q : ℤ}
    (h : f.InRange m q) :
    f.signBit negative + f.round m q < bit (f.exponentBits + f.fractionBits + 1) := by
  obtain ⟨e, r, hround, he, hr⟩ := hf.round_fields h
  rw [hround]
  exact word_lt negative (Nat.lt_trans he (topExponent_lt f)) hr

theorem Proper.isNegative_round (hf : f.Proper) (negative : Bool) {m : Nat} {q : ℤ}
    (h : f.InRange m q) : f.isNegative (f.signBit negative + f.round m q) = negative := by
  obtain ⟨e, r, hround, he, hr⟩ := hf.round_fields h
  rw [hround]
  exact isNegative_word negative (Nat.lt_trans he (topExponent_lt f)) hr

/-- A number whose last place the format has is kept. -/
theorem Proper.number?_round (hf : f.Proper) (negative : Bool) {m : Nat} {q : ℤ}
    (h : f.InRange m q) (hfits : bit (m.log2 - f.fractionBits) ∣ m) :
    f.number? (f.signBit negative + f.round m q) = some (sign negative * (m * 2 ^ q)) := by
  rcases h with rfl | h
  · rw [round_zero, Nat.add_zero, hf.number?_zero]
    simp
  · rw [h.number?_round, unit_scale, ← mul_assoc (f.significand m : ℚ), significand_exact hfits]

/-! ## The nearest number -/

/-- The number of the word is at least as near as that of any other word, and a word whose number is
not the only one at that distance is even. -/
def IsNearest (f : BinaryFormat) (x : ℚ) (word : Nat) : Prop :=
  ∃ y, f.number? word = some y ∧ ∀ other z, f.number? other = some z →
    |x - y| ≤ |x - z| ∧ (|x - y| = |x - z| → z = y ∨ word % 2 = 0)

/-- A number that has a word is nearest to itself. -/
theorem isNearest_of_number? {x : ℚ} {word : Nat} (h : f.number? word = some x) :
    f.IsNearest x word := by
  refine ⟨x, h, fun other z _ => ?_⟩
  rw [sub_self, abs_zero]
  refine ⟨abs_nonneg _, fun hzero => .inl ?_⟩
  exact (sub_eq_zero.mp (abs_eq_zero.mp hzero.symm)).symm

theorem IsNearest.closest {x y z : ℚ} {word other : Nat} (h : f.IsNearest x word)
    (hy : f.number? word = some y) (hz : f.number? other = some z) :
    |x - y| ≤ |x - z| ∧ (|x - y| = |x - z| → z = y ∨ word % 2 = 0) := by
  obtain ⟨y', hy', hclosest⟩ := h
  cases Option.some.inj (hy.symm.trans hy')
  exact hclosest other z hz

/-- Where the format has the number, the nearest word has it. -/
theorem IsNearest.exact {x : ℚ} {word other : Nat} (h : f.IsNearest x word)
    (hother : f.number? other = some x) : f.number? word = some x := by
  obtain ⟨y, hword, hclosest⟩ := h
  have hzero : |x - y| ≤ |x - x| := (hclosest other x hother).1
  rw [sub_self, abs_zero] at hzero
  have hxy : x = y := sub_eq_zero.mp (abs_eq_zero.mp (le_antisymm hzero (abs_nonneg _)))
  rw [hword, hxy]

theorem exists_multiple_sign_mul (negative : Bool) {x unit : ℚ} (h : ∃ j : ℤ, x = j * unit) :
    ∃ j : ℤ, sign negative * x = j * unit := by
  obtain ⟨j, rfl⟩ := h
  cases negative with
  | false => exact ⟨j, by simp [sign]⟩
  | true => exact ⟨-j, by simp [sign]⟩

/-- Above a power of two all numbers are multiples of the last place that it has. -/
theorem number?_multiple {word : Nat} {z : ℚ} (h : f.number? word = some z) {e : ℤ}
    (hz : 2 ^ e ≤ |z|) : ∃ j : ℤ, z = j * 2 ^ (e - f.fractionBits) := by
  unfold number? at h
  split at h
  case h_2 => cases h
  case h_1 m q hc =>
    obtain ⟨hm, -⟩ := classify_finite hc
    injection h with hz'
    have habs : |z| = m * 2 ^ q := by
      rw [← hz', abs_sign_mul, abs_of_nonneg (by positivity)]
    have hbelow : (2 : ℚ) ^ e < 2 ^ ((f.fractionBits + 1 : Nat) + q) := by
      calc (2 : ℚ) ^ e ≤ m * 2 ^ q := habs ▸ hz
        _ < 2 ^ ((f.fractionBits + 1 : Nat) : ℤ) * 2 ^ q := by
          rw [← cast_bit]
          exact mul_lt_mul_of_pos_right (by exact_mod_cast hm) (by positivity)
        _ = 2 ^ ((f.fractionBits + 1 : Nat) + q) := (zpow_add₀ two_ne_zero _ _).symm
    have he : e < (f.fractionBits + 1 : Nat) + q := (zpow_lt_zpow_iff_right₀ one_lt_two).mp hbelow
    -- The word has no smaller exponent, so that its unit is a multiple of this place.
    obtain ⟨d, hd⟩ := Int.eq_ofNat_of_zero_le (a := q - (e - f.fractionBits)) (by omega)
    have hq : (2 : ℚ) ^ q = (2 ^ d : ℤ) * 2 ^ (e - f.fractionBits) := by
      have hsum : q = d + (e - f.fractionBits) := by omega
      rw [hsum, zpow_add₀ two_ne_zero, zpow_natCast]
      push_cast
      rfl
    rw [← hz']
    refine exists_multiple_sign_mul _ ⟨m * 2 ^ d, ?_⟩
    rw [hq]
    push_cast
    ring

theorem closest_of_half {x y z unit : ℚ} (hx : 2 * |x - y| ≤ unit) (hz : unit ≤ |y - z|) :
    |x - y| ≤ |x - z| ∧ (|x - y| = |x - z| → 2 * |x - y| = unit) := by
  have htriangle : |y - z| ≤ |y - x| + |x - z| := abs_sub_le y x z
  rw [abs_sub_comm y x] at htriangle
  exact ⟨by linarith, fun _ => by linarith⟩

theorem multiples_apart {unit : ℚ} (hunit : 0 < unit) {i j : ℤ} (h : (i : ℚ) * unit ≠ j * unit) :
    unit ≤ |i * unit - j * unit| := by
  have hij : i - j ≠ 0 := fun hzero => h (by rw [sub_eq_zero.mp hzero])
  have hone : (1 : ℚ) ≤ |(i : ℚ) - j| := by exact_mod_cast Int.one_le_abs hij
  rw [← sub_mul, abs_mul, abs_of_pos hunit]
  exact le_mul_of_one_le_left (le_of_lt hunit) hone

/-- A multiple of the last place within half of it is nearest. A number below the power of two has
that power, which is a multiple itself, between it and `x`. -/
theorem closest_multiple {f : BinaryFormat} {e : ℤ} {x : ℚ} {i : ℤ} (hx : 2 ^ e ≤ x)
    (herror : 2 * |x - i * 2 ^ (e - f.fractionBits)| ≤ 2 ^ (e - f.fractionBits)) {z : ℚ}
    (hz : 2 ^ e ≤ |z| → ∃ j : ℤ, z = j * 2 ^ (e - f.fractionBits))
    (hne : z ≠ i * 2 ^ (e - f.fractionBits)) :
    |x - i * 2 ^ (e - f.fractionBits)| ≤ |x - z| ∧
    (|x - i * 2 ^ (e - f.fractionBits)| = |x - z| →
      2 * |x - i * 2 ^ (e - f.fractionBits)| = 2 ^ (e - f.fractionBits)) := by
  have hunit : (0 : ℚ) < 2 ^ (e - f.fractionBits) := zpow_pos two_pos _
  rcases le_or_gt ((2 : ℚ) ^ e) |z| with hlarge | hsmall
  · obtain ⟨j, rfl⟩ := hz hlarge
    exact closest_of_half herror (multiples_apart hunit (Ne.symm hne))
  · have hpower : (2 : ℚ) ^ e = ((bit f.fractionBits : Nat) : ℤ) * 2 ^ (e - f.fractionBits) := by
      rw [Int.cast_natCast, cast_bit, ← zpow_add₀ two_ne_zero]
      congr 1
      omega
    have hzlt : z < 2 ^ e := lt_of_le_of_lt (le_abs_self z) hsmall
    have hnear : |x - i * 2 ^ (e - f.fractionBits)| ≤ |x - 2 ^ e| := by
      by_cases hi : (i : ℚ) * 2 ^ (e - f.fractionBits) = 2 ^ e
      · rw [hi]
      · rw [hpower] at hi ⊢
        exact (closest_of_half herror (multiples_apart hunit hi)).1
    rw [abs_of_nonneg (sub_nonneg.mpr hx)] at hnear
    have hfar : x - 2 ^ e < |x - z| := by
      calc x - 2 ^ e < x - z := by linarith
        _ ≤ |x - z| := le_abs_self _
    exact ⟨by linarith, fun heq => by linarith⟩

theorem abs_sign_mul_sub (negative : Bool) (x z : ℚ) :
    |sign negative * x - z| = |x - sign negative * z| := by
  cases negative
  · simp [sign]
  · simp only [sign, if_true]
    rw [← abs_neg]
    congr 1
    ring

theorem bit_even {n : Nat} (h : 0 < n) : bit n % 2 = 0 := by
  obtain ⟨k, rfl⟩ := Nat.exists_eq_succ_of_ne_zero (Nat.ne_of_gt h)
  rw [bit_succ]
  exact Nat.mul_mod_right 2 _

theorem signBit_even (hf : 0 < f.fractionBits) (negative : Bool) :
    f.signBit negative % 2 = 0 := by
  unfold signBit
  split
  · exact bit_even (Nat.lt_of_lt_of_le hf (Nat.le_add_left _ _))
  · rfl

/-- The last bit of a rounded word is that of its significand. -/
theorem round_mod_two (hf : 0 < f.fractionBits) {m : Nat} (hm : m ≠ 0) (negative : Bool) (q : ℤ) :
    (f.signBit negative + f.round m q) % 2 = f.significand m % 2 := by
  have hleast : bit f.fractionBits ≤ f.significand m := le_significand hm
  have hsign := signBit_even hf negative
  have hexponent : ∀ e, e * bit f.fractionBits % 2 = 0 := fun e => by
    rw [Nat.mul_mod, bit_even hf, Nat.mul_zero, Nat.zero_mod]
  have hbit := bit_even hf
  rw [round_eq hm]
  have := hexponent ((m.log2 : ℤ) + q + f.bias).toNat
  omega

/-- Rounding errs by half of the last place at most. -/
theorem round_error (f : BinaryFormat) (m : Nat) (q : ℤ) :
    2 * |m * 2 ^ q - f.significand m * (2 : ℚ) ^ ((m.log2 : ℤ) + q - f.fractionBits)| ≤
      2 ^ ((m.log2 : ℤ) + q - f.fractionBits) ∧
    (2 * |m * 2 ^ q - f.significand m * (2 : ℚ) ^ ((m.log2 : ℤ) + q - f.fractionBits)| =
      2 ^ ((m.log2 : ℤ) + q - f.fractionBits) → f.significand m % 2 = 0) := by
  have hscale : (0 : ℚ) < 2 ^ q := zpow_pos two_pos q
  obtain ⟨hhalf, heven⟩ := significand_error (f := f) m
  rw [unit_scale, ← mul_assoc, ← sub_mul, abs_mul, abs_of_pos hscale, ← mul_assoc]
  exact ⟨mul_le_mul_of_nonneg_right hhalf (le_of_lt hscale),
    fun heq => heven (mul_right_cancel₀ (ne_of_gt hscale) heq)⟩

theorem Normal.isNearest_round (hf : f.Proper) (negative : Bool) {m : Nat} {q : ℤ}
    (h : f.Normal m q) :
    f.IsNearest (sign negative * (m * 2 ^ q)) (f.signBit negative + f.round m q) := by
  have hx : (2 : ℚ) ^ ((m.log2 : ℤ) + q) ≤ m * 2 ^ q := by
    rw [zpow_add₀ two_ne_zero, ← cast_bit]
    exact mul_le_mul_of_nonneg_right (by exact_mod_cast Nat.log2_self_le h.ne_zero) (by positivity)
  obtain ⟨hhalf, heven⟩ := round_error f m q
  refine ⟨_, h.number?_round negative, fun other z hother => ?_⟩
  -- The sign is taken from the rounded number and given to the other one.
  rw [← mul_sub, abs_sign_mul, abs_sign_mul_sub, round_mod_two hf.fractionBits h.ne_zero]
  by_cases hne : sign negative * z = f.significand m * 2 ^ ((m.log2 : ℤ) + q - f.fractionBits)
  · rw [hne]
    refine ⟨le_refl _, fun _ => .inl ?_⟩
    rw [← hne, sign_mul_self]
  · have hmultiple : 2 ^ ((m.log2 : ℤ) + q) ≤ |sign negative * z| →
        ∃ j : ℤ, sign negative * z = j * 2 ^ ((m.log2 : ℤ) + q - f.fractionBits) := by
      rw [abs_sign_mul]
      exact fun hlarge => exists_multiple_sign_mul negative (number?_multiple hother hlarge)
    obtain ⟨hle, htie⟩ := closest_multiple (i := f.significand m) hx hhalf hmultiple hne
    exact ⟨hle, fun heq => .inr (heven (htie heq))⟩

/-- Rounding gives the nearest word. -/
theorem Proper.isNearest_round (hf : f.Proper) (negative : Bool) {m : Nat} {q : ℤ}
    (h : f.InRange m q) :
    f.IsNearest (sign negative * (m * 2 ^ q)) (f.signBit negative + f.round m q) := by
  rcases h with rfl | h
  · have hzero : sign negative * ((0 : Nat) * 2 ^ q) = 0 := by simp
    rw [hzero, round_zero, Nat.add_zero]
    exact isNearest_of_number? (hf.number?_zero negative)
  · exact h.isNearest_round hf negative

/-! ## The only nearest word -/

/-- A number half-way between two is nearer to any that lies strictly between them. -/
theorem nearer_between {x y z t : ℚ} (heq : |t - x| = |t - z|) (hxy : x < y) (hyz : y < z) :
    |t - y| < |t - x| := by
  have hmiddle : t - x = -(t - z) := by
    rcases abs_eq_abs.mp heq with hsame | hopposite
    · linarith
    · exact hopposite
  rw [abs_of_nonneg (by linarith : 0 ≤ t - x), abs_lt]
  constructor <;> linarith

/-- Between words that are not neighbours there is a word with a number between theirs. -/
theorem number?_between (negative : Bool) {e m d r : Nat} (hm : m < bit f.fractionBits)
    (hd : d < f.topExponent) (hr : r < bit f.fractionBits)
    (h : e * bit f.fractionBits + m + 1 < d * bit f.fractionBits + r) :
    ∃ other y, f.number? other = some (sign negative * y) ∧
      f.magnitude e m < y ∧ y < f.magnitude d r := by
  obtain ⟨c, n, hn, hnext⟩ : ∃ c n, n < bit f.fractionBits ∧
      c * bit f.fractionBits + n = e * bit f.fractionBits + m + 1 :=
    ⟨_, _, Nat.mod_lt _ (bit_pos _), Nat.div_add_mod' _ _⟩
  have hc : c < d + 1 := by
    refine Nat.lt_of_mul_lt_mul_right (a := bit f.fractionBits) ?_
    rw [Nat.succ_mul]
    omega
  have hctop : c < f.topExponent := Nat.lt_of_le_of_lt (Nat.le_of_lt_succ hc) hd
  exact ⟨_, _, number?_word negative hctop hn, magnitude_lt hm hn (by omega),
    magnitude_lt hn hr (by omega)⟩

/-- Two words of one sign are not both nearest: they would both be even, and the words between them
have nearer numbers. -/
theorem IsNearest.not_lt (hf : 0 < f.fractionBits) {x : ℚ} {negative : Bool} {e m d r : Nat}
    (he : e < f.topExponent) (hm : m < bit f.fractionBits) (hd : d < f.topExponent)
    (hr : r < bit f.fractionBits)
    (ha : f.IsNearest x (f.signBit negative + (e * bit f.fractionBits + m)))
    (hb : f.IsNearest x (f.signBit negative + (d * bit f.fractionBits + r))) :
    ¬e * bit f.fractionBits + m < d * bit f.fractionBits + r := by
  intro hlt
  have hya := number?_word negative he hm
  have hzb := number?_word negative hd hr
  have hgrow : f.magnitude e m < f.magnitude d r := magnitude_lt hm hr hlt
  have hne : sign negative * f.magnitude e m ≠ sign negative * f.magnitude d r := fun heq => by
    have hsame := congrArg (sign negative * ·) heq
    simp only [sign_mul_self] at hsame
    exact ne_of_lt hgrow hsame
  obtain ⟨hab, hevena⟩ := ha.closest hya hzb
  obtain ⟨hba, hevenb⟩ := hb.closest hzb hya
  have hdistance : |x - sign negative * f.magnitude e m| = |x - sign negative * f.magnitude d r| :=
    le_antisymm hab hba
  -- Both words are even, so that there is another one between them.
  have hbetween : e * bit f.fractionBits + m + 1 < d * bit f.fractionBits + r := by
    have hsign := signBit_even hf negative
    have ha2 := (hevena hdistance).resolve_left hne.symm
    have hb2 := (hevenb hdistance.symm).resolve_left hne
    omega
  obtain ⟨other, y, hother, hlow, hhigh⟩ := number?_between negative hm hd hr hbetween
  have hleast := (ha.closest hya hother).1
  rw [← abs_sign_mul_sub, ← abs_sign_mul_sub] at hdistance hleast
  exact absurd (nearer_between hdistance hlow hhigh) (not_lt_of_ge hleast)

/-- There is one nearest word of each sign. -/
theorem IsNearest.unique (hf : 0 < f.fractionBits) {x : ℚ} {a b : Nat}
    (ha : f.IsNearest x a) (hb : f.IsNearest x b) (hsign : f.isNegative a = f.isNegative b)
    (halt : a < bit (f.exponentBits + f.fractionBits + 1))
    (hblt : b < bit (f.exponentBits + f.fractionBits + 1)) : a = b := by
  -- A word that has a number is below the exponent of the infinities.
  have htop : ∀ {word}, f.IsNearest x word → f.exponentField word < f.topExponent := by
    rintro word ⟨y, hy, -⟩
    rw [number?_eq] at hy
    split at hy
    · cases hy
    next hne =>
      exact Nat.lt_of_le_of_ne (Nat.le_sub_one_of_lt (exponentField_lt f word)) hne
  have hea := htop ha
  have heb := htop hb
  have hfa := fractionField_lt f a
  have hfb := fractionField_lt f b
  have hwa := eq_word halt
  have hwb := eq_word hblt
  rw [← hsign] at hwb
  rw [hwa] at ha
  rw [hwb] at hb
  have hab := ha.not_lt hf hea hfa heb hfb hb
  have hba := hb.not_lt hf heb hfb hea hfa ha
  omega

end BinaryFormat

end RecordExchange
