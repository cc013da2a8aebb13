import Mathlib.Algebra.Order.Ring.Rat
import Mathlib.Algebra.Order.Field.Power
import Mathlib.Data.Rat.Cast.Order
import Mathlib.Tactic.Linarith
import Mathlib.Tactic.Ring
import Mathlib.Tactic.Positivity
import RecordExchange.Number.Binary

/-!
# The numbers of words

A floating-point word travels as it is, and its number matters where values are compared or moved to
a wider type. This module says which number a word is.

- `BinaryFormat.number?`: the number of a word, exactly; infinities and NaN have none.
- `BinaryFormat.magnitude`: the same from the two fields, and `BinaryFormat.magnitude_lt`: without
  its sign a word grows with its number, across the least normal exponent and every other carry.
- `BinaryFormat.eq_of_number?`: a number other than zero has one word.
- `Binary.sameNumber_iff`: the comparison of words is equality of their numbers.
-/

namespace RecordExchange

namespace BinaryFormat

variable {f : BinaryFormat}

/-- The sign of a number as a factor. -/
def sign (negative : Bool) : ℚ := if negative then -1 else 1

/-- The number of a word. Infinities and NaN have none. -/
def number? (f : BinaryFormat) (word : Nat) : Option ℚ :=
  match f.classify word with
  | .finite m q => some (sign (f.isNegative word) * (m * 2 ^ q))
  | _ => none

theorem abs_sign_mul (negative : Bool) (x : ℚ) : |sign negative * x| = |x| := by
  cases negative <;> simp [sign]

theorem sign_mul_self (negative : Bool) (x : ℚ) : sign negative * (sign negative * x) = x := by
  cases negative <;> simp [sign]

theorem bit_pos (n : Nat) : 0 < bit n := Nat.two_pow_pos n

theorem bit_lt_bit {a b : Nat} (h : a < b) : bit a < bit b := Nat.pow_lt_pow_right (by decide) h

theorem bit_add (a b : Nat) : bit (a + b) = bit a * bit b := Nat.pow_add 2 a b

theorem bit_succ (n : Nat) : bit (n + 1) = 2 * bit n := by
  rw [bit_add, Nat.mul_comm]
  rfl

theorem cast_bit (n : Nat) : ((bit n : Nat) : ℚ) = 2 ^ (n : ℤ) := by
  rw [zpow_natCast]
  exact Nat.cast_pow 2 n

theorem topExponent_lt (f : BinaryFormat) : f.topExponent < bit f.exponentBits :=
  Nat.sub_lt (bit_pos _) Nat.one_pos

/-! ## Words and their fields -/

section Fields

variable (negative : Bool) {e m : Nat}

theorem word_div (e : Nat) (hm : m < bit f.fractionBits) :
    (f.signBit negative + (e * bit f.fractionBits + m)) / bit f.fractionBits =
      (if negative then 1 else 0) * bit f.exponentBits + e := by
  have hword : f.signBit negative + (e * bit f.fractionBits + m) =
      m + bit f.fractionBits * ((if negative then 1 else 0) * bit f.exponentBits + e) := by
    unfold signBit
    rw [bit_add]
    split <;> ring
  rw [hword, Nat.add_mul_div_left _ _ (bit_pos _), Nat.div_eq_of_lt hm, Nat.zero_add]

theorem fractionField_word (e : Nat) (hm : m < bit f.fractionBits) :
    f.fractionField (f.signBit negative + (e * bit f.fractionBits + m)) = m := by
  have hsign : bit f.fractionBits ∣ f.signBit negative := by
    unfold signBit
    split
    · rw [bit_add]
      exact Nat.dvd_mul_left _ _
    · exact Nat.dvd_zero _
  unfold fractionField
  rw [Nat.add_mod, Nat.mod_eq_zero_of_dvd hsign, Nat.zero_add, Nat.mod_mod, Nat.add_comm,
    Nat.add_mul_mod_self_right, Nat.mod_eq_of_lt hm]

theorem exponentField_word (he : e < bit f.exponentBits) (hm : m < bit f.fractionBits) :
    f.exponentField (f.signBit negative + (e * bit f.fractionBits + m)) = e := by
  unfold exponentField
  rw [word_div negative e hm, Nat.add_comm, Nat.add_mul_mod_self_right, Nat.mod_eq_of_lt he]

theorem isNegative_word (he : e < bit f.exponentBits) (hm : m < bit f.fractionBits) :
    f.isNegative (f.signBit negative + (e * bit f.fractionBits + m)) = negative := by
  unfold isNegative
  rw [Nat.add_comm f.exponentBits, bit_add, ← Nat.div_div_eq_div_mul, word_div negative e hm,
    Nat.add_comm, Nat.add_mul_div_right _ _ (bit_pos _), Nat.div_eq_of_lt he]
  cases negative <;> rfl

theorem word_lt (he : e < bit f.exponentBits) (hm : m < bit f.fractionBits) :
    f.signBit negative + (e * bit f.fractionBits + m) <
      bit (f.exponentBits + f.fractionBits + 1) := by
  have hmagnitude : e * bit f.fractionBits + m < bit (f.exponentBits + f.fractionBits) := by
    calc e * bit f.fractionBits + m < (e + 1) * bit f.fractionBits := by
          rw [Nat.add_mul, Nat.one_mul]
          exact Nat.add_lt_add_left hm _
      _ ≤ bit (f.exponentBits + f.fractionBits) := by
        rw [bit_add]
        exact Nat.mul_le_mul_right _ he
  have hsign : f.signBit negative ≤ bit (f.exponentBits + f.fractionBits) := by
    unfold signBit
    split
    · exact Nat.le_refl _
    · exact Nat.zero_le _
  rw [bit_succ]
  omega

end Fields

/-- Every word is put together from its fields. -/
theorem eq_word {word : Nat} (h : word < bit (f.exponentBits + f.fractionBits + 1)) :
    word = f.signBit (f.isNegative word) +
      (f.exponentField word * bit f.fractionBits + f.fractionField word) := by
  have hfraction : word / bit f.fractionBits * bit f.fractionBits + f.fractionField word = word :=
    Nat.div_add_mod' _ _
  have hexponent : word / bit f.fractionBits / bit f.exponentBits * bit f.exponentBits +
      f.exponentField word = word / bit f.fractionBits := Nat.div_add_mod' _ _
  -- Above both fields there is nothing but the sign.
  have htop : word / bit f.fractionBits / bit f.exponentBits < 2 := by
    rw [Nat.div_div_eq_div_mul, Nat.div_lt_iff_lt_mul (Nat.mul_pos (bit_pos _) (bit_pos _)),
      ← bit_add, Nat.add_comm f.fractionBits, ← bit_succ]
    exact h
  have hsign : f.signBit (f.isNegative word) =
      word / bit f.fractionBits / bit f.exponentBits * bit f.exponentBits * bit f.fractionBits := by
    unfold signBit isNegative
    rw [Nat.add_comm f.exponentBits, bit_add, ← Nat.div_div_eq_div_mul, Nat.mod_eq_of_lt htop]
    obtain hzero | hone := Nat.le_one_iff_eq_zero_or_eq_one.mp (Nat.le_of_lt_succ htop)
    · rw [hzero]
      simp
    · rw [hone]
      simp [Nat.mul_comm]
  rw [hsign, ← Nat.add_assoc, ← Nat.add_mul, hexponent, hfraction]

theorem fractionField_lt (f : BinaryFormat) (word : Nat) :
    f.fractionField word < bit f.fractionBits := Nat.mod_lt _ (bit_pos _)

theorem exponentField_lt (f : BinaryFormat) (word : Nat) :
    f.exponentField word < bit f.exponentBits := Nat.mod_lt _ (bit_pos _)

/-- The words of the top exponent are the infinities and the NaN. -/
theorem classify_top (negative : Bool) {m : Nat} (hm : m < bit f.fractionBits) :
    f.classify (f.signBit negative + (f.topExponent * bit f.fractionBits + m)) =
      if m = 0 then .infinite else .nan := by
  simp only [classify, exponentField_word negative (topExponent_lt f) hm,
    fractionField_word negative _ hm, if_true]

/-! ## Fields and their numbers -/

/-- The number that two fields stand for without a sign. The leading bit is implied from the least
normal exponent on; below it the last place is worth as much as there. -/
def magnitude (f : BinaryFormat) (e m : Nat) : ℚ :=
  if e = 0 then m * 2 ^ (1 - (f.bias : ℤ) - f.fractionBits)
  else (bit f.fractionBits + m : Nat) * 2 ^ ((e : ℤ) - f.bias - f.fractionBits)

theorem number?_eq (f : BinaryFormat) (word : Nat) :
    f.number? word = if f.exponentField word = f.topExponent then none
      else some (sign (f.isNegative word) *
        f.magnitude (f.exponentField word) (f.fractionField word)) := by
  simp only [number?, classify, magnitude]
  split_ifs <;> rfl

theorem number?_word (negative : Bool) {e m : Nat} (he : e < f.topExponent)
    (hm : m < bit f.fractionBits) :
    f.number? (f.signBit negative + (e * bit f.fractionBits + m)) =
      some (sign negative * f.magnitude e m) := by
  have he' : e < bit f.exponentBits := Nat.lt_trans he (topExponent_lt f)
  rw [number?_eq, exponentField_word negative he' hm, fractionField_word negative e hm,
    isNegative_word negative he' hm, if_neg (Nat.ne_of_lt he)]

theorem classify_finite {word m : Nat} {q : ℤ} (h : f.classify word = .finite m q) :
    m < bit (f.fractionBits + 1) ∧ 1 - (f.bias : ℤ) - f.fractionBits ≤ q ∧
      q + f.bias + f.fractionBits ≤ bit f.exponentBits := by
  have hfraction := fractionField_lt f word
  have hexponent := exponentField_lt f word
  have hbit := bit_succ f.fractionBits
  simp only [classify] at h
  split at h
  · split at h <;> cases h
  · split at h <;> injection h <;> omega

theorem magnitude_nonneg (f : BinaryFormat) (e m : Nat) : 0 ≤ f.magnitude e m := by
  unfold magnitude
  split <;> positivity

theorem magnitude_lt_of_fraction {e m r : Nat} (h : m < r) : f.magnitude e m < f.magnitude e r := by
  unfold magnitude
  split
  · exact mul_lt_mul_of_pos_right (by exact_mod_cast h) (zpow_pos two_pos _)
  · exact mul_lt_mul_of_pos_right (by exact_mod_cast Nat.add_lt_add_left h _) (zpow_pos two_pos _)

/-- A full fraction is still below the next exponent. -/
theorem magnitude_lt_of_exponent {e d m : Nat} (hm : m < bit f.fractionBits) (h : e < d) :
    f.magnitude e m < f.magnitude d 0 := by
  have hd : f.magnitude d 0 = (bit f.fractionBits : Nat) * 2 ^ ((d : ℤ) - f.bias - f.fractionBits) := by
    rw [magnitude, if_neg (by omega), Nat.add_zero]
  have hgrow : ∀ c : ℤ, c ≤ d →
      (2 : ℚ) ^ (c - f.bias - f.fractionBits) ≤ 2 ^ ((d : ℤ) - f.bias - f.fractionBits) :=
    fun c hc => zpow_le_zpow_right₀ one_le_two (by omega)
  rw [hd, magnitude]
  -- Subnormal numbers share the scale of the least exponent; all others have their own.
  split
  · calc (m : ℚ) * 2 ^ (1 - (f.bias : ℤ) - f.fractionBits)
        < (bit f.fractionBits : Nat) * 2 ^ (1 - (f.bias : ℤ) - f.fractionBits) :=
          mul_lt_mul_of_pos_right (by exact_mod_cast hm) (zpow_pos two_pos _)
      _ ≤ _ := mul_le_mul_of_nonneg_left (hgrow 1 (by omega)) (Nat.cast_nonneg _)
  · have hnext : (2 : ℚ) * 2 ^ ((e : ℤ) - f.bias - f.fractionBits) =
        2 ^ ((e : ℤ) + 1 - f.bias - f.fractionBits) := by
      rw [mul_comm, ← zpow_add_one₀ two_ne_zero]
      congr 1
      ring
    calc ((bit f.fractionBits + m : Nat) : ℚ) * 2 ^ ((e : ℤ) - f.bias - f.fractionBits)
        < (bit f.fractionBits * 2 : Nat) * 2 ^ ((e : ℤ) - f.bias - f.fractionBits) :=
          mul_lt_mul_of_pos_right (by exact_mod_cast (by omega)) (zpow_pos two_pos _)
      _ = (bit f.fractionBits : Nat) * 2 ^ ((e : ℤ) + 1 - f.bias - f.fractionBits) := by
        rw [Nat.cast_mul, mul_assoc, ← hnext]
        rfl
      _ ≤ _ := mul_le_mul_of_nonneg_left (hgrow (e + 1) (by omega)) (Nat.cast_nonneg _)

/-- Without their signs words are in the order of their numbers. -/
theorem magnitude_lt {e m d r : Nat} (hm : m < bit f.fractionBits) (hr : r < bit f.fractionBits)
    (h : e * bit f.fractionBits + m < d * bit f.fractionBits + r) :
    f.magnitude e m < f.magnitude d r := by
  rcases Nat.lt_trichotomy e d with hlt | rfl | hgt
  · refine lt_of_lt_of_le (magnitude_lt_of_exponent hm hlt) ?_
    rcases Nat.eq_zero_or_pos r with rfl | hpos
    · exact le_refl _
    · exact le_of_lt (magnitude_lt_of_fraction hpos)
  · exact magnitude_lt_of_fraction (Nat.lt_of_add_lt_add_left h)
  · have hle : (d + 1) * bit f.fractionBits ≤ e * bit f.fractionBits := Nat.mul_le_mul_right _ hgt
    rw [Nat.add_mul, Nat.one_mul] at hle
    omega

theorem magnitude_inj {e m d r : Nat} (hm : m < bit f.fractionBits) (hr : r < bit f.fractionBits)
    (h : f.magnitude e m = f.magnitude d r) :
    e * bit f.fractionBits + m = d * bit f.fractionBits + r := by
  rcases Nat.lt_trichotomy (e * bit f.fractionBits + m) (d * bit f.fractionBits + r) with
    hlt | heq | hgt
  · exact absurd h (ne_of_lt (magnitude_lt hm hr hlt))
  · exact heq
  · exact absurd h.symm (ne_of_lt (magnitude_lt hr hm hgt))

/-- Two words of one number are the same word, the two zeros apart. -/
theorem eq_of_number? {a b : Nat} (ha : a < bit (f.exponentBits + f.fractionBits + 1))
    (hb : b < bit (f.exponentBits + f.fractionBits + 1)) {x : ℚ} (hax : f.number? a = some x)
    (hbx : f.number? b = some x) (hsign : x ≠ 0 ∨ f.isNegative a = f.isNegative b) : a = b := by
  rw [number?_eq] at hax hbx
  split at hax
  · cases hax
  split at hbx
  · cases hbx
  injection hax with hax
  injection hbx with hbx
  have hmagnitude : f.magnitude (f.exponentField a) (f.fractionField a) =
      f.magnitude (f.exponentField b) (f.fractionField b) := by
    rw [← abs_of_nonneg (magnitude_nonneg f _ _), ← abs_sign_mul (f.isNegative a), hax, ← hbx,
      abs_sign_mul, abs_of_nonneg (magnitude_nonneg f _ _)]
  -- A number other than zero has the sign of its word.
  have hnegative : f.isNegative a = f.isNegative b := by
    refine hsign.elim (fun hx => ?_) id
    have hzero : f.magnitude (f.exponentField b) (f.fractionField b) ≠ 0 := by
      rintro hzero
      rw [hzero, mul_zero] at hbx
      exact hx hbx.symm
    have hfactor : sign (f.isNegative a) = sign (f.isNegative b) :=
      mul_right_cancel₀ hzero (by rw [hbx, ← hax, hmagnitude])
    revert hfactor
    cases f.isNegative a <;> cases f.isNegative b <;> norm_num [sign]
  rw [eq_word ha, eq_word hb, hnegative,
    magnitude_inj (fractionField_lt f a) (fractionField_lt f b) hmagnitude]

end BinaryFormat

namespace Binary

open BinaryFormat

theorem classify_of_number? {f : BinaryFormat} {word : Nat} {x : ℚ}
    (h : f.number? word = some x) :
    ∃ m q, f.classify word = .finite m q ∧ (x = 0 ↔ m = 0) := by
  unfold number? at h
  split at h
  next m q hc =>
    refine ⟨m, q, hc, ?_⟩
    have hscale : (2 : ℚ) ^ q ≠ 0 := zpow_ne_zero q two_ne_zero
    rw [← Option.some.inj h, ← abs_eq_zero, abs_sign_mul, abs_eq_zero, mul_eq_zero,
      or_iff_left hscale, Nat.cast_eq_zero]
  next => cases h

/-- Words that have numbers are compared as these. -/
theorem sameNumber_iff {f : BinaryFormat} {a b : Nat}
    (ha : a < bit (f.exponentBits + f.fractionBits + 1))
    (hb : b < bit (f.exponentBits + f.fractionBits + 1)) {x y : ℚ}
    (hx : f.number? a = some x) (hy : f.number? b = some y) :
    sameNumber f a b = true ↔ x = y := by
  obtain ⟨m, q, hca, hxm⟩ := classify_of_number? hx
  obtain ⟨n, r, hcb, hyn⟩ := classify_of_number? hy
  -- Only the two zeros are one number in different words.
  by_cases hzeros : m = 0 ∧ n = 0
  · obtain ⟨rfl, rfl⟩ := hzeros
    simp only [sameNumber, hca, hcb, true_iff]
    rw [hxm.mpr rfl, hyn.mpr rfl]
  · have hwords : sameNumber f a b = (a == b) := by
      simp only [sameNumber, hca, hcb]
      split
      next h => cases h
      next h _ => cases h
      next hm hn => exact absurd ⟨(Magnitude.finite.inj hm).1, (Magnitude.finite.inj hn).1⟩ hzeros
      next => rfl
    rw [hwords, beq_iff_eq]
    constructor
    · rintro rfl
      exact Option.some.inj (hx.symm.trans hy)
    · rintro rfl
      refine eq_of_number? ha hb hx hy (.inl fun hzero => ?_)
      exact hzeros ⟨hxm.mp hzero, hyn.mp hzero⟩

end Binary

end RecordExchange
