import RecordExchange.Proofs.Consumption
import RecordExchange.Proofs.Delimiting
import RecordExchange.Wire.Item

/-!
# One spelling for each value

What an encoder writes is read back, but a decoder could also accept other bytes for the same value.
None of them does: whatever bytes a primitive decoder or the decoder of headers accepts, they are those
that the encoder writes for the value. So a message can be told from its items as well as the items
from the message.

- `Wire.Spells`, `Wire.IsShortest`: all spellings of a number in groups of seven bits, padded ones among
  them, and the shortest of them, which is the one written (`Wire.isShortest_iff`).
- `Wire.consumes_decodeVarint`: no other spelling is read.
- `Wire.fold_unfold`, `Wire.fold_eq_xor`, `Wire.unfold_eq_xor`: folding leaves no unsigned number out,
  and is what shifts and a sign mask make of the bits.
- `Wire.Form.consumes_decode`, `Wire.Item.yields_encode`: both directions for an item of any form.
- `Wire.items_have_one_spelling`: both directions for all sequences of items.
-/

namespace RecordExchange

namespace Wire

open Decoder

/-! ## Groups of seven bits -/

/-- However much room there is for a number that fits, its groups are the same. -/
theorem groups_eq_of_lt : ∀ (left left' n : Nat), 0 < left → n < Nat.pow 128 left → 0 < left' →
    n < Nat.pow 128 left' → groups left n = groups left' n
  | 0, _, _, hleft, _, _, _ => absurd hleft (Nat.lt_irrefl 0)
  | _ + 1, 0, _, _, _, hleft', _ => absurd hleft' (Nat.lt_irrefl 0)
  | left + 1, left' + 1, n, _, hn, _, hn' => by
    by_cases hsmall : n < 128
    · rw [groups, groups, if_pos hsmall, if_pos hsmall]
    · obtain ⟨hleft, hothers⟩ := lt_pow_of_large (Nat.le_of_not_lt hsmall) hn
      obtain ⟨hleft', hothers'⟩ := lt_pow_of_large (Nat.le_of_not_lt hsmall) hn'
      rw [groups, groups, if_neg hsmall, if_neg hsmall,
        groups_eq_of_lt left left' (n / 128) hleft hothers hleft' hothers']

theorem groups_eq_encodeNat {left n : Nat} (hleft : 0 < left) (hn : n < Nat.pow 128 left) :
    groups left n = encodeNat n :=
  groups_eq_of_lt left (groupCount n) n hleft hn (Nat.succ_pos _) (lt_pow_groupCount n)

theorem encodeNat_of_small {n : Nat} (h : n < 128) : encodeNat n = [UInt8.ofNat n] := by
  rw [encodeNat, groupCount, groups, if_pos h]

theorem encodeNat_of_large {n : Nat} (h : 128 ≤ n) :
    encodeNat n = UInt8.ofNat (n % 128 + 128) :: encodeNat (n / 128) := by
  have hfit : n < Nat.pow 128 (n.log2 / 7 + 1) := lt_pow_groupCount n
  obtain ⟨hcount, hothers⟩ := lt_pow_of_large h hfit
  rw [encodeNat, groupCount, groups, if_neg (Nat.not_lt.mpr h), groups_eq_encodeNat hcount hothers]

/-! ## Spellings of a number -/

/-- The bytes spell a number in groups of seven bits, the lowest first; every byte but the last has its
high bit set. The highest groups may be zero. -/
inductive Spells : List UInt8 → Nat → Prop where
  | last {b : UInt8} : b.toNat < 128 → Spells [b] b.toNat
  | more {b : UInt8} {bytes : List UInt8} {n : Nat} : 128 ≤ b.toNat → Spells bytes n →
    Spells (b :: bytes) (b.toNat % 128 + 128 * n)

/-- No shorter bytes spell the number. -/
def IsShortest (bytes : List UInt8) (n : Nat) : Prop :=
  Spells bytes n ∧ ∀ other, Spells other n → bytes.length ≤ other.length

theorem spells_groups : ∀ (count n : Nat), 0 < count → n < Nat.pow 128 count →
    Spells (groups count n) n
  | 0, _, hcount, _ => absurd hcount (Nat.lt_irrefl 0)
  | count + 1, n, _, hn => by
    by_cases hsmall : n < 128
    · have hb : (UInt8.ofNat n).toNat = n := UInt8.toNat_ofNat_of_lt' (show n < 256 by omega)
      have hlast := Spells.last (show (UInt8.ofNat n).toNat < 128 by omega)
      rw [hb] at hlast
      rw [groups, if_pos hsmall]
      exact hlast
    · have hb : (UInt8.ofNat (n % 128 + 128)).toNat = n % 128 + 128 :=
        UInt8.toNat_ofNat_of_lt' (show n % 128 + 128 < 256 by omega)
      obtain ⟨hcount, hothers⟩ := lt_pow_of_large (Nat.le_of_not_lt hsmall) hn
      have hmore := Spells.more (show 128 ≤ (UInt8.ofNat (n % 128 + 128)).toNat by omega)
        (spells_groups count (n / 128) hcount hothers)
      have hvalue : (n % 128 + 128) % 128 + 128 * (n / 128) = n := by omega
      rw [hb, hvalue] at hmore
      rw [groups, if_neg hsmall]
      exact hmore

theorem Spells.length_pos {bytes : List UInt8} {n : Nat} (h : Spells bytes n) : 0 < bytes.length := by
  cases h <;> exact Nat.succ_pos _

/-- A number fits the groups that spell it. -/
theorem Spells.lt_pow {bytes : List UInt8} {n : Nat} (h : Spells bytes n) :
    n < Nat.pow 128 bytes.length := by
  induction h with
  | last hb => exact hb
  | @more b bytes n _ _ ih =>
    have hpow : Nat.pow 128 (bytes.length + 1) = Nat.pow 128 bytes.length * 128 := rfl
    rw [List.length_cons, hpow]
    omega

/-- What is written is no longer than any spelling. -/
theorem Spells.length_encodeNat_le {bytes : List UInt8} {n : Nat} (h : Spells bytes n) :
    (encodeNat n).length ≤ bytes.length := by
  rw [← groups_eq_encodeNat h.length_pos h.lt_pow]
  exact length_groups_le bytes.length n

/-- A spelling that is not longer than what is written is what is written. -/
theorem Spells.eq_encodeNat {bytes : List UInt8} {n : Nat} (h : Spells bytes n) :
    bytes.length ≤ (encodeNat n).length → bytes = encodeNat n := by
  induction h with
  | @last b hb =>
    intro _
    rw [encodeNat_of_small hb, UInt8.ofNat_toNat]
  | @more b bytes n hb hbytes ih =>
    intro hle
    have hlt : b.toNat < 256 := b.toNat_lt
    have hpos := hbytes.length_pos
    rw [List.length_cons] at hle
    by_cases hn : n = 0
    · -- Padding: a number of one group would be spelled by two.
      rw [hn, encodeNat_of_small (by omega), List.length_singleton] at hle
      omega
    · have hlow : (b.toNat % 128 + 128 * n) % 128 + 128 = b.toNat := by omega
      have hhigh : (b.toNat % 128 + 128 * n) / 128 = n := by omega
      rw [encodeNat_of_large (by omega), hlow, hhigh, UInt8.ofNat_toNat] at hle ⊢
      rw [List.length_cons] at hle
      rw [← ih (by omega)]

/-- Each number has one shortest spelling, the one written. -/
theorem isShortest_iff {bytes : List UInt8} {n : Nat} : IsShortest bytes n ↔ bytes = encodeNat n := by
  have hspells : Spells (encodeNat n) n := spells_groups _ n (Nat.succ_pos _) (lt_pow_groupCount n)
  constructor
  · rintro ⟨h, hshortest⟩
    exact h.eq_encodeNat (hshortest _ hspells)
  · rintro rfl
    exact ⟨hspells, fun _ hother => hother.length_encodeNat_le⟩

/-! ## Varints -/

/-- The bits that are left for the groups above bit `shift` are those of the next group and those that
are left then. -/
theorem pow_bits_left {shift left : Nat} (hshift : shift + 7 * (left + 1) = 70) (hleft : 0 < left) :
    Nat.pow 2 (64 - shift) = 128 * Nat.pow 2 (64 - (shift + 7)) := by
  have hbits : 64 - shift = 64 - (shift + 7) + 7 := by omega
  rw [hbits]
  show 2 ^ (64 - (shift + 7) + 7) = 128 * 2 ^ (64 - (shift + 7))
  rw [Nat.pow_add, Nat.mul_comm]

/-- The bytes are those of a number that is moved up to bit `shift`, where it completes the sum of the
groups below. It is not zero unless there are none, and fits the bits that are left: the tenth group
holds a single one. -/
structure Completes (shift sum n : Nat) (v : UInt64) (bytes : List UInt8) : Prop where
  spelling : bytes = encodeNat n
  unpadded : shift ≠ 0 → n ≠ 0
  fits : n < Nat.pow 2 (64 - shift)
  value : v = UInt64.ofNat (sum + n * Nat.pow 2 shift)

variable {b : UInt8} {shift sum : Nat}

theorem completes_last (hb : b.toNat < 128) (hpad : ¬ (b.toNat = 0 ∧ shift ≠ 0))
    (hfits : b.toNat < Nat.pow 2 (64 - shift)) :
    Completes shift sum b.toNat (UInt64.ofNat (sum + b.toNat % 128 * Nat.pow 2 shift)) [b] where
  spelling := by rw [encodeNat_of_small hb, UInt8.ofNat_toNat]
  unpadded hne hzero := hpad ⟨hzero, hne⟩
  fits := hfits
  value := by rw [Nat.mod_eq_of_lt hb]

theorem Completes.more {n : Nat} {v : UInt64} {bytes : List UInt8}
    (h : Completes (shift + 7) (sum + b.toNat % 128 * Nat.pow 2 shift) n v bytes)
    (hb : 128 ≤ b.toNat) (hbits : Nat.pow 2 (64 - shift) = 128 * Nat.pow 2 (64 - (shift + 7))) :
    Completes shift sum (b.toNat % 128 + 128 * n) v (b :: bytes) := by
  obtain ⟨rfl, hunpadded, hfits, rfl⟩ := h
  have hlt : b.toNat < 256 := b.toNat_lt
  have hn : n ≠ 0 := hunpadded (by omega)
  have hlarge : 128 ≤ b.toNat % 128 + 128 * n := by omega
  have hlow : (b.toNat % 128 + 128 * n) % 128 = b.toNat % 128 := by omega
  have hhigh : (b.toNat % 128 + 128 * n) / 128 = n := by omega
  have hbyte : b.toNat % 128 + 128 = b.toNat := by omega
  have hsum := lowest_group_add (b.toNat % 128 + 128 * n) shift
  rw [hlow, hhigh] at hsum
  constructor
  · rw [encodeNat_of_large hlarge, hlow, hhigh, hbyte, UInt8.ofNat_toNat]
  · omega
  · omega
  · rw [← hsum, Nat.add_assoc]

/-- The loop over the groups of a number ends with the last of them, and a number completes the sum. -/
theorem consumes_decodeGroups (start : Nat) : ∀ left shift sum, shift + 7 * left = 70 →
    (decodeGroups start left shift sum).Consumes fun v bytes =>
      ∃ n, Completes shift sum n v bytes := by
  intro left
  induction left with
  | zero => exact fun shift sum _ => consumes_corrupt _
  | succ left ih =>
    intro shift sum hshift
    rw [decodeGroups]
    refine consumes_byte.bind fun b first hfirst => ?_
    subst hfirst
    refine consumes_ite (fun _ => consumes_corrupt _) fun hover =>
      consumes_ite (fun hlast => ?_) fun hmore => ?_
    · refine consumes_ite (fun _ => consumes_corrupt _) fun hpad => consumes_pure ?_
      refine ⟨b.toNat, completes_last hlast hpad ?_⟩
      -- Only the tenth group has fewer than seven bits left for it.
      by_cases hleft : left = 0
      · obtain rfl : shift = 63 := by omega
        have hbit : b.toNat < 2 := by omega
        exact hbit
      · have hpos : 0 < Nat.pow 2 (64 - (shift + 7)) := Nat.two_pow_pos _
        rw [pow_bits_left hshift (by omega)]
        omega
    · have hbits := pow_bits_left hshift (by omega)
      refine (ih (shift + 7) _ (by omega)).mono ?_
      rintro v bytes ⟨n, hn⟩
      exact ⟨_, hn.more (Nat.not_lt.mp hmore) hbits⟩

/-- The bytes of a number that is read are those that are written for it. -/
theorem consumes_decodeVarint : decodeVarint.Consumes fun n bytes => bytes = encodeVarint n := by
  refine consumes_offset_bind fun start => ?_
  refine (consumes_decodeGroups start maxGroups 0 0 rfl).mono ?_
  rintro v bytes ⟨n, rfl, -, hfits, rfl⟩
  have hone : n * Nat.pow 2 0 = n := Nat.mul_one n
  have hvalue : (UInt64.ofNat n).toNat = n := Nat.mod_eq_of_lt hfits
  rw [Nat.zero_add, hone, encodeVarint, hvalue]

/-- What is read from and written as the groups of a number is read from its shortest spelling. -/
theorem reads_isShortest {α : Type} {d : Decoder α} {number : α → Nat}
    (hread : d.Consumes fun a bytes => bytes = encodeNat (number a))
    (hwritten : ∀ a, d.Yields (encodeNat (number a)) (.ok a)) :
    d.Reads fun a bytes => IsShortest bytes (number a) := by
  refine (hread.mono fun a bytes hbytes => isShortest_iff.mpr hbytes).reads ?_
  intro a bytes hbytes
  rw [isShortest_iff.mp hbytes]
  exact hwritten a

theorem reads_decodeVarint : decodeVarint.Reads fun n bytes => IsShortest bytes n.toNat :=
  reads_isShortest consumes_decodeVarint yields_varint

/-! ## Signed numbers -/

theorem toInt_unfold (n : UInt64) : (unfold n).toInt =
    if n.toNat % 2 = 1 then -((n.toNat / 2 : Nat) : Int) - 1 else ((n.toNat / 2 : Nat) : Int) := by
  have hn : n.toNat < 2 ^ 64 := n.toNat_lt
  refine Int64.toInt_ofInt_of_le ?_ ?_
  · show -2 ^ 63 ≤ _
    split <;> omega
  · show _ < 2 ^ 63
    split <;> omega

/-- Folding leaves no unsigned number out. -/
theorem fold_unfold (n : UInt64) : fold (unfold n) = n := by
  have hunfold := toInt_unfold n
  by_cases hodd : n.toNat % 2 = 1
  · rw [if_pos hodd] at hunfold
    have hneg : (unfold n).toInt < 0 := by omega
    have hdouble : (-2 * (unfold n).toInt - 1).toNat = n.toNat := by omega
    simp only [fold, if_pos hneg, hdouble, UInt64.ofNat_toNat]
  · rw [if_neg hodd] at hunfold
    have hpos : ¬ (unfold n).toInt < 0 := by omega
    have hdouble : (2 * (unfold n).toInt).toNat = n.toNat := by omega
    simp only [fold, if_neg hpos, hdouble, UInt64.ofNat_toNat]

/-- The sign of a number, moved over all bits. -/
theorem sshiftRight_sign (x : BitVec 64) :
    x.sshiftRight 63 = if x.toInt < 0 then BitVec.allOnes 64 else 0#64 := by
  apply BitVec.eq_of_toInt_eq
  have hlo : -2 ^ 63 ≤ x.toInt := x.le_toInt
  have hhi : x.toInt < 2 ^ 63 := x.toInt_lt
  rw [BitVec.toInt_sshiftRight, Int.shiftRight_eq_div_pow]
  by_cases hneg : x.toInt < 0
  · rw [if_pos hneg]
    have hones : (BitVec.allOnes 64).toInt = -1 := by decide
    rw [hones]
    omega
  · rw [if_neg hneg]
    have hzero : (0#64).toInt = 0 := by decide
    rw [hzero]
    omega

/-- Folding doubles a number and flips all its bits if it is negative. The doubling may overflow. -/
theorem fold_eq_xor (n : Int64) : fold n = ((n <<< 1) ^^^ (n >>> 63)).toUInt64 := by
  have hbits : ((n <<< 1) ^^^ (n >>> 63)).toUInt64.toBitVec
      = (n.toBitVec <<< 1) ^^^ (n.toBitVec.sshiftRight 63) := by
    simp
  have hint : n.toBitVec.toInt = n.toInt := rfl
  have hdouble : (n.toBitVec <<< 1).toNat = 2 * n.toBitVec.toNat % 2 ^ 64 := by
    rw [BitVec.toNat_shiftLeft, Nat.shiftLeft_eq, Nat.mul_comm]
  have hvalue : n.toInt = if 2 * n.toBitVec.toNat < 2 ^ 64 then (n.toBitVec.toNat : Int)
      else (n.toBitVec.toNat : Int) - (2 ^ 64 : Nat) := BitVec.toInt_eq_toNat_cond n.toBitVec
  have hlt : n.toBitVec.toNat < 2 ^ 64 := n.toBitVec.isLt
  apply UInt64.toNat_inj.mp
  rw [← UInt64.toNat_toBitVec ((n <<< 1) ^^^ (n >>> 63)).toUInt64, hbits, sshiftRight_sign, hint]
  by_cases hneg : n.toInt < 0
  · rw [if_pos hneg, BitVec.xor_allOnes, BitVec.toNat_not, hdouble]
    simp only [fold, if_pos hneg, UInt64.toNat_ofNat']
    omega
  · rw [if_neg hneg, BitVec.xor_zero, hdouble]
    simp only [fold, if_neg hneg, UInt64.toNat_ofNat']
    omega

/-- The lowest bit of a number. -/
theorem and_one_eq_ofNat (x : BitVec 64) : x &&& 1#64 = BitVec.ofNat 64 (x.toNat % 2) := by
  apply BitVec.eq_of_toNat_eq
  have hmod : x.toNat % 2 < 2 ^ 64 := by omega
  have hunit : (1#64).toNat = 1 := rfl
  rw [BitVec.toNat_and, hunit, Nat.and_one_is_mod, BitVec.toNat_ofNat]
  exact (Nat.mod_eq_of_lt hmod).symm

/-- Half a number leaves the sign bit unset. -/
theorem toInt_half (x : BitVec 64) : (x >>> 1).toInt = ((x.toNat / 2 : Nat) : Int) := by
  rw [BitVec.toInt_ushiftRight, if_neg Nat.one_ne_zero, Nat.shiftRight_eq_div_pow, Nat.pow_one]

/-- Flipping all bits of a number takes it to the other side of zero. -/
theorem toInt_flipped (x : BitVec 64) : (~~~x).toInt = -x.toInt - 1 := by
  have hlt : x.toNat < 2 ^ 64 := x.isLt
  rw [BitVec.toInt_eq_toNat_cond, BitVec.toInt_eq_toNat_cond, BitVec.toNat_not]
  by_cases hsmall : 2 * x.toNat < 2 ^ 64
  · have hlarge : ¬ 2 * (2 ^ 64 - 1 - x.toNat) < 2 ^ 64 := by omega
    rw [if_pos hsmall, if_neg hlarge]
    omega
  · have hlarge : 2 * (2 ^ 64 - 1 - x.toNat) < 2 ^ 64 := by omega
    rw [if_neg hsmall, if_pos hlarge]
    omega

/-- Unfolding halves a number and flips all its bits if it is odd. -/
theorem unfold_eq_xor (n : UInt64) : unfold n = (n >>> 1).toInt64 ^^^ -(n &&& 1).toInt64 := by
  have hbits : ((n >>> 1).toInt64 ^^^ -(n &&& 1).toInt64).toBitVec
      = (n.toBitVec >>> 1) ^^^ -(n.toBitVec &&& 1#64) := by
    simp
  have hnat : n.toBitVec.toNat = n.toNat := rfl
  have hunfold : (unfold n).toBitVec.toInt = (unfold n).toInt := rfl
  apply Int64.toBitVec_inj.mp
  apply BitVec.eq_of_toInt_eq
  rw [hbits, hunfold, toInt_unfold, and_one_eq_ofNat, hnat]
  by_cases hodd : n.toNat % 2 = 1
  · have hones : -BitVec.ofNat 64 1 = BitVec.allOnes 64 := by decide
    rw [if_pos hodd, hodd, hones, BitVec.xor_allOnes, toInt_flipped, toInt_half, hnat]
  · have hzero : -BitVec.ofNat 64 0 = 0#64 := by decide
    have heven : n.toNat % 2 = 0 := by omega
    rw [if_neg hodd, heven, hzero, BitVec.xor_zero, toInt_half, hnat]

theorem consumes_decodeLong : decodeLong.Consumes fun n bytes => bytes = encodeLong n := by
  refine consumes_decodeVarint.map fun n bytes hbytes => ?_
  rw [encodeLong, fold_unfold, hbytes]

theorem reads_decodeLong : decodeLong.Reads fun n bytes => IsShortest bytes (fold n).toNat :=
  reads_isShortest consumes_decodeLong yields_long

/-- A number of 64 bits that is in the range of 32 bits is one of 32 bits. -/
theorem toInt64_toInt32 {n : Int64} (hlo : Int32.minValue.toInt ≤ n.toInt)
    (hhi : n.toInt ≤ Int32.maxValue.toInt) : n.toInt32.toInt64 = n := by
  have hmin : Int32.minValue.toInt = -2 ^ 31 := by decide
  have hmax : Int32.maxValue.toInt = 2 ^ 31 - 1 := by decide
  apply Int64.toInt_inj.mp
  rw [Int32.toInt_toInt64, Int64.toInt_toInt32]
  exact Int.bmod_eq_of_le (by omega) (by omega)

theorem consumes_decodeInt : decodeInt.Consumes fun n bytes => bytes = encodeInt n := by
  refine consumes_offset_bind fun start => consumes_decodeLong.bind fun n first hfirst => ?_
  refine consumes_ite (fun hrange => consumes_pure ?_) fun _ => consumes_corrupt _
  rw [encodeInt, toInt64_toInt32 hrange.1 hrange.2, hfirst, List.append_nil]

theorem reads_decodeInt :
    decodeInt.Reads fun n bytes => IsShortest bytes (fold n.toInt64).toNat :=
  reads_isShortest consumes_decodeInt yields_int

/-! ## Truth values and floating-point words -/

theorem consumes_decodeBool : decodeBool.Consumes fun b bytes => bytes = encodeBool b := by
  refine consumes_offset_bind fun start => consumes_byte.bind fun b first hfirst => ?_
  rw [hfirst]
  refine consumes_ite (fun hzero => consumes_pure ?_) fun _ =>
    consumes_ite (fun hone => consumes_pure ?_) fun _ => consumes_corrupt _
  · rw [hzero]
    rfl
  · rw [hone]
    rfl

/-- The bytes of a word are those of the number that they make. -/
theorem consumes_take_word {α : Type} {width : Nat} {word : Nat → α} {number : α → Nat}
    (hword : ∀ n, n < ByteOrder.capacity width → number (word n) = n) :
    (take width >>= fun content => pure (word (ByteOrder.ofLowFirst content))).Consumes
      fun a bytes => bytes = ByteOrder.lowFirst width (number a) := by
  refine (consumes_take width).bind fun content first hcontent => consumes_pure ?_
  obtain ⟨rfl, rfl⟩ := hcontent
  rw [hword _ (ByteOrder.ofLowFirst_lt first), ByteOrder.lowFirst_ofLowFirst, List.append_nil]

theorem consumes_decodeFloat : decodeFloat.Consumes fun word bytes => bytes = encodeFloat word := by
  have hword : ∀ n, n < ByteOrder.capacity 4 → (UInt32.ofNat n).toNat = n := fun _ hn =>
    Nat.mod_eq_of_lt hn
  exact consumes_take_word hword

theorem consumes_decodeDouble : decodeDouble.Consumes fun word bytes => bytes = encodeDouble word := by
  have hword : ∀ n, n < ByteOrder.capacity 8 → (UInt64.ofNat n).toNat = n := fun _ hn =>
    Nat.mod_eq_of_lt hn
  exact consumes_take_word hword

/-! ## Lengths, byte strings and texts -/

theorem consumes_decodeLength :
    decodeLength.Consumes fun n bytes => n < UInt64.size ∧ bytes = encodeLength n := by
  intro c n after hrun
  obtain ⟨v, hv, rfl, -⟩ := run_decodeVarint_of_decodeLength hrun
  obtain ⟨bytes, rfl, hread⟩ := consumes_decodeVarint c v after hv
  exact ⟨_, ⟨v.toNat_lt, rfl⟩, hread⟩

theorem consumes_decodeLength_pos : decodeLength.Consumes fun _ bytes => 0 < bytes.length := by
  refine consumes_decodeLength.mono fun n bytes hbytes => ?_
  rw [hbytes.2]
  exact encodeNat_pos n

/-- A count is read where its shortest spelling stands, in front of as many bytes. -/
theorem run_decodeLength_iff {c after : Cursor} {n : Nat} : decodeLength.run c = .ok n after ↔
    n < UInt64.size ∧ n ≤ after.rest.length ∧
      ∃ bytes, IsShortest bytes n ∧ c.rest = bytes ++ after.rest ∧
        after.offset = c.offset + bytes.length := by
  constructor
  · intro hrun
    obtain ⟨v, hv, rfl, hle⟩ := run_decodeVarint_of_decodeLength hrun
    exact ⟨v.toNat_lt, hle, (reads_decodeVarint c v after).mp hv⟩
  · rintro ⟨hsize, hle, bytes, hbytes, hread⟩
    have hword : (UInt64.ofNat n).toNat = n := Nat.mod_eq_of_lt hsize
    have hshortest : IsShortest bytes (UInt64.ofNat n).toNat := by rwa [hword]
    have hv : decodeVarint.run c = .ok (UInt64.ofNat n) after :=
      (reads_decodeVarint c _ after).mpr ⟨bytes, hshortest, hread⟩
    have hlength := run_decodeLength hv (by rwa [hword])
    rwa [hword] at hlength

theorem consumes_decodeBytes : decodeBytes.Consumes fun content bytes =>
    content.length < UInt64.size ∧ bytes = encodeBytes content := by
  refine consumes_decodeLength.bind fun n first hfirst => (consumes_take n).mono ?_
  rintro content bytes ⟨rfl, rfl⟩
  exact ⟨hfirst.1, by rw [hfirst.2, encodeBytes]⟩

/-- The bytes of a text are those that it was made of. -/
theorem encode_of_decode_utf8 {bytes : List UInt8} {s : String}
    (h : Utf8.decode bytes = .ok s) : Utf8.encode s = bytes := by
  by_cases hvalid : (⟨bytes.toArray⟩ : ByteArray).IsValidUTF8
  · simp only [Utf8.decode, String.fromUTF8?, dif_pos hvalid] at h
    cases h
    rfl
  · simp only [Utf8.decode, String.fromUTF8?, dif_neg hvalid] at h
    cases h

theorem consumes_decodeString : decodeString.Consumes fun s bytes =>
    (Utf8.encode s).length < UInt64.size ∧ bytes = encodeString s := by
  refine consumes_offset_bind fun start => consumes_decodeBytes.bind fun content first => ?_
  rintro ⟨hsize, rfl⟩
  cases hs : Utf8.decode content with
  | error fault => exact consumes_corrupt _
  | ok s =>
    refine consumes_pure ?_
    rw [List.append_nil, encodeString, encode_of_decode_utf8 hs]
    exact ⟨hsize, rfl⟩

theorem consumes_decodeIndex : decodeIndex.Consumes fun i bytes => bytes = encodeLength i :=
  consumes_decodeVarint.map fun _ _ hbytes => hbytes

/-- A text is read where the shortest spelling of a count stands in front of so many bytes, when these
are UTF-8. -/
theorem reads_decodeString : decodeString.Reads fun s bytes =>
    ∃ count, IsShortest count (Utf8.encode s).length ∧ (Utf8.encode s).length < UInt64.size ∧
      bytes = count ++ Utf8.encode s := by
  refine (consumes_decodeString.mono fun s bytes hbytes => ?_).reads fun s bytes hbytes => ?_
  · exact ⟨_, isShortest_iff.mpr rfl, hbytes⟩
  · obtain ⟨count, hcount, hsize, rfl⟩ := hbytes
    rw [isShortest_iff.mp hcount]
    exact yields_string_of_length hsize

end Wire

/-! ## Headers -/

/-- The text of a schema that a header carries, if any, is one that 64 bits can count. -/
def Header.Fits (h : Header) : Prop :=
  ∀ text ∈ h.schemaText, (Utf8.encode text).length < UInt64.size

open Decoder

theorem Header.consumes_decode : Header.decode.Consumes fun h bytes => h.Fits ∧ bytes = h.encode := by
  refine (consumes_take 2).bind fun found first hfound => ?_
  obtain ⟨rfl, -⟩ := hfound
  refine consumes_ite (fun _ => consumes_corrupt _) fun hmarker => ?_
  obtain rfl := not_not.mp hmarker
  refine (consumes_take Fingerprint.width).bind fun content bytes hcontent => ?_
  obtain ⟨rfl, hwidth⟩ := hcontent
  have hfingerprint := Fingerprint.toBytes_ofBytes hwidth
  refine consumes_byte.bind fun flag third hflag => ?_
  rw [hflag]
  -- The flag says whether the text of a schema follows.
  refine consumes_ite (fun hzero => consumes_pure ?_) fun _ =>
    consumes_ite (fun hone => ?_) fun _ => consumes_corrupt _
  · refine ⟨fun text htext => absurd htext (Option.not_mem_none text), ?_⟩
    rw [Header.encode, hfingerprint, hzero, List.append_nil, List.append_assoc]
  · refine Wire.consumes_decodeString.bind fun text fourth htext => consumes_pure ?_
    obtain ⟨hsize, rfl⟩ := htext
    refine ⟨fun other hother => ?_, ?_⟩
    · cases hother
      exact hsize
    · rw [Header.encode, hfingerprint, hone, List.append_nil, List.append_assoc]
      rfl

namespace Wire

/-! ## Items -/

/-- The byte string or text of an item, if any, is one that 64 bits can count. -/
def Item.Fits : Item → Prop
  | .bytes content => content.length < UInt64.size
  | .string s => (Utf8.encode s).length < UInt64.size
  | .header h => h.Fits
  | _ => True

/-- What is read as an item of a form is what is written for it. -/
theorem Form.consumes_decode (form : Form) : form.decode.Consumes fun item bytes =>
    item.form = form ∧ item.Fits ∧ bytes = item.encode := by
  cases form with
  | byte => exact consumes_byte.map fun _ _ h => ⟨rfl, trivial, h⟩
  | bool => exact consumes_decodeBool.map fun _ _ h => ⟨rfl, trivial, h⟩
  | varint => exact consumes_decodeVarint.map fun _ _ h => ⟨rfl, trivial, h⟩
  | int => exact consumes_decodeInt.map fun _ _ h => ⟨rfl, trivial, h⟩
  | long => exact consumes_decodeLong.map fun _ _ h => ⟨rfl, trivial, h⟩
  | float => exact consumes_decodeFloat.map fun _ _ h => ⟨rfl, trivial, h⟩
  | double => exact consumes_decodeDouble.map fun _ _ h => ⟨rfl, trivial, h⟩
  | bytes => exact consumes_decodeBytes.map fun _ _ h => ⟨rfl, h⟩
  | string => exact consumes_decodeString.map fun _ _ h => ⟨rfl, h⟩
  | header => exact Header.consumes_decode.map fun _ _ h => ⟨rfl, h⟩
  | raw count =>
    refine (consumes_take count).map fun content bytes h => ⟨?_, trivial, h.1⟩
    rw [Item.form, h.2]

/-- What is written for an item is read as this item. -/
theorem Item.yields_encode {item : Item} (h : item.Fits) :
    item.form.decode.Yields item.encode (.ok item) := by
  cases item with
  | byte b => exact (yields_byte b).map_ok _
  | bool b => exact (yields_bool b).map_ok _
  | varint n => exact (yields_varint n).map_ok _
  | int n => exact (yields_int n).map_ok _
  | long n => exact (yields_long n).map_ok _
  | float word => exact (yields_float word).map_ok _
  | double word => exact (yields_double word).map_ok _
  | bytes content => exact (yields_bytes_of_length h).map_ok _
  | string s => exact (yields_string_of_length h).map_ok _
  | raw content => exact (yields_take rfl).map_ok _
  | header h' => exact (Header.yields_encode_of_length h).map_ok _

theorem consumes_decodeItems (forms : List Form) : (decodeItems forms).Consumes fun items bytes =>
    items.map Item.form = forms ∧ (∀ item ∈ items, item.Fits) ∧ bytes = encodeItems items := by
  induction forms with
  | nil => exact consumes_pure ⟨rfl, fun _ h => absurd h List.not_mem_nil, rfl⟩
  | cons form rest ih =>
    rw [decodeItems, List.mapM_cons]
    refine form.consumes_decode.bind fun item first hitem => ih.bind fun items others hitems => ?_
    obtain ⟨hform, hfits, rfl⟩ := hitem
    obtain ⟨hforms, hall, rfl⟩ := hitems
    refine consumes_pure ⟨?_, List.forall_mem_cons.mpr ⟨hfits, hall⟩, ?_⟩
    · rw [List.map_cons, hform, hforms]
    · rw [List.append_nil, encodeItems, encodeItems, List.flatMap_cons]

theorem yields_encodeItems {items : List Item} (h : ∀ item ∈ items, item.Fits) :
    (decodeItems (items.map Item.form)).Yields (encodeItems items) (.ok items) := by
  induction items with
  | nil => exact yields_pure []
  | cons item rest ih =>
    obtain ⟨hitem, hrest⟩ := List.forall_mem_cons.mp h
    rw [decodeItems, List.map_cons, List.mapM_cons, encodeItems, List.flatMap_cons]
    refine (Item.yields_encode hitem).bind_ok ?_
    exact (ih hrest).bind_ok_nil (yields_pure _)

/-- **One spelling.** Items are read from the bytes that are written for them, whatever follows these and
wherever they stand, and from no others. In particular a number is read from the shortest of its
spellings, a signed one from that of its folding, which is what two shifts make of its bits, a text from
a count and as many bytes of UTF-8, and a header from what is written for it. A count is read likewise,
in front of at least as many bytes. -/
theorem items_have_one_spelling :
    (∀ forms, (decodeItems forms).Reads fun items bytes =>
      items.map Item.form = forms ∧ (∀ item ∈ items, item.Fits) ∧ bytes = encodeItems items) ∧
    (decodeVarint.Reads fun n bytes => IsShortest bytes n.toNat) ∧
    (decodeLong.Reads fun n bytes => IsShortest bytes (fold n).toNat) ∧
    (decodeInt.Reads fun n bytes => IsShortest bytes (fold n.toInt64).toNat) ∧
    (∀ n, unfold (fold n) = n ∧ fold n = ((n <<< 1) ^^^ (n >>> 63)).toUInt64) ∧
    (∀ n, fold (unfold n) = n ∧ unfold n = (n >>> 1).toInt64 ^^^ -(n &&& 1).toInt64) ∧
    (decodeString.Reads fun s bytes =>
      ∃ count, IsShortest count (Utf8.encode s).length ∧ (Utf8.encode s).length < UInt64.size ∧
        bytes = count ++ Utf8.encode s) ∧
    (Header.decode.Reads fun h bytes => h.Fits ∧ bytes = h.encode) ∧
    ∀ c n after, decodeLength.run c = .ok n after ↔
      n < UInt64.size ∧ n ≤ after.rest.length ∧
        ∃ bytes, IsShortest bytes n ∧ bytes = encodeLength n ∧ c.rest = bytes ++ after.rest ∧
          after.offset = c.offset + bytes.length := by
  refine ⟨fun forms => ?_, reads_decodeVarint, reads_decodeLong, reads_decodeInt,
    fun n => ⟨unfold_fold n, fold_eq_xor n⟩, fun n => ⟨fold_unfold n, unfold_eq_xor n⟩,
    reads_decodeString, ?_, fun c n after => ?_⟩
  · refine (consumes_decodeItems forms).reads ?_
    rintro items bytes ⟨rfl, hfits, rfl⟩
    exact yields_encodeItems hfits
  · refine Header.consumes_decode.reads ?_
    rintro h bytes ⟨hfits, rfl⟩
    exact Header.yields_encode_of_length hfits
  · refine run_decodeLength_iff.trans (and_congr_right fun _ => and_congr_right fun _ => ?_)
    refine exists_congr fun bytes => and_congr_right fun hbytes => ?_
    exact (and_iff_right (isShortest_iff.mp hbytes)).symm

end Wire

end RecordExchange
