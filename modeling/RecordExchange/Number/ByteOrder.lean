/-!
# Numbers as bytes

Numbers of a fixed width travel with the lowest byte first, fingerprints and digest lengths with
the highest byte first.

- `ByteOrder.lowFirst`, `ByteOrder.highFirst`: the bytes of a number in a given width.
- `ByteOrder.ofLowFirst`, `ByteOrder.ofHighFirst`: the number of given bytes.

Reading what was written gives the number back when it fits the width (`ofLowFirst_lowFirst`), and
writing what was read gives the bytes back (`lowFirst_ofLowFirst`).
-/

namespace RecordExchange.ByteOrder

/-- The `width` lowest bytes of a number, lowest first. -/
def lowFirst : (width : Nat) → Nat → List UInt8
  | 0, _ => []
  | width + 1, n => UInt8.ofNat n :: lowFirst width (n / 256)

/-- The number of bytes that stand lowest first. -/
def ofLowFirst : List UInt8 → Nat
  | [] => 0
  | b :: bs => b.toNat + 256 * ofLowFirst bs

/-- The `width` lowest bytes of a number, highest first. -/
def highFirst (width n : Nat) : List UInt8 :=
  (lowFirst width n).reverse

/-- The number of bytes that stand highest first. -/
def ofHighFirst (bytes : List UInt8) : Nat :=
  ofLowFirst bytes.reverse

@[simp] theorem length_lowFirst (width n : Nat) : (lowFirst width n).length = width := by
  induction width generalizing n with
  | zero => rfl
  | succ w ih => simp [lowFirst, ih]

@[simp] theorem length_highFirst (width n : Nat) : (highFirst width n).length = width := by
  simp [highFirst]

/-- How many numbers there are of a width. -/
def capacity (width : Nat) : Nat := Nat.pow 256 width

theorem capacity_succ (width : Nat) : capacity (width + 1) = capacity width * 256 := rfl

theorem ofLowFirst_lowFirst {width n : Nat} (h : n < capacity width) :
    ofLowFirst (lowFirst width n) = n := by
  induction width generalizing n with
  | zero =>
    have : n = 0 := by simpa [capacity] using h
    simp [lowFirst, ofLowFirst, this]
  | succ w ih =>
    have hq : n / 256 < capacity w := by
      rw [Nat.div_lt_iff_lt_mul (by decide)]
      simpa [capacity_succ] using h
    have hb : (UInt8.ofNat n).toNat = n % 256 := by simp
    rw [lowFirst, ofLowFirst, ih hq, hb]
    omega

theorem lowFirst_ofLowFirst (bytes : List UInt8) :
    lowFirst bytes.length (ofLowFirst bytes) = bytes := by
  induction bytes with
  | nil => rfl
  | cons b bs ih =>
    have hb : b.toNat < 256 := b.toNat_lt
    have hd : (b.toNat + 256 * ofLowFirst bs) / 256 = ofLowFirst bs := by omega
    have hm : UInt8.ofNat (b.toNat + 256 * ofLowFirst bs) = b := by
      apply UInt8.toNat.inj
      simp
    simp only [List.length_cons, ofLowFirst, lowFirst, hd, hm, ih]

theorem ofLowFirst_lt (bytes : List UInt8) : ofLowFirst bytes < capacity bytes.length := by
  induction bytes with
  | nil => simp [ofLowFirst, capacity]
  | cons b bs ih =>
    have hb : b.toNat < 256 := b.toNat_lt
    simp only [ofLowFirst, List.length_cons, capacity_succ]
    omega

theorem ofHighFirst_highFirst {width n : Nat} (h : n < capacity width) :
    ofHighFirst (highFirst width n) = n := by
  simp [ofHighFirst, highFirst, ofLowFirst_lowFirst h]

theorem highFirst_ofHighFirst (bytes : List UInt8) :
    highFirst bytes.length (ofHighFirst bytes) = bytes := by
  have := lowFirst_ofLowFirst bytes.reverse
  rw [List.length_reverse] at this
  simp [highFirst, ofHighFirst, this]

theorem ofHighFirst_lt (bytes : List UInt8) : ofHighFirst bytes < capacity bytes.length := by
  simpa [ofHighFirst] using ofLowFirst_lt bytes.reverse

end RecordExchange.ByteOrder
