import RecordExchange.Digest.Sha256
import RecordExchange.Text.Hex
import RecordExchange.Text.Utf8

/-!
# Fingerprints

The short identity of a schema: the first eight bytes of the digest of its canonical text. It is
the key of a schema store and stands in the header of every message.

- `Fingerprint.digest`: the fingerprint of a text.
- `Fingerprint.toBytes`, `Fingerprint.ofBytes?`: its form in a message.
- `Fingerprint.toHex`, `Fingerprint.parse`: its form as text.
-/

namespace RecordExchange

/-- Eight bytes, kept as the number that they spell with the highest byte first. Numeric order is
the order of the bytes. -/
structure Fingerprint where
  word : UInt64
  deriving DecidableEq, Repr, Inhabited

namespace Fingerprint

def width : Nat := 8

def digest (text : String) : Fingerprint :=
  let words := Sha256.digest (Utf8.encode text)
  ⟨(words.a.toUInt64 <<< 32) ||| words.b.toUInt64⟩

/-- The bytes of a fingerprint, highest first. -/
def toBytes (f : Fingerprint) : List UInt8 :=
  ByteOrder.highFirst width f.word.toNat

/-- The fingerprint of eight bytes. -/
def ofBytes (bytes : List UInt8) : Fingerprint :=
  ⟨UInt64.ofNat (ByteOrder.ofHighFirst bytes)⟩

/-- The sixteen hexadecimal digits of a fingerprint. -/
def toHex (f : Fingerprint) : String :=
  Hex.encode f.toBytes

def inspect (f : Fingerprint) : String :=
  s!"Fingerprint({f.toHex})"

/-- Why a text is not a fingerprint. -/
inductive Fault where
  | notHex (fault : Hex.Fault)
  | wrongWidth (found : Nat)
  deriving DecidableEq, Repr

def Fault.message : Fault → String
  | .notHex fault => fault.message
  | .wrongWidth found => s!"expected {width} bytes, got {found}"

/-- Reads a fingerprint from hexadecimal digits in either case. -/
def parse (text : String) : Except Fault Fingerprint :=
  match Hex.decode text with
  | .error fault => .error (.notHex fault)
  | .ok bytes =>
    if bytes.length = width then .ok (ofBytes bytes) else .error (.wrongWidth bytes.length)

theorem length_toBytes (f : Fingerprint) : f.toBytes.length = width :=
  ByteOrder.length_highFirst _ _

theorem ofBytes_toBytes (f : Fingerprint) : ofBytes f.toBytes = f := by
  obtain ⟨w⟩ := f
  have h : w.toNat < ByteOrder.capacity width := w.toNat_lt
  simp only [ofBytes, toBytes, ByteOrder.ofHighFirst_highFirst h, UInt64.ofNat_toNat]

/-- Eight bytes are the bytes of their fingerprint. -/
theorem toBytes_ofBytes {bytes : List UInt8} (h : bytes.length = width) :
    (ofBytes bytes).toBytes = bytes := by
  have hlt : ByteOrder.ofHighFirst bytes < 18446744073709551616 := by
    have := ByteOrder.ofHighFirst_lt bytes
    rw [h] at this
    exact this
  have := ByteOrder.highFirst_ofHighFirst bytes
  rw [h] at this
  simp only [toBytes, ofBytes, UInt64.toNat_ofNat', Nat.mod_eq_of_lt hlt, this]

end Fingerprint

end RecordExchange
