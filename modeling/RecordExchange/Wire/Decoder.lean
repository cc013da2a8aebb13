import RecordExchange.ExchangeError

/-!
# Decoders

A decoder reads from a cursor: the bytes that are left, and the offset of the first of them. After
a failure the cursor stands where reading stopped.

- `Cursor`, `Decoder`.
- `Decoder.byte`, `Decoder.take`: the two ways to read bytes; all other decoders are made of them.
- `Decoder.times`: one decoder several times over.
- `Decoder.finish`: fails when bytes are left.
-/

namespace RecordExchange

/-- The bytes that are left to read, and how many have been read before them. -/
structure Cursor where
  rest : List UInt8
  offset : Nat
  deriving DecidableEq, Repr

def Cursor.start (bytes : List UInt8) : Cursor := ⟨bytes, 0⟩

def Cursor.remaining (c : Cursor) : Nat := c.rest.length

/-- A computation that reads bytes. -/
abbrev Decoder := EStateM ExchangeError Cursor

namespace Decoder

variable {α : Type}

/-- Fails because the bytes are no message. -/
def corrupt (cause : Corruption) : Decoder α :=
  throw (.corrupt cause)

/-- The number of bytes read so far. -/
def offset : Decoder Nat := return (← get).offset

def remaining : Decoder Nat := return (← get).remaining

def byte : Decoder UInt8 := fun c =>
  match c.rest with
  | [] => .error (.corrupt (.endOfInput c.offset 1 0)) c
  | b :: rest => .ok b ⟨rest, c.offset + 1⟩

/-- Reads `n` bytes, or none of them when fewer are left. -/
def take (n : Nat) : Decoder (List UInt8) := fun c =>
  if n ≤ c.remaining then .ok (c.rest.take n) ⟨c.rest.drop n, c.offset + n⟩
  else .error (.corrupt (.endOfInput c.offset n c.remaining)) c

/-- Fails when bytes are left. -/
def finish : Decoder Unit := do
  let left ← remaining
  if left ≠ 0 then corrupt (.trailing left (← offset))

/-- The results of one decoder `n` times over. -/
def times (d : Decoder α) : (n : Nat) → Decoder (List α)
  | 0 => return []
  | n + 1 => do
    let a ← d
    let as ← d.times n
    return a :: as

/-- The result of an optional computation, or a failure. -/
def orCorrupt (cause : Corruption) : Option α → Decoder α
  | some a => pure a
  | none => corrupt cause

end Decoder

end RecordExchange
