import RecordExchange.Wire.Decoder

/-!
# What a decoder makes of bytes

A decoder is specified by the bytes that it reads and the result that it ends with. What stands
behind these bytes does not matter, and neither does the offset at which they start.

- `Decoder.run_bind_eq_ok`, `Decoder.run_bind_eq_error`: how one decoder after another ends.
- `Decoder.Yields d bytes r`: in front of any suffix and from any offset, `d` ends with the result
  `r`. If that is a value, then exactly `bytes` have been read.
- `Decoder.Yields.bind`, `Decoder.Yields.map`: the bytes of a composite decoder are those of its
  parts in turn.
-/

namespace RecordExchange

namespace Decoder

variable {α β : Type}

/-- One decoder after another ends with a value when both do. -/
theorem run_bind_eq_ok {d : Decoder α} {k : α → Decoder β} {c after : Cursor} {b : β}
    (h : (d >>= k).run c = .ok b after) :
    ∃ a between, d.run c = .ok a between ∧ (k a).run between = .ok b after := by
  rw [EStateM.run_bind] at h
  cases hd : d.run c with
  | ok a between => exact ⟨a, between, rfl, by rwa [hd] at h⟩
  | error e between =>
    rw [hd] at h
    cases h

/-- One decoder after another fails when the first one does, or else the second one. -/
theorem run_bind_eq_error {d : Decoder α} {k : α → Decoder β} {c after : Cursor}
    {e : ExchangeError} (h : (d >>= k).run c = .error e after) :
    d.run c = .error e after ∨
      ∃ a between, d.run c = .ok a between ∧ (k a).run between = .error e after := by
  rw [EStateM.run_bind] at h
  cases hd : d.run c with
  | ok a between => exact .inr ⟨a, between, rfl, by rwa [hd] at h⟩
  | error e' between =>
    rw [hd] at h
    cases h
    exact .inl rfl

/-- In front of any suffix a decoder ends with the result `r`: with a value after reading exactly
`bytes`, or with an error, wherever that leaves the cursor. -/
def Yields (d : Decoder α) (bytes : List UInt8) : Except ExchangeError α → Prop
  | .ok a => ∀ suffix offset,
    d.run ⟨bytes ++ suffix, offset⟩ = .ok a ⟨suffix, offset + bytes.length⟩
  | .error e => ∀ suffix offset, ∃ c, d.run ⟨bytes ++ suffix, offset⟩ = .error e c

theorem yields_pure (a : α) : (pure a : Decoder α).Yields [] (.ok a) :=
  fun _ _ => rfl

theorem yields_throw (e : ExchangeError) : (throw e : Decoder α).Yields [] (.error e) :=
  fun _ _ => ⟨_, rfl⟩

/-- A failure stays one, whatever further bytes are there. -/
theorem Yields.append_error {d : Decoder α} {bytes : List UInt8} {e : ExchangeError}
    (h : d.Yields bytes (.error e)) (more : List UInt8) : d.Yields (bytes ++ more) (.error e) := by
  intro suffix offset
  rw [List.append_assoc]
  exact h (more ++ suffix) offset

/-- The second part of a computation starts where the first one stopped; it is not reached when the
first one fails. -/
theorem Yields.bind {d : Decoder α} {k : α → Decoder β} {first second : List UInt8}
    {r : Except ExchangeError α} {s : α → Except ExchangeError β} (h : d.Yields first r)
    (hk : ∀ a, r = .ok a → (k a).Yields second (s a)) :
    (d >>= k).Yields (first ++ second) (r >>= s) := by
  cases r with
  | error e =>
    intro suffix offset
    -- The second part is not read, and its bytes follow like any others.
    obtain ⟨c, hc⟩ := h.append_error second suffix offset
    exact ⟨c, by rw [EStateM.run_bind, hc]⟩
  | ok a =>
    have hs : (Except.ok a >>= s) = s a := rfl
    have hrun : ∀ suffix offset, (d >>= k).run ⟨first ++ second ++ suffix, offset⟩
        = (k a).run ⟨second ++ suffix, offset + first.length⟩ := by
      intro suffix offset
      rw [EStateM.run_bind, List.append_assoc, h (second ++ suffix) offset]
    rw [hs]
    have ha := hk a rfl
    cases hsa : s a with
    | ok b =>
      rw [hsa] at ha
      intro suffix offset
      rw [hrun, ha suffix (offset + first.length), List.length_append, Nat.add_assoc]
    | error e =>
      rw [hsa] at ha
      intro suffix offset
      rw [hrun]
      exact ha suffix (offset + first.length)

/-- The first part is known to succeed. -/
theorem Yields.bind_ok {d : Decoder α} {k : α → Decoder β} {first second : List UInt8} {a : α}
    {s : Except ExchangeError β} (h : d.Yields first (.ok a)) (hk : (k a).Yields second s) :
    (d >>= k).Yields (first ++ second) s :=
  h.bind (s := fun _ => s) fun b hb => by
    cases hb
    exact hk

/-- The first part is known to succeed, and the second part reads nothing. -/
theorem Yields.bind_ok_nil {d : Decoder α} {k : α → Decoder β} {bytes : List UInt8} {a : α}
    {s : Except ExchangeError β} (h : d.Yields bytes (.ok a)) (hk : (k a).Yields [] s) :
    (d >>= k).Yields bytes s := by
  have := h.bind_ok hk
  rwa [List.append_nil] at this

/-- The second part reads nothing. -/
theorem Yields.bind_nil {d : Decoder α} {k : α → Decoder β} {bytes : List UInt8}
    {r : Except ExchangeError α} {s : α → Except ExchangeError β} (h : d.Yields bytes r)
    (hk : ∀ a, r = .ok a → (k a).Yields [] (s a)) : (d >>= k).Yields bytes (r >>= s) := by
  have := h.bind hk
  rwa [List.append_nil] at this

theorem Yields.map {d : Decoder α} {bytes : List UInt8} {r : Except ExchangeError α} (f : α → β)
    (h : d.Yields bytes r) : (f <$> d).Yields bytes (f <$> r) := by
  rw [map_eq_pure_bind, map_eq_pure_bind]
  exact h.bind_nil fun a _ => yields_pure (f a)

theorem Yields.map_ok {d : Decoder α} {bytes : List UInt8} {a : α} (f : α → β)
    (h : d.Yields bytes (.ok a)) : (f <$> d).Yields bytes (.ok (f a)) :=
  h.map f

/-- A decoder that looks at its offset first does so without reading. -/
theorem yields_offset_bind {k : Nat → Decoder β} {bytes : List UInt8}
    {r : Except ExchangeError β} (h : ∀ start, (k start).Yields bytes r) :
    (offset >>= k).Yields bytes r := by
  cases r with
  | ok a => exact fun suffix start => h start suffix start
  | error e => exact fun suffix start => h start suffix start

theorem yields_byte (b : UInt8) : byte.Yields [b] (.ok b) :=
  fun _ _ => rfl

/-- Taking as many bytes as there are takes them. -/
theorem yields_take {bytes : List UInt8} {n : Nat} (h : bytes.length = n) :
    (take n).Yields bytes (.ok bytes) := by
  subst h
  intro suffix start
  simp [take, EStateM.run, Cursor.remaining]

end Decoder

end RecordExchange
