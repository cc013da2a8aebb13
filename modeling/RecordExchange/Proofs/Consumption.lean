import RecordExchange.Proofs.Conformance

/-!
# What a decoder has read

How a decoder ends says little about the bytes that it has read on the way. This is a specification
of both: whatever the bytes and wherever they start, a decoder that ends with a value has read a
first part of them, and this part and the value stand in a given relation.

- `Decoder.Consumes d P`: every success of `d` has read bytes that are related by `P` to its value.
- `Decoder.Consumes.bind`, `Decoder.Consumes.times`, `Decoder.consumes_foldlM`: what composite
  decoders read is what their parts read in turn.
- `Decoder.Reads d P`: besides, `d` succeeds wherever related bytes stand.
-/

namespace RecordExchange

namespace Decoder

variable {α β : Type}

/-- When a decoder succeeds, it has read the first of the bytes at hand, and no others; these are
related to its value. -/
def Consumes (d : Decoder α) (P : α → List UInt8 → Prop) : Prop :=
  ∀ c a after, d.run c = .ok a after →
    ∃ bytes, P a bytes ∧ c.rest = bytes ++ after.rest ∧ after.offset = c.offset + bytes.length

variable {d : Decoder α} {P P' : α → List UInt8 → Prop} {R : β → List UInt8 → Prop}

theorem Consumes.mono (h : d.Consumes P) (hP : ∀ a bytes, P a bytes → P' a bytes) :
    d.Consumes P' := by
  intro c a after hrun
  obtain ⟨bytes, hbytes, hread⟩ := h c a after hrun
  exact ⟨bytes, hP a bytes hbytes, hread⟩

/-- What holds of the value may be used for the bytes. -/
theorem Consumes.and_ensures {Q : α → Prop} (h : d.Consumes P) (hQ : d.Ensures Q) :
    d.Consumes fun a bytes => P a bytes ∧ Q a := by
  intro c a after hrun
  obtain ⟨bytes, hbytes, hread⟩ := h c a after hrun
  exact ⟨bytes, ⟨hbytes, hQ c a after hrun⟩, hread⟩

theorem consumes_pure {a : α} (h : P a []) : (pure a : Decoder α).Consumes P := by
  intro c b after hrun
  cases hrun
  exact ⟨[], h, rfl, rfl⟩

theorem consumes_throw (e : ExchangeError) : (throw e : Decoder α).Consumes P := by
  intro c a after hrun
  cases hrun

theorem consumes_corrupt (cause : Corruption) : (corrupt cause : Decoder α).Consumes P :=
  consumes_throw _

/-! ## Composite decoders -/

/-- The second part reads on where the first one stopped. -/
theorem Consumes.bind {k : α → Decoder β} (h : d.Consumes P)
    (hk : ∀ a first, P a first → (k a).Consumes fun b second => R b (first ++ second)) :
    (d >>= k).Consumes R := by
  intro c b after hrun
  obtain ⟨a, between, hfirst, hsecond⟩ := run_bind_eq_ok hrun
  obtain ⟨first, hP, hrest, hoffset⟩ := h c a between hfirst
  obtain ⟨second, hR, hbetween, hafter⟩ := hk a first hP between b after hsecond
  refine ⟨first ++ second, hR, ?_, ?_⟩
  · rw [hrest, hbetween, List.append_assoc]
  · rw [hafter, hoffset, List.length_append, Nat.add_assoc]

theorem Consumes.map (h : d.Consumes P) {f : α → β} (hf : ∀ a bytes, P a bytes → R (f a) bytes) :
    (f <$> d).Consumes R := by
  rw [map_eq_pure_bind]
  refine h.bind fun a first ha => consumes_pure ?_
  rw [List.append_nil]
  exact hf a first ha

theorem consumes_ite {p : Prop} [Decidable p] {d' : Decoder α} (h : p → d.Consumes P)
    (h' : ¬ p → d'.Consumes P) : (if p then d else d').Consumes P := by
  by_cases hp : p
  · rw [if_pos hp]
    exact h hp
  · rw [if_neg hp]
    exact h' hp

/-- Looking at the offset reads nothing. -/
theorem consumes_offset_bind {k : Nat → Decoder β} (h : ∀ start, (k start).Consumes R) :
    (offset >>= k).Consumes R :=
  fun c b after hrun => h c.offset c b after hrun

theorem consumes_ofSchemaResult {x : Except SchemaError α} (h : ∀ a, x = .ok a → P a []) :
    (ofSchemaResult x).Consumes P := by
  cases x with
  | error e => exact consumes_throw _
  | ok a => exact consumes_pure (h a rfl)

/-! ## Reading bytes -/

theorem consumes_byte : byte.Consumes fun b bytes => bytes = [b] := by
  rintro ⟨rest, start⟩ b after hrun
  cases rest with
  | nil => cases hrun
  | cons first rest =>
    cases hrun
    exact ⟨[b], rfl, rfl, rfl⟩

theorem consumes_take (n : Nat) :
    (take n).Consumes fun content bytes => bytes = content ∧ content.length = n := by
  rintro ⟨rest, start⟩ content after hrun
  have htake : (take n).run ⟨rest, start⟩ = if n ≤ rest.length then _ else _ := rfl
  rw [htake] at hrun
  by_cases hn : n ≤ rest.length
  · rw [if_pos hn] at hrun
    cases hrun
    have hlength : (rest.take n).length = n := List.length_take_of_le hn
    exact ⟨rest.take n, ⟨rfl, hlength⟩, (List.take_append_drop n rest).symm, by rw [hlength]⟩
  · rw [if_neg hn] at hrun
    cases hrun

/-! ## Loops -/

/-- What all rounds of a loop keep, of the state and the bytes read so far, holds after the loop. -/
theorem consumes_foldlM {f : β → α → Decoder β}
    (hf : ∀ b sofar a, R b sofar → (f b a).Consumes fun b' bytes => R b' (sofar ++ bytes)) :
    ∀ (l : List α) (b : β) (sofar : List UInt8), R b sofar →
      (l.foldlM f b).Consumes fun b' bytes => R b' (sofar ++ bytes) := by
  intro l
  induction l with
  | nil =>
    intro b sofar hb
    refine consumes_pure ?_
    rwa [List.append_nil]
  | cons a rest ih =>
    intro b sofar hb
    rw [List.foldlM_cons]
    refine (hf b sofar a hb).bind fun b' first hb' => (ih b' _ hb').mono fun _ _ h => ?_
    rwa [List.append_assoc] at h

/-- A relation that holds of nothing read, and is kept when one more value is put in front, holds of
all values that a loop reads and their bytes. -/
theorem Consumes.times {S : List α → List UInt8 → Prop} (h : d.Consumes P) (hnil : S [] [])
    (hcons : ∀ a first as others, P a first → S as others → S (a :: as) (first ++ others)) (n : Nat) :
    (d.times n).Consumes fun as bytes => as.length = n ∧ S as bytes := by
  induction n with
  | zero => exact consumes_pure ⟨rfl, hnil⟩
  | succ n ih =>
    rw [Decoder.times]
    refine h.bind fun a first ha => ih.bind fun as others => ?_
    rintro ⟨hlength, hothers⟩
    refine consumes_pure ⟨by rw [List.length_cons, hlength], ?_⟩
    rw [List.append_nil]
    exact hcons a first as others ha hothers

/-! ## Both directions -/

/-- A decoder succeeds just where bytes stand that are related to a value, with that value, and it
reads just these bytes. -/
def Reads (d : Decoder α) (P : α → List UInt8 → Prop) : Prop :=
  ∀ c a after, d.run c = .ok a after ↔
    ∃ bytes, P a bytes ∧ c.rest = bytes ++ after.rest ∧ after.offset = c.offset + bytes.length

theorem Consumes.reads (h : d.Consumes P) (hd : ∀ a bytes, P a bytes → d.Yields bytes (.ok a)) :
    d.Reads P := by
  intro c a after
  constructor
  · exact h c a after
  · rintro ⟨bytes, hP, hrest, hoffset⟩
    obtain ⟨rest, start⟩ := c
    obtain ⟨suffix, stop⟩ := after
    obtain rfl : rest = bytes ++ suffix := hrest
    obtain rfl : stop = start + bytes.length := hoffset
    exact hd a bytes hP suffix start

end Decoder

end RecordExchange
