import RecordExchange.Endpoint.Basic

/-!
# How an exchange ends

An exchange starts from a state and ends with a value or a failure, and in both cases with a state.
What can be said of its end follows from what can be said of the ends of its parts.

- `Exchange.Ends`: the end satisfies one condition on values or another one on failures.
- `Exchange.ends_bind`, `Exchange.Ends.mono`: composition and weakening.
- `Exchange.ends_updateStore`, `Exchange.ends_tryStore`, `Exchange.ends_read`: the steps that
  endpoints are made of.
-/

namespace RecordExchange

/-- What an exchange works over. -/
abbrev Exchange.State (app : Application) := Registry (Binding app) × Holdings

namespace Exchange

variable {app : Application} {α β : Type}

/-- From a state, an exchange ends with a value and a state that satisfy `Q`, or with a failure and
a state that satisfy `E`. -/
def Ends (x : Exchange app α) (s : State app) (Q : α → State app → Prop)
    (E : ExchangeError → State app → Prop) : Prop :=
  match x.run s with
  | .ok a t => Q a t
  | .error e t => E e t

variable {s : State app} {Q Q' : α → State app → Prop} {E E' : ExchangeError → State app → Prop}

theorem Ends.mono {x : Exchange app α} (h : x.Ends s Q E) (hQ : ∀ a t, Q a t → Q' a t)
    (hE : ∀ e t, E e t → E' e t) : x.Ends s Q' E' := by
  unfold Ends at h ⊢
  split
  next a t hrun =>
    rw [hrun] at h
    exact hQ a t h
  next e t hrun =>
    rw [hrun] at h
    exact hE e t h

/-- Two things that are known of an end hold of it together. -/
theorem Ends.and {x : Exchange app α} (h : x.Ends s Q E) (h' : x.Ends s Q' E') :
    x.Ends s (fun a t => Q a t ∧ Q' a t) fun e t => E e t ∧ E' e t := by
  unfold Ends at h h' ⊢
  split <;> simp_all

theorem Ends.of_run_ok {x : Exchange app α} (h : x.Ends s Q E) {a : α} {t : State app}
    (hrun : x.run s = .ok a t) : Q a t := by
  unfold Ends at h
  rwa [hrun] at h

theorem Ends.of_run_error {x : Exchange app α} (h : x.Ends s Q E) {e : ExchangeError}
    {t : State app} (hrun : x.run s = .error e t) : E e t := by
  unfold Ends at h
  rwa [hrun] at h

theorem ends_iff_of_run_ok {x : Exchange app α} {a : α} {t : State app}
    (hrun : x.run s = .ok a t) : x.Ends s Q E ↔ Q a t := by
  unfold Ends
  rw [hrun]

/-- An exchange that cannot fail ends with a value. -/
theorem Ends.exists_run_ok {x : Exchange app α} (h : x.Ends s Q fun _ _ => False) :
    ∃ a t, x.run s = .ok a t ∧ Q a t := by
  unfold Ends at h
  split at h
  next a t hrun => exact ⟨a, t, hrun, h⟩
  next => exact h.elim

@[simp] theorem ends_pure (a : α) : (pure a : Exchange app α).Ends s Q E ↔ Q a s := Iff.rfl

@[simp] theorem ends_throw (e : ExchangeError) :
    (throw e : Exchange app α).Ends s Q E ↔ E e s := Iff.rfl

/-- The second part of an exchange starts where the first one ended; it is not reached when the
first one fails. -/
theorem ends_bind {x : Exchange app β} {k : β → Exchange app α} :
    (x >>= k).Ends s Q E ↔ x.Ends s (fun b t => (k b).Ends t Q E) E := by
  unfold Ends
  rw [EStateM.run_bind]
  cases x.run s <;> rfl

@[simp] theorem ends_get {Q : State app → State app → Prop} :
    (get : Exchange app (State app)).Ends s Q E ↔ Q s s := Iff.rfl

theorem ends_ofExcept {x : Except ExchangeError α} :
    (ofExcept x : Exchange app α).Ends s Q E
      ↔ (∀ a, x = .ok a → Q a s) ∧ ∀ e, x = .error e → E e s := by
  cases x <;> simp [ofExcept]

theorem ends_ofSchemaResult {x : Except SchemaError α} :
    (ofSchemaResult x : Exchange app α).Ends s Q E
      ↔ (∀ a, x = .ok a → Q a s) ∧ ∀ e, x = .error e → E (.ofSchemaError e) s := by
  cases x <;> simp [ofSchemaResult]

theorem ends_updateStore (f : SchemaStore → α × SchemaStore) :
    (updateStore f : Exchange app α).Ends s Q E
      ↔ Q (f s.2.store).1 (s.1, { s.2 with store := (f s.2.store).2 }) := Iff.rfl

/-- A change of the store that may fail, in one step. -/
theorem run_tryStore (f : SchemaStore → Except SchemaError (α × SchemaStore)) (s : State app) :
    (tryStore f : Exchange app α).run s
      = (match f s.2.store with
        | .ok (a, store) => .ok a (s.1, { s.2 with store := store })
        | .error e => .error (.ofSchemaError e) s) := by
  unfold tryStore
  simp only [EStateM.run_bind, EStateM.run_get]
  cases f s.2.store <;> rfl

theorem ends_tryStore (f : SchemaStore → Except SchemaError (α × SchemaStore)) :
    (tryStore f : Exchange app α).Ends s Q E
      ↔ (∀ a store, f s.2.store = .ok (a, store) → Q a (s.1, { s.2 with store := store })) ∧
        ∀ e, f s.2.store = .error e → E (.ofSchemaError e) s := by
  unfold Ends
  rw [run_tryStore]
  cases f s.2.store with
  | ok found =>
    obtain ⟨a, store⟩ := found
    simp
  | error err => simp

theorem run_read {d : Decoder α} {c after : Cursor} {a : α} (h : d.run c = .ok a after)
    (s : State app) : (read d c : Exchange app (α × Cursor)).run s = .ok (a, after) s := by
  rw [read, h]
  rfl

theorem ends_read {d : Decoder α} {c : Cursor} {Q : α × Cursor → State app → Prop} :
    (read d c : Exchange app (α × Cursor)).Ends s Q E
      ↔ (∀ a after, d.run c = .ok a after → Q (a, after) s) ∧
        ∀ e after, d.run c = .error e after → E e s := by
  unfold read
  cases d.run c <;> simp

end Exchange

end RecordExchange
