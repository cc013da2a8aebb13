import RecordExchange.Endpoint.Deployment
import RecordExchange.Proofs.Outcomes

/-!
# Deployments at work

Endpoints join a deployment and are called in any order, and so are the stores that they share. What
an endpoint has built up satisfies its invariant whatever the others do, since the others can only
add to its store. So no endpoint and no source can change what another one makes of a message, once
it has made something of it.

- `StoreCall`, `Event`, `Deployment.step`, `Deployment.play`, `Deployment.Reachable`.
- `Deployment.Invariant`: every endpoint satisfies its invariant over the store that it works with.
- `Deployment.Invariant.advances_step`, `Deployment.Invariant.advances_play`,
  `Deployment.Reachable.invariant`: one event, many events and all reachable deployments.
- `Deployment.Reachable.decode_lasts`: the result of decoding a message stays.
-/

namespace RecordExchange

open Exchange

variable {app : Application} {α : Type}

/-! ## Events -/

/-- A call on a store. -/
inductive StoreCall where
  | register (s : Schema)
  | registerAs (f : Fingerprint) (s : Schema)
  | resolve (f : Fingerprint)
  | setSource (source : SchemaSource)

/-- The store after a call, which is the one before if the call fails. -/
def StoreCall.effect (store : SchemaStore) : StoreCall → SchemaStore
  | .register s => (store.register s).2
  | .registerAs f s => (store.registerAs f s).toOption.elim store Prod.snd
  | .resolve f => (store.resolve f).toOption.elim store Prod.snd
  | .setSource source => store.setSource source

/-- What happens to a deployment. -/
inductive Event (app : Application) where
  /-- An endpoint joins, over a store of the deployment or over one of its own. -/
  | join (e : Endpoint app) (store : Option Nat)
  /-- The endpoint at a seat is called, or its store through it. -/
  | call (seat : Nat) (call : Call app)
  /-- A store is called by others. -/
  | store (i : Nat) (call : StoreCall)

namespace Deployment

/-- What the endpoint at a seat works over. -/
def stateAt (d : Deployment app) (seat : Seat app) : State app :=
  (seat.registry, ⟨seat.announced, d.storeAt seat.store⟩)

/-- The deployment after an event. Nothing happens at a seat or with a store that is not there. -/
def step (d : Deployment app) : Event app → Deployment app
  | .join e store => if ∀ i ∈ store, i < d.stores.length then d.addEndpoint e store else d
  | .call i call =>
    match d.seats[i]? with
    | some seat => d.keep i seat (seat.endpoint.step call (d.stateAt seat))
    | none => d
  | .store i call => (d.onStore i fun store => ((), call.effect store)).2

/-- The deployment after events, one after another. -/
def play (d : Deployment app) (events : List (Event app)) : Deployment app :=
  events.foldl step d

/-- A deployment that events lead to, from stores that are empty. -/
def Reachable (d : Deployment app) : Prop :=
  ∃ stores events, (empty stores).play events = d

/-- What an endpoint does at a seat is what it does over its state. -/
theorem run_eq (d : Deployment app) (i : Nat) (seat : Seat app)
    (act : Endpoint app → Exchange app α) :
    d.run i seat act
      = ((act seat.endpoint).result (d.stateAt seat),
          d.keep i seat ((act seat.endpoint).after (d.stateAt seat))) := by
  unfold run result Exchange.after stateAt
  split <;> simp_all

/-! ## The invariant -/

/-- What holds of every endpoint of a deployment and of every store. -/
structure Invariant (d : Deployment app) : Prop where
  /-- The stores of the endpoints are there. -/
  stores : ∀ seat ∈ d.seats, seat.store < d.stores.length
  sound : ∀ i, (d.storeAt i).Sound
  endpoints : ∀ seat ∈ d.seats, seat.endpoint.Invariant (d.stateAt seat)

/-- The invariant holds afterwards, no store has lost anything, and the endpoints have stayed where
they were. -/
structure Advances (d d' : Deployment app) : Prop where
  invariant : d'.Invariant
  extend : ∀ i, (d.storeAt i).Extends (d'.storeAt i)
  stay : ∀ (i : Nat) seat, d.seats[i]? = some seat → ∃ seat', d'.seats[i]? = some seat' ∧
    seat'.endpoint = seat.endpoint ∧ seat'.store = seat.store

variable {d d' d'' : Deployment app} {e : Endpoint app}

theorem Invariant.advances (h : d.Invariant) : d.Advances d :=
  ⟨h, fun _ => .refl _, fun _ seat hseat => ⟨seat, hseat, rfl, rfl⟩⟩

theorem Advances.trans (h : d.Advances d') (h' : d'.Advances d'') : d.Advances d'' := by
  refine ⟨h'.invariant, fun i => (h.extend i).trans (h'.extend i), fun i seat hseat => ?_⟩
  obtain ⟨seat', hseat', hendpoint, hstore⟩ := h.stay i seat hseat
  obtain ⟨seat'', hseat'', hendpoint', hstore'⟩ := h'.stay i seat' hseat'
  exact ⟨seat'', hseat'', hendpoint'.trans hendpoint, hstore'.trans hstore⟩

theorem storeAt_empty (n i : Nat) : (empty n : Deployment app).storeAt i = .empty := by
  unfold storeAt empty
  rw [List.getElem?_replicate]
  split <;> rfl

theorem invariant_empty (n : Nat) : (empty n : Deployment app).Invariant := by
  refine ⟨?_, fun i => ?_, ?_⟩
  · intro seat hseat
    exact absurd hseat List.not_mem_nil
  · rw [storeAt_empty]
    exact SchemaStore.sound_empty
  · intro seat hseat
    exact absurd hseat List.not_mem_nil

/-- An endpoint keeps its invariant while its store grows. -/
theorem Invariant.endpoint_of_grows (h : d.Invariant)
    (hgrows : ∀ i, (d.storeAt i).Grows (d'.storeAt i)) {seat : Seat app} (hseat : seat ∈ d.seats) :
    seat.endpoint.Invariant (d'.stateAt seat) := by
  have hadvances : seat.endpoint.Advances (d.stateAt seat) (d'.stateAt seat) :=
    (h.endpoints seat hseat).advances_of_grows (fun _ hmem => hmem) (hgrows seat.store)
  exact hadvances.invariant

/-! ## Changes of a store and of a seat -/

/-- One store is replaced, if it is there. -/
theorem storeAt_set (d : Deployment app) (i j : Nat) (store : SchemaStore)
    (seats : List (Seat app)) :
    storeAt ⟨d.stores.set i store, seats⟩ j
      = if i = j ∧ i < d.stores.length then store else d.storeAt j := by
  unfold storeAt
  rw [List.getElem?_set]
  by_cases hij : i = j
  · subst hij
    by_cases hi : i < d.stores.length
    · simp [hi]
    · simp [hi]
  · simp [hij]

/-- Where one store grows, all stores do. -/
theorem grows_set {i : Nat} {store : SchemaStore} (hgrows : (d.storeAt i).Grows store)
    (seats : List (Seat app)) (j : Nat) :
    (d.storeAt j).Grows (storeAt ⟨d.stores.set i store, seats⟩ j) := by
  rw [storeAt_set]
  split
  next hij =>
    obtain ⟨rfl, -⟩ := hij
    exact hgrows
  next => exact .refl _

theorem grows_effect (store : SchemaStore) (call : StoreCall) :
    store.Grows (call.effect store) := by
  cases call with
  | register s => exact store.grows_register s
  | registerAs f s =>
    show store.Grows ((store.registerAs f s).toOption.elim store Prod.snd)
    cases hregister : store.registerAs f s with
    | error err => exact .refl store
    | ok found => exact SchemaStore.grows_registerAs hregister
  | resolve f =>
    show store.Grows ((store.resolve f).toOption.elim store Prod.snd)
    cases hresolve : store.resolve f with
    | error err => exact .refl store
    | ok found => exact (SchemaStore.grows_resolve hresolve).1
  | setSource source => exact store.grows_setSource source

/-- A store that is called by others. -/
theorem Invariant.advances_onStore (h : d.Invariant) (i : Nat) (call : StoreCall) :
    d.Advances (d.step (.store i call)) := by
  have hgrows := grows_set (grows_effect (d.storeAt i) call) d.seats
  refine ⟨⟨fun seat hseat => ?_, fun j => (hgrows j).sound (h.sound j), fun seat hseat => ?_⟩,
    fun j => (hgrows j).extend, fun j seat hseat => ⟨seat, hseat, rfl, rfl⟩⟩
  · show seat.store < (d.stores.set i _).length
    rw [List.length_set]
    exact h.stores seat hseat
  · exact h.endpoint_of_grows hgrows hseat

theorem storeAt_keep {i : Nat} {seat : Seat app} (hstore : seat.store < d.stores.length)
    (t : State app) : (d.keep i seat t).storeAt seat.store = t.2.store := by
  unfold keep
  rw [storeAt_set, if_pos ⟨rfl, hstore⟩]

/-- What an endpoint has built up is what it finds at its seat, if its store is there. -/
theorem stateAt_keep {i : Nat} {seat : Seat app} (hstore : seat.store < d.stores.length)
    (t : State app) :
    (d.keep i seat t).stateAt { seat with registry := t.1, announced := t.2.announced } = t := by
  show (t.1, ⟨t.2.announced, (d.keep i seat t).storeAt seat.store⟩) = t
  rw [storeAt_keep hstore]

/-- What an endpoint does at its seat is of no concern to the others, except that their store may
grow. -/
theorem Invariant.advances_keep (h : d.Invariant) {i : Nat} {seat : Seat app} {t : State app}
    (hseat : d.seats[i]? = some seat) (ht : seat.endpoint.Advances (d.stateAt seat) t) :
    d.Advances (d.keep i seat t) := by
  have hmem := List.mem_of_getElem? hseat
  have hgrows : ∀ j, (d.storeAt j).Grows ((d.keep i seat t).storeAt j) :=
    grows_set ⟨ht.extend, fun _ => ht.invariant.sound⟩ _
  -- The seat itself finds what was built up. The others, also those over the same store, find their
  -- own serializers and a store that has grown.
  refine ⟨⟨fun other hother => ?_, fun j => (hgrows j).sound (h.sound j), fun other hother => ?_⟩,
    fun j => (hgrows j).extend, fun j other hother => ?_⟩
  · show other.store < (d.stores.set seat.store t.2.store).length
    rw [List.length_set]
    rcases List.mem_or_eq_of_mem_set hother with hold | rfl
    · exact h.stores other hold
    · exact h.stores seat hmem
  · rcases List.mem_or_eq_of_mem_set hother with hold | rfl
    · exact h.endpoint_of_grows hgrows hold
    · rw [stateAt_keep (h.stores seat hmem)]
      exact ht.invariant
  · show ∃ seat', (d.seats.set i _)[j]? = some seat' ∧ _
    rw [List.getElem?_set]
    by_cases hij : i = j
    · subst hij
      have hi : i < d.seats.length := (List.getElem?_eq_some_iff.mp hseat).1
      rw [hseat] at hother
      cases hother
      simp only [if_true, hi]
      exact ⟨_, rfl, rfl, rfl⟩
    · rw [if_neg hij]
      exact ⟨other, hother, rfl, rfl⟩

/-! ## Endpoints that join -/

/-- A further store that is empty cannot be told from one that is not there. -/
theorem storeAt_append_empty (d : Deployment app) (seats : List (Seat app)) (j : Nat) :
    storeAt ⟨d.stores ++ [.empty], seats⟩ j = d.storeAt j := by
  unfold storeAt
  rcases Nat.lt_trichotomy j d.stores.length with hj | rfl | hj
  · rw [List.getElem?_append_left hj]
  · simp
  · rw [List.getElem?_eq_none (Nat.le_of_lt hj), List.getElem?_eq_none]
    rw [List.length_append]
    exact hj

/-- An endpoint joins over a store that is there. -/
theorem Invariant.advances_join (h : d.Invariant) {k : Nat} {stores : List SchemaStore}
    (hlength : d.stores.length ≤ stores.length) (hk : k < stores.length)
    (hstores : ∀ (seats : List (Seat app)) j, storeAt ⟨stores, seats⟩ j = d.storeAt j) :
    d.Advances ⟨stores, d.seats ++ [⟨e, .empty, [], k⟩]⟩ := by
  have hgrows : ∀ (seats : List (Seat app)) j,
      (d.storeAt j).Grows (storeAt ⟨stores, seats⟩ j) := by
    intro seats j
    rw [hstores]
    exact .refl _
  refine ⟨⟨fun seat hseat => ?_, fun j => ?_, fun seat hseat => ?_⟩, fun j => (hgrows _ j).extend,
    fun i seat hseat => ⟨seat, ?_, rfl, rfl⟩⟩
  -- Those who were there keep their store; the newcomer has the given one.
  · rcases List.mem_append.mp hseat with hold | hnew
    · exact Nat.lt_of_lt_of_le (h.stores seat hold) hlength
    · rw [List.mem_singleton.mp hnew]
      exact hk
  · rw [hstores]
    exact h.sound j
  · rcases List.mem_append.mp hseat with hold | hnew
    · exact h.endpoint_of_grows (hgrows _) hold
    · rw [List.mem_singleton.mp hnew]
      refine e.invariant_of_sound ?_
      rw [hstores]
      exact h.sound k
  · exact List.getElem?_append_left (List.getElem?_eq_some_iff.mp hseat).1 ▸ hseat

/-! ## One event and many -/

/-- One event keeps the invariant, whichever endpoint or store it is about. -/
theorem Invariant.advances_step (h : d.Invariant) (event : Event app) :
    d.Advances (d.step event) := by
  cases event with
  | join e store =>
    simp only [step]
    split
    next hstore =>
      cases store with
      | some k => exact h.advances_join (Nat.le_refl _) (hstore k rfl) fun _ _ => rfl
      | none =>
        -- Without a store to share the newcomer gets an empty one, behind all others.
        have hlength : d.stores.length < (d.stores ++ [SchemaStore.empty]).length := by
          rw [List.length_append]
          exact Nat.lt_succ_self _
        exact h.advances_join (Nat.le_of_lt hlength) hlength d.storeAt_append_empty
    next => exact h.advances
  | call i call =>
    -- Nothing changes but the seat that is called and its store.
    simp only [step]
    cases hseat : d.seats[i]? with
    | none => exact h.advances
    | some seat =>
      have hendpoint := h.endpoints seat (List.mem_of_getElem? hseat)
      exact h.advances_keep hseat (Endpoint.advances_step hendpoint call)
  | store i call => exact h.advances_onStore i call

/-- Any events keep the invariant. -/
theorem Invariant.advances_play (h : d.Invariant) (events : List (Event app)) :
    d.Advances (d.play events) := by
  induction events generalizing d with
  | nil => exact h.advances
  | cons event rest ih =>
    have hstep := h.advances_step event
    exact hstep.trans (ih hstep.invariant)

/-- The invariant holds in every deployment that events lead to. -/
theorem Reachable.invariant (h : d.Reachable) : d.Invariant := by
  obtain ⟨n, events, rfl⟩ := h
  exact ((invariant_empty n).advances_play events).invariant

/-! ## Results last -/

/-- **Results last.** What an endpoint makes of a message in a deployment that events lead to, be it
an object or a failure, it makes of the message again after any further events: calls of any
endpoints, over the same store or over others, their disposal, calls of the stores and changes of
the sources. The one exception is a message whose schema was unknown. -/
theorem Reachable.decode_lasts (h : d.Reachable) {i : Nat} {seat : Seat app}
    (hseat : d.seats[i]? = some seat) {message : List UInt8}
    {outcome : Except ExchangeError (Endpoint.Decoded app)}
    (hrun : d.run i seat (·.decode message) = (outcome, d'))
    (hknown : ∀ f, outcome ≠ .error (.unknownSchema f)) (events : List (Event app)) :
    ∃ later, (d'.play events).seats[i]? = some later ∧ later.endpoint = seat.endpoint ∧
      ((d'.play events).run i later (·.decode message)).1 = outcome := by
  rw [run_eq] at hrun
  obtain ⟨rfl, rfl⟩ := Prod.mk.inj hrun
  have hmem := List.mem_of_getElem? hseat
  have hseats := h.invariant.endpoints seat hmem
  have hdecode := Endpoint.advances_step hseats (.decode message)
  -- The first decoding is a step as well, and its store is the one that further events start from.
  have hfirst := h.invariant.advances_keep hseat hdecode
  have hplay := hfirst.invariant.advances_play events
  obtain ⟨next, hnext, hendpoint, hstore⟩ := hfirst.stay i seat hseat
  obtain ⟨later, hlater, hendpoint', hstore'⟩ := hplay.stay i next hnext
  refine ⟨later, hlater, hendpoint'.trans hendpoint, ?_⟩
  have hlaters := hplay.invariant.endpoints later (List.mem_of_getElem? hlater)
  rw [hendpoint'.trans hendpoint] at hlaters
  rw [run_eq, hendpoint'.trans hendpoint]
  refine hseats.decode_again hlaters hknown ?_
  have hextend := hplay.extend seat.store
  rw [storeAt_keep (h.invariant.stores seat hmem)] at hextend
  unfold stateAt
  rw [hstore', hstore]
  exact hextend

end Deployment

/-- Two endpoints over one store, whose source knows plain coins. -/
def mints : Deployment mint :=
  (Deployment.empty 1).play
    [.join mintEndpoint (some 0), .join mintEndpoint (some 0),
      .store 0 (.setSource fun _ => some plainCoin)]

/-- What happens to them: the source knows nothing any more, one endpoint is sent what is no
message, the other one is disposed, and the store is asked for what nobody has. -/
def upheaval : List (Event mint) :=
  [.store 0 (.setSource fun _ => none), .call 0 (.decode [0xc3]), .call 1 .dispose,
    .store 0 (.resolve ⟨0⟩)]

theorem decode_lasts_coin :
    ∃ d' later, mints.run 1 ⟨mintEndpoint, .empty, [], 0⟩ (·.decode (coinMessage [0, 6]))
        = (.ok ⟨(), ⟨"Coin", [("value", .int 3), ("note", .string "none")]⟩,
            plainCoin.fingerprint⟩, d') ∧
      (d'.play upheaval).seats[1]? = some later ∧
      ((d'.play upheaval).run 1 later (·.decode (coinMessage [0, 6]))).1
        = .ok ⟨(), ⟨"Coin", [("value", .int 3), ("note", .string "none")]⟩,
            plainCoin.fingerprint⟩ := by
  have hreach : mints.Reachable := ⟨1, _, rfl⟩
  have hseat : mints.seats[1]? = some ⟨mintEndpoint, .empty, [], 0⟩ := rfl
  have hstate : mints.stateAt ⟨mintEndpoint, .empty, [], 0⟩ = (.empty, ⟨[], mintStore⟩) := rfl
  have hinvariant := hreach.invariant.endpoints _ (List.mem_of_getElem? hseat)
  have hresult := (Endpoint.answers_decode hinvariant (coinMessage [0, 6])).result_eq
  rw [hstate] at hresult
  have hrun := mints.run_eq 1 ⟨mintEndpoint, .empty, [], 0⟩ (·.decode (coinMessage [0, 6]))
  rw [hstate, hresult, outcome_coinMessage] at hrun
  obtain ⟨later, hlater, -, hagain⟩ :=
    hreach.decode_lasts hseat hrun (fun _ hunknown => by cases hunknown) upheaval
  exact ⟨_, later, hrun, hlater, hagain⟩

end RecordExchange
