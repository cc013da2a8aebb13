import RecordExchange.Endpoint.Basic

/-!
# Deployments

Several endpoints at work, each with what it has built up, over stores that some of them share.

- `Seat`: an endpoint with what it has built up, and the number of its store.
- `Deployment`, `Deployment.empty`, `Deployment.addEndpoint`.
- `Deployment.run`: what one endpoint does, as it changes the deployment.
- `Deployment.onStore`: a change of one store.
-/

namespace RecordExchange

/-- An endpoint at work. -/
structure Seat (app : Application) where
  endpoint : Endpoint app
  registry : Registry (Binding app)
  announced : List Fingerprint
  /-- The number of its store in the deployment. -/
  store : Nat

/-- Endpoints and the stores they work with. -/
structure Deployment (app : Application) where
  stores : List SchemaStore
  seats : List (Seat app)

namespace Deployment

variable {app : Application} {α : Type}

def empty (stores : Nat) : Deployment app := ⟨List.replicate stores .empty, []⟩

def storeAt (d : Deployment app) (i : Nat) : SchemaStore := (d.stores[i]?).getD .empty

/-- Adds an endpoint that has built up nothing, over a store of the deployment or over one of its
own. -/
def addEndpoint (d : Deployment app) (e : Endpoint app) (store : Option Nat) : Deployment app :=
  match store with
  | some i => { d with seats := d.seats ++ [⟨e, .empty, [], i⟩] }
  | none => ⟨d.stores ++ [.empty], d.seats ++ [⟨e, .empty, [], d.stores.length⟩]⟩

def onStore (d : Deployment app) (i : Nat) (f : SchemaStore → α × SchemaStore) :
    α × Deployment app :=
  let (a, store) := f (d.storeAt i)
  (a, { d with stores := d.stores.set i store })

/-- The deployment after the endpoint at a seat has changed what it has built up. -/
def keep (d : Deployment app) (i : Nat) (seat : Seat app)
    (state : Registry (Binding app) × Holdings) : Deployment app :=
  { stores := d.stores.set seat.store state.2.store
    seats := d.seats.set i
      { seat with registry := state.1, announced := state.2.announced } }

/-- Runs what the endpoint at a seat does. What it has built up is kept, also when it fails. -/
def run (d : Deployment app) (i : Nat) (seat : Seat app) (act : Endpoint app → Exchange app α) :
    Except ExchangeError α × Deployment app :=
  match (act seat.endpoint).run (seat.registry, ⟨seat.announced, d.storeAt seat.store⟩) with
  | .ok a state => (.ok a, d.keep i seat state)
  | .error e state => (.error e, d.keep i seat state)

end Deployment

end RecordExchange
