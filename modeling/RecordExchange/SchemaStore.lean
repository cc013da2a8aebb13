import RecordExchange.Schema.Text

/-!
# Stores of schemas

A store keeps canonical schemas under their fingerprints. What is in a store stays there: a second
schema under the same fingerprint is not put in. Fingerprints that the store does not know may be
asked of a source outside, and what the source answers is kept.

- `SchemaStore`: the entries and the source.
- `SchemaStore.register`, `SchemaStore.registerAs`: putting a schema in.
- `SchemaStore.resolve`: finding a schema, in the store or from the source.
-/

namespace RecordExchange

/-- A source of schemas outside the store. -/
abbrev SchemaSource := Fingerprint → Option Schema

/-- Schemas by fingerprint, and a source for the others. -/
structure SchemaStore where
  entries : List (Fingerprint × Schema)
  source : Option SchemaSource

namespace SchemaStore

def empty : SchemaStore := ⟨[], none⟩

instance : Inhabited SchemaStore := ⟨empty⟩

def get? (store : SchemaStore) (f : Fingerprint) : Option Schema :=
  store.entries.lookup f

def contains (store : SchemaStore) (f : Fingerprint) : Bool :=
  (store.get? f).isSome

def size (store : SchemaStore) : Nat := store.entries.length

/-- Puts a schema in unless one is kept under the fingerprint already. The answer is the schema
that is kept afterwards. -/
def install (store : SchemaStore) (f : Fingerprint) (s : Schema) : Schema × SchemaStore :=
  match store.get? f with
  | some kept => (kept, store)
  | none => (s, { store with entries := store.entries ++ [(f, s)] })

/-- Puts the canonical schema in under its own fingerprint. -/
def register (store : SchemaStore) (s : Schema) : (Fingerprint × Schema) × SchemaStore :=
  let f := s.fingerprint
  let (kept, store) := store.install f s.canonical
  ((f, kept), store)

/-- Puts the canonical schema in under a fingerprint that must be its own. -/
def registerAs (store : SchemaStore) (f : Fingerprint) (s : Schema) :
    Except SchemaError (Schema × SchemaStore) :=
  if s.fingerprint = f then .ok (store.install f s.canonical)
  else .error (.fingerprintMismatch f s.fingerprint)

def setSource (store : SchemaStore) (source : SchemaSource) : SchemaStore :=
  { store with source := some source }

/-- The schema of a fingerprint: the one that is kept, or else the answer of the source, which is
kept from then on. An answer with another fingerprint counts as none. -/
def resolve (store : SchemaStore) (f : Fingerprint) :
    Except SchemaError (Schema × SchemaStore) :=
  match store.get? f with
  | some kept => .ok (kept, store)
  | none =>
    match store.source.bind fun source => source f with
    | none => .error (.unknownSchema f)
    | some s =>
      if s.fingerprint = f then .ok (store.install f s.canonical)
      else .error (.unknownSchema f)

/-- The source that answers from a list of schemas, the first of a fingerprint counting. -/
def sourceOf (entries : List (Fingerprint × Schema)) : SchemaSource :=
  fun f => entries.lookup f

end SchemaStore

end RecordExchange
