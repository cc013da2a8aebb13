/-!
# Registries of serializers

A registry keeps what is costly to make, under type names. The first that is kept under a name
stays until the registry is cleared. While one is being made the registry is open to others, also
to the maker itself, so that another may be kept under the name in the meantime: then that one wins
and the new one is discarded.

- `Cached`: something with the number of its making, which tells two of the same content apart.
- `Registry`, `Registry.get?`, `Registry.install`, `Registry.clear`.
- `Registry.getOrSynthesize`: what is kept under a name, made on the first request.
-/

namespace RecordExchange

variable {σ τ ε : Type}

/-- What a registry has made, and how many it had made before. -/
structure Cached (σ : Type) where
  content : σ
  serial : Nat

/-- What is kept under names, and how many have been made, discarded ones included. -/
structure Registry (σ : Type) where
  entries : List (String × Cached σ)
  synthesized : Nat

namespace Registry

def empty : Registry σ := ⟨[], 0⟩

instance : Inhabited (Registry σ) := ⟨empty⟩

def get? (r : Registry σ) (name : String) : Option (Cached σ) :=
  r.entries.lookup name

def contains (r : Registry σ) (name : String) : Bool :=
  (r.get? name).isSome

def size (r : Registry σ) : Nat := r.entries.length

/-- Counts something as made and keeps it unless the name is taken. The answer is what is kept
afterwards. -/
def install (r : Registry σ) (name : String) (content : σ) : Cached σ × Registry σ :=
  let candidate : Cached σ := ⟨content, r.synthesized⟩
  match r.get? name with
  | some kept => (kept, { r with synthesized := r.synthesized + 1 })
  | none => (candidate, ⟨r.entries ++ [(name, candidate)], r.synthesized + 1⟩)

/-- Forgets what is kept, not how many have been made. -/
def clear (r : Registry σ) : Registry σ := { r with entries := [] }

/-- What is kept under a name. If nothing is, `synthesize` makes it; it may use the registry and
change a further state `τ`, and what it leaves behind stays also when it fails. -/
def getOrSynthesize (name : String) (synthesize : EStateM ε (Registry σ × τ) σ) :
    EStateM ε (Registry σ × τ) (Cached σ) := do
  match (← get).1.get? name with
  | some kept => return kept
  | none =>
    let content ← synthesize
    -- The name is looked up again, for the maker may have filled its place.
    modifyGet fun (r, others) =>
      let (kept, r) := r.install name content
      (kept, (r, others))

/-- What was installed under a name is found there, whoever won. -/
theorem get?_install (r : Registry σ) (name : String) (content : σ) :
    (r.install name content).2.get? name = some (r.install name content).1 := by
  unfold install
  cases h : r.get? name with
  | some kept => simpa [get?] using h
  | none =>
    have hn : List.lookup name r.entries = none := h
    simp [get?, List.lookup_append, hn]

end Registry

end RecordExchange
