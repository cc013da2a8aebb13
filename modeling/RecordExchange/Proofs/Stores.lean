import RecordExchange.Proofs.CanonicalText
import RecordExchange.SchemaStore

/-!
# What a store keeps

Every operation on a store leaves it as it is or adds one canonical schema under its own
fingerprint, where there was none. So a store never gives up what it has, and what it has is what
it says.

- `SchemaStore.Extends`: a store that still has everything another one had.
- `SchemaStore.Sound`: canonical schemas, each under its own fingerprint.
- `SchemaStore.Grows`: what an operation may do to a store.
- `SchemaStore.grows_register`, `SchemaStore.grows_registerAs`, `SchemaStore.grows_resolve`.
-/

namespace RecordExchange

/-- A schema and its canonical schema have one text. -/
theorem Schema.canonicalText_canonical (s : Schema) :
    s.canonical.canonicalText = s.canonicalText :=
  (Schema.canonicalText_eq_iff_canonical_eq _ _).mpr s.canonical_canonical

theorem Schema.fingerprint_canonical (s : Schema) : s.canonical.fingerprint = s.fingerprint := by
  rw [Schema.fingerprint, Schema.fingerprint, s.canonicalText_canonical]

namespace SchemaStore

/-- A store has, under each fingerprint, what another store had under it. -/
def Extends (before after : SchemaStore) : Prop :=
  ∀ f kept, before.get? f = some kept → after.get? f = some kept

theorem Extends.refl (store : SchemaStore) : store.Extends store :=
  fun _ _ h => h

theorem Extends.trans {a b c : SchemaStore} (hab : a.Extends b) (hbc : b.Extends c) :
    a.Extends c :=
  fun f kept h => hbc f kept (hab f kept h)

theorem Extends.contains {a b : SchemaStore} (h : a.Extends b) {f : Fingerprint}
    (hf : a.contains f = true) : b.contains f = true := by
  obtain ⟨kept, hkept⟩ := Option.isSome_iff_exists.mp hf
  exact Option.isSome_iff_exists.mpr ⟨kept, h f kept hkept⟩

/-- What a store has are canonical schemas under their own fingerprints. -/
def Sound (store : SchemaStore) : Prop :=
  ∀ f kept, (f, kept) ∈ store.entries → kept.fingerprint = f ∧ kept.canonical = kept

theorem sound_empty : empty.Sound :=
  fun _ _ h => absurd h List.not_mem_nil

theorem mem_entries_of_get? {store : SchemaStore} {f : Fingerprint} {kept : Schema}
    (h : store.get? f = some kept) : (f, kept) ∈ store.entries := by
  obtain ⟨before, after, hentries, -⟩ := List.lookup_eq_some_iff.mp h
  rw [hentries]
  exact List.mem_append_right before List.mem_cons_self

/-- What an operation may do to a store: keep what it has, and keep it sound. -/
structure Grows (before after : SchemaStore) : Prop where
  extend : before.Extends after
  sound : before.Sound → after.Sound

theorem Grows.refl (store : SchemaStore) : store.Grows store :=
  ⟨.refl store, id⟩

theorem Grows.trans {a b c : SchemaStore} (hab : a.Grows b) (hbc : b.Grows c) : a.Grows c :=
  ⟨hab.extend.trans hbc.extend, hbc.sound ∘ hab.sound⟩

/-- What was put in under a fingerprint is found there, whether it was put in first or not. -/
theorem get?_install_self (store : SchemaStore) (f : Fingerprint) (s : Schema) :
    (store.install f s).2.get? f = some (store.install f s).1 := by
  unfold install
  cases h : store.get? f with
  | some kept => exact h
  | none =>
    have hnone : store.entries.lookup f = none := h
    simp [get?, List.lookup_append, hnone]

/-- Putting a schema in under its own fingerprint is what stores may do. -/
theorem grows_install (store : SchemaStore) (s : Schema) :
    store.Grows (store.install s.fingerprint s.canonical).2 := by
  unfold install
  cases h : store.get? s.fingerprint with
  | some kept => exact .refl store
  | none =>
    refine ⟨fun f kept hkept => ?_, fun hsound f kept hmem => ?_⟩
    · have hlookup : store.entries.lookup f = some kept := hkept
      simp [get?, List.lookup_append, hlookup]
    · rcases List.mem_append.mp hmem with hmem | hmem
      · exact hsound f kept hmem
      · obtain ⟨rfl, rfl⟩ := Prod.mk.inj (List.mem_singleton.mp hmem)
        exact ⟨s.fingerprint_canonical, s.canonical_canonical⟩

theorem grows_register (store : SchemaStore) (s : Schema) :
    store.Grows (store.register s).2 :=
  store.grows_install s

theorem contains_register (store : SchemaStore) (s : Schema) :
    (store.register s).2.contains s.fingerprint = true :=
  Option.isSome_iff_exists.mpr ⟨_, store.get?_install_self s.fingerprint s.canonical⟩

theorem grows_registerAs {store after : SchemaStore} {f : Fingerprint} {s kept : Schema}
    (h : store.registerAs f s = .ok (kept, after)) : store.Grows after := by
  unfold registerAs at h
  split at h
  next hf =>
    subst hf
    have hgrows := store.grows_install s
    rw [Except.ok.inj h] at hgrows
    exact hgrows
  next => cases h

/-- What was put in under its own fingerprint is found there. -/
theorem get?_of_registerAs {store after : SchemaStore} {f : Fingerprint} {s kept : Schema}
    (h : store.registerAs f s = .ok (kept, after)) : after.get? f = some kept := by
  unfold registerAs at h
  split at h
  next =>
    have hinstall := store.get?_install_self f s.canonical
    rw [Except.ok.inj h] at hinstall
    exact hinstall
  next => cases h

/-- A schema that is found is kept from then on, under the fingerprint that was asked for. -/
theorem grows_resolve {store after : SchemaStore} {f : Fingerprint} {kept : Schema}
    (h : store.resolve f = .ok (kept, after)) :
    store.Grows after ∧ after.get? f = some kept := by
  unfold resolve at h
  split at h
  next found hfound =>
    cases h
    exact ⟨.refl store, hfound⟩
  next =>
    split at h
    next => cases h
    next s _ =>
      split at h
      next hf =>
        subst hf
        -- What the source gave is installed under its own fingerprint.
        have hinstall := store.get?_install_self s.fingerprint s.canonical
        rw [Except.ok.inj h] at hinstall
        have hgrows := store.grows_install s
        rw [Except.ok.inj h] at hgrows
        exact ⟨hgrows, hinstall⟩
      next => cases h

/-- A schema is found or unknown: there is no other failure. -/
theorem eq_unknownSchema_of_resolve {store : SchemaStore} {f : Fingerprint} {err : SchemaError}
    (h : store.resolve f = .error err) : err = .unknownSchema f := by
  unfold resolve at h
  split at h
  next => cases h
  next =>
    split at h
    next => cases h; rfl
    next s _ =>
      split at h <;> cases h
      rfl

/-- What is kept under a fingerprint is found without a source. -/
theorem resolve_of_get? {store : SchemaStore} {f : Fingerprint} {kept : Schema}
    (h : store.get? f = some kept) : store.resolve f = .ok (kept, store) := by
  rw [resolve, h]

/-- What is not kept is what the source answers, which is put in. -/
theorem resolve_of_source {store : SchemaStore} {s : Schema}
    (hnone : store.get? s.fingerprint = none)
    (hsource : store.source.bind (fun source => source s.fingerprint) = some s) :
    store.resolve s.fingerprint = .ok (s.canonical, (store.register s).2) := by
  unfold resolve
  rw [hnone, hsource]
  simp only [if_true, register, install, hnone]

theorem grows_setSource (store : SchemaStore) (source : SchemaSource) :
    store.Grows (store.setSource source) :=
  ⟨fun _ _ h => h, id⟩

end SchemaStore

end RecordExchange
