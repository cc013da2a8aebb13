import RecordExchange.Endpoint.Registry

/-!
# One winner for each name

What is made for a registry is made while the registry is open, and the maker may use it like anyone
else: ask for things under the same name or under others, for which things are made in turn, and
clear it. When the maker is done, what it found out about the registry in the beginning need not be
true any more. Still there is one winner for each name: it stays until the registry is cleared, and
everybody who asks in the meantime gets it.

- `Registry.run_getOrSynthesize_of_some`, `Registry.run_getOrSynthesize_of_error`,
  `Registry.run_getOrSynthesize_of_ok`: the three ends of a request.
- `Registry.Client`, `Registry.Client.act`: what may be done with a registry, nested to any depth,
  and how it is done.
- `Registry.Event`: what is seen of it, in the order of time.
- `Registry.Consistent`: how a registry depends on what has been seen.
- `Registry.Client.keeps_act`: clients keep this up, whatever they do.
- `Registry.one_winner`: one request, and all requests of a client.
-/

namespace RecordExchange

namespace Registry

variable {σ τ ε α β : Type}

/-! ## Installing -/

theorem install_of_some {r : Registry σ} {name : String} {kept : Cached σ}
    (h : r.get? name = some kept) (content : σ) :
    r.install name content = (kept, { r with synthesized := r.synthesized + 1 }) := by
  rw [install, h]

theorem install_of_none {r : Registry σ} {name : String} (h : r.get? name = none) (content : σ) :
    r.install name content = (⟨content, r.synthesized⟩,
      ⟨r.entries ++ [(name, ⟨content, r.synthesized⟩)], r.synthesized + 1⟩) := by
  rw [install, h]

@[simp] theorem synthesized_install (r : Registry σ) (name : String) (content : σ) :
    (r.install name content).2.synthesized = r.synthesized + 1 := by
  rw [install]
  split <;> rfl

/-- Something is kept under one more name at most. -/
theorem size_install_le (r : Registry σ) (name : String) (content : σ) :
    (r.install name content).2.size ≤ r.size + 1 := by
  rw [install]
  split
  · exact Nat.le_succ _
  · exact Nat.le_of_eq List.length_append

/-- What is kept after an installation was kept before, or is what has been installed. -/
theorem get?_of_get?_install {r : Registry σ} {name other : String} {content : σ} {kept : Cached σ}
    (h : (r.install name content).2.get? other = some kept) :
    r.get? other = some kept ∨ other = name ∧ kept = ⟨content, r.synthesized⟩ := by
  cases hname : r.get? name with
  | some left =>
    rw [install_of_some hname] at h
    exact .inl h
  | none =>
    rw [install_of_none hname, get?, List.lookup_append] at h
    rcases Option.or_eq_some_iff.mp h with hbefore | ⟨-, hnew⟩
    · exact .inl hbefore
    · rw [List.lookup_cons] at hnew
      split at hnew
      next same =>
        cases hnew
        exact .inr ⟨eq_of_beq same, rfl⟩
      next => cases hnew

/-- What is kept stays when something else is installed, under whatever name. -/
theorem get?_install_of_some {r : Registry σ} {other : String} {kept : Cached σ}
    (h : r.get? other = some kept) (name : String) (content : σ) :
    (r.install name content).2.get? other = some kept := by
  cases hname : r.get? name with
  | some left =>
    rw [install_of_some hname]
    exact h
  | none =>
    have hbefore : r.entries.lookup other = some kept := h
    rw [install_of_none hname, get?, List.lookup_append, hbefore, Option.some_or]

/-! ## One request -/

section Requests

variable {r : Registry σ} {others : τ} {name : String} {make : EStateM ε (Registry σ × τ) σ}

/-- What is there is the answer. Nothing is made and nothing changes. -/
theorem run_getOrSynthesize_of_some {kept : Cached σ} (h : r.get? name = some kept) :
    (getOrSynthesize name make).run (r, others) = .ok kept (r, others) := by
  rw [getOrSynthesize, EStateM.run_bind, EStateM.run_get]
  simp only [h]
  rfl

/-- Where the maker fails the request does, and leaves what the maker left. -/
theorem run_getOrSynthesize_of_error (h : r.get? name = none) {e : ε} {s : Registry σ × τ}
    (hmake : make.run (r, others) = .error e s) :
    (getOrSynthesize name make).run (r, others) = .error e s := by
  rw [getOrSynthesize, EStateM.run_bind, EStateM.run_get]
  simp only [h]
  rw [EStateM.run_bind, hmake]

/-- What was made is installed in the registry that the maker left. -/
theorem run_getOrSynthesize_of_ok (h : r.get? name = none) {content : σ} {s : Registry σ × τ}
    (hmake : make.run (r, others) = .ok content s) :
    (getOrSynthesize name make).run (r, others)
      = .ok (s.1.install name content).1 ((s.1.install name content).2, s.2) := by
  rw [getOrSynthesize, EStateM.run_bind, EStateM.run_get]
  simp only [h]
  rw [EStateM.run_bind, hmake]
  rfl

end Requests

/-! ## Clients -/

/-- What can be done with a registry: looking at it, asking it for what is kept under a name, and
clearing it, one after another, where each step may depend on what was seen before. What is made for
a request is made by a client again. In the end there is a content or a failure. -/
inductive Client (σ ε : Type) where
  | returns (content : σ)
  | fails (e : ε)
  | look (next : Registry σ → Client σ ε)
  | request (name : String) (maker : Client σ ε) (next : Except ε (Cached σ) → Client σ ε)
  | clear (next : Client σ ε)

/-- What is seen of the use of a registry. -/
inductive Event (σ : Type) where
  | looked (r : Registry σ)
  /-- The maker for a request has returned something. -/
  | made (name : String) (content : σ)
  /-- A request has been answered. -/
  | answered (name : String) (kept : Cached σ)
  | cleared

/-- What is done with a registry, while it is written down what happens. -/
abbrev Session (σ ε : Type) := EStateM ε (Registry σ × List (Event σ))

namespace Session

/-- Writes an event down. -/
def record (event : Event σ) : Session σ ε Unit :=
  modify fun (r, history) => (r, history ++ [event])

/-- Goes on after a failure. -/
def attempt (x : Session σ ε α) : Session σ ε (Except ε α) := fun s =>
  match x.run s with
  | .ok a t => .ok (.ok a) t
  | .error e t => .ok (.error e) t

/-- A request, with what its maker returns and with its answer written down. -/
def request (name : String) (make : Session σ ε σ) : Session σ ε (Cached σ) := do
  let kept ← getOrSynthesize name do
    let content ← make
    record (.made name content)
    return content
  record (.answered name kept)
  return kept

/-- The registry and what has happened, after a session that may have failed. -/
def leaves (x : Session σ ε α) (s : Registry σ × List (Event σ)) : Registry σ × List (Event σ) :=
  match x.run s with
  | .ok _ t => t
  | .error _ t => t

end Session

/-- What a client does. -/
def Client.act : Client σ ε → Session σ ε σ
  | .returns content => return content
  | .fails e => throw e
  | .look next => do
    let (r, _) ← get
    Session.record (.looked r)
    (next r).act
  | .request name maker next => do
    let answer ← Session.attempt (Session.request name maker.act)
    (next answer).act
  | .clear next => do
    modify fun (r, history) => (r.clear, history ++ [.cleared])
    next.act

/-- What a client leaves of a new registry, and what has happened. -/
def Client.leaves (c : Client σ ε) : Registry σ × List (Event σ) :=
  Session.leaves c.act (.empty, [])

/-! ## The history of a registry -/

/-- What makers have returned, and the names it was made for. -/
def makings (history : List (Event σ)) : List (String × σ) :=
  history.filterMap fun
    | .made name content => some (name, content)
    | _ => none

/-- The state of a registry goes with what has happened. Everything that was made has been counted;
what is kept or was an answer is one of these things, and its serial number says which. What was
answered since the registry was last cleared is still kept, and requests for one name that were
answered without a clearing between them were answered alike. -/
structure Consistent (r : Registry σ) (history : List (Event σ)) : Prop where
  counted : r.synthesized = (makings history).length
  size_le : r.size ≤ r.synthesized
  looked {before : List (Event σ)} {seen : Registry σ} : before ++ [.looked seen] <+: history →
    seen.synthesized = (makings before).length ∧ seen.size ≤ seen.synthesized
  kept {name : String} {kept : Cached σ} : r.get? name = some kept →
    (makings history)[kept.serial]? = some (name, kept.content)
  answered {name : String} {kept : Cached σ} : .answered name kept ∈ history →
    (makings history)[kept.serial]? = some (name, kept.content)
  stays {span : List (Event σ)} {name : String} {kept : Cached σ} : span <:+ history →
    .cleared ∉ span → .answered name kept ∈ span → r.get? name = some kept
  alike {span : List (Event σ)} {name : String} {a b : Cached σ} : span <:+: history →
    .cleared ∉ span → .answered name a ∈ span → .answered name b ∈ span → a = b

variable {r : Registry σ} {history : List (Event σ)}

theorem consistent_empty : Consistent (empty : Registry σ) [] where
  counted := rfl
  size_le := Nat.le_refl 0
  looked h := absurd (List.prefix_nil.mp h) (by simp)
  kept h := by cases h
  answered h := absurd h List.not_mem_nil
  stays hspan _ h := absurd (List.suffix_nil.mp hspan ▸ h) List.not_mem_nil
  alike hspan _ h _ := absurd (List.infix_nil.mp hspan ▸ h) List.not_mem_nil

theorem makings_append (history more : List (Event σ)) :
    makings (history ++ more) = makings history ++ makings more :=
  List.filterMap_append

/-- What was made has its place in the longer history too. -/
theorem getElem?_makings_append {i : Nat} {m : String × σ} (h : (makings history)[i]? = some m)
    (more : List (Event σ)) : (makings (history ++ more))[i]? = some m := by
  rw [makings_append, List.getElem?_append_left (List.getElem?_eq_some_iff.mp h).1]
  exact h

/-- **One event.** A registry still goes with what has happened after one more event, if the event
has been counted, was answered with what is kept, and has taken nothing away unless it was a
clearing. -/
theorem Consistent.append (h : Consistent r history) {after : Registry σ} {event : Event σ}
    (hcounted : after.synthesized = r.synthesized + (makings [event]).length)
    (hsize : after.size ≤ after.synthesized)
    (hlooked : ∀ seen, event = .looked seen → seen = r)
    (hkept : ∀ name kept, after.get? name = some kept → r.get? name = some kept ∨
      (makings (history ++ [event]))[kept.serial]? = some (name, kept.content))
    (hanswered : ∀ name kept, event = .answered name kept → after.get? name = some kept)
    (hstays : event ≠ .cleared → ∀ name kept,
      r.get? name = some kept → after.get? name = some kept) :
    Consistent after (history ++ [event]) := by
  have hmade : ∀ {name kept}, after.get? name = some kept →
      (makings (history ++ [event]))[kept.serial]? = some (name, kept.content) := fun hget =>
    (hkept _ _ hget).elim (fun hbefore => getElem?_makings_append (h.kept hbefore) _) id
  have hstays' : ∀ {span name kept}, span <:+ history ++ [event] → .cleared ∉ span →
      .answered name kept ∈ span → after.get? name = some kept := by
    intro span name kept hspan hcleared hmem
    rcases List.suffix_concat_iff.mp hspan with rfl | ⟨before, rfl, hbefore⟩
    · exact absurd hmem List.not_mem_nil
    · rw [List.mem_append, List.mem_singleton, not_or] at hcleared
      rcases List.mem_append.mp hmem with hmem | hmem
      · exact hstays (Ne.symm hcleared.2) _ _ (h.stays hbefore hcleared.1 hmem)
      · exact hanswered _ _ (List.mem_singleton.mp hmem).symm
  constructor
  case counted => rw [hcounted, h.counted, makings_append, List.length_append]
  case size_le => exact hsize
  case looked =>
    intro before seen hprefix
    rcases List.prefix_concat_iff.mp hprefix with heq | hbefore
    · obtain ⟨rfl, hlast⟩ := List.append_inj' heq rfl
      obtain rfl := hlooked seen (List.cons.inj hlast).1.symm
      exact ⟨h.counted, h.size_le⟩
    · exact h.looked hbefore
  case kept => exact hmade
  case answered =>
    intro name kept hmem
    rcases List.mem_append.mp hmem with hmem | hmem
    · exact getElem?_makings_append (h.answered hmem) _
    · exact hmade (hanswered _ _ (List.mem_singleton.mp hmem).symm)
  case stays => exact hstays'
  case alike =>
    intro span name a b hspan hcleared ha hb
    -- A span that goes on to the end has only answers that are kept now.
    rcases List.infix_concat_iff.mp hspan with hend | hbefore
    · have hkept := hstays' hend hcleared ha
      rw [hstays' hend hcleared hb] at hkept
      exact (Option.some.inj hkept).symm
    · exact h.alike hbefore hcleared ha hb

theorem Consistent.look (h : Consistent r history) : Consistent r (history ++ [.looked r]) :=
  h.append rfl h.size_le (fun _ heq => by cases heq; rfl) (fun _ _ => .inl) nofun fun _ _ _ => id

theorem Consistent.clear (h : Consistent r history) :
    Consistent r.clear (history ++ [.cleared]) :=
  h.append rfl (Nat.zero_le _) nofun nofun nofun fun hne => absurd rfl hne

/-- What is kept may be an answer. -/
theorem Consistent.answer (h : Consistent r history) {name : String} {kept : Cached σ}
    (hkept : r.get? name = some kept) : Consistent r (history ++ [.answered name kept]) :=
  h.append rfl h.size_le nofun (fun _ _ => .inl) (fun _ _ heq => by cases heq; exact hkept)
    fun _ _ _ => id

/-- What a maker has returned is installed. -/
theorem Consistent.install (h : Consistent r history) (name : String) (content : σ) :
    Consistent (r.install name content).2 (history ++ [.made name content]) := by
  refine h.append (r.synthesized_install name content) ?_ nofun ?_ nofun ?_
  · rw [synthesized_install]
    exact Nat.le_trans (r.size_install_le name content) (Nat.succ_le_succ h.size_le)
  · intro other kept hkept
    refine (get?_of_get?_install hkept).imp_right ?_
    rintro ⟨rfl, rfl⟩
    -- The serial number of what is new is how many had been made before.
    rw [makings_append, h.counted]
    exact List.getElem?_concat_length
  · exact fun _ other kept hkept => get?_install_of_some hkept name content

/-! ## Clients keep the registry consistent -/

namespace Session

/-- A session keeps the registry consistent with what has happened, whether it ends with a value or
fails. -/
def Keeps (x : Session σ ε α) : Prop :=
  ∀ s, Consistent s.1 s.2 → Consistent (x.leaves s).1 (x.leaves s).2

theorem keeps_pure (a : α) : Keeps (pure a : Session σ ε α) := fun _ h => h

theorem keeps_throw (e : ε) : Keeps (throw e : Session σ ε α) := fun _ h => h

theorem Keeps.bind {x : Session σ ε α} {k : α → Session σ ε β} (hx : x.Keeps)
    (hk : ∀ a, (k a).Keeps) : (x >>= k).Keeps := by
  intro s h
  have hleft := hx s h
  unfold leaves at hleft ⊢
  rw [EStateM.run_bind]
  cases hrun : x.run s with
  | ok a t =>
    rw [hrun] at hleft
    exact hk a t hleft
  | error e t =>
    rw [hrun] at hleft
    exact hleft

theorem Keeps.attempt {x : Session σ ε α} (hx : x.Keeps) : (attempt x).Keeps := by
  intro s h
  have hleft : (Session.attempt x).leaves s = x.leaves s := by
    unfold leaves EStateM.run Session.attempt EStateM.run
    cases x s <;> rfl
  rw [hleft]
  exact hx s h

/-- A request keeps the registry consistent when its maker does. -/
theorem Keeps.request {make : Session σ ε σ} (hmake : make.Keeps) (name : String) :
    (request name make).Keeps := by
  rintro ⟨r, history⟩ h
  have hleft := hmake _ h
  unfold leaves at hleft ⊢
  rw [Session.request, EStateM.run_bind]
  cases hget : r.get? name with
  | some kept =>
    rw [run_getOrSynthesize_of_some hget]
    exact h.answer hget
  | none =>
    cases hrun : make.run (r, history) with
    | error e t =>
      rw [run_getOrSynthesize_of_error hget (by rw [EStateM.run_bind, hrun])]
      rw [hrun] at hleft
      exact hleft
    | ok content t =>
      -- The maker may have changed the registry: what it made goes into what it has left.
      obtain ⟨left, events⟩ := t
      rw [hrun] at hleft
      rw [run_getOrSynthesize_of_ok hget (s := (left, events ++ [.made name content]))
        (by rw [EStateM.run_bind, hrun]; rfl)]
      exact (Consistent.install hleft name content).answer (left.get?_install name content)

end Session

/-- **Clients keep the registry consistent.** -/
theorem Client.keeps_act : ∀ c : Client σ ε, c.act.Keeps
  | .returns content => Session.keeps_pure content
  | .fails e => Session.keeps_throw e
  | .look next => by
    rintro ⟨r, history⟩ h
    exact (next r).keeps_act _ h.look
  | .request name maker next =>
    (maker.keeps_act.request name).attempt.bind fun answer => (next answer).keeps_act
  | .clear next => by
    rintro ⟨r, history⟩ h
    exact next.keeps_act _ h.clear

theorem Client.consistent_leaves (c : Client σ ε) : Consistent c.leaves.1 c.leaves.2 :=
  c.keeps_act _ consistent_empty

/-- **One winner for each name.** Take any request of any registry, with a maker that may do what it
likes. If something is kept under the name, it is the answer, the maker is not run and nothing
changes. If the maker fails, so does the request, and leaves what the maker has left. Otherwise one
more thing has been made, and the answer is what is kept under the name in the end: what the maker
has left there, if it left anything there, and else what it made.

And take any client of a new registry, whose requests are nested to any depth. As many things have
been counted as makers have returned, which is no less than are kept, in the end and whenever the
client looks. Each answer is one of these things, made for the name. And requests for one name that
are answered without a clearing between them get the same answer. -/
theorem one_winner :
    (∀ (r : Registry σ) (others : τ) (name : String) (make : EStateM ε (Registry σ × τ) σ),
      (∀ kept, r.get? name = some kept →
        (getOrSynthesize name make).run (r, others) = .ok kept (r, others)) ∧
      (r.get? name = none →
        (∀ e s, make.run (r, others) = .error e s →
          (getOrSynthesize name make).run (r, others) = .error e s) ∧
        ∀ content left others', make.run (r, others) = .ok content (left, others') →
          ∃ kept after, (getOrSynthesize name make).run (r, others) = .ok kept (after, others') ∧
            after.get? name = some kept ∧ after.synthesized = left.synthesized + 1 ∧
            (∀ winner, left.get? name = some winner →
              kept = winner ∧ after.entries = left.entries) ∧
            (left.get? name = none → kept = ⟨content, left.synthesized⟩ ∧
              after.entries = left.entries ++ [(name, kept)]))) ∧
    ∀ client : Client σ ε, ∀ r history, client.leaves = (r, history) →
      r.synthesized = (makings history).length ∧ r.size ≤ r.synthesized ∧
      (∀ before seen, before ++ [.looked seen] <+: history →
        seen.synthesized = (makings before).length ∧ seen.size ≤ seen.synthesized) ∧
      (∀ name kept, .answered name kept ∈ history →
        (makings history)[kept.serial]? = some (name, kept.content)) ∧
      ∀ span, span <:+: history → .cleared ∉ span →
        ∀ name a b, .answered name a ∈ span → .answered name b ∈ span → a = b := by
  refine ⟨fun r others name make => ⟨fun kept => run_getOrSynthesize_of_some, fun hnone =>
    ⟨fun e s => run_getOrSynthesize_of_error hnone, fun content left others' hmake => ?_⟩⟩,
    fun client r history hleaves => ?_⟩
  · refine ⟨_, _, run_getOrSynthesize_of_ok hnone hmake, left.get?_install name content,
      left.synthesized_install name content, fun winner hwinner => ?_, fun hfree => ?_⟩
    -- What the maker has left under the name wins over what it made.
    · rw [install_of_some hwinner]
      exact ⟨rfl, rfl⟩
    · rw [install_of_none hfree]
      exact ⟨rfl, rfl⟩
  · have h := client.consistent_leaves
    rw [hleaves] at h
    exact ⟨h.counted, h.size_le, fun _ _ => h.looked, fun _ _ => h.answered,
      fun _ hspan hcleared _ _ _ => h.alike hspan hcleared⟩

/-- A maker of a coin that asks for a coin itself, from another maker, before it makes one. -/
def slowMint : EStateM String (Registry Nat × Unit) Nat := do
  let _ ← getOrSynthesize "coin" (return 1)
  return 2

/-- A client that asks for a coin from such a maker, for one from a maker that would fail, and,
after a clearing, for one from a maker that makes another. -/
def collector : Client Nat String :=
  .request "coin" (.request "coin" (.returns 1) fun _ => .returns 2) fun _ =>
  .request "coin" (.fails "no silver") fun _ =>
  .clear <|
  .request "coin" (.returns 3) fun _ => .returns 0

/-- The coin that was made while the maker was busy wins over the one that the maker comes up with,
and stays until the registry is cleared. All three coins are counted. -/
theorem one_winner_coin :
    (∃ after, (getOrSynthesize "coin" slowMint).run (empty, ()) = .ok ⟨1, 0⟩ (after, ()) ∧
      after.get? "coin" = some ⟨1, 0⟩ ∧ after.synthesized = 2) ∧
    collector.leaves = (⟨[("coin", ⟨3, 2⟩)], 3⟩,
      [.made "coin" 1, .answered "coin" ⟨1, 0⟩, .made "coin" 2, .answered "coin" ⟨1, 0⟩,
        .answered "coin" ⟨1, 0⟩, .cleared, .made "coin" 3, .answered "coin" ⟨3, 2⟩]) ∧
    (makings collector.leaves.2).length = 3 := by
  obtain ⟨hone, hall⟩ := @one_winner Nat Unit String
  have hmade : slowMint.run (empty, ()) = .ok 2 (⟨[("coin", ⟨1, 0⟩)], 1⟩, ()) := rfl
  obtain ⟨kept, after, hrun, hkept, hcount, hleft, -⟩ :=
    ((hone empty () "coin" slowMint).2 rfl).2 _ _ _ hmade
  obtain ⟨rfl, -⟩ := hleft ⟨1, 0⟩ rfl
  refine ⟨⟨after, hrun, hkept, hcount⟩, rfl, ?_⟩
  exact (hall collector _ _ rfl).1.symm

end Registry

end RecordExchange
