import RecordExchange.Admission.PolicyFile
import RecordExchange.Proofs.Acceptance

/-!
# What policies mean

The rules of a policy are texts. What they admit can be said of the texts alone, and the policy that
is compiled from them gives just these verdicts. It is all or nothing: one text that spells no
pattern, wherever it is listed, and there is no policy. For a file this means that nothing is
admitted, as it is when the file cannot be read at all.

- `TypePattern.Unreadable`, `TypePattern.Covers`: which texts are no patterns, and the type names
  that a text stands for.
- `PolicyRules.Admits`: the verdict of rules.
- `Policy.exists_compile_iff`, `Policy.permits_iff_of_compile`: when rules have a policy, and what it
  admits.
- `Policy.load_permits_iff`: what the policy of a file admits.
- `PolicyRules.Governs`: how verdicts follow from rules, and how they change with them.
-/

namespace RecordExchange

/-! ## Patterns as they are written -/

/-- An element that is not the last one of a list has further ones behind it. -/
theorem mem_dropLast_iff {α : Type} {a : α} {l : List α} :
    a ∈ l.dropLast ↔ ∃ before after, after ≠ [] ∧ l = before ++ a :: after := by
  constructor
  · intro h
    obtain ⟨before, after, hsplit⟩ := List.append_of_mem h
    have hne : l ≠ [] := by
      rintro rfl
      exact List.not_mem_nil h
    refine ⟨before, after ++ [l.getLast hne], by simp, ?_⟩
    calc l = l.dropLast ++ [l.getLast hne] := (List.dropLast_concat_getLast hne).symm
      _ = before ++ a :: (after ++ [l.getLast hne]) := by
        rw [hsplit, List.append_assoc, List.cons_append]
  · rintro ⟨before, after, hne, rfl⟩
    rw [List.dropLast_append_cons, List.dropLast_cons_of_ne_nil hne]
    exact List.mem_append_right before List.mem_cons_self

namespace TypePattern

/-- A text spells no pattern when it is empty, blanks at its ends aside, or when a star stands in it
that is not its end. -/
def Unreadable (text : String) : Prop :=
  Text.trim text = "" ∨ ∃ before after, after ≠ "" ∧ Text.trim text = before ++ "*" ++ after

/-- The type names that a text stands for, blanks at its ends aside: those that begin with what
stands before the star at its end, or else the one that it spells. -/
def Covers (text typeName : String) : Prop :=
  (∃ stem rest, Text.trim text = stem ++ "*" ∧ typeName = stem ++ rest) ∨
    (¬ ∃ stem, Text.trim text = stem ++ "*") ∧ typeName = Text.trim text

/-- The characters of a text with a star in it. -/
theorem eq_append_star_iff {s before after : String} :
    s = before ++ "*" ++ after ↔ s.toList = before.toList ++ '*' :: after.toList := by
  rw [← String.toList_inj, String.toList_append, String.toList_append]
  simp

/-- The characters of a text that ends in a star. -/
theorem eq_append_star_end_iff {s stem : String} :
    s = stem ++ "*" ↔ s.toList = stem.toList ++ ['*'] := by
  rw [← String.toList_inj, String.toList_append]
  rfl

/-- A text ends in a star when its last character is one. -/
theorem exists_append_star_iff {s : String} :
    (∃ stem, s = stem ++ "*") ↔ s.toList.getLast? = some '*' := by
  rw [List.getLast?_eq_some_iff]
  constructor
  · rintro ⟨stem, h⟩
    exact ⟨stem.toList, eq_append_star_end_iff.mp h⟩
  · rintro ⟨cs, hcs⟩
    refine ⟨String.ofList cs, eq_append_star_end_iff.mpr ?_⟩
    rw [String.toList_ofList, hcs]

theorem unreadable_iff (text : String) :
    Unreadable text ↔
      (Text.trim text).toList = [] ∨ '*' ∈ (Text.trim text).toList.dropLast := by
  have hempty : Text.trim text = "" ↔ (Text.trim text).toList = [] := by
    rw [← String.toList_inj]
    rfl
  rw [Unreadable, hempty, mem_dropLast_iff]
  refine or_congr_right ?_
  constructor
  · rintro ⟨before, after, hne, h⟩
    refine ⟨before.toList, after.toList, fun hnil => hne ?_, eq_append_star_iff.mp h⟩
    exact String.toList_inj.mp hnil
  · rintro ⟨before, after, hne, h⟩
    refine ⟨String.ofList before, String.ofList after, fun hnil => hne ?_, ?_⟩
    · rw [← String.toList_inj, String.toList_ofList] at hnil
      exact hnil
    · rw [eq_append_star_iff, String.toList_ofList, String.toList_ofList, h]

/-- A text is parsed in one of three ways. -/
theorem parse_eq (text : String) :
    parse text =
      if (Text.trim text).toList = [] ∨ '*' ∈ (Text.trim text).toList.dropLast then
        .error (.invalidPattern (Text.trim text))
      else if (Text.trim text).toList.getLast? = some '*' then
        .ok (.startingWith (String.ofList (Text.trim text).toList.dropLast))
      else .ok (.exact (Text.trim text)) := by
  unfold parse
  simp only [Bool.or_eq_true, List.isEmpty_iff, List.contains_iff_mem]

/-- The texts that are parsed are those that spell a pattern. -/
theorem exists_parse_iff (text : String) : (∃ p, parse text = .ok p) ↔ ¬ Unreadable text := by
  rw [parse_eq, unreadable_iff]
  split
  next hbad =>
    constructor
    · rintro ⟨p, h⟩
      cases h
    · exact fun hgood => absurd hbad hgood
  next hgood =>
    refine ⟨fun _ => hgood, fun _ => ?_⟩
    split <;> exact ⟨_, rfl⟩

/-- A pattern has the names that its text stands for. -/
theorem test_iff_covers {text : String} {p : TypePattern} (h : parse text = .ok p)
    (typeName : String) : p.test typeName = true ↔ Covers text typeName := by
  rw [test_iff_matches, Covers]
  rw [parse_eq] at h
  split at h
  · cases h
  · split at h
    next hstar =>
      cases h
      obtain ⟨cs, hcs⟩ := List.getLast?_eq_some_iff.mp hstar
      rw [hcs, List.dropLast_concat]
      constructor
      · rintro ⟨rest, rfl⟩
        exact .inl ⟨_, rest, eq_append_star_end_iff.mpr (by rw [String.toList_ofList, hcs]), rfl⟩
      · rintro (⟨stem, rest, hstem, rfl⟩ | ⟨hnone, -⟩)
        · -- The stem is determined by the text: it is all but the star.
          rw [eq_append_star_end_iff, hcs] at hstem
          obtain rfl := List.append_inj_left' hstem rfl
          exact ⟨rest, by rw [String.ofList_toList]⟩
        · exact absurd (exists_append_star_iff.mpr hstar) hnone
    next hstar =>
      cases h
      constructor
      · exact fun hname => .inr ⟨fun hstem => hstar (exists_append_star_iff.mp hstem), hname⟩
      · rintro (⟨stem, -, hstem, -⟩ | ⟨-, hname⟩)
        · exact absurd (exists_append_star_iff.mp ⟨stem, hstem⟩) hstar
        · exact hname

end TypePattern

/-! ## Rules and the policies that are compiled from them -/

open TypePattern

namespace PolicyRules

/-- A text that the rules list as a pattern, for whatever purpose. -/
def Lists (rules : PolicyRules) (text : String) : Prop :=
  text ∈ rules.types ∨ text ∈ rules.denied ∨ ∃ g ∈ rules.groups, text ∈ g.2

/-- The rules admit a type name to a group when none of the denied patterns stands for it and, for
an allow list, one of the patterns does that are listed for all groups or for the one of this
name. -/
def Admits (rules : PolicyRules) (group typeName : String) : Prop :=
  (¬ ∃ text ∈ rules.denied, Covers text typeName) ∧
    (rules.mode ≠ .allowlist ∨ (∃ text ∈ rules.types, Covers text typeName) ∨
      ∃ texts, rules.groups.lookup group = some texts ∧ ∃ text ∈ texts, Covers text typeName)

end PolicyRules

namespace Policy

/-- Some pattern of a list has a name when one of their texts stands for it. -/
theorem listed_iff_of_patterns : ∀ {texts : List String} {ps : List TypePattern},
    patterns texts = .ok ps → ∀ typeName,
      (listed ps typeName = true ↔ ∃ text ∈ texts, Covers text typeName)
  | [], _, h, _ => by
    cases h
    simp [listed]
  | text :: rest, _, h, typeName => by
    obtain ⟨p, ps, hp, hps, rfl⟩ := mapM_cons_eq_ok_iff.mp h
    have hrest := listed_iff_of_patterns hps typeName
    rw [listed, List.any_eq_true] at hrest
    rw [listed, List.any_eq_true]
    simp only [List.mem_cons, exists_eq_or_imp, hrest, test_iff_covers hp]

/-- The patterns of a group are those of its texts. -/
theorem lookup_of_groupPatterns (name : String) : ∀ {groups : List (String × List String)}
    {compiled : List (String × List TypePattern)}, groupPatterns groups = .ok compiled →
      match groups.lookup name with
      | none => compiled.lookup name = none
      | some texts => ∃ ps, compiled.lookup name = some ps ∧ patterns texts = .ok ps
  | [], _, h => by
    cases h
    rfl
  | g :: rest, _, h => by
    obtain ⟨_, others, hfirst, hothers, rfl⟩ := mapM_cons_eq_ok_iff.mp h
    obtain ⟨ps, hps, hentry⟩ := except_bind_eq_ok.mp hfirst
    cases hentry
    have hrest := lookup_of_groupPatterns name hothers
    obtain ⟨group, texts⟩ := g
    by_cases hname : name = group
    · subst hname
      simp only [List.lookup_cons_self]
      exact ⟨ps, rfl, hps⟩
    · have hne : (name == group) = false := beq_false_of_ne hname
      simp only [List.lookup_cons, hne]
      exact hrest

/-- Compiling succeeds in its three parts. -/
theorem compile_eq_ok_iff {rules : PolicyRules} {policy : Policy} :
    compile rules = .ok policy ↔
      ∃ groups allowed denied, groupPatterns rules.groups = .ok groups ∧
        patterns rules.types = .ok allowed ∧ patterns rules.denied = .ok denied ∧
        policy = ⟨rules.mode, allowed, denied, groups, false⟩ := by
  unfold compile
  simp only [except_bind_eq_ok]
  constructor
  · rintro ⟨groups, hgroups, allowed, hallowed, denied, hdenied, h⟩
    cases h
    exact ⟨groups, allowed, denied, hgroups, hallowed, hdenied, rfl⟩
  · rintro ⟨groups, allowed, denied, hgroups, hallowed, hdenied, rfl⟩
    exact ⟨groups, hgroups, allowed, hallowed, denied, hdenied, rfl⟩

/-- Rules have a policy when all the texts that they list spell patterns. -/
theorem exists_compile_iff (rules : PolicyRules) :
    (∃ policy, compile rules = .ok policy) ↔ ∀ text, rules.Lists text → ¬ Unreadable text := by
  -- A list of texts compiles exactly when each of them can be read.
  have hpatterns : ∀ texts : List String,
      (∃ ps, patterns texts = .ok ps) ↔ ∀ text ∈ texts, ¬ Unreadable text := by
    intro texts
    rw [patterns, exists_mapM_eq_ok_iff]
    simp only [exists_parse_iff]
  have hgroups : (∃ groups, groupPatterns rules.groups = .ok groups) ↔
      ∀ g ∈ rules.groups, ∀ text ∈ g.2, ¬ Unreadable text := by
    rw [groupPatterns, exists_mapM_eq_ok_iff]
    refine forall₂_congr fun g _ => ?_
    rw [← hpatterns g.2]
    exact exists_map_eq_ok_iff (f := fun ps => (g.1, ps))
  simp only [compile_eq_ok_iff]
  constructor
  · rintro ⟨_, groups, allowed, denied, hg, ha, hd, -⟩ text (htypes | hdenied | ⟨g, hmem, htext⟩)
    · exact (hpatterns _).mp ⟨allowed, ha⟩ text htypes
    · exact (hpatterns _).mp ⟨denied, hd⟩ text hdenied
    · exact hgroups.mp ⟨groups, hg⟩ g hmem text htext
  · intro h
    obtain ⟨groups, hg⟩ := hgroups.mpr fun g hmem text htext => h text (.inr (.inr ⟨g, hmem, htext⟩))
    obtain ⟨allowed, ha⟩ := (hpatterns rules.types).mpr fun text htext => h text (.inl htext)
    obtain ⟨denied, hd⟩ := (hpatterns rules.denied).mpr fun text htext => h text (.inr (.inl htext))
    exact ⟨_, groups, allowed, denied, hg, ha, hd, rfl⟩

/-- The policy of rules admits what the rules admit. -/
theorem permits_iff_of_compile {rules : PolicyRules} {policy : Policy}
    (h : compile rules = .ok policy) (group typeName : String) :
    policy.permits group typeName = true ↔ rules.Admits group typeName := by
  obtain ⟨groups, allowed, denied, hgroups, hallowed, hdenied, rfl⟩ := compile_eq_ok_iff.mp h
  -- A group that is not listed admits nothing, as one without patterns would.
  have hgroup : listed ((groups.lookup group).getD []) typeName = true ↔
      ∃ texts, rules.groups.lookup group = some texts ∧ ∃ text ∈ texts, Covers text typeName := by
    have hlookup := lookup_of_groupPatterns group hgroups
    cases htexts : rules.groups.lookup group with
    | none =>
      rw [htexts] at hlookup
      simp [hlookup, listed]
    | some texts =>
      rw [htexts] at hlookup
      obtain ⟨ps, hps, hpatterns⟩ := hlookup
      rw [hps, Option.getD_some, listed_iff_of_patterns hpatterns]
      simp
  unfold permits PolicyRules.Admits
  simp only [← listed_iff_of_patterns hdenied, ← listed_iff_of_patterns hallowed, ← hgroup,
    groupPatternsOf]
  cases rules.mode <;> cases listed denied typeName <;> simp

end Policy

/-! ## Policies of files -/

/-- A file has a text when it holds the bytes of this text. -/
theorem StoredFile.text?_eq_some_iff {file : StoredFile} {text : String} :
    file.text? = some text ↔ file = .holding (Utf8.encode text) := by
  constructor
  · intro h
    cases file with
    | missing | unreadable => cases h
    | holding content =>
      simp only [text?, Utf8.decode, String.fromUTF8?] at h
      split at h
      next s hs =>
        split at hs
        · cases hs
          cases h
          rfl
        · cases hs
      next => cases h
  · rintro rfl
    rw [text?, Wire.decode_encode_utf8]
    rfl

namespace Policy

theorem parse_eq_ok_iff {text : String} {policy : Policy} :
    parse text = .ok policy ↔
      ∃ rules, rulesOfDocument text = some rules ∧ compile rules = .ok policy := by
  unfold parse
  cases rulesOfDocument text <;> simp

/-- The policy of a file admits what the rules in it admit, if the file is there, holds a text that is
read as rules, and these list nothing but patterns. Otherwise it admits nothing. -/
theorem load_permits_iff (file : StoredFile) (group typeName : String) :
    (load file).permits group typeName = true ↔
      ∃ text rules, file = .holding (Utf8.encode text) ∧ rulesOfDocument text = some rules ∧
        (∀ pattern, rules.Lists pattern → ¬ Unreadable pattern) ∧ rules.Admits group typeName := by
  have hclosed : denyAll.permits group typeName ≠ true := Bool.false_ne_true
  constructor
  · intro h
    unfold load at h
    split at h
    · exact absurd h hclosed
    · simp only at h
      -- Whether the policy stands for a file has nothing to do with its verdicts.
      split at h
      next policy hpolicy =>
        obtain ⟨text, htext, hparse⟩ := Option.map_eq_some_iff.mp hpolicy
        obtain ⟨rules, hrules, hcompile⟩ := parse_eq_ok_iff.mp hparse
        have hlists := (exists_compile_iff rules).mp ⟨policy, hcompile⟩
        have hadmits := (permits_iff_of_compile hcompile group typeName).mp h
        exact ⟨text, rules, StoredFile.text?_eq_some_iff.mp htext, hrules, hlists, hadmits⟩
      next => exact absurd h hclosed
  · rintro ⟨text, rules, rfl, hrules, hlists, hadmits⟩
    obtain ⟨policy, hcompile⟩ := (exists_compile_iff rules).mpr hlists
    have hparse : parse text = .ok policy := parse_eq_ok_iff.mpr ⟨rules, hrules, hcompile⟩
    have hload : load (.holding (Utf8.encode text)) = { policy with fromFile := true } := by
      simp only [load, StoredFile.text?_eq_some_iff.mpr rfl, Option.map_some, hparse]
    rw [hload]
    exact (permits_iff_of_compile hcompile group typeName).mpr hadmits

end Policy

/-! ## Verdicts and rules -/

namespace PolicyRules

variable {rules : PolicyRules} {group typeName : String}

theorem Admits.of_deny_more {denied : List String} (hsub : rules.denied ⊆ denied)
    (h : Admits { rules with denied } group typeName) : rules.Admits group typeName :=
  ⟨fun ⟨text, hmem, hcovers⟩ => h.1 ⟨text, hsub hmem, hcovers⟩, h.2⟩

theorem Admits.allow_more {types : List String} {groups : List (String × List String)}
    (h : rules.Admits group typeName) (htypes : rules.types ⊆ types)
    (hgroups : ∀ texts, rules.groups.lookup group = some texts →
      ∃ more, groups.lookup group = some more ∧ texts ⊆ more) :
    Admits { rules with types, groups } group typeName := by
  obtain ⟨hdenied, hmode | ⟨text, hmem, hcovers⟩ | ⟨texts, hlookup, text, hmem, hcovers⟩⟩ := h
  · exact ⟨hdenied, .inl hmode⟩
  · exact ⟨hdenied, .inr (.inl ⟨text, htypes hmem, hcovers⟩)⟩
  · obtain ⟨more, hmore, hsub⟩ := hgroups texts hlookup
    exact ⟨hdenied, .inr (.inr ⟨more, hmore, text, hsub hmem, hcovers⟩)⟩

theorem admits_iff_of_lookup_eq {groups : List (String × List String)}
    (h : groups.lookup group = rules.groups.lookup group) :
    Admits { rules with groups } group typeName ↔ rules.Admits group typeName := by
  unfold Admits
  rw [h]

/-- How the verdicts of a policy follow from the rules that it was compiled from, and what other
rules would change about them. -/
structure Governs (rules : PolicyRules) (policy : Policy) : Prop where
  permits : ∀ group typeName,
    policy.permits group typeName = true ↔ rules.Admits group typeName
  /-- Rules that deny more never admit more. -/
  deny_more : ∀ denied tighter, rules.denied ⊆ denied →
    Policy.compile { rules with denied } = .ok tighter → ∀ group typeName,
      tighter.permits group typeName = true → policy.permits group typeName = true
  /-- Rules that list more, for all groups or for single ones, never admit less. -/
  allow_more : ∀ types groups looser, rules.types ⊆ types →
    (∀ group texts, rules.groups.lookup group = some texts →
      ∃ more, groups.lookup group = some more ∧ texts ⊆ more) →
    Policy.compile { rules with types, groups } = .ok looser → ∀ group typeName,
      policy.permits group typeName = true → looser.permits group typeName = true
  /-- What is listed for one group makes no difference to another one. -/
  other_groups : ∀ groups other group, groups.lookup group = rules.groups.lookup group →
    Policy.compile { rules with groups } = .ok other → ∀ typeName,
      other.permits group typeName = policy.permits group typeName

/-- Rules govern the policy that is compiled from them. -/
theorem governs_of_compile {policy : Policy} (h : Policy.compile rules = .ok policy) :
    rules.Governs policy where
  permits := Policy.permits_iff_of_compile h
  deny_more denied tighter hsub htighter group typeName := by
    rw [Policy.permits_iff_of_compile h, Policy.permits_iff_of_compile htighter]
    exact Admits.of_deny_more hsub
  allow_more types groups looser htypes hgroups hlooser group typeName := by
    rw [Policy.permits_iff_of_compile h, Policy.permits_iff_of_compile hlooser]
    exact fun hadmits => hadmits.allow_more htypes (hgroups group)
  other_groups groups other group hlookup hother typeName := by
    rw [Bool.eq_iff_iff, Policy.permits_iff_of_compile h, Policy.permits_iff_of_compile hother]
    exact admits_iff_of_lookup_eq hlookup

end PolicyRules

/-- **Policies.** Compiling fails exactly on rules that list a text which spells no pattern, and all
other rules govern the policy that is compiled from them. The policy of a file admits what the rules
in it admit, if the file is there, holds a text that is read as rules, and these compile; in all
other cases it admits nothing to any group. -/
theorem Policy.as_written :
    (∀ rules, (∃ err, compile rules = .error err) ↔
      ∃ text, rules.Lists text ∧ TypePattern.Unreadable text) ∧
    (∀ rules policy, compile rules = .ok policy → rules.Governs policy) ∧
    ∀ file group typeName, (load file).permits group typeName = true ↔
      ∃ text rules, file = .holding (Utf8.encode text) ∧ rulesOfDocument text = some rules ∧
        (∀ pattern, rules.Lists pattern → ¬ TypePattern.Unreadable pattern) ∧
        rules.Admits group typeName := by
  refine ⟨fun rules => ?_, fun rules policy h => PolicyRules.governs_of_compile h, load_permits_iff⟩
  have hok := exists_compile_iff rules
  cases hcompile : compile rules with
  | ok policy =>
    have hlists := hok.mp ⟨policy, hcompile⟩
    constructor
    · rintro ⟨err, herr⟩
      cases herr
    · exact fun ⟨text, hlisted, hbad⟩ => absurd hbad (hlists text hlisted)
  | error err =>
    refine ⟨fun _ => ?_, fun _ => ⟨err, rfl⟩⟩
    -- Were all texts readable, the rules would compile.
    refine Classical.byContradiction fun hnone => ?_
    obtain ⟨policy, hpolicy⟩ := hok.mpr fun text hlisted hbad => hnone ⟨text, hlisted, hbad⟩
    cases hcompile.symm.trans hpolicy

/-- An allow list with blanks around its pattern, an exception and a group with a name of its own. -/
def tradeRules : PolicyRules :=
  ⟨.allowlist, [" trade.* "], ["trade.Secret"], [("desk", ["Ledger"])]⟩

/-- The same rules as a document. -/
def tradeDocument : String :=
  "[whitelist]\ntypes = [\" trade.* \"]\ndenied-types = [\"trade.Secret\"]\n" ++
    "[whitelist.groups.desk]\ntypes = [\"Ledger\"]\n"

/-- The rules compile and govern their policy. As a file they admit ledgers to the group that they
name, which they no longer do when a byte behind them is no text, nor when a pattern is added for
another group that is none. -/
theorem as_written_trade :
    (∃ policy, Policy.compile tradeRules = .ok policy ∧ tradeRules.Governs policy) ∧
    (Policy.load (.holding (Utf8.encode tradeDocument))).permits "desk" "Ledger" = true ∧
    (Policy.load (.holding (Utf8.encode tradeDocument ++ [0xff]))).permits "desk" "Ledger" = false ∧
    ∃ err, Policy.compile (tradeRules.setGroup "hall" ["a*b"]) = .error err := by
  obtain ⟨hfails, hgoverns, hfile⟩ := Policy.as_written
  have hverdict : (match Policy.compile tradeRules with
    | .ok policy => policy.permits "desk" "Ledger"
    | .error _ => false) = true := by decide +kernel
  obtain ⟨policy, hcompile⟩ : ∃ policy, Policy.compile tradeRules = .ok policy := by
    split at hverdict
    next policy hpolicy => exact ⟨policy, hpolicy⟩
    next => cases hverdict
  have hrules : Policy.rulesOfDocument tradeDocument = some tradeRules := by decide +kernel
  have hlists := (Policy.exists_compile_iff tradeRules).mp ⟨policy, hcompile⟩
  rw [hcompile] at hverdict
  have hadmits := ((hgoverns _ _ hcompile).permits _ _).mp hverdict
  refine ⟨⟨policy, hcompile, hgoverns _ _ hcompile⟩, ?_, ?_, ?_⟩
  · exact (hfile _ _ _).mpr ⟨_, _, rfl, hrules, hlists, hadmits⟩
  · rw [← Bool.not_eq_true, hfile]
    rintro ⟨text, -, htext, -⟩
    -- The byte behind the text starts no character, so that the file holds no text.
    have hnone : (StoredFile.holding (Utf8.encode tradeDocument ++ [0xff])).text? = none := by
      decide +kernel
    rw [StoredFile.text?_eq_some_iff.mpr htext] at hnone
    cases hnone
  · have hlisted : ("hall", ["a*b"]) ∈ (tradeRules.setGroup "hall" ["a*b"]).groups := by
      decide +kernel
    have hstar : Text.trim "a*b" = "a" ++ "*" ++ "b" := by decide +kernel
    refine (hfails _).mpr ⟨"a*b", .inr (.inr ⟨_, hlisted, List.mem_singleton_self _⟩), ?_⟩
    exact .inr ⟨"a", "b", by decide, hstar⟩

end RecordExchange
