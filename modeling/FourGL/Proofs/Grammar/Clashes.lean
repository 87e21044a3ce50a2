import FourGL.Proofs.Grammar.Interning

/-!
# Rules named like terminals

A rule must not have the name of a terminal. The rules are looked at one after the other: first the name
of a rule is checked against the terminals known by then, then the literals of the rule are entered. So a
literal that is first mentioned by the rule itself, or by a later one, may still take the name of the rule.

**Theorem (`finds_clashes`).** A rule is refused exactly for the terminals that are there when it is its turn:
those that steps have declared, and the literals of earlier rules. If a grammar is built where a rule and a
terminal share a name, the terminal is a literal of this rule or of a later one.

**Theorem (`exists_clash_missed`).** There is such a grammar. With its rules in the other order it is refused.
-/

namespace FourGL

namespace Vocabulary

variable {v v' : Vocabulary} {t : TerminalId} {m : Rule.Mention}

/-- The terminal of a literal that is mentioned. -/
def literal? (v : Vocabulary) : Rule.Mention → Option TerminalId
  | .keyword text => v.keyword? text
  | .symbol text => v.symbol? text
  | .ref _ => none

theorem Retains.literal? (h : v.Retains v') (hcase : v'.caseSensitive = v.caseSensitive)
    (ht : v.literal? m = some t) : v'.literal? m = some t := by
  cases m with
  | keyword text =>
    rw [Vocabulary.literal?, keyword?, keywordKey] at ht ⊢
    rw [hcase]
    exact h.keywords _ t ht
  | symbol text => exact h.symbols text t ht
  | ref name => cases ht

/-- The terminal of a literal has a name. -/
theorem Indexed.exists_name (h : v.Indexed) (ht : v.literal? m = some t) :
    ∃ name : String, v.names[name]? = some t := by
  have hname : ∃ name, v.nameAt? t = some name := by
    cases m with
    | keyword text =>
      have hlt := h.keywords _ t ht
      exact ⟨v.terminals[t].name, by rw [nameAt?, Array.getElem?_eq_getElem hlt]; rfl⟩
    | symbol text => exact ⟨text, h.symbols text t ht⟩
    | ref name => cases ht
  obtain ⟨name, hname⟩ := hname
  exact ⟨name, (h.names name t).mpr hname⟩

/-- A terminal has one name. -/
theorem Indexed.name_unique (h : v.Indexed) {name name' : String} (ht : v.names[name]? = some t)
    (ht' : v.names[name']? = some t) : name = name' := by
  have hname := (h.names name t).mp ht
  rw [(h.names name' t).mp ht'] at hname
  exact (Option.some.inj hname).symm

/-- A literal that is known has a terminal. -/
theorem exists_literal (h : v.Entered m) (ht : v'.literal? m = some t) : ∃ t', v.literal? m = some t' := by
  cases m with
  | keyword text => exact h
  | symbol text => exact h
  | ref name => cases ht

end Vocabulary

namespace Declarations

variable {d d' : Declarations} {g : Grammar} {name : String} {steps : List DeclarationStep}
  {t : TerminalId} {m : Rule.Mention}

/-! ## Literals that stay -/

theorem retains_internMentions (ms : List Rule.Mention) (d : Declarations) :
    d.vocabulary.Retains (ms.foldl internMention d).vocabulary :=
  (becomes_internMentions fun m _ => d.allows_all m).retains

theorem retains_internRules {rules : List RuleDeclaration} (h : rules.foldlM internRule d = .ok d') :
    d.vocabulary.Retains d'.vocabulary :=
  (becomes_internRules h fun _ _ m _ => d.allows_all m).retains

theorem literal?_internRules {rules : List RuleDeclaration} (h : rules.foldlM internRule d = .ok d')
    (ht : d.vocabulary.literal? m = some t) : d'.vocabulary.literal? m = some t :=
  (retains_internRules h).literal? (enters_internRules h).caseSensitive ht

theorem literal?_internMentions (ms : List Rule.Mention) (ht : d.vocabulary.literal? m = some t) :
    (ms.foldl internMention d).vocabulary.literal? m = some t :=
  (retains_internMentions ms d).literal? (d.enters_internMentions ms).caseSensitive ht

/-! ## Where names come from -/

/-- A name that is new after a mention is that of its literal. -/
theorem names_internMention (ht : (d.internMention m).vocabulary.names[name]? = some t) :
    d.vocabulary.names[name]? = some t ∨ (d.internMention m).vocabulary.literal? m = some t := by
  cases m with
  | keyword text =>
    rw [internMention, keyword, vocabulary_intern] at ht ⊢
    rcases d.vocabulary.internKeyword_cases text with ⟨_, -, heq⟩ | ⟨-, -, heq⟩ | ⟨_, heq⟩
    · rw [heq] at ht
      exact Or.inl ht
    · have hfound : (d.vocabulary.internKeyword text).1.keyword? text =
          some d.vocabulary.terminals.size :=
        Vocabulary.keyword?_of_internKeyword (by rw [heq])
      rw [heq] at ht
      rcases Vocabulary.getElem?_of_insert ht with hold | rfl
      · exact Or.inl hold
      · exact Or.inr hfound
    · rw [heq] at ht
      exact Or.inl ht
  | symbol text =>
    rw [internMention, symbol, vocabulary_intern] at ht ⊢
    rcases d.vocabulary.internSymbol_cases text with ⟨_, heq⟩ | ⟨-, -, heq⟩ | ⟨_, heq⟩
    · rw [heq] at ht
      exact Or.inl ht
    · rw [heq] at ht ⊢
      rcases Vocabulary.getElem?_of_insert ht with hold | rfl
      · exact Or.inl hold
      · exact Or.inr Std.TreeMap.getElem?_insert_self
    · rw [heq] at ht
      exact Or.inl ht
  | ref name => exact Or.inl ht

theorem names_internMentions {ms : List Rule.Mention}
    (ht : (ms.foldl internMention d).vocabulary.names[name]? = some t) :
    d.vocabulary.names[name]? = some t ∨
      ∃ m ∈ ms, (ms.foldl internMention d).vocabulary.literal? m = some t := by
  induction ms generalizing d with
  | nil => exact Or.inl ht
  | cons m ms ih =>
    rcases ih ht with hearlier | ⟨m', hm', hliteral⟩
    · rcases names_internMention hearlier with hold | hliteral
      · exact Or.inl hold
      · exact Or.inr ⟨m, List.mem_cons_self, literal?_internMentions ms hliteral⟩
    · exact Or.inr ⟨m', List.mem_cons_of_mem _ hm', hliteral⟩

theorem internRule_ok {r : RuleDeclaration} (h : d.internRule r = .ok d') :
    d.vocabulary.names[r.name]? = none ∧ d' = r.rule.mentions.foldl internMention d := by
  simp only [internRule] at h
  split at h
  · cases h
  · next hnone =>
    cases h
    exact ⟨hnone, rfl⟩

/-- A name that is new after some rules is that of a literal which one of them mentions. -/
theorem names_internRules {rules : List RuleDeclaration} (h : rules.foldlM internRule d = .ok d')
    (ht : d'.vocabulary.names[name]? = some t) :
    d.vocabulary.names[name]? = some t ∨
      ∃ r ∈ rules, ∃ m ∈ r.rule.mentions, d'.vocabulary.literal? m = some t := by
  induction rules generalizing d with
  | nil =>
    cases h
    exact Or.inl ht
  | cons r rules ih =>
    obtain ⟨d₁, hr, h⟩ := except_bind_ok.mp h
    obtain ⟨-, rfl⟩ := internRule_ok hr
    rcases ih h with hearlier | ⟨r', hr', hmentions⟩
    · rcases names_internMentions hearlier with hold | ⟨m, hm, hliteral⟩
      · exact Or.inl hold
      · exact Or.inr ⟨r, List.mem_cons_self, m, hm, literal?_internRules h hliteral⟩
    · exact Or.inr ⟨r', List.mem_cons_of_mem _ hr', hmentions⟩

/-! ## Clashes -/

/-- How a rule fares whose name is that of a terminal. It is refused for a terminal that is there when it
is the rule's turn. It is missed for a terminal that no step and no earlier rule has mentioned. -/
structure FindsClashes (d : Declarations) : Prop where
  refused : ∀ (root : String) (before : List RuleDeclaration) (r : RuleDeclaration)
    (after : List RuleDeclaration) (e : Declarations) (t : TerminalId), d.root = some root →
    d.defect = none → d.rules.toList = before ++ r :: after → before.foldlM internRule d = .ok e →
    e.vocabulary.names[r.name]? = some t →
    d.build = .error (.conflictingTerminal r.name (e.vocabulary.terminal t).kind.description "rule")
  missed : ∀ (g : Grammar) (before : List RuleDeclaration) (r : RuleDeclaration)
    (after : List RuleDeclaration) (t : TerminalId), d.build = .ok g →
    g.rules.toList = before ++ r :: after → g.vocabulary.names[r.name]? = some t →
    d.vocabulary.names[r.name]? = none ∧
      (∀ r' ∈ before, ∀ m ∈ r'.rule.mentions, g.vocabulary.literal? m ≠ some t) ∧
      ∃ r' ∈ r :: after, ∃ m ∈ r'.rule.mentions, g.vocabulary.literal? m = some t

theorem build_of_internRules_error {root : String} {e : GrammarError} (hroot : d.root = some root)
    (hclean : d.defect = none) (h : d.rules.toList.foldlM internRule d = .error e) :
    d.build = .error e := by
  have hcheck : d.checkDefect = .ok () := by rw [checkDefect, hclean]
  rw [Array.foldlM_toList] at h
  simp only [build, assemble, hroot, hcheck, h, bind, Except.bind]

/-- **Clashes** are found among the terminals that are there when it is a rule's turn. -/
theorem finds_clashes (name : String) (steps : List DeclarationStep) :
    (ofSteps name steps).FindsClashes := by
  refine ⟨fun root before r after e t hroot hclean hsplit hbefore ht => ?_,
    fun g before r after t hbuild hsplit ht => ?_⟩
  · refine build_of_internRules_error hroot hclean ?_
    rw [hsplit, List.foldlM_append, hbefore]
    show List.foldlM internRule e (r :: after) = _
    rw [List.foldlM_cons, internRule, ht]
    rfl
  · obtain ⟨d', hentered, hclean, hv, hrules, -⟩ := exists_entered_of_build hbuild
    have hindexed := indexed_of_build hbuild
    rw [← hrules, hsplit, List.foldlM_append] at hentered
    obtain ⟨e, hbefore, hafter⟩ := except_bind_ok.mp hentered
    have hnone : e.vocabulary.names[r.name]? = none := by
      obtain ⟨_, hr, -⟩ := except_bind_ok.mp hafter
      exact (internRule_ok hr).1
    rw [hv] at ht hindexed ⊢
    refine ⟨?_, fun r' hr' m hm hliteral => ?_, ?_⟩
    · by_contra hsome
      obtain ⟨t', ht'⟩ := Option.ne_none_iff_exists'.mp hsome
      rw [(retains_internRules hbefore).names _ t' ht'] at hnone
      cases hnone
    · obtain ⟨hclean, -, -⟩ := entered_of_internRules hafter hclean
      obtain ⟨-, -, hknown⟩ := entered_of_internRules hbefore hclean
      obtain ⟨t', ht'⟩ := Vocabulary.exists_literal (hknown r' hr' m hm) hliteral
      have hsame := literal?_internRules hafter ht'
      rw [hliteral] at hsame
      cases hsame
      -- The terminal of the literal had its name before the rule was looked at.
      obtain ⟨name', hname'⟩ := (indexed_internRules hbefore).exists_name ht'
      have hlater := (retains_internRules hafter).names _ t hname'
      rw [hindexed.name_unique hlater ht, hnone] at hname'
      cases hname'
    · rcases names_internRules hafter ht with hold | hlater
      · rw [hold] at hnone
        cases hnone
      · exact hlater

/-- A rule with the name of a sign, and a later rule that mentions the sign. -/
def clashSteps : List DeclarationStep :=
  [.rule "+" (.symbol "-"), .rule "s" (.seq [.ref "+", .symbol "+"]), .root "s"]

/-- The same rules in the other order. -/
def swappedSteps : List DeclarationStep :=
  [.rule "s" (.seq [.ref "+", .symbol "+"]), .rule "+" (.symbol "-"), .root "s"]

/-- The clash is missed in one order, and found in the other. -/
theorem finds_clashes_signs :
    (∃ g, (ofSteps "clash" clashSteps).build = .ok g ∧ g.vocabulary.names["+"]? = some 3 ∧
      ∃ r ∈ g.rules.toList, ∃ m ∈ r.rule.mentions, g.vocabulary.literal? m = some 3) ∧
    (ofSteps "clash" swappedSteps).build = .error (.conflictingTerminal "+" "symbol" "rule") := by
  constructor
  · have hseen : (ofSteps "clash" clashSteps).seen? (fun g => g.vocabulary.names["+"]?) = some 3 := by
      decide +kernel
    obtain ⟨g, hbuild, hterminal⟩ := exists_seen hseen
    have hrules : g.rules.toList = [] ++ ⟨"+", .symbol "-", false⟩ ::
        [⟨"s", .seq [.ref "+", .symbol "+"], false⟩] := by
      obtain ⟨-, -, -, -, heq, -⟩ := exists_entered_of_build hbuild
      rw [heq]
      exact rules_ofSteps (by decide +kernel)
    obtain ⟨-, -, hlater⟩ := (finds_clashes "clash" clashSteps).missed g _ _ _ 3 hbuild hrules hterminal
    refine ⟨g, hbuild, hterminal, ?_⟩
    rw [hrules]
    exact hlater
  · have hclean : (ofSteps "clash" swappedSteps).defect = none := by decide +kernel
    have hnew : (ofSteps "clash" swappedSteps).vocabulary.names["s"]? = none := by decide +kernel
    set e := (ofSteps "clash" swappedSteps).internMention (.symbol "+") with he
    have hbefore : [⟨"s", .seq [.ref "+", .symbol "+"], false⟩].foldlM internRule
        (ofSteps "clash" swappedSteps) = .ok e := by
      rw [List.foldlM_cons, internRule, hnew]
      rfl
    have hfound : e.vocabulary.names["+"]? = some 2 ∧ (e.vocabulary.terminal 2).kind = .symbol := by
      rw [he]
      decide +kernel
    have hrefused := (finds_clashes "clash" swappedSteps).refused "s" _ ⟨"+", .symbol "-", false⟩ [] e 2
      rfl hclean (rules_ofSteps hclean) hbefore hfound.1
    rw [hfound.2] at hrefused
    exact hrefused

/-- **A clash that is missed.** The grammar has a rule and a terminal of one name. With its two rules in the
other order it is refused. -/
theorem exists_clash_missed : ∃ g t, (ofSteps "clash" clashSteps).build = .ok g ∧
    (∃ r ∈ g.rules.toList, r.name = "+") ∧ g.vocabulary.names["+"]? = some t ∧
    (ofSteps "clash" swappedSteps).build = .error (.conflictingTerminal "+" "symbol" "rule") := by
  have hseen : (ofSteps "clash" clashSteps).seen? (fun g =>
      some (g.rules.toList.map (·.name), g.vocabulary.names["+"]?)) = some (["+", "s"], some 3) := by
    decide +kernel
  obtain ⟨g, hbuild, hseen⟩ := exists_seen hseen
  obtain ⟨hnames, hterminal⟩ := Prod.mk.inj (Option.some.inj hseen)
  have hrule : "+" ∈ g.rules.toList.map (·.name) := by
    rw [hnames]
    exact List.mem_cons_self
  obtain ⟨r, hr, hname⟩ := List.mem_map.mp hrule
  have hswapped : (ofSteps "clash" swappedSteps).build.map (fun _ => ()) =
      .error (.conflictingTerminal "+" "symbol" "rule") := by decide +kernel
  refine ⟨g, 3, hbuild, ⟨r, hr, hname⟩, hterminal, ?_⟩
  cases he : (ofSteps "clash" swappedSteps).build with
  | error e =>
    rw [he] at hswapped
    cases hswapped
    rfl
  | ok g =>
    rw [he] at hswapped
    cases hswapped

end Declarations

end FourGL
