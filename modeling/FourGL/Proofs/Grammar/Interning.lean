import FourGL.Proofs.Grammar.Failures
import FourGL.Proofs.Grammar.Naming
import Mathlib.Data.List.Induction

/-!
# One literal, one terminal

Keywords and symbols are registered by steps of the declaration, or because a rule mentions them. Each is
entered once; further mentions find it.

**Theorem (`interns_once`).** In every grammar that is built, names and terminals belong together one to
one; a keyword is found exactly for the keys of registered keywords, with one terminal for each key; a
symbol is found exactly for the texts of registered symbols, with one terminal for each text; and whatever a
rule mentions is known. Whether case matters must not change after a keyword has been registered.

That nothing else is found follows from the changes of the vocabulary (`Vocabulary.Becomes.onlyFrom`). That
all which is registered is found follows from the absence of defects: a step that is not refused has entered
its literals, and they stay.
-/

namespace FourGL

/-- The rule that a step declares. -/
def DeclarationStep.declaration? : DeclarationStep → Option RuleDeclaration
  | .rule name r => some ⟨name, r, false⟩
  | .transient name r => some ⟨name, r, true⟩
  | _ => none

namespace Declarations

variable {d d' : Declarations} {g : Grammar} {name text : String} {steps : List DeclarationStep}
  {step : DeclarationStep} {m : Rule.Mention}

/-- A literal or name occurs in the declarations: a step declares it, or a rule mentions it. -/
inductive Registers (steps : List DeclarationStep) (m : Rule.Mention) : Prop
  | declared (step : DeclarationStep) : step ∈ steps → m ∈ step.literals → Registers steps m
  | mentioned (step : DeclarationStep) (r : RuleDeclaration) : step ∈ steps →
      step.declaration? = some r → m ∈ r.rule.mentions → Registers steps m

/-! ## Steps without a defect -/

theorem defect_bracePair {opening closing : String} (h : (d.bracePair opening closing).defect = none) :
    ((d.symbol opening).symbol closing).defect = none := by
  simp only [bracePair] at h
  split at h
  · exact h
  · exact h

theorem defect_punctuation (h : (d.punctuation text).defect = none) :
    (d.symbol text).defect = none := by
  simp only [punctuation] at h
  split at h
  · next he =>
    rw [symbol, he]
    exact h
  · next he =>
    rw [symbol, he]
    exact h

theorem clean_declare {r : RuleDeclaration} (h : (d.declare r).defect = none) :
    d.defect = none ∧ (d.declare r).rules.toList = d.rules.toList ++ [r] := by
  simp only [declare] at h ⊢
  split at h
  · rw [note, Option.or_eq_none_iff] at h
    cases h.2
  · next hnew =>
    rw [if_neg hnew]
    exact ⟨h, Array.toList_push⟩

/-- A step without a defect adds the rule that it declares. -/
theorem clean_take (h : (d.take step).defect = none) :
    d.defect = none ∧ (d.take step).rules.toList = d.rules.toList ++ step.declaration?.toList := by
  cases step with
  | caseSensitive on => exact ⟨h, (List.append_nil _).symm⟩
  | root name => exact ⟨h, (List.append_nil _).symm⟩
  | identifier name | number name | string name | comment name =>
    obtain ⟨hclean, -⟩ := defect_intern _ h
    refine ⟨hclean, ?_⟩
    rw [take, tokenClass, rules_intern]
    exact (List.append_nil _).symm
  | keyword text =>
    obtain ⟨hclean, -⟩ := defect_intern _ h
    refine ⟨hclean, ?_⟩
    rw [take, keyword, rules_intern]
    exact (List.append_nil _).symm
  | bracePair opening closing =>
    obtain ⟨hfirst, -⟩ := defect_intern _ (defect_bracePair h)
    obtain ⟨hclean, -⟩ := defect_intern _ hfirst
    refine ⟨hclean, ?_⟩
    rw [take, rules_bracePair]
    exact (List.append_nil _).symm
  | punctuation text =>
    obtain ⟨hclean, -⟩ := defect_intern _ (defect_punctuation h)
    refine ⟨hclean, ?_⟩
    rw [take, rules_punctuation]
    exact (List.append_nil _).symm
  | rule name rule => exact clean_declare h
  | transient name rule => exact clean_declare h

theorem clean_steps (steps : List DeclarationStep) (d : Declarations)
    (h : (steps.foldl take d).defect = none) :
    d.defect = none ∧ (steps.foldl take d).rules.toList =
      d.rules.toList ++ steps.filterMap DeclarationStep.declaration? := by
  induction steps generalizing d with
  | nil => exact ⟨h, (List.append_nil _).symm⟩
  | cons step steps ih =>
    obtain ⟨hstep, hrules⟩ := ih (d.take step) h
    obtain ⟨hclean, hrule⟩ := clean_take hstep
    refine ⟨hclean, ?_⟩
    rw [List.foldl_cons, hrules, hrule, List.append_assoc]
    congr 1
    cases hr : step.declaration? with
    | none =>
      rw [List.filterMap_cons_none hr]
      rfl
    | some r =>
      rw [List.filterMap_cons_some hr]
      rfl

/-- Without a defect, the rules are those that the steps declare. -/
theorem rules_ofSteps (h : (ofSteps name steps).defect = none) :
    (ofSteps name steps).rules.toList = steps.filterMap DeclarationStep.declaration? :=
  (clean_steps steps (empty name) h).2

theorem symbols_punctuation (d : Declarations) (text : String) :
    (d.punctuation text).vocabulary.symbols = (d.symbol text).vocabulary.symbols := by
  simp only [punctuation]
  split
  · next he =>
    rw [symbol, he]
    rfl
  · next he => rw [symbol, he]

theorem symbols_pairBraces (v : Vocabulary) (opening closing : TerminalId) :
    (v.pairBraces opening closing).symbols = v.symbols := rfl

theorem symbols_bracePair (d : Declarations) (opening closing : String) :
    (d.bracePair opening closing).vocabulary.symbols =
      ((d.symbol opening).symbol closing).vocabulary.symbols := by
  simp only [bracePair]
  split
  · exact symbols_pairBraces _ _ _
  · rfl

/-- A step without a defect has entered its literals. -/
theorem entered_take (h : (d.take step).defect = none) (hm : m ∈ step.literals) :
    (d.take step).vocabulary.Entered m := by
  cases step with
  | keyword text =>
    obtain rfl := List.mem_singleton.mp hm
    exact (entered_internMention (.keyword text) h).2.2
  | punctuation text =>
    obtain rfl := List.mem_singleton.mp hm
    have hentered := (entered_internMention (.symbol text) (defect_punctuation h)).2.2
    rw [Vocabulary.Entered, Vocabulary.symbol?, take, symbols_punctuation]
    exact hentered
  | bracePair opening closing =>
    obtain ⟨hfirst, hgrows, hclosing⟩ :=
      entered_internMention (d := d.symbol opening) (.symbol closing) (defect_bracePair h)
    have hopening := hgrows.entered (entered_internMention (.symbol opening) hfirst).2.2
    rcases List.mem_cons.mp hm with rfl | hm
    · rw [Vocabulary.Entered, Vocabulary.symbol?, take, symbols_bracePair]
      exact hopening
    · obtain rfl := List.mem_singleton.mp hm
      rw [Vocabulary.Entered, Vocabulary.symbol?, take, symbols_bracePair]
      exact hclosing
  | caseSensitive | identifier | number | string | comment | rule | transient | root => cases hm

theorem eq_keyword_of_mem_literals (h : .keyword text ∈ step.literals) : step = .keyword text := by
  cases step with
  | keyword text' =>
    cases List.mem_singleton.mp h
    rfl
  | punctuation | bracePair => simp [DeclarationStep.literals] at h
  | caseSensitive | identifier | number | string | comment | rule | transient | root => cases h

/-- What a step has entered stays, if whether case matters is settled. -/
theorem entered_ofSteps (hclean : (ofSteps name steps).defect = none) (hcase : CaseSettled name steps)
    (hstep : step ∈ steps) (hm : m ∈ step.literals) : (ofSteps name steps).vocabulary.Entered m := by
  obtain ⟨before, after, rfl⟩ := List.append_of_mem hstep
  have hfold : ofSteps name (before ++ step :: after) =
      after.foldl take ((ofSteps name before).take step) := by
    rw [ofSteps, List.foldl_append]
    rfl
  have hclean' := hclean
  rw [hfold] at hclean'
  have htaken := (clean_steps after _ hclean').1
  have hentered := entered_take htaken hm
  cases m with
  | keyword text =>
    obtain rfl := eq_keyword_of_mem_literals hm
    obtain ⟨-, -, t, ht⟩ := defect_intern _ htaken
    exact ⟨t, keyword?_of_declared rfl hcase ht⟩
  | symbol text =>
    obtain ⟨t, ht⟩ := hentered
    rw [hfold]
    exact ⟨t, (becomes_steps _ after).retains.symbols text t ht⟩
  | ref name => trivial

/-! ## When case is settled -/

theorem caseSensitive_pairBraces (v : Vocabulary) (opening closing : TerminalId) :
    (v.pairBraces opening closing).caseSensitive = v.caseSensitive := rfl

theorem caseSensitive_bracePair (d : Declarations) (opening closing : String) :
    (d.bracePair opening closing).vocabulary.caseSensitive = d.vocabulary.caseSensitive := by
  have hboth : d.Enters ((d.symbol opening).symbol closing) :=
    (d.enters_internMention (.symbol opening)).trans (enters_internMention _ (.symbol closing))
  rw [← hboth.caseSensitive]
  simp only [bracePair]
  split
  · exact caseSensitive_pairBraces _ _ _
  · rfl

theorem caseSensitive_punctuation (d : Declarations) (text : String) :
    (d.punctuation text).vocabulary.caseSensitive = d.vocabulary.caseSensitive := by
  rw [← (d.enters_internMention (.symbol text)).caseSensitive]
  simp only [punctuation]
  split
  · next he =>
    rw [internMention, symbol, he]
    rfl
  · next he => rw [internMention, symbol, he]

/-- Only one kind of step says whether case matters. -/
theorem caseSensitive_take (h : ∀ on, step ≠ .caseSensitive on) :
    (d.take step).vocabulary.caseSensitive = d.vocabulary.caseSensitive := by
  cases step with
  | caseSensitive on => exact absurd rfl (h on)
  | identifier name | number name | string name | comment name =>
    exact (enters_intern (d.vocabulary.files_declareClass _ name)).caseSensitive
  | bracePair opening closing => exact caseSensitive_bracePair d opening closing
  | punctuation text => exact caseSensitive_punctuation d text
  | keyword text => exact (d.enters_internMention (.keyword text)).caseSensitive
  | rule name rule =>
    rw [take, Declarations.rule, declare]
    split
    · rfl
    · rfl
  | transient name rule =>
    rw [take, Declarations.transient, declare]
    split
    · rfl
    · rfl
  | root name => rfl

theorem caseSensitive_steps (steps : List DeclarationStep) (d : Declarations)
    (h : ∀ on, .caseSensitive on ∉ steps) :
    (steps.foldl take d).vocabulary.caseSensitive = d.vocabulary.caseSensitive := by
  induction steps generalizing d with
  | nil => rfl
  | cons step steps ih =>
    rw [List.foldl_cons, ih (d.take step) fun on hon => h on (List.mem_cons_of_mem _ hon)]
    exact caseSensitive_take fun on heq => h on (heq ▸ List.mem_cons_self)

/-- Whether case matters is settled if nothing is said about it behind a keyword. -/
theorem caseSettled_of_not_mem_after (h : ∀ before after text, steps = before ++ .keyword text :: after →
    ∀ on, .caseSensitive on ∉ after) : CaseSettled name steps := by
  intro before after text heq
  have hnone : ∀ on, .caseSensitive on ∉ DeclarationStep.keyword text :: after := by
    intro on hmem
    rcases List.mem_cons.mp hmem with hon | hmem
    · cases hon
    · exact h before after text heq on hmem
  rw [heq, ofSteps, ofSteps, List.foldl_append]
  exact (caseSensitive_steps _ _ hnone).symm

end Declarations

/-! ## References -/

namespace Lower

variable {rules : List RuleDeclaration} {s s' : Lowering} {v : Vocabulary}

theorem exists_namedSymbol_of_check {d : RuleDeclaration} {u : Unit}
    (h : checkReferences d s = .ok (u, s')) :
    ∀ name ∈ d.rule.references, ∃ x, namedSymbol? s name = some x := by
  obtain ⟨_, s₁, hmod, h⟩ := bind_ok.mp h
  obtain rfl := modify_ok.mp hmod
  obtain ⟨t, _, ht, h⟩ := bind_ok.mp h
  obtain ⟨rfl, rfl⟩ := get_ok.mp ht
  cases hfind : d.rule.references.find? fun name =>
      (namedSymbol? { s with rule := d.name } name).isNone with
  | some name =>
    rw [hfind] at h
    exact absurd h undefinedSymbol_ok
  | none =>
    intro name hname
    have hsome := List.find?_eq_none.mp hfind name hname
    rw [Bool.not_eq_true, Option.isNone_eq_false_iff] at hsome
    exact Option.isSome_iff_exists.mp hsome

theorem exists_namedSymbol_of_checkAll {u : PUnit} (h : rules.forM checkReferences s = .ok (u, s')) :
    ∀ d ∈ rules, ∀ name ∈ d.rule.references, ∃ x, namedSymbol? s name = some x := by
  induction rules generalizing s with
  | nil => exact fun _ hd => absurd hd List.not_mem_nil
  | cons d rules ih =>
    obtain ⟨_, s₁, hd, h⟩ := bind_ok.mp h
    have hfirst := exists_namedSymbol_of_check hd
    obtain rfl := checkReferences_ok hd
    have hrest := ih h
    exact List.forall_mem_cons.mpr ⟨hfirst, hrest⟩

/-- Where all rules are lowered, every name that they mention is known. -/
theorem known_of_all {root : String} {id : NonterminalId}
    (hnames : rules.Pairwise fun d e => d.name ≠ e.name)
    (h : all rules root (initial v) = .ok (id, s')) :
    ∀ d ∈ rules, ∀ name ∈ d.rule.references, (Rule.Mention.ref name).Known v rules := by
  obtain ⟨_, s₁, hdeclare, h⟩ := bind_ok.mp h
  have hdeclared : Declared v rules s₁ := (declared_initial v).forM hnames hdeclare
  obtain ⟨t, _, ht, h⟩ := bind_ok.mp h
  obtain ⟨rfl, rfl⟩ := get_ok.mp ht
  cases hroot : s₁.names[root]? with
  | none =>
    rw [hroot] at h
    exact absurd h undefinedSymbol_ok
  | some id' =>
    rw [hroot] at h
    obtain ⟨_, s₂, hcheck, -⟩ := bind_ok.mp h
    intro d hd name hname
    obtain ⟨x, hx⟩ := exists_namedSymbol_of_checkAll hcheck d hd name hname
    rw [namedSymbol?, hdeclared.vocabulary] at hx
    cases hn : s₁.names[name]? with
    | some n =>
      obtain ⟨i, e, hi, hename, -⟩ := (hdeclared.names name n).mp hn
      exact Or.inl ⟨e, List.mem_of_getElem? hi, hename⟩
    | none =>
      rw [hn] at hx
      obtain ⟨t, ht, -⟩ := Option.map_eq_some_iff.mp hx
      exact Or.inr ⟨t, ht⟩

end Lower

/-! ## Interning once -/

/-- Each literal has one terminal. Keywords are found by their key and symbols by their text, exactly where
one is registered, and all that rules mention is known. -/
structure Grammar.InternsOnce (g : Grammar) (steps : List DeclarationStep) : Prop where
  distinct : (g.vocabulary.terminals.toList.map (·.name)).Nodup
  names : ∀ (name : String) (t : TerminalId),
    g.vocabulary.names[name]? = some t ↔ g.vocabulary.nameAt? t = some name
  keyword_found : ∀ text, (∃ t, g.vocabulary.keyword? text = some t) ↔
    ∃ text', Declarations.Registers steps (.keyword text') ∧
      g.vocabulary.keywordKey text' = g.vocabulary.keywordKey text
  keyword_same : ∀ text text' t, g.vocabulary.keyword? text = some t →
    (g.vocabulary.keyword? text' = some t ↔
      g.vocabulary.keywordKey text' = g.vocabulary.keywordKey text)
  keyword_kind : ∀ text t, g.vocabulary.keyword? text = some t →
    g.vocabulary.kindOf? t = some .keyword
  symbol_found : ∀ text, (∃ t, g.vocabulary.symbol? text = some t) ↔
    Declarations.Registers steps (.symbol text)
  symbol_same : ∀ text text' t, g.vocabulary.symbol? text = some t →
    (g.vocabulary.symbol? text' = some t ↔ text' = text)
  symbol_kind : ∀ text t, g.vocabulary.symbol? text = some t →
    g.vocabulary.kindOf? t = some .symbol ∧ g.vocabulary.nameAt? t = some text
  rules : g.rules.toList = steps.filterMap DeclarationStep.declaration?
  known : ∀ r ∈ g.rules.toList, ∀ m ∈ r.rule.mentions, m.Known g.vocabulary g.rules.toList

namespace Declarations

variable {g : Grammar} {name : String} {steps : List DeclarationStep} {m : Rule.Mention}

/-- What a declared rule mentions is registered. -/
theorem registers_of_mem {r : RuleDeclaration} (hr : r ∈ steps.filterMap DeclarationStep.declaration?)
    (hm : m ∈ r.rule.mentions) : Registers steps m := by
  obtain ⟨step, hstep, hdeclares⟩ := List.mem_filterMap.mp hr
  exact .mentioned step r hstep hdeclares hm

/-- All that is registered has been entered. -/
theorem entered_of_registers (hbuild : (ofSteps name steps).build = .ok g)
    (hcase : CaseSettled name steps) (h : Registers steps m) : g.vocabulary.Entered m := by
  obtain ⟨d', hrules, hclean, hv, -, -⟩ := exists_entered_of_build hbuild
  obtain ⟨hclean, hgrows, hmentions⟩ := entered_of_internRules hrules hclean
  rw [hv]
  cases h with
  | declared step hstep hm => exact hgrows.entered (entered_ofSteps hclean hcase hstep hm)
  | mentioned step r hstep hr hm =>
    refine hmentions r ?_ m hm
    rw [rules_ofSteps hclean]
    exact List.mem_filterMap.mpr ⟨step, hstep, hr⟩

/-- Steps change the vocabulary by the literals that they declare. -/
theorem becomes_ofSteps {keys signs : String → Prop}
    (h : ∀ before step after, steps = before ++ step :: after →
      ∀ m ∈ step.literals, (ofSteps name before).Allows keys signs m) :
    Vocabulary.Becomes keys signs .initial (ofSteps name steps).vocabulary := by
  induction steps using List.reverseRecOn with
  | nil => exact .refl
  | append_singleton steps step ih =>
    rw [ofSteps, List.foldl_append]
    refine (ih fun before step' after heq => ?_).trans (becomes_take (h steps step [] rfl))
    exact h before step' (after ++ [step]) (by rw [heq, List.append_assoc, List.cons_append])

/-- Nothing is entered but what is registered. -/
theorem onlyFrom_of_build (hbuild : (ofSteps name steps).build = .ok g)
    (hcase : CaseSettled name steps) :
    g.vocabulary.OnlyFrom
      (fun key => ∃ text, Registers steps (.keyword text) ∧ g.vocabulary.keywordKey text = key)
      (fun text => Registers steps (.symbol text)) := by
  obtain ⟨d', hrules, hclean, hv, -, -⟩ := exists_entered_of_build hbuild
  obtain ⟨hclean, -, -⟩ := entered_of_internRules hrules hclean
  rw [hv]
  have hkey : ∀ text, d'.vocabulary.keywordKey text = (ofSteps name steps).vocabulary.keywordKey text := by
    intro text
    rw [Vocabulary.keywordKey, Vocabulary.keywordKey, (enters_internRules hrules).caseSensitive]
  refine ((becomes_ofSteps ?_).trans (becomes_internRules hrules ?_)).onlyFrom
    Vocabulary.onlyFrom_initial
  · intro before step after heq m hm
    have hregisters : Registers steps m := .declared step (by simp [heq]) hm
    cases m with
    | keyword text =>
      obtain rfl := eq_keyword_of_mem_literals hm
      refine ⟨text, hregisters, ?_⟩
      rw [hkey, Vocabulary.keywordKey, Vocabulary.keywordKey, hcase before after text heq]
    | symbol text => exact hregisters
    | ref name => trivial
  · intro r hr m hm
    rw [rules_ofSteps hclean] at hr
    have hregisters : Registers steps m := registers_of_mem hr hm
    cases m with
    | keyword text => exact ⟨text, hregisters, hkey text⟩
    | symbol text => exact hregisters
    | ref name => trivial

/-- **One literal, one terminal**, in every grammar that is built. -/
theorem interns_once (hbuild : (ofSteps name steps).build = .ok g) (hcase : CaseSettled name steps) :
    g.InternsOnce steps := by
  have hindexed := indexed_of_build hbuild
  have hfiled := filed_of_build hbuild
  have honly := onlyFrom_of_build hbuild hcase
  obtain ⟨d', hentered, hclean, hv, hrules, root, s, hall⟩ := exists_entered_of_build hbuild
  obtain ⟨hclean, -, -⟩ := entered_of_internRules hentered hclean
  have hdeclared := rules_ofSteps hclean
  refine ⟨hindexed.nodup, hindexed.names, fun text => ⟨?_, ?_⟩, fun text text' t ht => ⟨?_, ?_⟩,
    fun text t ht => hfiled.keywords _ t ht, fun text => ⟨?_, ?_⟩, fun text text' t ht => ⟨?_, ?_⟩,
    fun text t ht => ⟨hfiled.symbols text t ht, hindexed.symbols text t ht⟩, ?_, ?_⟩
  · rintro ⟨t, ht⟩
    exact honly.keywords _ t ht
  · rintro ⟨text', hregisters, hkey⟩
    obtain ⟨t, ht⟩ := entered_of_registers hbuild hcase hregisters
    rw [Vocabulary.keyword?, hkey] at ht
    exact ⟨t, ht⟩
  · intro ht'
    exact hindexed.keyword_unique _ _ t ht' ht
  · intro hkey
    rw [Vocabulary.keyword?, hkey]
    exact ht
  · rintro ⟨t, ht⟩
    exact honly.symbols text t ht
  · intro hregisters
    exact entered_of_registers hbuild hcase hregisters
  · intro ht'
    have hname := hindexed.symbols text' t ht'
    rw [hindexed.symbols text t ht] at hname
    exact (Option.some.inj hname).symm
  · rintro rfl
    exact ht
  · rw [hrules, hdeclared]
  · rw [hrules]
    intro r hr m hm
    cases m with
    | keyword text =>
      exact entered_of_registers hbuild hcase (registers_of_mem (hdeclared ▸ hr) hm)
    | symbol text =>
      exact entered_of_registers hbuild hcase (registers_of_mem (hdeclared ▸ hr) hm)
    | ref name =>
      rw [hv]
      exact Lower.known_of_all (distinctNames_ofSteps _ _) hall r hr name
        (List.mem_filterMap.mpr ⟨_, hm, rfl⟩)

/-- A grammar of calls, with a keyword in any case and a list of names in parentheses. -/
def callSteps : List DeclarationStep :=
  [.caseSensitive false, .identifier "ident", .bracePair "(" ")", .punctuation ",", .keyword "Call",
    .rule "s" (.seq [.keyword "cALL", .symbol "(", .plusSep (.ref "ident") (.symbol ","), .symbol ")"]),
    .root "s"]

theorem caseSettled_calls : CaseSettled "calls" callSteps := by
  refine caseSettled_of_not_mem_after fun before after text heq on hon => ?_
  cases before with
  | nil => cases heq
  | cons first before =>
    rw [callSteps, List.cons_append] at heq
    obtain ⟨-, hrest⟩ := List.cons.inj heq
    have hmem : .caseSensitive on ∈ before ++ .keyword text :: after :=
      List.mem_append_right _ (List.mem_cons_of_mem _ hon)
    rw [← hrest] at hmem
    simp at hmem

theorem interns_once_calls : ∃ g, (ofSteps "calls" callSteps).build = .ok g ∧
    CaseSettled "calls" callSteps ∧ g.InternsOnce callSteps ∧
      g.vocabulary.keyword? "CALL" = g.vocabulary.names["CALL"]? ∧ g.vocabulary.terminals.size = 7 := by
  have hseen : (ofSteps "calls" callSteps).seen? (fun g => some (g.vocabulary.keyword? "CALL",
      g.vocabulary.names["CALL"]?, g.vocabulary.terminals.size)) = some (some 6, some 6, 7) := by
    decide +kernel
  obtain ⟨g, hbuild, hseen⟩ := exists_seen hseen
  have hentries := Option.some.inj hseen
  simp only [Prod.mk.injEq] at hentries
  obtain ⟨hkeyword, hname, hsize⟩ := hentries
  exact ⟨g, hbuild, caseSettled_calls, interns_once hbuild caseSettled_calls, hkeyword.trans hname.symm,
    hsize⟩

end Declarations

end FourGL
