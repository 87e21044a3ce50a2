import FourGL.Proofs.Grammar.Filling
import FourGL.Proofs.Grammar.WellFormed

/-!
# What lowering comes to

**Theorem (`all_lowered`).** After lowering, the productions of every declared rule are those that the
rule demands, and the productions of every helper are those that some part with its look demands.
-/

namespace FourGL

namespace Lower

open Lowering (Tabled Grows)

variable {rules : List RuleDeclaration} {Part : Rule → Prop} {s s' : Lowering} {u : Unit}

/-! ## All rules -/

/-- A later state, in which some rules have what they demand, and the new nonterminals are helpers with
what some part demands. -/
structure Completes (rules : List RuleDeclaration) (Part : Rule → Prop) (ds : List RuleDeclaration)
    (s s' : Lowering) : Prop where
  table : (s.table rules).Extends (s'.table rules)
  rule : ∀ d ∈ ds, ∀ n, (s.table rules).IsRule d n → ∃ es,
    s'.entriesOf n = s.entriesOf n ++ es ∧ (s'.table rules).RuleDemands d n es
  rest : ∀ n < s.nonterminals.size, (∀ d ∈ ds, ¬ (s.table rules).IsRule d n) →
    s'.entriesOf n = s.entriesOf n
  fresh : ∀ n, s.nonterminals.size ≤ n → n < s'.nonterminals.size → ∃ r, Part r ∧
    r.isAtom = false ∧ (s'.table rules).IsHelper r.render n ∧
      (s'.table rules).Demands n r (s'.entriesOf n)

theorem isRule_lt {d : RuleDeclaration} {n : NonterminalId} (h : (s.table rules).IsRule d n) :
    n < s.nonterminals.size :=
  (Array.getElem?_eq_some_iff.mp h.2).1

/-- A nonterminal that was there stands for a rule in a later table only if it did before. -/
theorem isRule_of_extends {d : RuleDeclaration} {n : NonterminalId}
    (h : (s'.table rules).IsRule d n) (hext : (s.table rules).Extends (s'.table rules))
    (hlt : n < s.nonterminals.size) : (s.table rules).IsRule d n := by
  refine ⟨h.1, ?_⟩
  have hold : (s.table rules).nonterminals[n]? = some s.nonterminals[n] :=
    Array.getElem?_eq_getElem hlt
  rw [hold, ← hext.getElem? hold]
  exact h.2

theorem ne_of_isHelper_of_isRule {T : SymbolTable} {d : RuleDeclaration} {look : String}
    {n : NonterminalId} (hh : T.IsHelper look n) : ¬ T.IsRule d n := by
  rintro ⟨-, hn⟩
  rw [hh.2] at hn
  simp at hn

theorem allProductions_complete {ds : List RuleDeclaration} (hs : s.Tabled rules)
    (hsub : ∀ d ∈ ds, d ∈ rules) (hnames : ds.Pairwise fun d e => d.name ≠ e.name)
    (hparts : ∀ d ∈ ds, ∀ p ∈ d.rule.parts, Part p) {u : PUnit}
    (h : ds.forM ruleProductions s = .ok (u, s')) :
    s'.Tabled rules ∧ Completes rules Part ds s s' := by
  induction ds generalizing s with
  | nil =>
    obtain ⟨-, rfl⟩ := pure_ok.mp h
    refine ⟨hs, ⟨⟨rfl, rfl, List.prefix_rfl⟩, by simp, fun _ _ _ => rfl, fun n hle hlt => ?_⟩⟩
    exact absurd hlt (Nat.not_lt.mpr hle)
  | cons d ds ih =>
    obtain ⟨_, s₁, hd, h⟩ := bind_ok.mp h
    obtain ⟨hs₁, m, es, hm, hg, hdemands⟩ :=
      ruleProductions_grows hs (hsub d List.mem_cons_self) (hparts d List.mem_cons_self) hd
    obtain ⟨hs', hc⟩ := ih hs₁ (fun e he => hsub e (List.mem_cons_of_mem _ he))
      (List.pairwise_cons.mp hnames).2 (fun e he => hparts e (List.mem_cons_of_mem _ he)) h
    have hdiffer : ∀ e ∈ ds, ∀ n, (s.table rules).IsRule e n → n ≠ m := by
      rintro e he n hn rfl
      have hentry := Option.some.inj (hn.2.symm.trans hm.2)
      exact (List.pairwise_cons.mp hnames).1 e he (congrArg Nonterminal.name hentry).symm
    have htable : (s.table rules).Extends (s'.table rules) :=
      ⟨hc.table.vocabulary.trans hg.table.vocabulary, rfl,
        hg.table.nonterminals.trans hc.table.nonterminals⟩
    refine ⟨hs', htable, fun e he n hn => ?_, fun n hlt hno => ?_, fun n hle hlt => ?_⟩
    · rcases List.mem_cons.mp he with rfl | he
      · -- The rule's nonterminal is not touched again.
        have hsame : n = m := Option.some.inj
          ((hs.declared e n hn).symm.trans (hs.declared e m hm))
        subst hsame
        have hlt := isRule_lt hn
        refine ⟨es, ?_, hdemands.mono hc.table⟩
        rw [hc.rest n (hlt.trans_le hg.size_le) fun e' he' hn' => ?_, hg.old n hlt, if_pos rfl]
        exact hdiffer e' he' n (isRule_of_extends hn' hg.table hlt) rfl
      · obtain ⟨es', hes', hdemands'⟩ := hc.rule e he n (hn.mono hg.table)
        refine ⟨es', ?_, hdemands'⟩
        rw [hes', hg.old n (isRule_lt hn), if_neg (hdiffer e he n hn), List.append_nil]
    · rw [hc.rest n (hlt.trans_le hg.size_le) fun e he hn => ?_, hg.old n hlt, if_neg,
        List.append_nil]
      · rintro rfl
        exact hno d List.mem_cons_self hm
      · exact hno e (List.mem_cons_of_mem _ he) (isRule_of_extends hn hg.table hlt)
    · by_cases hn : n < s₁.nonterminals.size
      · obtain ⟨r, hr, hatom, hhelper, hr'⟩ := hg.fresh n hle hn
        refine ⟨r, hr, hatom, hhelper.mono hc.table, ?_⟩
        rw [hc.rest n hn fun e _ => ne_of_isHelper_of_isRule hhelper]
        exact hr'.mono hc.table
      · exact hc.fresh n (Nat.le_of_not_lt hn) hlt

/-! ## Declaring -/

/-- The state after some rules have been declared, and before any is lowered. -/
structure Declared (v : Vocabulary) (ds : List RuleDeclaration) (s : Lowering) : Prop where
  vocabulary : s.vocabulary = v
  nonterminals : s.nonterminals.toList =
    ⟨"$accept", false, true⟩ :: ds.map fun d => ⟨d.name, d.transient, false⟩
  helpers : ∀ look : String, s.helpers[look]? = none
  productions : s.productions = #[]
  names : ∀ (name : String) (n : NonterminalId), s.names[name]? = some n ↔
    ∃ i d, ds[i]? = some d ∧ d.name = name ∧ n = i + 1

theorem declared_initial (v : Vocabulary) : Declared v [] (initial v) :=
  ⟨rfl, rfl, fun _ => by simp [initial], rfl, fun _ _ => by simp [initial]⟩

theorem Declared.declare {v : Vocabulary} {ds : List RuleDeclaration} {d : RuleDeclaration}
    (hs : Declared v ds s) (hnew : ∀ e ∈ ds, e.name ≠ d.name)
    (h : declare d s = .ok (u, s')) : Declared v (ds ++ [d]) s' := by
  obtain ⟨id, s₁, hadd, h⟩ := bind_ok.mp h
  obtain ⟨rfl, rfl⟩ := addNonterminal_ok hadd
  obtain ⟨_, s₂, hmod, h⟩ := bind_ok.mp h
  obtain rfl := modify_ok.mp hmod
  obtain ⟨place, s₃, hplace, h⟩ := bind_ok.mp h
  obtain ⟨kinds, places, rfl⟩ := placeKind_ok hplace
  obtain ⟨-, rfl⟩ := pure_ok.mp h
  have hsize : s.nonterminals.size = ds.length + 1 := by
    rw [← Array.length_toList, hs.nonterminals, List.length_cons, List.length_map]
  refine ⟨hs.vocabulary, by simp [hs.nonterminals], hs.helpers, hs.productions,
    fun name n => ?_⟩
  simp only [Std.TreeMap.getElem?_insert, hsize]
  split
  · next hcase =>
    obtain rfl := Std.LawfulEqCmp.eq_of_compare hcase
    constructor
    · intro hn
      cases hn
      exact ⟨ds.length, d, by simp, rfl, rfl⟩
    · rintro ⟨i, e, hi, hname, rfl⟩
      rcases Nat.lt_or_ge i ds.length with hlt | hge
      · rw [List.getElem?_append_left hlt] at hi
        exact absurd hname (hnew e (List.mem_of_getElem? hi))
      · have hi' := (List.getElem?_eq_some_iff.mp hi).1
        rw [List.length_append, List.length_singleton] at hi'
        obtain rfl := Nat.le_antisymm (Nat.le_of_lt_succ hi') hge
        rfl
  · next hcase =>
    rw [hs.names]
    refine exists_congr fun i => exists_congr fun e => and_congr_left fun hname => ?_
    rw [List.getElem?_append]
    split
    · rfl
    · next hlt =>
      rw [List.getElem?_eq_none (Nat.le_of_not_lt hlt)]
      simp only [reduceCtorEq, false_iff]
      intro hi
      have he : e = d := by
        have := List.mem_of_getElem? hi
        simpa using this
      rw [← hname.1, he] at hcase
      exact hcase Std.ReflCmp.compare_self

theorem Declared.forM {v : Vocabulary} {ds es : List RuleDeclaration} {u : PUnit}
    (hs : Declared v ds s) (hnames : (ds ++ es).Pairwise fun d e => d.name ≠ e.name)
    (h : es.forM Lower.declare s = .ok (u, s')) : Declared v (ds ++ es) s' := by
  induction es generalizing ds s with
  | nil =>
    obtain ⟨-, rfl⟩ := pure_ok.mp h
    simpa using hs
  | cons e es ih =>
    obtain ⟨_, s₁, he, h⟩ := bind_ok.mp h
    have hnew : ∀ d ∈ ds, d.name ≠ e.name := fun d hd =>
      (List.pairwise_append.mp hnames).2.2 d hd e List.mem_cons_self
    rw [List.append_cons] at hnames ⊢
    exact ih (hs.declare hnew he) hnames h

/-- The tables are in order once all rules have been declared. -/
theorem Declared.tabled {v : Vocabulary} (hs : Declared v rules s) : s.Tabled rules := by
  have hentry : ∀ n, s.nonterminals[n + 1]? =
      rules[n]?.map fun d => ⟨d.name, d.transient, false⟩ := fun n => by
    rw [← Array.getElem?_toList, hs.nonterminals, List.getElem?_cons_succ, List.getElem?_map]
  have hstart : s.nonterminals[Grammar.start]? = some ⟨"$accept", false, true⟩ := by
    rw [← Array.getElem?_toList, hs.nonterminals]
    rfl
  have hrule : ∀ {n d}, rules[n]? = some d → (s.table rules).IsRule d (n + 1) := fun {n d} hn =>
    ⟨List.mem_of_getElem? hn, by
      show s.nonterminals[n + 1]? = _
      rw [hentry, hn]
      rfl⟩
  refine ⟨hstart, by simp [hs.productions], fun d hd => ?_, fun d n hn => ?_, fun name n hn => ?_,
    fun look n => ?_, fun n hne hlt => ?_⟩
  · obtain ⟨i, hi⟩ := List.mem_iff_getElem?.mp hd
    exact ⟨i + 1, hrule hi⟩
  · have hentryn : s.nonterminals[n]? = some ⟨d.name, d.transient, false⟩ := hn.2
    cases n with
    | zero =>
      simpa using hstart.symm.trans hentryn
    | succ n =>
      rw [hentry] at hentryn
      obtain ⟨e, he, heq⟩ := Option.map_eq_some_iff.mp hentryn
      exact (hs.names d.name _).mpr ⟨n, e, he, congrArg Nonterminal.name heq, rfl⟩
  · obtain ⟨i, d, hi, hname, -⟩ := (hs.names name n).mp hn
    exact Or.inl ⟨d, List.mem_of_getElem? hi, hname⟩
  · rw [hs.helpers]
    simp only [reduceCtorEq, false_iff]
    rintro ⟨hne, hn⟩
    have hentryn : s.nonterminals[n]? = some ⟨look, false, true⟩ := hn
    cases n with
    | zero => exact hne rfl
    | succ n =>
      rw [hentry] at hentryn
      obtain ⟨e, -, heq⟩ := Option.map_eq_some_iff.mp hentryn
      simp at heq
  · cases n with
    | zero => exact absurd rfl hne
    | succ n =>
      have hget := hentry n
      rw [Array.getElem?_eq_getElem hlt] at hget
      obtain ⟨d, hd, -⟩ := Option.map_eq_some_iff.mp hget.symm
      exact Or.inl ⟨d, hrule hd⟩

/-- A helper is none of the nonterminals that were there when all rules had been declared. -/
theorem Declared.not_isHelper {v : Vocabulary} {look : String} {n : NonterminalId}
    (hs : Declared v rules s) : ¬ (s.table rules).IsHelper look n := fun hn => by
  have hhelper := (hs.tabled.helpers look n).mpr hn
  rw [hs.helpers] at hhelper
  cases hhelper

/-- **Lowering.** Every declared rule has the productions that it demands, and every helper those that
some part with its look demands. -/
theorem all_lowered {v : Vocabulary} {root : String} {id : NonterminalId}
    (hnames : rules.Pairwise fun d e => d.name ≠ e.name)
    (hparts : ∀ d ∈ rules, ∀ p ∈ d.rule.parts, Part p)
    (h : all rules root (initial v) = .ok (id, s')) :
    s'.Tabled rules ∧ s'.vocabulary = v ∧
      (∃ d, d.name = root ∧ (s'.table rules).IsRule d id) ∧
      s'.entriesOf Grammar.start = [([.nonterminal id], .accept)] ∧
      (∀ d n, (s'.table rules).IsRule d n → (s'.table rules).RuleDemands d n (s'.entriesOf n)) ∧
      ∀ look n, (s'.table rules).IsHelper look n → ∃ r, Part r ∧ r.isAtom = false ∧
        r.render = look ∧ (s'.table rules).Demands n r (s'.entriesOf n) := by
  obtain ⟨_, s₁, hdeclare, h⟩ := bind_ok.mp h
  have hdeclared : Declared v rules s₁ := (declared_initial v).forM hnames hdeclare
  obtain ⟨t, _, ht, h⟩ := bind_ok.mp h
  obtain ⟨rfl, rfl⟩ := get_ok.mp ht
  cases hroot : s₁.names[root]? with
  | none =>
    rw [hroot] at h
    exact absurd h undefinedSymbol_ok
  | some id' =>
    rw [hroot] at h
    obtain ⟨_, s₂, hcheck, h⟩ := bind_ok.mp h
    obtain ⟨name, rfl⟩ := checkAllReferences_ok hcheck
    obtain ⟨_, s₃, hprod, h⟩ := bind_ok.mp h
    obtain ⟨_, s₄, hall, h⟩ := bind_ok.mp h
    obtain ⟨rfl, rfl⟩ := pure_ok.mp h
    have hs₁ : s₁.Tabled rules := hdeclared.tabled
    have hs₂ : Tabled rules { s₁ with rule := name } := hs₁.congr rfl rfl rfl rfl hs₁.lefts
    obtain ⟨hs₃, hg⟩ : s₃.Tabled rules ∧ Grows rules Part Grammar.start _ _ s₃ :=
      grows_produce hs₂ hs₁.pos hprod
    obtain ⟨hs', hc⟩ := allProductions_complete hs₃ (fun _ hd => hd) hnames hparts hall
    have hsame : s₃.nonterminals = s₁.nonterminals := by rw [← modify_ok.mp hprod]
    -- At first there is nothing but the production of the start symbol.
    have hbefore : ∀ n < s₁.nonterminals.size, s₃.entriesOf n =
        if n = Grammar.start then [([.nonterminal id'], .accept)] else [] := fun n hn => by
      rw [hg.old n hn, Lowering.entriesOf, hdeclared.productions]
      rfl
    have hext : (s₁.table rules).Extends (s₄.table rules) :=
      ⟨hc.table.vocabulary.trans hg.table.vocabulary, rfl,
        hg.table.nonterminals.trans hc.table.nonterminals⟩
    have hstart : ∀ d, ¬ (s₃.table rules).IsRule d Grammar.start := fun d hd => by
      simpa using hd.2.symm.trans hs₃.start
    refine ⟨hs', hext.vocabulary.trans hdeclared.vocabulary, ?_, ?_, fun d n hn => ?_,
      fun look n hn => ?_⟩
    · rcases hs₁.names root id' hroot with ⟨d, hd, rfl⟩ | hhelper
      · obtain ⟨n, hn⟩ := hs₁.exists_rule d hd
        have heq := (hs₁.declared d n hn).symm.trans hroot
        exact ⟨d, rfl, Option.some.inj heq ▸ hn.mono hext⟩
      · exact absurd hhelper hdeclared.not_isHelper
    · rw [hc.rest Grammar.start hs₃.pos fun d _ => hstart d, hbefore Grammar.start hs₁.pos,
        if_pos rfl]
    · obtain ⟨m, hm⟩ := hs₁.exists_rule d hn.1
      have hsame : n = m := Option.some.inj
        ((hs'.declared d n hn).symm.trans (hs'.declared d m (hm.mono hext)))
      subst hsame
      obtain ⟨es, hes, hdemands⟩ := hc.rule d hn.1 n (hm.mono hg.table)
      have hne : n ≠ Grammar.start := by
        rintro rfl
        exact hstart d (hm.mono hg.table)
      rw [hes, hbefore n (isRule_lt hm), if_neg hne, List.nil_append]
      exact hdemands
    · have hge : s₃.nonterminals.size ≤ n := by
        by_contra hlt
        rw [hsame] at hlt
        rcases hs₁.cover n hn.1 (Nat.lt_of_not_le hlt) with ⟨d, hd⟩ | ⟨look', hh⟩
        · exact ne_of_isHelper_of_isRule hn (hd.mono hext)
        · exact hdeclared.not_isHelper hh
      have hlt : n < s₄.nonterminals.size := (Array.getElem?_eq_some_iff.mp hn.2).1
      obtain ⟨r, hr, hatom, hhelper, hdemands⟩ := hc.fresh n hge hlt
      have hlook := Option.some.inj (hhelper.2.symm.trans hn.2)
      exact ⟨r, hr, hatom, congrArg Nonterminal.name hlook, hdemands⟩

end Lower

/-! ## Assembled grammars -/

namespace Declarations

variable {d d' : Declarations}

/-- No rule has the name of another. -/
def DistinctNames (rules : List RuleDeclaration) : Prop := rules.Pairwise fun d e => d.name ≠ e.name

theorem rules_intern (d : Declarations) (attempt : Vocabulary → Vocabulary.Attempt) :
    (d.intern attempt).1.rules = d.rules := by
  simp only [intern]
  split
  · rfl
  · rfl

theorem rules_bracePair (d : Declarations) (opening closing : String) :
    (d.bracePair opening closing).rules = d.rules := by
  have hopening := rules_intern d (·.internSymbol opening)
  have hclosing := rules_intern (d.intern (·.internSymbol opening)).1 (·.internSymbol closing)
  simp only [bracePair]
  split
  · exact hclosing.trans hopening
  · exact hclosing.trans hopening

theorem rules_punctuation (d : Declarations) (text : String) :
    (d.punctuation text).rules = d.rules := by
  have hrules := rules_intern d (·.internSymbol text)
  simp only [punctuation]
  split
  · next h =>
    rw [h] at hrules
    exact hrules
  · next h =>
    rw [h] at hrules
    exact hrules

theorem distinctNames_declare (h : DistinctNames d.rules.toList) (r : RuleDeclaration) :
    DistinctNames (d.declare r).rules.toList := by
  rw [declare]
  split
  · exact h
  · next hnew =>
    rw [Array.toList_push]
    refine List.pairwise_append.mpr ⟨h, List.pairwise_singleton _ _, fun e he e' he' heq => ?_⟩
    rw [List.mem_singleton.mp he'] at heq
    refine hnew (Array.any_eq_true'.mpr ⟨e, Array.mem_toList_iff.mp he, ?_⟩)
    simpa using heq

theorem distinctNames_take (h : DistinctNames d.rules.toList) (step : DeclarationStep) :
    DistinctNames (d.take step).rules.toList := by
  cases step with
  | caseSensitive on => exact h
  | identifier name | number name | string name | comment name =>
    rw [take, tokenClass, rules_intern]
    exact h
  | keyword text =>
    rw [take, keyword, rules_intern]
    exact h
  | bracePair opening closing =>
    rw [take, rules_bracePair]
    exact h
  | punctuation text =>
    rw [take, rules_punctuation]
    exact h
  | rule name rule | transient name rule => exact distinctNames_declare h _
  | root name => exact h

/-- Declared rules have different names. -/
theorem distinctNames_ofSteps (name : String) (steps : List DeclarationStep) :
    DistinctNames (ofSteps name steps).rules.toList := by
  have hall : ∀ d : Declarations, DistinctNames d.rules.toList →
      DistinctNames (steps.foldl take d).rules.toList := by
    induction steps with
    | nil => exact fun _ hd => hd
    | cons step steps ih => exact fun d hd => ih _ (distinctNames_take hd step)
  exact hall _ List.Pairwise.nil

theorem rules_internMentions (ms : List Rule.Mention) (d : Declarations) :
    (ms.foldl internMention d).rules = d.rules := by
  induction ms generalizing d with
  | nil => rfl
  | cons m ms ih =>
    rw [List.foldl_cons, ih]
    cases m with
    | keyword text => rw [internMention, keyword, rules_intern]
    | symbol text => rw [internMention, symbol, rules_intern]
    | ref name => rfl

theorem rules_internRules {rules : List RuleDeclaration} (h : rules.foldlM internRule d = .ok d') :
    d'.rules = d.rules := by
  induction rules generalizing d with
  | nil =>
    cases h
    rfl
  | cons r rules ih =>
    obtain ⟨d₁, hr, h⟩ := except_bind_ok.mp h
    simp only [internRule] at hr
    split at hr
    · cases hr
    · cases hr
      rw [ih h, rules_internMentions]

/-- What a grammar is assembled from: the vocabulary with all literals of the rules, and the outcome of
lowering them. -/
theorem assemble_ok {g : Grammar} (h : d.assemble = .ok g) :
    ∃ d' root s, d.root = some root ∧ d.rules.toList.foldlM internRule d = .ok d' ∧
      g.vocabulary = d'.vocabulary ∧ g.rules = d.rules ∧ g.nonterminals = s.nonterminals ∧
      g.nonterminalNames = s.names ∧ g.productions = s.productions ∧
      Lower.all d.rules.toList root (Lower.initial d'.vocabulary) = .ok (g.root, s) := by
  simp only [assemble] at h
  split at h
  · next root hroot =>
    obtain ⟨_, hcheck, h⟩ := except_bind_ok.mp h
    obtain ⟨d', hrules, h⟩ := except_bind_ok.mp h
    obtain ⟨_, hcheck', h⟩ := except_bind_ok.mp h
    obtain ⟨⟨id, s⟩, hall, h⟩ := except_bind_ok.mp h
    cases h
    rw [← Array.foldlM_toList] at hrules
    have hsame := rules_internRules hrules
    rw [hsame] at hall
    exact ⟨d', root, s, hroot, hrules, rfl, hsame, rfl, rfl, rfl, hall⟩
  · cases h

/-- Declarations that come to given nonterminals and productions build a grammar, if the checks pass. -/
theorem exists_build (nonterminals : List Nonterminal) (productions : List Production)
    (test : Grammar → Bool) (h : (d.assemble.toOption.any fun g =>
      g.nonterminals.toList == nonterminals && g.productions.toList == productions && test g) = true)
    (hproductive : firstUnproductive nonterminals.length productions = none)
    (hreachable : firstUnreachable nonterminals.length productions = none) :
    ∃ g, d.build = .ok g ∧ g.rules = d.rules ∧ g.nonterminals.toList = nonterminals ∧
      g.productions.toList = productions ∧ test g = true := by
  cases hg : d.assemble with
  | error e =>
    rw [hg] at h
    cases h
  | ok g =>
    rw [hg] at h
    simp only [Except.toOption, Option.any_some, Bool.and_eq_true, beq_iff_eq] at h
    obtain ⟨⟨hn, hp⟩, htest⟩ := h
    have hsize : g.nonterminals.size = nonterminals.length := by rw [← hn, Array.length_toList]
    obtain ⟨_, _, _, -, -, -, hrules, -⟩ := assemble_ok hg
    refine ⟨g, build_eq_ok hg (checkNonterminals_eq_ok ?_ ?_), hrules, hn, hp, htest⟩
    · rwa [hsize, hp]
    · rwa [hsize, hp]

end Declarations

namespace Grammar

/-- The tables of a grammar. -/
def table (g : Grammar) : SymbolTable := ⟨g.vocabulary, g.rules.toList, g.nonterminals⟩

/-- The right-hand sides and actions of a nonterminal. -/
def entriesOf (g : Grammar) (n : NonterminalId) : List Entry := entriesIn g.productions.toList n

/-- The rule is part of one that is declared. -/
def IsPart (rules : List RuleDeclaration) (p : Rule) : Prop := ∃ d ∈ rules, p ∈ d.rule.parts

/-- A helper may stand for the part, which is no literal and not the name of a declared rule. -/
def TakesHelper (rules : List RuleDeclaration) (p : Rule) : Prop :=
  IsPart rules p ∧ (p.isAtom = false ∨ ∃ name, p = .ref name ∧ ¬ ∃ d ∈ rules, d.name = name)

theorem isPart_of_mem {rules : List RuleDeclaration} :
    ∀ d ∈ rules, ∀ p ∈ d.rule.parts, IsPart rules p := fun d hd _ hp => ⟨d, hd, hp⟩

/-- The productions are those which the declared rules and their parts demand. -/
structure Lowered (g : Grammar) : Prop where
  distinct : Declarations.DistinctNames g.rules.toList
  accept : g.nonterminals[Grammar.start]? = some ⟨"$accept", false, true⟩
  left : ∀ p < g.productions.size, (g.production p).left < g.nonterminals.size
  exists_rule : ∀ d ∈ g.rules.toList, ∃ n, g.table.IsRule d n
  declared : ∀ d n, g.table.IsRule d n → g.nonterminal? d.name = some n
  unique : ∀ look n m, g.table.IsHelper look n → g.table.IsHelper look m → n = m
  cover : ∀ n, n ≠ start → n < g.nonterminals.size →
    (∃ d, g.table.IsRule d n) ∨ ∃ look, g.table.IsHelper look n
  first : g.entriesOf start = [([.nonterminal g.root], .accept)]
  rule : ∀ d n, g.table.IsRule d n → g.table.RuleDemands d n (g.entriesOf n)
  helper : ∀ look n, g.table.IsHelper look n → ∃ r, IsPart g.rules.toList r ∧ r.isAtom = false ∧
    r.render = look ∧ g.table.Demands n r (g.entriesOf n)

variable {g : Grammar} {d e : RuleDeclaration} {n : NonterminalId} {look : String}

theorem mem_entriesOf {entry : Entry} : entry ∈ g.entriesOf n ↔
    ∃ p < g.productions.size, g.production p = ⟨n, entry.1, entry.2⟩ := by
  rw [entriesOf, entriesIn, List.mem_map]
  constructor
  · rintro ⟨production, hmem, rfl⟩
    obtain ⟨hmem, hleft⟩ := List.mem_filter.mp hmem
    obtain ⟨p, hp, rfl⟩ := exists_production hmem
    exact ⟨p, hp, by rw [← of_decide_eq_true hleft]⟩
  · rintro ⟨p, hp, heq⟩
    refine ⟨g.production p, List.mem_filter.mpr ⟨?_, ?_⟩, ?_⟩
    · rw [production_eq_getElem hp]
      exact Array.mem_toList_iff.mpr (Array.getElem_mem hp)
    · rw [heq]
      exact decide_eq_true rfl
    · rw [heq]

theorem production_mem_entriesOf {p : ProductionId} (hp : p < g.productions.size) :
    ((g.production p).right, (g.production p).action) ∈ g.entriesOf (g.production p).left :=
  mem_entriesOf.mpr ⟨p, hp, rfl⟩

/-- A declared rule has one nonterminal. -/
theorem Lowered.rule_unique (h : g.Lowered) {m : NonterminalId} (hn : g.table.IsRule d n)
    (hm : g.table.IsRule d m) : n = m :=
  Option.some.inj ((h.declared d n hn).symm.trans (h.declared d m hm))

/-- A name has one declared rule. -/
theorem Lowered.eq_of_name_eq (h : g.Lowered) (hd : d ∈ g.rules.toList) (he : e ∈ g.rules.toList)
    (hname : d.name = e.name) : d = e := by
  have : Std.Symm fun d e : RuleDeclaration => d.name ≠ e.name := ⟨fun _ _ hne => hne.symm⟩
  by_contra hne
  exact List.Pairwise.forall h.distinct hd he hne hname

/-- A nonterminal stands for one declared rule. -/
theorem Lowered.rule_eq (h : g.Lowered) (hd : g.table.IsRule d n) (he : g.table.IsRule e n) :
    d = e :=
  h.eq_of_name_eq hd.1 he.1 (congrArg Nonterminal.name (Option.some.inj (hd.2.symm.trans he.2)))

/-- **Assembled grammars have the productions demanded.** -/
theorem lowered_of_assemble {d : Declarations}
    (hnames : Declarations.DistinctNames d.rules.toList) (h : d.assemble = .ok g) :
    g.Lowered ∧ ∃ e, d.root = some e.name ∧ g.table.IsRule e g.root := by
  obtain ⟨d', root, s, hroot, -, hv, hrules, hnonterminals, hnonterminalNames, hproductions, hall⟩ :=
    Declarations.assemble_ok h
  obtain ⟨hs, hvocabulary, ⟨e, rfl, he⟩, hstart, hrule, hhelper⟩ :=
    Lower.all_lowered hnames isPart_of_mem hall
  have htable : g.table = s.table d.rules.toList := by
    rw [table, Lowering.table, hv, hrules, hnonterminals, hvocabulary]
  have hentries : ∀ n, g.entriesOf n = s.entriesOf n := fun n => by
    rw [entriesOf, Lowering.entriesOf, hproductions]
  refine ⟨?_, e, hroot, htable ▸ he⟩
  constructor
  · rw [hrules]
    exact hnames
  · rw [hnonterminals]
    exact hs.start
  · intro p hp
    rw [production_eq_getElem hp, hnonterminals]
    exact hs.lefts _ (hproductions ▸ Array.getElem_mem hp)
  · rw [htable, hrules]
    exact hs.exists_rule
  · rw [htable]
    intro d n hn
    rw [nonterminal?, hnonterminalNames]
    exact hs.declared d n hn
  · rw [htable]
    intro look n m hn hm
    exact Option.some.inj (((hs.helpers look n).mpr hn).symm.trans ((hs.helpers look m).mpr hm))
  · rw [htable, hnonterminals]
    exact hs.cover
  · rw [hentries]
    exact hstart
  · intro d n
    rw [htable, hentries]
    exact hrule d n
  · intro look n
    rw [htable, hentries, hrules]
    exact hhelper look n

/-- Built grammars are assembled. -/
theorem lowered_of_isBuilt (h : g.IsBuilt) : g.Lowered := by
  obtain ⟨name, steps, hbuild⟩ := h
  obtain ⟨g', hg', h⟩ := Declarations.except_bind_ok.mp hbuild
  obtain ⟨_, -, h⟩ := Declarations.except_bind_ok.mp h
  cases h
  exact (lowered_of_assemble (Declarations.distinctNames_ofSteps name steps) hg').1

end Grammar

end FourGL
