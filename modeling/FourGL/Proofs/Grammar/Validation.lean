import FourGL.Proofs.Grammar.Failures
import FourGL.Proofs.Grammar.Reachability

/-!
# Exact validation

Building a grammar ends with two checks of its productions: that every nonterminal derives some text, and
that every nonterminal can be reached.

**Theorem (`validated`).** Where parts that look the same are alike, a declaration without other defects
builds exactly if the root refers to every rule and everything that a rule consists of has some word.
Otherwise it is refused by one of the two checks.

**Theorem (`exists_refused`).** A repeated sequence of one choice looks like the choice. Its helper is
then its own only production, and the grammar is refused although every part of it has words.
-/

namespace FourGL

/-! ## What the checks find -/

theorem Marks.firstUnmarked_eq_none_iff {marks : Marks} {start : Nat} :
    marks.firstUnmarked start = none ↔ ∀ i, start ≤ i → i < marks.size → marks.has i = true := by
  refine ⟨fun h i => has_of_firstUnmarked_eq_none h, fun h => ?_⟩
  refine List.find?_eq_none.mpr fun i hi => ?_
  obtain ⟨hle, hlt⟩ := List.mem_range'_1.mp hi
  simp [h i hle (by omega)]

/-- A check refuses nonterminals for nothing else. -/
def GrammarError.IsVerdict (e : GrammarError) : Prop :=
  (∃ name, e = .unproductive name) ∨ ∃ name, e = .unreachable name

theorem isVerdict_of_check {nonterminals : Array Nonterminal} {productions : List Production}
    {e : GrammarError} (h : checkNonterminals nonterminals productions = .error e) : e.IsVerdict := by
  simp only [checkNonterminals] at h
  split at h
  · cases h
    exact Or.inl ⟨_, rfl⟩
  · split at h
    · cases h
      exact Or.inr ⟨_, rfl⟩
    · cases h

theorem check_eq_ok_iff {nonterminals : Array Nonterminal} {productions : List Production} :
    checkNonterminals nonterminals productions = .ok () ↔
      firstUnproductive nonterminals.size productions = none ∧
        firstUnreachable nonterminals.size productions = none := by
  simp only [checkNonterminals]
  split
  · next h => simp [h]
  · next h =>
    split
    · next h' => simp [h, h']
    · next h' => simp [h, h']

namespace Grammar

variable {g : Grammar} {d e : RuleDeclaration} {m n : NonterminalId} {p q : Rule} {x : Symbol}
  {β : List Symbol} {w : List TerminalId} {k : Nat}

/-- The clauses of productivity mark what yields some word. -/
theorem derivable_of_yields (h : g.Yields β w k) : ∀ n ∈ β.filterMap Symbol.nonterminal?,
    Derivable (g.productions.toList.map Production.productiveClause) n := by
  induction h with
  | nil => simp
  | terminal _ ih => exact ih
  | @nonterminal p l β u w _ _ hp hl _ _ ihu ihw =>
    refine List.forall_mem_cons.mpr ⟨?_, ihw⟩
    have hclause : (g.production p).productiveClause ∈
        g.productions.toList.map Production.productiveClause := by
      refine List.mem_map_of_mem ?_
      rw [production_eq_getElem hp]
      exact Array.mem_toList_iff.mpr (Array.getElem_mem hp)
    rw [← hl]
    exact .clause hclause ihu

theorem derivable_productive_iff :
    Derivable (g.productions.toList.map Production.productiveClause) n ↔
      ∃ w, w ∈ g.languageOf n := by
  constructor
  · intro h
    obtain ⟨w, k, hw⟩ := yields_of_derivable h
    exact ⟨w, mem_languageOf.mpr ⟨k, hw⟩⟩
  · rintro ⟨w, hw⟩
    obtain ⟨k, hk⟩ := mem_languageOf.mp hw
    exact derivable_of_yields hk n List.mem_cons_self

theorem leads_iff : g.Leads m n ↔
    ∃ p < g.productions.size, (g.production p).left = m ∧ n ∈ (g.production p).nonterminals := by
  rw [Leads, List.mem_flatMap]
  constructor
  · rintro ⟨entry, hentry, hn⟩
    obtain ⟨p, hp, heq⟩ := mem_entriesOf.mp hentry
    refine ⟨p, hp, by rw [heq], ?_⟩
    rw [heq]
    exact List.mem_filterMap.mpr ⟨_, hn, rfl⟩
  · rintro ⟨p, hp, rfl, hn⟩
    obtain ⟨x, hx, heq⟩ := List.mem_filterMap.mp hn
    refine ⟨_, production_mem_entriesOf hp, ?_⟩
    cases x with
    | terminal t => cases heq
    | nonterminal n' =>
      cases heq
      exact hx

/-- The clauses of reachability mark what is reached. -/
theorem derivable_reachable_iff :
    Derivable (⟨start, []⟩ :: g.productions.toList.flatMap Production.reachableClauses) n ↔
      g.Accessible (.nonterminal n) := by
  constructor
  · intro h
    induction h with
    | @clause c hc _ ih =>
      rcases List.mem_cons.mp hc with rfl | hc
      · exact Relation.ReflTransGen.refl
      · obtain ⟨production, hmem, hc⟩ := List.mem_flatMap.mp hc
        obtain ⟨p, hp, rfl⟩ := exists_production hmem
        obtain ⟨m, hm, rfl⟩ := List.mem_map.mp hc
        have hleft := ih (g.production p).left List.mem_cons_self
        exact Relation.ReflTransGen.tail hleft (leads_iff.mpr ⟨p, hp, rfl, hm⟩)
  · intro (h : Relation.ReflTransGen g.Leads start n)
    induction h with
    | refl => exact .clause List.mem_cons_self (by simp)
    | @tail m n _ hleads ih =>
      obtain ⟨p, hp, rfl, hn⟩ := leads_iff.mp hleads
      refine .clause (c := ⟨n, [(g.production p).left]⟩) ?_ (List.forall_mem_singleton.mpr ih)
      refine List.mem_cons_of_mem _ (List.mem_flatMap.mpr ⟨g.production p, ?_, ?_⟩)
      · rw [production_eq_getElem hp]
        exact Array.mem_toList_iff.mpr (Array.getElem_mem hp)
      · exact List.mem_map_of_mem hn

/-! ## What stands for a part -/

theorem Lowered.lt_of_stands (h : g.Lowered) (hs : g.table.Stands p (.nonterminal n)) :
    n ≠ start ∧ n < g.nonterminals.size := by
  cases hs with
  | rule hr =>
    refine ⟨?_, (Array.getElem?_eq_some_iff.mp hr.2).1⟩
    rintro rfl
    exact h.not_isRule_start hr
  | shadow _ hh | helper _ hh => exact ⟨hh.1, (Array.getElem?_eq_some_iff.mp hh.2).1⟩

theorem Lowered.lt_of_leads (h : g.Lowered) (hroot : g.table.IsRule e g.root)
    (hleads : g.Leads m n) : n < g.nonterminals.size := by
  obtain ⟨p, hp, hleft, -⟩ := leads_iff.mp hleads
  have hm : m < g.nonterminals.size := hleft ▸ h.left p hp
  by_cases hstart : m = start
  · rw [hstart, Leads, h.first] at hleads
    rw [Symbol.nonterminal.inj (List.mem_singleton.mp hleads)]
    exact (Array.getElem?_eq_some_iff.mp hroot.2).1
  · have hspells : ∃ ps, g.table.Spells m ps ((g.entriesOf m).flatMap Prod.fst) := by
      rcases h.cover m hstart hm with ⟨d, hd⟩ | ⟨look, hh⟩
      · exact ⟨_, (h.rule d m hd).spells⟩
      · obtain ⟨r, -, -, -, hdemands⟩ := h.helper look m hh
        exact ⟨_, hdemands.spells⟩
    obtain ⟨ps, hspells⟩ := hspells
    rcases hspells.stands _ hleads with heq | ⟨q, -, hs⟩
    · rwa [Symbol.nonterminal.inj heq]
    · exact (h.lt_of_stands hs).2

/-- The checks, in terms of derivations. -/
theorem Lowered.check_iff (h : g.Lowered) (hroot : g.table.IsRule e g.root) :
    checkNonterminals g.nonterminals g.productions.toList = .ok () ↔
      (∀ n, n ≠ start → n < g.nonterminals.size → ∃ w, w ∈ g.languageOf n) ∧
        ∀ n < g.nonterminals.size, g.Accessible (.nonterminal n) := by
  rw [check_eq_ok_iff]
  refine and_congr ?_ ?_
  · rw [firstUnproductive, Marks.firstUnmarked_eq_none_iff, productiveMarks, Marks.size_close]
    refine forall_congr' fun n => ?_
    rw [Nat.one_le_iff_ne_zero, Marks.has_close_iff, derivable_productive_iff]
    · rfl
    · intro c hc
      obtain ⟨production, hmem, rfl⟩ := List.mem_map.mp hc
      obtain ⟨p, hp, rfl⟩ := exists_production hmem
      exact h.left p hp
  · rw [firstUnreachable, Marks.firstUnmarked_eq_none_iff, reachableMarks, Marks.size_close]
    refine forall_congr' fun n => ?_
    rw [Marks.has_close_iff, derivable_reachable_iff]
    · simp
    · intro c hc
      rcases List.mem_cons.mp hc with rfl | hc
      · exact (Array.getElem?_eq_some_iff.mp h.accept).1
      · obtain ⟨production, hmem, hc⟩ := List.mem_flatMap.mp hc
        obtain ⟨p, hp, rfl⟩ := exists_production hmem
        obtain ⟨n, hn, rfl⟩ := List.mem_map.mp hc
        exact h.lt_of_leads hroot (leads_iff.mpr ⟨p, hp, rfl, hn⟩)

/-! ## Productive nonterminals -/

theorem isSpliced_of_wraps (h : p.Wraps q) : p.isSpliced = true ∧ q.isSpliced = false := by
  induction h with
  | item hspliced _ => exact ⟨rfl, hspliced⟩
  | seq _ ih => exact ⟨rfl, ih.2⟩

/-- A wrapper is not alike to what it wraps. -/
theorem LooksAlike.unlooped (halike : LooksAlike g.vocabulary g.rules.toList) : g.Unlooped := by
  intro n p q action hp hh hwraps hs _
  obtain ⟨hspliced, hspliced'⟩ := isSpliced_of_wraps hwraps
  have hq : IsPart g.rules.toList q := hp.of_mem_inner hwraps.mem_inner
  have htakes : TakesHelper g.rules.toList q := by
    cases hs with
    | rule hr => exact absurd hr (Lower.ne_of_isHelper_of_isRule hh)
    | shadow hno => exact ⟨hq, Or.inr ⟨_, rfl, hno⟩⟩
    | helper hatom => exact ⟨hq, Or.inl hatom⟩
  have hatom : p.isAtom = false := isAtom_of_mem_inner hwraps.mem_inner
  have hsame := (halike p q ⟨hp, Or.inl hatom⟩ htakes hwraps.render_eq).isSpliced_eq
  rw [hspliced, hspliced'] at hsame
  cases hsame

theorem Lowered.language_of_stands (h : g.Lowered)
    (halike : LooksAlike g.vocabulary g.rules.toList) (hp : IsPart g.rules.toList p)
    (hs : g.table.Stands p x) : x.language g.languageOf = g.table.language g.languages p :=
  (h.language_le_of_stands (halike.looksTell _) hp hs).antisymm
    (h.le_language_of_stands (halike.looksTell _) halike.unlooped hp hs)

theorem Lowered.languageOf_rule (h : g.Lowered) (halike : LooksAlike g.vocabulary g.rules.toList)
    (hd : g.table.IsRule d n) : g.languageOf n = g.table.language g.languages d.rule := by
  rw [← h.languages_rule hd.1]
  exact (h.languageOf_le_languages (halike.looksTell _) hd).antisymm
    (h.languages_le_languageOf (halike.looksTell _) halike.unlooped hd)

/-- A rule has some word. -/
def HasWord (g : Grammar) (p : Rule) : Prop := ∃ w, w ∈ g.table.language g.languages p

/-- Sequences have words if their items have. -/
theorem sequential_hasWord : Rule.Sequential g.HasWord := by
  refine ⟨⟨[], Language.nil_mem_one⟩, fun items hall => ?_⟩
  show ∃ w, w ∈ Rule.sequenceLanguage g.table.vocabulary g.table.rules g.languages items
  induction items with
  | nil => exact ⟨[], Language.nil_mem_one⟩
  | cons r rs ih =>
    obtain ⟨⟨u, hu⟩, hrs⟩ := List.forall_mem_cons.mp hall
    obtain ⟨v, hv⟩ := ih hrs
    exact ⟨u ++ v, Language.append_mem_mul hu hv⟩

/-- Every nonterminal derives some text exactly if everything that a rule consists of has some word. -/
theorem Lowered.productive_iff (h : g.Lowered) (halike : LooksAlike g.vocabulary g.rules.toList) :
    (∀ n, n ≠ start → n < g.nonterminals.size → ∃ w, w ∈ g.languageOf n) ↔
      ∀ p, IsSubrule g.rules.toList p → g.HasWord p := by
  constructor
  · rintro hall p ⟨d, hd, hp⟩
    obtain ⟨n, hn⟩ := h.exists_rule d hd
    have hpart : ∀ q ∈ d.rule.parts, g.HasWord q := fun q hq => by
      obtain ⟨x, hx, -⟩ :=
        h.exists_of_mem_parts (Q := fun _ => True) halike (fun _ _ _ _ => trivial) hn trivial hq
      rw [HasWord, ← h.language_of_stands halike (isPart_of_mem d hd q hq) hx]
      cases x with
      | terminal t => exact ⟨[t], rfl⟩
      | nonterminal m =>
        obtain ⟨hne, hlt⟩ := h.lt_of_stands hx
        exact hall m hne hlt
    rcases List.mem_cons.mp hp with rfl | hp
    · have hne : n ≠ start := by
        rintro rfl
        exact h.not_isRule_start hn
      rw [HasWord, ← h.languageOf_rule halike hn]
      exact hall n hne (Array.getElem?_eq_some_iff.mp hn.2).1
    · refine sequential_hasWord.of_mem_within d.rule (fun q hq => ?_) p hp
      exact hpart q (Rule.inner_subset_parts hq)
  · intro hall n hne hlt
    rcases h.cover n hne hlt with ⟨d, hd⟩ | ⟨look, hh⟩
    · rw [h.languageOf_rule halike hd]
      exact hall d.rule ⟨d, hd.1, List.mem_cons_self⟩
    · obtain ⟨r, hr, hatom, rfl, -⟩ := h.helper look n hh
      have htakes : TakesHelper g.rules.toList r := ⟨hr, Or.inl hatom⟩
      have hlanguage := h.language_of_stands halike hr (htakes.stands_iff.mpr hh)
      rw [show g.languageOf n = _ from hlanguage]
      exact hall r htakes.isSubrule

end Grammar

/-! ## Building -/

namespace Declarations

variable {d d' : Declarations} {root : RuleDeclaration}

/-- Nothing is missing: the root is declared, all literals are entered without a defect, and every name
is that of a rule or of a class of tokens. -/
structure Complete (d d' : Declarations) (root : RuleDeclaration) : Prop where
  declared : root ∈ d.rules.toList
  root : d.root = some root.name
  entered : d.rules.toList.foldlM internRule d = .ok d'
  defect : d'.defect = none
  names : ∀ e ∈ d.rules.toList, ∀ name ∈ e.rule.references,
    (∃ e' ∈ d.rules.toList, e'.name = name) ∨ ∃ t, d'.vocabulary.namedClass? name = some t

theorem Complete.known (h : d.Complete d' root) : ∀ e ∈ d.rules.toList, ∀ m ∈ e.rule.mentions,
    m.Known d'.vocabulary d.rules.toList := by
  obtain ⟨-, -, hentered⟩ := entered_of_internRules h.entered h.defect
  intro e he m hm
  cases m with
  | keyword | symbol => exact hentered e he _ hm
  | ref name => exact h.names e he name (List.mem_filterMap.mpr ⟨_, hm, rfl⟩)

/-- What lowering the rules comes to is what assembling comes to. -/
theorem Complete.assemble_of_all (h : d.Complete d' root) :
    (∃ g, d.assemble = .ok g) ∨ ∃ e, d.assemble = .error e ∧
      Lower.all d.rules.toList root.name (Lower.initial d'.vocabulary) = .error e := by
  obtain ⟨hdefect, -⟩ := entered_of_internRules h.entered h.defect
  have hcheck : d.checkDefect = .ok () := by rw [checkDefect, hdefect]
  have hcheck' : d'.checkDefect = .ok () := by rw [checkDefect, h.defect]
  have hentered : d.rules.foldlM internRule d = .ok d' := by
    rw [← Array.foldlM_toList]
    exact h.entered
  have hrules : d'.rules = d.rules := rules_internRules h.entered
  simp only [assemble, h.root, hcheck, hentered, hcheck', hrules, bind, Except.bind, StateT.run]
  cases Lower.all d.rules.toList root.name (Lower.initial d'.vocabulary) with
  | ok p => exact Or.inl ⟨_, rfl⟩
  | error e => exact Or.inr ⟨e, rfl, rfl⟩

/-- A complete declaration can be assembled, or a table is full. Then its rules weigh a lot. -/
theorem Complete.assemble_or_full (h : d.Complete d' root) (hnames : DistinctNames d.rules.toList) :
    (∃ g, d.assemble = .ok g ∧ g.vocabulary = d'.vocabulary ∧ g.rules = d.rules) ∨
      (∃ what limit, d.build = .error (.tooLarge what limit)) ∧
        maxIndex ≤ (d.rules.toList.map RuleDeclaration.weight).sum := by
  rcases h.assemble_of_all with ⟨g, hg⟩ | ⟨e, he, hall⟩
  · obtain ⟨d'', _, _, -, hentered, hvocabulary, hrules, -⟩ := assemble_ok hg
    rw [h.entered] at hentered
    cases hentered
    exact Or.inl ⟨g, hg, hvocabulary, hrules⟩
  · rcases Lower.all_runs hnames ⟨root, h.declared, rfl⟩ h.known with
      ⟨a, s, hok, -⟩ | ⟨e', he', hfull, hlt⟩
    · rw [hok] at hall
      cases hall
    · rw [he'] at hall
      cases hall
      obtain ⟨what, limit, rfl⟩ := hfull
      refine Or.inr ⟨⟨what, limit, ?_⟩, ?_⟩
      · rw [build, he]
        rfl
      · have hone : (Lower.initial d'.vocabulary).entered = 1 := rfl
        omega

/-- A complete declaration can be assembled, unless a table is full. -/
theorem Complete.exists_assemble (h : d.Complete d' root) (hnames : DistinctNames d.rules.toList)
    (hsize : ∀ what limit, d.build ≠ .error (.tooLarge what limit)) :
    ∃ g, d.assemble = .ok g ∧ g.vocabulary = d'.vocabulary ∧ g.rules = d.rules :=
  (h.assemble_or_full hnames).resolve_right fun ⟨⟨what, limit, he⟩, _⟩ => hsize what limit he

/-- What an assembled declaration is built to. -/
theorem build_of_assemble {g : Grammar} (h : d.assemble = .ok g) :
    d.build = (checkNonterminals g.nonterminals g.productions.toList).map fun _ => g := by
  rw [build, h]
  cases hcheck : checkNonterminals g.nonterminals g.productions.toList with
  | ok u => simp [bind, Except.bind, hcheck, Except.map, pure, Except.pure]
  | error e => simp [bind, Except.bind, hcheck, Except.map]

end Declarations

open Grammar Declarations

/-- **Validation is exact.** A complete declaration builds exactly if the root refers to every rule and
everything that a rule consists of has some word. Otherwise one of the two checks refuses it. -/
theorem validated {name : String} {steps : List DeclarationStep} {d d' : Declarations}
    {root : RuleDeclaration} (hd : d = ofSteps name steps) (hcomplete : d.Complete d' root)
    (hsize : ∀ what limit, d.build ≠ .error (.tooLarge what limit))
    (halike : LooksAlike d'.vocabulary d.rules.toList) :
    ((∃ g, d.build = .ok g) ↔
      (∀ e ∈ d.rules.toList, ReferredFrom d.rules.toList root.name e) ∧
        ∀ p, IsSubrule d.rules.toList p → ∃ w, w ∈ p.language d'.vocabulary d.rules.toList
          (ruleLanguages d'.vocabulary d.rules.toList)) ∧
      ∀ e, d.build = .error e → e.IsVerdict := by
  have hnames : DistinctNames d.rules.toList := hd ▸ distinctNames_ofSteps name steps
  obtain ⟨g, hg, hvocabulary, hrules⟩ := hcomplete.exists_assemble hnames hsize
  obtain ⟨h, e, heroot, hroot⟩ := lowered_of_assemble hnames hg
  have hsame : e.name = root.name := Option.some.inj (heroot.symm.trans hcomplete.root)
  rw [← hvocabulary, ← hrules] at halike ⊢
  rw [build_of_assemble hg]
  refine ⟨?_, fun e he => ?_⟩
  · have hbuild : (∃ g', (checkNonterminals g.nonterminals g.productions.toList).map (fun _ => g) =
        .ok g') ↔ checkNonterminals g.nonterminals g.productions.toList = .ok () := by
      cases checkNonterminals g.nonterminals g.productions.toList <;> simp [Except.map]
    rw [hbuild, h.check_iff hroot, h.productive_iff halike, h.reachable_iff halike hroot, hsame]
    exact and_comm
  · cases hcheck : checkNonterminals g.nonterminals g.productions.toList with
    | ok u =>
      rw [hcheck] at he
      cases he
    | error e' =>
      rw [hcheck] at he
      cases he
      exact isVerdict_of_check hcheck

/-! ## A grammar that passes -/

/-- The literals of the rules are entered without a defect, and the vocabulary after it passes a test. -/
def Declarations.entersAll (d : Declarations) (test : Vocabulary → Bool) : Bool :=
  (d.rules.toList.foldlM internRule d).toOption.any fun d' => d'.defect.isNone && test d'.vocabulary

theorem Declarations.exists_entered (d : Declarations) (test : Vocabulary → Bool)
    (h : d.entersAll test = true) : ∃ d', d.rules.toList.foldlM internRule d = .ok d' ∧
      d'.defect = none ∧ test d'.vocabulary = true := by
  rw [entersAll] at h
  cases hd' : d.rules.toList.foldlM internRule d with
  | error e =>
    rw [hd'] at h
    cases h
  | ok d' =>
    rw [hd'] at h
    simp only [Except.toOption, Option.any_some, Bool.and_eq_true, Option.isNone_iff_eq_none] at h
    exact ⟨d', rfl, h⟩

/-- The rule of any number of plus signs before a semicolon. -/
def signsRule : RuleDeclaration := ⟨"s", .seq [.star (.symbol "+"), .symbol ";"], false⟩

/-- What the grammar of plus signs consists of has words, since it builds. -/
theorem validated_signs : ∃ d' : Declarations, ∃ d, d = ofSteps "signs" signsSteps ∧
    d.Complete d' signsRule ∧ LooksAlike d'.vocabulary d.rules.toList ∧
      ∀ p, IsSubrule d.rules.toList p → ∃ w, w ∈ p.language d'.vocabulary d.rules.toList
        (ruleLanguages d'.vocabulary d.rules.toList) := by
  obtain ⟨g, hg, hrules, -⟩ := exists_build_signs
  obtain ⟨g', hg', h⟩ := except_bind_ok.mp hg
  obtain ⟨_, -, h⟩ := except_bind_ok.mp h
  cases h
  obtain ⟨_, _, _, -, -, -, hsame, -⟩ := assemble_ok hg'
  rw [hsame] at hrules
  obtain ⟨d', hentered, hdefect, -⟩ :=
    (ofSteps "signs" signsSteps).exists_entered (fun _ => true) (by decide +kernel)
  have hcomplete : (ofSteps "signs" signsSteps).Complete d' signsRule := by
    refine ⟨?_, rfl, hentered, hdefect, ?_⟩
    · rw [hrules]
      exact List.mem_cons_self
    · rw [hrules]
      simp [Rule.references, Rule.mentions, Rule.mentionsOfAll]
  have halike : LooksAlike d'.vocabulary (ofSteps "signs" signsSteps).rules.toList := by
    have hstar : ∀ p, TakesHelper (ofSteps "signs" signsSteps).rules.toList p →
        p = .star (.symbol "+") := by
      rintro p ⟨⟨e, he, hp⟩, hhelper⟩
      rw [hrules, List.mem_singleton] at he
      subst he
      simp only [Rule.parts, Rule.inner, Rule.innerEach, Rule.spliced, Rule.isSpliced,
        Bool.false_eq_true, if_false, List.mem_append, List.mem_cons, List.not_mem_nil,
        or_false] at hp
      rcases hp with (rfl | rfl) | rfl <;> simp [Rule.isAtom] at hhelper ⊢
    intro p q hp hq _
    rw [hstar p hp, hstar q hq]
    exact .star (.symbol "+")
  refine ⟨d', _, rfl, hcomplete, halike, ?_⟩
  have hsize : ∀ what limit,
      (ofSteps "signs" signsSteps).build ≠ .error (.tooLarge what limit) := fun what limit h => by
    rw [hg] at h
    cases h
  exact ((validated rfl hcomplete hsize halike).1.mp ⟨g, hg⟩).2

/-! ## A grammar that is refused for its looks -/

/-- Any number of signs, where the choice of the sign is written as a sequence of one. -/
def wrappedSteps : List DeclarationStep :=
  [.rule "s" (.star (.seq [.alt [.symbol "+", .symbol "-"]])), .root "s"]

def wrappedRule : RuleDeclaration :=
  ⟨"s", .star (.seq [.alt [.symbol "+", .symbol "-"]]), false⟩

/-- **A grammar refused although it has words.** Everything that its one rule consists of has some. -/
theorem exists_refused : ∃ d' : Declarations, ∃ d, d = ofSteps "wrapped" wrappedSteps ∧
    d.Complete d' wrappedRule ∧
    (∀ e ∈ d.rules.toList, ReferredFrom d.rules.toList wrappedRule.name e) ∧
    (∀ p, IsSubrule d.rules.toList p → ∃ w, w ∈ p.language d'.vocabulary d.rules.toList
      (ruleLanguages d'.vocabulary d.rules.toList)) ∧
    d.build = .error (.unproductive "(+ | -)") := by
  have hrules : (ofSteps "wrapped" wrappedSteps).rules.toList = [wrappedRule] := by cbv
  obtain ⟨d', hentered, hdefect, htest⟩ := (ofSteps "wrapped" wrappedSteps).exists_entered
    (fun v => v.symbol? "+" == some 2 && v.symbol? "-" == some 3) (by decide +kernel)
  simp only [Bool.and_eq_true, beq_iff_eq] at htest
  refine ⟨d', _, rfl, ⟨?_, rfl, hentered, hdefect, ?_⟩, ?_, ?_, ?_⟩
  · rw [hrules]
    exact List.mem_cons_self
  · rw [hrules]
    simp [wrappedRule, Rule.references, Rule.mentions, Rule.mentionsOfAll]
  · rw [hrules]
    exact List.forall_mem_singleton.mpr .refl
  · rw [hrules]
    rintro p ⟨e, he, hp⟩
    rw [List.mem_singleton] at he
    subst he
    simp only [wrappedRule, Rule.subrules, Rule.within, Rule.withinEach, List.append_nil,
      List.mem_cons, List.not_mem_nil, or_false, List.nil_append, List.cons_append] at hp
    have hplus : [2] ∈ (Rule.symbol "+").language d'.vocabulary [wrappedRule]
        (ruleLanguages d'.vocabulary [wrappedRule]) := by
      rw [Rule.language, htest.1]
      rfl
    have hminus : [3] ∈ (Rule.symbol "-").language d'.vocabulary [wrappedRule]
        (ruleLanguages d'.vocabulary [wrappedRule]) := by
      rw [Rule.language, htest.2]
      rfl
    have hchoice : [2] ∈ (Rule.alt [.symbol "+", .symbol "-"]).language d'.vocabulary [wrappedRule]
        (ruleLanguages d'.vocabulary [wrappedRule]) := Or.inl hplus
    rcases hp with rfl | rfl | rfl | rfl | rfl
    · exact ⟨[], Language.nil_mem_kstar _⟩
    · exact ⟨[2] ++ [], Language.append_mem_mul hchoice Language.nil_mem_one⟩
    · exact ⟨[2], hchoice⟩
    · exact ⟨[2], hplus⟩
    · exact ⟨[3], hminus⟩
  · have hbuild : (ofSteps "wrapped" wrappedSteps).build.map (fun _ => ()) =
        .error (.unproductive "(+ | -)") := by decide +kernel
    cases he : (ofSteps "wrapped" wrappedSteps).build with
    | error e =>
      rw [he] at hbuild
      cases hbuild
      rfl
    | ok g =>
      rw [he] at hbuild
      cases hbuild

end FourGL
