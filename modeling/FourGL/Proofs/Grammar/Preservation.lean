import FourGL.Proofs.Grammar.Lowered
import FourGL.Proofs.Grammar.Meaning

/-!
# Lowering and languages

The productions of a grammar are inequations between languages, and so are its rules. Helpers are shared
by parts that look the same, so the two agree only where parts that look the same mean the same.

**Soundness (`language_le_of_stands`).** If parts that look the same mean the same, then a symbol that
stands for a part has only words of that part. The languages of the parts are closed under the
productions, so they contain all that can be derived.

**Completeness (`derived_le_of_stands`).** If parts that look the same mean the same whatever the rules
mean, then it has all of them. The languages of the nonterminals are closed under the expressions of the
rules, so they contain the languages of the rules. The induction is on the look of parts: what is inside
a part looks shorter. A wrapper looks like what it wraps, and there the helper must not be its own only
production.
-/

namespace FourGL

open FourGL.Symbol (languageOfAll)

namespace Grammar

/-- What looks the same means the same. -/
def LooksTell (P : Rule → Prop) (meaning : Rule → WordSet TerminalId) : Prop :=
  ∀ p q, P p → P q → p.render = q.render → meaning p = meaning q

/-- The rule is one that is declared, or stands within one. -/
def IsSubrule (rules : List RuleDeclaration) (p : Rule) : Prop := ∃ d ∈ rules, p ∈ d.rule.subrules

variable {g : Grammar} {d : RuleDeclaration} {n : NonterminalId} {p q r : Rule} {x : Symbol}
  {look : String} {entry : Entry}

theorem TakesHelper.isSubrule {rules : List RuleDeclaration} (h : TakesHelper rules p) :
    IsSubrule rules p := by
  obtain ⟨⟨d, hd, hp⟩, -⟩ := h
  exact ⟨d, hd, Rule.parts_subset_subrules hp⟩

/-- A symbol means what it stands for, or is the helper of the parts with that look. -/
theorem language_eq_or_isHelper {ρ : Languages} {M : NonterminalId → WordSet TerminalId}
    (hp : IsPart g.rules.toList p) (hs : g.table.Stands p x)
    (hρ : ∀ d n, g.table.IsRule d n → M n = ρ d.name) : x.language M = g.table.language ρ p ∨
      ∃ n, x = .nonterminal n ∧ g.table.IsHelper p.render n ∧ TakesHelper g.rules.toList p := by
  cases hs with
  | keyword ht =>
    rw [SymbolTable.language, Rule.language, ht]
    exact Or.inl rfl
  | symbol ht =>
    rw [SymbolTable.language, Rule.language, ht]
    exact Or.inl rfl
  | @rule d n hr =>
    rw [SymbolTable.language, Rule.language, nameLanguage, if_pos ⟨d, hr.1, rfl⟩]
    exact Or.inl (hρ d n hr)
  | @tokenClass name t hd ht =>
    have hname : ¬ ∃ d ∈ g.table.rules, d.name = name := hd
    rw [SymbolTable.language, Rule.language, nameLanguage, if_neg hname, ht]
    exact Or.inl rfl
  | shadow hd hh => exact Or.inr ⟨_, rfl, hh, hp, Or.inr ⟨_, rfl, hd⟩⟩
  | helper ha hh => exact Or.inr ⟨_, rfl, hh, hp, Or.inl ha⟩

theorem LooksTell.mono {P Q : Rule → Prop} {meaning : Rule → WordSet TerminalId}
    (h : LooksTell P meaning) (hQ : ∀ p, Q p → P p) : LooksTell Q meaning :=
  fun p q hp hq hlook => h p q (hQ p hp) (hQ q hq) hlook

theorem IsPart.of_mem_inner {rules : List RuleDeclaration} (hp : IsPart rules p)
    (hq : q ∈ p.inner) : IsPart rules q := by
  obtain ⟨d, hd, hmem⟩ := hp
  exact ⟨d, hd, Rule.inner_subset_parts_of_mem hmem hq⟩

theorem Lowered.not_isRule_start (h : g.Lowered) : ¬ g.table.IsRule d start := fun hd => by
  have heq := Option.some.inj (h.accept.symm.trans hd.2)
  simp at heq

/-! ## Soundness -/

/-- The languages of the declared rules. -/
abbrev languages (g : Grammar) : Languages := ruleLanguages g.vocabulary g.rules.toList

/-- The nonterminal stands for the rule, or is the helper of the part. -/
inductive StandsFor (g : Grammar) (n : NonterminalId) : Rule → Prop
  | rule {d : RuleDeclaration} : g.table.IsRule d n → StandsFor g n d.rule
  | helper {p : Rule} : TakesHelper g.rules.toList p → g.table.IsHelper p.render n → StandsFor g n p

/-- What the nonterminals mean: any of the words of what they stand for. The start symbol may mean
anything. -/
def meaning (g : Grammar) (n : NonterminalId) : WordSet TerminalId :=
  {w | n = start ∨ ∃ r, g.StandsFor n r ∧ w ∈ g.table.language g.languages r}

theorem Lowered.meaning_rule (h : g.Lowered) (hd : g.table.IsRule d n) :
    g.meaning n = g.table.language g.languages d.rule := by
  ext w
  constructor
  · rintro (rfl | ⟨r, hr, hw⟩)
    · exact absurd hd h.not_isRule_start
    · cases hr with
      | rule he => rwa [h.rule_eq hd he]
      | helper _ hh => exact absurd hd (Lower.ne_of_isHelper_of_isRule hh)
  · exact fun hw => Or.inr ⟨d.rule, .rule hd, hw⟩

theorem meaning_helper (htell : LooksTell (TakesHelper g.rules.toList) (g.table.language g.languages))
    (hp : TakesHelper g.rules.toList p) (hh : g.table.IsHelper p.render n) :
    g.meaning n = g.table.language g.languages p := by
  ext w
  constructor
  · rintro (rfl | ⟨r, hr, hw⟩)
    · exact absurd rfl hh.1
    · cases hr with
      | rule hd => exact absurd hd (Lower.ne_of_isHelper_of_isRule hh)
      | helper hr hh' =>
        have hlook := congrArg Nonterminal.name (Option.some.inj (hh.2.symm.trans hh'.2))
        rwa [htell _ _ hp hr hlook]
  · exact fun hw => Or.inr ⟨p, .helper hp hh, hw⟩

/-- The language of a rule's name is that of its expression. -/
theorem Lowered.languages_rule (h : g.Lowered) (hd : d ∈ g.rules.toList) :
    g.languages d.name = g.table.language g.languages d.rule := by
  ext w
  rw [mem_ruleLanguages]
  constructor
  · rintro ⟨e, he, hname, hw⟩
    rwa [← h.eq_of_name_eq he hd hname]
  · exact fun hw => ⟨d, hd, rfl, hw⟩

/-- Every symbol means what it stands for. -/
theorem Lowered.language_meaning (h : g.Lowered)
    (htell : LooksTell (TakesHelper g.rules.toList) (g.table.language g.languages))
    (hp : IsPart g.rules.toList p) (hs : g.table.Stands p x) : x.language g.meaning = g.table.language g.languages p := by
  have hrule : ∀ d n, g.table.IsRule d n → g.meaning n = g.languages d.name := fun d n hd =>
    (h.meaning_rule hd).trans (h.languages_rule hd.1).symm
  rcases language_eq_or_isHelper hp hs hrule with heq | ⟨n, rfl, hh, hhelper⟩
  · exact heq
  · exact meaning_helper htell hhelper hh

/-- What the nonterminals mean is closed under the productions. -/
theorem Lowered.meaning_closed (h : g.Lowered)
    (htell : LooksTell (TakesHelper g.rules.toList) (g.table.language g.languages)) {i : ProductionId}
    (hi : i < g.productions.size) :
    languageOfAll g.meaning (g.production i).right ≤ g.meaning (g.production i).left := by
  have hentry := production_mem_entriesOf hi
  have hleft := h.left i hi
  generalize (g.production i).left = n at hentry hleft ⊢
  by_cases hn : n = start
  · exact fun _ _ => Or.inl hn
  · rcases h.cover n hn hleft with ⟨d, hd⟩ | ⟨look, hh⟩
    · rw [h.meaning_rule hd]
      refine (h.rule d n hd).languageOfAll_le (fun p hp x hs => ?_) (h.meaning_rule hd).le _ hentry
      exact (h.language_meaning htell (isPart_of_mem d hd.1 p hp) hs).le
    · obtain ⟨r, hr, hatom, rfl, hdemands⟩ := h.helper look n hh
      have hmeaning := meaning_helper htell ⟨hr, Or.inl hatom⟩ hh
      rw [hmeaning]
      refine hdemands.languageOfAll_le (fun p hp x hs => ?_) hmeaning.le _ hentry
      exact (h.language_meaning htell (hr.of_mem_inner hp) hs).le

/-- **Soundness.** What can be derived from a symbol are words of what it stands for. -/
theorem Lowered.language_le_of_stands (h : g.Lowered)
    (htell : LooksTell (TakesHelper g.rules.toList) (g.table.language g.languages))
    (hp : IsPart g.rules.toList p) (hs : g.table.Stands p x) :
    x.language g.languageOf ≤ g.table.language g.languages p := by
  rw [← h.language_meaning htell hp hs]
  exact Symbol.language_mono (languageOf_le fun _ hi => h.meaning_closed htell hi) x

/-- What can be derived from a rule's nonterminal are words of the rule. -/
theorem Lowered.languageOf_le_languages (h : g.Lowered)
    (htell : LooksTell (TakesHelper g.rules.toList) (g.table.language g.languages))
    (hd : g.table.IsRule d n) :
    g.languageOf n ≤ g.languages d.name := by
  rw [h.languages_rule hd.1, ← h.meaning_rule hd]
  exact languageOf_le (fun _ hi => h.meaning_closed htell hi) n

/-! ## Completeness -/

/-- The languages of the nonterminals, by the names of the rules that they stand for. -/
def derived (g : Grammar) : Languages := fun name =>
  {w | ∃ d n, g.table.IsRule d n ∧ d.name = name ∧ w ∈ g.languageOf n}

theorem Lowered.derived_rule (h : g.Lowered) (hd : g.table.IsRule d n) :
    g.languageOf n = g.derived d.name := by
  ext w
  constructor
  · exact fun hw => ⟨d, n, hd, rfl, hw⟩
  · rintro ⟨e, m, he, hname, hw⟩
    rw [h.eq_of_name_eq he.1 hd.1 hname] at he
    rwa [h.rule_unique hd he]

/-- The right-hand sides of a nonterminal give words of it. -/
theorem languageOfAll_le_of_mem_entriesOf (h : entry ∈ g.entriesOf n) :
    languageOfAll g.languageOf entry.1 ≤ g.languageOf n := by
  obtain ⟨i, hi, heq⟩ := mem_entriesOf.mp h
  have hle := languageOfAll_le_languageOf hi
  rwa [heq] at hle

/-- No helper of a wrapper stands for what it wraps too, and has no other production. -/
def Unlooped (g : Grammar) : Prop :=
  ∀ n p q action, IsPart g.rules.toList p → g.table.IsHelper p.render n → p.Wraps q →
    g.table.Stands q (.nonterminal n) → g.entriesOf n ≠ [([.nonterminal n], action)]

/-- **Completeness.** The words of a part can be derived from the symbols that stand for it, given what
can be derived from the rules. -/
theorem Lowered.derived_le_of_stands (h : g.Lowered)
    (htell : LooksTell (TakesHelper g.rules.toList) (g.table.language g.derived)) (hloop : g.Unlooped)
    (hp : IsPart g.rules.toList p) (hs : g.table.Stands p x) :
    g.table.language g.derived p ≤ x.language g.languageOf := by
  induction hlength : p.render.length using Nat.strong_induction_on generalizing p x with
  | _ length ih =>
    rcases language_eq_or_isHelper hp hs fun d n hd => h.derived_rule hd with
      heq | ⟨n, rfl, hh, hhelper⟩
    · exact heq.ge
    · obtain ⟨r, hr, hatom, hlook, hdemands⟩ := h.helper _ n hh
      rw [htell p r hhelper ⟨hr, Or.inl hatom⟩ hlook.symm]
      by_cases hwraps : ∃ q, r.Wraps q
      · -- The helper has one production, for the part that is wrapped.
        obtain ⟨q, hq⟩ := hwraps
        obtain ⟨y, action, hentries, hy⟩ := hdemands.of_wraps hq
        have hle : y.language g.languageOf ≤ g.languageOf n := by
          rw [← SymbolTable.languageOfAll_singleton]
          exact languageOfAll_le_of_mem_entriesOf (hentries ▸ List.mem_cons_self)
        rcases language_eq_or_isHelper (hr.of_mem_inner hq.mem_inner) hy
          fun d n hd => h.derived_rule hd with heq | ⟨m, rfl, hm, -⟩
        · refine le_trans ?_ hle
          rw [heq]
          exact (SymbolTable.language_eq_of_wraps hq).le
        · rw [← hq.render_eq, hlook] at hm
          rw [h.unique _ m n hm hh] at hy hentries
          rw [← hlook] at hh
          exact absurd hentries (hloop n r q action hr hh hq hy)
      · refine hdemands.language_le (fun q hq y hy => ?_) fun _ => languageOfAll_le_of_mem_entriesOf
        have hshorter : q.render.length < length := by
          rw [← hlength, ← hlook]
          exact (Rule.length_render_lt_of_mem_inner r q hq).resolve_right fun hw => hwraps ⟨q, hw⟩
        exact ih _ hshorter (hr.of_mem_inner hq) hy rfl

/-- The languages of the rules can be derived. -/
theorem Lowered.languages_le_derived (h : g.Lowered)
    (htell : LooksTell (TakesHelper g.rules.toList) (g.table.language g.derived)) (hloop : g.Unlooped) :
    g.languages ≤ g.derived := by
  refine ruleLanguages_le fun d hd => ?_
  obtain ⟨n, hn⟩ := h.exists_rule d hd
  rw [← h.derived_rule hn]
  refine (h.rule d n hn).language_le (fun p hp x hs => ?_) fun _ => languageOfAll_le_of_mem_entriesOf
  exact h.derived_le_of_stands htell hloop (isPart_of_mem d hd p hp) hs

theorem Lowered.le_language_of_stands (h : g.Lowered)
    (htell : LooksTell (TakesHelper g.rules.toList) (g.table.language g.derived)) (hloop : g.Unlooped)
    (hp : IsPart g.rules.toList p) (hs : g.table.Stands p x) :
    g.table.language g.languages p ≤ x.language g.languageOf :=
  (Rule.language_mono (h.languages_le_derived htell hloop) p).trans
    (h.derived_le_of_stands htell hloop hp hs)

theorem Lowered.languages_le_languageOf (h : g.Lowered)
    (htell : LooksTell (TakesHelper g.rules.toList) (g.table.language g.derived)) (hloop : g.Unlooped)
    (hd : g.table.IsRule d n) : g.languages d.name ≤ g.languageOf n := by
  rw [h.derived_rule hd]
  exact h.languages_le_derived htell hloop d.name

/-! ## Built grammars -/

/-- Where every nonterminal derives some text, none is its own only production. -/
theorem WellFormed.unlooped (wf : g.WellFormed) : g.Unlooped := by
  intro n p q action _ hh _ _ hentries
  have hlt : n < g.nonterminals.size := (Array.getElem?_eq_some_iff.mp hh.2).1
  obtain ⟨w, k, hw⟩ := wf.productive n hh.1 hlt
  have hempty : g.languageOf n ≤ Function.update g.languageOf n 0 n := by
    refine languageOf_le (fun i hi => ?_) n
    have hentry := production_mem_entriesOf hi
    by_cases hleft : (g.production i).left = n
    · rw [hleft, hentries, List.mem_singleton] at hentry
      rw [hleft, (Prod.mk.inj hentry).1, SymbolTable.languageOfAll_singleton]
      exact le_rfl
    · rw [Function.update_of_ne hleft]
      refine (Symbol.languageOfAll_mono (fun m => ?_) _).trans (languageOfAll_le_languageOf hi)
      by_cases hm : m = n
      · rw [hm, Function.update_self]
        exact bot_le
      · rw [Function.update_of_ne hm]
  rw [Function.update_self] at hempty
  exact Language.notMem_zero w (hempty (mem_languageOf.mpr ⟨k, hw⟩))

/-- The words of the nonterminals compare with those of what they stand for: the declared rules, and the
rules that the helpers look like. -/
def Compares (g : Grammar) (R : WordSet TerminalId → WordSet TerminalId → Prop) : Prop :=
  (∀ d ∈ g.rules.toList, ∃ n, g.nonterminal? d.name = some n ∧
    R (g.languageOf n) (g.table.language g.languages d.rule)) ∧
  ∀ look n, g.table.IsHelper look n → (∃ p, IsPart g.rules.toList p ∧ p.render = look) ∧
    ∀ p, IsSubrule g.rules.toList p → p.render = look →
      R (g.languageOf n) (g.table.language g.languages p)

/-- It is enough to compare symbols with the parts that they stand for. -/
theorem Lowered.compares (h : g.Lowered) {R : WordSet TerminalId → WordSet TerminalId → Prop}
    (htell : LooksTell (IsSubrule g.rules.toList) (g.table.language g.languages))
    (hrule : ∀ d n, g.table.IsRule d n → R (g.languageOf n) (g.languages d.name))
    (hpart : ∀ p x, IsPart g.rules.toList p → g.table.Stands p x →
      R (x.language g.languageOf) (g.table.language g.languages p)) : g.Compares R := by
  refine ⟨fun d hd => ?_, fun look n hh => ?_⟩
  · obtain ⟨n, hn⟩ := h.exists_rule d hd
    exact ⟨n, h.declared d n hn, h.languages_rule hd ▸ hrule d n hn⟩
  · obtain ⟨r, hr, hatom, rfl, -⟩ := h.helper look n hh
    refine ⟨⟨r, hr, rfl⟩, fun p hp hlook => ?_⟩
    have hhelper : TakesHelper g.rules.toList r := ⟨hr, Or.inl hatom⟩
    rw [htell p r hp hhelper.isSubrule hlook]
    exact hpart r (.nonterminal n) hr (.helper hatom hh)

end Grammar

open Grammar

/-- **Lowering and languages.** If what looks the same means the same, then nothing can be derived from
a nonterminal but words of what it stands for. If it means the same whatever the rules mean, then all of
them can be derived. -/
theorem languages_preserved {g : Grammar} (hg : g.IsBuilt) :
    (LooksTell (IsSubrule g.rules.toList) (g.table.language g.languages) → g.Compares (· ≤ ·)) ∧
      ((∀ ρ, LooksTell (IsSubrule g.rules.toList) (g.table.language ρ)) → g.Compares (· = ·)) := by
  have h := lowered_of_isBuilt hg
  have hloop := (wellFormed_of_isBuilt hg).unlooped
  refine ⟨fun htell => ?_, fun htell => ?_⟩
  · have hparts := htell.mono fun _ => TakesHelper.isSubrule
    exact h.compares htell (fun _ _ => h.languageOf_le_languages hparts)
      fun _ _ => h.language_le_of_stands hparts
  · have hparts := fun ρ => (htell ρ).mono fun _ => TakesHelper.isSubrule
    refine h.compares (htell _) (fun d n hd => ?_) fun p x hp hs => ?_
    · exact (h.languageOf_le_languages (hparts _) hd).antisymm
        (h.languages_le_languageOf (hparts _) hloop hd)
    · exact (h.language_le_of_stands (hparts _) hp hs).antisymm
        (h.le_language_of_stands (hparts _) hloop hp hs)

/-! ## Where nothing looks the same -/

/-- The grammar of any number of plus signs before a semicolon. -/
def signsSteps : List DeclarationStep :=
  [.rule "s" (.seq [.star (.symbol "+"), .symbol ";"]), .root "s"]

theorem exists_build_signs : ∃ g, (Declarations.ofSteps "signs" signsSteps).build = .ok g ∧
    g.rules.toList = [⟨"s", .seq [.star (.symbol "+"), .symbol ";"], false⟩] ∧
    g.nonterminals.toList =
      [⟨"$accept", false, true⟩, ⟨"s", false, false⟩, ⟨"+*", false, true⟩] := by
  obtain ⟨g, hg, hrules, hnonterminals, -⟩ :=
    (Declarations.ofSteps "signs" signsSteps).exists_build
      [⟨"$accept", false, true⟩, ⟨"s", false, false⟩, ⟨"+*", false, true⟩]
      [⟨0, [.nonterminal 1], .accept⟩, ⟨2, [], .emptyList "+*"⟩,
        ⟨2, [.nonterminal 2, .terminal 2], .appendList false⟩,
        ⟨1, [.nonterminal 2, .terminal 3], .node "s"⟩]
      (fun _ => true) (by decide +kernel) (by decide +kernel) (by decide +kernel)
  refine ⟨g, hg, ?_, hnonterminals⟩
  rw [hrules]
  cbv

/-- Nothing in that grammar looks the same but what is the same. -/
theorem looksTell_signs {g : Grammar}
    (hrules : g.rules.toList = [⟨"s", .seq [.star (.symbol "+"), .symbol ";"], false⟩])
    (ρ : Languages) : LooksTell (IsSubrule g.rules.toList) (g.table.language ρ) := by
  have hsub : ∀ p, IsSubrule g.rules.toList p → p ∈ [Rule.seq [.star (.symbol "+"), .symbol ";"],
      .star (.symbol "+"), .symbol "+", .symbol ";"] := by
    rintro p ⟨d, hd, hp⟩
    rw [hrules, List.mem_singleton] at hd
    subst hd
    exact hp
  intro p q hp hq hlook
  have hp := hsub p hp
  have hq := hsub q hq
  simp only [List.mem_cons, List.not_mem_nil, or_false] at hp hq
  rcases hp with rfl | rfl | rfl | rfl <;> rcases hq with rfl | rfl | rfl | rfl <;>
    first | rfl | exact absurd hlook (by decide)

/-- The helper of a repetition has the words of the repetition. -/
theorem languages_preserved_signs : ∃ g : Grammar, g.IsBuilt ∧
    (∀ ρ, LooksTell (IsSubrule g.rules.toList) (g.table.language ρ)) ∧
      g.languageOf 2 = g.table.language g.languages (.star (.symbol "+")) := by
  obtain ⟨g, hg, hrules, hnonterminals⟩ := exists_build_signs
  have hbuilt : g.IsBuilt := ⟨"signs", signsSteps, hg⟩
  have htell := looksTell_signs hrules
  have hhelper : g.table.IsHelper "+*" 2 := by
    refine ⟨by decide, ?_⟩
    show g.nonterminals[2]? = _
    rw [← Array.getElem?_toList, hnonterminals]
    rfl
  have hstar : IsSubrule g.rules.toList (.star (.symbol "+")) := by
    rw [hrules]
    exact ⟨_, List.mem_cons_self, List.mem_cons_of_mem _ List.mem_cons_self⟩
  have hcompare := (languages_preserved hbuilt).2 htell
  exact ⟨g, hbuilt, htell, (hcompare.2 "+*" 2 hhelper).2 _ hstar (by decide)⟩

/-! ## Where looks tell because of the rules -/

/-- Parts that look the same, and mean the same because of the rules: one of them is the rule of the
other. -/
def lostSteps : List DeclarationStep :=
  [.rule "s" (.seq [.alt [.ref "q", .symbol "+"], .symbol ";", .ref "q | +"]),
    .rule "q" (.seq [.alt [.ref "q | +"]]), .rule "q | +" (.alt [.symbol "+", .symbol "-"]),
    .root "s"]

def lostRules : List RuleDeclaration :=
  [⟨"s", .seq [.alt [.ref "q", .symbol "+"], .symbol ";", .ref "q | +"], false⟩,
    ⟨"q", .seq [.alt [.ref "q | +"]], false⟩, ⟨"q | +", .alt [.symbol "+", .symbol "-"], false⟩]

def lostNonterminals : List Nonterminal :=
  [⟨"$accept", false, true⟩, ⟨"s", false, false⟩, ⟨"q", false, false⟩, ⟨"q | +", false, false⟩,
    ⟨"(q | +)", false, true⟩]

def lostProductions : List Production :=
  [⟨0, [.nonterminal 1], .accept⟩, ⟨4, [.nonterminal 2], .unwrap⟩, ⟨4, [.terminal 2], .unwrap⟩,
    ⟨1, [.nonterminal 4, .terminal 3, .nonterminal 3], .node "s"⟩,
    ⟨2, [.nonterminal 4], .node "q"⟩, ⟨3, [.terminal 2], .node "q | +"⟩,
    ⟨3, [.terminal 4], .node "q | +"⟩]

theorem exists_build_lost : ∃ g, (Declarations.ofSteps "lost" lostSteps).build = .ok g ∧
    g.rules.toList = lostRules ∧ g.nonterminals.toList = lostNonterminals ∧
    g.productions.toList = lostProductions ∧ g.vocabulary.symbol? "+" = some 2 ∧
    g.vocabulary.symbol? ";" = some 3 ∧ g.vocabulary.symbol? "-" = some 4 := by
  obtain ⟨g, hg, hrules, hnonterminals, hproductions, htest⟩ :=
    (Declarations.ofSteps "lost" lostSteps).exists_build lostNonterminals lostProductions
      (fun g => [g.vocabulary.symbol? "+", g.vocabulary.symbol? ";", g.vocabulary.symbol? "-"] ==
        [some 2, some 3, some 4])
      (by decide +kernel) (by decide +kernel) (by decide +kernel)
  simp only [beq_iff_eq, List.cons.injEq, and_true] at htest
  refine ⟨g, hg, ?_, hnonterminals, hproductions, htest⟩
  rw [hrules]
  cbv

/-- What the looks of that grammar mean. -/
def lostLanguage (g : Grammar) (look : String) : WordSet TerminalId :=
  if look = "+" then {[2]} else if look = ";" then {[3]} else if look = "-" then {[4]}
  else if look = "(q | +) ; q | +" then
    g.languages "q | +" * ({[3]} * (g.languages "q | +" * 1))
  else g.languages "q | +"

theorem languages_lost {g : Grammar} (h : g.Lowered) (hrules : g.rules.toList = lostRules)
    (hplus : g.vocabulary.symbol? "+" = some 2) (hminus : g.vocabulary.symbol? "-" = some 4) :
    g.languages "q | +" = {[2]} + {[4]} ∧ g.languages "q" = g.languages "q | +" := by
  have hsign := h.languages_rule (d := ⟨"q | +", .alt [.symbol "+", .symbol "-"], false⟩)
    (by rw [hrules]; simp [lostRules])
  have hq := h.languages_rule (d := ⟨"q", .seq [.alt [.ref "q | +"]], false⟩)
    (by rw [hrules]; simp [lostRules])
  simp only [SymbolTable.language, Grammar.table, Rule.language, Rule.choiceLanguage,
    Rule.sequenceLanguage, hplus, hminus, add_zero, mul_one] at hsign hq
  refine ⟨hsign, hq.trans ?_⟩
  rw [nameLanguage, if_pos]
  rw [hrules]
  simp [lostRules]

theorem looksTell_lost {g : Grammar} (h : g.Lowered) (hrules : g.rules.toList = lostRules)
    (hplus : g.vocabulary.symbol? "+" = some 2) (hsemicolon : g.vocabulary.symbol? ";" = some 3)
    (hminus : g.vocabulary.symbol? "-" = some 4) :
    LooksTell (IsSubrule g.rules.toList) (g.table.language g.languages) := by
  obtain ⟨hsign, hq⟩ := languages_lost h hrules hplus hminus
  have hname : ∀ name ∈ ["q", "q | +"],
      nameLanguage g.vocabulary g.rules.toList g.languages name = g.languages name := by
    intro name hname
    rw [nameLanguage, if_pos]
    rw [hrules]
    revert name
    simp [lostRules]
  have habsorb : ({[2]} + {[4]} + {[2]} : WordSet TerminalId) = {[2]} + {[4]} := by
    rw [add_right_comm, add_idem]
  have hlooks : ([.seq [.alt [.ref "q", .symbol "+"], .symbol ";", .ref "q | +"],
      .alt [.ref "q", .symbol "+"], .seq [.alt [.ref "q | +"]], .alt [.ref "q | +"],
      .alt [.symbol "+", .symbol "-"], .ref "q", .ref "q | +", .symbol "+", .symbol ";",
      .symbol "-"] : List Rule).map Rule.render = ["(q | +) ; q | +", "(q | +)", "(q | +)", "(q | +)",
      "(+ | -)", "q", "q | +", "+", ";", "-"] := by decide
  simp only [List.map_cons, List.map_nil, List.cons.injEq, and_true] at hlooks
  have hall : ∀ p, IsSubrule g.rules.toList p →
      g.table.language g.languages p = lostLanguage g p.render := by
    rintro p ⟨d, hd, hp⟩
    rw [hrules] at hd
    simp only [lostRules, List.mem_cons, List.not_mem_nil, or_false] at hd
    rcases hd with rfl | rfl | rfl
    all_goals
      simp only [Rule.subrules, Rule.within, Rule.withinEach, List.mem_cons, List.cons_append,
        List.nil_append, List.append_nil, List.not_mem_nil, or_false] at hp
      rcases hp with rfl | rfl | rfl | rfl | rfl | rfl | rfl
    all_goals
      simp [SymbolTable.language, Grammar.table, Rule.language, Rule.choiceLanguage,
        Rule.sequenceLanguage, terminalLanguage, lostLanguage, hname, hplus, hminus, hsemicolon,
        hlooks, hq, hsign, habsorb]
  intro p q hp hq hlook
  rw [hall p hp, hall q hq, hlook]

/-- Nothing but a plus sign can be derived from the second rule. -/
def lostBound (n : NonterminalId) : WordSet TerminalId := if n = 2 ∨ n = 4 then {[2]} else ⊤

/-- **A language that is lost.** A part of one rule and the only part of a second look the same and mean
the same. The helper is filled for the first, with the nonterminal of the second rule, which comes to
mean no more than what else the first part offers. -/
theorem exists_word_lost : ∃ g : Grammar, g.IsBuilt ∧
    LooksTell (IsSubrule g.rules.toList) (g.table.language g.languages) ∧ ¬ g.Compares (· = ·) := by
  obtain ⟨g, hg, hrules, hnonterminals, hproductions, hplus, hsemicolon, hminus⟩ := exists_build_lost
  have hbuilt : g.IsBuilt := ⟨"lost", lostSteps, hg⟩
  have h := lowered_of_isBuilt hbuilt
  obtain ⟨hsign, hq⟩ := languages_lost h hrules hplus hminus
  refine ⟨g, hbuilt, looksTell_lost h hrules hplus hsemicolon hminus, fun hcompare => ?_⟩
  have hd : ⟨"q", .seq [.alt [.ref "q | +"]], false⟩ ∈ g.rules.toList := by
    rw [hrules]
    simp [lostRules]
  have hrule : g.table.IsRule ⟨"q", .seq [.alt [.ref "q | +"]], false⟩ 2 := by
    refine ⟨hd, ?_⟩
    show g.nonterminals[2]? = _
    rw [← Array.getElem?_toList, hnonterminals]
    rfl
  obtain ⟨n, hn, heq⟩ := hcompare.1 _ hd
  obtain rfl : n = 2 := Option.some.inj (hn.symm.trans (h.declared _ 2 hrule))
  have hbound : g.languageOf 2 ≤ lostBound 2 := by
    refine languageOf_le (fun i hi => ?_) 2
    have hmem : g.production i ∈ lostProductions := by
      rw [production_eq_getElem hi, ← hproductions]
      exact Array.mem_toList_iff.mpr (Array.getElem_mem hi)
    revert hmem
    generalize g.production i = production
    revert production
    simp [lostProductions, lostBound, Symbol.language]
  have hword : [4] ∈ g.languageOf 2 := by
    rw [heq, ← h.languages_rule hd, hq, hsign]
    exact Or.inr rfl
  have hsame : ([4] : List TerminalId) = [2] := hbound hword
  cases hsame
end FourGL
