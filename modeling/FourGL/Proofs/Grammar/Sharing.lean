import FourGL.Proofs.Grammar.Preservation

/-!
# Helpers are shared by look

A helper is found by what its part looks like, and filled for the part that comes first. So parts share a
helper if they look the same, whatever they are.

**Theorem (`helpers_shared`).** Parts share a helper exactly if they look the same. Where they are then
alike, it has the productions and tree actions that each of them demands, and if this holds throughout
the grammar, the words of each of them.

**Theorem (`exists_shared_unlike`).** An optional separated list and a separated list of any number look
the same. The second shares the helper of the first, and where the list is empty, its tree has an empty
place instead of a list.
-/

namespace FourGL

/-! ## Parts that are alike -/

namespace Rule

variable {v : Vocabulary} {rules : List RuleDeclaration} {ρ : Languages}

mutual

/-- Parts that are alike mean the same. -/
theorem Alike.language_eq :
    ∀ {p q : Rule}, p.Alike v q → p.language v rules ρ = q.language v rules ρ
  | _, _, .empty => rfl
  | _, _, .keyword hkey _ => by
    rw [language, language, Vocabulary.keyword?, Vocabulary.keyword?, hkey]
  | _, _, .symbol _ => rfl
  | _, _, .ref _ => rfl
  | _, _, .seq h => by rw [language, language, h.sequenceLanguage_eq]
  | _, _, .alt h => by rw [language, language, h.choiceLanguage_eq]
  | _, _, .opt h => by rw [language, language, h.language_eq]
  | _, _, .star h => by rw [language, language, h.language_eq]
  | _, _, .plus h => by rw [language, language, h.language_eq]
  | _, _, .starSep h h' => by rw [language, language, h.language_eq, h'.language_eq]
  | _, _, .plusSep h h' => by rw [language, language, h.language_eq, h'.language_eq]

theorem AlikeEach.sequenceLanguage_eq : ∀ {ps qs : List Rule}, AlikeEach v ps qs →
    sequenceLanguage v rules ρ ps = sequenceLanguage v rules ρ qs
  | _, _, .nil => rfl
  | _, _, .cons h hs => by
    rw [sequenceLanguage, sequenceLanguage, h.language_eq, hs.sequenceLanguage_eq]

theorem AlikeEach.choiceLanguage_eq : ∀ {ps qs : List Rule}, AlikeEach v ps qs →
    choiceLanguage v rules ρ ps = choiceLanguage v rules ρ qs
  | _, _, .nil => rfl
  | _, _, .cons h hs => by
    rw [choiceLanguage, choiceLanguage, h.language_eq, hs.choiceLanguage_eq]

end

end Rule

namespace Grammar

variable {g : Grammar} {n : NonterminalId} {p q : Rule} {look : String}

/-- Parts that look the same and take a helper are alike. -/
def LooksAlike (v : Vocabulary) (rules : List RuleDeclaration) : Prop :=
  ∀ p q, TakesHelper rules p → TakesHelper rules q → p.render = q.render → p.Alike v q

theorem LooksAlike.looksTell (h : LooksAlike g.vocabulary g.rules.toList) (ρ : Languages) :
    LooksTell (TakesHelper g.rules.toList) (g.table.language ρ) :=
  fun p q hp hq hlook => (h p q hp hq hlook).language_eq

/-! ## Helpers -/

/-- A nonterminal that stands for a part which takes a helper is the helper with its look. -/
theorem TakesHelper.stands_iff (hp : TakesHelper g.rules.toList p) :
    g.table.Stands p (.nonterminal n) ↔ g.table.IsHelper p.render n := by
  constructor
  · intro hs
    cases hs with
    | @rule d _ hr =>
      obtain ⟨-, hatom | ⟨name, hname, hnot⟩⟩ := hp
      · cases hatom
      · cases hname
        exact absurd ⟨d, hr.1, rfl⟩ hnot
    | shadow _ hh => exact hh
    | helper _ hh => exact hh
  · intro hh
    obtain ⟨-, hatom | ⟨name, rfl, hnot⟩⟩ := hp
    · exact .helper hatom hh
    · exact .shadow hnot hh

theorem look_unique {look' : String} (h : g.table.IsHelper look n) (h' : g.table.IsHelper look' n) :
    look = look' :=
  congrArg Nonterminal.name (Option.some.inj (h.2.symm.trans h'.2))

/-- The rules have the productions that they demand, the helpers those that some part with their look
demands, and helpers are shared by look. -/
structure SharesByLook (g : Grammar) : Prop where
  rule : ∀ d ∈ g.rules.toList, ∃ n, g.nonterminal? d.name = some n ∧
    g.table.RuleDemands d n (g.entriesOf n)
  helper : ∀ look n, g.table.IsHelper look n → ∃ p, TakesHelper g.rules.toList p ∧
    p.render = look ∧ g.table.Demands n p (g.entriesOf n)
  shared : ∀ p q n, TakesHelper g.rules.toList p → TakesHelper g.rules.toList q →
    g.table.Stands p (.nonterminal n) → (g.table.Stands q (.nonterminal n) ↔ q.render = p.render)

theorem Lowered.sharesByLook (h : g.Lowered) : g.SharesByLook := by
  refine ⟨fun d hd => ?_, fun look n hh => ?_, fun p q n hp hq hs => ?_⟩
  · obtain ⟨n, hn⟩ := h.exists_rule d hd
    exact ⟨n, h.declared d n hn, h.rule d n hn⟩
  · obtain ⟨r, hr, hatom, hlook, hdemands⟩ := h.helper look n hh
    exact ⟨r, ⟨hr, Or.inl hatom⟩, hlook, hdemands⟩
  · have hh := hp.stands_iff.mp hs
    rw [hq.stands_iff]
    constructor
    · exact fun hh' => look_unique hh' hh
    · exact fun hlook => hlook ▸ hh

/-- A helper has what a part demands that is alike to all with its look. -/
theorem SharesByLook.demands (h : g.SharesByLook) (hp : TakesHelper g.rules.toList p)
    (hs : g.table.Stands p (.nonterminal n))
    (halike : ∀ q, TakesHelper g.rules.toList q → q.render = p.render → q.Alike g.vocabulary p) :
    g.table.Demands n p (g.entriesOf n) := by
  obtain ⟨r, hr, hlook, hdemands⟩ := h.helper _ n (hp.stands_iff.mp hs)
  exact hdemands.of_alike (halike r hr hlook)

end Grammar

open Grammar

/-- **Sharing.** Parts share a helper exactly if they look the same. Where they are then alike, it has
what each of them demands, and if this holds throughout the grammar, the words of each of them. -/
theorem helpers_shared {g : Grammar} (hg : g.IsBuilt) :
    g.SharesByLook ∧
      (∀ p n, TakesHelper g.rules.toList p → g.table.Stands p (.nonterminal n) →
        (∀ q, TakesHelper g.rules.toList q → q.render = p.render → q.Alike g.vocabulary p) →
          g.table.Demands n p (g.entriesOf n)) ∧
      (LooksAlike g.vocabulary g.rules.toList → ∀ p n, TakesHelper g.rules.toList p →
        g.table.Stands p (.nonterminal n) →
          g.languageOf n = g.table.language g.languages p) := by
  have h := lowered_of_isBuilt hg
  have hloop := (wellFormed_of_isBuilt hg).unlooped
  refine ⟨h.sharesByLook, fun p n hp hs halike => h.sharesByLook.demands hp hs halike,
    fun halike p n hp hs => ?_⟩
  exact (h.language_le_of_stands (halike.looksTell _) hp.1 hs).antisymm
    (h.le_language_of_stands (halike.looksTell _) hloop hp.1 hs)

/-! ## Alike but for case -/

/-- The grammar of an optional word before and behind a semicolon, in small and in capital letters. -/
def wordsSteps : List DeclarationStep :=
  [.caseSensitive false,
    .rule "s" (.seq [.opt (.keyword "a"), .symbol ";", .opt (.keyword "A")]), .root "s"]

theorem exists_build_words : ∃ g, (Declarations.ofSteps "words" wordsSteps).build = .ok g ∧
    g.rules.toList = [⟨"s", .seq [.opt (.keyword "a"), .symbol ";", .opt (.keyword "A")], false⟩] ∧
    g.nonterminals.toList =
      [⟨"$accept", false, true⟩, ⟨"s", false, false⟩, ⟨"A?", false, true⟩] ∧
    g.vocabulary.keywordKey "a" = g.vocabulary.keywordKey "A" := by
  obtain ⟨g, hg, hrules, hnonterminals, -, htest⟩ :=
    (Declarations.ofSteps "words" wordsSteps).exists_build
      [⟨"$accept", false, true⟩, ⟨"s", false, false⟩, ⟨"A?", false, true⟩]
      [⟨0, [.nonterminal 1], .accept⟩, ⟨2, [.terminal 2], .unwrap⟩, ⟨2, [], .absent⟩,
        ⟨1, [.nonterminal 2, .terminal 3, .nonterminal 2], .node "s"⟩]
      (fun g => g.vocabulary.keywordKey "a" == g.vocabulary.keywordKey "A")
      (by decide +kernel) (by decide +kernel) (by decide +kernel)
  refine ⟨g, hg, ?_, hnonterminals, eq_of_beq htest⟩
  rw [hrules]
  cbv

/-- Both options share a helper, which has what each of them demands. -/
theorem helpers_shared_words : ∃ g : Grammar, g.IsBuilt ∧
    ∀ p ∈ [Rule.opt (.keyword "a"), .opt (.keyword "A")], g.table.Stands p (.nonterminal 2) ∧
      g.table.Demands 2 p (g.entriesOf 2) ∧
      g.languageOf 2 = g.table.language g.languages p := by
  obtain ⟨g, hg, hrules, hnonterminals, hkey⟩ := exists_build_words
  have hbuilt : g.IsBuilt := ⟨"words", wordsSteps, hg⟩
  have hparts : ∀ p, IsPart g.rules.toList p ↔ p ∈ [Rule.opt (.keyword "a"), .keyword "a",
      .symbol ";", .opt (.keyword "A"), .keyword "A"] := fun p => by
    simp [IsPart, hrules, Rule.parts, Rule.inner, Rule.innerEach, Rule.spliced, Rule.isSpliced]
  have htakes : ∀ p, TakesHelper g.rules.toList p ↔
      p ∈ [Rule.opt (.keyword "a"), .opt (.keyword "A")] := fun p => by
    rw [TakesHelper, hparts]
    constructor
    · rintro ⟨hp, hatom⟩
      simp only [List.mem_cons, List.not_mem_nil, or_false] at hp ⊢
      rcases hp with rfl | rfl | rfl | rfl | rfl <;> simp [Rule.isAtom] at hatom ⊢
    · intro hp
      simp only [List.mem_cons, List.not_mem_nil, or_false] at hp ⊢
      rcases hp with rfl | rfl <;> simp [Rule.isAtom]
  have hword : ∀ text ∈ ["a", "A"], ∀ text' ∈ ["a", "A"],
      (Rule.opt (.keyword text)).Alike g.vocabulary (.opt (.keyword text')) := by
    intro text htext text' htext'
    refine .opt (.keyword ?_ ?_)
    · simp only [List.mem_cons, List.not_mem_nil, or_false] at htext htext'
      rcases htext with rfl | rfl <;> rcases htext' with rfl | rfl <;> simp [hkey]
    · revert text text'
      decide
  have halike : LooksAlike g.vocabulary g.rules.toList := by
    intro p q hp hq _
    have hp := (htakes p).mp hp
    have hq := (htakes q).mp hq
    simp only [List.mem_cons, List.not_mem_nil, or_false] at hp hq
    rcases hp with rfl | rfl <;> rcases hq with rfl | rfl <;> exact hword _ (by simp) _ (by simp)
  have hhelper : g.table.IsHelper "A?" 2 := by
    refine ⟨by decide, ?_⟩
    show g.nonterminals[2]? = _
    rw [← Array.getElem?_toList, hnonterminals]
    rfl
  obtain ⟨-, hdemands, hlanguage⟩ := helpers_shared hbuilt
  refine ⟨g, hbuilt, fun p hp => ?_⟩
  have hlook : p.render = "A?" := by
    simp only [List.mem_cons, List.not_mem_nil, or_false] at hp
    rcases hp with rfl | rfl <;> decide
  have htake := (htakes p).mpr hp
  have hs : g.table.Stands p (.nonterminal 2) := htake.stands_iff.mpr (hlook ▸ hhelper)
  exact ⟨hs, hdemands p 2 htake hs fun q hq hqp => halike q p hq htake hqp,
    hlanguage halike p 2 htake hs⟩

/-! ## Not alike -/

/-- The grammar of an optional separated list before, and a separated list of any number behind a
semicolon. -/
def listsSteps : List DeclarationStep :=
  [.rule "s" (.seq [.opt (.plusSep (.symbol "+") (.symbol ",")), .symbol ";",
    .starSep (.symbol "+") (.symbol ",")]), .root "s"]

theorem exists_build_lists : ∃ g, (Declarations.ofSteps "lists" listsSteps).build = .ok g ∧
    g.rules.toList = [⟨"s", .seq [.opt (.plusSep (.symbol "+") (.symbol ",")), .symbol ";",
      .starSep (.symbol "+") (.symbol ",")], false⟩] ∧
    g.nonterminals.toList = [⟨"$accept", false, true⟩, ⟨"s", false, false⟩,
      ⟨"(+ (, +)*)?", false, true⟩, ⟨"+ (, +)*", false, true⟩] ∧
    g.entriesOf 2 = [([.nonterminal 3], .unwrap), ([], .absent)] := by
  obtain ⟨g, hg, hrules, hnonterminals, hproductions, -⟩ :=
    (Declarations.ofSteps "lists" listsSteps).exists_build
      [⟨"$accept", false, true⟩, ⟨"s", false, false⟩, ⟨"(+ (, +)*)?", false, true⟩,
        ⟨"+ (, +)*", false, true⟩]
      [⟨0, [.nonterminal 1], .accept⟩, ⟨3, [.terminal 2], .startList "+ (, +)*"⟩,
        ⟨3, [.nonterminal 3, .terminal 3, .terminal 2], .appendList false⟩,
        ⟨2, [.nonterminal 3], .unwrap⟩, ⟨2, [], .absent⟩,
        ⟨1, [.nonterminal 2, .terminal 4, .nonterminal 2], .node "s"⟩]
      (fun _ => true) (by decide +kernel) (by decide +kernel) (by decide +kernel)
  refine ⟨g, hg, ?_, hnonterminals, ?_⟩
  · rw [hrules]
    cbv
  · rw [entriesOf, hproductions]
    decide

/-- **Parts that share a helper and are not alike.** The helper does not have what the second
demands. -/
theorem exists_shared_unlike : ∃ g : Grammar, g.IsBuilt ∧ ∃ p q n,
    TakesHelper g.rules.toList p ∧ TakesHelper g.rules.toList q ∧
    g.table.Stands p (.nonterminal n) ∧ g.table.Stands q (.nonterminal n) ∧
    ¬ p.Alike g.vocabulary q ∧ ¬ g.table.Demands n q (g.entriesOf n) := by
  obtain ⟨g, hg, hrules, hnonterminals, hentries⟩ := exists_build_lists
  have hhelper : g.table.IsHelper "(+ (, +)*)?" 2 := by
    refine ⟨by decide, ?_⟩
    show g.nonterminals[2]? = _
    rw [← Array.getElem?_toList, hnonterminals]
    rfl
  have htakes : ∀ p ∈ [Rule.opt (.plusSep (.symbol "+") (.symbol ",")),
      .starSep (.symbol "+") (.symbol ",")], TakesHelper g.rules.toList p := fun p hp => by
    refine ⟨⟨_, hrules ▸ List.mem_cons_self, ?_⟩, Or.inl ?_⟩
    · simp only [List.mem_cons, List.not_mem_nil, or_false] at hp
      rcases hp with rfl | rfl <;>
        simp [Rule.parts, Rule.inner, Rule.innerEach, Rule.spliced, Rule.isSpliced]
    · simp only [List.mem_cons, List.not_mem_nil, or_false] at hp
      rcases hp with rfl | rfl <;> rfl
  have hopt := htakes (.opt (.plusSep (.symbol "+") (.symbol ","))) (by simp)
  have hlist := htakes (.starSep (.symbol "+") (.symbol ",")) (by simp)
  refine ⟨g, ⟨"lists", listsSteps, hg⟩, _, _, 2, hopt, hlist, hopt.stands_iff.mpr hhelper,
    hlist.stands_iff.mpr hhelper, ?_, ?_⟩
  · intro halike
    cases halike
  · intro hdemands
    rw [hentries] at hdemands
    cases hdemands with
    | list hr => cases hr

end FourGL
