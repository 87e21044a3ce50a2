import FourGL.Proofs.Closure.Solution
import FourGL.Proofs.Grammar.Derivation
import FourGL.Proofs.Grammar.Lowering

/-!
# Well-formed grammars

What building a grammar guarantees, and all that the construction of a parser relies on: the first
production derives the root from the start symbol, right-hand sides consist of usable terminals and
of nonterminals other than the start symbol, and every nonterminal derives some text.

**Theorem (`wellFormed_of_isBuilt`).** Every grammar that some declarations build is well-formed.
-/

namespace FourGL

/-! ## Productive nonterminals -/

namespace Grammar

/-- The grammar satisfies what building it checks. -/
structure WellFormed (g : Grammar) : Prop where
  vocabulary : g.vocabulary.Sound
  first : g.productions[startProduction]? = some (Lower.rootProduction g.root)
  left : ∀ p < g.productions.size, (g.production p).left < g.nonterminals.size
  right : ∀ p < g.productions.size, ∀ x ∈ (g.production p).right,
    x.Usable g.vocabulary g.nonterminals.size
  productive : ∀ n, n ≠ start → n < g.nonterminals.size → ∃ w k, g.Yields [.nonterminal n] w k

variable {g : Grammar}

theorem production_eq_getElem {p : ProductionId} (h : p < g.productions.size) :
    g.production p = g.productions[p] := by
  simp [production, Array.getD_eq_getD_getElem?, h]

theorem production_of_getElem? {p : ProductionId} {production : Production}
    (h : g.productions[p]? = some production) : g.production p = production := by
  simp [Grammar.production, Array.getD_eq_getD_getElem?, h]

theorem production_of_toList {ps : List Production} (h : g.productions.toList = ps)
    (p : ProductionId) : g.production p = ps.getD p default := by
  rw [Grammar.production, Array.getD_eq_getD_getElem?, ← Array.getElem?_toList, h,
    List.getD_eq_getElem?_getD]

theorem size_of_toList {ps : List Production} (h : g.productions.toList = ps) :
    g.productions.size = ps.length := by rw [← Array.length_toList, h]

theorem exists_production {production : Production} (h : production ∈ g.productions.toList) :
    ∃ p < g.productions.size, g.production p = production := by
  obtain ⟨p, hp, rfl⟩ := Array.mem_iff_getElem.mp (Array.mem_toList_iff.mp h)
  exact ⟨p, hp, production_eq_getElem hp⟩

/-- Symbols whose nonterminals are productive yield some word. -/
theorem yields_of_productive {β : List Symbol}
    (h : ∀ n ∈ β.filterMap Symbol.nonterminal?, ∃ w k, g.Yields [.nonterminal n] w k) :
    ∃ w k, g.Yields β w k := by
  induction β with
  | nil => exact ⟨[], 0, .nil⟩
  | cons x β ih =>
    cases x with
    | terminal t =>
      obtain ⟨w, k, hw⟩ := ih (by simpa [Symbol.nonterminal?] using h)
      exact ⟨_, _, .terminal hw⟩
    | nonterminal n =>
      simp only [List.filterMap_cons, Symbol.nonterminal?, List.mem_cons, forall_eq_or_imp] at h
      obtain ⟨⟨u, i, hu⟩, hrest⟩ := h
      obtain ⟨w, k, hw⟩ := ih hrest
      exact ⟨_, _, hu.append hw⟩

/-- What the clauses of productivity mark yields some word. -/
theorem yields_of_derivable {n : NonterminalId}
    (h : Derivable (g.productions.toList.map Production.productiveClause) n) :
    ∃ w k, g.Yields [.nonterminal n] w k := by
  induction h with
  | clause hc _ ih =>
    obtain ⟨production, hmem, rfl⟩ := List.mem_map.mp hc
    obtain ⟨p, hp, rfl⟩ := exists_production hmem
    obtain ⟨w, k, hw⟩ := yields_of_productive ih
    exact ⟨w, _, .of_production hp hw⟩

end Grammar

theorem Marks.has_of_firstUnmarked_eq_none {marks : Marks} {start i : Nat}
    (h : marks.firstUnmarked start = none) (hi : start ≤ i) (hlt : i < marks.size) :
    marks.has i = true := by
  have := List.find?_eq_none.mp h i (List.mem_range'_1.mpr ⟨hi, by omega⟩)
  simpa using this

/-- The checks at the end of a build leave only productive nonterminals. -/
theorem firstUnproductive_eq_none_of_check {nonterminals : Array Nonterminal}
    {productions : List Production} {u : Unit}
    (h : checkNonterminals nonterminals productions = .ok u) :
    firstUnproductive nonterminals.size productions = none := by
  simp only [checkNonterminals] at h
  split at h
  · cases h
  · assumption

theorem checkNonterminals_eq_ok {nonterminals : Array Nonterminal} {productions : List Production}
    (hproductive : firstUnproductive nonterminals.size productions = none)
    (hreachable : firstUnreachable nonterminals.size productions = none) :
    checkNonterminals nonterminals productions = .ok () := by
  simp only [checkNonterminals, hproductive, hreachable]

/-! ## Building -/

namespace Declarations

variable {d d' : Declarations}

theorem except_bind_ok {α β : Type} {x : Except GrammarError α} {f : α → Except GrammarError β}
    {b : β} : (x >>= f) = .ok b ↔ ∃ a, x = .ok a ∧ f a = .ok b := by
  cases x <;> simp [bind, Except.bind]

theorem build_eq_ok {g : Grammar} (h : d.assemble = .ok g)
    (hcheck : checkNonterminals g.nonterminals g.productions.toList = .ok ()) : d.build = .ok g :=
  except_bind_ok.mpr ⟨g, h, except_bind_ok.mpr ⟨(), hcheck, rfl⟩⟩

theorem sound_internRules {rules : List RuleDeclaration} (hd : d.vocabulary.Sound)
    (h : rules.foldlM internRule d = .ok d') : d'.vocabulary.Sound := by
  induction rules generalizing d with
  | nil =>
    cases h
    exact hd
  | cons r rules ih =>
    obtain ⟨d₁, hr, h⟩ := except_bind_ok.mp h
    exact ih (sound_internRule hd hr) h

/-- What a successful build consists of: the vocabulary with all literals of the rules, and the
outcome of lowering them, which has passed the checks. -/
theorem build_ok {g : Grammar} (hd : d.vocabulary.Sound) (h : d.build = .ok g) :
    ∃ s : Lowering, ∃ rules root, g.vocabulary.Sound ∧
      Lower.all rules root (Lower.initial g.vocabulary) = .ok (g.root, s) ∧
      g.nonterminals = s.nonterminals ∧ g.productions = s.productions ∧
      checkNonterminals s.nonterminals s.productions.toList = .ok () := by
  obtain ⟨g', hg', h⟩ := except_bind_ok.mp h
  obtain ⟨u, hfinal, h⟩ := except_bind_ok.mp h
  cases h
  simp only [assemble] at hg'
  split at hg'
  · next root hroot =>
    obtain ⟨_, hcheck, h⟩ := except_bind_ok.mp hg'
    obtain ⟨d₁, hrules, h⟩ := except_bind_ok.mp h
    obtain ⟨_, hcheck₁, h⟩ := except_bind_ok.mp h
    obtain ⟨⟨id, s⟩, hall, h⟩ := except_bind_ok.mp h
    cases h
    rw [← Array.foldlM_toList] at hrules
    exact ⟨s, _, _, sound_internRules hd hrules, hall, rfl, rfl, hfinal⟩
  · cases hg'

end Declarations

namespace Grammar

/-- **Built grammars are well-formed.** -/
theorem wellFormed_of_isBuilt {g : Grammar} (h : g.IsBuilt) : g.WellFormed := by
  obtain ⟨name, steps, hbuild⟩ := h
  obtain ⟨s, rules, root, hv, hall, hn, hp, hcheck⟩ :=
    Declarations.build_ok (Declarations.sound_ofSteps name steps) hbuild
  obtain ⟨hs, hvocabulary, hfirst⟩ := Lower.all_sound hv hall
  have hmem : ∀ p < g.productions.size, g.production p ∈ s.productions := fun p hlt => by
    rw [production_eq_getElem hlt, ← hp]
    exact Array.getElem_mem hlt
  refine ⟨hv, by rw [hp]; exact hfirst, fun p hlt => ?_, fun p hlt x hx => ?_,
    fun n hne hlt => ?_⟩
  · rw [hn]
    exact (hs.productions _ (hmem p hlt)).1
  · rw [hn, ← hvocabulary]
    exact (hs.productions _ (hmem p hlt)).2 x hx
  · have hmark := Marks.has_of_firstUnmarked_eq_none
      (firstUnproductive_eq_none_of_check hcheck) (Nat.one_le_iff_ne_zero.mpr hne)
      (by rw [productiveMarks, Marks.size_close, ← hn]; exact hlt)
    rw [productiveMarks, ← hp] at hmark
    exact yields_of_derivable (Marks.derivable_of_has_close hmark)

end Grammar

/-- What is seen of the grammar of some declarations, if there is one. -/
def Declarations.seen? {α : Type} (d : Declarations) (f : Grammar → Option α) : Option α :=
  d.build.toOption.bind f

theorem Declarations.seen?_of_build {α : Type} {d : Declarations} {f : Grammar → Option α}
    {g : Grammar} (hbuild : d.build = .ok g) : d.seen? f = f g := by
  rw [seen?, hbuild]
  rfl

theorem Declarations.exists_seen {α : Type} {d : Declarations} {f : Grammar → Option α} {a : α}
    (h : d.seen? f = some a) : ∃ g, d.build = .ok g ∧ f g = some a := by
  cases hbuild : d.build with
  | error e =>
    rw [seen?, hbuild] at h
    cases h
  | ok g =>
    rw [seen?_of_build hbuild] at h
    exact ⟨g, rfl, h⟩

/-- The grammar of the one text that is a plus sign. -/
def plusSteps : List DeclarationStep := [.rule "sign" (.symbol "+"), .root "sign"]

theorem exists_build_plus : ∃ g, (Declarations.ofSteps "signs" plusSteps).build = .ok g := by
  have hok : (Declarations.ofSteps "signs" plusSteps).build.toBool = true := by decide +kernel
  cases h : (Declarations.ofSteps "signs" plusSteps).build with
  | error e =>
    rw [h] at hok
    cases hok
  | ok g => exact ⟨g, rfl⟩

end FourGL
