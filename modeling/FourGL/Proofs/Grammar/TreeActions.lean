import FourGL.Proofs.Grammar.Lowered

/-!
# Right-hand sides and their tree actions

An action is only right for some right-hand sides: a tree is passed through where there is just one,
nothing stands in the place of nothing, and what extends a list begins with the list.

**Theorem (`Lowered.fits`).** In a lowered grammar every production other than the first has a
right-hand side that fits its action, and a separator that is left out is punctuation.

**Theorem (`Lowered.makesList`).** A nonterminal with a production that extends a list has no
productions but those of a list.
-/

namespace FourGL

namespace TreeAction

/-- The right-hand side of a nonterminal fits the action. -/
inductive Fits (v : Vocabulary) (n : NonterminalId) : List Symbol → TreeAction → Prop
  | node {right : List Symbol} {kind : String} : Fits v n right (.node kind)
  | unwrap {x : Symbol} : Fits v n [x] .unwrap
  | absent : Fits v n [] .absent
  | emptyList {kind : String} : Fits v n [] (.emptyList kind)
  | startList {x : Symbol} {kind : String} : Fits v n [x] (.startList kind)
  | appendItems {right : List Symbol} : Fits v n (.nonterminal n :: right) (.appendList false)
  | appendItem {text : String} {t : TerminalId} {x : Symbol} : v.symbol? text = some t →
      v.isPunctuation text = true →
      Fits v n [.nonterminal n, .terminal t, x] (.appendList true)

/-- Whether the action makes or extends a list. -/
def makesList : TreeAction → Bool
  | .emptyList _ | .startList _ | .appendList _ => true
  | _ => false

variable {v : Vocabulary} {n : NonterminalId}

/-- The right-hand side fits the action, which has nothing to do with lists. -/
def Wraps (v : Vocabulary) (n : NonterminalId) (e : Entry) : Prop :=
  Fits v n e.1 e.2 ∧ e.2.makesList = false

theorem wraps_wrapOf (xs : List Symbol) (kind : String) :
    Wraps v n (xs, SymbolTable.wrapOf xs kind) := by
  rcases xs with _ | ⟨x, _ | ⟨y, xs⟩⟩
  · exact ⟨.node, rfl⟩
  · exact ⟨.unwrap, rfl⟩
  · exact ⟨.node, rfl⟩

theorem wraps_groupOf (xs : List Symbol) (kind : String) :
    Wraps v n (xs, SymbolTable.groupOf xs kind) := by
  rcases xs with _ | ⟨x, _ | ⟨y, xs⟩⟩
  · exact ⟨.absent, rfl⟩
  · exact ⟨.unwrap, rfl⟩
  · exact ⟨.node, rfl⟩

theorem wraps_ruleOf (d : RuleDeclaration) (xs : List Symbol) :
    Wraps v n (xs, SymbolTable.ruleOf d xs) := by
  rw [SymbolTable.ruleOf]
  split
  · exact wraps_groupOf xs d.name
  · exact ⟨.node, rfl⟩

/-- Each alternative of a choice is wrapped. -/
theorem wraps_of_forall₂ {T : SymbolTable} {items : List Rule} {es : List Entry}
    {action : Rule → List Symbol → TreeAction} (haction : ∀ r xs, Wraps v n (xs, action r xs))
    (h : List.Forall₂ (fun r e => T.Written r e.1 ∧ e.2 = action r e.1) items es) :
    ∀ e ∈ es, Wraps v n e := by
  induction h with
  | nil => simp
  | @cons r e _ _ he _ ih =>
    refine List.forall_mem_cons.mpr ⟨?_, ih⟩
    have := haction r e.1
    rwa [← he.2] at this

end TreeAction

namespace SymbolTable

open TreeAction (Fits)

variable {T : SymbolTable} {n : NonterminalId} {kind : String} {r : Rule} {d : RuleDeclaration}
  {es : List Entry}

/-- A separator that is left out is one symbol, which is punctuation. -/
theorem exists_punctuation {y : Symbol} (hy : T.Stands r y)
    (h : Lower.dropsSeparator T.vocabulary r = true) : ∃ text t, y = .terminal t ∧
      T.vocabulary.symbol? text = some t ∧ T.vocabulary.isPunctuation text = true := by
  cases r with
  | symbol text =>
    cases hy with
    | symbol ht => exact ⟨text, _, rfl, ht, h⟩
    | helper hatom => cases hatom
  | _ => cases h

theorem Repeats.fits (h : T.Repeats n kind r es) : ∀ e ∈ es, Fits T.vocabulary n e.1 e.2 := by
  cases h with
  | star | plus | starSep => 
    simp only [List.forall_mem_cons, List.not_mem_nil, false_implies, implies_true, and_true]
    exact ⟨by constructor, by constructor⟩
  | @plusSep item separator x y _ hy =>
    simp only [List.forall_mem_cons, List.not_mem_nil, false_implies, implies_true, and_true]
    refine ⟨.startList, ?_⟩
    cases hdrop : Lower.dropsSeparator T.vocabulary separator with
    | false => exact .appendItems
    | true =>
      obtain ⟨text, t, rfl, ht, hpunctuation⟩ := exists_punctuation hy hdrop
      exact .appendItem ht hpunctuation

/-- What extends a list stands among productions of a list. -/
theorem Repeats.makesList (h : T.Repeats n kind r es) {e e' : Entry} (he : e ∈ es) (he' : e' ∈ es)
    {drop : Bool} (hdrop : e.2 = .appendList drop) : e'.2.makesList = true := by
  cases h <;> simp only [List.mem_cons, List.not_mem_nil, or_false] at he he' <;>
    rcases he with rfl | rfl <;> rcases he' with rfl | rfl <;> first | rfl | cases hdrop

/-- Where one production extends a list, all are those of a list. -/
def Listed (es : List Entry) : Prop :=
  ∀ e ∈ es, ∀ drop, e.2 = .appendList drop → ∀ e' ∈ es, e'.2.makesList = true

theorem listed_of_wraps {v : Vocabulary} (h : ∀ e ∈ es, TreeAction.Wraps v n e) : Listed es := by
  intro e he drop hdrop
  have := (h e he).2
  rw [hdrop] at this
  cases this

theorem Demands.fits (h : T.Demands n r es) :
    (∀ e ∈ es, Fits T.vocabulary n e.1 e.2) ∧ Listed es := by
  have hwraps : (∀ e ∈ es, TreeAction.Wraps T.vocabulary n e) →
      (∀ e ∈ es, Fits T.vocabulary n e.1 e.2) ∧ Listed es :=
    fun hes => ⟨fun e he => (hes e he).1, listed_of_wraps hes⟩
  cases h with
  | sequence _ _ => exact hwraps (List.forall_mem_singleton.mpr (TreeAction.wraps_wrapOf _ _))
  | alt hall =>
    exact hwraps (TreeAction.wraps_of_forall₂ (fun r xs => TreeAction.wraps_groupOf xs _) hall)
  | opt _ =>
    exact hwraps (List.forall_mem_cons.mpr ⟨TreeAction.wraps_wrapOf _ _,
      List.forall_mem_singleton.mpr ⟨.absent, rfl⟩⟩)
  | list hr => exact ⟨hr.fits, fun e he drop hdrop e' he' => hr.makesList he he' hdrop⟩

theorem RuleDemands.fits (h : T.RuleDemands d n es) :
    (∀ e ∈ es, Fits T.vocabulary n e.1 e.2) ∧ Listed es := by
  cases h with
  | alternatives _ hall =>
    have hes := TreeAction.wraps_of_forall₂ (v := T.vocabulary) (n := n)
      (fun _ xs => TreeAction.wraps_ruleOf d xs) hall
    exact ⟨fun e he => (hes e he).1, listed_of_wraps hes⟩
  | list hr => exact ⟨hr.fits, fun e he drop hdrop e' he' => hr.makesList he he' hdrop⟩

end SymbolTable

namespace Grammar

open TreeAction (Fits)
open SymbolTable (Listed)

variable {g : Grammar} {p q : ProductionId} {n : NonterminalId}

theorem Lowered.fits_entries (h : g.Lowered) (hn : n ≠ start) (hlt : n < g.nonterminals.size) :
    (∀ e ∈ g.entriesOf n, Fits g.vocabulary n e.1 e.2) ∧ Listed (g.entriesOf n) := by
  rcases h.cover n hn hlt with ⟨d, hd⟩ | ⟨look, hlook⟩
  · exact (h.rule d n hd).fits
  · obtain ⟨r, -, -, -, hr⟩ := h.helper look n hlook
    exact hr.fits

/-- **Right-hand sides fit their actions.** -/
theorem Lowered.fits (h : g.Lowered) (hp : p < g.productions.size)
    (hleft : (g.production p).left ≠ start) :
    Fits g.vocabulary (g.production p).left (g.production p).right (g.production p).action :=
  (h.fits_entries hleft (h.left p hp)).1 _ (production_mem_entriesOf hp)

/-- **Lists.** What shares its nonterminal with a production that extends a list makes one. -/
theorem Lowered.makesList (h : g.Lowered) (hp : p < g.productions.size)
    (hq : q < g.productions.size) (hleft : (g.production p).left ≠ start)
    (heq : (g.production q).left = (g.production p).left) {drop : Bool}
    (hdrop : (g.production p).action = .appendList drop) :
    (g.production q).action.makesList = true := by
  have hlisted := (h.fits_entries hleft (h.left p hp)).2
  exact hlisted _ (production_mem_entriesOf hp) drop hdrop _ (heq ▸ production_mem_entriesOf hq)

end Grammar

end FourGL
