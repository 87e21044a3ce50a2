import FourGL.Proofs.Grammar.Derivation
import Mathlib.Computability.Language
import Mathlib.Order.FixedPoints
import Mathlib.Order.CompletePartialOrder

/-!
# The languages of rules

A rule, read as an expression of extended Backus–Naur form, stands for a language over the terminals,
given the languages of the rules that it refers to. Together the rules of a grammar stand for the least
languages that agree with their expressions.

The productions of a grammar give languages to its nonterminals too: the words that they can be
rewritten to.

**Theorem (`mem_ruleLanguages`).** The languages of rules agree with their expressions.

**Theorem (`languageOf_le`).** The languages of nonterminals are the least that are closed under the
productions.
-/

/-- A set of words over an alphabet. -/
abbrev WordSet (α : Type) := Language α

namespace FourGL

open scoped Computability

/-! ## Rules as expressions -/

/-- A language for every name. -/
abbrev Languages := String → WordSet TerminalId

/-- The one word of a terminal, if it is known. -/
def terminalLanguage : Option TerminalId → WordSet TerminalId
  | some t => {[t]}
  | none => 0

/-- A name stands for the rule that is declared, or else for a class of tokens. -/
def nameLanguage (v : Vocabulary) (rules : List RuleDeclaration) (ρ : Languages) (name : String) :
    WordSet TerminalId :=
  if ∃ d ∈ rules, d.name = name then ρ name else terminalLanguage (v.namedClass? name)

namespace Rule

mutual

/-- The words of a rule, given those of the rules that it refers to. -/
def language (v : Vocabulary) (rules : List RuleDeclaration) (ρ : Languages) :
    Rule → WordSet TerminalId
  | .empty => 1
  | .keyword text => terminalLanguage (v.keyword? text)
  | .symbol text => terminalLanguage (v.symbol? text)
  | .ref name => nameLanguage v rules ρ name
  | .seq items => sequenceLanguage v rules ρ items
  | .alt items => choiceLanguage v rules ρ items
  | .opt item => 1 + item.language v rules ρ
  | .star item => (item.language v rules ρ)∗
  | .plus item => item.language v rules ρ * (item.language v rules ρ)∗
  | .starSep item separator =>
    1 + item.language v rules ρ * (separator.language v rules ρ * item.language v rules ρ)∗
  | .plusSep item separator =>
    item.language v rules ρ * (separator.language v rules ρ * item.language v rules ρ)∗

/-- The words of rules one after the other. -/
def sequenceLanguage (v : Vocabulary) (rules : List RuleDeclaration) (ρ : Languages) :
    List Rule → WordSet TerminalId
  | [] => 1
  | r :: rs => r.language v rules ρ * sequenceLanguage v rules ρ rs

/-- The words of any of the rules. -/
def choiceLanguage (v : Vocabulary) (rules : List RuleDeclaration) (ρ : Languages) :
    List Rule → WordSet TerminalId
  | [] => 0
  | r :: rs => r.language v rules ρ + choiceLanguage v rules ρ rs

end

variable {v : Vocabulary} {rules : List RuleDeclaration} {ρ σ : Languages}

theorem nameLanguage_mono (h : ρ ≤ σ) (name : String) :
    nameLanguage v rules ρ name ≤ nameLanguage v rules σ name := by
  rw [nameLanguage, nameLanguage]
  split
  · exact h name
  · exact le_rfl

mutual

/-- Larger languages of the rules referred to make larger languages. -/
theorem language_mono (h : ρ ≤ σ) : ∀ r : Rule, r.language v rules ρ ≤ r.language v rules σ
  | .empty | .keyword _ | .symbol _ => le_rfl
  | .ref name => nameLanguage_mono h name
  | .seq items => sequenceLanguage_mono h items
  | .alt items => choiceLanguage_mono h items
  | .opt item => add_le_add le_rfl (language_mono h item)
  | .star item => kstar_mono (language_mono h item)
  | .plus item => mul_le_mul' (language_mono h item) (kstar_mono (language_mono h item))
  | .starSep item separator =>
    add_le_add le_rfl (mul_le_mul' (language_mono h item)
      (kstar_mono (mul_le_mul' (language_mono h separator) (language_mono h item))))
  | .plusSep item separator =>
    mul_le_mul' (language_mono h item)
      (kstar_mono (mul_le_mul' (language_mono h separator) (language_mono h item)))

theorem sequenceLanguage_mono (h : ρ ≤ σ) :
    ∀ rs : List Rule, sequenceLanguage v rules ρ rs ≤ sequenceLanguage v rules σ rs
  | [] => le_rfl
  | r :: rs => mul_le_mul' (language_mono h r) (sequenceLanguage_mono h rs)

theorem choiceLanguage_mono (h : ρ ≤ σ) :
    ∀ rs : List Rule, choiceLanguage v rules ρ rs ≤ choiceLanguage v rules σ rs
  | [] => le_rfl
  | r :: rs => add_le_add (language_mono h r) (choiceLanguage_mono h rs)

end

end Rule

/-- What the expressions of the rules come to, given languages for their names. -/
def expressionLanguages (v : Vocabulary) (rules : List RuleDeclaration) : Languages →o Languages where
  toFun ρ name := ⨆ d ∈ rules, ⨆ _ : d.name = name, d.rule.language v rules ρ
  monotone' := fun _ _ h _ =>
    iSup_mono fun d => iSup_mono fun _ => iSup_mono fun _ => d.rule.language_mono h

/-- The languages of the rules: the least that agree with their expressions. -/
def ruleLanguages (v : Vocabulary) (rules : List RuleDeclaration) : Languages :=
  (expressionLanguages v rules).lfp

section

variable {v : Vocabulary} {rules : List RuleDeclaration} {ρ : Languages} {name : String}
  {w : List TerminalId}

/-- **Rules as equations.** The languages of rules agree with their expressions. -/
theorem mem_ruleLanguages : w ∈ ruleLanguages v rules name ↔
    ∃ d ∈ rules, d.name = name ∧ w ∈ d.rule.language v rules (ruleLanguages v rules) := by
  have hfixed : expressionLanguages v rules (ruleLanguages v rules) = ruleLanguages v rules :=
    (expressionLanguages v rules).map_lfp
  conv_lhs => rw [← hfixed]
  show w ∈ (⨆ d ∈ rules, ⨆ _ : d.name = name, d.rule.language v rules (ruleLanguages v rules)) ↔ _
  simp only [Language.mem_iSup, exists_prop]

/-- The languages of rules are the least that contain what the expressions come to. -/
theorem ruleLanguages_le (h : ∀ d ∈ rules, d.rule.language v rules ρ ≤ ρ d.name) :
    ruleLanguages v rules ≤ ρ := by
  refine (expressionLanguages v rules).lfp_le fun name => ?_
  refine iSup_le fun d => iSup_le fun hd => iSup_le fun hname => ?_
  rw [← hname]
  exact h d hd

end

/-! ## Nonterminals -/

namespace Grammar

variable {g : Grammar} {M : NonterminalId → WordSet TerminalId} {n : NonterminalId}
  {α β : List Symbol} {w : List TerminalId}

/-- The words that a nonterminal can be rewritten to. -/
def languageOf (g : Grammar) (n : NonterminalId) : WordSet TerminalId :=
  {w | Relation.ReflTransGen g.Produces [.nonterminal n] (w.map .terminal)}

theorem mem_languageOf : w ∈ g.languageOf n ↔ ∃ k, g.Yields [.nonterminal n] w k :=
  ⟨yields_of_rewrites, fun ⟨_, h⟩ => rewrites_of_yields h⟩

end Grammar

namespace Symbol

variable {M N : NonterminalId → WordSet TerminalId} {α β : List Symbol} {x : Symbol}

/-- The words of a symbol, given those of the nonterminals. -/
def language (M : NonterminalId → WordSet TerminalId) : Symbol → WordSet TerminalId
  | .terminal t => {[t]}
  | .nonterminal n => M n

/-- The words of symbols one after the other. -/
def languageOfAll (M : NonterminalId → WordSet TerminalId) (β : List Symbol) :
    WordSet TerminalId :=
  (β.map (language M)).prod

@[simp] theorem languageOfAll_nil : languageOfAll M [] = 1 := rfl

@[simp] theorem languageOfAll_cons :
    languageOfAll M (x :: β) = x.language M * languageOfAll M β := by
  simp [languageOfAll]

@[simp] theorem languageOfAll_append :
    languageOfAll M (α ++ β) = languageOfAll M α * languageOfAll M β := by
  simp [languageOfAll]

theorem language_mono (h : ∀ n, M n ≤ N n) (x : Symbol) : x.language M ≤ x.language N := by
  cases x with
  | terminal t => exact le_rfl
  | nonterminal n => exact h n

theorem languageOfAll_mono (h : ∀ n, M n ≤ N n) (β : List Symbol) :
    languageOfAll M β ≤ languageOfAll N β := by
  induction β with
  | nil => exact le_rfl
  | cons x β ih =>
    rw [languageOfAll_cons, languageOfAll_cons]
    exact mul_le_mul' (language_mono h x) ih

end Symbol

namespace Grammar

open FourGL.Symbol (languageOfAll languageOfAll_nil languageOfAll_cons)

variable {g : Grammar} {M : NonterminalId → WordSet TerminalId} {n : NonterminalId}
  {β : List Symbol} {w : List TerminalId} {k : Nat}

/-- What is closed under the productions contains all that can be derived. -/
theorem mem_languageOfAll_of_yields
    (hM : ∀ p < g.productions.size, languageOfAll M (g.production p).right ≤ M (g.production p).left)
    (h : g.Yields β w k) : w ∈ languageOfAll M β := by
  induction h with
  | nil => exact Language.nil_mem_one
  | terminal _ ih =>
    rw [languageOfAll_cons]
    exact Language.append_mem_mul (Set.mem_singleton _) ih
  | @nonterminal p l β u w _ _ hp hl _ _ ihu ihw =>
    rw [languageOfAll_cons]
    exact Language.append_mem_mul (hl ▸ hM p hp ihu) ihw

/-- **Productions as inequations.** The languages of nonterminals are below all that are closed under
the productions. -/
theorem languageOf_le
    (hM : ∀ p < g.productions.size, languageOfAll M (g.production p).right ≤ M (g.production p).left)
    (n : NonterminalId) : g.languageOf n ≤ M n := by
  intro w hw
  obtain ⟨k, hk⟩ := mem_languageOf.mp hw
  have hmem : w ∈ languageOfAll M [.nonterminal n] := mem_languageOfAll_of_yields hM hk
  rw [languageOfAll_cons, languageOfAll_nil, mul_one] at hmem
  exact hmem

theorem yields_of_mem_languageOfAll (h : w ∈ languageOfAll g.languageOf β) : ∃ k, g.Yields β w k := by
  induction β generalizing w with
  | nil =>
    rw [languageOfAll_nil, Language.mem_one] at h
    exact ⟨0, h ▸ .nil⟩
  | cons x β ih =>
    rw [languageOfAll_cons] at h
    obtain ⟨u, hu, v, hv, rfl⟩ := Language.mem_mul.mp h
    obtain ⟨k, hk⟩ := ih hv
    cases x with
    | terminal t =>
      obtain rfl : u = [t] := hu
      exact ⟨_, .terminal hk⟩
    | nonterminal n =>
      obtain ⟨i, hi⟩ := mem_languageOf.mp hu
      exact ⟨_, hi.append hk⟩

/-- The languages of nonterminals are closed under the productions. -/
theorem languageOfAll_le_languageOf {p : ProductionId} (hp : p < g.productions.size) :
    languageOfAll g.languageOf (g.production p).right ≤ g.languageOf (g.production p).left := by
  intro w hw
  obtain ⟨k, hk⟩ := yields_of_mem_languageOfAll hw
  exact mem_languageOf.mpr ⟨_, .of_production hp hk⟩

end Grammar

end FourGL
