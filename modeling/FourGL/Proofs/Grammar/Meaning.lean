import FourGL.Proofs.Grammar.Demands
import FourGL.Proofs.Grammar.Language

/-!
# What is demanded means what the part means

The productions that a part demands are inequations between languages. If the symbols of what is inside
mean at least what that means, then the productions give at least the words of the part
(`Demands.language_le`); if they mean at most that, the productions give no other words
(`Demands.languageOfAll_le`).

A repetition is the only part whose productions mention the nonterminal itself, in front. Its words are
those of a Kleene star, which is the least solution of such productions.
-/

namespace FourGL

open scoped Computability
open FourGL.Symbol (languageOfAll languageOfAll_nil languageOfAll_cons languageOfAll_append)
open Rule (sequenceLanguage choiceLanguage innerEach)

namespace SymbolTable

variable {T : SymbolTable} {ρ : Languages} {M : NonterminalId → WordSet TerminalId}
  {d : RuleDeclaration} {n : NonterminalId} {r : Rule} {rs : List Rule} {xs : List Symbol}
  {es : List Entry} {kind : String}

/-- The words of a rule, given those of the rules that it refers to. -/
abbrev language (T : SymbolTable) (ρ : Languages) (r : Rule) : WordSet TerminalId :=
  r.language T.vocabulary T.rules ρ

theorem languageOfAll_singleton (M : NonterminalId → WordSet TerminalId) (x : Symbol) :
    languageOfAll M [x] = x.language M := by
  rw [languageOfAll_cons, languageOfAll_nil, mul_one]

theorem languageOfAll_self (M : NonterminalId → WordSet TerminalId) (n : NonterminalId)
    (xs : List Symbol) : languageOfAll M (.nonterminal n :: xs) = M n * languageOfAll M xs :=
  languageOfAll_cons

/-- A wrapper means what it wraps. -/
theorem language_eq_of_wraps {p q : Rule} (h : p.Wraps q) : T.language ρ p = T.language ρ q := by
  induction h with
  | item => simp only [language, Rule.language, sequenceLanguage, mul_one]
  | seq _ ih =>
    simp only [language, Rule.language, sequenceLanguage, mul_one] at ih ⊢
    exact ih

/-! ## At least the words of the part -/

/-- The symbols of the parts inside mean at least what these mean. -/
def MeansAtLeast (T : SymbolTable) (ρ : Languages) (M : NonterminalId → WordSet TerminalId)
    (ps : List Rule) : Prop := ∀ p ∈ ps, ∀ x, T.Stands p x → T.language ρ p ≤ x.language M

theorem Written.language_le (hw : T.Written r xs) (h : T.MeansAtLeast ρ M (r.spliced r.inner)) :
    T.language ρ r ≤ languageOfAll M xs := by
  induction hw with
  | empty | nil => exact le_rfl
  | cons _ _ ih ih' =>
    rw [languageOfAll_append]
    exact mul_le_mul' (ih fun p hp => h p (List.mem_append_left _ hp))
      (ih' fun p hp => h p (List.mem_append_right _ hp))
  | part hp hs =>
    rw [languageOfAll_singleton]
    exact h _ (Rule.mem_spliced.mpr (Or.inl ⟨hp, rfl⟩)) _ hs

theorem choiceLanguage_le (hall : List.Forall₂ (fun r (e : Entry) => T.Written r e.1) rs es)
    (h : T.MeansAtLeast ρ M (innerEach rs)) (hM : ∀ e ∈ es, languageOfAll M e.1 ≤ M n) :
    choiceLanguage T.vocabulary T.rules ρ rs ≤ M n := by
  induction hall with
  | nil => exact bot_le
  | cons he _ ih =>
    obtain ⟨hfirst, hrest⟩ := List.forall_mem_cons.mp hM
    have hword := he.language_le fun p hp => h p (List.mem_append_left _ hp)
    exact add_le (hword.trans hfirst) (ih (fun p hp => h p (List.mem_append_right _ hp)) hrest)

theorem Repeats.language_le (hr : T.Repeats n kind r es) (h : T.MeansAtLeast ρ M r.inner)
    (hM : ∀ e ∈ es, languageOfAll M e.1 ≤ M n) : T.language ρ r ≤ M n := by
  cases hr with
  | @star item x hx =>
    have hitem := h _ List.mem_cons_self x hx
    simp only [List.forall_mem_cons, languageOfAll_self, languageOfAll_singleton,
      languageOfAll_nil] at hM
    exact kstar_le_of_mul_le_left hM.1 ((mul_le_mul' le_rfl hitem).trans hM.2.1)
  | @plus item x hx =>
    have hitem := h _ List.mem_cons_self x hx
    simp only [List.forall_mem_cons, languageOfAll_self, languageOfAll_singleton] at hM
    exact mul_kstar_le (hitem.trans hM.1) ((mul_le_mul' le_rfl hitem).trans hM.2.1)
  | @plusSep item separator x y hx hy =>
    have hitem := h _ List.mem_cons_self x hx
    have hseparator := h separator (List.mem_append_right _ List.mem_cons_self) y hy
    simp only [List.forall_mem_cons, languageOfAll_cons, languageOfAll_nil, mul_one] at hM
    refine mul_kstar_le (hitem.trans hM.1) (le_trans ?_ hM.2.1)
    exact mul_le_mul' le_rfl (mul_le_mul' hseparator hitem)
  | @starSep item separator x hx =>
    have hlist := h _ List.mem_cons_self x hx
    simp only [List.forall_mem_cons, languageOfAll_singleton, languageOfAll_nil] at hM
    exact add_le hM.1 (hlist.trans hM.2.1)

/-- What a part demands gives at least its words. -/
theorem Demands.language_le (hd : T.Demands n r es) (h : T.MeansAtLeast ρ M r.inner)
    (hM : ∀ e ∈ es, languageOfAll M e.1 ≤ M n) : T.language ρ r ≤ M n := by
  cases hd with
  | sequence hspliced hw =>
    refine (hw.language_le ?_).trans (hM _ List.mem_cons_self)
    rwa [Rule.spliced, if_pos hspliced]
  | alt hall => exact choiceLanguage_le (hall.imp fun _ _ he => he.1) h hM
  | opt hw =>
    simp only [List.forall_mem_cons, languageOfAll_nil] at hM
    exact add_le hM.2.1 ((hw.language_le h).trans hM.1)
  | list hr => exact hr.language_le h hM

theorem choiceLanguage_alternativesOf (v : Vocabulary) (rules : List RuleDeclaration)
    (ρ : Languages) (r : Rule) :
    choiceLanguage v rules ρ (alternativesOf r) = r.language v rules ρ := by
  have hone : ∀ q : Rule, choiceLanguage v rules ρ [q] = q.language v rules ρ := fun q => by
    rw [choiceLanguage, choiceLanguage, add_zero]
  cases r with
  | alt items => rw [alternativesOf, Rule.language]
  | _ => exact hone _

theorem innerEach_alternativesOf (h : r.isList = false) :
    innerEach (alternativesOf r) = r.parts := by
  cases r with
  | star | plus | starSep | plusSep => cases h
  | alt items => rfl
  | empty | keyword | symbol | ref | opt | seq =>
    simp [alternativesOf, innerEach, Rule.spliced, Rule.isSpliced, Rule.parts]

/-- What a declared rule demands gives at least its words. -/
theorem RuleDemands.language_le (hd : T.RuleDemands d n es) (h : T.MeansAtLeast ρ M d.rule.parts)
    (hM : ∀ e ∈ es, languageOfAll M e.1 ≤ M n) : T.language ρ d.rule ≤ M n := by
  cases hd with
  | alternatives hl hall =>
    rw [language, ← choiceLanguage_alternativesOf]
    rw [← innerEach_alternativesOf hl] at h
    exact choiceLanguage_le (hall.imp fun _ _ he => he.1) h hM
  | list hr => exact hr.language_le (fun p hp => h p (Rule.inner_subset_parts hp)) hM

/-! ## At most the words of the part -/

/-- The symbols of the parts inside mean at most what these mean. -/
def MeansAtMost (T : SymbolTable) (ρ : Languages) (M : NonterminalId → WordSet TerminalId)
    (ps : List Rule) : Prop := ∀ p ∈ ps, ∀ x, T.Stands p x → x.language M ≤ T.language ρ p

theorem Written.languageOfAll_le (hw : T.Written r xs)
    (h : T.MeansAtMost ρ M (r.spliced r.inner)) : languageOfAll M xs ≤ T.language ρ r := by
  induction hw with
  | empty | nil => exact le_rfl
  | cons _ _ ih ih' =>
    rw [languageOfAll_append]
    exact mul_le_mul' (ih fun p hp => h p (List.mem_append_left _ hp))
      (ih' fun p hp => h p (List.mem_append_right _ hp))
  | part hp hs =>
    rw [languageOfAll_singleton]
    exact h _ (Rule.mem_spliced.mpr (Or.inl ⟨hp, rfl⟩)) _ hs

theorem languageOfAll_le_choiceLanguage
    (hall : List.Forall₂ (fun r (e : Entry) => T.Written r e.1) rs es)
    (h : T.MeansAtMost ρ M (innerEach rs)) :
    ∀ e ∈ es, languageOfAll M e.1 ≤ choiceLanguage T.vocabulary T.rules ρ rs := by
  induction hall with
  | nil => simp
  | cons he _ ih =>
    have hword := he.languageOfAll_le fun p hp => h p (List.mem_append_left _ hp)
    have hrest := ih fun p hp => h p (List.mem_append_right _ hp)
    refine List.forall_mem_cons.mpr ⟨hword.trans le_sup_left, fun e he => ?_⟩
    exact (hrest e he).trans le_sup_right

theorem Repeats.languageOfAll_le (hr : T.Repeats n kind r es) (h : T.MeansAtMost ρ M r.inner)
    (hn : M n ≤ T.language ρ r) : ∀ e ∈ es, languageOfAll M e.1 ≤ T.language ρ r := by
  cases hr with
  | @star item x hx =>
    have hitem := h _ List.mem_cons_self x hx
    simp only [List.forall_mem_cons, languageOfAll_self, languageOfAll_singleton,
      languageOfAll_nil]
    refine ⟨one_le_kstar, (mul_le_mul' hn hitem).trans kstar_mul_le_kstar, by simp⟩
  | @plus item x hx =>
    have hitem := h _ List.mem_cons_self x hx
    simp only [List.forall_mem_cons, languageOfAll_self, languageOfAll_singleton]
    refine ⟨hitem.trans (le_mul_of_one_le_right' one_le_kstar), ?_, by simp⟩
    refine (mul_le_mul' hn hitem).trans ?_
    rw [language, Rule.language, mul_assoc]
    exact mul_le_mul' le_rfl kstar_mul_le_kstar
  | @plusSep item separator x y hx hy =>
    have hitem := h _ List.mem_cons_self x hx
    have hseparator := h separator (List.mem_append_right _ List.mem_cons_self) y hy
    simp only [List.forall_mem_cons, languageOfAll_cons, languageOfAll_nil, mul_one]
    refine ⟨hitem.trans (le_mul_of_one_le_right' one_le_kstar), ?_, by simp⟩
    refine (mul_le_mul' hn (mul_le_mul' hseparator hitem)).trans ?_
    rw [language, Rule.language, mul_assoc]
    exact mul_le_mul' le_rfl kstar_mul_le_kstar
  | @starSep item separator x hx =>
    have hlist := h _ List.mem_cons_self x hx
    simp only [List.forall_mem_cons, languageOfAll_singleton, languageOfAll_nil]
    exact ⟨le_sup_left, hlist.trans le_sup_right, by simp⟩

/-- What a part demands gives at most its words. -/
theorem Demands.languageOfAll_le (hd : T.Demands n r es) (h : T.MeansAtMost ρ M r.inner)
    (hn : M n ≤ T.language ρ r) : ∀ e ∈ es, languageOfAll M e.1 ≤ T.language ρ r := by
  cases hd with
  | sequence hspliced hw =>
    refine List.forall_mem_singleton.mpr (hw.languageOfAll_le ?_)
    rwa [Rule.spliced, if_pos hspliced]
  | alt hall => exact languageOfAll_le_choiceLanguage (hall.imp fun _ _ he => he.1) h
  | opt hw =>
    simp only [List.forall_mem_cons, languageOfAll_nil]
    exact ⟨(hw.languageOfAll_le h).trans le_sup_right, le_sup_left, by simp⟩
  | list hr => exact hr.languageOfAll_le h hn

/-- What a declared rule demands gives at most its words. -/
theorem RuleDemands.languageOfAll_le (hd : T.RuleDemands d n es)
    (h : T.MeansAtMost ρ M d.rule.parts) (hn : M n ≤ T.language ρ d.rule) :
    ∀ e ∈ es, languageOfAll M e.1 ≤ T.language ρ d.rule := by
  cases hd with
  | alternatives hl hall =>
    rw [language, ← choiceLanguage_alternativesOf]
    rw [← innerEach_alternativesOf hl] at h
    exact languageOfAll_le_choiceLanguage (hall.imp fun _ _ he => he.1) h
  | list hr => exact hr.languageOfAll_le (fun p hp => h p (Rule.inner_subset_parts hp)) hn

end SymbolTable

end FourGL
