import FourGL.Proofs.Grammar.Entering
import Mathlib.Logic.Relation

/-!
# What a declaration does to a vocabulary

Whatever is declared, a vocabulary changes in four ways only (`Vocabulary.Change`): terminals are marked, a
class of tokens is entered, a keyword, or a symbol. What holds of the first vocabulary and survives each
change holds of all.

**Theorem (`Declarations.becomes_take`, `Declarations.becomes_internMention`).** Every step of a declaration
changes the vocabulary, and so does the entering of a literal. No literals are entered but those that are
declared or mentioned.
-/

namespace FourGL

namespace Vocabulary

variable {v v' v'' : Vocabulary} {text : String} {keys signs : String → Prop}

/-! ## Attempts -/

/-- A terminal is entered, or the vocabulary is as it was. -/
theorem add_cases (v : Vocabulary) (terminal : Terminal) :
    v.names[terminal.name]? = none ∧ v.add terminal = (v.push terminal, .ok v.terminals.size) ∨
      ∃ e, v.add terminal = (v, .error e) := by
  simp only [add]
  split
  · exact Or.inr ⟨_, rfl⟩
  · next hnew =>
    split
    · exact Or.inl ⟨hnew, rfl⟩
    · exact Or.inr ⟨_, rfl⟩

/-- The vocabulary with a keyword entered. -/
def pushKeyword (v : Vocabulary) (text : String) : Vocabulary :=
  { v.push { name := Text.uppercase text, kind := .keyword, text := some text } with
    keywords := v.keywords.insert (v.keywordKey text) v.terminals.size }

/-- The vocabulary with a symbol entered. -/
def pushSymbol (v : Vocabulary) (text : String) : Vocabulary :=
  { v.push { name := text, kind := .symbol, text := some text } with
    symbols := v.symbols.insert text v.terminals.size }

/-- A keyword is there already, or entered under a new name, or refused. -/
theorem internKeyword_cases (v : Vocabulary) (text : String) :
    (∃ t, v.keyword? text = some t ∧ v.internKeyword text = (v, .ok t)) ∨
    (v.keyword? text = none ∧ v.names[Text.uppercase text]? = none ∧
      v.internKeyword text = (v.pushKeyword text, .ok v.terminals.size)) ∨
    ∃ e, v.internKeyword text = (v, .error e) := by
  simp only [internKeyword]
  split
  · split
    · next t ht => exact Or.inl ⟨t, ht, rfl⟩
    · next hnone =>
      refine Or.inr ?_
      rcases v.add_cases { name := Text.uppercase text, kind := .keyword, text := some text } with
        ⟨hnew, heq⟩ | ⟨e, heq⟩
      · rw [heq]
        exact Or.inl ⟨hnone, hnew, rfl⟩
      · rw [heq]
        exact Or.inr ⟨e, rfl⟩
  · exact Or.inr (Or.inr ⟨_, rfl⟩)

/-- A symbol is there already, or entered under a new name, or refused. -/
theorem internSymbol_cases (v : Vocabulary) (text : String) :
    (∃ t, v.internSymbol text = (v, .ok t)) ∨
    (v.symbol? text = none ∧ v.names[text]? = none ∧
      v.internSymbol text = (v.pushSymbol text, .ok v.terminals.size)) ∨
    ∃ e, v.internSymbol text = (v, .error e) := by
  simp only [internSymbol]
  split
  · exact Or.inl ⟨_, rfl⟩
  · next hnone =>
    refine Or.inr ?_
    split
    · exact Or.inr ⟨_, rfl⟩
    · rcases v.add_cases { name := text, kind := .symbol, text := some text } with
        ⟨hnew, heq⟩ | ⟨e, heq⟩
      · rw [heq]
        exact Or.inl ⟨hnone, hnew, rfl⟩
      · rw [heq]
        exact Or.inr ⟨e, rfl⟩

/-! ## Changes -/

/-- A change of a vocabulary. No keyword is entered but those with one of the keys, and no symbol but those
among the signs. -/
inductive Change (keys signs : String → Prop) (v : Vocabulary) : Vocabulary → Prop
  | mark {v' : Vocabulary} : v'.names = v.names → v'.keywords = v.keywords → v'.symbols = v.symbols →
      v'.terminals.map (·.name) = v.terminals.map (·.name) →
      v'.terminals.map (·.kind) = v.terminals.map (·.kind) → Change keys signs v v'
  | tokenClass (terminal : Terminal) : v.names[terminal.name]? = none →
      Change keys signs v (v.push terminal)
  | keyword (text : String) : keys (v.keywordKey text) → v.keyword? text = none →
      v.names[Text.uppercase text]? = none → Change keys signs v (v.pushKeyword text)
  | symbol (text : String) : signs text → v.symbol? text = none → v.names[text]? = none →
      Change keys signs v (v.pushSymbol text)

/-- A later vocabulary, after any number of changes. -/
def Becomes (keys signs : String → Prop) : Vocabulary → Vocabulary → Prop :=
  Relation.ReflTransGen (Change keys signs)

theorem Becomes.trans (h : Becomes keys signs v v') (h' : Becomes keys signs v' v'') :
    Becomes keys signs v v'' := Relation.ReflTransGen.trans h h'

/-! ## What changes keep -/

/-- A later vocabulary, whose tables have all entries of the first. -/
structure Retains (v v' : Vocabulary) : Prop where
  names : ∀ (name : String) (t : TerminalId), v.names[name]? = some t → v'.names[name]? = some t
  keywords : ∀ (key : String) (t : TerminalId), v.keywords[key]? = some t →
    v'.keywords[key]? = some t
  symbols : ∀ (text : String) (t : TerminalId), v.symbols[text]? = some t →
    v'.symbols[text]? = some t

theorem Retains.refl (v : Vocabulary) : v.Retains v :=
  ⟨fun _ _ h => h, fun _ _ h => h, fun _ _ h => h⟩

theorem Retains.trans (h : v.Retains v') (h' : v'.Retains v'') : v.Retains v'' :=
  ⟨fun name t ht => h'.names name t (h.names name t ht),
    fun key t ht => h'.keywords key t (h.keywords key t ht),
    fun text t ht => h'.symbols text t (h.symbols text t ht)⟩

theorem Change.retains (h : Change keys signs v v') : v.Retains v' := by
  cases h with
  | mark hnames hkeywords hsymbols =>
    exact ⟨fun _ _ ht => by rwa [hnames], fun _ _ ht => by rwa [hkeywords],
      fun _ _ ht => by rwa [hsymbols]⟩
  | tokenClass terminal hnew =>
    exact ⟨fun _ _ => getElem?_insert_of_new hnew, fun _ _ ht => ht, fun _ _ ht => ht⟩
  | keyword text _ hnone hnew =>
    exact ⟨fun _ _ => getElem?_insert_of_new hnew, fun _ _ => getElem?_insert_of_new hnone,
      fun _ _ ht => ht⟩
  | symbol text _ hnone hnew =>
    exact ⟨fun _ _ => getElem?_insert_of_new hnew, fun _ _ ht => ht,
      fun _ _ => getElem?_insert_of_new hnone⟩

theorem Becomes.retains (h : Becomes keys signs v v') : v.Retains v' := by
  induction h with
  | refl => exact .refl _
  | tail _ hchange ih => exact ih.trans hchange.retains

/-! ## Operations are changes -/

/-- A change to a terminal does not show in what it leaves alone. -/
theorem map_modify_eq {α : Type} (terminals : Array Terminal) (i : Nat) (f : Terminal → Terminal)
    (field : Terminal → α) (hf : ∀ terminal, field (f terminal) = field terminal) :
    (terminals.modify i f).map field = terminals.map field := by
  refine Array.ext (by simp) fun j _ _ => ?_
  simp only [Array.getElem_map, Array.getElem_modify]
  split
  · exact hf _
  · rfl

/-- Changes to terminals that leave their names and kinds. -/
theorem change_of_names {terminals : Array Terminal} {pairs : Array (TerminalId × TerminalId)}
    (hnames : terminals.map (·.name) = v.terminals.map (·.name))
    (hkinds : terminals.map (·.kind) = v.terminals.map (·.kind)) :
    Change keys signs v { v with terminals, bracePairs := pairs } :=
  .mark rfl rfl rfl hnames hkinds

theorem change_markDelimiter (v : Vocabulary) (t : TerminalId) :
    Change keys signs v (v.markDelimiter t) :=
  change_of_names (map_modify_eq _ _ _ _ fun _ => rfl) (map_modify_eq _ _ _ _ fun _ => rfl)

theorem becomes_pairBraces (v : Vocabulary) (opening closing : TerminalId) :
    Becomes keys signs v (v.pairBraces opening closing) := by
  have hmarked : Becomes keys signs v ((v.markDelimiter opening).markDelimiter closing) :=
    (Relation.ReflTransGen.single (v.change_markDelimiter opening)).tail (change_markDelimiter _ closing)
  simp only [pairBraces]
  refine hmarked.tail (change_of_names ?_ ?_)
  · rw [map_modify_eq, map_modify_eq] <;> exact fun _ => rfl
  · rw [map_modify_eq, map_modify_eq] <;> exact fun _ => rfl

theorem becomes_declareClass (v : Vocabulary) (kind : TerminalKind) (name : String) :
    Becomes keys signs v (v.declareClass kind name).1 := by
  simp only [declareClass]
  split
  · split
    · exact .refl
    · exact .refl
  · rcases v.add_cases { name, kind } with ⟨hnew, heq⟩ | ⟨e, heq⟩
    · rw [heq]
      exact .single (.tokenClass _ hnew)
    · rw [heq]
      exact .refl

theorem becomes_internKeyword (h : keys (v.keywordKey text)) :
    Becomes keys signs v (v.internKeyword text).1 := by
  rcases v.internKeyword_cases text with ⟨t, -, heq⟩ | ⟨hnone, hnew, heq⟩ | ⟨e, heq⟩
  · rw [heq]
    exact .refl
  · rw [heq]
    exact .single (.keyword text h hnone hnew)
  · rw [heq]
    exact .refl

theorem becomes_internSymbol (h : signs text) : Becomes keys signs v (v.internSymbol text).1 := by
  rcases v.internSymbol_cases text with ⟨t, heq⟩ | ⟨hnone, hnew, heq⟩ | ⟨e, heq⟩
  · rw [heq]
    exact .refl
  · rw [heq]
    exact .single (.symbol text h hnone hnew)
  · rw [heq]
    exact .refl

end Vocabulary

/-! ## Declarations -/

/-- The literals that a step declares itself. -/
def DeclarationStep.literals : DeclarationStep → List Rule.Mention
  | .bracePair opening closing => [.symbol opening, .symbol closing]
  | .punctuation text => [.symbol text]
  | .keyword text => [.keyword text]
  | _ => []

namespace Declarations

open Vocabulary (Becomes)

variable {d : Declarations} {keys signs : String → Prop} {text : String}

theorem vocabulary_intern (d : Declarations) (attempt : Vocabulary → Vocabulary.Attempt) :
    (d.intern attempt).1.vocabulary = (attempt d.vocabulary).1 := by
  simp only [intern]
  split <;> rfl

/-! ## Steps and mentions -/

/-- The literal of a mention may be entered. -/
def Allows (d : Declarations) (keys signs : String → Prop) : Rule.Mention → Prop
  | .keyword text => keys (d.vocabulary.keywordKey text)
  | .symbol text => signs text
  | .ref _ => True

theorem becomes_symbol (h : signs text) :
    Becomes keys signs d.vocabulary (d.symbol text).vocabulary := by
  rw [symbol, vocabulary_intern]
  exact Vocabulary.becomes_internSymbol h

theorem becomes_internMention {m : Rule.Mention} (h : d.Allows keys signs m) :
    Becomes keys signs d.vocabulary (d.internMention m).vocabulary := by
  cases m with
  | keyword text =>
    rw [internMention, keyword, vocabulary_intern]
    exact Vocabulary.becomes_internKeyword h
  | symbol text => exact becomes_symbol h
  | ref name => exact .refl

theorem becomes_bracePair {opening closing : String} (ho : signs opening) (hc : signs closing) :
    Becomes keys signs d.vocabulary (d.bracePair opening closing).vocabulary := by
  have hboth : Becomes keys signs d.vocabulary ((d.symbol opening).symbol closing).vocabulary :=
    (becomes_symbol ho).trans (becomes_symbol hc)
  simp only [bracePair]
  split
  · exact hboth.trans (Vocabulary.becomes_pairBraces _ _ _)
  · exact hboth

theorem becomes_punctuation (h : signs text) :
    Becomes keys signs d.vocabulary (d.punctuation text).vocabulary := by
  have hsymbol : Becomes keys signs d.vocabulary (d.symbol text).vocabulary := becomes_symbol h
  simp only [punctuation, symbol] at hsymbol ⊢
  split
  · next he =>
    rw [he] at hsymbol
    exact hsymbol.tail (Vocabulary.change_markDelimiter _ _)
  · next he => rwa [he] at hsymbol

theorem becomes_declare (d : Declarations) (r : RuleDeclaration) :
    Becomes keys signs d.vocabulary (d.declare r).vocabulary := by
  simp only [declare]
  split
  · exact .refl
  · exact .refl

/-- A step changes the vocabulary by the literals that it declares. -/
theorem becomes_take {step : DeclarationStep} (h : ∀ m ∈ step.literals, d.Allows keys signs m) :
    Becomes keys signs d.vocabulary (d.take step).vocabulary := by
  cases step with
  | caseSensitive on => exact .single (.mark rfl rfl rfl rfl rfl)
  | identifier name | number name | string name | comment name =>
    rw [take, tokenClass, vocabulary_intern]
    exact Vocabulary.becomes_declareClass _ _ _
  | bracePair opening closing =>
    obtain ⟨ho, hc⟩ := List.forall_mem_cons.mp h
    exact becomes_bracePair ho (hc (.symbol closing) List.mem_cons_self)
  | punctuation text => exact becomes_punctuation (h (.symbol text) List.mem_cons_self)
  | keyword text => exact becomes_internMention (h (.keyword text) List.mem_cons_self)
  | rule name rule | transient name rule => exact becomes_declare d _
  | root name => exact .refl

theorem allows_all (d : Declarations) (m : Rule.Mention) :
    d.Allows (fun _ => True) (fun _ => True) m := by
  cases m with
  | keyword | symbol | ref => trivial

theorem becomes_steps (d : Declarations) (steps : List DeclarationStep) :
    Becomes (fun _ => True) (fun _ => True) d.vocabulary (steps.foldl take d).vocabulary := by
  induction steps generalizing d with
  | nil => exact .refl
  | cons step steps ih => exact (becomes_take fun m _ => d.allows_all m).trans (ih (d.take step))

end Declarations

end FourGL
