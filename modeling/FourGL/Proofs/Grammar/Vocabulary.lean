import FourGL.Grammar.Declarations
import Mathlib.Tactic.ByContra
import Mathlib.Tactic.SplitIfs

/-!
# What every declared vocabulary satisfies

A grammar is declared step by step. Whatever the steps are, the end of input stays the first
terminal, and no literal and no class of tokens ever stands for it.

**Theorem (`sound_ofSteps`).** The vocabulary of any sequence of declarations is sound.
-/

namespace FourGL

/-! ## Declarations as steps -/

/-- A step of the declaration of a grammar. -/
inductive DeclarationStep where
  | caseSensitive (on : Bool)
  | identifier (name : String)
  | number (name : String)
  | string (name : String)
  | comment (name : String)
  | bracePair (opening closing : String)
  | punctuation (text : String)
  | keyword (text : String)
  | rule (name : String) (rule : Rule)
  | transient (name : String) (rule : Rule)
  | root (name : String)

namespace Declarations

/-- The declarations after one more step. -/
def take (d : Declarations) : DeclarationStep → Declarations
  | .caseSensitive on => d.caseSensitive on
  | .identifier name => d.tokenClass .identifier name
  | .number name => d.tokenClass .number name
  | .string name => d.tokenClass .string name
  | .comment name => d.tokenClass .comment name
  | .bracePair opening closing => d.bracePair opening closing
  | .punctuation text => d.punctuation text
  | .keyword text => d.keyword text
  | .rule name rule => d.rule name rule
  | .transient name rule => d.transient name rule
  | .root name => d.rooted name

/-- The declarations that a sequence of steps makes. -/
def ofSteps (name : String) (steps : List DeclarationStep) : Declarations :=
  steps.foldl take (empty name)

end Declarations

/-- The grammar is what some sequence of declarations builds. -/
def Grammar.IsBuilt (g : Grammar) : Prop :=
  ∃ name steps, (Declarations.ofSteps name steps).build = .ok g

/-! ## Sound vocabularies -/

namespace Vocabulary

variable {v v' : Vocabulary} {t : TerminalId} {text name : String}

/-- The terminal can stand in a rule: it is in the vocabulary, and not the end of input. -/
def Usable (v : Vocabulary) (t : TerminalId) : Prop := t ≠ endOfInput ∧ t < v.terminals.size

/-- The end of input is the first terminal, and no literal stands for it. -/
structure Sound (v : Vocabulary) : Prop where
  first : v.terminals[endOfInput]?.map (·.kind) = some .endOfInput
  keywords : ∀ (text : String) (t : TerminalId), v.keywords[text]? = some t → v.Usable t
  symbols : ∀ (text : String) (t : TerminalId), v.symbols[text]? = some t → v.Usable t

theorem Sound.size_pos (h : v.Sound) : 0 < v.terminals.size := by
  have := h.first
  by_contra hz
  rw [Array.getElem?_eq_none (by simp only [endOfInput]; omega)] at this
  simp at this

theorem sound_initial : initial.Sound where
  first := rfl
  keywords _ _ h := by simp [initial] at h
  symbols _ _ h := by simp [initial] at h

/-- A terminal of another kind than the end of input is usable. -/
theorem Sound.usable_of_kind (h : v.Sound) {terminal : Terminal}
    (ht : v.terminals[t]? = some terminal) (hk : terminal.kind ≠ .endOfInput) : v.Usable t := by
  refine ⟨?_, (Array.getElem?_eq_some_iff.mp ht).1⟩
  rintro rfl
  have := h.first
  rw [ht] at this
  exact hk (by simpa using this)

theorem Sound.usable_ofKind (h : v.Sound) {kind : TerminalKind} (hk : kind ≠ .endOfInput)
    (ht : v.ofKind? kind = some t) : v.Usable t := by
  obtain ⟨hlt, heq, -⟩ := Array.findIdx?_eq_some_iff_getElem.mp ht
  refine h.usable_of_kind (Array.getElem?_eq_getElem hlt) ?_
  rw [eq_of_beq heq]
  exact hk

theorem Sound.usable_namedClass (h : v.Sound) (ht : v.namedClass? name = some t) :
    v.Usable t := by
  obtain ⟨-, hclass⟩ := Option.filter_eq_some_iff.mp ht
  rw [terminal, Array.getD_eq_getD_getElem?] at hclass
  cases hget : v.terminals[t]? with
  | none =>
    rw [hget] at hclass
    exact absurd hclass (by decide)
  | some terminal =>
    rw [hget] at hclass
    refine h.usable_of_kind hget fun hkind => ?_
    simp [Terminal.isNamedClass, hkind] at hclass

/-! ## Operations keep vocabularies sound -/

/-- An attempt that leads from a sound vocabulary to a sound one, with a usable terminal. -/
def SoundAttempt (r : Attempt) : Prop :=
  r.1.Sound ∧ ∀ t, r.2 = .ok t → r.1.Usable t

/-- Changes that keep the kinds of all terminals and the literals. -/
theorem Sound.of_kinds (h : v.Sound) {terminals : Array Terminal}
    {pairs : Array (TerminalId × TerminalId)} {caseSensitive : Bool}
    (hkinds : terminals.map (·.kind) = v.terminals.map (·.kind)) :
    Sound { v with terminals, caseSensitive, bracePairs := pairs } := by
  have hsize : terminals.size = v.terminals.size := by
    simpa using congrArg Array.size hkinds
  refine ⟨?_, fun text t ht => ?_, fun text t ht => ?_⟩
  · show terminals[endOfInput]?.map (·.kind) = _
    rw [← Array.getElem?_map, hkinds, Array.getElem?_map]
    exact h.first
  · exact ⟨(h.keywords text t ht).1, by rw [hsize]; exact (h.keywords text t ht).2⟩
  · exact ⟨(h.symbols text t ht).1, by rw [hsize]; exact (h.symbols text t ht).2⟩

theorem Sound.add (h : v.Sound) (terminal : Terminal) : SoundAttempt (v.add terminal) := by
  simp only [Vocabulary.add]
  split
  · exact ⟨h, by simp⟩
  · split
    · have hgrow : ∀ t, v.Usable t →
          Usable { v with terminals := v.terminals.push terminal } t := fun t ht =>
        ⟨ht.1, by
          simp only [Array.size_push]
          exact Nat.lt_succ_of_lt ht.2⟩
      refine ⟨⟨?_, fun text t ht => hgrow t (h.keywords text t ht),
        fun text t ht => hgrow t (h.symbols text t ht)⟩, ?_⟩
      · have hpos := h.size_pos
        show (v.terminals.push terminal)[endOfInput]?.map (·.kind) = _
        rw [Array.getElem?_push, if_neg (by simp only [endOfInput]; omega)]
        exact h.first
      · rintro t ⟨⟩
        have hpos := h.size_pos
        exact ⟨Nat.pos_iff_ne_zero.mp hpos, by simp⟩
    · exact ⟨h, by simp⟩

theorem Sound.declareClass (h : v.Sound) {kind : TerminalKind} (hk : kind ≠ .endOfInput) :
    SoundAttempt (v.declareClass kind name) := by
  simp only [Vocabulary.declareClass]
  split
  · next t ht =>
    split
    · exact ⟨h, by rintro _ ⟨⟩; exact h.usable_ofKind hk ht⟩
    · exact ⟨h, by simp⟩
  · exact h.add _

theorem Sound.internKeyword (h : v.Sound) (text : String) :
    SoundAttempt (v.internKeyword text) := by
  simp only [Vocabulary.internKeyword]
  split
  · split
    · next t ht => exact ⟨h, by rintro _ ⟨⟩; exact h.keywords _ _ ht⟩
    · have hadd := h.add { name := Text.uppercase text, kind := .keyword, text := some text }
      split
      · next v' t he =>
        rw [he] at hadd
        refine ⟨⟨hadd.1.first, fun key s hs => ?_, hadd.1.symbols⟩, hadd.2⟩
        rw [Std.TreeMap.getElem?_insert] at hs
        split at hs
        · cases hs
          exact hadd.2 _ rfl
        · exact hadd.1.keywords key s hs
      · exact hadd
  · exact ⟨h, by simp⟩

theorem Sound.internSymbol (h : v.Sound) (text : String) :
    SoundAttempt (v.internSymbol text) := by
  simp only [Vocabulary.internSymbol]
  split
  · next t ht => exact ⟨h, by rintro _ ⟨⟩; exact h.symbols _ _ ht⟩
  · split
    · exact ⟨h, by simp⟩
    · have hadd := h.add { name := text, kind := .symbol, text := some text }
      split
      · next v' t he =>
        rw [he] at hadd
        refine ⟨⟨hadd.1.first, hadd.1.keywords, fun key s hs => ?_⟩, hadd.2⟩
        rw [Std.TreeMap.getElem?_insert] at hs
        split at hs
        · cases hs
          exact hadd.2 _ rfl
        · exact hadd.1.symbols key s hs
      · exact hadd

theorem kinds_modify (terminals : Array Terminal) (i : Nat) (f : Terminal → Terminal)
    (hf : ∀ terminal, (f terminal).kind = terminal.kind) :
    (terminals.modify i f).map (·.kind) = terminals.map (·.kind) := by
  refine Array.ext (by simp) fun j _ _ => ?_
  simp only [Array.getElem_map, Array.getElem_modify]
  split
  · exact hf _
  · rfl

theorem Sound.markDelimiter (h : v.Sound) (t : TerminalId) : (v.markDelimiter t).Sound :=
  h.of_kinds (kinds_modify _ _ _ fun _ => rfl)

theorem Sound.pairBraces (h : v.Sound) (opening closing : TerminalId) :
    (v.pairBraces opening closing).Sound := by
  have hmarked := (h.markDelimiter opening).markDelimiter closing
  simp only [Vocabulary.pairBraces]
  refine hmarked.of_kinds ?_
  rw [kinds_modify, kinds_modify] <;> exact fun _ => rfl

end Vocabulary

/-! ## Declarations keep their vocabulary sound -/

namespace Declarations

open Vocabulary (SoundAttempt)

variable {d : Declarations}

theorem sound_intern {attempt : Vocabulary → Vocabulary.Attempt}
    (ha : SoundAttempt (attempt d.vocabulary)) :
    (d.intern attempt).1.vocabulary.Sound := by
  simp only [intern]
  split
  · exact ha.1
  · exact ha.1

theorem sound_tokenClass (h : d.vocabulary.Sound) {kind : TerminalKind}
    (hk : kind ≠ .endOfInput) (name : String) : (d.tokenClass kind name).vocabulary.Sound :=
  sound_intern (h.declareClass hk)

theorem sound_keyword (h : d.vocabulary.Sound) (text : String) :
    (d.keyword text).vocabulary.Sound :=
  sound_intern (h.internKeyword text)

theorem sound_symbol (h : d.vocabulary.Sound) (text : String) :
    (d.symbol text).vocabulary.Sound :=
  sound_intern (h.internSymbol text)

theorem sound_bracePair (h : d.vocabulary.Sound) (opening closing : String) :
    (d.bracePair opening closing).vocabulary.Sound := by
  have ho := sound_symbol h opening
  have hc := sound_symbol ho closing
  simp only [bracePair]
  split
  · exact hc.pairBraces _ _
  · exact hc

theorem sound_punctuation (h : d.vocabulary.Sound) (text : String) :
    (d.punctuation text).vocabulary.Sound := by
  have hs := sound_symbol h text
  simp only [punctuation, symbol] at hs ⊢
  split
  · next he =>
    rw [he] at hs
    exact hs.markDelimiter _
  · next he =>
    rw [he] at hs
    exact hs

theorem sound_declare (h : d.vocabulary.Sound) (r : RuleDeclaration) :
    (d.declare r).vocabulary.Sound := by
  simp only [declare]
  split
  · exact h
  · exact h

theorem sound_take (h : d.vocabulary.Sound) (step : DeclarationStep) :
    (d.take step).vocabulary.Sound := by
  cases step with
  | caseSensitive on => exact h.of_kinds rfl
  | identifier name | number name | string name | comment name =>
    exact sound_tokenClass h (by decide) name
  | bracePair opening closing => exact sound_bracePair h opening closing
  | punctuation text => exact sound_punctuation h text
  | keyword text => exact sound_keyword h text
  | rule name rule | transient name rule => exact sound_declare h _
  | root name => exact h

/-- **Declared vocabularies are sound.** -/
theorem sound_ofSteps (name : String) (steps : List DeclarationStep) :
    (ofSteps name steps).vocabulary.Sound := by
  have hall : ∀ d : Declarations, d.vocabulary.Sound → (steps.foldl take d).vocabulary.Sound := by
    induction steps with
    | nil => exact fun _ hd => hd
    | cons step steps ih => exact fun d hd => ih _ (sound_take hd step)
  exact hall _ Vocabulary.sound_initial

theorem sound_internMention (h : d.vocabulary.Sound) (m : Rule.Mention) :
    (d.internMention m).vocabulary.Sound := by
  cases m with
  | keyword text => exact sound_keyword h text
  | symbol text => exact sound_symbol h text
  | ref name => exact h

theorem sound_internRule {d' : Declarations} (h : d.vocabulary.Sound) {r : RuleDeclaration}
    (hr : d.internRule r = .ok d') : d'.vocabulary.Sound := by
  simp only [internRule] at hr
  split at hr
  · cases hr
  · cases hr
    have hall : ∀ (ms : List Rule.Mention) (d : Declarations), d.vocabulary.Sound →
        (ms.foldl internMention d).vocabulary.Sound := by
      intro ms
      induction ms with
      | nil => exact fun _ hd => hd
      | cons m ms ih => exact fun d hd => ih _ (sound_internMention hd m)
    exact hall _ d h

end Declarations

end FourGL
