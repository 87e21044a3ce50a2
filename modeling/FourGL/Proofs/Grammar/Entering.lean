import FourGL.Proofs.Grammar.Literals
import FourGL.Proofs.Text.Bytes
import Mathlib.Algebra.GroupWithZero.Nat

/-!
# Literals that enter without a defect

A vocabulary refuses a literal for its spelling, for its name, or because it is full. Where case
does not matter, keywords are small words, symbols are operators and rules have a small letter in
front, only the last can happen: the names of keywords are capital words, so the names of keywords,
symbols and rules never meet.

**Theorem (`exists_entered_of_plain`).** From a plain vocabulary with enough room, the plain
literals of all rules are entered without a defect, and what was there before stays as it was.
-/

namespace FourGL

open Text (IsSmallWord StartsSmall)

/-! ## Spellings -/

/-- An operator starts neither with a letter nor with a low line. -/
theorem Operator.exists_head (op : Operator) : ∃ c cs, op.text.toList = c :: cs ∧
    ¬ (65 ≤ c.toNat ∧ c.toNat ≤ 90 ∨ c.toNat = 95 ∨ 97 ≤ c.toNat ∧ c.toNat ≤ 122) := by
  cases op <;> exact ⟨_, _, rfl, by decide⟩

namespace Text

variable {s : String} {c : Char} {cs : List Char}

/-- The capital form of a small word has neither small letters nor signs. -/
theorem IsSmallWord.mem_uppercase (h : IsSmallWord s) (hc : c ∈ (uppercase s).toList) :
    65 ≤ c.toNat ∧ c.toNat ≤ 90 ∨ c.toNat = 95 := by
  rw [uppercase_eq h, String.toList_ofList] at hc
  obtain ⟨d, hd, rfl⟩ := List.mem_map.mp hc
  have hsmall := h.2 d hd
  have hupper := toNat_toUpper hsmall
  rw [isSmall_iff] at hsmall
  split at hupper <;> omega

theorem IsSmallWord.uppercase_ne_text (h : IsSmallWord s) (op : Operator) :
    uppercase s ≠ op.text := by
  intro heq
  obtain ⟨c, cs, hcons, hletter⟩ := op.exists_head
  have := h.mem_uppercase (c := c) (by
    rw [heq, hcons]
    exact List.mem_cons_self)
  omega

theorem IsSmallWord.isKeywordText (h : IsSmallWord s) : Vocabulary.isKeywordText s = true := by
  have hall : ∀ c ∈ s.toList, c.isDigit = false ∧ (isAlphanumeric c || c == '_') = true := by
    intro c hc
    have hsmall := h.2 c hc
    have hnat := isSmall_iff.mp hsmall
    refine ⟨?_, ?_⟩
    · rw [Char.isDigit, Bool.and_eq_false_iff, decide_eq_false_iff_not, decide_eq_false_iff_not]
      refine Or.inr fun h' => ?_
      have : c.toNat ≤ 57 := h'
      omega
    · rw [isAlphanumeric, if_pos (by omega)]
      rw [isSmall] at hsmall
      have halpha : c.isAlphanum = (c.isUpper || c.isLower || c.isDigit) := rfl
      rw [halpha]
      cases hlower : c.isLower <;> simp_all
  rw [Vocabulary.isKeywordText]
  split
  · next hnil => exact absurd hnil h.1
  · next c cs hcons =>
    rw [hcons] at hall
    rw [(hall c List.mem_cons_self).1]
    simp only [Bool.not_false, Bool.true_and, List.all_eq_true]
    exact fun d hd => (hall d hd).2

end Text

/-! ## Vocabularies that keep what they hold -/

namespace Vocabulary

variable {v v' v'' : Vocabulary} {t : TerminalId} {text name : String} {terminal : Terminal}

/-- A later vocabulary, in which all that was entered is as it was. -/
structure Extends (v v' : Vocabulary) : Prop where
  caseSensitive : v'.caseSensitive = v.caseSensitive
  terminals : ∀ (t : TerminalId) (terminal : Terminal), v.terminals[t]? = some terminal →
    v'.terminals[t]? = some terminal
  names : ∀ (name : String) (t : TerminalId), v.names[name]? = some t → v'.names[name]? = some t
  keywords : ∀ (key : String) (t : TerminalId), v.keywords[key]? = some t →
    v'.keywords[key]? = some t
  symbols : ∀ (text : String) (t : TerminalId), v.symbols[text]? = some t →
    v'.symbols[text]? = some t

theorem Extends.refl (v : Vocabulary) : v.Extends v :=
  ⟨rfl, fun _ _ h => h, fun _ _ h => h, fun _ _ h => h, fun _ _ h => h⟩

theorem Extends.trans (h : v.Extends v') (h' : v'.Extends v'') : v.Extends v'' :=
  ⟨h'.caseSensitive.trans h.caseSensitive, fun t x hx => h'.terminals t x (h.terminals t x hx),
    fun name t ht => h'.names name t (h.names name t ht),
    fun key t ht => h'.keywords key t (h.keywords key t ht),
    fun text t ht => h'.symbols text t (h.symbols text t ht)⟩

theorem Extends.terminal_eq (h : v.Extends v') (ht : v.terminals[t]? = some terminal) :
    v'.terminal t = v.terminal t := by
  rw [Vocabulary.terminal, Vocabulary.terminal, Array.getD_eq_getD_getElem?,
    Array.getD_eq_getD_getElem?, ht, h.terminals t terminal ht]

/-- Classes of tokens stay. -/
theorem Extends.namedClass? (h : v.Extends v') (ht : v.namedClass? name = some t) :
    v'.namedClass? name = some t := by
  obtain ⟨hname, hclass⟩ := Option.filter_eq_some_iff.mp ht
  refine Option.filter_eq_some_iff.mpr ⟨h.names name t hname, ?_⟩
  cases hterminal : v.terminals[t]? with
  | none =>
    rw [Vocabulary.terminal, Array.getD_eq_getD_getElem?, hterminal] at hclass
    cases hclass
  | some terminal => rwa [h.terminal_eq hterminal]

/-- Punctuation stays what it is. -/
theorem Extends.isPunctuation (h : v.Extends v') (ht : v.isPunctuation text = true) :
    v'.isPunctuation text = true := by
  rw [Vocabulary.isPunctuation] at ht ⊢
  cases hsymbol : v.symbol? text with
  | none =>
    rw [hsymbol] at ht
    cases ht
  | some t =>
    rw [hsymbol] at ht
    rw [show v'.symbol? text = some t from h.symbols text t hsymbol]
    cases hterminal : v.terminals[t]? with
    | none =>
      simp only [Vocabulary.terminal, Array.getD_eq_getD_getElem?, hterminal] at ht
      cases ht
    | some terminal =>
      simp only [h.terminal_eq hterminal]
      exact ht

theorem getElem?_insert_of_new {table : Std.TreeMap String TerminalId} {new key : String}
    {t t' : TerminalId} (hnew : table[new]? = none) (h : table[key]? = some t) :
    (table.insert new t')[key]? = some t := by
  rw [Std.TreeMap.getElem?_insert]
  split
  · next heq =>
    rw [Std.LawfulEqCmp.eq_of_compare heq, h] at hnew
    cases hnew
  · exact h

/-- The vocabulary with a terminal entered. -/
def push (v : Vocabulary) (terminal : Terminal) : Vocabulary :=
  { v with
    terminals := v.terminals.push terminal
    names := v.names.insert terminal.name v.terminals.size }

theorem add_eq (hnew : v.names[terminal.name]? = none) (hroom : v.terminals.size ≤ maxIndex) :
    v.add terminal = (v.push terminal, .ok v.terminals.size) := by
  simp only [add, hnew, if_pos hroom]
  rfl

theorem extends_push (hnew : v.names[terminal.name]? = none) : v.Extends (v.push terminal) := by
  refine ⟨rfl, fun t x hx => ?_, fun name t ht => getElem?_insert_of_new hnew ht,
    fun _ _ h => h, fun _ _ h => h⟩
  have hlt := (Array.getElem?_eq_some_iff.mp hx).1
  show (v.terminals.push terminal)[t]? = some x
  rw [Array.getElem?_push, if_neg (Nat.ne_of_lt hlt), hx]

/-! ## Plain vocabularies -/

/-- Case does not matter, and no name stands in the way of a small word, an operator or a name with
a small letter in front, but that of the literal itself. -/
structure Plain (v : Vocabulary) : Prop where
  caseless : v.caseSensitive = false
  keyword : ∀ text, IsSmallWord text → ∀ t, v.names[Text.uppercase text]? = some t →
    ∃ t', v.keywords[text]? = some t'
  symbol : ∀ (op : Operator) t, v.names[op.text]? = some t → ∃ t', v.symbols[op.text]? = some t'
  small : ∀ name, StartsSmall name → v.names[name]? = none

theorem Plain.keyword?_eq (h : v.Plain) (hword : IsSmallWord text) :
    v.keyword? text = v.keywords[text]? := by
  rw [keyword?, keywordKey, h.caseless, if_neg Bool.false_ne_true, hword.lowercase_eq]

/-- A name that is entered and one that was there. -/
theorem getElem?_names_push {name : String} (ht : (v.push terminal).names[name]? = some t) :
    name = terminal.name ∨ v.names[name]? = some t := by
  have ht' : (v.names.insert terminal.name v.terminals.size)[name]? = some t := ht
  rw [Std.TreeMap.getElem?_insert] at ht'
  split at ht'
  · next heq => exact Or.inl (Std.LawfulEqCmp.eq_of_compare heq).symm
  · exact Or.inr ht'

/-- What an attempt comes to in a plain vocabulary: one terminal more at most. -/
def Admits (v : Vocabulary) (r : Attempt) : Prop :=
  ∃ v' t, r = (v', .ok t) ∧ v'.Plain ∧ v.Extends v' ∧ v'.terminals.size ≤ v.terminals.size + 1

theorem Plain.internKeyword (h : v.Plain) (hword : IsSmallWord text)
    (hroom : v.terminals.size ≤ maxIndex) : v.Admits (v.internKeyword text) := by
  rw [Vocabulary.internKeyword, if_pos hword.isKeywordText, h.keyword?_eq hword]
  cases hkey : v.keywords[text]? with
  | some t => exact ⟨v, t, rfl, h, .refl v, Nat.le_succ _⟩
  | none =>
    set terminal : Terminal := { name := Text.uppercase text, kind := .keyword, text := some text }
    have hnew : v.names[terminal.name]? = none := by
      by_contra hne
      obtain ⟨t, ht⟩ := Option.ne_none_iff_exists'.mp hne
      obtain ⟨t', ht'⟩ := h.keyword text hword t ht
      rw [hkey] at ht'
      cases ht'
    simp only [add_eq hnew hroom]
    have hentry : (v.push terminal).keywordKey text = text := by
      rw [keywordKey, show (v.push terminal).caseSensitive = false from h.caseless,
        if_neg Bool.false_ne_true, hword.lowercase_eq]
    rw [hentry]
    have hpush := extends_push hnew
    refine ⟨_, _, rfl, ⟨h.caseless, fun text' hword' t ht => ?_, fun op t ht => ?_,
      fun name hname => ?_⟩, ⟨rfl, hpush.terminals, hpush.names,
        fun key t ht => getElem?_insert_of_new hkey ht, hpush.symbols⟩, by simp [push]⟩
    · refine exists_getElem?_insert v.keywords text text' _ ?_
      rcases getElem?_names_push ht with heq | hold
      · exact Or.inl (hword'.uppercase_injective hword heq)
      · exact Or.inr (h.keyword text' hword' t hold)
    · rcases getElem?_names_push ht with heq | hold
      · exact absurd heq (hword.uppercase_ne_text op).symm
      · exact h.symbol op t hold
    · by_contra hne
      obtain ⟨t, ht⟩ := Option.ne_none_iff_exists'.mp hne
      rcases getElem?_names_push ht with heq | hold
      · obtain ⟨c, cs, hcons, hsmall⟩ := hname
        have := hword.mem_uppercase (c := c) (by
          rw [← show name = Text.uppercase text from heq, hcons]
          exact List.mem_cons_self)
        omega
      · rw [h.small name hname] at hold
        cases hold

theorem Plain.internSymbol (h : v.Plain) (op : Operator) (hroom : v.terminals.size ≤ maxIndex) :
    v.Admits (v.internSymbol op.text) := by
  rw [Vocabulary.internSymbol, symbol?]
  cases hkey : v.symbols[op.text]? with
  | some t => exact ⟨v, t, rfl, h, .refl v, Nat.le_succ _⟩
  | none =>
    set terminal : Terminal := { name := op.text, kind := .symbol, text := some op.text }
    have hnew : v.names[terminal.name]? = none := by
      by_contra hne
      obtain ⟨t, ht⟩ := Option.ne_none_iff_exists'.mp hne
      obtain ⟨t', ht'⟩ := h.symbol op t ht
      rw [hkey] at ht'
      cases ht'
    simp only [Operator.ofText?_text, Option.isNone_some, Bool.false_eq_true, if_false,
      add_eq hnew hroom]
    have hpush := extends_push hnew
    refine ⟨_, _, rfl, ⟨h.caseless, fun text' hword' t ht => ?_, fun op' t ht => ?_,
      fun name hname => ?_⟩, ⟨rfl, hpush.terminals, hpush.names, hpush.keywords,
        fun key t ht => getElem?_insert_of_new hkey ht⟩, by simp [push]⟩
    · rcases getElem?_names_push ht with heq | hold
      · exact absurd heq (hword'.uppercase_ne_text op)
      · exact h.keyword text' hword' t hold
    · refine exists_getElem?_insert v.symbols op.text op'.text _ ?_
      rcases getElem?_names_push ht with heq | hold
      · exact Or.inl heq
      · exact Or.inr (h.symbol op' t hold)
    · by_contra hne
      obtain ⟨t, ht⟩ := Option.ne_none_iff_exists'.mp hne
      rcases getElem?_names_push ht with heq | hold
      · obtain ⟨c, cs, hcons, hletter⟩ := op.exists_head
        obtain ⟨c', cs', hcons', hsmall⟩ := hname
        rw [show name = op.text from heq, hcons] at hcons'
        cases hcons'
        omega
      · rw [h.small name hname] at hold
        cases hold

end Vocabulary

/-! ## Declarations -/

/-- The spelling of a literal is plain: a keyword is a small word, a symbol an operator. -/
def Rule.Mention.Plain : Rule.Mention → Prop
  | .keyword text => IsSmallWord text
  | .symbol text => ∃ op : Operator, op.text = text
  | .ref _ => True

namespace Declarations

variable {d d' : Declarations}

/-- Without a defect so far, and with room for a number of terminals. -/
structure Ready (d : Declarations) (room : Nat) : Prop where
  plain : d.vocabulary.Plain
  defect : d.defect = none
  room : d.vocabulary.terminals.size + room ≤ maxIndex + 1

theorem Ready.intern {n : Nat} (h : d.Ready (n + 1)) {attempt : Vocabulary → Vocabulary.Attempt}
    (ha : d.vocabulary.Admits (attempt d.vocabulary)) :
    (d.intern attempt).1.Ready n ∧ d.vocabulary.Extends (d.intern attempt).1.vocabulary := by
  obtain ⟨v', t, heq, hplain, hext, hsize⟩ := ha
  have hroom := h.room
  simp only [Declarations.intern, heq]
  exact ⟨⟨hplain, h.defect, by simp only; omega⟩, hext⟩

theorem Ready.internMention {n : Nat} (h : d.Ready (n + 1)) {m : Rule.Mention} (hm : m.Plain) :
    (d.internMention m).Ready n ∧ d.vocabulary.Extends (d.internMention m).vocabulary := by
  have hroom := h.room
  cases m with
  | keyword text => exact h.intern (h.plain.internKeyword hm (by omega))
  | symbol text =>
    obtain ⟨op, rfl⟩ := hm
    exact h.intern (h.plain.internSymbol op (by omega))
  | ref name =>
    refine ⟨⟨h.plain, h.defect, ?_⟩, .refl _⟩
    simp only [Declarations.internMention]
    omega

theorem Ready.internMentions {n : Nat} {ms : List Rule.Mention} (h : d.Ready (n + ms.length))
    (hms : ∀ m ∈ ms, m.Plain) : (ms.foldl Declarations.internMention d).Ready n ∧
      d.vocabulary.Extends (ms.foldl Declarations.internMention d).vocabulary := by
  induction ms generalizing d with
  | nil => exact ⟨h, .refl _⟩
  | cons m ms ih =>
    obtain ⟨hm, hms⟩ := List.forall_mem_cons.mp hms
    obtain ⟨hready, hext⟩ := h.internMention (n := n + ms.length) hm
    obtain ⟨hready', hext'⟩ := ih hready hms
    exact ⟨hready', hext.trans hext'⟩

/-- **Plain literals enter.** With enough room, those of all rules are entered without a defect, and
what was entered before stays as it was. -/
theorem exists_entered_of_plain {rules : List RuleDeclaration} {n : Nat}
    (h : d.Ready (n + (rules.map (·.rule.mentions.length)).sum))
    (hnames : ∀ r ∈ rules, StartsSmall r.name)
    (hmentions : ∀ r ∈ rules, ∀ m ∈ r.rule.mentions, m.Plain) :
    ∃ d', rules.foldlM internRule d = .ok d' ∧ d'.Ready n ∧ d.vocabulary.Extends d'.vocabulary := by
  induction rules generalizing d with
  | nil => exact ⟨d, rfl, h, .refl _⟩
  | cons r rules ih =>
    obtain ⟨hname, hnames⟩ := List.forall_mem_cons.mp hnames
    obtain ⟨hm, hmentions⟩ := List.forall_mem_cons.mp hmentions
    obtain ⟨hready, hext⟩ := Ready.internMentions
      (n := n + (rules.map (·.rule.mentions.length)).sum) (by
        simp only [List.map_cons, List.sum_cons] at h
        rwa [Nat.add_assoc, Nat.add_comm _ r.rule.mentions.length]) hm
    obtain ⟨d', hd', hready', hext'⟩ := ih hready hnames hmentions
    refine ⟨d', ?_, hready', hext.trans hext'⟩
    rw [List.foldlM_cons, internRule, h.plain.small r.name hname]
    exact hd'

end Declarations

end FourGL
