import FourGL.Language.Basic
import FourGL.Proofs.Grammar.Evaluation

/-!
# The grammar of Informix 4GL is built

**Theorem (`exists_informix`).** The language exists. Its grammar has the declared rules and root, and
parts that look the same are alike.
-/

namespace FourGL.Language

open Grammar Declarations
open Text (StartsSmall IsSmallWord)

variable {name text : String} {t : TerminalId}

/-! ## Classes, braces and punctuation -/

/-- The vocabulary before any rule. -/
abbrev lexicalVocabulary : Vocabulary := lexicalDeclarations.vocabulary

/-- The names of terminals that are no operators. -/
def classNames : List String :=
  ["$eof", "$error", commentName, identifierName, numberName, stringName]

theorem names_lexicalVocabulary : lexicalVocabulary.names.toList =
    [("$eof", 0), ("$error", 1), ("(", 6), (")", 7), (",", 12), (".", 14), (";", 13),
      (commentName, 5), (identifierName, 2), (numberName, 3), (stringName, 4), ("[", 10), ("]", 11),
      ("\x7b", 8), ("\x7d", 9)] := by
  decide +kernel

theorem symbols_lexicalVocabulary : lexicalVocabulary.symbols.toList =
    [("(", 6), (")", 7), (",", 12), (".", 14), (";", 13), ("[", 10), ("]", 11), ("\x7b", 8),
      ("\x7d", 9)] := by
  decide +kernel

theorem symbol_or_class (h : lexicalVocabulary.names[name]? = some t) :
    lexicalVocabulary.symbols[name]? = some t ∧ (∃ op : Operator, op.text = name) ∨
      name ∈ classNames := by
  have hmem := Std.TreeMap.mem_toList_iff_getElem?_eq_some.mpr h
  have hall : ∀ entry ∈ lexicalVocabulary.names.toList, entry ∈ lexicalVocabulary.symbols.toList ∧
      (∃ op ∈ Operator.all, op.text = entry.1) ∨ entry.1 ∈ classNames := by
    rw [names_lexicalVocabulary, symbols_lexicalVocabulary]
    decide
  refine (hall _ hmem).imp_left fun ⟨hsymbol, op, _, hop⟩ => ⟨?_, op, hop⟩
  exact Std.TreeMap.mem_toList_iff_getElem?_eq_some.mp hsymbol

/-- The names of classes have small letters, but not in front. -/
theorem foreign_of_mem_classNames (h : name ∈ classNames) :
    (∃ c ∈ name.toList, 97 ≤ c.toNat ∧ c.toNat ≤ 122) ∧ ¬ StartsSmall name ∧
      ∀ op : Operator, op.text ≠ name := by
  -- As tests on lists, for there is a test of all characters, too.
  have hall : ∀ name ∈ classNames,
      (name.toList.any fun c => decide (97 ≤ c.toNat ∧ c.toNat ≤ 122)) = true ∧
      (name.toList.head?.all fun c => decide ¬ (97 ≤ c.toNat ∧ c.toNat ≤ 122)) = true ∧
        ∀ op ∈ Operator.all, op.text ≠ name := by decide
  simp only [List.any_eq_true, Option.all_eq_true, decide_eq_true_eq] at hall
  obtain ⟨hsmall, hhead, hop⟩ := hall name h
  refine ⟨hsmall, ?_, fun op => hop op op.mem_all⟩
  rintro ⟨c, cs, hcons, hc⟩
  exact hhead c (by rw [hcons]; rfl) hc

theorem plain_lexicalVocabulary : lexicalVocabulary.Plain where
  caseless := by decide +kernel
  keyword text hword t h := by
    rcases symbol_or_class h with ⟨-, op, hop⟩ | hclass
    · exact absurd hop.symm (hword.uppercase_ne_text op)
    · obtain ⟨⟨c, hc, hsmall⟩, -⟩ := foreign_of_mem_classNames hclass
      have := hword.mem_uppercase hc
      omega
  symbol op t h := by
    rcases symbol_or_class h with ⟨hsymbol, -⟩ | hclass
    · exact ⟨t, hsymbol⟩
    · exact absurd rfl ((foreign_of_mem_classNames hclass).2.2 op)
  small name hname := by
    refine Option.eq_none_iff_forall_ne_some.mpr fun t h => ?_
    rcases symbol_or_class h with ⟨-, op, rfl⟩ | hclass
    · obtain ⟨c, cs, hcons, hletter⟩ := op.exists_head
      obtain ⟨c', cs', hcons', hsmall⟩ := hname
      rw [hcons] at hcons'
      cases hcons'
      omega
    · exact (foreign_of_mem_classNames hclass).2.1 hname

theorem ready_lexicalDeclarations : lexicalDeclarations.Ready 1500 :=
  ⟨plain_lexicalVocabulary, by decide +kernel, by decide +kernel⟩

/-- The classes of tokens that rules mention. -/
theorem namedClass?_lexicalVocabulary : lexicalVocabulary.namedClass? identifierName = some 2 ∧
    lexicalVocabulary.namedClass? numberName = some 3 ∧
    lexicalVocabulary.namedClass? stringName = some 4 := by
  decide +kernel

/-! ## The grammar -/

theorem rulesPass_rules :
    rulesPass [identifierName, numberName, stringName] 1500 "compilation_unit" rules 5 = true := by
  decide +kernel

/-- The step that declares a rule. -/
def stepOf (d : RuleDeclaration) : DeclarationStep :=
  if d.transient then .transient d.name d.rule else .rule d.name d.rule

theorem take_stepOf (d : Declarations) (r : RuleDeclaration) : d.take (stepOf r) = d.declare r := by
  obtain ⟨name, rule, transient⟩ := r
  cases transient <;> rfl

/-- The declarations of the language, step by step. -/
def steps : List DeclarationStep :=
  [.caseSensitive false, .identifier identifierName, .number numberName, .string stringName,
    .comment commentName, .bracePair "(" ")", .bracePair "\x7b" "\x7d", .bracePair "[" "]",
    .punctuation ",", .punctuation ";", .punctuation "."] ++ rules.map stepOf ++
  [.root "compilation_unit"]

theorem declarations_eq_ofSteps : declarations = ofSteps "informix-4gl" steps := by
  rw [ofSteps, steps, List.foldl_append, List.foldl_append, List.foldl_map]
  simp only [take_stepOf]
  rfl

/-- What is known of the grammar: it has the declared rules and root, it keeps the classes and
punctuation, and parts that look the same are alike. -/
structure IsInformix (g : Grammar) : Prop where
  built : g.IsBuilt
  rules_eq : g.rules.toList = rules
  vocabulary : lexicalVocabulary.Extends g.vocabulary
  alike : LooksAlike g.vocabulary g.rules.toList
  root : ∃ e, e.name = "compilation_unit" ∧ g.table.IsRule e g.root

/-- **The language exists.** -/
theorem exists_informix : ∃ g, informix = .ok (ofGrammar g) ∧ IsInformix g := by
  have hclasses : ∀ name ∈ [identifierName, numberName, stringName],
      ∃ t, lexicalVocabulary.namedClass? name = some t := by
    obtain ⟨hidentifier, hnumber, hstring⟩ := namedClass?_lexicalVocabulary
    simp only [List.forall_mem_cons]
    exact ⟨⟨2, hidentifier⟩, ⟨3, hnumber⟩, ⟨4, hstring⟩, List.forall_mem_nil _⟩
  obtain ⟨g, hg, hrules, hextends, halike, hroot⟩ := exists_build_of_passes
    ready_lexicalDeclarations (by decide +kernel) hclasses rulesPass_rules
  have hg : declarations.build = .ok g := hg
  refine ⟨g, ?_, ⟨"informix-4gl", steps, ?_⟩, hrules, hextends, hrules.symm ▸ halike, hroot⟩
  · rw [informix, hg]
    rfl
  · rw [← declarations_eq_ofSteps, hg]

end FourGL.Language
