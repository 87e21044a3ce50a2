import FourGL.Grammar.Lowering
import FourGL.Grammar.Validity

/-!
# Declaring a grammar

`Declarations` collects what a grammar consists of: classes of tokens, brace pairs, punctuation,
keywords, rules and the root. A defect does not stop the declaration; the first one is kept and
comes out when the grammar is built.

Building enters the literals of every rule into the vocabulary, lowers the rules to productions, and
checks that every nonterminal is productive and reachable.
-/

namespace FourGL

/-- A grammar in the course of declaration. -/
structure Declarations where
  name : String
  vocabulary : Vocabulary := .initial
  rules : Array RuleDeclaration := #[]
  root : Option String := none
  /-- The first defect met. -/
  defect : Option GrammarError := none

namespace Declarations

/-- No declarations yet; case matters. -/
def empty (name : String) : Declarations := { name }

/-- Keeps a defect if it is the first. -/
def note (d : Declarations) (e : GrammarError) : Declarations :=
  { d with defect := d.defect.or (some e) }

/-- Sets whether case matters in keywords. -/
def caseSensitive (d : Declarations) (on : Bool) : Declarations :=
  { d with vocabulary := { d.vocabulary with caseSensitive := on } }

/-- The terminal that an attempt to enter it gives, or none with its defect noted. -/
def intern (d : Declarations) (attempt : Vocabulary → Vocabulary.Attempt) :
    Declarations × Option TerminalId :=
  let (vocabulary, result) := attempt d.vocabulary
  let d := { d with vocabulary }
  match result with
  | .ok t => (d, some t)
  | .error e => (d.note e, none)

/-- Declares a class of tokens. -/
def tokenClass (d : Declarations) (kind : TerminalKind) (name : String) : Declarations :=
  (d.intern (·.declareClass kind name)).1

/-- Declares a keyword. -/
def keyword (d : Declarations) (text : String) : Declarations :=
  (d.intern (·.internKeyword text)).1

/-- Declares a symbol. -/
def symbol (d : Declarations) (text : String) : Declarations :=
  (d.intern (·.internSymbol text)).1

/-- Declares a pair of braces. -/
def bracePair (d : Declarations) (opening closing : String) : Declarations :=
  let (d, o) := d.intern (·.internSymbol opening)
  let (d, c) := d.intern (·.internSymbol closing)
  match o, c with
  | some o, some c => { d with vocabulary := d.vocabulary.pairBraces o c }
  | _, _ => d

/-- Declares a punctuation mark. -/
def punctuation (d : Declarations) (text : String) : Declarations :=
  match d.intern (·.internSymbol text) with
  | (d, some t) => { d with vocabulary := d.vocabulary.markDelimiter t }
  | (d, none) => d

/-- Declares a rule. -/
def declare (d : Declarations) (r : RuleDeclaration) : Declarations :=
  if d.rules.any (·.name == r.name) then d.note (.duplicateRule r.name)
  else { d with rules := d.rules.push r }

/-- Declares a rule that always makes a node of its own. -/
def rule (d : Declarations) (name : String) (rule : Rule) : Declarations :=
  d.declare ⟨name, rule, false⟩

/-- Declares a rule that passes a single tree through. -/
def transient (d : Declarations) (name : String) (rule : Rule) : Declarations :=
  d.declare ⟨name, rule, true⟩

/-- Sets the root. -/
def rooted (d : Declarations) (name : String) : Declarations := { d with root := some name }

/-! ## Building -/

/-- Enters a literal that a rule mentions. -/
def internMention (d : Declarations) : Rule.Mention → Declarations
  | .keyword text => d.keyword text
  | .symbol text => d.symbol text
  | .ref _ => d

/-- Enters the literals of a rule, whose name must not be that of a terminal known by then. -/
def internRule (d : Declarations) (r : RuleDeclaration) : Except GrammarError Declarations :=
  match d.vocabulary.names[r.name]? with
  | some t =>
    .error (.conflictingTerminal r.name (d.vocabulary.terminal t).kind.description "rule")
  | none => .ok (r.rule.mentions.foldl internMention d)

/-- Refuses declarations with a defect. -/
def checkDefect (d : Declarations) : Except GrammarError Unit :=
  match d.defect with
  | some e => .error e
  | none => .ok ()

/-- What the declarations amount to, without a check of its nonterminals. -/
def assemble (d : Declarations) : Except GrammarError Grammar := do
  let some root := d.root | throw (.missingRoot d.name)
  d.checkDefect
  let d ← d.rules.foldlM internRule d
  d.checkDefect
  let (rootId, s) ← (Lower.all d.rules.toList root).run (Lower.initial d.vocabulary)
  return {
    name := d.name
    vocabulary := d.vocabulary
    rules := d.rules
    root := rootId
    nonterminals := s.nonterminals
    nonterminalNames := s.names
    productions := s.productions
    nodeKinds := s.nodeKinds }

/-- The grammar declared. -/
def build (d : Declarations) : Except GrammarError Grammar := do
  let g ← d.assemble
  checkNonterminals g.nonterminals g.productions.toList
  return g

end Declarations

end FourGL
