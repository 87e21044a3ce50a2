import FourGL.Grammar.Production
import FourGL.Rule

/-!
# Grammars

A `Grammar` is what a valid declaration amounts to: its vocabulary, its rules as declared, and the
nonterminals and productions that they stand for. Production 0 derives the root from a start symbol
of its own.
-/

namespace FourGL

/-- A rule as declared. -/
structure RuleDeclaration where
  name : String
  rule : Rule
  transient : Bool
  deriving Repr, Inhabited

/-- A valid grammar. -/
structure Grammar where
  name : String
  vocabulary : Vocabulary
  rules : Array RuleDeclaration
  root : NonterminalId
  nonterminals : Array Nonterminal
  nonterminalNames : Std.TreeMap String NonterminalId
  productions : Array Production
  /-- The kinds of tree nodes, in the order of their first use. -/
  nodeKinds : Array String

namespace Grammar

/-- The start symbol, which derives the root. -/
def start : NonterminalId := 0

/-- The production of the start symbol. -/
def startProduction : ProductionId := 0

/-- The nonterminal with the given identity. -/
def nonterminal (g : Grammar) (n : NonterminalId) : Nonterminal := g.nonterminals.getD n default

/-- The production with the given identity. -/
def production (g : Grammar) (p : ProductionId) : Production := g.productions.getD p default

/-- The nonterminal with the given name. -/
def nonterminal? (g : Grammar) (name : String) : Option NonterminalId := g.nonterminalNames[name]?

/-- The declared rule with the given name. -/
def rule? (g : Grammar) (name : String) : Option Rule :=
  (g.rules.find? (·.name == name)).map (·.rule)

/-- The place of a node kind in the order of first use. -/
def nodeKind? (g : Grammar) (name : String) : Option Nat := g.nodeKinds.findIdx? (· == name)

/-- The name of a symbol. -/
def nameOf (g : Grammar) : Symbol → String
  | .terminal t => g.vocabulary.nameOf t
  | .nonterminal n => (g.nonterminal n).name

/-- The names of symbols, each after a blank. -/
def namesOf (g : Grammar) (symbols : List Symbol) : String :=
  String.join (symbols.map fun s => " " ++ g.nameOf s)

/-- A production as text. -/
def renderProduction (g : Grammar) (p : ProductionId) : String :=
  let production := g.production p
  (g.nonterminal production.left).name ++ " ->" ++ g.namesOf production.right

/-- The rules as text, one a line; a tilde marks the transient ones. -/
def render (g : Grammar) : String :=
  String.join (g.rules.toList.map fun d =>
    (if d.transient then "~" else "") ++ d.name ++ " ::= " ++ d.rule.render ++ "\n")

end Grammar

end FourGL
