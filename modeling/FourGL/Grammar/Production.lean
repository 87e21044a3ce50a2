import FourGL.Grammar.Vocabulary

/-!
# Productions

The plain form of a grammar: each production replaces a nonterminal by a sequence of symbols, and
says what becomes of the trees of those symbols.
-/

namespace FourGL

/-- A nonterminal symbol, given by its place in the grammar. -/
abbrev NonterminalId := Nat

/-- A production, given by its place in the grammar. -/
abbrev ProductionId := Nat

/-- A symbol of a grammar. -/
inductive Symbol where
  | terminal (t : TerminalId)
  | nonterminal (n : NonterminalId)
  deriving DecidableEq, Repr, Hashable, Inhabited

namespace Symbol

/-- The nonterminal that the symbol is, if it is one. -/
def nonterminal? : Symbol → Option NonterminalId
  | .nonterminal n => some n
  | .terminal _ => none

/-- The order of symbols: terminals first, each kind in the order of its table. -/
def precedes : Symbol → Symbol → Bool
  | .terminal s, .terminal t => s < t
  | .terminal _, .nonterminal _ => true
  | .nonterminal _, .terminal _ => false
  | .nonterminal m, .nonterminal n => m < n

end Symbol

/-- A nonterminal symbol. -/
structure Nonterminal where
  /-- The name of the rule, or the rendering of the part of a rule that it stands for. -/
  name : String
  /-- Whether the rule passes a single tree through instead of wrapping it. -/
  transient : Bool
  /-- Whether it stands for a part of a rule. -/
  helper : Bool
  deriving DecidableEq, Repr, Inhabited

/-- What becomes of the trees of a production's right-hand side. -/
inductive TreeAction where
  /-- The whole input has been read. -/
  | accept
  /-- They become the children of a node. -/
  | node (kind : String)
  /-- The only one is passed through. -/
  | unwrap
  /-- Nothing stands in the place of an absent part. -/
  | absent
  /-- A list node without children. -/
  | emptyList (kind : String)
  /-- A list node with the first item. -/
  | startList (kind : String)
  /-- The trees after the first are added to it, a list node; a separator may be left out. -/
  | appendList (dropSeparator : Bool)
  deriving DecidableEq, Repr, Inhabited

/-- A production. -/
structure Production where
  left : NonterminalId
  right : List Symbol
  action : TreeAction
  deriving DecidableEq, Repr, Inhabited

end FourGL
