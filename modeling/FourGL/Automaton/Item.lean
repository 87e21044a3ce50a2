import FourGL.Grammar.Basic

/-!
# Items

An item is a production with a position in its right-hand side: what stands before the position has
been read. Items are ordered by production, then by position; a *kernel* is a list of items in this
order.
-/

namespace FourGL

/-- A production with a position in its right-hand side. -/
structure Item where
  production : ProductionId
  dot : Nat
  deriving DecidableEq, Repr, Inhabited

namespace Item

instance : Ord Item := ⟨compareLex (compareOn Item.production) (compareOn Item.dot)⟩

/-- The item with the position one symbol further on. Positions have the width of an index, and behind
the last one comes the first. -/
def advance (i : Item) : Item := { i with dot := if i.dot < maxIndex then i.dot + 1 else 0 }

/-- The item before anything is read. -/
def initial (p : ProductionId) : Item := ⟨p, 0⟩

end Item

/-- Items in order, each once. -/
abbrev Kernel := List Item

namespace Symbol

/-- Terminals come before nonterminals. -/
def rank : Symbol → Nat
  | .terminal _ => 0
  | .nonterminal _ => 1

/-- The place of the symbol in its table. -/
def index : Symbol → Nat
  | .terminal t => t
  | .nonterminal n => n

instance : Ord Symbol := ⟨compareLex (compareOn Symbol.rank) (compareOn Symbol.index)⟩

end Symbol

namespace Grammar

/-- What follows the position of an item. -/
def rest (g : Grammar) (i : Item) : List Symbol := (g.production i.production).right.drop i.dot

/-- The symbol after the position of an item. -/
def nextSymbol? (g : Grammar) (i : Item) : Option Symbol := (g.rest i).head?

/-- The items of a kernel as text, one a line, the position shown by a point. -/
def renderKernel (g : Grammar) (kernel : Kernel) : String :=
  String.join (kernel.map fun i =>
    let p := g.production i.production
    (g.nonterminal p.left).name ++ " ->" ++ g.namesOf (p.right.take i.dot) ++ " ."
      ++ g.namesOf (p.right.drop i.dot) ++ "\n")

end Grammar

end FourGL
