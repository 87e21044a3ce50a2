import FourGL.Closure.Flow
import FourGL.Grammar.Validity

/-!
# First sets

A nonterminal is *nullable* if it derives the empty text; its *first set* holds the terminals with
which the texts that it derives begin. Both extend to sequences of symbols.

Nullability is a question of marking: a nonterminal is nullable once all symbols of one of its
productions are. First sets flow: what may lead a right-hand side also leads its left-hand side.
-/

namespace FourGL

/-- The set that holds one number. -/
def bit (n : Nat) : Nat := 1 <<< n

/-! ## Nullable nonterminals -/

namespace Production

/-- A production without terminals makes its left-hand side nullable when its right-hand side is. -/
def nullableClause? (p : Production) : Option Clause :=
  if p.right.all (·.nonterminal?.isSome) then some ⟨p.left, p.nonterminals⟩ else none

end Production

/-- Which of `count` nonterminals derive the empty text. -/
def nullableMarks (count : Nat) (productions : List Production) : Marks :=
  .close count (productions.filterMap Production.nullableClause?)

/-- Whether a symbol derives the empty text. -/
def Symbol.isNullable (nullable : Marks) : Symbol → Bool
  | .terminal _ => false
  | .nonterminal n => nullable.has n

/-- The symbols of a sequence that only nullable ones precede. -/
def leaders (nullable : Marks) : List Symbol → List Symbol
  | [] => []
  | s :: rest => s :: if s.isNullable nullable then leaders nullable rest else []

/-! ## First sets -/

/-- The system whose solution is the first set of every nonterminal. -/
def firstFlow (count : Nat) (nullable : Marks) (productions : List Production) : Flow :=
  let led := productions.flatMap fun p => (leaders nullable p.right).map (p.left, ·)
  { seeds := led.foldl
      (fun seeds (left, s) => match s with
        | .terminal t => Levels.pour seeds left (bit t)
        | .nonterminal _ => seeds)
      (Array.replicate count 0)
    edges := (led.filterMap fun (left, s) => s.nonterminal?.map (·, left)).toArray }

/-- Nullability and first set of every nonterminal. -/
structure FirstSets where
  nullable : Marks
  first : Levels

namespace FirstSets

/-- The first sets of a grammar. -/
def ofGrammar (g : Grammar) : FirstSets :=
  let productions := g.productions.toList
  let nullable := nullableMarks g.nonterminals.size productions
  let flow := firstFlow g.nonterminals.size nullable productions
  ⟨nullable, flow.solve g.vocabulary.terminals.size⟩

/-- The first set of a symbol. -/
def ofSymbol (sets : FirstSets) : Symbol → Nat
  | .terminal t => bit t
  | .nonterminal n => sets.first.level n

/-- The terminals with which the texts of a sequence begin. -/
def ofSequence (sets : FirstSets) (symbols : List Symbol) : Nat :=
  (leaders sets.nullable symbols).foldl (fun set s => set ||| sets.ofSymbol s) 0

/-- Whether a sequence derives the empty text. -/
def isNullable (sets : FirstSets) (symbols : List Symbol) : Bool :=
  symbols.all (·.isNullable sets.nullable)

end FirstSets

end FourGL
