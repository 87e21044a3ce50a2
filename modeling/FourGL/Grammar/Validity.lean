import FourGL.Closure.Marking
import FourGL.Grammar.Basic

/-!
# Productive and reachable nonterminals

A nonterminal is productive if it derives some finite text, and reachable if the start symbol
derives some text that mentions it. A grammar in which some nonterminal is not is refused.
-/

namespace FourGL

namespace Production

/-- The nonterminals on the right-hand side. -/
def nonterminals (p : Production) : List NonterminalId := p.right.filterMap Symbol.nonterminal?

/-- A production makes its left-hand side productive when all of its right-hand side is. -/
def productiveClause (p : Production) : Clause := ⟨p.left, p.nonterminals⟩

/-- A production makes its right-hand side reachable when its left-hand side is. -/
def reachableClauses (p : Production) : List Clause := p.nonterminals.map (⟨·, [p.left]⟩)

end Production

/-- Which of `count` nonterminals derive some text. -/
def productiveMarks (count : Nat) (productions : List Production) : Marks :=
  .close count (productions.map Production.productiveClause)

/-- Which of `count` nonterminals can be reached from the start symbol. -/
def reachableMarks (count : Nat) (productions : List Production) : Marks :=
  .close count (⟨Grammar.start, []⟩ :: productions.flatMap Production.reachableClauses)

/-- The first nonterminal but the start symbol that derives no text. -/
def firstUnproductive (count : Nat) (productions : List Production) : Option NonterminalId :=
  (productiveMarks count productions).firstUnmarked 1

/-- The first nonterminal that cannot be reached. -/
def firstUnreachable (count : Nat) (productions : List Production) : Option NonterminalId :=
  (reachableMarks count productions).firstUnmarked 0

/-- Refuses nonterminals that derive no text, then those that cannot be reached. -/
def checkNonterminals (nonterminals : Array Nonterminal) (productions : List Production) :
    Except GrammarError Unit :=
  let name n := (nonterminals.getD n default).name
  match firstUnproductive nonterminals.size productions with
  | some n => .error (.unproductive (name n))
  | none =>
    match firstUnreachable nonterminals.size productions with
    | some n => .error (.unreachable (name n))
    | none => .ok ()

end FourGL
