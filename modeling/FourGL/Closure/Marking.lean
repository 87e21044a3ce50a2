import FourGL.Closure.Saturation

/-!
# Marking by clauses

A clause marks its head once every member of its body is marked. The closure of a list of clauses
marks exactly what has a finite derivation. Whether a nonterminal derives the empty text, whether it
derives any text at all, and whether it can be reached are questions of this form.
-/

namespace FourGL

/-- The head is marked once the whole body is. -/
structure Clause where
  head : Nat
  body : List Nat
  deriving DecidableEq, Repr

/-- What is marked, by index. -/
abbrev Marks := Array Bool

namespace Marks

/-- Whether the index is marked. -/
def has (marks : Marks) (i : Nat) : Bool := marks.getD i false

/-- Marks the head of the clause if its body is marked. -/
def apply (marks : Marks) (c : Clause) : Marks :=
  if c.body.all marks.has then marks.setIfInBounds c.head true else marks

/-- Applies every clause once, in order. -/
def round (clauses : List Clause) (marks : Marks) : Marks := clauses.foldl apply marks

/-- What the clauses mark among the first `size` indices. A round that changes something marks one
more index, so there are at most `size` such rounds. -/
def close (size : Nat) (clauses : List Clause) : Marks :=
  saturate (round clauses) (size + 1) (Array.replicate size false)

/-- The first index from `start` on that is not marked. -/
def firstUnmarked (marks : Marks) (start : Nat) : Option Nat :=
  (List.range' start (marks.size - start)).find? fun i => !marks.has i

end Marks

end FourGL
