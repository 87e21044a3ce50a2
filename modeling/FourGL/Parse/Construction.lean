import FourGL.Parse.Input

/-!
# Building trees

What a reduction makes of the trees of its right-hand side. A node covers what its children cover;
one that covers nothing is placed where the next token starts.
-/

namespace FourGL

namespace Tree

/-- A node over the given children. -/
def build (input : Input) (position : Nat) (kind : String) (children : List Tree) : Tree :=
  .node kind ((input.hull? children).getD (.emptyAt (input.offset position))) children

/-- The stretch that a list covers after further trees are added to it. -/
def extendSpan (span : Span) (extra : Option Span) : Span :=
  match extra with
  | none => span
  | some e => if span.isEmpty then e else span.cover e

/-- A list node with further trees added. -/
def append (input : Input) (list : Tree) (more : List Tree) : Tree :=
  match list with
  | .node kind span children =>
    .node kind (extendSpan span (input.hull? more)) (children ++ more)
  | t => t

end Tree

namespace TreeAction

/-- What is added to a list, given the trees after it: the separator, if there is one to be dropped,
is left out. -/
def additions (dropSeparator : Bool) (trees : List Tree) : List Tree :=
  match dropSeparator, trees with
  | true, [_, item] => [item]
  | _, _ => trees

/-- What becomes of the trees of a right-hand side, reduced at a position. -/
def run (input : Input) (position : Nat) (trees : List Tree) : TreeAction → Tree
  | .node kind | .emptyList kind => .build input position kind trees
  | .startList kind => .build input position kind (trees.take 1)
  | .unwrap => trees.headD .absent
  | .absent | .accept => .absent
  | .appendList drop =>
    match trees with
    | [] => .absent
    | list :: more => list.append input (additions drop more)

end TreeAction

end FourGL
