import FourGL.Text.Span

/-!
# Parse trees

A node stands for a rule. Its children are those of the rule's right-hand side, place for place: an
optional part that is absent leaves an empty slot, so a slot always means the same thing. Leaves are
tokens, given by their index in the list of all tokens.
-/

namespace FourGL

/-- A slot of a parse tree: nothing, a token, or a node of a rule. -/
inductive Tree where
  | absent
  | token (index : Nat)
  | node (kind : String) (span : Span) (children : List Tree)
  deriving Repr, Inhabited

namespace Tree

/-! ## Single trees -/

def isNode : Tree → Bool
  | .node .. => true
  | _ => false

/-- The tree, if it is a node. -/
def node? : Tree → Option Tree
  | t@(.node ..) => some t
  | _ => none

/-- The index of the token that the tree is. -/
def token? : Tree → Option Nat
  | .token i => some i
  | _ => none

/-- The rule of a node. -/
def kind : Tree → String
  | .node kind _ _ => kind
  | _ => ""

/-- The stretch of text that a node covers. -/
def span : Tree → Span
  | .node _ span _ => span
  | _ => ⟨0, 0⟩

/-- The slots of a node. -/
def children : Tree → List Tree
  | .node _ _ children => children
  | _ => []

/-! ## Children -/

/-- What is in a slot, unless it is empty. -/
def slot? (t : Tree) (i : Nat) : Option Tree :=
  match t.children[i]? with
  | some .absent | none => none
  | some c => some c

/-- The node in a slot. -/
def nodeAt? (t : Tree) (i : Nat) : Option Tree := (t.slot? i).bind node?

/-- The token in a slot. -/
def tokenAt? (t : Tree) (i : Nat) : Option Nat := (t.slot? i).bind token?

/-- The children that are nodes. -/
def childNodes (t : Tree) : List Tree := t.children.filter isNode

/-- The first child of the given rule. -/
def childNamed? (t : Tree) (name : String) : Option Tree := t.childNodes.find? (·.kind == name)

/-! ## Paths -/

/-- The tree at the end of a path of slots. -/
def at? (t : Tree) : List Nat → Option Tree
  | [] => some t
  | i :: path => (t.slot? i).bind (·.at? path)

/-- The nodes above the end of a path, the innermost first. -/
def ancestors (t : Tree) : List Nat → List Tree
  | [] => []
  | i :: path =>
    match t.slot? i with
    | some c => c.ancestors path ++ [t]
    | none => []

end Tree

end FourGL
