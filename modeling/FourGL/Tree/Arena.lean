import FourGL.Text.Span

/-!
# Numbered nodes

A parse keeps all nodes it has made in one table and refers to them by number. A slot of a node is
empty or holds a token or another node. Nodes that recovery has given up stay in the table, so the
tree of the parse is what is found from its root.

The way up is kept in a table of parents, which one walk down from the root fills.
-/

namespace FourGL

/-- What a slot can hold: a node, by its number, or a token, by its index. -/
inductive Element where
  | node (number : Nat)
  | token (index : Nat)
  deriving DecidableEq, Repr

namespace Element

/-- The number of the node that the element is. -/
def node? : Element → Option Nat
  | .node k => some k
  | .token _ => none

/-- What is in slots. -/
def present : List (Option Element) → List Element
  | [] => []
  | none :: slots => present slots
  | some e :: slots => e :: present slots

end Element

/-- A node in a table: its rule, the stretch of text it covers, and its slots. -/
structure NodeRecord where
  kind : String
  span : Span
  slots : List (Option Element)
  deriving Repr

/-- A table of nodes. -/
structure Arena where
  nodes : Array NodeRecord
  deriving Repr

namespace Arena

/-- The slots of a node. -/
def slotsOf (a : Arena) (k : Nat) : List (Option Element) :=
  match a.nodes[k]? with
  | some record => record.slots
  | none => []

/-- What is in the slots of a node. -/
def childrenOf (a : Arena) (k : Nat) : List Element := Element.present (a.slotsOf k)

/-- The tokens among the pending elements and below them, from left to right; none if the allowance
is used up. -/
def tokensBelow (a : Arena) : Nat → List Element → Option (List Nat)
  | 0, _ => none
  | _ + 1, [] => some []
  | n + 1, .token i :: rest => (a.tokensBelow n rest).map (i :: ·)
  | n + 1, .node k :: rest => a.tokensBelow n (a.childrenOf k ++ rest)

end Arena

/-- The node above each node and above each token, where it is known. -/
structure Parents where
  ofNodes : Array (Option Nat)
  ofTokens : Array (Option Nat)
  deriving Repr

namespace Parents

/-- No parent of the given numbers of nodes and tokens is known. -/
def unknown (nodes tokens : Nat) : Parents :=
  ⟨Array.replicate nodes none, Array.replicate tokens none⟩

/-- The node above an element. -/
def of? (parents : Parents) : Element → Option Nat
  | .node k => parents.ofNodes.getD k none
  | .token i => parents.ofTokens.getD i none

/-- Enters a node as the parent of an element. -/
def enter (parents : Parents) (above : Nat) : Element → Parents
  | .node k => { parents with ofNodes := parents.ofNodes.setIfInBounds k (some above) }
  | .token i => { parents with ofTokens := parents.ofTokens.setIfInBounds i (some above) }

/-- The nodes above an element, innermost first; none if the allowance is used up. -/
def ancestors (parents : Parents) : Nat → Element → Option (List Nat)
  | 0, _ => none
  | n + 1, e =>
    match parents.of? e with
    | none => some []
    | some k => (parents.ancestors n (.node k)).map (k :: ·)

end Parents

namespace Arena

/-- Enters the children of pending nodes and of all nodes below them, the last child first; none if
the allowance is used up. -/
def enterBelow (a : Arena) : Nat → List Nat → Parents → Option Parents
  | 0, _, _ => none
  | _ + 1, [], parents => some parents
  | n + 1, k :: pending, parents =>
    a.enterBelow n (((a.childrenOf k).filterMap Element.node?).reverse ++ pending)
      ((a.childrenOf k).foldl (·.enter k) parents)

end Arena

end FourGL
