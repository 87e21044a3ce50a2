import FourGL.Tree.Basic

/-!
# Walks through a tree

Nodes and tokens in the order in which they appear, searches by rule, the innermost rule around an
offset, and the topmost nodes of given rules.
-/

namespace FourGL.Tree

/-! ## Visiting in order -/

theorem sizeOf_children_le (t : Tree) : sizeOf t.children ≤ sizeOf t := by
  cases t <;> simp [children]

theorem sizeOf_append_lt (ts us : List Tree) : sizeOf (ts ++ us) < sizeOf ts + sizeOf us := by
  induction ts with
  | nil => simp
  | cons t ts ih => simp only [List.cons_append, List.cons.sizeOf_spec]; omega

/-- Adds to the trees seen those of a list and all below them: a tree, what is in its slots from
left to right, then the next tree. Nothing is visited below a tree that satisfies `ends`. -/
def visit (ends : Tree → Bool) (pending : List Tree) (seen : Array Tree) : Array Tree :=
  match pending with
  | [] => seen
  | t :: rest => visit ends (if ends t then rest else t.children ++ rest) (seen.push t)
termination_by sizeOf pending
decreasing_by
  have := sizeOf_children_le t
  have := sizeOf_append_lt t.children rest
  split <;> simp only [List.cons.sizeOf_spec] <;> omega

/-- All trees of a list and below them, in order. -/
def allOf (ts : List Tree) : List Tree := (visit (fun _ => false) ts #[]).toList

/-- The nodes properly below, each before those below itself. -/
def descendants (t : Tree) : List Tree := (allOf t.children).filter isNode

/-- The tokens of a tree, in order. -/
def tokens (t : Tree) : List Nat := (allOf [t]).filterMap token?

/-- The first token below. -/
def firstToken? (t : Tree) : Option Nat := t.tokens.head?

/-- The first node properly below whose rule satisfies the predicate. -/
def findDescendant? (t : Tree) (p : String → Bool) : Option Tree :=
  t.descendants.find? fun d => p d.kind

/-- The node that has the token among its children. -/
def parentOfToken? (t : Tree) (index : Nat) : Option Tree :=
  ((allOf [t]).filter isNode).find? fun n => n.children.any fun c => c.token? == some index

/-! ## The innermost rule around an offset -/

/-- Whether a child counts as containing the offset: it covers text, and the offset lies in it or at
its end. -/
def holds (t : Tree) (offset : Nat) : Bool := t.isNode && !t.span.isEmpty && t.span.touches offset

mutual

/-- The innermost node whose rule satisfies the predicate, on the way from a node down to the
offset; where children meet at the offset, the way goes into the last. -/
def enclosing? (p : String → Bool) (offset : Nat) : Tree → Option Tree
  | .node kind span children =>
    match enclosingAmong? p offset children with
    | some (some inner) => some inner
    | _ => if p kind then some (.node kind span children) else none
  | _ => none

/-- The same below the last of several trees that holds the offset, if one does. -/
def enclosingAmong? (p : String → Bool) (offset : Nat) : List Tree → Option (Option Tree)
  | [] => none
  | t :: ts =>
    match enclosingAmong? p offset ts with
    | some found => some found
    | none => if t.holds offset then some (t.enclosing? p offset) else none

end

/-! ## Topmost nodes -/

/-- The nodes of rules that satisfy the predicate and have no such node above them, in order. -/
def topmost (p : String → Bool) (t : Tree) : List Tree :=
  (visit ends [t] #[]).toList.filter ends
where
  /-- Whether the tree is a node of such a rule. -/
  ends (t : Tree) : Bool := t.isNode && p t.kind

end FourGL.Tree
