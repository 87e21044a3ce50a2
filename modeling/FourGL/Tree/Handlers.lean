import FourGL.Tree.Walk

/-!
# Handlers by rule

Handlers are for the nodes of some rules. A run walks down from a node and calls the handler of every node
that has one, with what was gathered so far. A handler owns the whole subtree: the walk does not go below a
node that was handled.
-/

namespace FourGL

/-- Handlers for the nodes of rules, the latest first. -/
structure Handlers (σ : Type) where
  entries : List (String × (σ → Tree → σ)) := []

theorem Tree.sizeOf_childNodes_le (t : Tree) : sizeOf t.childNodes ≤ sizeOf t.children := by
  rw [childNodes]
  induction t.children with
  | nil => simp
  | cons c cs ih =>
    rw [List.filter_cons]
    split <;> simp only [List.cons.sizeOf_spec] <;> omega

namespace Handlers

variable {σ : Type}

/-- Enters a handler for the nodes of a rule, in place of any other one. -/
def on (h : Handlers σ) (rule : String) (handler : σ → Tree → σ) : Handlers σ :=
  ⟨(rule, handler) :: h.entries⟩

/-- The handler for the nodes of a rule. -/
def find? (h : Handlers σ) (rule : String) : Option (σ → Tree → σ) := h.entries.lookup rule

/-- Handles pending nodes and those below them, from the first on. The answer is what was gathered in
the end, and how many nodes were handled. -/
def handle (h : Handlers σ) (pending : List Tree) (gathered : σ) (handled : Nat) : σ × Nat :=
  match pending with
  | [] => (gathered, handled)
  | t :: rest =>
    match h.find? t.kind with
    | some handler => h.handle rest (handler gathered t) (handled + 1)
    | none => h.handle (t.childNodes ++ rest) gathered handled
termination_by sizeOf pending
decreasing_by
  · simp only [List.cons.sizeOf_spec]
    omega
  · have := t.sizeOf_childNodes_le
    have := t.sizeOf_children_le
    have := Tree.sizeOf_append_lt t.childNodes rest
    simp only [List.cons.sizeOf_spec]
    omega

/-- Handles a node, or else the nodes below it. -/
def run (h : Handlers σ) (t : Tree) (gathered : σ) : σ × Nat := h.handle [t] gathered 0

end Handlers

end FourGL
