import FourGL.Parse.Basic
import FourGL.Tree.Arena

/-!
# Parsing with numbered nodes

A builder follows the parsing machine, with the same stack, but it makes numbered nodes: what stands
on its stack are slots, a reduction adds a node to the table, and further items of a list are added
to its node in place. Taking slots off the stack takes nothing out of the table.
-/

namespace FourGL

namespace Arena

/-- The stretch of text that an element covers. -/
def spanOf (a : Arena) (input : Input) : Element → Span
  | .node k =>
    match a.nodes[k]? with
    | some record => record.span
    | none => ⟨0, 0⟩
  | .token i => (input.tokens.getD i default).span

/-- The smallest stretch of text that holds what the slots cover; none if they cover nothing. -/
def hull? (a : Arena) (input : Input) (slots : List (Option Element)) : Option Span :=
  match ((Element.present slots).map (a.spanOf input)).filter (!·.isEmpty) with
  | [] => none
  | s :: ss => some (ss.foldl Span.cover s)

/-- Adds a node with the given slots. -/
def add (a : Arena) (input : Input) (position : Nat) (kind : String)
    (slots : List (Option Element)) : Option Element × Arena :=
  (some (.node a.nodes.size), ⟨a.nodes.push
    ⟨kind, (a.hull? input slots).getD (.emptyAt (input.offset position)), slots⟩⟩)

/-- Adds slots to a node. -/
def extend (a : Arena) (input : Input) (k : Nat) (more : List (Option Element)) : Arena :=
  ⟨a.nodes.modify k fun record => { record with
    span := Tree.extendSpan record.span (a.hull? input more)
    slots := record.slots ++ more }⟩

/-- What becomes of the slots of a right-hand side, reduced at a position. -/
def reduce (a : Arena) (input : Input) (position : Nat) (slots : List (Option Element)) :
    TreeAction → Option Element × Arena
  | .node kind | .emptyList kind => a.add input position kind slots
  | .startList kind => a.add input position kind (slots.take 1)
  | .unwrap => (slots.headD none, a)
  | .absent | .accept => (none, a)
  | .appendList drop =>
    match slots with
    | [] => (none, a)
    | some (.node k) :: more =>
      (some (.node k),
        a.extend input k (if drop && more.length == 2 then more.drop 1 else more))
    | slot :: _ => (slot, a)

end Arena

/-- A machine with the slots that stand for its trees, top first, and the nodes made so far. -/
structure Builder where
  machine : Machine
  slots : List (Option Element)
  arena : Arena

namespace Builder

/-- The builder before the first step. -/
def initial : Builder := ⟨.initial, [none], ⟨#[]⟩⟩

/-- Does with the slots and nodes what the machine does with its trees. -/
def follow (l : Language) (input : Input) (b : Builder) (next : Machine) : Builder :=
  let m := b.machine
  let action := m.stack.head?.bind fun top =>
    l.automaton.action? top.state (input.terminal m.position)
  match action with
  | some (.shift _) => ⟨next, some (.token (input.stream.getD m.position 0)) :: b.slots, b.arena⟩
  | some (.reduce p) =>
    let production := l.grammar.production p
    let arity := production.right.length
    let (slot, arena) :=
      b.arena.reduce input m.position (b.slots.take arity).reverse production.action
    ⟨next, slot :: b.slots.drop arity, arena⟩
  | _ => ⟨next, b.slots.drop (m.stack.length - next.stack.length), b.arena⟩

/-- Steps until the end; none if the allowance is used up. -/
def run (l : Language) (limits : Limits) (input : Input) : Nat → Builder → Option (Builder × Ending)
  | 0, _ => none
  | n + 1, b =>
    match b.machine.step l limits input n with
    | none => none
    | some (.next m) => run l limits input n (b.follow l input m)
    | some (.done m ending) => some ({ b with machine := m }, ending)

/-- The root of an accepted input, if it is a node. -/
def root? (b : Builder) : Ending → Option Nat
  | .accepted _ => (b.slots.head?.join).bind Element.node?
  | _ => none

/-- The parents of all nodes and tokens below a root; none if the allowance is used up. -/
def parents? (b : Builder) (input : Input) (allowance root : Nat) : Option Parents :=
  b.arena.enterBelow allowance [root] (.unknown b.arena.nodes.size input.tokens.size)

end Builder

end FourGL
