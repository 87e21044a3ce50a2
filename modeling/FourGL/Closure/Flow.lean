import FourGL.Closure.Saturation

/-!
# Sets that flow along edges

Every node of a finite graph holds a set of numbers, kept as the bits of a natural number. An edge
lets the set of its source flow into that of its target. The least solution gives each node what
some node holds from the start from which a path leads to it.

First sets and lookahead sets are solutions of such systems.
-/

namespace FourGL

/-- A graph with a set at each node. -/
structure Flow where
  /-- The sets at the start, by node. -/
  seeds : Array Nat
  /-- Source and target of each edge. -/
  edges : Array (Nat × Nat)

/-- The sets at the nodes. -/
abbrev Levels := Array Nat

namespace Levels

/-- The set at a node. -/
def level (levels : Levels) (node : Nat) : Nat := levels.getD node 0

/-- Adds a set to that of a node. -/
def pour (levels : Levels) (node set : Nat) : Levels := levels.modify node (· ||| set)

/-- Lets the set of an edge's source flow into its target. -/
def along (levels : Levels) (edge : Nat × Nat) : Levels := levels.pour edge.2 (levels.level edge.1)

end Levels

namespace Flow

/-- Lets the sets flow once along every edge, in order. -/
def round (edges : Array (Nat × Nat)) (levels : Levels) : Levels := edges.foldl Levels.along levels

/-- The least solution, where every set holds numbers below `width` only. A round that changes
something adds a number to a set, so there are at most `nodes · width` such rounds. -/
def solve (flow : Flow) (width : Nat) : Levels :=
  saturate (round flow.edges) (flow.seeds.size * width + 1) flow.seeds

end Flow

/-- The numbers below `width` that are bits of the set, in order. -/
def bitsBelow (width set : Nat) : List Nat := (List.range width).filter set.testBit

end FourGL
