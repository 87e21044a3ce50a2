import FourGL.Automaton.First
import FourGL.Automaton.States

/-!
# Lookahead sets

An item of a state has as lookahead the terminals that may follow the left-hand side of its
production once the item is complete. All items that start productions of one nonterminal share
their lookahead, so each state has one *slot* for each item of its kernel and one for each
nonterminal.

Lookahead sets flow between slots:

- from an item to the same item one symbol further on, in the state that the symbol leads to;
- from an item to a nonterminal next in it, if all that follows there is nullable; and what follows
  there adds its first set.

The least solution, with the end of input at the first item, gives the lookahead sets.
-/

namespace FourGL

/-- How the slots of all states are numbered: `width` for each state, those of its kernel first. -/
structure SlotPlan where
  kernelSlots : Nat
  width : Nat

namespace SlotPlan

/-- The plan that has room for the largest kernel. -/
def ofCollection (g : Grammar) (c : Collection) : SlotPlan :=
  let kernelSlots := c.kernels.foldl (fun n kernel => max n kernel.length) 0
  ⟨kernelSlots, kernelSlots + g.nonterminals.size⟩

/-- The slot of an item of the kernel. -/
def ofItem (plan : SlotPlan) (s : StateId) (place : Nat) : Nat := s * plan.width + place

/-- The slot of a nonterminal that starts in the state. -/
def ofNonterminal (plan : SlotPlan) (s : StateId) (n : NonterminalId) : Nat :=
  s * plan.width + plan.kernelSlots + n

end SlotPlan

/-- An item of a state with the slot of its lookahead. -/
structure SlottedItem where
  item : Item
  slot : Nat
  deriving DecidableEq, Repr

/-- The items of a state with their slots, in the order of items. -/
def slottedItems (g : Grammar) (corners : Levels) (plan : SlotPlan) (s : StateId)
    (kernel : Kernel) :
    List SlottedItem :=
  let ofKernel := kernel.zipIdx.map fun (i, place) => ⟨i, plan.ofItem s place⟩
  let started := (startedItems g (startedSet g corners kernel)).map fun i =>
    ⟨i, plan.ofNonterminal s (g.production i.production).left⟩
  (ofKernel ++ started).mergeSort fun a b => (compare a.item b.item).isLE

/-- The slot of the item one symbol further on. -/
def advancedSlot? (c : Collection) (plan : SlotPlan) (s : StateId) (symbol : Symbol) (i : Item) :
    Option Nat := do
  let target ← (c.rows.getD s []).lookup symbol
  let place ← (c.kernels.getD target []).idxOf? i.advance
  return plan.ofItem target place

/-- What an item adds to the system of lookahead sets. -/
structure Contribution where
  seed : Option (Nat × Nat) := none
  edges : List (Nat × Nat) := []

/-- The edges and the seed that come from an item of a state. -/
def contribution (g : Grammar) (sets : FirstSets) (c : Collection) (plan : SlotPlan) (s : StateId)
    (i : SlottedItem) : Contribution :=
  match g.rest i.item with
  | [] => {}
  | symbol :: rest =>
    let onward := (advancedSlot? c plan s symbol i.item).toList.map (i.slot, ·)
    match symbol with
    | .terminal _ => { edges := onward }
    | .nonterminal n =>
      let slot := plan.ofNonterminal s n
      { seed := some (slot, sets.ofSequence rest)
        edges := if sets.isNullable rest then (i.slot, slot) :: onward else onward }

/-- The system of lookahead sets of all states, each given by its slotted items. -/
def lookaheadFlow (g : Grammar) (sets : FirstSets) (c : Collection) (plan : SlotPlan)
    (states : Array (List SlottedItem)) : Flow :=
  let contributions := states.zipIdx.toList.flatMap fun (items, s) =>
    items.map (contribution g sets c plan s)
  let start := Levels.pour (Array.replicate (plan.width * states.size) 0) (plan.ofItem 0 0)
    (bit Vocabulary.endOfInput)
  { seeds := contributions.foldl
      (fun seeds k => match k.seed with
        | some (slot, set) => Levels.pour seeds slot set
        | none => seeds)
      start
    edges := (contributions.flatMap (·.edges)).toArray }

end FourGL
