import Std.Data.TreeMap
import FourGL.Automaton.Item
import FourGL.Closure.Flow

/-!
# States

A state of the parser is known by its kernel, the items that were reached by reading a symbol. Its
other items start the productions of nonterminals at some position of the state. Reading a symbol
leads to the state of the items that have the symbol next, each one further on.

States are numbered in the order in which they are found, breadth first from the item that starts
the root; the successors of a state come in the order of their symbols.
-/

namespace FourGL

/-! ## Closures -/

/-- For every nonterminal, the nonterminals at the left edge of what it derives, itself among them.
-/
def leftCorners (g : Grammar) : Levels :=
  let count := g.nonterminals.size
  let edges := g.productions.filterMap fun p =>
    (p.right.head?.bind Symbol.nonterminal?).map (·, p.left)
  Flow.solve ⟨(Array.range count).map fun n => 1 <<< n, edges⟩ count

/-- The nonterminals that start somewhere in the state with the given kernel. -/
def startedSet (g : Grammar) (corners : Levels) (kernel : Kernel) : Nat :=
  kernel.foldl
    (fun set i => match g.nextSymbol? i with
      | some (.nonterminal n) => set ||| corners.level n
      | _ => set)
    0

/-- The items at the start of the productions of a set of nonterminals, in order. -/
def startedItems (g : Grammar) (set : Nat) : List Item :=
  let started := (List.range g.productions.size).filter fun p => set.testBit (g.production p).left
  started.map Item.initial

/-! ## Successors -/

/-- Reading a symbol, and the item then reached. -/
abbrev Reading := Symbol × Item

/-- The order of readings, by symbol and then by item. -/
def Reading.le (a b : Reading) : Bool :=
  (compareLex (compareOn (·.1)) (compareOn (·.2)) a b).isLE

/-- Adds an item in front of a kernel unless it is the first one there. -/
def Kernel.add (i : Item) (kernel : Kernel) : Kernel :=
  if kernel.head? = some i then kernel else i :: kernel

/-- The kernels reached by the readings, which are in order. -/
def gatherReadings : List Reading → List (Symbol × Kernel)
  | [] => []
  | (s, i) :: rest =>
    match gatherReadings rest with
    | (t, kernel) :: more =>
      if s = t then (s, Kernel.add i kernel) :: more else (s, [i]) :: (t, kernel) :: more
    | [] => [(s, [i])]

/-- The symbols that the items can read next, in order, with the kernels they lead to. -/
def successors (g : Grammar) (items : List Item) : List (Symbol × Kernel) :=
  let readings := items.filterMap fun i => (g.nextSymbol? i).map (·, i.advance)
  gatherReadings (readings.mergeSort Reading.le)

/-! ## The collection of states -/

/-- A state of the parser, by number. -/
abbrev StateId := Nat

/-- The states found so far; those explored have a row of transitions. -/
structure Collection where
  kernels : Array Kernel
  numbers : Std.TreeMap Kernel StateId
  rows : Array (List (Symbol × StateId))

namespace Collection

/-- The kernel of the first state. -/
def startKernel : Kernel := [Item.initial Grammar.startProduction]

/-- The first state, not yet explored. -/
def initial : Collection :=
  ⟨#[startKernel], (∅ : Std.TreeMap Kernel StateId).insert startKernel 0, #[]⟩

/-- The number of the state with the given kernel, entered if it is new. -/
def intern (c : Collection) (kernel : Kernel) : Collection × StateId :=
  match c.numbers[kernel]? with
  | some s => (c, s)
  | none =>
    let s := c.kernels.size
    ({ c with kernels := c.kernels.push kernel, numbers := c.numbers.insert kernel s }, s)

/-- Enters the kernels of a row, in order. -/
def internRow (c : Collection) : List (Symbol × Kernel) → Collection × List (Symbol × StateId)
  | [] => (c, [])
  | (symbol, kernel) :: more =>
    let (c, s) := c.intern kernel
    let (c, row) := c.internRow more
    (c, (symbol, s) :: row)

/-- All items of the state with the given kernel. -/
def itemsOf (g : Grammar) (corners : Levels) (kernel : Kernel) : List Item :=
  kernel ++ startedItems g (startedSet g corners kernel)

/-- Explores the first state that has no row yet. -/
def exploreNext (g : Grammar) (corners : Levels) (c : Collection) : Collection :=
  match c.kernels[c.rows.size]? with
  | none => c
  | some kernel =>
    let (c, row) := c.internRow (successors g (itemsOf g corners kernel))
    { c with rows := c.rows.push row }

/-- Whether every state has a row. -/
def isComplete (c : Collection) : Bool := c.rows.size == c.kernels.size

/-- Explores at most the given number of states. -/
def explore (g : Grammar) (corners : Levels) : Nat → Collection → Collection
  | 0, c => c
  | n + 1, c => if c.isComplete then c else explore g corners n (exploreNext g corners c)

/-- The number of items of a grammar. -/
def itemCount (g : Grammar) : Nat :=
  g.productions.toList.foldr (fun p n => p.right.length + 1 + n) 0

/-- All states of a grammar. Kernels are sets of items, so there are at most as many as those have
subsets. -/
def ofGrammar (g : Grammar) (corners : Levels) : Collection :=
  explore g corners (1 <<< itemCount g) initial

end Collection

end FourGL
