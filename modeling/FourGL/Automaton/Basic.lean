import FourGL.Automaton.Action

/-!
# The parser's automaton

The states of a grammar with their actions and transitions, and every conflict that was resolved
while the actions were entered, in the order of states. A strict build refuses grammars with
conflicts.
-/

namespace FourGL

/-- The tables of a parser. -/
structure Automaton where
  kernels : Array Kernel
  actions : Array ActionRow
  transitions : Array (List (Symbol × StateId))
  conflicts : List Conflict

namespace Automaton

/-- The state in which a parse starts. -/
def start : StateId := 0

/-- The requests of all items of a state, in the order of items. -/
def requestsOf (g : Grammar) (levels : Levels) (row : List (Symbol × StateId))
    (items : List SlottedItem) : List (TerminalId × ParseAction) :=
  items.flatMap fun i => i.item.requests g row (levels.level i.slot)

/-- The automaton of a grammar. That it may have more than 2 ^ 32 - 1 states, which would be too many, has
no branch here, as no grammar is taken to have so many. -/
def ofGrammar (g : Grammar) : Automaton :=
  let terminals := g.vocabulary.terminals.size
  let corners := leftCorners g
  let c := Collection.ofGrammar g corners
  let plan := SlotPlan.ofCollection g c
  let states := c.kernels.mapIdx fun s kernel => slottedItems g corners plan s kernel
  let levels := (lookaheadFlow g (.ofGrammar g) c plan states).solve terminals
  let filled := states.mapIdx fun s items =>
    ActionRow.fill terminals s (requestsOf g levels (c.rows.getD s []) items)
  { kernels := c.kernels
    actions := filled.map (·.1)
    transitions := c.rows
    conflicts := filled.toList.flatMap (·.2) }

/-- The number of states. -/
def size (a : Automaton) : Nat := a.actions.size

/-- The action of a state on a terminal; none is a syntax error. -/
def action? (a : Automaton) (s : StateId) (t : TerminalId) : Option ParseAction :=
  (a.actions.getD s #[]).action? t

/-- The state entered after reducing to a nonterminal. -/
def goto? (a : Automaton) (s : StateId) (n : NonterminalId) : Option StateId :=
  (a.transitions.getD s []).lookup (.nonterminal n)

/-- The transitions of a state on nonterminals, in order. -/
def gotos (a : Automaton) (s : StateId) : List (NonterminalId × StateId) :=
  (a.transitions.getD s []).filterMap fun (symbol, target) => symbol.nonterminal?.map (·, target)

/-- The terminals with an action in a state, in order. -/
def expected (a : Automaton) (s : StateId) : List TerminalId := (a.actions.getD s #[]).expected

/-- The kernel of a state as text. -/
def renderState (a : Automaton) (g : Grammar) (s : StateId) : String :=
  g.renderKernel (a.kernels.getD s [])

end Automaton

/-! ## Conflicts -/

/-- The kind of a conflict in words. -/
def ConflictKind.description : ConflictKind → String
  | .shiftReduce => "shift/reduce"
  | .reduceReduce => "reduce/reduce"

/-- An action in words. -/
def ParseAction.render (g : Grammar) : ParseAction → String
  | .shift s => s!"shift to {s}"
  | .reduce p => "reduce " ++ g.renderProduction p
  | .accept => "accept"

/-- A conflict in words. -/
def Conflict.render (g : Grammar) (k : Conflict) : String :=
  s!"state {k.state}: " ++ k.loss.kind.description ++ " conflict on "
    ++ g.vocabulary.nameOf k.lookahead ++ ": kept " ++ k.loss.kept.render g
    ++ ", dropped reduce " ++ g.renderProduction k.loss.dropped

/-- The automaton of a grammar that has no conflicts. -/
def Automaton.ofGrammarStrict (g : Grammar) : Except GrammarError Automaton :=
  let a := Automaton.ofGrammar g
  match a.conflicts with
  | [] => .ok a
  | k :: _ => .error (.conflicts a.conflicts.length (k.render g))

end FourGL
