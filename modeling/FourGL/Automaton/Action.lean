import FourGL.Automaton.Lookahead

/-!
# Actions and conflicts

Each complete item of a state asks for a reduction on every terminal of its lookahead, each terminal
next in some item asks for a shift. Where two ask for the same terminal, a shift wins over a
reduction, acceptance over a reduction, and of two reductions the one by the earlier production.
Every reduction that loses is recorded as a conflict.
-/

namespace FourGL

/-- What the parser does on seeing a terminal. -/
inductive ParseAction where
  | shift (target : StateId)
  | reduce (p : ProductionId)
  | accept
  deriving DecidableEq, Repr, Inhabited

/-- What competes in a conflict. -/
inductive ConflictKind where
  | shiftReduce
  | reduceReduce
  deriving DecidableEq, Repr

/-- The outcome of a competition for one terminal in which a reduction lost. -/
structure Loss where
  kind : ConflictKind
  kept : ParseAction
  dropped : ProductionId
  deriving DecidableEq, Repr

/-- A loss, with the state and the terminal where it occurred. -/
structure Conflict where
  state : StateId
  lookahead : TerminalId
  loss : Loss
  deriving DecidableEq, Repr

namespace ParseAction

/-- The action that holds after another one is asked for, and the loss that this entails. -/
def contend (held : Option ParseAction) (asked : ParseAction) : ParseAction × Option Loss :=
  match held, asked with
  | some (.reduce p), .shift s => (.shift s, some ⟨.shiftReduce, .shift s, p⟩)
  | some (.reduce p), .accept => (.accept, some ⟨.reduceReduce, .accept, p⟩)
  | _, .shift s => (.shift s, none)
  | _, .accept => (.accept, none)
  | none, .reduce p => (.reduce p, none)
  | some (.shift s), .reduce p => (.shift s, some ⟨.shiftReduce, .shift s, p⟩)
  | some .accept, .reduce p => (.accept, some ⟨.reduceReduce, .accept, p⟩)
  | some (.reduce q), .reduce p =>
    if p = q then (.reduce q, none)
    else (.reduce (min p q), some ⟨.reduceReduce, .reduce (min p q), max p q⟩)

end ParseAction

/-- What an item asks for: terminals with actions. -/
def Item.requests (g : Grammar) (row : List (Symbol × StateId)) (lookahead : Nat) (i : Item) :
    List (TerminalId × ParseAction) :=
  match g.nextSymbol? i with
  | some (.terminal t) => ((row.lookup (.terminal t)).map fun s => (t, .shift s)).toList
  | some (.nonterminal _) => []
  | none =>
    let action := if i.production = Grammar.startProduction then .accept else .reduce i.production
    (bitsBelow g.vocabulary.terminals.size lookahead).map (·, action)

/-- The actions of a state by terminal. -/
abbrev ActionRow := Array (Option ParseAction)

namespace ActionRow

/-- The action on a terminal; none is a syntax error. -/
def action? (row : ActionRow) (t : TerminalId) : Option ParseAction := row.getD t none

/-- The terminals with an action, in order. -/
def expected (row : ActionRow) : List TerminalId :=
  (List.range row.size).filter fun t => (row.action? t).isSome

/-- Enters what is asked for, and records the loss if there is one. -/
def enter (s : StateId) (filled : ActionRow × List Conflict) (request : TerminalId × ParseAction) :
    ActionRow × List Conflict :=
  let (action, loss) := ParseAction.contend (filled.1.action? request.1) request.2
  (filled.1.setIfInBounds request.1 (some action),
    filled.2 ++ (loss.map (⟨s, request.1, ·⟩)).toList)

/-- The actions that the requests of a state amount to, and its conflicts in the order of discovery.
-/
def fill (terminals : Nat) (s : StateId) (requests : List (TerminalId × ParseAction)) :
    ActionRow × List Conflict :=
  requests.foldl (enter s) (Array.replicate terminals none, [])

end ActionRow

end FourGL
