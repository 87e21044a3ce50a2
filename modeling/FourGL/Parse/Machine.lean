import FourGL.Parse.Construction
import FourGL.Parse.Repair
import FourGL.Parse.Report

/-!
# The parsing machine

The machine reads tokens from left to right and keeps a stack of states, each with the tree that was
read on the way to it. A state and the terminal at hand give the next action: shift, reduce, or
accept.

Where there is none, the text has a syntax error. It is reported unless fewer than three tokens have
been shifted since the last recovery. Then the machine applies the first good repair; without one it
discards four tokens and tries again, and at the end of input it stops.

A run of reductions need not end in every grammar, so a run has an allowance of steps.
-/

namespace FourGL

/-- A state of the automaton with the tree read on the way to it. -/
structure Frame where
  state : StateId
  tree : Tree

/-- What the machine keeps between steps. -/
structure Machine where
  /-- The stack, top first. -/
  stack : List Frame
  position : Nat
  /-- The syntax errors met so far. -/
  errors : Nat
  /-- The tokens shifted since the last recovery. -/
  calm : Nat
  /-- The reports made so far, the last one first. -/
  reports : List Diagnostic

/-- How a run ends. -/
inductive Ending where
  /-- The input is accepted, with the tree read. -/
  | accepted (tree : Tree)
  /-- More syntax errors than the limits allow. -/
  | stopped
  /-- A syntax error at the end of input that no repair helps. -/
  | unrepaired
  /-- The tables have no way on after a reduction. -/
  | stuck

/-- What a step leads to. -/
inductive Progress where
  | next (m : Machine)
  | done (m : Machine) (ending : Ending)

namespace Machine

/-- How many tokens must be shifted after a recovery before another error is reported. -/
def quietShifts : Nat := 3

/-- The machine before the first step. -/
def initial : Machine := ⟨[⟨Automaton.start, .absent⟩], 0, 0, quietShifts, []⟩

/-- The states on the stack, top first. -/
def states (m : Machine) : List StateId := m.stack.map (·.state)

/-- Reads the token at hand and enters a state. -/
def shift (input : Input) (next : StateId) (m : Machine) : Machine :=
  { m with
    stack := ⟨next, .token (input.stream.getD m.position 0)⟩ :: m.stack
    position := m.position + 1
    calm := m.calm + 1 }

/-- Replaces the trees of a right-hand side by that of the production. -/
def reduce (l : Language) (input : Input) (p : ProductionId) (m : Machine) : Progress :=
  let production := l.grammar.production p
  let arity := production.right.length
  let trees := ((m.stack.take arity).map (·.tree)).reverse
  match m.stack.drop arity with
  | [] => .done m .stuck
  | top :: rest =>
    match l.automaton.goto? top.state production.left with
    | none => .done m .stuck
    | some next =>
      let tree := production.action.run input m.position trees
      .next { m with stack := ⟨next, tree⟩ :: top :: rest }

/-- Skips tokens and takes states off the stack. -/
def apply (r : Repair) (m : Machine) : Machine :=
  { m with stack := m.stack.drop r.pop, position := m.position + r.skip, calm := 0 }

/-- Counts a syntax error met in a state, and reports it unless one was reported just before. -/
def noteError (l : Language) (input : Input) (s : StateId) (m : Machine) : Machine :=
  { m with
    errors := m.errors + 1
    reports :=
      if quietShifts ≤ m.calm then Report.unexpected l input m.position s :: m.reports
      else m.reports }

/-- Discards tokens where no repair is good. -/
def discard (input : Input) (m : Machine) : Machine :=
  { m with position := min (m.position + Repair.window + 1) input.size }

/-- What happens at a syntax error met in a state; none if the allowance for trials is used up. -/
def recover (l : Language) (limits : Limits) (input : Input) (allowance : Nat) (s : StateId)
    (m : Machine) : Option Progress :=
  let m := m.noteError l input s
  if limits.recoveries < m.errors then
    some (.done { m with reports := Report.stopped input m.position :: m.reports } .stopped)
  else
    match Repair.find l input allowance m.states m.position limits.lookahead with
    | none => none
    | some (some r) => some (.next (m.apply r))
    | some none =>
      if input.size ≤ m.position then some (.done m .unrepaired)
      else some (.next (m.discard input))

/-- One step; none if the allowance for trials is used up. -/
def step (l : Language) (limits : Limits) (input : Input) (allowance : Nat) (m : Machine) :
    Option Progress :=
  match m.stack with
  | [] => some (.done m .stuck)
  | top :: _ =>
    match l.automaton.action? top.state (input.terminal m.position) with
    | some (.shift next) => some (.next (m.shift input next))
    | some (.reduce p) => some (m.reduce l input p)
    | some .accept => some (.done m (.accepted top.tree))
    | none => m.recover l limits input allowance top.state

/-- Steps until the end; none if the allowance is used up. -/
def run (l : Language) (limits : Limits) (input : Input) : Nat → Machine → Option (Machine × Ending)
  | 0, _ => none
  | n + 1, m =>
    match m.step l limits input n with
    | none => none
    | some (.next m) => run l limits input n m
    | some (.done m ending) => some (m, ending)

end Machine

end FourGL
