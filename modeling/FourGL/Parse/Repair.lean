import FourGL.Parse.Input

/-!
# Recovering from a syntax error

A repair skips some tokens and then takes some states off the stack; no tokens are inserted. Repairs
are tried in order, fewer skipped tokens first and, among equally many, fewer states taken off. A
repair is good if the automaton, run from it without building anything, reads as many tokens as
required or accepts the input.

A run of reductions need not end in every grammar, so the trial has an allowance of steps, and its
answer is none if that is used up.
-/

namespace FourGL

/-- A repair of a syntax error. -/
structure Repair where
  /-- Tokens to skip. -/
  skip : Nat
  /-- States to take off the stack. -/
  pop : Nat
  deriving DecidableEq, Repr

namespace Repair

/-- How many tokens a repair may skip. -/
def window : Nat := 3

/-- The stack after a reduction, top first; none if it is too short or has no way on. -/
def reduceStates (l : Language) (p : ProductionId) (stack : List StateId) : Option (List StateId) :=
  let production := l.grammar.production p
  match stack.drop production.right.length with
  | [] => none
  | top :: rest =>
    (l.automaton.goto? top production.left).map fun next => next :: top :: rest

/-- Whether the automaton gets past `need` further tokens, or accepts, from a stack, top first. -/
def survives (l : Language) (input : Input) : Nat → List StateId → Nat → Nat → Option Bool
  | 0, _, _, _ => none
  | _ + 1, [], _, _ => some false
  | n + 1, top :: rest, position, need =>
    match l.automaton.action? top (input.terminal position) with
    | none => some false
    | some .accept => some true
    | some (.shift next) =>
      if need ≤ 1 then some true
      else survives l input n (next :: top :: rest) (position + 1) (need - 1)
    | some (.reduce p) =>
      match reduceStates l p (top :: rest) with
      | none => some false
      | some stack => survives l input n stack position need

/-- The repairs of an error at a position, in the order of trial. -/
def candidates (size depth position : Nat) : List Repair :=
  ((List.range (window + 1)).filter (position + · ≤ size)).flatMap fun skip =>
    (List.range depth).map fun pop => ⟨skip, pop⟩

/-- The first good one among the repairs. -/
def firstGood (l : Language) (input : Input) (allowance : Nat) (stack : List StateId)
    (position need : Nat) : List Repair → Option (Option Repair)
  | [] => some none
  | r :: rs =>
    match survives l input allowance (stack.drop r.pop) (position + r.skip) need with
    | none => none
    | some true => some (some r)
    | some false => firstGood l input allowance stack position need rs

/-- The first good repair of an error at a position, if there is one. -/
def find (l : Language) (input : Input) (allowance : Nat) (stack : List StateId)
    (position need : Nat) : Option (Option Repair) :=
  firstGood l input allowance stack position need (candidates input.size stack.length position)

end Repair

end FourGL
