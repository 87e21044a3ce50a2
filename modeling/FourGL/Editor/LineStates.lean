import FourGL.Token.Scan

/-!
# Line states

For every line of a text that was scanned line by line, the state in which it leaves the next one.
After an edit only the changed lines are scanned again, and those after them up to the first that
leaves the state recorded for it: what follows is not affected.
-/

namespace FourGL

/-- The state after each line, from the first one on. -/
abbrev LineStates := List LineState

/-- What a scan of some lines gives. -/
structure Rescan where
  /-- The states after it. -/
  states : LineStates
  /-- The first line scanned. -/
  first : Nat
  /-- The scanned lines. -/
  scanned : List ScannedLine
  deriving DecidableEq, Repr

namespace Rescan

/-- The line after the last one scanned. -/
def stop (r : Rescan) : Nat := r.first + r.scanned.length

/-- Where the lines that were scanned beyond the requested ones start. -/
def overflowStart (r : Rescan) (last : Nat) : Nat := min (last + 1) r.stop

end Rescan

namespace LineStates

/-- The state after a line. -/
def after? (states : LineStates) (line : Nat) : Option LineState := states[line]?

/-- The state before a line; one whose predecessor is not recorded starts neutral. -/
def before (states : LineStates) : Nat → LineState
  | 0 => .neutral
  | line + 1 => (after? states line).getD .neutral

/-- Forgets the states of a line and of those after it. -/
def invalidateFrom (states : LineStates) (line : Nat) : LineStates := states.take line

/-- Scans lines from a state on, where `old` is recorded for them. The first `need` lines are
scanned in any case; after that, the scan stops behind a line that leaves the recorded state. The
answer has the scanned lines and the new states. -/
def rescanFrom (v : Vocabulary) (state : LineState) (need : Nat) (old : LineStates) :
    List String → List ScannedLine × LineStates
  | [] => ([], [])
  | line :: lines =>
    let scanned := v.scanLine line.toList state
    if need ≤ 1 && old.head? == some scanned.state then ([scanned], scanned.state :: old.tail)
    else
      let rest := rescanFrom v scanned.state (need - 1) old.tail lines
      (scanned :: rest.1, scanned.state :: rest.2)

/-- Scans the lines from `first` to `last` of a text, and those after them that are affected. Where
lines before `first` have no state yet, the scan starts with them. -/
def retokenize (v : Vocabulary) (states : LineStates) (lines : List String) (first last : Nat) :
    Rescan :=
  let states := states.take lines.length
  let first := min first states.length
  let (scanned, tail) :=
    rescanFrom v (before states first) (last + 1 - first) (states.drop first) (lines.drop first)
  ⟨states.take first ++ tail, first, scanned⟩

end LineStates

end FourGL
