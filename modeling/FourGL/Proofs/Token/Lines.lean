import FourGL.Token.Scan

/-!
# Scanning line after line

The lines of a text are scanned in order, each in the state in which the one before leaves it. What
is known of a single line is in its scan and in the state before it.
-/

namespace FourGL

namespace Vocabulary

variable {v : Vocabulary} {state : LineState} {lines : List (List Char)}

/-- The scans of lines in order, each in the state left by the one before. -/
def scanLines (v : Vocabulary) (state : LineState) : List (List Char) → List ScannedLine
  | [] => []
  | line :: lines =>
    let scanned := v.scanLine line state
    scanned :: v.scanLines scanned.state lines

/-- The states after the lines of a text. -/
def statesOf (v : Vocabulary) (lines : List (List Char)) : List LineState :=
  (v.scanLines .neutral lines).map (·.state)

@[simp] theorem length_scanLines : (v.scanLines state lines).length = lines.length := by
  induction lines generalizing state with
  | nil => rfl
  | cons line lines ih => simp [scanLines, ih]

/-- Every line is scanned in the state after the one before it. -/
theorem scanLines_eq_zipWith (v : Vocabulary) (state : LineState) (lines : List (List Char)) :
    v.scanLines state lines =
    List.zipWith v.scanLine lines (state :: (v.scanLines state lines).map (·.state)) := by
  induction lines generalizing state with
  | nil => rfl
  | cons line lines ih =>
    rw [scanLines, List.map_cons, List.zipWith_cons_cons, ← ih]

end Vocabulary

end FourGL
