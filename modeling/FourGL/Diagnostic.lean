import FourGL.Token.Basic

/-!
# Diagnostics

What is reported about a text: a message with a severity, at a stretch of the text. The list of
reports is ordered by position and may be cut off, in which case a warning at its end tells how many
are missing.
-/

namespace FourGL

/-- How grave a report is. -/
inductive Severity where
  | error
  | warning
  deriving DecidableEq, Repr

/-- A severity in words. -/
def Severity.name : Severity → String
  | .error => "error"
  | .warning => "warning"

/-- A report about a stretch of text. -/
structure Diagnostic where
  severity : Severity
  line : Nat
  column : Nat
  span : Span
  message : String
  deriving DecidableEq, Repr

namespace Diagnostic

/-- An error at a token or, without one, at the start of the text with an empty span at `offset`. -/
def errorAt (token : Option Token) (offset : Nat) (message : String) : Diagnostic :=
  match token with
  | some t => ⟨.error, t.line, t.column, t.span, message⟩
  | none => ⟨.error, 1, 1, .emptyAt offset, message⟩

/-- The message with its place. -/
def render (d : Diagnostic) : String := s!"{d.message} at {d.line}:{d.column}"

/-- Whether one report comes no later than another, by the ends of their spans. -/
def notAfter (a b : Diagnostic) : Bool :=
  a.span.start < b.span.start || (a.span.start == b.span.start && a.span.stop ≤ b.span.stop)

/-- The warning that reports are missing, at the last one that is not. -/
def missing (count : Nat) (last : Option Diagnostic) : Diagnostic :=
  let message := s!"{count} more diagnostics not shown"
  match last with
  | some d => { d with severity := .warning, message := message }
  | none => ⟨.warning, 1, 1, .emptyAt 0, message⟩

/-- The reports by position; beyond the limit they are only counted. -/
def inOrder (limit : Nat) (reports : List Diagnostic) : List Diagnostic :=
  let sorted := reports.mergeSort notAfter
  if limit < sorted.length then
    let kept := sorted.take limit
    kept ++ [missing (sorted.length - limit) kept.getLast?]
  else sorted

end Diagnostic

end FourGL
