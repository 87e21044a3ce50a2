import FourGL.Editor.Completion

/-!
# Documents

A document keeps the parse of its latest text, the last parse that has a tree, and the facts of that
one. A text that is not understood leaves the last good parse and its facts as they were, so an
editor can go on with them.
-/

namespace FourGL

/-- A text under edit. -/
structure Document where
  limits : Limits := {}
  current : Option Parse := none
  lastGood : Option Parse := none
  facts : Facts := {}

namespace Document

/-- Whether the text is the one parsed last. -/
def isCurrent (d : Document) (text : String) : Bool := d.current.any (·.source == text)

/-- The document after a parse. -/
def record (d : Document) (p : Parse) : Document :=
  if p.root.isSome then
    { d with current := some p, lastGood := some p, facts := Facts.ofParse p }
  else { d with current := some p }

/-- The document with a new text. A text that is the current one is not parsed again. -/
def edit (l : Language) (d : Document) (text : String) : Document :=
  if d.isCurrent text then d else d.record (l.parse d.limits text)

/-- The names to offer at an offset of the current text. -/
def completions (d : Document) (offset : Nat) : List String :=
  match d.current with
  | some p => d.facts.completions p d.lastGood offset
  | none => []

end Document

end FourGL
