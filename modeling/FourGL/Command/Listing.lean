import FourGL.Language.Basic
import FourGL.Text.Escaped
import FourGL.Text.Lines
import FourGL.Token.Scan

/-!
# Listings

The tokens of a text as a list, from the text as a whole or line by line with the states between the
lines, and the statistics of a language.
-/

namespace FourGL

/-- A way of showing tokens in words. -/
def Highlight.name : Highlight → String
  | .keyword => "Keyword"
  | .identifier => "Identifier"
  | .string => "String"
  | .number => "Number"
  | .operator => "Operator"
  | .delimiter => "Delimiter"
  | .comment => "Comment"
  | .text => "Text"

namespace Token

/-- A token as an entry of a list, under a line number. -/
def listed (v : Vocabulary) (line : Nat) (t : Token) : String :=
  s!"  {line}:{t.column} {v.nameOf t.terminal} {t.highlight.name} {Text.quote t.text}"
    ++ (if t.incomplete then " incomplete" else "")
    ++ (match t.fault with
      | some f => s!" error: {f.message}"
      | none => "")
    ++ "\n"

end Token

namespace Vocabulary

/-- The tokens of a text. -/
def listing (v : Vocabulary) (source : String) : String :=
  String.join ((v.scan source).map fun t => t.listed v t.line)

/-- The tokens of lines from a state on, each line under its number. -/
def linesListing (v : Vocabulary) (number : Nat) (state : LineState) : List (List Char) → String
  | [] => ""
  | line :: lines =>
    let scanned := v.scanLine line state
    s!"line {number}: state {state.code} -> {scanned.state.code}\n"
      ++ String.join (scanned.tokens.map (·.listed v number))
      ++ v.linesListing (number + 1) scanned.state lines

/-- The tokens of a text, line by line. -/
def listingByLine (v : Vocabulary) (source : String) : String :=
  v.linesListing 1 .neutral (linesOf source.toList)

end Vocabulary

namespace Language

/-- The size of a language, and its conflicts if wanted. -/
def statistics (l : Language) (withConflicts : Bool) : String :=
  let g := l.grammar
  let conflicts := l.automaton.conflicts
  let shiftReduce := conflicts.countP (·.loss.kind == .shiftReduce)
  let lines := [
    s!"grammar:      {g.name}",
    s!"terminals:    {g.vocabulary.terminals.size}",
    s!"nonterminals: {g.nonterminals.size}",
    s!"productions:  {g.productions.size}",
    s!"states:       {l.automaton.size}",
    s!"conflicts:    {conflicts.length} ({shiftReduce} shift/reduce, "
      ++ s!"{conflicts.length - shiftReduce} reduce/reduce)"]
  let listed := if withConflicts then conflicts.map (·.render g) else []
  String.join ((lines ++ listed).map (· ++ "\n"))

end Language

end FourGL
