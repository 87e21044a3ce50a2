import FourGL.Diagnostic
import FourGL.Language.Basic
import FourGL.Text.Escaped
import FourGL.Tree.Basic

/-!
# What a parser reads

Of all tokens of a text, the parser reads those that are neither comments nor lexical errors; after
the last one comes the end of input. A position counts the tokens read.
-/

namespace FourGL

/-- The limits of a parse. -/
structure Limits where
  /-- How many syntax errors are recovered from. -/
  recoveries : Nat := 64
  /-- How many reports are kept. -/
  diagnostics : Nat := 100
  /-- How many tokens a recovery must lead past. -/
  lookahead : Nat := 3
  deriving DecidableEq, Repr, Inhabited

/-- The tokens of a text as a parser reads them. -/
structure Input where
  /-- All tokens of the text. -/
  tokens : Array Token
  /-- The indices of those that the parser reads. -/
  stream : Array Nat
  /-- The length of the text in bytes. -/
  stop : Nat

namespace Input

/-- The input that the tokens of a text make. -/
def ofTokens (tokens : List Token) (stop : Nat) : Input where
  tokens := tokens.toArray
  stream := ((tokens.zipIdx.filter fun (t, _) => t.isGrammatical).map (·.2)).toArray
  stop := stop

/-- The number of tokens that the parser reads. -/
def size (input : Input) : Nat := input.stream.size

/-- The token at a position; none at the end. -/
def token? (input : Input) (position : Nat) : Option Token :=
  input.stream[position]?.bind (input.tokens[·]?)

/-- The terminal at a position. -/
def terminal (input : Input) (position : Nat) : TerminalId :=
  match input.token? position with
  | some t => t.terminal
  | none => Vocabulary.endOfInput

/-- The offset at a position. -/
def offset (input : Input) (position : Nat) : Nat :=
  match input.token? position with
  | some t => t.span.start
  | none => input.stop

/-- The stretch of text that a tree covers. -/
def spanOf (input : Input) : Tree → Span
  | .node _ span _ => span
  | .token i => (input.tokens.getD i default).span
  | .absent => ⟨0, 0⟩

/-- The smallest stretch of text that holds what the trees cover; none if they cover nothing. -/
def hull? (input : Input) (trees : List Tree) : Option Span :=
  match (trees.map input.spanOf).filter (!·.isEmpty) with
  | [] => none
  | s :: ss => some (ss.foldl Span.cover s)

end Input

end FourGL
