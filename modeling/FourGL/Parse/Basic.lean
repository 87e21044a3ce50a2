import FourGL.Parse.Machine
import FourGL.Token.Scan
import FourGL.Tree.Walk

/-!
# Parsing a text

A parse holds the text, all of its tokens, the tree if the text was accepted as a node, and what is
to be reported: syntax errors and lexical errors together, by position. It is in order when there is
a tree and no error among the reports.
-/

namespace FourGL

/-- What parsing a text gives. -/
structure Parse where
  vocabulary : Vocabulary
  source : String
  tokens : Array Token
  root : Option Tree
  diagnostics : List Diagnostic

namespace Parse

/-- The tree of an accepted input, if it is a node. -/
def rootOf : Ending → Option Tree
  | .accepted tree => tree.node?
  | _ => none

/-- All errors of a text in the order of discovery: those of the machine, then the lexical ones. -/
def reportsOf (m : Machine) (tokens : List Token) : List Diagnostic :=
  m.reports.reverse ++ (tokens.filter Token.isError).map Report.lexical

/-- The parse that a run of the machine amounts to. -/
def ofRun (v : Vocabulary) (limits : Limits) (source : String) (tokens : List Token)
    (run : Machine × Ending) : Parse where
  vocabulary := v
  source := source
  tokens := tokens.toArray
  root := rootOf run.2
  diagnostics := Diagnostic.inOrder limits.diagnostics (reportsOf run.1 tokens)

end Parse

namespace Language

/-- Parses a text within an allowance of steps; none if that is used up. -/
def parseWithin (l : Language) (allowance : Nat) (limits : Limits) (source : String) :
    Option Parse :=
  let v := l.grammar.vocabulary
  let tokens := v.scan source
  let input := Input.ofTokens tokens (utf8Length source.toList)
  (Machine.initial.run l limits input allowance).map (Parse.ofRun v limits source tokens)

/-- More steps than a parse can take in practice. -/
def ampleSteps : Nat := 1 <<< 62

/-- Parses a text; one that takes more than ample steps has no tree. -/
def parse (l : Language) (limits : Limits) (source : String) : Parse :=
  (l.parseWithin ampleSteps limits source).getD
    (.ofRun l.grammar.vocabulary limits source (l.grammar.vocabulary.scan source)
      (Machine.initial, .stuck))

end Language

namespace Parse

/-- Whether there is a tree and no error was reported. -/
def isOk (p : Parse) : Bool := p.root.isSome && p.diagnostics.all (·.severity != .error)

/-- The indices of all tokens. -/
def indices (p : Parse) : List Nat := List.range p.tokens.size

/-- The token with the given index. -/
def token (p : Parse) (i : Nat) : Token := p.tokens.getD i default

/-- The name of the terminal that a token was read as. -/
def terminalName (p : Parse) (i : Nat) : String := p.vocabulary.nameOf (p.token i).terminal

/-- The tokens that are lexical errors. -/
def errorTokens (p : Parse) : List Nat := p.indices.filter fun i => (p.token i).isError

/-- The tokens that are in no node. -/
def orphans (p : Parse) : List Nat :=
  match p.root with
  | none => p.indices
  | some root =>
    let held := root.tokens.foldl (fun marks i => marks.setIfInBounds i true)
      (Array.replicate p.tokens.size false)
    p.indices.filter fun i => !held.getD i false

/-- The text that a node covers. -/
def textOf (p : Parse) (t : Tree) : String := String.ofList (slice p.source.toList t.span)

/-- The last token that starts at or before the offset. -/
def tokenAt? (p : Parse) (offset : Nat) : Option Nat :=
  match (p.tokens.toList.takeWhile fun t => t.span.start ≤ offset).length with
  | 0 => none
  | n + 1 => some n

mutual

/-- A tree, indented line by line, with the texts of its tokens. -/
def dumpTree (p : Parse) (depth : Nat) : Tree → String
  | .absent => indent depth ++ "<none>\n"
  | .token i =>
    indent depth ++ p.terminalName i ++ " " ++ Text.quote (p.token i).text
      ++ "\n"
  | .node kind _ children => indent depth ++ kind ++ "\n" ++ dumpTrees p (depth + 1) children
where
  /-- Two blanks for each level. -/
  indent (depth : Nat) : String := String.join (List.replicate depth "  ")

/-- Several trees, one after the other. -/
def dumpTrees (p : Parse) (depth : Nat) : List Tree → String
  | [] => ""
  | t :: ts => dumpTree p depth t ++ dumpTrees p depth ts

end

/-- The tree of a parse as text. -/
def dump (p : Parse) : String :=
  match p.root with
  | some root => p.dumpTree 0 root
  | none => ""

/-! ## Braces -/

/-- The place of the first closing token, where each opening one before it needs one of its own. -/
def closingPlace? (opening closing : TerminalId) : Nat → List TerminalId → Option Nat
  | _, [] => none
  | depth, t :: ts =>
    if t = opening then (closingPlace? opening closing (depth + 1) ts).map (· + 1)
    else if t = closing then
      match depth with
      | 0 => some 0
      | d + 1 => (closingPlace? opening closing d ts).map (· + 1)
    else (closingPlace? opening closing depth ts).map (· + 1)

/-- The brace that forms a pair with the one at the index. -/
def matchingBrace? (p : Parse) (index : Nat) : Option Nat := do
  let token ← p.tokens[index]?
  let terminals := p.tokens.toList.map (·.terminal)
  match p.vocabulary.bracePairs.find? (·.1 == token.terminal) with
  | some (opening, closing) =>
    (closingPlace? opening closing 0 (terminals.drop (index + 1))).map (index + 1 + ·)
  | none =>
    let (opening, closing) ← p.vocabulary.bracePairs.find? (·.2 == token.terminal)
    (closingPlace? closing opening 0 (terminals.take index).reverse).map (index - 1 - ·)

end Parse

end FourGL
