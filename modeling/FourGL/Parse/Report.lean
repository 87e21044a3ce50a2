import FourGL.Parse.Input

/-!
# Reports of syntax errors

A report names what was found and what could have stood there, in alphabetical order and at most
eight of it. It points at the token found; at the end of input, or where a token starts a later
line, it points at the token before instead.
-/

namespace FourGL.Report

/-- How many expected terminals a report lists. -/
def maxExpected : Nat := 8

/-- A terminal as reports name it. -/
def describeTerminal (v : Vocabulary) (t : TerminalId) : String :=
  let terminal := v.terminal t
  match terminal.kind with
  | .endOfInput => "end of input"
  | .symbol => "'" ++ terminal.name ++ "'"
  | _ => terminal.name

/-- A token as reports name it: with its text where that is not plain from the terminal. -/
def describeToken (v : Vocabulary) (t : Token) : String :=
  let terminal := v.terminal t.terminal
  match terminal.kind with
  | .identifier | .number | .string => terminal.name ++ " `" ++ Text.escape t.text ++ "`"
  | _ => describeTerminal v t.terminal

/-- Texts in order, each once. -/
def sortedTexts (texts : List String) : List String :=
  (texts.mergeSort fun a b => (compare a b).isLE).foldr
    (fun s kept => if kept.head? = some s then kept else s :: kept) []

/-- What was found and what could have stood there. -/
def unexpectedMessage (found : String) (expected : List String) : String :=
  s!"unexpected {found}, expected one of: " ++ ", ".intercalate (expected.take maxExpected)
    ++ if maxExpected < expected.length then ", ..." else ""

/-- The token that a report on a position points at. -/
def anchor? (input : Input) (position : Nat) : Option Token :=
  let before := if position = 0 then none else input.token? (position - 1)
  match input.token? position, before with
  | none, before => before
  | some here, some before => if before.line < here.line then some before else some here
  | some here, none => some here

/-- The report of a syntax error met in a state. -/
def unexpected (l : Language) (input : Input) (position : Nat) (s : StateId) : Diagnostic :=
  let v := l.grammar.vocabulary
  let found := match input.token? position with
    | some t => describeToken v t
    | none => "end of input"
  let expected := sortedTexts ((l.automaton.expected s).map (describeTerminal v))
  .errorAt (anchor? input position) input.stop (unexpectedMessage found expected)

/-- The report that the parser stops. -/
def stopped (input : Input) (position : Nat) : Diagnostic :=
  .errorAt (anchor? input position) input.stop "too many syntax errors; parsing stopped"

/-- The report of a lexical error. -/
def lexical (t : Token) : Diagnostic :=
  let complaint := match t.fault with
    | some f => f.message ++ ": "
    | none => "unexpected "
  .errorAt (some t) 0 (complaint ++ "`" ++ Text.escape t.text ++ "`")

end FourGL.Report
