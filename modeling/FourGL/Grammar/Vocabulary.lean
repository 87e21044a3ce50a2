import Std.Data.TreeMap
import FourGL.Grammar.Error
import FourGL.Lexeme.Class
import FourGL.Text.Alphanumeric
import FourGL.Text.Case

/-!
# The terminals of a grammar

A `Vocabulary` holds the terminals of a grammar in the order in which they were first mentioned,
each under a name of its own. The end of input and the lexical error come first. A keyword is found
by its key, which is its text or, where the grammar does not distinguish case, its text in small
letters; a symbol is found by its exact text.

Every operation that adds a terminal either finds it under its key or enters it under a new name, so
one text has one terminal.
-/

namespace FourGL

/-! ## Terminals -/

/-- How the tokens of a terminal are recognized. -/
inductive TerminalKind where
  | endOfInput
  | error
  | identifier
  | number
  | string
  | comment
  | keyword
  | symbol
  deriving DecidableEq, Repr, Inhabited

/-- What a kind of terminal is called in messages. -/
def TerminalKind.description : TerminalKind → String
  | .endOfInput => "end of input"
  | .error => "error"
  | .identifier => "identifier"
  | .number => "number"
  | .string => "string literal"
  | .comment => "comment"
  | .keyword => "keyword"
  | .symbol => "symbol"

/-- What a parser does with the tokens of a terminal: reads them, skips them, or reports them. -/
inductive Category where
  | content
  | comment
  | error
  deriving DecidableEq, Repr, Inhabited

/-- How an editor shows the tokens of a terminal. -/
inductive Highlight where
  | keyword
  | identifier
  | string
  | number
  | operator
  | delimiter
  | comment
  | text
  deriving DecidableEq, Repr, Inhabited

/-- How a kind of terminal is shown unless declared otherwise. -/
def TerminalKind.highlight : TerminalKind → Highlight
  | .endOfInput | .error => .text
  | .identifier => .identifier
  | .number => .number
  | .string => .string
  | .comment => .comment
  | .keyword => .keyword
  | .symbol => .operator

/-- A terminal symbol, given by its place in the vocabulary. -/
abbrev TerminalId := Nat

/-- A terminal symbol. -/
structure Terminal where
  name : String
  kind : TerminalKind
  /-- The text as declared, for keywords and symbols. -/
  text : Option String := none
  highlight : Highlight := kind.highlight
  /-- The other brace of the pair, for braces. -/
  brace : Option TerminalId := none
  deriving DecidableEq, Repr, Inhabited

/-- The category of a terminal follows from its kind. -/
def Terminal.category (t : Terminal) : Category :=
  match t.kind with
  | .comment => .comment
  | .error => .error
  | _ => .content

/-- Whether the terminal is a class of tokens that rules mention by name. -/
def Terminal.isNamedClass (t : Terminal) : Bool :=
  match t.kind with
  | .identifier | .number | .string | .comment => true
  | _ => false

/-! ## Vocabularies -/

/-- The terminals of a grammar, with their names, keys and brace pairs. -/
structure Vocabulary where
  caseSensitive : Bool := true
  terminals : Array Terminal := #[]
  names : Std.TreeMap String TerminalId := ∅
  keywords : Std.TreeMap String TerminalId := ∅
  symbols : Std.TreeMap String TerminalId := ∅
  bracePairs : Array (TerminalId × TerminalId) := #[]

namespace Vocabulary

/-- The terminal at the end of every input. -/
def endOfInput : TerminalId := 0

/-- The terminal of text that no other terminal matches. -/
def errorToken : TerminalId := 1

/-- The vocabulary of a grammar without any declaration. -/
def initial : Vocabulary where
  terminals := #[⟨"$eof", .endOfInput, none, .text, none⟩, ⟨"$error", .error, none, .text, none⟩]
  names :=
    (∅ : Std.TreeMap String TerminalId).insert "$eof" endOfInput |>.insert "$error" errorToken

/-- The terminal with the given identity. -/
def terminal (v : Vocabulary) (t : TerminalId) : Terminal := v.terminals.getD t default

/-- The name of a terminal. -/
def nameOf (v : Vocabulary) (t : TerminalId) : String := (v.terminal t).name

/-- The first terminal of the given kind. -/
def ofKind? (v : Vocabulary) (kind : TerminalKind) : Option TerminalId :=
  v.terminals.findIdx? (·.kind == kind)

/-- The terminal of the given name, if it is a class of tokens that rules mention by name. -/
def namedClass? (v : Vocabulary) (name : String) : Option TerminalId :=
  v.names[name]?.filter fun t => (v.terminal t).isNamedClass

/-- The key under which a keyword is found. -/
def keywordKey (v : Vocabulary) (text : String) : String :=
  if v.caseSensitive then text else Text.lowercase text

/-- The keyword that a word is, if it is one. -/
def keyword? (v : Vocabulary) (text : String) : Option TerminalId := v.keywords[v.keywordKey text]?

/-- The operator or punctuation mark with the given text. -/
def symbol? (v : Vocabulary) (text : String) : Option TerminalId := v.symbols[text]?

/-- The terminals that the parser skips. -/
def skipped (v : Vocabulary) : List TerminalId :=
  (List.range v.terminals.size).filter fun t => (v.terminal t).category == .comment

/-- Whether the symbol is punctuation, which lists leave out between their items. Braces are not. -/
def isPunctuation (v : Vocabulary) (text : String) : Bool :=
  match v.symbol? text with
  | some t => (v.terminal t).highlight == .delimiter && (v.terminal t).brace.isNone
  | none => false

/-! ## Adding terminals -/

/-- What comes of an attempt to enter a terminal: the vocabulary after it, and the terminal or what
is wrong. An attempt that fails leaves the vocabulary as it was. -/
abbrev Attempt := Vocabulary × Except GrammarError TerminalId

/-- Enters a terminal under its name, which must be new. -/
def add (v : Vocabulary) (t : Terminal) : Attempt :=
  match v.names[t.name]? with
  | some held =>
    (v, .error (.conflictingTerminal t.name (v.terminal held).kind.description t.kind.description))
  | none =>
    if v.terminals.size ≤ maxIndex then
      let id := v.terminals.size
      ({ v with terminals := v.terminals.push t, names := v.names.insert t.name id }, .ok id)
    else (v, .error (.tooLarge "terminals" maxIndex))

/-- Declares a class of tokens under a name. A kind has one name. -/
def declareClass (v : Vocabulary) (kind : TerminalKind) (name : String) : Attempt :=
  match v.ofKind? kind with
  | some t =>
    if v.nameOf t = name then (v, .ok t)
    else (v, .error (.conflictingTerminal name kind.description kind.description))
  | none => v.add { name, kind }

/-- Whether the text can be a keyword: letters, digits and low lines, with no ASCII digit in front.
-/
def isKeywordText (text : String) : Bool :=
  match text.toList with
  | [] => false
  | c :: cs => !c.isDigit && (c :: cs).all fun d => Text.isAlphanumeric d || d == '_'

/-- The terminal of a keyword, entered if it is new. -/
def internKeyword (v : Vocabulary) (text : String) : Attempt :=
  if isKeywordText text then
    match v.keyword? text with
    | some t => (v, .ok t)
    | none =>
      match v.add { name := Text.uppercase text, kind := .keyword, text := some text } with
      | (v, .ok t) => ({ v with keywords := v.keywords.insert (v.keywordKey text) t }, .ok t)
      | failed => failed
  else (v, .error (.invalidKeyword text))

/-- The terminal of a symbol, entered if it is new. -/
def internSymbol (v : Vocabulary) (text : String) : Attempt :=
  match v.symbol? text with
  | some t => (v, .ok t)
  | none =>
    if (Operator.ofText? text).isNone then (v, .error (.unknownSymbol text))
    else
      match v.add { name := text, kind := .symbol, text := some text } with
      | (v, .ok t) => ({ v with symbols := v.symbols.insert text t }, .ok t)
      | failed => failed

/-- Shows a terminal as a delimiter. -/
def markDelimiter (v : Vocabulary) (t : TerminalId) : Vocabulary :=
  { v with terminals := v.terminals.modify t ({ · with highlight := .delimiter }) }

/-- Makes two symbols the braces of a pair. -/
def pairBraces (v : Vocabulary) (opening closing : TerminalId) : Vocabulary :=
  let v := (v.markDelimiter opening).markDelimiter closing
  { v with
    terminals :=
      (v.terminals.modify opening ({ · with brace := some closing })).modify closing
        ({ · with brace := some opening })
    bracePairs := v.bracePairs.push (opening, closing) }

end Vocabulary

end FourGL
