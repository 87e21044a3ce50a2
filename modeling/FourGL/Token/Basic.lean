import FourGL.Grammar.Vocabulary
import FourGL.Literal.Value
import FourGL.Text.Span

/-!
# Tokens

A token is a stretch of source text read as a terminal of a grammar, with the place where it starts
and the value of the literal that it is. Text that is no token of the grammar becomes a token of the
error terminal that says what is wrong with it.

As with spans, texts are taken to be shorter than 4 GiB, so that offsets, lines and columns fit in 32 bits.
-/

namespace FourGL

/-- What is wrong with a stretch of text. -/
inductive LexicalFault where
  | unexpectedCharacter
  | unterminatedString
  | noIdentifiers
  | noNumbers
  | noComments
  | noStrings
  | unknownOperator
  | badLiteral (e : LiteralError)
  deriving DecidableEq, Repr

def LexicalFault.message : LexicalFault → String
  | .unexpectedCharacter => "unexpected character"
  | .unterminatedString => "unterminated string"
  | .noIdentifiers => "identifiers are not part of this grammar"
  | .noNumbers => "numbers are not part of this grammar"
  | .noComments => "comments are not part of this grammar"
  | .noStrings => "strings are not part of this grammar"
  | .unknownOperator => "operator is not part of this grammar"
  | .badLiteral e => e.message

/-- A stretch of source text, read as a terminal. -/
structure Token where
  terminal : TerminalId
  category : Category
  highlight : Highlight
  span : Span
  /-- The line of the start, from one. -/
  line : Nat
  /-- The column of the start in characters, from one. -/
  column : Nat
  text : String
  value : Option Value
  /-- Whether the construct goes on after the token. -/
  incomplete : Bool
  fault : Option LexicalFault
  deriving DecidableEq, Repr, Inhabited

namespace Token

/-- A token of a terminal at a place, without a value. -/
def plain (v : Vocabulary) (t : TerminalId) (place : Place) (cs : List Char) : Token where
  terminal := t
  category := (v.terminal t).category
  highlight := (v.terminal t).highlight
  span := ⟨place.offset, place.offset + utf8Length cs⟩
  line := place.line
  column := place.column
  text := String.ofList cs
  value := none
  incomplete := false
  fault := none

/-- A token of the error terminal. -/
def faulty (v : Vocabulary) (fault : LexicalFault) (place : Place) (cs : List Char) : Token :=
  { plain v Vocabulary.errorToken place cs with fault := some fault }

/-- Whether the token is a lexical error. -/
def isError (t : Token) : Bool := t.category == .error

/-- Whether the parser reads the token. -/
def isGrammatical (t : Token) : Bool := t.category == .content

end Token

end FourGL
