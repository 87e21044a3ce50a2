/-!
# Lexical classes

The classes into which a source text is cut before any grammar is consulted: blanks, comments,
words, numbers, the three forms of quoted text, and operators. Words are not yet told apart from
keywords.
-/

namespace FourGL

/-! ## Quoted text -/

/-- The three ways to quote a text. -/
inductive Quoting where
  /-- Text in `"..."` on one line, with backslash escapes. -/
  | escaped
  /-- Text in `@"..."` over any number of lines, with `""` for a quote. -/
  | verbatim
  /-- Text in `'...'` over any number of lines, with `''` for a quote. -/
  | single
  deriving DecidableEq, Repr

namespace Quoting

/-- The characters that open the quotation. -/
def opener : Quoting → List Char
  | .escaped => ['"']
  | .verbatim => ['@', '"']
  | .single => ['\'']

/-- The character that closes the quotation. -/
def closer : Quoting → Char
  | .single => '\''
  | _ => '"'

/-- Whether the quotation may go on after a line break. -/
def spansLines : Quoting → Bool
  | .escaped => false
  | _ => true

end Quoting

/-! ## Operators -/

/-- Operators and punctuation. -/
inductive Operator where
  | leftParen | rightParen | leftBracket | rightBracket | leftBrace | rightBrace
  | comma | semicolon | colon | dot
  | plus | minus | star | slash
  | equal | doubleEqual | bangEqual | lessGreater | less | lessEqual | greater | greaterEqual
  | doubleBar | atSign | ampersand
  deriving DecidableEq, Repr

namespace Operator

/-- The spelling of an operator. -/
def text : Operator → String
  | .leftParen => "(" | .rightParen => ")"
  | .leftBracket => "[" | .rightBracket => "]"
  | .leftBrace => "\x7b" | .rightBrace => "\x7d"
  | .comma => "," | .semicolon => ";" | .colon => ":" | .dot => "."
  | .plus => "+" | .minus => "-" | .star => "*" | .slash => "/"
  | .equal => "=" | .doubleEqual => "==" | .bangEqual => "!=" | .lessGreater => "<>"
  | .less => "<" | .lessEqual => "<=" | .greater => ">" | .greaterEqual => ">="
  | .doubleBar => "||" | .atSign => "@" | .ampersand => "&"

/-- Every operator. -/
def all : List Operator :=
  [.leftParen, .rightParen, .leftBracket, .rightBracket, .leftBrace, .rightBrace,
   .comma, .semicolon, .colon, .dot, .plus, .minus, .star, .slash,
   .equal, .doubleEqual, .bangEqual, .lessGreater, .less, .lessEqual, .greater, .greaterEqual,
   .doubleBar, .atSign, .ampersand]

theorem mem_all (op : Operator) : op ∈ all := by cases op <;> decide

/-- The operator with the given spelling. -/
def ofText? (s : String) : Option Operator := all.find? (·.text == s)

theorem ofText?_text (op : Operator) : ofText? op.text = some op := by cases op <;> decide

end Operator

/-! ## Classes -/

/-- What a stretch of source text is, before any grammar is consulted. -/
inductive LexicalClass where
  | blank
  | comment
  | word
  | number
  | quoted (quoting : Quoting) (closed : Bool)
  | operator (op : Operator)
  deriving DecidableEq, Repr

end FourGL
