import FourGL.Text.Case

/-!
# Rule expressions

The right-hand sides of a grammar's rules, in extended Backus–Naur form: words, symbols and names,
put together by sequence, choice, option and repetition. A repetition may have a separator, which
stands between its items and never after the last one.

Names are plain text, so rules may refer to each other in any order; they are resolved when the
grammar is built. `Rule.render` writes a rule the way grammars are usually printed.
-/

namespace FourGL

/-- An expression of extended Backus–Naur form. -/
inductive Rule where
  /-- The empty text. -/
  | empty
  /-- A reserved word. -/
  | keyword (text : String)
  /-- An operator or a punctuation mark. -/
  | symbol (text : String)
  /-- A rule or a class of tokens, by name. -/
  | ref (name : String)
  /-- The items one after the other. -/
  | seq (items : List Rule)
  /-- One of the items. -/
  | alt (items : List Rule)
  /-- The item or nothing. -/
  | opt (item : Rule)
  /-- The item any number of times. -/
  | star (item : Rule)
  /-- The item at least once. -/
  | plus (item : Rule)
  /-- The item any number of times, with the separator between occurrences. -/
  | starSep (item separator : Rule)
  /-- The item at least once, with the separator between occurrences. -/
  | plusSep (item separator : Rule)
  deriving Repr, Inhabited

namespace Rule

/-- The characters that separate words, beyond ASCII too. -/
def isWordSeparator (c : Char) : Bool :=
  c == ' ' || ('\t' ≤ c && c ≤ '\r') || c == '\u0085' || c == '\u00a0' || c == '\u1680'
  || ('\u2000' ≤ c && c ≤ '\u200a') || c == '\u2028' || c == '\u2029' || c == '\u202f'
  || c == '\u205f' || c == '\u3000'

/-- The words of a text, in order. -/
def words (text : String) : List String :=
  ((text.toList.splitBy fun a b => isWordSeparator a == isWordSeparator b).filter fun w =>
    !w.any isWordSeparator).map String.ofList

/-- A sequence of reserved words, written as one text. -/
def keywords (text : String) : Rule := .seq ((words text).map .keyword)

/-- Whether the rule is a repetition. -/
def isList : Rule → Bool
  | .star _ | .plus _ | .starSep .. | .plusSep .. => true
  | _ => false

/-! ## Rendering -/

/-- Whether the rendering of the rule needs parentheses to stand as an operand. -/
def isCompound : Rule → Bool
  | .seq items => 1 < items.length
  | .starSep .. | .plusSep .. => true
  | _ => false

/-- The rendering of a rule, made fit to stand as an operand. -/
def operand (rule : Rule) (text : String) : String :=
  if rule.isCompound then "(" ++ text ++ ")" else text

/-- An item and further ones, each after a separator. -/
def renderSeparated (item separator : String) : String :=
  item ++ " (" ++ separator ++ " " ++ item ++ ")*"

mutual

/-- The rule as text. -/
def render : Rule → String
  | .empty => "ε"
  | .keyword text => Text.uppercase text
  | .symbol text => text
  | .ref name => name
  | .seq items => " ".intercalate (renderOperands items)
  | .alt items => "(" ++ " | ".intercalate (renderEach items) ++ ")"
  | .opt item => item.operand item.render ++ "?"
  | .star item => item.operand item.render ++ "*"
  | .plus item => item.operand item.render ++ "+"
  | .starSep item separator =>
    "(" ++ renderSeparated (item.operand item.render) separator.render ++ ")?"
  | .plusSep item separator => renderSeparated (item.operand item.render) separator.render

/-- Every rule as text. -/
def renderEach : List Rule → List String
  | [] => []
  | r :: rs => r.render :: renderEach rs

/-- Every rule as text fit to stand as an operand. -/
def renderOperands : List Rule → List String
  | [] => []
  | r :: rs => r.operand r.render :: renderOperands rs

end

/-! ## What a rule mentions -/

/-- A literal or a name that a rule mentions. -/
inductive Mention where
  | keyword (text : String)
  | symbol (text : String)
  | ref (name : String)
  deriving DecidableEq, Repr

mutual

/-- What the rule mentions, from left to right, an item before its separator. -/
def mentions : Rule → List Mention
  | .empty => []
  | .keyword text => [.keyword text]
  | .symbol text => [.symbol text]
  | .ref name => [.ref name]
  | .seq items | .alt items => mentionsOfAll items
  | .opt item | .star item | .plus item => item.mentions
  | .starSep item separator | .plusSep item separator => item.mentions ++ separator.mentions

/-- What the rules mention, from left to right. -/
def mentionsOfAll : List Rule → List Mention
  | [] => []
  | r :: rs => r.mentions ++ mentionsOfAll rs

end

/-- The names of rules and token classes that the rule mentions. -/
def references (rule : Rule) : List String :=
  rule.mentions.filterMap fun
    | .ref name => some name
    | _ => none

end Rule

end FourGL
