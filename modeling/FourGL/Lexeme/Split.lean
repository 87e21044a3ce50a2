import FourGL.Lexeme.Extent

/-!
# Cutting a text into lexemes

A text is cut from left to right. At each point the class with the longest member at the head of the
rest wins. Where no class has one, a stretch is set aside that could have become a member had the
text gone on differently, at least one character. So the lexemes, joined, are the text.

The matcher that does this is generated from the patterns of the classes (by `logos`), and is not read
here. What is assumed of it is what its documentation says: the longest match wins, and an error takes the
longest stretch that some match begins with, at least one character. `split` stands for it. It is the one
function of this kind (`Lexeme.split_eq_iff`).
-/

namespace FourGL

/-! ## The longest match -/

/-- What may stand at the head of a text, with its length. -/
structure Match where
  kind : LexicalClass
  length : Nat
  deriving DecidableEq, Repr

/-- The quotation of the given form at the head of a text. -/
def Quoting.match? (q : Quoting) (cs : List Char) : Option Match :=
  if q.opener.isPrefixOf cs then
    let body := q.body (cs.drop q.opener.length)
    some ⟨.quoted q body.closed, q.opener.length + body.length⟩
  else none

/-- The operator at the head of a text. -/
def Operator.match? (op : Operator) (cs : List Char) : Option Match :=
  if op.text.toList.isPrefixOf cs then some ⟨.operator op, op.text.length⟩ else none

/-- A member of a class without a choice of forms. -/
def plainMatch? (kind : LexicalClass) (length : Nat) : Option Match :=
  if length = 0 then none else some ⟨kind, length⟩

/-- The longest member of every class at the head of a text. -/
def headMatches (cs : List Char) : List Match :=
  [plainMatch? .blank (blankExtent cs), plainMatch? .comment (commentExtent cs),
   plainMatch? .word (wordExtent cs), plainMatch? .number (numberExtent cs),
   Quoting.escaped.match? cs, Quoting.verbatim.match? cs, Quoting.single.match? cs].filterMap id
  ++ Operator.all.filterMap (·.match? cs)

/-- The longer of two matches, the first one if they are equally long. -/
def Match.longer (m n : Match) : Match := if m.length < n.length then n else m

/-- The longest match at the head of a text. -/
def longestMatch (cs : List Char) : Option Match :=
  match headMatches cs with
  | [] => none
  | m :: ms => some (ms.foldl Match.longer m)

/-- Where nothing matches: the length of the longest stretch that begins some lexeme, at least one.
-/
def stuckExtent : List Char → Nat
  | '\\' :: 'u' :: cs => 2 + leading isHexDigit (cs.take 4)
  | '\\' :: 'U' :: cs => 2 + leading isHexDigit (cs.take 8)
  | _ => 1

/-! ## Lexemes -/

/-- A stretch of text with its class, or none where no class has a member. -/
structure Lexeme where
  kind : Option LexicalClass
  text : List Char
  deriving DecidableEq, Repr

/-- The lexeme at the head of a non-empty text. -/
def Lexeme.head (cs : List Char) : Lexeme :=
  match longestMatch cs with
  | some m => ⟨some m.kind, cs.take m.length⟩
  | none => ⟨none, cs.take (stuckExtent cs)⟩

/-- The lexemes of a text, after `pending` characters of the current one. -/
def Lexeme.splitAfter (pending : Nat) : List Char → List Lexeme
  | [] => []
  | c :: cs =>
    match pending with
    | n + 1 => splitAfter n cs
    | 0 =>
      let lexeme := Lexeme.head (c :: cs)
      lexeme :: splitAfter (lexeme.text.length - 1) cs

/-- The lexemes of a text, in order. -/
def Lexeme.split (cs : List Char) : List Lexeme := Lexeme.splitAfter 0 cs

end FourGL
