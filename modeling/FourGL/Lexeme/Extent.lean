import FourGL.Lexeme.Class
import FourGL.Text.Letters
import FourGL.Text.Span

/-!
# How far a lexeme reaches

For each lexical class, the number of characters of its longest member at the head of a text, zero
if none stands there.

- A **blank** is a run of blank characters, line breaks among them.
- A **comment** runs from `#` to the end of the line.
- A **word** is made of identifier characters and of escapes `\uXXXX` and `\UXXXXXXXX`, which may
  stand anywhere in it.
- A **number** is decimal digits, with a fraction, an exponent or both, or `0x` and hexadecimal
  digits.
- A **quotation** is an opener and a body; it is open when its closing quote is missing.
-/

namespace FourGL

open Text

/-- The number of leading characters with the property. -/
def leading (p : Char → Bool) (cs : List Char) : Nat := (cs.takeWhile p).length

/-- Decimal digits. -/
def isDigit (c : Char) : Bool := '0' ≤ c && c ≤ '9'

/-- Hexadecimal digits. -/
def isHexDigit (c : Char) : Bool := isDigit c || ('a' ≤ c && c ≤ 'f') || ('A' ≤ c && c ≤ 'F')

/-! ## Blanks and comments -/

/-- Spaces, tabs, line breaks and the byte order mark. -/
def isBlank (c : Char) : Bool :=
  c == ' ' || c == '\t' || c == '\x0b' || c == '\x0c' || c == '\u00a0' || c == '\ufeff'
    || isLineBreak c

def blankExtent (cs : List Char) : Nat := leading isBlank cs

def commentExtent : List Char → Nat
  | '#' :: cs => 1 + leading (!isLineBreak ·) cs
  | _ => 0

/-! ## Words -/

/-- The length of the escape `\uXXXX` or `\UXXXXXXXX` at the head, zero if there is none. -/
def codeEscapeExtent : List Char → Nat
  | '\\' :: 'u' :: cs => if leading isHexDigit (cs.take 4) = 4 then 6 else 0
  | '\\' :: 'U' :: cs => if leading isHexDigit (cs.take 8) = 8 then 10 else 0
  | _ => 0

/-- The length of the character of the given class or the escape at the head. -/
def wordItemExtent (p : Char → Bool) (cs : List Char) : Nat :=
  match cs with
  | [] => 0
  | c :: _ => if p c then 1 else codeEscapeExtent cs

/-- The length of the items of a word after `pending` characters of the current one. -/
def wordTailExtent (pending : Nat) : List Char → Nat
  | [] => 0
  | c :: cs =>
    match pending with
    | n + 1 => 1 + wordTailExtent n cs
    | 0 =>
      match wordItemExtent isIdentifierPart (c :: cs) with
      | 0 => 0
      | n + 1 => 1 + wordTailExtent n cs

def wordExtent (cs : List Char) : Nat :=
  match wordItemExtent isIdentifierStart cs with
  | 0 => 0
  | n + 1 => wordTailExtent (n + 1) cs

/-! ## Numbers -/

/-- The length of an exponent: `e`, a sign if any, and digits. -/
def exponentExtent : List Char → Nat
  | e :: cs =>
    if e == 'e' || e == 'E' then
      match cs with
      | s :: ds =>
        if s == '+' || s == '-' then if leading isDigit ds = 0 then 0 else 2 + leading isDigit ds
        else if leading isDigit cs = 0 then 0 else 1 + leading isDigit cs
      | [] => 0
    else 0
  | [] => 0

/-- The length of a point, digits and an exponent, where the digits may be missing. -/
def fractionExtent : List Char → Nat
  | '.' :: cs =>
    let digits := leading isDigit cs
    1 + digits + exponentExtent (cs.drop digits)
  | _ => 0

/-- The length of `0x` and hexadecimal digits, at least one. -/
def hexExtent : List Char → Nat
  | '0' :: x :: cs =>
    if x == 'x' || x == 'X' then if leading isHexDigit cs = 0 then 0 else 2 + leading isHexDigit cs
    else 0
  | _ => 0

/-- The length of decimal digits with a fraction or an exponent, either of which may be missing. -/
def decimalExtent (cs : List Char) : Nat :=
  match leading isDigit cs with
  | 0 =>
    match cs with
    | '.' :: ds => if leading isDigit ds = 0 then 0 else fractionExtent cs
    | _ => 0
  | n =>
    let rest := cs.drop n
    match fractionExtent rest with
    | 0 => n + exponentExtent rest
    | m => n + m

def numberExtent (cs : List Char) : Nat := max (hexExtent cs) (decimalExtent cs)

/-! ## Quotations -/

/-- How far the body of a quotation reaches, and whether its closing quote, then included, was met.
-/
structure BodyExtent where
  length : Nat
  closed : Bool
  deriving DecidableEq, Repr

/-- The body lies `n` characters further on. -/
def BodyExtent.after (n : Nat) (b : BodyExtent) : BodyExtent := ⟨n + b.length, b.closed⟩

/-- The body of an escaped quotation: up to the first quote that no backslash precedes, or to the
end of the line. -/
def escapedBody : List Char → BodyExtent
  | [] => ⟨0, false⟩
  | '"' :: _ => ⟨1, true⟩
  | '\\' :: c :: cs => if isLineBreak c then ⟨1, false⟩ else (escapedBody cs).after 2
  | c :: cs => if isLineBreak c then ⟨0, false⟩ else (escapedBody cs).after 1

/-- The body of a quotation in which a quote is written twice: up to the first single one. -/
def doubledBody (quote : Char) : List Char → BodyExtent
  | [] => ⟨0, false⟩
  | [c] => if c = quote then ⟨1, true⟩ else ⟨1, false⟩
  | c :: d :: cs =>
    if c = quote then
      if d = quote then (doubledBody quote cs).after 2 else ⟨1, true⟩
    else (doubledBody quote (d :: cs)).after 1

/-- The body of a quotation, its opener read. -/
def Quoting.body (q : Quoting) (cs : List Char) : BodyExtent :=
  match q with
  | .escaped => escapedBody cs
  | _ => doubledBody q.closer cs

end FourGL
