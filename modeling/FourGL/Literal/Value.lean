import FourGL.Lexeme.Extent
import FourGL.Literal.Nearest

/-!
# Values of literals

What words, quotations and numbers stand for. Words and escaped quotations may name characters by
their code; a code that names no character, an escape that does not exist and a number that cannot
be read are errors.
-/

namespace FourGL

open Text

/-- What a literal stands for. -/
inductive Value where
  /-- The text of a word or a quotation. -/
  | text (s : String)
  /-- A whole number in the signed 64-bit range. -/
  | integer (n : Int)
  /-- The bit pattern of a binary floating point number. -/
  | float (bits : Nat)
  deriving DecidableEq, Repr

/-- Why a literal has no value. -/
inductive LiteralError where
  | invalidEscape
  | invalidCodePoint
  | invalidNumber
  deriving DecidableEq, Repr

def LiteralError.message : LiteralError → String
  | .invalidEscape => "invalid escape sequence"
  | .invalidCodePoint => "escape is not a valid character"
  | .invalidNumber => "malformed number"

/-! ## Digits -/

/-- The value of a decimal or hexadecimal digit. -/
def digitValue (c : Char) : Nat :=
  if isDigit c then c.toNat - '0'.toNat
  else if 'a' ≤ c then c.toNat - 'a'.toNat + 10
  else c.toNat - 'A'.toNat + 10

/-- The number that the digits denote in the given base. -/
def numeral (base : Nat) (digits : List Char) : Nat :=
  digits.foldl (fun n c => base * n + digitValue c) 0

/-- The character with the code that the hexadecimal digits denote. -/
def charOfHex (digits : List Char) : Except LiteralError Char :=
  let n := numeral 16 digits
  if n.isValidChar then .ok (Char.ofNat n) else .error .invalidCodePoint

/-- The character named by the first `width` characters, which must be hexadecimal digits. -/
def codeEscape (width : Nat) (cs : List Char) : Except LiteralError Char :=
  let digits := cs.take width
  if digits.length = width ∧ digits.all isHexDigit then charOfHex digits else .error .invalidEscape

/-! ## Words -/

/-- The characters of a word after `pending` characters of the current item: escapes are resolved
and format characters left out. -/
def wordChars (pending : Nat) : List Char → Except LiteralError (List Char)
  | [] => .ok []
  | c :: cs =>
    match pending with
    | n + 1 => wordChars n cs
    | 0 => do
      let item : Char × Nat ←
        if c == '\\' then
          match cs with
          | 'u' :: ds => (·, 5) <$> codeEscape 4 ds
          | 'U' :: ds => (·, 9) <$> codeEscape 8 ds
          | _ => .error .invalidEscape
        else .ok (c, 0)
      let tail ← wordChars item.2 cs
      return if isFormat item.1 then tail else item.1 :: tail

/-- Whether the text is ASCII without a backslash, and so stands for itself. -/
def isPlainWord (cs : List Char) : Bool := cs.all fun c => c.toNat < 0x80 && c != '\\'

/-- What a word stands for. -/
def wordValue (cs : List Char) : Except LiteralError String :=
  if isPlainWord cs then .ok (String.ofList cs) else String.ofList <$> wordChars 0 cs

/-! ## Quotations -/

/-- The body with each doubled quote written once. -/
def undouble (quote : Char) : List Char → List Char
  | c :: d :: cs =>
    if c = quote ∧ d = quote then quote :: undouble quote cs else c :: undouble quote (d :: cs)
  | cs => cs

/-- The body without the closing quote. -/
def BodyExtent.inner (b : BodyExtent) (cs : List Char) : List Char :=
  cs.take (if b.closed then b.length - 1 else b.length)

/-- What a text in which a quote is written twice stands for, up to its closing quote if there is
one. -/
def doubledValue (quote : Char) (cs : List Char) : String :=
  String.ofList (undouble quote ((doubledBody quote cs).inner cs))

/-- The character that a one-letter escape names. -/
def letterEscape? : Char → Option Char
  | 'n' => some '\n' | 't' => some '\t' | 'r' => some '\r'
  | 'a' => some '\x07' | 'b' => some '\x08' | 'f' => some '\x0c' | 'v' => some '\x0b'
  | '0' => some '\x00' | '\\' => some '\\' | '"' => some '"' | '\'' => some '\''
  | _ => none

/-- The number of digits of a code escape: fixed after `u` and `U`, as many as there are up to four
after `x`. -/
def codeWidth? (escape : Char) (cs : List Char) : Option Nat :=
  match escape with
  | 'u' => some 4
  | 'U' => some 8
  | 'x' => some (leading isHexDigit (cs.take 4))
  | _ => none

/-- The character that the escape after a backslash names, and how many characters spell it. -/
def escapedChar : List Char → Except LiteralError (Char × Nat)
  | [] => .error .invalidEscape
  | c :: cs =>
    match letterEscape? c, codeWidth? c cs with
    | some d, _ => .ok (d, 1)
    | none, none | none, some 0 => .error .invalidEscape
    | none, some width => (·, 1 + width) <$> codeEscape width cs

/-- The body of an escaped quotation, after `pending` characters of the current escape, with its
escapes resolved. -/
def unescape (pending : Nat) : List Char → Except LiteralError (List Char)
  | [] => .ok []
  | c :: cs =>
    match pending with
    | n + 1 => unescape n cs
    | 0 => do
      let item ← if c == '\\' then escapedChar cs else .ok (c, 0)
      return item.1 :: (← unescape item.2 cs)

/-- What a quotation stands for; text without an opener stands for itself. -/
def quotedValue (cs : List Char) : Except LiteralError String :=
  match cs with
  | '@' :: '"' :: body => .ok (doubledValue '"' body)
  | '\'' :: body => .ok (doubledValue '\'' body)
  | '"' :: body => String.ofList <$> unescape 0 ((escapedBody body).inner body)
  | _ => .ok (String.ofList cs)

/-! ## Numbers -/

/-- The bits of a 64-bit word read as a signed number. -/
def signed64 (n : Nat) : Int := if n < 1 <<< 63 then n else (n : Int) - (1 <<< 64 : Nat)

/-- A hexadecimal number, its `0x` read: one that fits 64 bits, read as a signed number. -/
def hexValue (cs : List Char) : Except LiteralError Value :=
  let digits := match cs with
    | '+' :: ds => ds
    | _ => cs
  if digits ≠ [] ∧ digits.all isHexDigit ∧ numeral 16 digits < 1 <<< 64 then
    .ok (.integer (signed64 (numeral 16 digits)))
  else .error .invalidNumber

/-- A number with its sign taken off. -/
def splitSign : List Char → Bool × List Char
  | '-' :: cs => (true, cs)
  | '+' :: cs => (false, cs)
  | cs => (false, cs)

/-- The exponent that is all of the text: nothing, or `e`, a sign if any, and digits. -/
def exponentValue? : List Char → Option Int
  | [] => some 0
  | e :: cs =>
    if e == 'e' || e == 'E' then
      let (negative, digits) := splitSign cs
      if digits ≠ [] ∧ digits.all isDigit then
        let n : Int := numeral 10 digits
        some (if negative then -n else n)
      else none
    else none

/-- The bit pattern nearest to an unsigned decimal number with a fraction and an exponent, either of
which may be missing; `inf`, `infinity` and `nan` are read in any case. -/
def decimalBits? (cs : List Char) : Option Nat :=
  let small := cs.map Char.toLower
  if small = "inf".toList ∨ small = "infinity".toList then some Nearest.infinityBits
  else if small = "nan".toList then some Nearest.nanBits
  else
    let whole := cs.takeWhile isDigit
    let rest := cs.dropWhile isDigit
    let (fraction, rest) := match rest with
      | '.' :: ds => (ds.takeWhile isDigit, ds.dropWhile isDigit)
      | _ => ([], rest)
    let digits := whole ++ fraction
    if digits = [] then none
    else (exponentValue? rest).map fun e =>
      let significant := digits.dropWhile (· == '0')
      Nearest.ofDecimal (numeral 10 significant) significant.length (e - fraction.length)

/-- The bit pattern nearest to a decimal number. -/
def floatBits? (cs : List Char) : Option Nat :=
  let (negative, magnitude) := splitSign cs
  (decimalBits? magnitude).map fun bits => if negative then Nearest.signBit + bits else bits

/-- What a number stands for: an integer if it is hexadecimal, or all digits and in the signed
64-bit range, otherwise the nearest floating point number. -/
def numberValue (cs : List Char) : Except LiteralError Value :=
  match cs with
  | '0' :: 'x' :: hex | '0' :: 'X' :: hex => hexValue hex
  | _ =>
    if cs ≠ [] ∧ cs.all isDigit ∧ numeral 10 cs < 1 <<< 63 then .ok (.integer (numeral 10 cs))
    else match floatBits? cs with
      | some bits => .ok (.float bits)
      | none => .error .invalidNumber

end FourGL
