import FourGL.Literal.Value
import FourGL.Toml.Reader

/-!
# Texts and numbers in TOML

The four forms of texts, on one line or several and with or without escapes, and whole numbers in
four bases. No control character but the tab may stand in a text or a comment.
-/

namespace FourGL.Toml

open Reader

/-! ## Characters -/

/-- The characters that separate parts of a line. -/
def isBlank (c : Char) : Bool := c == ' ' || c == '\t'

/-- The characters that may stand in texts and comments. -/
def isPlain (c : Char) : Bool := c == '\t' || (0x20 ≤ c.toNat && c.toNat != 0x7f)

/-- Takes blanks. -/
def blanks : Reader Unit := do
  let _ ← span isBlank

/-- A line break, as it is written. -/
def lineBreak? : Reader (Option String) := do
  if ← accept "\r\n" then return some "\r\n"
  else if ← accept "\n" then return some "\n"
  else return none

/-! ## Escapes -/

/-- The character with a code of so many hexadecimal digits. -/
def codeOf (width : Nat) : Reader Char := do
  match codeEscape width (← exactly width) with
  | .ok c => return c
  | .error _ => failure

/-- The character that an escape names, read after the backslash. -/
def escape : Reader Char := do
  match ← next with
  | 'b' => return '\x08'
  | 't' => return '\t'
  | 'n' => return '\n'
  | 'f' => return '\x0c'
  | 'r' => return '\r'
  | 'e' => return '\x1b'
  | '"' => return '"'
  | '\\' => return '\\'
  | 'x' => codeOf 2
  | 'u' => codeOf 4
  | 'U' => codeOf 8
  | _ => failure

/-! ## Texts -/

/-- What a character of a text gives where it is neither a quote, an escape nor a line break. -/
def plain (c : Char) : Reader (List Char × Bool) :=
  if isPlain c then return ([c], true) else failure

/-- A part of a text on one line. -/
def linePart (quote : Char) (escapes : Bool) : Reader (List Char × Bool) := do
  let c ← next
  if c = quote then return ([], false)
  else if escapes && c == '\\' then return ([← escape], true)
  else plain c

/-- The text after leading blanks and line breaks. -/
def dropBlankLines : List Char → List Char
  | '\r' :: '\n' :: cs => dropBlankLines cs
  | c :: cs => if isBlank c || c == '\n' then dropBlankLines cs else c :: cs
  | [] => []

/-- Whether only blanks stand before the end of the line. They are then taken, and with them all
blanks and line breaks that follow. -/
def joinLines : Reader Bool := do
  let cs ← get
  match cs.dropWhile isBlank with
  | '\n' :: _ | '\r' :: '\n' :: _ =>
    set (dropBlankLines cs)
    return true
  | _ => return false

/-- A part of a text on several lines. Fewer than three quotes are part of the text; with the three
that end it, two more may be. -/
def blockPart (quote : Char) (escapes : Bool) : Reader (List Char × Bool) := do
  let quotes ← span (· == quote)
  if 5 < quotes.length then failure
  else if 3 ≤ quotes.length then return (quotes.drop 3, false)
  else if quotes ≠ [] then return (quotes, true)
  else
    match ← lineBreak? with
    | some s => return (s.toList, true)
    | none =>
      let c ← next
      if escapes && c == '\\' then
        if ← joinLines then return ([], true) else return ([← escape], true)
      else plain c

/-- The rest of a text on one line, after its quote. -/
def lineAfter (quote : Char) (escapes : Bool) : Reader String := do
  return String.ofList (← parts (linePart quote escapes))

/-- The rest of a text after its first quote. Three quotes open one that may span lines; a line
break at its very start is not part of it. -/
def textAfter (quote : Char) (escapes : Bool) : Reader String := do
  if ← accept (String.ofList [quote, quote]) then
    let _ ← lineBreak?
    return String.ofList (← parts (blockPart quote escapes))
  else lineAfter quote escapes

/-! ## Numbers -/

/-- The characters of words and numbers. -/
def isWordCharacter (c : Char) : Bool :=
  c.isAlphanum || c == '_' || c == '-' || c == '+'

/-- Whether the characters are digits of a base; single low lines may stand between them. -/
def isDigits (digit : Char → Bool) : List Char → Bool
  | [] => false
  | [c] => digit c
  | c :: '_' :: cs => digit c && isDigits digit cs
  | c :: cs => digit c && isDigits digit cs

/-- The number that digits of a base denote, low lines apart. -/
def natural? (base : Nat) (digit : Char → Bool) (cs : List Char) : Option Nat :=
  if isDigits digit cs then some (numeral base (cs.filter (· != '_'))) else none

/-- The number that decimal digits denote. No zero stands in front of others. -/
def decimal? (cs : List Char) : Option Nat :=
  match cs with
  | '0' :: _ :: _ => none
  | _ => natural? 10 Char.isDigit cs

/-- The whole number that a word is. A number of another base has no sign. -/
def integer? : List Char → Option Int
  | '0' :: 'x' :: cs => (natural? 16 isHexDigit cs).map Int.ofNat
  | '0' :: 'o' :: cs => (natural? 8 (fun c => '0' ≤ c && c ≤ '7') cs).map Int.ofNat
  | '0' :: 'b' :: cs => (natural? 2 (fun c => c == '0' || c == '1') cs).map Int.ofNat
  | '+' :: cs => (decimal? cs).map Int.ofNat
  | '-' :: cs => (decimal? cs).map fun n => -Int.ofNat n
  | cs => (decimal? cs).map Int.ofNat

end FourGL.Toml
