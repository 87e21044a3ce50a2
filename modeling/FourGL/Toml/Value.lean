import FourGL.Toml.Text

/-!
# Values in TOML

Texts, whole numbers, arrays and inline tables. Other values of the format, such as dates, are not
read. Between the parts of an array or an inline table there may be blanks, line breaks and
comments, and a comma may follow the last part.
-/

namespace FourGL.Toml

open Reader

/-- A value. A key of an inline table may have several names. -/
inductive Value where
  | text (s : String)
  | integer (n : Int)
  | array (items : List Value)
  | table (entries : List (List String × Value))
  deriving Repr, Inhabited

/-! ## Blanks and comments -/

/-- Takes a comment, if there is one, up to the end of its line. -/
def comment : Reader Unit := do
  if ← accept "#" then
    let _ ← span isPlain

/-- A part of what may stand between values; it says whether another may follow. -/
def fillerPart : Reader (List Unit × Bool) := do
  blanks
  comment
  return ([], (← lineBreak?).isSome)

/-- Takes blanks, line breaks and comments. -/
def filler : Reader Unit := do
  let _ ← parts fillerPart

/-! ## Keys -/

/-- The characters of a name that stands without quotes. -/
def isNameCharacter (c : Char) : Bool := c.isAlphanum || c == '_' || c == '-'

/-- One name of a key. -/
def name : Reader String := do
  if ← accept "\"" then lineAfter '"' true
  else if ← accept "'" then lineAfter '\'' false
  else
    match ← span isNameCharacter with
    | [] => failure
    | cs => return String.ofList cs

/-- A name, blanks, and the point before another name if there is one. -/
def namePart : Reader (List String × Bool) := do
  let n ← name
  blanks
  if ← accept "." then
    blanks
    return ([n], true)
  else return ([n], false)

/-- A key: names with points between them. -/
def key : Reader (List String) := parts namePart

/-! ## Values -/

/-- A part of an array or an inline table, with the comma after it. -/
def itemPart {α : Type} (item : Reader α) (close : String) : Reader (List α × Bool) := do
  filler
  if ← accept close then return ([], false)
  else
    let a ← item
    filler
    if ← accept "," then return ([a], true)
    else
      expect close
      return ([a], false)

/-- A key with its value, as the given reader reads values. -/
def entry (value : Reader Value) : Reader (List String × Value) := do
  let k ← key
  expect "="
  blanks
  return (k, ← value)

/-- A value that is nested no deeper than given. -/
def nestedValue : Nat → Reader Value
  | 0 => failure
  | depth + 1 => do
    if ← accept "\"" then return .text (← textAfter '"' true)
    else if ← accept "'" then return .text (← textAfter '\'' false)
    else if ← accept "[" then return .array (← parts (itemPart (nestedValue depth) "]"))
    else if ← accept "\x7b" then
      return .table (← parts (itemPart (entry (nestedValue depth)) "\x7d"))
    else
      match integer? (← span isWordCharacter) with
      | some n => return .integer n
      | none => failure

/-- How deep values may be nested. -/
def maxDepth : Nat := 80

/-- A value. -/
def value : Reader Value := nestedValue maxDepth

end FourGL.Toml
