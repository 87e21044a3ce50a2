import FourGL.Text.CaseTables

/-!
# Capital and small letters

The full case maps of text. Small letters depend on the context in one place only: a capital sigma
at the end of a word becomes `ς`, elsewhere `σ`. A word ends where, marks aside, a letter stands
before and none after.
-/

namespace FourGL.Text

/-! ## Characters -/

/-- The small form of a character, sigma read as if inside a word. -/
def lowerChar (c : Char) : List Char :=
  if c.toNat < 0x80 then [c.toLower]
  else if c == 'İ' then ['i', '\u0307']
  else [Char.ofNat (shifted lowerRuns c.toNat)]

/-- The capital form of a character. -/
def upperChar (c : Char) : List Char :=
  if c.toNat < 0x80 then [c.toUpper]
  else match upperExpansions.find? (·.1 == c.toNat) with
    | some (_, codes) => codes.map Char.ofNat
    | none => [Char.ofNat (shifted upperRuns c.toNat)]

/-! ## Texts -/

/-- Whether a letter stands next, marks aside. -/
def letterNext (cs : List Char) : Bool :=
  match cs.dropWhile caseIgnorable.contains with
  | c :: _ => casedLetters.contains c
  | [] => false

/-- Small letters for the second list, which the first one, last character first, precedes. -/
def lowerAfter (before : List Char) : List Char → List Char
  | [] => []
  | c :: cs =>
    let small :=
      if c == 'Σ' then if letterNext before && !letterNext cs then ['ς'] else ['σ'] else lowerChar c
    small ++ lowerAfter (c :: before) cs

/-- The text in small letters. -/
def lowercase (s : String) : String :=
  String.ofList (lowerAfter [] s.toList)

/-- The text in capital letters. -/
def uppercase (s : String) : String :=
  String.ofList (s.toList.flatMap upperChar)

/-- Capital ASCII letters made small, all else kept. -/
def asciiLowercase (s : String) : String :=
  s.map Char.toLower

/-- Equality of texts up to the case of ASCII letters. -/
def equalIgnoringAsciiCase (a b : String) : Bool :=
  asciiLowercase a == asciiLowercase b

end FourGL.Text
