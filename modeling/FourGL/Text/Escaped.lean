import FourGL.Text.Printable

/-!
# Showing text in messages

Text is shown with backslash escapes for quotes, backslashes and control characters, and by code
point where a character leaves no mark. A combining mark is shown as it is where a character stands
before it.
-/

namespace FourGL.Text

/-- What is escaped beyond backslashes, double quotes and unprintable characters. -/
structure EscapeStyle where
  /-- Single quotes. -/
  singleQuotes : Bool
  /-- Combining marks. -/
  combining : Bool

/-- A character by its code point. -/
def codePoint (c : Char) : List Char :=
  "\\u\x7b".toList ++ Nat.toDigits 16 c.toNat ++ ['\x7d']

/-- A character as shown in the given style. -/
def escapeChar (style : EscapeStyle) (c : Char) : List Char :=
  match c with
  | '\x00' => ['\\', '0']
  | '\t' => ['\\', 't']
  | '\r' => ['\\', 'r']
  | '\n' => ['\\', 'n']
  | '\\' => ['\\', '\\']
  | '"' => ['\\', '"']
  | '\'' => if style.singleQuotes then ['\\', '\''] else ['\'']
  | _ =>
    if (style.combining && isCombining c) || !isPrintable c then codePoint c else [c]

/-- A text as messages show it between marks of their own. -/
def escape (s : String) : String :=
  match s.toList with
  | [] => ""
  | c :: cs =>
    String.ofList (escapeChar ⟨true, true⟩ c ++ cs.flatMap (escapeChar ⟨true, false⟩))

/-- A text in double quotes. -/
def quote (s : String) : String :=
  String.ofList ('"' :: s.toList.flatMap (escapeChar ⟨false, true⟩) ++ ['"'])

end FourGL.Text
