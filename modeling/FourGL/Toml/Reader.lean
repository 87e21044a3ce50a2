/-!
# Readers

A `Reader` takes what it reads from the front of a text, or fails. Repetition is bounded by the
length of the text: whatever is repeated takes at least one character each time.

Configurations are read by a library (`toml`), for which the readers of this directory stand. What is
assumed of it is that it reads the language TOML as that is specified, as far as sections of single values
go, and fails on what is not written in it.
-/

namespace FourGL.Toml

/-- Reads a value from the front of a text. -/
abbrev Reader := StateT (List Char) Option

namespace Reader

/-- The next character; fails at the end. -/
def next : Reader Char := do
  match ← get with
  | c :: cs =>
    set cs
    return c
  | [] => failure

/-- The longest stretch of characters that satisfy the predicate. -/
def span (p : Char → Bool) : Reader (List Char) :=
  modifyGet fun cs => (cs.takeWhile p, cs.dropWhile p)

/-- Whether the text starts as given; what it starts with is then taken. -/
def accept (start : String) : Reader Bool := do
  let cs ← get
  if start.toList.isPrefixOf cs then
    set (cs.drop start.length)
    return true
  else return false

/-- Takes the given start of the text; fails without it. -/
def expect (start : String) : Reader Unit := do
  if ← accept start then return () else failure

/-- Whether the text is at its end. -/
def atEnd : Reader Bool := return (← get).isEmpty

/-- As many characters as are asked for. -/
def exactly (n : Nat) : Reader (List Char) := do
  let cs ← get
  if n ≤ cs.length then
    set (cs.drop n)
    return cs.take n
  else failure

/-- Repeats a reader, at most so many times, until it says that its part is the last. -/
def repeatUpTo {α : Type} (part : Reader (List α × Bool)) : Nat → Reader (List α)
  | 0 => failure
  | n + 1 => do
    let (items, more) ← part
    if more then return items ++ (← repeatUpTo part n) else return items

/-- Repeats a reader until it says that its part is the last. -/
def parts {α : Type} (part : Reader (List α × Bool)) : Reader (List α) := do
  repeatUpTo part ((← get).length + 1)

/-- The value of a whole text. -/
def whole? {α : Type} (r : Reader α) (cs : List Char) : Option α :=
  match r.run cs with
  | some (a, []) => some a
  | _ => none

end Reader

end FourGL.Toml
