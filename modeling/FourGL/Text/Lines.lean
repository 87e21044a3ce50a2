/-!
# Lines of a text

A line ends at a line feed, and a carriage return before it belongs to the line's end. What follows
the last line feed is a line only if it is not empty.
-/

namespace FourGL

/-- The parts of a text between the separators. -/
def splitAtEach (separator : Char) : List Char → List (List Char)
  | [] => [[]]
  | c :: cs =>
    match splitAtEach separator cs with
    | [] => [[c]]
    | part :: parts => if c = separator then [] :: part :: parts else (c :: part) :: parts

/-- A line without the carriage return at its end. -/
def dropCarriageReturn (line : List Char) : List Char :=
  if line.getLast? = some '\r' then line.dropLast else line

/-- The lines of a text. -/
def linesOf (cs : List Char) : List (List Char) :=
  let parts := splitAtEach '\n' cs
  parts.dropLast.map dropCarriageReturn ++ parts.getLast?.toList.filter (· ≠ [])

end FourGL
