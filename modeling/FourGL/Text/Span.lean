/-!
# Spans and places in a text

A `Span` is a half-open stretch of a text, measured in bytes of UTF-8. A `Place` is a point of a
text: its offset in bytes, its line and its column, the last two counted from one and the column in
characters.

Offsets, lines and columns are kept in 32 bits. Here they are natural numbers, and texts are taken to be
shorter than 4 GiB, for which the two agree.

A line ends at a line feed, a carriage return, both in that order, a next-line control, or one of
the two Unicode separators.
-/

namespace FourGL

/-! ## Spans -/

/-- A half-open stretch of a text, in bytes. -/
structure Span where
  start : Nat
  stop : Nat
  deriving DecidableEq, Repr, Inhabited

namespace Span

/-- The empty span at an offset. -/
def emptyAt (offset : Nat) : Span := ⟨offset, offset⟩

def isEmpty (s : Span) : Bool := s.start == s.stop

/-- Whether the offset lies in the span, its end not included. -/
def contains (s : Span) (offset : Nat) : Bool := s.start ≤ offset && offset < s.stop

/-- Whether the offset lies in the span or at its end. -/
def touches (s : Span) (offset : Nat) : Bool := s.start ≤ offset && offset ≤ s.stop

/-- The smallest span that holds both. -/
def cover (s t : Span) : Span := ⟨min s.start t.start, max s.stop t.stop⟩

theorem touches_of_contains {s : Span} {n : Nat} (h : s.contains n = true) :
    s.touches n = true := by
  simp_all [contains, touches]; omega

end Span

/-! ## Bytes -/

/-- The number of bytes that the characters take in UTF-8. -/
def utf8Length (cs : List Char) : Nat := cs.foldr (fun c n => c.utf8Size + n) 0

@[simp] theorem utf8Length_nil : utf8Length [] = 0 := rfl

@[simp] theorem utf8Length_cons (c : Char) (cs : List Char) :
    utf8Length (c :: cs) = c.utf8Size + utf8Length cs := rfl

@[simp] theorem utf8Length_append (as bs : List Char) :
    utf8Length (as ++ bs) = utf8Length as + utf8Length bs := by
  induction as with
  | nil => rw [List.nil_append, utf8Length_nil, Nat.zero_add]
  | cons c as ih => rw [List.cons_append, utf8Length_cons, utf8Length_cons, ih, Nat.add_assoc]

/-- The characters of a text from one byte offset up to another. -/
def slice (cs : List Char) (span : Span) : List Char :=
  let rec go (offset : Nat) : List Char → List Char
    | [] => []
    | c :: rest =>
      let tail := go (offset + c.utf8Size) rest
      if span.contains offset then c :: tail else tail
  go 0 cs

/-! ## Places -/

/-- The characters that end a line. -/
def isLineBreak (c : Char) : Bool :=
  c == '\r' || c == '\n' || c == '\u0085' || c == '\u2028' || c == '\u2029'

/-- A point of a text. -/
structure Place where
  offset : Nat := 0
  line : Nat := 1
  column : Nat := 1
  deriving DecidableEq, Repr, Inhabited

namespace Place

/-- The start of the next line, a line break of `width` bytes further on. -/
def nextLine (p : Place) (width : Nat) : Place := ⟨p.offset + width, p.line + 1, 1⟩

/-- One character further on in the line. -/
def nextColumn (p : Place) (width : Nat) : Place := ⟨p.offset + width, p.line, p.column + 1⟩

/-- The place after a stretch of text. -/
def advance (p : Place) : List Char → Place
  | [] => p
  | '\r' :: '\n' :: cs => advance (p.nextLine 2) cs
  | c :: cs =>
    if isLineBreak c then advance (p.nextLine c.utf8Size) cs
    else advance (p.nextColumn c.utf8Size) cs

end Place

end FourGL
