/-!
# Patterns

A pattern stands for texts: `?` for any character, `*` for any text, and a set in brackets for one
character of it or, after `!`, for one outside. In a pattern of paths two stars that stand for a
whole part, between slashes, lead through any number of directories.

A pattern that is not well formed is faulty at a place, counted in characters from its start.

Patterns are read and matched by a library (`glob`), for which this stands. What is assumed of it is the
language of patterns that its documentation describes, with the faults that it names.
-/

namespace FourGL

/-! ## Wildcards -/

/-- The characters from one to another. -/
structure CharRange where
  first : Char
  last : Char
  deriving DecidableEq, Repr

def CharRange.contains (r : CharRange) (c : Char) : Bool := r.first ≤ c && c ≤ r.last

/-- A part of a pattern. -/
inductive Wildcard where
  | char (c : Char)
  | anyChar
  | anyText
  | anyPath
  | oneOf (ranges : List CharRange)
  | noneOf (ranges : List CharRange)
  deriving DecidableEq, Repr

/-- What is wrong with a pattern. -/
inductive PatternFault where
  | tooManyStars
  | starsWithinName
  | openSet
  deriving DecidableEq, Repr

/-- A fault and its place. -/
structure PatternError where
  position : Nat
  fault : PatternFault
  deriving DecidableEq, Repr

def PatternFault.message : PatternFault → String
  | .tooManyStars => "wildcards are either regular `*` or recursive `**`"
  | .starsWithinName => "recursive wildcards must form a single path component"
  | .openSet => "invalid range pattern"

def PatternError.message (e : PatternError) : String :=
  "Pattern syntax error near position " ++ toString e.position ++ ": " ++ e.fault.message

abbrev Pattern := List Wildcard

namespace Pattern

/-! ## Reading -/

/-- The ranges of a set; a hyphen between two characters makes one of them. -/
def ranges : List Char → List CharRange
  | a :: '-' :: b :: cs => ⟨a, b⟩ :: ranges cs
  | c :: cs => ⟨c, c⟩ :: ranges cs
  | [] => []

/-- The set that starts after an opening bracket, and how many characters it takes. A closing
bracket that comes first belongs to the set. -/
def set? : List Char → Option (Wildcard × Nat)
  | '!' :: c :: cs => (cs.idxOf? ']').map fun n => (.noneOf (ranges (c :: cs.take n)), n + 3)
  | '!' :: [] => none
  | c :: cs => (cs.idxOf? ']').map fun n => (.oneOf (ranges (c :: cs.take n)), n + 2)
  | [] => none

/-- What a run of stars stands for, and how many further characters it takes. -/
def stars (position : Nat) (before : Option Char) (count : Nat) (after : Option Char) :
    Except PatternError (Wildcard × Nat) :=
  if 2 < count then .error ⟨position + 2, .tooManyStars⟩
  else if count = 2 then
    if before = none ∨ before = some '/' then
      match after with
      | none => .ok (.anyPath, 1)
      | some '/' => .ok (.anyPath, 2)
      | some _ => .error ⟨position + 2, .starsWithinName⟩
    else .error ⟨position - 1, .starsWithinName⟩
  else .ok (.anyText, 0)

/-- The wildcard that starts with a character, and how many further characters it takes. -/
def wildcardAt (position : Nat) (before : Option Char) (c : Char) (cs : List Char) :
    Except PatternError (Wildcard × Nat) :=
  match c with
  | '?' => .ok (.anyChar, 0)
  | '*' =>
    let more := (cs.takeWhile (· == '*')).length
    stars position before (more + 1) cs[more]?
  | '[' =>
    match set? cs with
    | some found => .ok found
    | none => .error ⟨position, .openSet⟩
  | c => .ok (.char c, 0)

/-- The wildcards of a pattern after `pending` characters of the current one. -/
def readFrom (pending position : Nat) (before : Option Char) :
    List Char → Except PatternError Pattern
  | [] => .ok []
  | c :: cs =>
    match pending with
    | n + 1 => readFrom n (position + 1) (some c) cs
    | 0 => do
      let (w, more) ← wildcardAt position before c cs
      return w :: (← readFrom more (position + 1) (some c) cs)

/-- The pattern that a text is. -/
def ofText (text : String) : Except PatternError Pattern := readFrom 0 0 none text.toList

/-- The pattern as a text that it matches without any choice. -/
def literal? (p : Pattern) : Option String :=
  String.ofList <$> p.mapM fun
    | .char c => some c
    | _ => none

/-- A text as a pattern for itself alone. -/
def escape (text : String) : String :=
  String.ofList (text.toList.flatMap fun c =>
    if c == '?' || c == '*' || c == '[' || c == ']' then ['[', c, ']'] else [c])

/-! ## Matching -/

/-- Whether a wildcard for one character stands for the given one. -/
def fits (c : Char) : Wildcard → Bool
  | .char d => c == d
  | .anyChar => true
  | .oneOf ranges => ranges.any (·.contains c)
  | .noneOf ranges => !ranges.any (·.contains c)
  | .anyText | .anyPath => false

/-- Whether some end of a list, the whole or none of it included, satisfies the predicate. -/
def someEnd (p : List Char → Bool) : List Char → Bool
  | [] => p []
  | c :: cs => p (c :: cs) || someEnd p cs

/-- Whether a pattern stands for a text. -/
def covers : Pattern → List Char → Bool
  | [], cs => cs.isEmpty
  | .anyText :: ws, cs | .anyPath :: ws, cs => someEnd (covers ws) cs
  | _ :: _, [] => false
  | w :: ws, c :: cs => fits c w && covers ws cs

end Pattern

end FourGL
