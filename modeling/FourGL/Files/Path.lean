import FourGL.Text.Lines

/-!
# Paths

A path is a text in which slashes separate the names of directories and files. It is read as a list
of steps. Slashes in a row count as one, one at the end does not count, and a point for the
directory itself counts at the very start only.

Paths are ordered step by step, and two paths with the same steps are one.
-/

namespace FourGL

/-- A step of a path. -/
inductive PathStep where
  | root
  | current
  | parent
  | name (s : String)
  deriving DecidableEq, Repr

namespace PathStep

/-- The place of a kind of step in the order of steps. -/
def rank : PathStep → Nat
  | .root => 0
  | .current => 1
  | .parent => 2
  | .name _ => 3

/-- The name that a step goes to. -/
def name? : PathStep → Option String
  | .name s => some s
  | _ => none

/-- The order of steps: by kind, and then by name. -/
def compare (a b : PathStep) : Ordering :=
  (Ord.compare a.rank b.rank).then (Ord.compare (a.name?.getD "") (b.name?.getD ""))

end PathStep

namespace Path

/-- The texts between the slashes of a path. -/
def segments (path : String) : List String :=
  (splitAtEach '/' path.toList).map String.ofList

/-- The step that a text between slashes stands for, after the first one. -/
def laterStep? : String → Option PathStep
  | "" | "." => none
  | ".." => some .parent
  | s => some (.name s)

/-- The steps of a path. -/
def steps (path : String) : List PathStep :=
  if path = "" then []
  else
    match segments path with
    | [] => []
    | s :: ss =>
      let first := if s = "" then [.root] else if s = "." then [.current] else (laterStep? s).toList
      first ++ ss.filterMap laterStep?

/-- The order of paths. -/
def compare (a b : String) : Ordering := go (steps a) (steps b)
where
  /-- The order of lists of steps. -/
  go : List PathStep → List PathStep → Ordering
    | [], [] => .eq
    | [], _ :: _ => .lt
    | _ :: _, [] => .gt
    | a :: as, b :: bs => (a.compare b).then (go as bs)

/-- The name of the file or directory at the end of a path. -/
def fileName? (path : String) : Option String := (steps path).getLast?.bind (·.name?)

/-- What comes after the last point of a file name, where something stands before that point. -/
def extensionOf? (fileName : String) : Option String :=
  let cs := fileName.toList.reverse
  let suffix := cs.takeWhile (· != '.')
  match cs.drop (suffix.length + 1) with
  | [] => none
  | _ :: _ => some (String.ofList suffix.reverse)

/-- The extension of a path. -/
def extension? (path : String) : Option String := (fileName? path).bind extensionOf?

/-- A path followed by a further text. -/
def join (path text : String) : String :=
  if path = "" || path.toList.getLast? == some '/' then path ++ text else path ++ "/" ++ text

end Path

end FourGL
