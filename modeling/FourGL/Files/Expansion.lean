import FourGL.Files.Pattern
import FourGL.Files.Tree

/-!
# Paths that a pattern stands for

A pattern of paths is taken apart at its slashes. Each part leads from the paths found so far to
further ones: a part without wildcards to the entry of that name, one with wildcards to all entries
that it covers, and two stars to everything below. The points for a directory and the one above are
found only by parts that start with a point.
-/

namespace FourGL

namespace Pattern

/-- The parts of a pattern of paths, and whether it starts at the root. Two parts of two stars in a
row are one. -/
structure Route where
  fromRoot : Bool
  parts : List Pattern
  /-- Whether only directories are meant. -/
  directories : Bool

/-- The texts between slashes, without an empty one at the end. -/
def partTexts (text : String) : List String :=
  let texts := Path.segments text
  if texts.getLast? = some "" then texts.dropLast else texts

/-- A part in front of others. -/
def consPart (p : Pattern) (parts : List Pattern) : List Pattern :=
  if p.contains .anyPath && parts.head?.any (·.contains .anyPath) then parts else p :: parts

/-- The route that a text describes. The text as a whole must be well formed, and so must each part.
-/
def routeOf (text : String) : Except PatternError Route := do
  let _ ← ofText text
  let fromRoot := text.toList.head? == some '/'
  let rest := if fromRoot then String.ofList (text.toList.drop 1) else text
  let parts ← (partTexts rest).mapM ofText
  return {
    fromRoot
    parts := if rest = "" then [[]] else parts.foldr consPart []
    directories := text.toList.getLast? == some '/' }

end Pattern

namespace FileSystem

/-- Whether a path is the working directory, as such. -/
def isHere (path : String) : Bool := Path.steps path == [.current]

/-- The path of an entry of a directory. -/
def entryPath (directory name : String) : String :=
  if isHere directory then name else Path.join directory name

/-- The paths of the entries of a directory. -/
def entryPaths (fs : FileSystem) (directory : String) : List String :=
  ((fs.tree? directory).map fun t => t.entries.map fun e => entryPath directory e.1).getD []

/-- The paths of everything below a directory. -/
def pathsBelow (fs : FileSystem) (directory : String) : List (String × Bool) :=
  ((fs.tree? directory).map (·.allBelow (if isHere directory then "" else directory))).getD []

/-- Whether a pattern covers the name at the end of a path. -/
def covers (p : Pattern) (path : String) : Bool :=
  (Path.fileName? path).any fun name => p.covers name.toList

/-- The path to a fixed name, if there is such an entry. -/
def fixedStep (fs : FileSystem) (directory name : String) : List String :=
  let path := entryPath directory name
  let there := if name = "." || name = ".." then fs.isDirectory directory else fs.holds path
  if there then [path] else []

/-- The directory itself and the one above, where a pattern covers them. -/
def pointSteps (p : Pattern) (directory : String) : List String :=
  if p.head? = some (.char '.') then
    ([".", ".."].filter fun s => p.covers s.toList).map (Path.join directory)
  else []

/-- The paths to which one part leads from a directory. -/
def step (fs : FileSystem) (p : Pattern) (directory : String) : List String :=
  match p.literal? with
  | some name => fs.fixedStep directory name
  | none =>
    if fs.isDirectory directory then
      (fs.entryPaths directory).filter (covers p) ++ pointSteps p directory
    else []

/-- The paths to which parts lead from a path. -/
def reach (fs : FileSystem) : List Pattern → String → List String
  | [], path => [path]
  | p :: parts, path =>
    if p.contains .anyPath then
      let found := if fs.isDirectory path then fs.pathsBelow path else []
      match parts with
      | [] => (found.filter (·.2)).map (·.1)
      | q :: parts => ((found.map (·.1)).filter (covers q)).flatMap fun path => fs.reach parts path
    else (fs.step p path).flatMap fun path => fs.reach parts path

/-- The paths for which a pattern stands. -/
def expand (fs : FileSystem) (r : Pattern.Route) : List String :=
  let found := fs.reach r.parts (if r.fromRoot then "/" else ".")
  if r.directories then found.filter fs.isDirectory else found

end FileSystem

end FourGL
