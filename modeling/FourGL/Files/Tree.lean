import FourGL.Files.Path

/-!
# Files and directories

A file system is a tree of directories with files as its leaves, together with the directory in
which a command works. A path leads through directories: every slash and every point for a directory
must stand behind one, and two points lead to the directory above.
-/

namespace FourGL

/-- A file with its bytes, or a directory with its entries. -/
inductive FileTree where
  | file (content : ByteArray)
  | directory (entries : List (String × FileTree))

namespace FileTree

instance : Inhabited FileTree := ⟨.directory []⟩

def isDirectory : FileTree → Bool
  | .directory _ => true
  | .file _ => false

/-- The entries of a directory. -/
def entries : FileTree → List (String × FileTree)
  | .directory entries => entries
  | .file _ => []

/-- The entry of the given name. -/
def entry? (t : FileTree) (name : String) : Option FileTree := t.entries.lookup name

/-- What the names lead to. -/
def find? (t : FileTree) : List String → Option FileTree
  | [] => some t
  | name :: names => (t.entry? name).bind (·.find? names)

/-- The tree with something placed at the end of a list of names. Directories on the way are made
where there is nothing yet. -/
def place (t : FileTree) (content : FileTree) : List String → FileTree
  | [] => content
  | name :: names =>
    let inner := ((t.entry? name).getD default).place content names
    .directory (t.entries.filter (·.1 != name) ++ [(name, inner)])

mutual

/-- The paths of all entries below, each with whether it is a directory. -/
def allBelow (path : String) : FileTree → List (String × Bool)
  | .file _ => []
  | .directory entries => allBelowEach path entries

/-- The paths of entries and of all entries below them. -/
def allBelowEach (path : String) : List (String × FileTree) → List (String × Bool)
  | [] => []
  | (name, t) :: rest =>
    let here := Path.join path name
    (here, t.isDirectory) :: allBelow here t ++ allBelowEach path rest

end

end FileTree

/-- A tree of files with a working directory, given by the names that lead to it. -/
structure FileSystem where
  root : FileTree
  working : List String := []

namespace FileSystem

/-- Follows names from a place, which is given by its names, the innermost first. -/
def follow (fs : FileSystem) (place : List String) : List String → Option (List String)
  | [] => some place
  | s :: ss => do
    let here ← fs.root.find? place.reverse
    if here.isDirectory then
      match s with
      | "" | "." => fs.follow place ss
      | ".." => fs.follow place.tail ss
      | name =>
        let _ ← here.entry? name
        fs.follow (name :: place) ss
    else none

/-- What a path leads to. -/
def tree? (fs : FileSystem) (path : String) : Option FileTree := do
  let place ←
    match Path.segments path with
    | [""] => none
    | "" :: names => fs.follow [] names
    | names => fs.follow fs.working.reverse names
  fs.root.find? place.reverse

/-- Whether a path leads anywhere. -/
def holds (fs : FileSystem) (path : String) : Bool := (fs.tree? path).isSome

def isDirectory (fs : FileSystem) (path : String) : Bool := (fs.tree? path).any (·.isDirectory)

def isFile (fs : FileSystem) (path : String) : Bool := (fs.tree? path).any (!·.isDirectory)

/-- The bytes of the file at a path. -/
def bytes? (fs : FileSystem) (path : String) : Option ByteArray := do
  match ← fs.tree? path with
  | .file content => some content
  | .directory _ => none

/-- The text of the file at a path, if it is one. -/
def text? (fs : FileSystem) (path : String) : Option String :=
  (fs.bytes? path).bind String.fromUTF8?

end FileSystem

end FourGL
