import FourGL.Command.Basic

/-!
# The program

The program takes the files of its working directory, and those that its arguments name, as they are
when it starts, carries out the command, and writes what the command answers.
-/

namespace FourGL

/-- How deep directories are read. -/
def maxDirectoryDepth : Nat := 64

/-- The files below a directory, down to a depth. What cannot be read is left out. -/
def readDirectory (directory : String) : Nat → IO FileTree
  | 0 => return .directory []
  | depth + 1 => do
    let here ← IO.FS.realPath directory
    let entries ← (← here.readDir).toList.filterMapM fun entry => do
      let read := do
        if ← entry.path.isDir then readDirectory entry.path.toString depth
        else return FileTree.file (← IO.FS.readBinFile entry.path)
      try return some (entry.fileName, ← read)
      catch _ => return none
    return .directory entries

/-- The paths that an argument may name: itself, and what follows an equals sign in it. -/
def pathsIn (argument : String) : List String :=
  [argument, String.ofList ((argument.toList.dropWhile (· != '=')).drop 1)]

/-- A tree of files with what is at a path added to it, unless it is there already or cannot be
read. -/
def addPath (root : FileTree) (path : String) : IO FileTree := do
  let read := do
    let place ← IO.FS.realPath path
    let names := (Path.steps place.toString).filterMap (·.name?)
    if (root.find? names).isSome then return root
    else if ← place.isDir then
      return root.place (← readDirectory place.toString maxDirectoryDepth) names
    else return root.place (.file (← IO.FS.readBinFile place)) names
  try read catch _ => return root

/-- The files of the working directory, and those that arguments name. -/
def readFiles (arguments : List String) : IO FileSystem := do
  let here ← IO.FS.realPath "."
  let working := (Path.steps here.toString).filterMap (·.name?)
  let own ← readDirectory here.toString maxDirectoryDepth
  let root := FileTree.place default own working
  return { root := ← (arguments.flatMap pathsIn).foldlM addPath root, working }

end FourGL

def main (arguments : List String) : IO UInt32 := do
  match FourGL.Language.informix with
  | .error e =>
    IO.eprintln e.message
    return 2
  | .ok l =>
    let answer := FourGL.Command.respond l (← FourGL.readFiles arguments) arguments
    match answer with
    | .ok a => IO.print a.output
    | .error e => IO.eprintln ("Error: " ++ e.message)
    return (FourGL.Command.exitCode answer).toUInt32
