import FourGL.Configuration.Basic
import FourGL.Files.Tree

/-!
# Loading a configuration

A configuration is read from a file that is named, or looked for under its usual names in the
working directory. In the first case it must be there and well formed; in the second, what cannot be
read counts as the usual configuration.
-/

namespace FourGL

/-- Why a file gives no configuration. -/
inductive ConfigurationError where
  | unreadable (path : String)
  | malformed (path : String)
  deriving DecidableEq, Repr

def ConfigurationError.message : ConfigurationError → String
  | .unreadable path => s!"failed to read {path}"
  | .malformed path => s!"failed to parse {path}"

namespace Configuration

/-- The names of configuration files, in the order in which they are looked for. -/
def fileNames : List String := ["fgl.toml", ".fgl.toml"]

/-- The configuration in the file at a path. -/
def ofFile (fs : FileSystem) (path : String) : Except ConfigurationError Configuration :=
  match fs.text? path with
  | none => .error (.unreadable path)
  | some text =>
    match ofText? text with
    | none => .error (.malformed path)
    | some c => .ok c

/-- The first configuration file in the working directory. -/
def file? (fs : FileSystem) : Option String := fileNames.find? fs.isFile

/-- The configuration of the working directory, and the file that stands for it. -/
def find (fs : FileSystem) : Configuration × Option String :=
  match file? fs with
  | none => ({}, none)
  | some path => (((ofFile fs path).toOption).getD {}, some path)

end Configuration

end FourGL
