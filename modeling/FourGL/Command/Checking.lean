import FourGL.Configuration.Loading
import FourGL.Files.Expansion
import FourGL.Parse.Basic

/-!
# Checking source files

An operand is the path of a file, which is checked whatever its extension, the path of a directory,
or a pattern; the last two stand for the source files below or covered. Each file is checked once,
in the order of paths. An operand that is no pattern and a file that is no text are reported like
errors in a file.
-/

namespace FourGL

/-- Something that a check reports. -/
inductive Finding where
  | badPattern (operand : String) (e : PatternError)
  | unreadable (path : String)
  | diagnostic (path : String) (d : Diagnostic)
  deriving DecidableEq, Repr

namespace Finding

/-- A finding as a line of text. -/
def render : Finding → String
  | .badPattern operand e => s!"{operand}: error: invalid pattern: {e.message}"
  | .unreadable path => s!"{path}: error: failed to read: stream did not contain valid UTF-8"
  | .diagnostic path d => s!"{path}:{d.line}:{d.column}: {d.severity.name}: {d.message}"

/-- How grave a finding is. -/
def severity : Finding → Severity
  | .diagnostic _ d => d.severity
  | _ => .error

end Finding

/-- What a check finds in how many files. -/
structure CheckReport where
  findings : List Finding
  files : Nat
  deriving DecidableEq, Repr

namespace CheckReport

/-- The number of findings of a severity. -/
def count (r : CheckReport) (s : Severity) : Nat := r.findings.countP (·.severity == s)

def errors (r : CheckReport) : Nat := r.count .error

def warnings (r : CheckReport) : Nat := r.count .warning

/-- The last line of a report. -/
def summary (r : CheckReport) : String :=
  s!"{r.files} file(s) checked, {r.errors} error(s), {r.warnings} warning(s)"

/-- The report as text. -/
def render (r : CheckReport) : String :=
  String.join ((r.findings.map (·.render) ++ [r.summary]).map (· ++ "\n"))

end CheckReport

namespace Check

/-- The files for which an operand stands. -/
def filesOf (fs : FileSystem) (c : Configuration) (operand : String) :
    Except PatternError (List String) :=
  if fs.isFile operand then .ok [operand]
  else do
    let text := if fs.isDirectory operand then Pattern.escape operand ++ "/**/*" else operand
    return (fs.expand (← Pattern.routeOf text)).filter fun path => fs.isFile path && c.isSource path

/-- Paths in order. Of those that are the same path the first one is kept. -/
def inOrder (paths : List String) : List String :=
  (paths.mergeSort fun a b => (Path.compare a b).isLE).foldl
    (fun kept path =>
      if kept.head?.any fun last => (Path.compare last path).isEq then kept else path :: kept) []
    |>.reverse

/-- The files for which operands stand, each once and in order. -/
def allFiles (fs : FileSystem) (c : Configuration) (operands : List String) : List String :=
  inOrder (operands.flatMap fun operand => ((filesOf fs c operand).toOption).getD [])

/-- The operands that are no patterns. -/
def badPatterns (fs : FileSystem) (c : Configuration) (operands : List String) : List Finding :=
  operands.filterMap fun operand =>
    match filesOf fs c operand with
    | .ok _ => none
    | .error e => some (.badPattern operand e)

/-- What there is to report about a file. -/
def findingsIn (l : Language) (c : Configuration) (fs : FileSystem) (path : String) :
    List Finding :=
  match fs.text? path with
  | none => [.unreadable path]
  | some text => (l.parse c.limits text).diagnostics.map (.diagnostic path)

/-- Checks the files for which operands stand. -/
def run (l : Language) (c : Configuration) (fs : FileSystem) (operands : List String) :
    CheckReport where
  findings :=
    badPatterns fs c operands ++ (allFiles fs c operands).flatMap (findingsIn l c fs)
  files := (allFiles fs c operands).countP fun path => (fs.text? path).isSome

end Check

end FourGL
