import FourGL.Command.Checking
import FourGL.Command.Help
import FourGL.Command.Listing

/-!
# The command

What the command writes and the code with which it ends: zero when all is well, one when a check
found an error, and two when it could not do what it was asked to.
-/

namespace FourGL

/-- Why a command cannot be carried out. -/
inductive CommandError where
  | misuse (m : Misuse)
  | configuration (e : ConfigurationError)
  | unreadable (path : String)
  deriving DecidableEq, Repr

def CommandError.message : CommandError → String
  | .misuse m => m.message
  | .configuration e => e.message
  | .unreadable path => s!"failed to read {path}"

/-- What a command writes, and whether it found an error. -/
structure Answer where
  output : String
  foundErrors : Bool := false
  deriving DecidableEq, Repr

namespace Command

/-- The configuration for a check: that of the named file, or else of the working directory. -/
def configuration (fs : FileSystem) : Option String → Except CommandError Configuration
  | some path =>
    match Configuration.ofFile fs path with
    | .ok c => .ok c
    | .error e => .error (.configuration e)
  | none => .ok (Configuration.find fs).1

/-- Carries out a command. -/
def run (l : Language) (fs : FileSystem) : Command → Except CommandError Answer
  | .check path operands => do
    let report := Check.run l (← configuration fs path) fs operands
    return ⟨report.render, report.errors != 0⟩
  | .tokens file byLine =>
    match fs.text? file with
    | none => .error (.unreadable file)
    | some text =>
      let v := l.grammar.vocabulary
      .ok { output := if byLine then v.listingByLine text else v.listing text }
  | .grammar conflicts => .ok { output := l.statistics conflicts }

/-- Carries out what arguments ask for. -/
def respond (l : Language) (fs : FileSystem) (arguments : List String) :
    Except CommandError Answer :=
  match Request.ofArguments arguments with
  | .error m => .error (.misuse m)
  | .ok (.run c) => c.run l fs
  | .ok (.help t) => .ok { output := t.page.render }
  | .ok .version => .ok { output := versionText }

/-- The code with which the command ends. -/
def exitCode : Except CommandError Answer → Nat
  | .error _ => 2
  | .ok answer => if answer.foundErrors then 1 else 0

end Command

end FourGL
