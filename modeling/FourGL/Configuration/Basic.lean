import FourGL.Files.Path
import FourGL.Parse.Input
import FourGL.Text.Case
import FourGL.Toml.Document

/-!
# Configuration

A configuration sets the limits of parses and tells which files are sources. It is written in TOML,
in the sections `parser` and `files`. What a text does not set has its usual value; a text with an
unknown or ill-typed setting is no configuration.

A section may also be an array of all its values, in the order of its keys.
-/

namespace FourGL

/-- The limits of parses, and which files are sources. -/
structure Configuration where
  limits : Limits := {}
  /-- Extensions of source files. Points in front do not count, nor does ASCII case. -/
  extensions : List String := ["4gl"]
  deriving DecidableEq, Repr, Inhabited

namespace Configuration

/-! ## Settings -/

/-- The values of the given keys among entries, which must have no other keys and each only once. -/
def keyed (keys : List String) (entries : List (String × Toml.Value)) :
    Option (List (Option Toml.Value)) :=
  let names := entries.map (·.1)
  if names.all keys.contains ∧ names.Nodup then some (keys.map (List.lookup · entries)) else none

/-- The values of a section in the order of its keys. -/
def valuesOf (keys : List String) : Toml.Member → Option (List (Option Toml.Value))
  | .section _ entries => keyed keys entries
  | .value (.table entries) => do
    let named ← entries.mapM fun (key, v) =>
      match key with
      | [name] => some (name, v)
      | _ => none
    keyed keys named
  | .value (.array items) =>
    if keys.length ≤ items.length then some ((items.take keys.length).map some) else none
  | .value _ => none

/-- The numbers up to which limits are accepted are those of 64 bits. -/
def maxNumber : Nat := 1 <<< 64 - 1

/-- The number that a value is. -/
def number? : Toml.Value → Option Nat
  | .integer n => if 0 ≤ n ∧ n ≤ maxNumber then some n.toNat else none
  | _ => none

/-- The texts that a value lists. -/
def texts? : Toml.Value → Option (List String)
  | .array items => items.mapM fun
    | .text s => some s
    | _ => none
  | _ => none

/-- What a value is read as, or else what applies without one. -/
def orElse {α : Type} (read : Toml.Value → Option α) (usual : α) : Option Toml.Value → Option α
  | some v => read v
  | none => some usual

/-- The limits that a section sets. A recovery leads past one token at least. -/
def limitsOf? (m : Toml.Member) : Option Limits := do
  let usual : Limits := {}
  match ← valuesOf ["max_recovery_attempts", "max_diagnostics", "recovery_lookahead"] m with
  | [recoveries, diagnostics, lookahead] =>
    return {
      recoveries := ← orElse number? usual.recoveries recoveries
      diagnostics := ← orElse number? usual.diagnostics diagnostics
      lookahead := max 1 (← orElse number? usual.lookahead lookahead) }
  | _ => none

/-- The extensions that a section sets. -/
def extensionsOf? (m : Toml.Member) : Option (List String) := do
  let usual : Configuration := {}
  match ← valuesOf ["extensions"] m with
  | [extensions] => orElse texts? usual.extensions extensions
  | _ => none

/-! ## Reading -/

/-- The configuration with a section added. -/
def addSection (c : Configuration) : String × Toml.Member → Option Configuration
  | ("parser", m) => do return { c with limits := ← limitsOf? m }
  | ("files", m) => do return { c with extensions := ← extensionsOf? m }
  | _ => none

/-- The configuration that a text is. -/
def ofText? (text : String) : Option Configuration := do
  (← Toml.members? text).foldlM addSection {}

/-! ## Source files -/

/-- Whether a path is that of a source file, by its extension. -/
def isSource (c : Configuration) (path : String) : Bool :=
  match Path.extension? path with
  | none => false
  | some extension =>
    c.extensions.any fun e =>
      Text.equalIgnoringAsciiCase (String.ofList (e.toList.dropWhile (· == '.'))) extension

end Configuration

end FourGL
