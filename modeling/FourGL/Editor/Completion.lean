import FourGL.Editor.Facts

/-!
# Completion

The names that an editor offers at an offset: those of the scope around it, and then the global
variables. The token before the word at the offset decides. Right after the word that begins a
function a new name is due, and no global variables are offered; at the start of a text nothing is.
-/

namespace FourGL

namespace Parse

/-- The last token up to an index that the parser reads. -/
def lastGrammatical? (p : Parse) (index : Nat) : Option Nat :=
  (List.range (index + 1)).reverse.find? fun i => (p.token i).isGrammatical

/-- The token before the word at an offset. A token that reaches the offset is that word. -/
def contextToken? (p : Parse) (offset : Nat) : Option Nat := do
  let i ← p.tokenAt? offset
  if offset ≤ (p.token i).span.stop then
    match i with
    | 0 => none
    | i + 1 => p.lastGrammatical? i
  else p.lastGrammatical? i

/-- Whether a token is the word that begins a function. -/
def beginsFunction (p : Parse) (i : Nat) : Bool :=
  p.vocabulary.keyword? "function" == some (p.token i).terminal

/-- The parse in which scopes are looked up: this one, or the last good one if this has no tree. -/
def scopeSource? (p : Parse) (lastGood : Option Parse) : Option Parse :=
  if p.root.isSome then some p else lastGood.filter (·.root.isSome)

end Parse

namespace Facts

/-- The names of a scope, if there is one, and then the global variables unless left out. -/
def visible (facts : Facts) (scope : Option String) (withGlobals : Bool) : List String :=
  let locals := (scope.map facts.locals).getD []
  if withGlobals then NameList.insertAll locals facts.globals else locals

/-- The names to offer at an offset. -/
def completions (facts : Facts) (p : Parse) (lastGood : Option Parse) (offset : Nat) :
    List String :=
  match p.contextToken? offset with
  | none => []
  | some i =>
    let scope := (p.scopeSource? lastGood).bind (·.scopeNameAt? (p.token i).span.start)
    facts.visible scope (!p.beginsFunction i)

end Facts

end FourGL
