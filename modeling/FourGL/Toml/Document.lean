import FourGL.Toml.Value

/-!
# TOML documents of sections

A document is a sequence of entries, some of which stand under the header of a section. What it
amounts to is a list of members: single values, and sections with entries of their own. A section is
made either by its header or by keys of two names, and once it has been made in one way it cannot be
made again in another. Deeper structure is not read.
-/

namespace FourGL.Toml

open Reader

/-! ## Lines -/

/-- What a line says. -/
inductive Statement where
  | header (name : String)
  | entry (key : List String) (value : Value)
  deriving Repr

/-- The statement at hand. -/
def statement : Reader Statement := do
  if ← accept "[" then
    blanks
    let n ← name
    blanks
    expect "]"
    return .header n
  else
    let (k, v) ← entry value
    return .entry k v

/-- Whether a statement starts here. -/
def startsStatement : List Char → Bool
  | [] => false
  | c :: _ => !(c == '#' || c == '\n' || c == '\r')

/-- A line; it says whether another follows. -/
def line : Reader (List Statement × Bool) := do
  blanks
  let found ← if startsStatement (← get) then List.singleton <$> statement else pure []
  blanks
  comment
  if ← atEnd then return (found, false)
  else
    match ← lineBreak? with
    | some _ => return (found, true)
    | none => failure

/-- The statements of a text. -/
def statements : Reader (List Statement) := do
  let _ ← accept "\ufeff"
  parts line

/-! ## Members -/

/-- How a section was made. -/
inductive Origin where
  | header
  | keys
  deriving DecidableEq, Repr

/-- A member of a document. -/
inductive Member where
  | value (v : Value)
  | section (origin : Origin) (entries : List (String × Value))
  deriving Repr

/-- The members of a document by name. -/
abbrev Members := List (String × Member)

namespace Members

/-- Adds a member under a name, which must be new. -/
def add (members : Members) (name : String) (m : Member) : Option Members :=
  if (members.lookup name).isSome then none else some (members ++ [(name, m)])

/-- Adds an entry to a section, in which its name must be new. -/
def addEntry (members : Members) (sectionName name : String) (v : Value) : Option Members :=
  match members.lookup sectionName with
  | some (.section origin entries) =>
    if (entries.lookup name).isSome then none
    else
      some (members.map fun (n, m) =>
        if n = sectionName then (n, .section origin (entries ++ [(name, v)])) else (n, m))
  | _ => none

/-- Adds an entry whose key names the section. -/
def addByKey (members : Members) (sectionName name : String) (v : Value) : Option Members :=
  match members.lookup sectionName with
  | none => members.add sectionName (.section .keys [(name, v)])
  | some (.section .keys _) => members.addEntry sectionName name v
  | some _ => none

/-- Adds what a statement says, under the header of `current` if there is one. -/
def apply (state : Members × Option String) : Statement → Option (Members × Option String)
  | .header name => (state.1.add name (.section .header [])).map (·, some name)
  | .entry key v =>
    match state.2, key with
    | none, [name] => (state.1.add name (.value v)).map (·, none)
    | none, [sectionName, name] => (state.1.addByKey sectionName name v).map (·, none)
    | some current, [name] => (state.1.addEntry current name v).map (·, some current)
    | _, _ => none

end Members

/-- The members of a document; none if it is not well formed or more deeply structured. -/
def members? (text : String) : Option Members := do
  let found ← whole? statements text.toList
  return (← found.foldlM Members.apply ([], none)).1

end FourGL.Toml
