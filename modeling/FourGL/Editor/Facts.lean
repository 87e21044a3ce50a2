import Std.Data.TreeMap
import FourGL.Outline.Declarations
import FourGL.Text.Case

/-!
# Facts about a program

The facts are the names that a program declares: its global variables and, scope by scope, the
parameters and variables of the main block, the functions and the reports. They are flat lists:
members of records and types are left out, and blocks within a scope open no scopes of their own.

Scopes are found without regard to case, and scopes of one name are one scope. In no list do two
names differ in ASCII case alone.
-/

namespace FourGL

/-! ## Lists of names -/

namespace NameList

/-- Whether a name is in the list, apart from ASCII case. -/
def holds (names : List String) (name : String) : Bool :=
  names.any fun known => Text.equalIgnoringAsciiCase known name

/-- Adds a name unless the list holds it. -/
def insert (names : List String) (name : String) : List String :=
  if holds names name then names else names ++ [name]

/-- Adds names, one after the other. -/
def insertAll (names more : List String) : List String := more.foldl insert names

end NameList

/-! ## Facts -/

/-- The parameters and variables of a scope. -/
structure Scope where
  /-- The name under which the scope was first declared. -/
  name : String
  locals : List String := []
  deriving DecidableEq, Repr, Inhabited

/-- The names that a program declares. -/
structure Facts where
  globals : List String := []
  /-- The scopes, by their names in small letters. -/
  scopes : Std.TreeMap String Scope := ∅

namespace Facts

/-- The key of a scope. -/
def scopeKey (name : String) : String := Text.lowercase name

/-- Adds names to a scope, which is opened if it is new. -/
def extendScope (facts : Facts) (name : String) (names : List String) : Facts :=
  let scope := facts.scopes.getD (scopeKey name) { name }
  let scope := { scope with locals := NameList.insertAll scope.locals names }
  { facts with scopes := facts.scopes.insert (scopeKey name) scope }

/-- Adds what a declaration brings. A scope without a name brings nothing. -/
def declare (p : Parse) (facts : Facts) (d : Declaration) : Facts :=
  match d with
  | .globals _ => { facts with globals := NameList.insertAll facts.globals (d.names p) }
  | d =>
    match d.scopeName? p with
    | some name => facts.extendScope name (d.names p)
    | none => facts

/-- The facts of a parse; there are none without a tree. -/
def ofParse (p : Parse) : Facts :=
  match p.root with
  | some root => (Declaration.ofRoot root).foldl (declare p) {}
  | none => {}

/-- The names of a scope. -/
def locals (facts : Facts) (name : String) : List String :=
  match facts.scopes[scopeKey name]? with
  | some scope => scope.locals
  | none => []

/-- The scopes by name, apart from case. -/
def scopeNames (facts : Facts) : List String := facts.scopes.values.map (·.name)

/-- Whether nothing is declared. -/
def isEmpty (facts : Facts) : Bool := facts.globals.isEmpty && facts.scopes.isEmpty

end Facts

end FourGL
