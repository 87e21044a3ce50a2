import FourGL.Outline.Nodes
import FourGL.Parse.Basic

/-!
# What a program declares

The declarations of a program are its section of global variables, its main block, its functions and
its reports. All but the first are scopes: they have a name and variables of their own.

Names are read from tokens. An identifier gives its value, in which escapes are decoded; a word of
the language that serves as a name gives its text.
-/

namespace FourGL

/-! ## Names -/

/-- The name of the main block as a scope. -/
def mainScope : String := "main"

namespace Parse

/-- The name that a token gives. -/
def nameText (p : Parse) (i : Nat) : String :=
  match (p.token i).value with
  | some (.text s) => s
  | _ => (p.token i).text

/-- The names that tokens give. -/
def nameTexts (p : Parse) (tokens : List Nat) : List String := tokens.map p.nameText

end Parse

/-! ## Declarations -/

/-- A declaration of a program. -/
inductive Declaration where
  | globals (node : GlobalsSection)
  | main (node : MainBlock)
  | function (node : FunctionDefinition)
  | report (node : ReportDefinition)

namespace Declaration

/-- The declaration that a node is. -/
def ofTree? (t : Tree) : Option Declaration :=
  ((t.as? _).map globals).or <| ((t.as? _).map main).or <| ((t.as? _).map function).or <|
    (t.as? _).map report

/-- The rules of scopes. -/
def scopeRules : List String := ["mainBlock", "functionDefinition", "reportDefinition"]

/-- The rules of declarations. -/
def rules : List String := "globalDeclaration" :: scopeRules

/-- The declarations of a tree, in order; none lies in another. -/
def ofRoot (root : Tree) : List Declaration :=
  (root.topmost fun rule => rules.contains rule).filterMap ofTree?

/-- The name of a scope. -/
def scopeName? (p : Parse) : Declaration → Option String
  | globals _ => none
  | main _ => some mainScope
  | function f => f.nameToken?.map p.nameText
  | report r => r.nameToken?.map p.nameText

/-- The parameters, as tokens. -/
def parameters : Declaration → List Nat
  | globals _ | main _ => []
  | function f => (f.parameters?.map (·.parameters)).getD []
  | report r => (r.parameters?.map (·.parameters)).getD []

/-- The defined variables, as tokens. -/
def defined : Declaration → List Nat
  | globals g => (g.definitions?.map (·.names)).getD []
  | main b => (b.definitions?.map (·.names)).getD []
  | function f => (f.definitions?.map (·.names)).getD []
  | report r => (r.definitions?.map (·.names)).getD []

/-- The names that a declaration brings: its parameters, and then its variables. -/
def names (p : Parse) (d : Declaration) : List String := p.nameTexts (d.parameters ++ d.defined)

end Declaration

namespace Parse

/-- The name of the innermost scope around an offset. -/
def scopeNameAt? (p : Parse) (offset : Nat) : Option String := do
  let node ← (← p.root).enclosing? (fun rule => Declaration.scopeRules.contains rule) offset
  (← Declaration.ofTree? node).scopeName? p

end Parse

end FourGL
