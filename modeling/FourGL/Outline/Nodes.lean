import FourGL.Tree.Basic

/-!
# The parts of a program

A `NodeOf rule` is a node that is known to come from a rule. For the rules that declare names, the
parts of a node are read from fixed slots: an absent part leaves its slot empty, so the place of a
part never changes.

A part is only read where its slot holds a node of the right rule, so every reading of an arbitrary
tree is safe, and one that a parse did not build simply has fewer parts.
-/

namespace FourGL

/-! ## Nodes of a known rule -/

/-- A node of the given rule. -/
structure NodeOf (rule : String) where
  tree : Tree
  isNode : tree.isNode = true
  kind_eq : tree.kind = rule

namespace Tree

/-- The tree as a node of the given rule, if it is one. -/
def as? (rule : String) (t : Tree) : Option (NodeOf rule) :=
  if h : t.isNode = true ∧ t.kind = rule then some ⟨t, h.1, h.2⟩ else none

/-- The node of the given rule in a slot. -/
def partAt? (rule : String) (t : Tree) (i : Nat) : Option (NodeOf rule) :=
  (t.slot? i).bind (as? rule)

/-- The children of the node in a slot; none if there is no such node. -/
def childrenAt (t : Tree) (i : Nat) : List Tree := ((t.nodeAt? i).map children).getD []

/-- The token that a name consists of: the slot itself, or the word in it that is allowed as a name.
-/
def nameToken? : Tree → Option Nat
  | .token i => some i
  | t => if t.kind = "constantIdentifier" then t.tokenAt? 0 else none

end Tree

/-- A whole source file. -/
abbrev CompilationUnit := NodeOf "compilation_unit"

/-- A section of global variables, or the mention of a file that has one. -/
abbrev GlobalsSection := NodeOf "globalDeclaration"

/-- The block in which a program starts. -/
abbrev MainBlock := NodeOf "mainBlock"

/-- A function with its body. -/
abbrev FunctionDefinition := NodeOf "functionDefinition"

/-- A report with its sections. -/
abbrev ReportDefinition := NodeOf "reportDefinition"

/-- The parameters of a function or report. -/
abbrev ParameterList := NodeOf "parameterList"

/-- The variable definitions at the top of a block. -/
abbrev Definitions := NodeOf "typeDeclarations"

/-- One statement that defines variables. -/
abbrev DefineStatement := NodeOf "typeDeclaration"

/-- A conditional statement. -/
abbrev IfStatement := NodeOf "ifStatement"

/-! ## Variables -/

/-- The parameters, as tokens. -/
def ParameterList.parameters (l : ParameterList) : List Nat :=
  (l.tree.childrenAt 1).filterMap (·.token?)

/-- The variables that a statement defines, as tokens, without the members of records. -/
def DefineStatement.names (d : DefineStatement) : List Nat :=
  let declarations := (d.tree.childrenAt 1).filterMap (·.as? "variableDeclaration")
  declarations.flatMap fun n => (n.tree.childrenAt 0).filterMap (·.nameToken?)

/-- The statements that define variables. -/
def Definitions.statements (d : Definitions) : List DefineStatement :=
  d.tree.children.filterMap (·.as? "typeDeclaration")

/-- The variables that are defined, as tokens, without the members of records. -/
def Definitions.names (d : Definitions) : List Nat := d.statements.flatMap (·.names)

/-! ## Blocks -/

/-- The string that names the file with the variables. -/
def GlobalsSection.file? (g : GlobalsSection) : Option Nat := g.tree.tokenAt? 1

/-- The variables of the section itself. -/
def GlobalsSection.definitions? (g : GlobalsSection) : Option Definitions := g.tree.partAt? _ 1

/-- The variables of the main block. -/
def MainBlock.definitions? (b : MainBlock) : Option Definitions := b.tree.partAt? _ 1

/-- The statements of the main block. -/
def MainBlock.statements? (b : MainBlock) : Option Tree := b.tree.nodeAt? 2

/-- The name of a function, which may be a word of the language. -/
def FunctionDefinition.nameToken? (f : FunctionDefinition) : Option Nat :=
  (f.tree.slot? 1).bind (·.nameToken?)

/-- The parameters of a function. -/
def FunctionDefinition.parameters? (f : FunctionDefinition) : Option ParameterList :=
  f.tree.partAt? _ 2

/-- The local variables of a function. -/
def FunctionDefinition.definitions? (f : FunctionDefinition) : Option Definitions :=
  f.tree.partAt? _ 3

/-- The statements of a function. -/
def FunctionDefinition.body? (f : FunctionDefinition) : Option Tree := f.tree.nodeAt? 4

/-- The name of a report. -/
def ReportDefinition.nameToken? (r : ReportDefinition) : Option Nat := r.tree.tokenAt? 1

/-- The parameters of a report. -/
def ReportDefinition.parameters? (r : ReportDefinition) : Option ParameterList := r.tree.partAt? _ 2

/-- The local variables of a report. -/
def ReportDefinition.definitions? (r : ReportDefinition) : Option Definitions := r.tree.partAt? _ 3

/-! ## Source files -/

/-- The global variables. -/
def CompilationUnit.globals? (u : CompilationUnit) : Option GlobalsSection := u.tree.partAt? _ 2

/-- The variables of the module. -/
def CompilationUnit.definitions? (u : CompilationUnit) : Option Definitions := u.tree.partAt? _ 4

/-- The main block. -/
def CompilationUnit.main? (u : CompilationUnit) : Option MainBlock := u.tree.partAt? _ 5

/-- The functions, in order. -/
def CompilationUnit.functions (u : CompilationUnit) : List FunctionDefinition :=
  (u.tree.childrenAt 6).filterMap (·.as? "functionDefinition")

/-- The reports, in order. -/
def CompilationUnit.reports (u : CompilationUnit) : List ReportDefinition :=
  (u.tree.childrenAt 6).filterMap (·.as? "reportDefinition")

/-! ## Conditional statements -/

/-- The condition. -/
def IfStatement.condition? (s : IfStatement) : Option Tree := s.tree.nodeAt? 1

/-- The statements for when the condition holds. -/
def IfStatement.thenBlock? (s : IfStatement) : Option Tree := s.tree.nodeAt? 3

/-- The part for when the condition does not hold. -/
def IfStatement.elseClause? (s : IfStatement) : Option Tree := s.tree.nodeAt? 4

end FourGL
