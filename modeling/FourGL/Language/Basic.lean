import FourGL.Automaton.Basic
import FourGL.Grammar.Declarations
import FourGL.Language.DataTypes
import FourGL.Language.Expressions
import FourGL.Language.Program
import FourGL.Language.Reports
import FourGL.Language.Screen
import FourGL.Language.Sql
import FourGL.Language.Statements

/-!
# The Informix 4GL language

The grammar of the language, in which case does not matter, and the automaton that parses it.
-/

namespace FourGL.Language

/-! ## Names that readers of trees rely on -/

def identifierName : String := "Identifier"

def numberName : String := "Number"

def stringName : String := "StringLiteral"

def commentName : String := "Comment"

/-! ## The grammar -/

/-- All rules of the language. -/
def rules : List RuleDeclaration :=
  programRules ++ declarationRules ++ qualifierRules ++ simpleStatementRules
  ++ structuredStatementRules ++ operatorRules ++ operandRules ++ sqlRules ++ screenRules
  ++ reportRules

/-- Token classes, braces and punctuation. -/
def lexicalDeclarations : Declarations :=
  ((Declarations.empty "informix-4gl").caseSensitive false
    |>.tokenClass .identifier identifierName
    |>.tokenClass .number numberName
    |>.tokenClass .string stringName
    |>.tokenClass .comment commentName
    |>.bracePair "(" ")"
    |>.bracePair "\x7b" "\x7d"
    |>.bracePair "[" "]"
    |>.punctuation ","
    |>.punctuation ";"
    |>.punctuation ".")

/-- The declarations of the language. -/
def declarations : Declarations :=
  (rules.foldl Declarations.declare lexicalDeclarations).rooted "compilation_unit"

end FourGL.Language

namespace FourGL

/-- A grammar with the automaton that parses it. -/
structure Language where
  grammar : Grammar
  automaton : Automaton

namespace Language

/-- The language of a grammar. -/
def ofGrammar (g : Grammar) : Language := ⟨g, Automaton.ofGrammar g⟩

/-- The Informix 4GL language. -/
def informix : Except GrammarError Language := ofGrammar <$> declarations.build

end Language

end FourGL
