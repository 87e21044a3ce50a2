/-!
# Defects of a grammar

What can be wrong with the declaration of a grammar. These are defects of the grammar, never of a
text that is parsed with it.
-/

namespace FourGL

/-- A defect in the declaration of a grammar. -/
inductive GrammarError where
  /-- A rule mentions a name that is neither a rule nor a class of tokens. -/
  | undefinedSymbol (rule name : String)
  /-- A rule is declared twice. -/
  | duplicateRule (name : String)
  /-- The grammar has no root rule. -/
  | missingRoot (grammar : String)
  /-- A rule cannot be reached from the root. -/
  | unreachable (rule : String)
  /-- A rule derives no finite text. -/
  | unproductive (rule : String)
  /-- One name stands for two kinds of symbol. -/
  | conflictingTerminal (name first second : String)
  /-- A keyword is not a single word. -/
  | invalidKeyword (text : String)
  /-- A symbol is not an operator. -/
  | unknownSymbol (text : String)
  /-- The parser tables have conflicts, and none are allowed. -/
  | conflicts (count : Nat) (first : String)
  /-- The grammar needs more entries than a table holds. -/
  | tooLarge (what : String) (limit : Nat)
  deriving DecidableEq, Repr

/-- The wording of a defect. -/
def GrammarError.message : GrammarError → String
  | .undefinedSymbol rule name => s!"rule `{rule}` references undefined symbol `{name}`"
  | .duplicateRule name => s!"rule `{name}` is declared more than once"
  | .missingRoot grammar => s!"grammar `{grammar}` has no root rule"
  | .unreachable rule => s!"rule `{rule}` is not reachable from the root"
  | .unproductive rule => s!"rule `{rule}` cannot derive any terminal string"
  | .conflictingTerminal name first second =>
    s!"`{name}` is declared both as {first} and as {second}"
  | .invalidKeyword text => s!"keyword `{text}` is not a single word"
  | .unknownSymbol text => s!"symbol `{text}` is not an operator the scanner recognizes"
  | .conflicts count first => s!"grammar has {count} parsing conflicts, first: {first}"
  | .tooLarge what limit => s!"grammar needs more than {limit} {what}"

/-- The largest index that fits the tables of terminals, nonterminals and node kinds, and the largest
position in a right-hand side. -/
def maxIndex : Nat := 65535

end FourGL
