import FourGL.Grammar.Basic

/-!
# Writing rules down

Short forms for declaring rules: `rule` for one that always makes a node, `transient` for one that
passes a single tree through.
-/

namespace FourGL.Language

/-- A rule that always makes a node of its own. -/
def rule (name : String) (rule : Rule) : RuleDeclaration := ⟨name, rule, false⟩

/-- A rule that passes a single tree through. -/
def transient (name : String) (rule : Rule) : RuleDeclaration := ⟨name, rule, true⟩

end FourGL.Language
