import FourGL.Editor.Document
import FourGL.Editor.LineStates
import FourGL.Main
import FourGL.Proofs.Parse.Discipline
import FourGL.Proofs.Editor.LineStates
import FourGL.Proofs.Automaton.Canonical
import FourGL.Proofs.Parse.Completeness
import FourGL.Proofs.Parse.Halting
import FourGL.Proofs.Parse.Exactness
import FourGL.Proofs.Grammar.Cycles
import FourGL.Proofs.Parse.Totality
import FourGL.Proofs.Automaton.Policy
import FourGL.Proofs.Parse.Endless
import FourGL.Proofs.Automaton.Audit
import FourGL.Proofs.Automaton.Records
import FourGL.Proofs.Grammar.Validation
import FourGL.Proofs.Lexeme.Heads
import FourGL.Proofs.Token.Offsets
import FourGL.Proofs.Token.Reading
import FourGL.Proofs.Parse.Verdict
import FourGL.Proofs.Parse.ViablePrefix
import FourGL.Proofs.Token.LineByLine
import FourGL.Parse.Numbering
import FourGL.Proofs.Tree.Arena
import FourGL.Proofs.Grammar.TreeActions
import FourGL.Proofs.Parse.Numbering
import FourGL.Proofs.Parse.SourceOrder
import FourGL.Proofs.Text.Bytes
import FourGL.Proofs.Grammar.Entering
import FourGL.Proofs.Grammar.Evaluation
import FourGL.Proofs.Language.Informix
import FourGL.Proofs.Grammar.Looks
import FourGL.Proofs.Parse.Shape
import FourGL.Proofs.Parse.Nodes
import FourGL.Proofs.Outline.Accessors
import FourGL.Proofs.Editor.Documents
import FourGL.Proofs.Parse.Kinds
import FourGL.Proofs.Parse.Repairing
import FourGL.Proofs.Parse.Advance
import FourGL.Proofs.Lexeme.LongestMatch
import FourGL.Proofs.Token.Tiling
import FourGL.Proofs.Parse.Hulls
import FourGL.Proofs.Tree.Enclosing
import FourGL.Proofs.Literal.Quoting
import FourGL.Proofs.Literal.Words
import FourGL.Proofs.Token.Keywords
import FourGL.Proofs.Editor.Facts
import FourGL.Proofs.Parse.Braces
import FourGL.Proofs.Editor.Completion
import FourGL.Proofs.Editor.Context
import FourGL.Proofs.Tree.Walks
import FourGL.Proofs.Automaton.FirstLoop
import FourGL.Proofs.Grammar.Interning
import FourGL.Proofs.Grammar.Clashes
import FourGL.Proofs.Parse.Reports
import FourGL.Proofs.Automaton.Exploration
import FourGL.Proofs.Literal.Numbers
import FourGL.Proofs.Automaton.Positions
import FourGL.Proofs.Automaton.ClosureLoop
import FourGL.Proofs.Automaton.Propagation
import FourGL.Proofs.Parse.Overlong
import FourGL.Proofs.Parse.Omission
