import FourGL.Lexeme.Split
import FourGL.Token.Basic

/-!
# Reading a text as tokens

The lexemes of a text are read as tokens of a grammar: words as keywords where they are, quotations
and numbers with their values. Blanks are left out, and characters that begin no lexeme are joined
to one token as long as nothing stands between them.

The same reading serves whole texts and single lines. They differ in one point: a quotation that may
span lines can stay open at the end of a line, and the next line then resumes in the `LineState`
left behind.
-/

namespace FourGL

/-! ## Line states -/

/-- What a line starts inside of. -/
inductive LineState where
  | neutral
  | inVerbatim
  | inSingle
  deriving DecidableEq, Repr, Inhabited

namespace LineState

/-- The number by which a state is known outside. -/
def code : LineState → Nat
  | .neutral => 0
  | .inVerbatim => 1
  | .inSingle => 2

/-- The state with the given number; every other number is read as neutral. -/
def ofCode : Nat → LineState
  | 1 => .inVerbatim
  | 2 => .inSingle
  | _ => .neutral

theorem ofCode_code (s : LineState) : ofCode s.code = s := by cases s <;> rfl

/-- The quotation that the state is inside of. -/
def quoting? : LineState → Option Quoting
  | .neutral => none
  | .inVerbatim => some .verbatim
  | .inSingle => some .single

/-- The state inside an open quotation; one that cannot span lines ends with its line. -/
def inside : Quoting → LineState
  | .escaped => .neutral
  | .verbatim => .inVerbatim
  | .single => .inSingle

end LineState

/-- How far the text at hand is known to go. -/
inductive Extent where
  /-- It is the whole text. -/
  | whole
  /-- It is a line, and more may follow. -/
  | line
  deriving DecidableEq, Repr

/-! ## Single lexemes -/

namespace Vocabulary

/-- A token of a class that the grammar may lack, with the value of its literal. -/
def literalToken (v : Vocabulary) (kind : TerminalKind) (missing : LexicalFault)
    (value : Except LiteralError Value) (place : Place) (cs : List Char) : Token :=
  match v.ofKind? kind with
  | none => .faulty v missing place cs
  | some t =>
    match value with
    | .ok value => { Token.plain v t place cs with value := some value }
    | .error e => .faulty v (.badLiteral e) place cs

/-- A word: a keyword if it is one, or else an identifier. -/
def wordToken (v : Vocabulary) (place : Place) (cs : List Char) : Token :=
  match v.keyword? (String.ofList cs) with
  | some t => .plain v t place cs
  | none => v.literalToken .identifier .noIdentifiers (.text <$> wordValue cs) place cs

/-- Whether an open quotation is well formed as far as it goes. -/
def mayStayOpen (extent : Extent) (q : Quoting) : Bool := extent == .line && q.spansLines

/-- A quotation. -/
def quotedToken (v : Vocabulary) (extent : Extent) (q : Quoting) (closed : Bool) (place : Place)
    (cs : List Char) : Token :=
  if closed || mayStayOpen extent q then
    let token := v.literalToken .string .noStrings (.text <$> quotedValue cs) place cs
    { token with incomplete := !closed && token.fault.isNone }
  else { Token.faulty v .unterminatedString place cs with incomplete := true }

/-- A comment. -/
def commentToken (v : Vocabulary) (place : Place) (cs : List Char) : Token :=
  match v.ofKind? .comment with
  | some t => .plain v t place cs
  | none => .faulty v .noComments place cs

/-- An operator or punctuation mark. -/
def operatorToken (v : Vocabulary) (place : Place) (cs : List Char) : Token :=
  match v.symbol? (String.ofList cs) with
  | some t => .plain v t place cs
  | none => .faulty v .unknownOperator place cs

/-- The token of a lexeme, none for blanks. -/
def tokenOf (v : Vocabulary) (extent : Extent) (place : Place) (l : Lexeme) : Option Token :=
  match l.kind with
  | some .blank => none
  | some .comment => some (v.commentToken place l.text)
  | some .word => some (v.wordToken place l.text)
  | some .number =>
    some (v.literalToken .number .noNumbers (numberValue l.text) place l.text)
  | some (.quoted q closed) => some (v.quotedToken extent q closed place l.text)
  | some (.operator _) => some (v.operatorToken place l.text)
  | none => some (.faulty v .unexpectedCharacter place l.text)

/-! ## Sequences of lexemes -/

/-- The tokens of lexemes from a place on. -/
def tokensFrom (v : Vocabulary) (extent : Extent) (place : Place) : List Lexeme → List Token
  | [] => []
  | l :: ls =>
    (v.tokenOf extent place l).toList ++ v.tokensFrom extent (place.advance l.text) ls

/-- The state in which lexemes leave a line. -/
def stateAfter (v : Vocabulary) (ls : List Lexeme) : LineState :=
  match ls.getLast?.bind (·.kind), v.ofKind? .string with
  | some (.quoted q false), some _ => .inside q
  | _, _ => .neutral

end Vocabulary

namespace Token

/-- Whether the token is an unexpected character. -/
def isUnexpected (t : Token) : Bool := t.fault == some .unexpectedCharacter

/-- Whether both tokens are unexpected characters with nothing between them. -/
def joins (t u : Token) : Bool := t.isUnexpected && u.isUnexpected && t.span.stop == u.span.start

/-- One token for two adjacent ones. -/
def join (t u : Token) : Token :=
  { t with span := t.span.cover u.span, text := t.text ++ u.text }

/-- Joins adjacent unexpected characters. -/
def joinUnexpected : List Token → List Token
  | [] => []
  | t :: ts =>
    match joinUnexpected ts with
    | u :: us => if t.joins u then t.join u :: us else t :: u :: us
    | [] => [t]

end Token

/-! ## Whole texts and lines -/

namespace Vocabulary

/-- The tokens of a text from a place on. -/
def scanFrom (v : Vocabulary) (extent : Extent) (place : Place) (cs : List Char) : List Token :=
  Token.joinUnexpected (v.tokensFrom extent place (Lexeme.split cs))

/-- The tokens of a whole text. -/
def scan (v : Vocabulary) (source : String) : List Token := v.scanFrom .whole {} source.toList

end Vocabulary

/-- The tokens of a line, and the state in which it leaves the next one. -/
structure ScannedLine where
  tokens : List Token
  state : LineState
  deriving DecidableEq, Repr

namespace Vocabulary

/-- The token of the rest of a quotation that an earlier line opened. -/
def continuationToken (v : Vocabulary) (q : Quoting) (closed : Bool) (cs : List Char) : Token :=
  { Token.plain v ((v.ofKind? .string).getD errorToken) {} cs with
    value := some (.text (doubledValue q.closer cs))
    incomplete := !closed }

/-- The tokens of a line without its line break, resumed in the given state. -/
def scanLine (v : Vocabulary) (line : List Char) (state : LineState) : ScannedLine :=
  match state.quoting? with
  | none =>
    let lexemes := Lexeme.split line
    ⟨Token.joinUnexpected (v.tokensFrom .line {} lexemes), v.stateAfter lexemes⟩
  | some q =>
    let body := doubledBody q.closer line
    let head := line.take body.length
    let resumed := if head = [] then [] else [v.continuationToken q body.closed head]
    if body.closed then
      let lexemes := Lexeme.split (line.drop body.length)
      ⟨resumed ++ Token.joinUnexpected (v.tokensFrom .line (Place.advance {} head) lexemes),
        v.stateAfter lexemes⟩
    else ⟨resumed, state⟩

end Vocabulary

end FourGL
