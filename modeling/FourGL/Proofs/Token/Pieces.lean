import FourGL.Proofs.Token.Lines
import FourGL.Proofs.Token.Reading
import FourGL.Text.Lines

/-!
# Strings in pieces

Line by line, a string that goes on over several lines is read in pieces, one for each line. Each piece is
decoded by itself, and one without a character gives no token.

**Theorem (`exists_continuation`).** In the state inside a quotation, lines give the pieces of the
quotation up to its closing quote, and from there on what they give in the neutral state. If there is no
closing quote, they give pieces up to the end.
-/

namespace FourGL

/-! ## Lines of a text -/

/-- Further lines of a text, each after a line feed. -/
def furtherLines : List (List Char) → List Char
  | [] => []
  | line :: lines => '\n' :: (line ++ furtherLines lines)

theorem endsLine_furtherLines (lines : List (List Char)) : EndsLine (furtherLines lines) := by
  cases lines with
  | nil => exact .nil
  | cons line lines => exact .cons _

/-- The lines of a text hold no line feed, and make up the text. -/
theorem exists_splitAtEach (cs : List Char) : ∃ line lines, splitAtEach '\n' cs = line :: lines ∧
    cs = line ++ furtherLines lines ∧ ∀ l ∈ line :: lines, '\n' ∉ l := by
  induction cs with
  | nil => exact ⟨[], [], rfl, rfl, by simp⟩
  | cons c cs ih =>
    obtain ⟨line, lines, hsplit, htext, hlines⟩ := ih
    rw [splitAtEach, hsplit]
    by_cases hc : c = '\n'
    · subst hc
      exact ⟨[], line :: lines, by simp, by rw [htext]; rfl, by simpa using hlines⟩
    · refine ⟨c :: line, lines, by simp [hc], by rw [htext]; rfl, ?_⟩
      obtain ⟨hline, hrest⟩ := List.forall_mem_cons.mp hlines
      exact List.forall_mem_cons.mpr ⟨by simp [hline, Ne.symm hc], hrest⟩

namespace Vocabulary

/-- The tokens of scanned lines, shifted to where the lines stand in a text. -/
def placeLines (o : Nat) : List (List Char) → List ScannedLine → List Token
  | line :: lines, scanned :: rest =>
    scanned.tokens.map (·.shifted o) ++ placeLines (o + utf8Length line + 1) lines rest
  | _, _ => []

/-- The tokens of lines from an offset and a state on. -/
def lineTokens (v : Vocabulary) (o : Nat) (state : LineState) (lines : List (List Char)) :
    List Token :=
  placeLines o lines (v.scanLines state lines)

/-- The state in which lines leave what follows them. -/
def stateThrough (v : Vocabulary) (state : LineState) (lines : List (List Char)) : LineState :=
  lines.foldl (fun state line => (v.scanLine line state).state) state

end Vocabulary

/-! ## Pieces -/

/-- Whether the token has any text. -/
def Token.isWritten (t : Token) : Bool := t.text != ""

/-- The text and the value of each piece of a string. -/
abbrev Pieces := List (List Char × List Char)

/-- The pieces make up the text and the value, a line feed between any two. -/
inductive Pieces.Of : Pieces → List Char → List Char → Prop
  | last {line : List Char} (meaning : List Char) : '\n' ∉ line →
      Pieces.Of [(line, meaning)] line meaning
  | cons {line : List Char} {pieces : Pieces} {text value : List Char} (meaning : List Char) :
      '\n' ∉ line → Pieces.Of pieces text value →
      Pieces.Of ((line, meaning) :: pieces) (line ++ '\n' :: text) (meaning ++ '\n' :: value)

namespace Pieces.Of

variable {pieces : Pieces} {text value : List Char}

theorem ne_nil (h : Pieces.Of pieces text value) : pieces ≠ [] := by
  cases h <;> exact List.cons_ne_nil _ _

theorem single (h : Pieces.Of pieces text value) : ∀ piece ∈ pieces, '\n' ∉ piece.1 := by
  induction h with
  | last _ hline => simpa using hline
  | cons _ hline _ ih => exact List.forall_mem_cons.mpr ⟨hline, ih⟩

theorem intercalate_text (h : Pieces.Of pieces text value) :
    ['\n'].intercalate (pieces.map (·.1)) = text := by
  induction h with
  | last => simp
  | cons _ _ h ih =>
    obtain ⟨piece, rest, rfl⟩ := List.exists_cons_of_ne_nil h.ne_nil
    simpa [List.intercalate_cons_cons] using ih

theorem intercalate_value (h : Pieces.Of pieces text value) :
    ['\n'].intercalate (pieces.map (·.2)) = value := by
  induction h with
  | last => simp
  | cons _ _ h ih =>
    obtain ⟨piece, rest, rfl⟩ := List.exists_cons_of_ne_nil h.ne_nil
    simpa [List.intercalate_cons_cons] using ih

end Pieces.Of

namespace Vocabulary

variable {v : Vocabulary} {s : TerminalId} {o : Nat} {q : Quoting} {last : Bool} {state : LineState}
  {line inner rest : List Char} {lines : List (List Char)} {piece : List Char × List Char}
  {pieces : Pieces}

/-- The token of a piece at an offset. -/
def pieceToken (v : Vocabulary) (s : TerminalId) (o : Nat) (piece : List Char × List Char)
    (incomplete : Bool) : Token :=
  { Token.plain v s (.ofOffset o) piece.1 with
    value := some (.text (String.ofList piece.2))
    incomplete := incomplete }

/-- The tokens of pieces from an offset on. All but the last one are incomplete. -/
def pieceTokens (v : Vocabulary) (s : TerminalId) (last : Bool) (o : Nat) : Pieces → List Token
  | [] => []
  | [piece] => [v.pieceToken s o piece last]
  | piece :: next :: pieces =>
    v.pieceToken s o piece true ::
      v.pieceTokens s last (o + utf8Length piece.1 + 1) (next :: pieces)

theorem pieceTokens_cons (h : pieces ≠ []) : v.pieceTokens s last o (piece :: pieces) =
    v.pieceToken s o piece true :: v.pieceTokens s last (o + utf8Length piece.1 + 1) pieces := by
  obtain ⟨next, pieces, rfl⟩ := List.exists_cons_of_ne_nil h
  rfl

/-! ## Lines inside a quotation -/

theorem quoting?_inside (hq : q.spansLines = true) : (LineState.inside q).quoting? = some q := by
  cases q with
  | escaped => cases hq
  | verbatim => rfl
  | single => rfl

theorem shifted_continuationToken (hs : v.ofKind? .string = some s) (closed : Bool)
    (cs : List Char) (value : List Char) (hvalue : doubledValue q.closer cs = String.ofList value) :
    (v.continuationToken q closed cs).shifted o = v.pieceToken s o (cs, value) !closed := by
  simp [continuationToken, pieceToken, Token.shifted, Token.plain, Place.ofOffset, hs, hvalue]

/-- Inside a quotation, a line without the closing quote is a piece of it. -/
theorem scanLine_open (hq : q.spansLines = true) (h : Doubled q.closer line) :
    v.scanLine line (.inside q) =
      ⟨if line = [] then [] else [v.continuationToken q false line], .inside q⟩ := by
  simp only [scanLine, quoting?_inside hq, h.doubledBody_eq, List.take_length, Bool.false_eq_true,
    if_false]

/-- Inside a quotation, the closing quote ends a piece, and the line goes on as if it began there. -/
theorem scanLine_close (hq : q.spansLines = true) (h : Doubled q.closer inner)
    (hrest : rest.head? ≠ some q.closer) :
    v.scanLine (inner ++ q.closer :: rest) (.inside q) =
      ⟨v.continuationToken q true (inner ++ [q.closer]) ::
          v.scanFrom .line (Place.advance {} (inner ++ [q.closer])) rest,
        v.stateOf rest⟩ := by
  have hassoc : inner ++ q.closer :: rest = inner ++ [q.closer] ++ rest := by simp
  have htake : (inner ++ q.closer :: rest).take (inner.length + 1) = inner ++ [q.closer] := by
    rw [hassoc, List.take_left' (by simp)]
  have hdrop : (inner ++ q.closer :: rest).drop (inner.length + 1) = rest := by
    rw [hassoc, List.drop_left' (by simp)]
  simp only [scanLine, quoting?_inside hq, h.doubledBody_close hrest, htake, hdrop, if_true]
  rw [if_neg (by simp)]
  rfl

/-! ## Tokens of lines -/

theorem lineTokens_cons : v.lineTokens o state (line :: lines) =
    (v.scanLine line state).tokens.map (·.shifted o) ++
      v.lineTokens (o + utf8Length line + 1) (v.scanLine line state).state lines := rfl

theorem stateThrough_cons : v.stateThrough state (line :: lines) =
    v.stateThrough (v.scanLine line state).state lines := rfl

theorem lineTokens_neutral : v.lineTokens o .neutral (line :: lines) =
    v.tokensIn .line o line ++ v.lineTokens (o + utf8Length line + 1) (v.stateOf line) lines := by
  rw [lineTokens_cons]
  exact congrArg (· ++ _) (map_shifted_scanFrom v .line {} line o)

theorem stateThrough_neutral :
    v.stateThrough .neutral (line :: lines) = v.stateThrough (v.stateOf line) lines := rfl

theorem isWritten_pieceToken {incomplete : Bool} (h : piece.1 ≠ []) :
    (v.pieceToken s o piece incomplete).isWritten = true := by
  simpa [Token.isWritten, pieceToken, Token.plain, ← String.toList_inj] using h

/-- The token of a piece is left out if the piece is empty. -/
theorem filter_pieceToken (hs : v.ofKind? .string = some s) (h : Doubled q.closer line) :
    ((if line = [] then [] else [v.continuationToken q false line]).map (·.shifted o)) =
      [v.pieceToken s o (line, undouble q.closer line) true].filter Token.isWritten := by
  by_cases hline : line = []
  · subst hline
    rfl
  · rw [if_neg hline, List.map_singleton,
      shifted_continuationToken hs false line _ h.doubledValue_eq,
      List.filter_cons_of_pos (isWritten_pieceToken hline)]
    rfl

theorem lineTokens_open (hs : v.ofKind? .string = some s) (hq : q.spansLines = true)
    (h : Doubled q.closer line) : v.lineTokens o (.inside q) (line :: lines) =
      [v.pieceToken s o (line, undouble q.closer line) true].filter Token.isWritten ++
        v.lineTokens (o + utf8Length line + 1) (.inside q) lines := by
  rw [lineTokens_cons, scanLine_open hq h, ← filter_pieceToken hs h]

theorem lineTokens_close (hs : v.ofKind? .string = some s) (hq : q.spansLines = true)
    (h : Doubled q.closer inner) (hrest : rest.head? ≠ some q.closer) :
    v.lineTokens o (.inside q) ((inner ++ q.closer :: rest) :: lines) =
      v.pieceToken s o (inner ++ [q.closer], undouble q.closer inner) false ::
        v.lineTokens (o + utf8Length (inner ++ [q.closer])) .neutral (rest :: lines) := by
  have hvalue : doubledValue q.closer (inner ++ [q.closer]) =
      String.ofList (undouble q.closer inner) := h.doubledValue_close (by simp)
  rw [lineTokens_cons, scanLine_close hq h hrest, List.map_cons,
    shifted_continuationToken hs true _ _ hvalue, map_shifted_scanFrom, Place.offset_advance,
    lineTokens_neutral, List.cons_append]
  congr 2
  · simp
  · congr 1
    simp only [utf8Length_append, utf8Length_cons, utf8Length_nil]
    omega

theorem feed_ne_closer (q : Quoting) : '\n' ≠ q.closer := by cases q <;> decide

/-- A line feed within a quotation stands for itself. -/
theorem undouble_feed (h : Doubled q.closer line) (cs : List Char) :
    undouble q.closer (line ++ '\n' :: cs) =
      undouble q.closer line ++ '\n' :: undouble q.closer cs := by
  rw [h.undouble_append, undouble_plain (feed_ne_closer q)]

/-- Inside a quotation, the lines are pieces of it up to their end. -/
structure StaysOpen (v : Vocabulary) (s : TerminalId) (q : Quoting) (o : Nat) (line : List Char)
    (lines : List (List Char)) (pieces : Pieces) : Prop where
  made : ∃ value, pieces.Of (line ++ furtherLines lines) value
  doubled : Doubled q.closer (line ++ furtherLines lines)
  tokens : v.lineTokens o (.inside q) (line :: lines) =
    (v.pieceTokens s true o pieces).filter Token.isWritten
  state : v.stateThrough (.inside q) (line :: lines) = .inside q

/-- Inside a quotation, the lines are pieces of it up to its closing quote. What follows the quote on
its line is read like the lines of a text. -/
structure Closes (v : Vocabulary) (s : TerminalId) (q : Quoting) (o : Nat) (line : List Char)
    (lines : List (List Char)) (pieces : Pieces) (inner after : List Char)
    (rest : List (List Char)) : Prop where
  made : pieces.Of (inner ++ [q.closer]) (undouble q.closer inner)
  text : line ++ furtherLines lines = inner ++ q.closer :: (after ++ furtherLines rest)
  doubled : Doubled q.closer inner
  ended : (after ++ furtherLines rest).head? ≠ some q.closer
  fewer : rest.length ≤ lines.length
  feeds : ∀ l ∈ after :: rest, '\n' ∉ l
  tokens : v.lineTokens o (.inside q) (line :: lines) =
    (v.pieceTokens s false o pieces).filter Token.isWritten ++
      v.lineTokens (o + utf8Length (inner ++ [q.closer])) .neutral (after :: rest)
  state : v.stateThrough (.inside q) (line :: lines) = v.stateThrough .neutral (after :: rest)

/-- One more line before lines that are pieces to their end. -/
theorem StaysOpen.cons {next : List Char} (hs : v.ofKind? .string = some s)
    (hq : q.spansLines = true) (hline : '\n' ∉ line) (hopen : Doubled q.closer line)
    (h : StaysOpen v s q (o + utf8Length line + 1) next lines pieces) :
    StaysOpen v s q o line (next :: lines) ((line, undouble q.closer line) :: pieces) := by
  obtain ⟨⟨value, hpieces⟩, hdoubled, htokens, hstate⟩ := h
  refine ⟨⟨_, .cons _ hline hpieces⟩, hopen.append (.plain (feed_ne_closer q) hdoubled), ?_, ?_⟩
  · rw [lineTokens_open hs hq hopen, htokens, pieceTokens_cons hpieces.ne_nil,
      ← List.filter_append]
    rfl
  · rw [stateThrough_cons, scanLine_open hq hopen]
    exact hstate

/-- One more line before lines that close a quotation. -/
theorem Closes.cons {next after : List Char} {rest : List (List Char)}
    (hs : v.ofKind? .string = some s) (hq : q.spansLines = true) (hline : '\n' ∉ line)
    (hopen : Doubled q.closer line)
    (h : Closes v s q (o + utf8Length line + 1) next lines pieces inner after rest) :
    Closes v s q o line (next :: lines) ((line, undouble q.closer line) :: pieces)
      (line ++ '\n' :: inner) after rest := by
  have hpieces := Pieces.Of.cons (undouble q.closer line) hline h.made
  rw [← undouble_feed hopen] at hpieces
  refine ⟨by simpa using hpieces, by rw [furtherLines, h.text]; simp,
    hopen.append (.plain (feed_ne_closer q) h.doubled), h.ended, Nat.le_succ_of_le h.fewer, h.feeds,
    ?_, ?_⟩
  · have hfeed : Char.utf8Size '\n' = 1 := by decide
    have hoffset : o + utf8Length line + 1 + utf8Length (inner ++ [q.closer]) =
        o + utf8Length (line ++ '\n' :: inner ++ [q.closer]) := by
      simp only [utf8Length_append, utf8Length_cons, utf8Length_nil, hfeed]
      omega
    rw [lineTokens_open hs hq hopen, h.tokens, pieceTokens_cons h.made.ne_nil,
      ← List.append_assoc, ← List.filter_append, hoffset]
    rfl
  · rw [stateThrough_cons, scanLine_open hq hopen]
    exact h.state

/-- The closing quote is on the first line. -/
theorem closes_first {after : List Char} (hs : v.ofKind? .string = some s)
    (hq : q.spansLines = true) (o : Nat) (hinner : Doubled q.closer inner)
    (hafter : after.head? ≠ some q.closer)
    (hlines : ∀ l ∈ (inner ++ q.closer :: after) :: lines, '\n' ∉ l) :
    Closes v s q o (inner ++ q.closer :: after) lines
      [(inner ++ [q.closer], undouble q.closer inner)] inner after lines := by
  obtain ⟨hline, hlines⟩ := List.forall_mem_cons.mp hlines
  simp only [List.mem_append, List.mem_cons, not_or] at hline
  obtain ⟨hfeed, -, hafterFeed⟩ := hline
  refine ⟨.last _ (by simp [hfeed, feed_ne_closer]), by simp, hinner,
    (endsLine_furtherLines lines).head?_append_ne (feed_ne_closer q).symm hafter, Nat.le_refl _,
    List.forall_mem_cons.mpr ⟨hafterFeed, hlines⟩, ?_, ?_⟩
  · have hne : inner ++ [q.closer] ≠ [] := by simp
    rw [lineTokens_close hs hq hinner hafter, pieceTokens,
      List.filter_cons_of_pos (isWritten_pieceToken hne)]
    rfl
  · rw [stateThrough_cons, scanLine_close hq hinner hafter, stateThrough_neutral]

/-- **Lines inside a quotation.** They are pieces of it up to the closing quote or, if there is none, up
to the end. -/
theorem exists_continuation (hs : v.ofKind? .string = some s) (hq : q.spansLines = true) (o : Nat)
    (line : List Char) (lines : List (List Char)) (hlines : ∀ l ∈ line :: lines, '\n' ∉ l) :
    (∃ pieces, StaysOpen v s q o line lines pieces) ∨
      ∃ pieces inner after rest, Closes v s q o line lines pieces inner after rest := by
  induction lines generalizing o line with
  | nil =>
    rcases doubledBody_cases q.closer line with hopen | ⟨inner, after, rfl, hinner, hafter⟩
    · have hline := hlines line List.mem_cons_self
      refine Or.inl ⟨[(line, undouble q.closer line)], ⟨undouble q.closer line, ?_⟩, ?_, ?_, ?_⟩
      · rw [furtherLines, List.append_nil]
        exact .last _ hline
      · rwa [furtherLines, List.append_nil]
      · rw [lineTokens_open hs hq hopen]
        exact List.append_nil _
      · rw [stateThrough_cons, scanLine_open hq hopen]
        rfl
    · exact Or.inr ⟨_, _, _, _, closes_first hs hq o hinner hafter hlines⟩
  | cons next lines ih =>
    obtain ⟨hline, hrest⟩ := List.forall_mem_cons.mp hlines
    rcases doubledBody_cases q.closer line with hopen | ⟨inner, after, rfl, hinner, hafter⟩
    · rcases ih (o + utf8Length line + 1) next hrest with ⟨pieces, h⟩ | ⟨pieces, inner, after, rest, h⟩
      · exact Or.inl ⟨_, h.cons hs hq hline hopen⟩
      · exact Or.inr ⟨_, _, _, _, h.cons hs hq hline hopen⟩
    · exact Or.inr ⟨_, _, _, _, closes_first hs hq o hinner hafter hlines⟩

end Vocabulary

end FourGL
