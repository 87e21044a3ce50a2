import FourGL.Proofs.Editor.LineStates
import FourGL.Proofs.Token.Pieces

/-!
# Line by line and as a whole

A text can be scanned as a whole, or line after line with only a state between the lines. Both ways give
the same tokens, except for quotations that go on over several lines or are never closed. Line by line,
these come in pieces.

**Theorem (`linesAgree_scan`).** The tokens of the lines of a text, shifted to where the lines stand, agree
with the tokens of the text. The last line leaves a state other than the neutral one exactly if a
quotation that may span lines is never closed.

The proof goes from line to line. On a line the tokens are the same up to a quotation left open; a
quotation left open is followed through the next lines up to its closing quote, behind which both ways of
scanning are in step again.
-/

namespace FourGL

/-! ## Agreement -/

/-- The token is a string of the grammar, without a fault. -/
structure Token.IsString (v : Vocabulary) (t : Token) : Prop where
  terminal : v.ofKind? .string = some t.terminal
  category : t.category = (v.terminal t.terminal).category
  highlight : t.highlight = (v.terminal t.terminal).highlight
  fault : t.fault = none

/-- The tokens are the pieces of a token between its line feeds. All but the last are incomplete. -/
structure Token.InPieces (v : Vocabulary) (t : Token) (pieces : List Token) : Prop where
  text : "\n".intercalate (pieces.map (·.text)) = t.text
  single : ∀ p ∈ pieces, '\n' ∉ p.text.toList
  strings : ∀ p ∈ pieces, p.IsString v
  width : ∀ p ∈ pieces, p.span.stop = p.span.start + utf8Length p.text.toList
  start : pieces.head?.map (·.span.start) = some t.span.start
  apart : pieces.IsChain fun p next => next.span.start = p.span.stop + 1
  stop : pieces.getLast?.map (·.span.stop) = some t.span.stop
  incomplete : ∀ p ∈ pieces.dropLast, p.incomplete = true
  /-- Only pieces after the first can be empty. -/
  begun : ∀ p ∈ pieces.head?, p.isWritten = true

/-- The tokens of a text agree with those of its lines, the last of which leaves a state. -/
inductive LinesAgree (v : Vocabulary) : List Token → List Token → LineState → Prop
  | nil : LinesAgree v [] [] .neutral
  /-- A token on one line. -/
  | same {t : Token} {ts us : List Token} {state : LineState} : '\n' ∉ t.text.toList →
      t.isLeftOpen = false → LinesAgree v ts us state → LinesAgree v (t :: ts) (t :: us) state
  /-- A string that goes on over several lines. Its empty pieces are left out. -/
  | closed {t : Token} {pieces ts us : List Token} {values : List String} {state : LineState} :
      '\n' ∈ t.text.toList → t.IsString v → t.incomplete = false → t.InPieces v pieces →
      (∀ p ∈ pieces.getLast?, p.incomplete = false) →
      pieces.map (·.value) = values.map (some <| .text ·) →
      t.value = some (.text ("\n".intercalate values)) → LinesAgree v ts us state →
      LinesAgree v (t :: ts) (pieces.filter Token.isWritten ++ us) state
  /-- A string that is never closed. -/
  | leftOpen {t : Token} {pieces : List Token} {state : LineState} : t.isLeftOpen = true →
      t.terminal = Vocabulary.errorToken → t.InPieces v pieces →
      (∀ p ∈ pieces, p.incomplete = true) → state ≠ .neutral →
      LinesAgree v [t] (pieces.filter Token.isWritten) state

/-- The token is read alike on its line and in the text. -/
def Token.OnLine (t : Token) : Prop := '\n' ∉ t.text.toList ∧ t.isLeftOpen = false

namespace LinesAgree

variable {v : Vocabulary} {ts us ws : List Token} {state : LineState}

theorem append (hsame : ∀ t ∈ ws, t.OnLine) (h : LinesAgree v ts us state) :
    LinesAgree v (ws ++ ts) (ws ++ us) state := by
  induction ws with
  | nil => exact h
  | cons t ws ih =>
    obtain ⟨⟨hfeed, hopen⟩, hrest⟩ := List.forall_mem_cons.mp hsame
    exact .same hfeed hopen (ih hrest)

/-- Only a string that is never closed leaves a state other than the neutral one. -/
theorem ne_neutral_iff (h : LinesAgree v ts us state) :
    state ≠ .neutral ↔ ∃ t ∈ ts, t.isLeftOpen = true := by
  induction h with
  | nil => simp
  | same _ hopen _ ih => simpa [hopen] using ih
  | @closed t _ _ _ _ _ _ hstring _ _ _ _ _ _ ih =>
    have hopen : t.isLeftOpen = false := by simp [Token.isLeftOpen, hstring.fault]
    simpa [hopen] using ih
  | leftOpen hopen _ _ _ hstate => simpa [hopen] using hstate

end LinesAgree

namespace Vocabulary

variable {v : Vocabulary} {s : TerminalId} {o : Nat} {q : Quoting} {last : Bool}
  {body line text value rest tail : List Char} {t : Token} {ts : List Token} {pieces : Pieces}

/-! ## The tokens of pieces -/

theorem map_text_pieceTokens (h : Pieces.Of pieces text value) (o : Nat) :
    (v.pieceTokens s last o pieces).map (·.text) = pieces.map (String.ofList ·.1) := by
  induction h generalizing o with
  | last => rfl
  | cons _ _ h ih =>
    rw [pieceTokens_cons h.ne_nil, List.map_cons, ih]
    rfl

theorem map_value_pieceTokens (h : Pieces.Of pieces text value) (o : Nat) :
    (v.pieceTokens s last o pieces).map (·.value) =
      (pieces.map (String.ofList ·.2)).map (some <| .text ·) := by
  induction h generalizing o with
  | last => rfl
  | cons _ _ h ih =>
    rw [pieceTokens_cons h.ne_nil, List.map_cons, ih]
    rfl

theorem exists_of_mem_pieceTokens (h : Pieces.Of pieces text value)
    (ht : t ∈ v.pieceTokens s last o pieces) :
    ∃ o', ∃ piece ∈ pieces, t = v.pieceToken s o' piece last ∨ t = v.pieceToken s o' piece true := by
  induction h generalizing o with
  | last => exact ⟨o, _, List.mem_singleton_self _, Or.inl (List.mem_singleton.mp ht)⟩
  | cons _ _ h ih =>
    rw [pieceTokens_cons h.ne_nil] at ht
    rcases List.mem_cons.mp ht with rfl | ht
    · exact ⟨o, _, List.mem_cons_self, Or.inr rfl⟩
    · obtain ⟨o', piece, hpiece, htoken⟩ := ih ht
      exact ⟨o', piece, List.mem_cons_of_mem _ hpiece, htoken⟩

/-- The first piece begins at the offset. -/
theorem head?_pieceTokens (h : pieces ≠ []) : ∃ piece incomplete, pieces.head? = some piece ∧
    (v.pieceTokens s last o pieces).head? = some (v.pieceToken s o piece incomplete) := by
  obtain ⟨piece, pieces, rfl⟩ := List.exists_cons_of_ne_nil h
  cases pieces with
  | nil => exact ⟨piece, last, rfl, rfl⟩
  | cons next pieces => exact ⟨piece, true, rfl, rfl⟩

theorem pieceTokens_ne_nil (h : pieces ≠ []) : v.pieceTokens s last o pieces ≠ [] := by
  obtain ⟨_, _, -, hhead⟩ := head?_pieceTokens (v := v) (s := s) (o := o) h
  intro hnil
  rw [hnil] at hhead
  cases hhead

theorem isChain_pieceTokens (h : Pieces.Of pieces text value) (o : Nat) :
    (v.pieceTokens s last o pieces).IsChain fun p next => next.span.start = p.span.stop + 1 := by
  induction h generalizing o with
  | last => exact .singleton _
  | @cons line _ _ _ _ _ h ih =>
    obtain ⟨_, _, -, hhead⟩ := head?_pieceTokens (v := v) (s := s) (o := o + utf8Length line + 1)
      h.ne_nil
    have hrest := ih (o + utf8Length line + 1)
    obtain ⟨rest, htokens⟩ := List.head?_eq_some_iff.mp hhead
    rw [pieceTokens_cons h.ne_nil, htokens]
    rw [htokens] at hrest
    exact .cons_cons rfl hrest

/-- The last piece ends with the text. -/
theorem getLast?_pieceTokens (h : Pieces.Of pieces text value) (o : Nat) :
    ∃ p, (v.pieceTokens s last o pieces).getLast? = some p ∧ p.incomplete = last ∧
      p.span.stop = o + utf8Length text := by
  induction h generalizing o with
  | last => exact ⟨_, rfl, rfl, rfl⟩
  | @cons line _ text _ _ _ h ih =>
    obtain ⟨p, hp, hlast, hstop⟩ := ih (o + utf8Length line + 1)
    refine ⟨p, ?_, hlast, ?_⟩
    · rw [pieceTokens_cons h.ne_nil, List.getLast?_cons_of_ne_nil (pieceTokens_ne_nil h.ne_nil), hp]
    · have hfeed : Char.utf8Size '\n' = 1 := by decide
      rw [hstop, utf8Length_append, utf8Length_cons, hfeed]
      omega

theorem incomplete_of_mem_dropLast (h : Pieces.Of pieces text value) (o : Nat) :
    ∀ p ∈ (v.pieceTokens s last o pieces).dropLast, p.incomplete = true := by
  induction h generalizing o with
  | last => simp [pieceTokens]
  | cons _ _ h ih =>
    rw [pieceTokens_cons h.ne_nil, List.dropLast_cons_of_ne_nil (pieceTokens_ne_nil h.ne_nil)]
    exact List.forall_mem_cons.mpr ⟨rfl, ih _⟩

theorem isString_pieceToken (hs : v.ofKind? .string = some s) {piece : List Char × List Char}
    {incomplete : Bool} : (v.pieceToken s o piece incomplete).IsString v :=
  ⟨hs, rfl, rfl, rfl⟩

/-- **Pieces.** The tokens of pieces are the pieces of the token that stands for all of their text. -/
theorem inPieces_pieceTokens (hs : v.ofKind? .string = some s) (h : Pieces.Of pieces text value)
    (hfirst : ∀ piece ∈ pieces.head?, piece.1 ≠ []) (htext : t.text = String.ofList text)
    (hspan : t.span = ⟨o, o + utf8Length text⟩) :
    t.InPieces v (v.pieceTokens s last o pieces) where
  text := by
    rw [map_text_pieceTokens h, htext, ← String.toList_inj, String.toList_intercalate,
      String.toList_ofList, List.map_map, ← h.intercalate_text]
    simp [Function.comp_def]
  single := fun p hp => by
    obtain ⟨o', piece, hpiece, rfl | rfl⟩ := exists_of_mem_pieceTokens h hp <;>
    simpa [pieceToken, Token.plain] using h.single piece hpiece
  strings := fun p hp => by
    obtain ⟨o', piece, -, rfl | rfl⟩ := exists_of_mem_pieceTokens h hp <;>
    exact isString_pieceToken hs
  width := fun p hp => by
    obtain ⟨o', piece, -, rfl | rfl⟩ := exists_of_mem_pieceTokens h hp <;>
    simp [pieceToken, Token.plain]
  start := by
    obtain ⟨piece, incomplete, -, hhead⟩ := head?_pieceTokens (v := v) (s := s) (o := o) h.ne_nil
    rw [hhead, hspan]
    rfl
  apart := isChain_pieceTokens h o
  stop := by
    obtain ⟨p, hp, -, hstop⟩ := getLast?_pieceTokens (v := v) (s := s) h o
    rw [hp, hspan, Option.map_some, hstop]
  incomplete := incomplete_of_mem_dropLast h o
  begun := fun p hp => by
    obtain ⟨piece, incomplete, hpiece, hhead⟩ := head?_pieceTokens (v := v) (s := s) (o := o) h.ne_nil
    rw [hhead] at hp
    cases hp
    exact isWritten_pieceToken (hfirst piece hpiece)

/-! ## Quotations -/

theorem quotedValue_opener (hq : q.spansLines = true) (cs : List Char) :
    quotedValue (q.opener ++ cs) = .ok (doubledValue q.closer cs) := by
  cases q with
  | escaped => cases hq
  | verbatim => rfl
  | single => rfl

/-- A quotation that may span lines is read as a piece, where it is closed or may stay open. -/
theorem quotedToken_eq_pieceToken (hs : v.ofKind? .string = some s) (hq : q.spansLines = true)
    {e : Extent} {closed : Bool} (hclosed : (closed || mayStayOpen e q) = true)
    (hvalue : doubledValue q.closer body = String.ofList value) :
    v.quotedToken e q closed (.ofOffset o) (q.opener ++ body) =
      v.pieceToken s o (q.opener ++ body, value) !closed := by
  simp [quotedToken, hclosed, literalToken, hs, quotedValue_opener hq, hvalue, pieceToken,
    Token.plain]

theorem tokenOf_quoted {e : Extent} {place : Place} {closed : Bool} (cs : List Char) :
    v.tokenOf e place ⟨some (.quoted q closed), cs⟩ = some (v.quotedToken e q closed place cs) := rfl

/-- The token of a quotation that is never closed. -/
def unclosedToken (v : Vocabulary) (o : Nat) (cs : List Char) : Token :=
  { Token.faulty v .unterminatedString (.ofOffset o) cs with incomplete := true }

section Open

variable (hq : q.spansLines = true) (h : Doubled q.closer body)

include hq h

theorem rawTokens_open_line (hs : v.ofKind? .string = some s) :
    v.rawTokens .line o (q.opener ++ body) =
      [v.pieceToken s o (q.opener ++ body, undouble q.closer body) true] := by
  have hstays : (false || mayStayOpen .line q) = true := by simp [mayStayOpen, hq]
  rw [rawTokens, Lexeme.split_open hq h, tokensAt, tokensAt, tokenOf_quoted,
    quotedToken_eq_pieceToken hs hq hstays h.doubledValue_eq]
  rfl

theorem rawTokens_open_text :
    v.rawTokens .whole o (q.opener ++ body) = [v.unclosedToken o (q.opener ++ body)] := by
  rw [rawTokens, Lexeme.split_open hq h]
  rfl

theorem stateOf_open (hs : v.ofKind? .string = some s) :
    v.stateOf (q.opener ++ body) = .inside q := by
  rw [stateOf, Lexeme.split_open hq h]
  simp [stateAfter, hs]

theorem rawTokens_closed (hs : v.ofKind? .string = some s) (hrest : rest.head? ≠ some q.closer) :
    v.rawTokens .whole o (q.opener ++ (body ++ q.closer :: rest)) =
      v.pieceToken s o (q.opener ++ (body ++ [q.closer]), undouble q.closer body) false ::
        v.rawTokens .whole (o + utf8Length (q.opener ++ (body ++ [q.closer]))) rest := by
  have hvalue : doubledValue q.closer (body ++ [q.closer]) =
      String.ofList (undouble q.closer body) := h.doubledValue_close (by simp)
  rw [rawTokens, Lexeme.split_closed hq h hrest, tokensAt, tokenOf_quoted,
    quotedToken_eq_pieceToken hs hq rfl hvalue]
  rfl

end Open

theorem isLeftOpen_unclosedToken (hq : q.spansLines = true) :
    (v.unclosedToken o (q.opener ++ body)).isLeftOpen = true := by
  cases q with
  | escaped => cases hq
  | verbatim => simp [Token.isLeftOpen, unclosedToken, Token.faulty, Token.plain, Quoting.opener]
  | single => simp [Token.isLeftOpen, unclosedToken, Token.faulty, Token.plain, Quoting.opener]

/-! ## From line to line -/

/-- The tokens that a line gives up to its end, or up to a quotation that it leaves open. -/
theorem onLine_of_readsAlike {o' : Nat} (h : ReadsAlike v tail ts o line o' rest)
    (hline : '\n' ∉ line) : ∀ t ∈ Token.joinUnexpected ts, t.OnLine := by
  refine Token.forall_joinUnexpected (p := Token.OnLine) (fun t u hjoins ht hu => ?_) fun t ht => ?_
  · have hfault : t.fault = some .unexpectedCharacter := by
      simp only [Token.joins, Token.isUnexpected, Bool.and_eq_true, beq_iff_eq] at hjoins
      exact hjoins.1.1
    refine ⟨?_, by simp [Token.isLeftOpen, Token.join, hfault]⟩
    simp only [Token.join, String.toList_append, List.mem_append, not_or]
    exact ⟨ht.1, hu.1⟩
  · have hmem : t ∈ v.rawTokens .line o line := by
      rw [h.alone]
      exact List.mem_append_left _ ht
    exact ⟨fun hfeed => hline (mem_of_mem_rawTokens hmem hfeed), isLeftOpen_of_mem_rawTokens hmem⟩

/-- A quotation that is never closed comes in pieces. -/
theorem linesAgree_unclosed (hs : v.ofKind? .string = some s) (hq : q.spansLines = true)
    (h : Pieces.Of pieces (q.opener ++ body) value)
    (hfirst : ∀ piece ∈ pieces.head?, piece.1 ≠ []) :
    LinesAgree v [v.unclosedToken o (q.opener ++ body)]
      ((v.pieceTokens s true o pieces).filter Token.isWritten) (.inside q) := by
  refine .leftOpen (isLeftOpen_unclosedToken hq) rfl (inPieces_pieceTokens hs h hfirst rfl rfl)
    (fun p hp => ?_) ?_
  · obtain ⟨o', piece, -, rfl | rfl⟩ := exists_of_mem_pieceTokens h hp <;> rfl
  · cases q with
    | escaped => cases hq
    | verbatim => simp [LineState.inside]
    | single => simp [LineState.inside]

/-- A quotation that is closed on a later line comes in pieces. -/
theorem linesAgree_closed (hs : v.ofKind? .string = some s) {us ws : List Token}
    {state : LineState} (hfeed : '\n' ∈ text) (h : Pieces.Of pieces text value)
    (hfirst : ∀ piece ∈ pieces.head?, piece.1 ≠ []) (hagree : LinesAgree v us ws state) :
    LinesAgree v (v.pieceToken s o (text, value) false :: us)
      ((v.pieceTokens s false o pieces).filter Token.isWritten ++ ws) state := by
  refine .closed ?_ (isString_pieceToken hs) rfl (inPieces_pieceTokens hs h hfirst rfl rfl)
    (fun p hp => ?_) (map_value_pieceTokens h o) ?_ hagree
  · simpa [pieceToken, Token.plain] using hfeed
  · obtain ⟨last, hlast, hcomplete, -⟩ := getLast?_pieceTokens (v := v) (s := s) h o
    rw [hlast] at hp
    cases hp
    exact hcomplete
  · have hvalue : "\n".intercalate (pieces.map (String.ofList ·.2)) = String.ofList value := by
      rw [← String.toList_inj, String.toList_intercalate, String.toList_ofList, List.map_map,
        ← h.intercalate_value]
      simp [Function.comp_def]
    rw [hvalue]
    rfl

/-- The tokens of the lines of a text agree with those of the text. -/
def LinesRead (v : Vocabulary) (o : Nat) (line : List Char) (lines : List (List Char)) : Prop :=
  LinesAgree v (v.tokensIn .whole o (line ++ furtherLines lines))
    (v.lineTokens o .neutral (line :: lines)) (v.stateThrough .neutral (line :: lines))

section Open

variable (hs : v.ofKind? .string = some s) (hq : q.spansLines = true)
  (hbody : Doubled q.closer body) (hfeed : '\n' ∉ q.opener ++ body)

include hs hq hbody hfeed

/-- A quotation that its line leaves open and that stays open to the end of the text. -/
theorem linesAgree_staysOpen {next : List Char} {lines : List (List Char)}
    (h : StaysOpen v s q (o + utf8Length (q.opener ++ body) + 1) next lines pieces) :
    LinesAgree v (v.tokensIn .whole o (q.opener ++ (body ++ furtherLines (next :: lines))))
      (v.pieceToken s o (q.opener ++ body, undouble q.closer body) true ::
        v.lineTokens (o + utf8Length (q.opener ++ body) + 1) (.inside q) (next :: lines))
      (v.stateThrough (.inside q) (next :: lines)) := by
  obtain ⟨value, hmade⟩ := h.made
  have hfirst : q.opener ++ body ≠ [] := q.opener_append_ne_nil body
  have hpieces := Pieces.Of.cons (undouble q.closer body) hfeed hmade
  rw [List.append_assoc] at hpieces
  have hagree := linesAgree_unclosed (o := o) hs hq hpieces (by simpa using hfirst)
  rw [pieceTokens_cons hmade.ne_nil,
    List.filter_cons_of_pos (isWritten_pieceToken hfirst)] at hagree
  rw [tokensIn, furtherLines,
    rawTokens_open_text hq (hbody.append (.plain (feed_ne_closer q) h.doubled)), h.tokens, h.state]
  exact hagree

/-- A quotation that its line leaves open and a later line closes. -/
theorem linesAgree_closes {next inner after : List Char} {lines rest : List (List Char)}
    (h : Closes v s q (o + utf8Length (q.opener ++ body) + 1) next lines pieces inner after rest)
    (hread : ∀ o, LinesRead v o after rest) :
    LinesAgree v (v.tokensIn .whole o (q.opener ++ (body ++ furtherLines (next :: lines))))
      (v.pieceToken s o (q.opener ++ body, undouble q.closer body) true ::
        v.lineTokens (o + utf8Length (q.opener ++ body) + 1) (.inside q) (next :: lines))
      (v.stateThrough (.inside q) (next :: lines)) := by
  have hfirst : q.opener ++ body ≠ [] := q.opener_append_ne_nil body
  have hpieces := Pieces.Of.cons (undouble q.closer body) hfeed h.made
  rw [← undouble_feed hbody] at hpieces
  have hdoubled : Doubled q.closer (body ++ '\n' :: inner) :=
    hbody.append (.plain (feed_ne_closer q) h.doubled)
  -- All of the quotation, and what follows it.
  have htext : body ++ furtherLines (next :: lines) =
      (body ++ '\n' :: inner) ++ q.closer :: (after ++ furtherLines rest) := by
    rw [furtherLines, h.text]
    simp
  have hquotation : q.opener ++ body ++ '\n' :: (inner ++ [q.closer]) =
      q.opener ++ (body ++ '\n' :: inner ++ [q.closer]) := by simp
  have hoffset : o + utf8Length (q.opener ++ body) + 1 + utf8Length (inner ++ [q.closer]) =
      o + utf8Length (q.opener ++ (body ++ '\n' :: inner ++ [q.closer])) := by
    have hwidth : Char.utf8Size '\n' = 1 := by decide
    simp only [utf8Length_append, utf8Length_cons, utf8Length_nil, hwidth]
    omega
  rw [hquotation] at hpieces
  have hagree := linesAgree_closed (o := o) hs (by simp) hpieces (by simpa using hfirst)
    (hread (o + utf8Length (q.opener ++ (body ++ '\n' :: inner ++ [q.closer]))))
  rw [pieceTokens_cons h.made.ne_nil,
    List.filter_cons_of_pos (isWritten_pieceToken hfirst)] at hagree
  rw [tokensIn, htext, rawTokens_closed hq hdoubled hs h.ended, Token.joinUnexpected_cons rfl,
    h.tokens, h.state, hoffset]
  exact hagree

/-- A quotation that its line leaves open. -/
theorem linesAgree_open (lines : List (List Char)) (hlines : ∀ l ∈ lines, '\n' ∉ l)
    (hread : ∀ after rest, rest.length < lines.length → (∀ l ∈ after :: rest, '\n' ∉ l) →
      ∀ o, LinesRead v o after rest) :
    LinesAgree v (v.tokensIn .whole o (q.opener ++ (body ++ furtherLines lines)))
      (v.pieceToken s o (q.opener ++ body, undouble q.closer body) true ::
        v.lineTokens (o + utf8Length (q.opener ++ body) + 1) (.inside q) lines)
      (v.stateThrough (.inside q) lines) := by
  cases lines with
  | nil =>
    have hfirst : q.opener ++ body ≠ [] := q.opener_append_ne_nil body
    have hpieces : Pieces.Of [(q.opener ++ body, undouble q.closer body)] (q.opener ++ body) _ :=
      .last _ hfeed
    have hagree := linesAgree_unclosed (o := o) hs hq hpieces (by simpa using hfirst)
    rw [pieceTokens, List.filter_cons_of_pos (isWritten_pieceToken hfirst)] at hagree
    rw [tokensIn, furtherLines, List.append_nil, rawTokens_open_text hq hbody]
    exact hagree
  | cons next lines =>
    rcases exists_continuation hs hq (o + utf8Length (q.opener ++ body) + 1) next lines hlines with
      ⟨pieces, h⟩ | ⟨pieces, inner, after, rest, h⟩
    · exact linesAgree_staysOpen hs hq hbody hfeed h
    · exact linesAgree_closes hs hq hbody hfeed h
        (hread after rest (Nat.lt_succ_of_le h.fewer) h.feeds)

end Open

/-- Nothing joins with a quotation. -/
theorem joinUnexpected_quotation (hs : v.ofKind? .string = some s) (hq : q.spansLines = true)
    (ts : List Token) (o : Nat) (cs : List Char) :
    Token.joinUnexpected (ts ++ v.rawTokens .whole o (q.opener ++ cs)) =
      Token.joinUnexpected ts ++ v.tokensIn .whole o (q.opener ++ cs) := by
  rcases doubledBody_cases q.closer cs with hopen | ⟨inner, rest, rfl, hinner, hrest⟩
  · rw [tokensIn, rawTokens_open_text hq hopen, Token.joinUnexpected_append_cons rfl]
    rfl
  · rw [tokensIn, rawTokens_closed hq hinner hs hrest, Token.joinUnexpected_append_cons rfl,
      Token.joinUnexpected_cons rfl]

/-- A line that is read to its end. -/
theorem linesRead_of_ended {o' : Nat} {lines : List (List Char)}
    (h : ReadsAlike v (furtherLines lines) ts o line o' []) (hline : '\n' ∉ line)
    (hread : ∀ next rest, lines = next :: rest → LinesRead v (o' + 1) next rest) :
    LinesRead v o line lines := by
  have hsame := onLine_of_readsAlike h hline
  have hend : o + utf8Length line = o' := h.offset
  have halone : v.tokensIn .line o line = Token.joinUnexpected ts := by
    rw [tokensIn, h.alone, rawTokens_nil, List.append_nil]
  rw [LinesRead, lineTokens_neutral, stateThrough_neutral, tokensIn, h.inText, halone, hend,
    List.nil_append, h.state, show v.stateOf [] = .neutral from stateAfter_nil]
  cases lines with
  | nil =>
    rw [furtherLines, rawTokens_nil, List.append_nil]
    show LinesAgree v _ (Token.joinUnexpected ts ++ []) .neutral
    simpa using LinesAgree.nil.append hsame
  | cons next lines =>
    have hgap : ∀ t ∈ ts, t.span.stop < o' + 1 := fun t ht => by
      have hmem : t ∈ v.rawTokens .line o line := by
        rw [h.alone]
        exact List.mem_append_left _ ht
      exact Nat.lt_succ_of_le (hend ▸ stop_le_of_mem_rawTokens hmem)
    have hwidth : Char.utf8Size '\n' = 1 := by decide
    rw [furtherLines, rawTokens_blank (by decide), hwidth,
      Token.joinUnexpected_append_of_gap hgap fun u hu => le_start_of_mem_rawTokens hu]
    exact (hread next lines rfl).append hsame

/-- A line that leaves a quotation open. -/
theorem linesRead_of_open {o' : Nat} {lines : List (List Char)} (hs : v.ofKind? .string = some s)
    (hq : q.spansLines = true) (hbody : Doubled q.closer body)
    (h : ReadsAlike v (furtherLines lines) ts o line o' (q.opener ++ body)) (hline : '\n' ∉ line)
    (hlines : ∀ l ∈ lines, '\n' ∉ l)
    (hread : ∀ after rest, rest.length < lines.length → (∀ l ∈ after :: rest, '\n' ∉ l) →
      ∀ o, LinesRead v o after rest) :
    LinesRead v o line lines := by
  have hfeed : '\n' ∉ q.opener ++ body := fun hmem => hline (h.suffix.subset hmem)
  have hoffset : o + utf8Length line + 1 = o' + utf8Length (q.opener ++ body) + 1 :=
    congrArg (· + 1) h.offset
  have halone : v.tokensIn .line o line = Token.joinUnexpected ts ++
      [v.pieceToken s o' (q.opener ++ body, undouble q.closer body) true] := by
    rw [tokensIn, h.alone, rawTokens_open_line hq hbody hs, Token.joinUnexpected_append_cons rfl]
    rfl
  rw [LinesRead, lineTokens_neutral, stateThrough_neutral, tokensIn, h.inText, halone, hoffset,
    h.state, stateOf_open hq hbody hs, List.append_assoc q.opener, joinUnexpected_quotation hs hq,
    List.append_assoc (Token.joinUnexpected ts)]
  exact (linesAgree_open hs hq hbody hfeed lines hlines hread).append (onLine_of_readsAlike h hline)

theorem linesRead (hs : v.ofKind? .string = some s) (o : Nat) (line : List Char)
    (lines : List (List Char)) (hlines : ∀ l ∈ line :: lines, '\n' ∉ l) :
    LinesRead v o line lines := by
  induction hlength : lines.length using Nat.strong_induction_on generalizing o line lines with
  | _ length ih =>
    obtain ⟨hline, hrest⟩ := List.forall_mem_cons.mp hlines
    obtain ⟨ts, o', r, hread, rfl | ⟨q, body, hq, hbody, rfl⟩⟩ :=
      exists_readsAlike v (endsLine_furtherLines lines) o line
    · refine linesRead_of_ended hread hline fun next rest heq => ?_
      subst heq
      exact ih rest.length (by simp [← hlength]) _ next rest hrest rfl
    · exact linesRead_of_open hs hq hbody hread hline hrest fun after rest hlt hfeeds o =>
        ih rest.length (hlength ▸ hlt) o after rest hfeeds rfl

end Vocabulary

/-- **Line by line and as a whole.** If strings are part of a grammar, the tokens of the lines of a
text, each scanned in the state left by the one before and shifted to where it stands, agree with the
tokens of the text, lines and columns left out. The last line leaves a state other than the neutral one
exactly if a quotation that may span lines is never closed. -/
theorem linesAgree_scan (v : Vocabulary) (hs : (v.ofKind? .string).isSome) (source : String) :
    LinesAgree v ((v.scan source).map (·.shifted 0))
      (v.lineTokens 0 .neutral (splitAtEach '\n' source.toList))
      (v.stateThrough .neutral (splitAtEach '\n' source.toList)) ∧
    (v.stateThrough .neutral (splitAtEach '\n' source.toList) ≠ .neutral ↔
      ∃ t ∈ v.scan source, t.isLeftOpen = true) := by
  obtain ⟨s, hs⟩ := Option.isSome_iff_exists.mp hs
  obtain ⟨line, lines, hsplit, htext, hlines⟩ := exists_splitAtEach source.toList
  have hread := Vocabulary.linesRead hs 0 line lines hlines
  have hscan : (v.scan source).map (·.shifted 0) =
      v.tokensIn .whole 0 (line ++ furtherLines lines) := by
    rw [Vocabulary.scan, Vocabulary.map_shifted_scanFrom, htext]
    rfl
  rw [hsplit, hscan]
  refine ⟨hread, hread.ne_neutral_iff.trans ?_⟩
  rw [← hscan]
  simp [Token.isLeftOpen, Token.shifted]

/-- The first quotation goes on over two lines, the second one is never closed. -/
theorem linesAgree_scan_quotations :
    LinesAgree .quotations ((Vocabulary.quotations.scan "'a\n''b' +\n'c").map (·.shifted 0))
      (Vocabulary.quotations.lineTokens 0 .neutral (splitAtEach '\n' "'a\n''b' +\n'c".toList))
      (Vocabulary.quotations.stateThrough .neutral (splitAtEach '\n' "'a\n''b' +\n'c".toList)) ∧
    Vocabulary.quotations.stateThrough .neutral (splitAtEach '\n' "'a\n''b' +\n'c".toList) =
      .inSingle ∧
    ∃ t ∈ Vocabulary.quotations.scan "'a\n''b' +\n'c", t.isLeftOpen = true := by
  have hstring : (Vocabulary.quotations.ofKind? .string).isSome := by decide +kernel
  have hstate : Vocabulary.quotations.stateThrough .neutral
      (splitAtEach '\n' "'a\n''b' +\n'c".toList) = .inSingle := by decide +kernel
  obtain ⟨hagree, hopen⟩ := linesAgree_scan .quotations hstring "'a\n''b' +\n'c"
  exact ⟨hagree, hstate, hopen.mp (by rw [hstate]; decide)⟩

end FourGL
