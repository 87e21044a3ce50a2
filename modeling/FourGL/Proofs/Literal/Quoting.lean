import FourGL.Proofs.Lexeme.Bodies
import FourGL.Proofs.Lexeme.Heads
import FourGL.Proofs.Token.Offsets

/-!
# Quoting a text

Every text can be written as a quotation of each form: between openers and closers that are written twice
inside, or with escapes for what an escaped quotation cannot hold.

**Theorem (`Quoting.reads_back`).** A written text is read as one closed quotation that stands for the
text, whatever follows; behind a quotation that may span lines no further closer may follow.

The extent and the value of a quotation are found by scans of their own. Both go over units, and each
character of the text is written as units, so the two scans are followed character by character.
-/

namespace FourGL

open Text

variable {q : Quoting} {c : Char} {s rest body : List Char} {closed : Bool} {v : Vocabulary}
  {t : TerminalId}

/-! ## Written texts -/

/-- A character between quotes, with the quote itself written twice. -/
def doubledForm (quote c : Char) : List Char := if c = quote then [quote, quote] else [c]

/-- A character between double quotes, with an escape for a quote, a backslash and a line break. -/
def escapedForm : Char → List Char
  | '"' => ['\\', '"']
  | '\\' => ['\\', '\\']
  | '\n' => ['\\', 'n']
  | '\r' => ['\\', 'r']
  | '\u0085' => ['\\', 'u', '0', '0', '8', '5']
  | '\u2028' => ['\\', 'u', '2', '0', '2', '8']
  | '\u2029' => ['\\', 'u', '2', '0', '2', '9']
  | c => [c]

/-- The text between the opener and the closer. -/
def Quoting.writtenBody : Quoting → List Char → List Char
  | .escaped, s => s.flatMap escapedForm
  | q, s => s.flatMap (doubledForm q.closer)

/-- The text as a quotation. -/
def Quoting.written (q : Quoting) (s : List Char) : List Char :=
  q.opener ++ (q.writtenBody s ++ [q.closer])

/-! ## Quotes written twice -/

theorem doubled_flatMap (quote : Char) (s : List Char) :
    Doubled quote (s.flatMap (doubledForm quote)) := by
  induction s with
  | nil => exact .nil
  | cons c s ih =>
    rw [List.flatMap_cons, doubledForm]
    by_cases hc : c = quote
    · rw [if_pos hc]
      exact .pair ih
    · rw [if_neg hc]
      exact .plain hc ih

theorem undouble_flatMap (quote : Char) (s : List Char) :
    undouble quote (s.flatMap (doubledForm quote)) = s := by
  induction s with
  | nil => rfl
  | cons c s ih =>
    rw [List.flatMap_cons, doubledForm]
    by_cases hc : c = quote
    · rw [if_pos hc, List.cons_append, List.cons_append, List.nil_append, undouble_pair, ih, hc]
    · rw [if_neg hc, List.cons_append, List.nil_append, undouble_plain hc, ih]

/-! ## Escapes -/

theorem Escaped.append (h : Escaped body) (hrest : Escaped rest) : Escaped (body ++ rest) := by
  induction h with
  | nil => exact hrest
  | plain hquote hescape hbreak _ ih => exact .plain hquote hescape hbreak ih
  | escape hbreak _ ih => exact .escape hbreak ih

theorem Escaped.of_all (h : (s.all fun c => c != '"' && c != '\\' && !isLineBreak c) = true) :
    Escaped s := by
  induction s with
  | nil => exact .nil
  | cons c s ih =>
    simp only [List.all_cons, Bool.and_eq_true, bne_iff_ne, Bool.not_eq_true'] at h
    obtain ⟨⟨⟨hquote, hescape⟩, hbreak⟩, hrest⟩ := h
    exact .plain hquote hescape hbreak (ih hrest)

/-- A character is written with a backslash, or stands for itself. -/
theorem escapedForm_cases (c : Char) :
    c ∈ ['"', '\\', '\n', '\r', '\u0085', '\u2028', '\u2029'] ∨
      escapedForm c = [c] ∧ c ≠ '"' ∧ c ≠ '\\' ∧ isLineBreak c = false := by
  by_cases hc : c ∈ ['"', '\\', '\n', '\r', '\u0085', '\u2028', '\u2029']
  · exact Or.inl hc
  · refine Or.inr ?_
    simp only [List.mem_cons, List.not_mem_nil, or_false, not_or] at hc
    obtain ⟨hquote, hescape, hfeed, hreturn, hnext, hline, hparagraph⟩ := hc
    refine ⟨?_, hquote, hescape, ?_⟩
    · unfold escapedForm
      split <;> first | rfl | contradiction
    · simp [isLineBreak, hfeed, hreturn, hnext, hline, hparagraph]

theorem escaped_escapedForm (c : Char) : Escaped (escapedForm c) := by
  rcases escapedForm_cases c with hc | ⟨hform, hquote, hescape, hbreak⟩
  · simp only [List.mem_cons, List.not_mem_nil, or_false] at hc
    rcases hc with rfl | rfl | rfl | rfl | rfl | rfl | rfl
    · exact .escape (by decide) .nil
    · exact .escape (by decide) .nil
    · exact .escape (by decide) .nil
    · exact .escape (by decide) .nil
    · exact .escape (by decide) (.of_all (by decide))
    · exact .escape (by decide) (.of_all (by decide))
    · exact .escape (by decide) (.of_all (by decide))
  · rw [hform]
    exact .plain hquote hescape hbreak .nil

theorem escaped_flatMap (s : List Char) : Escaped (s.flatMap escapedForm) := by
  induction s with
  | nil => exact .nil
  | cons c s ih =>
    rw [List.flatMap_cons]
    exact (escaped_escapedForm c).append ih

theorem unescape_eq (n : Nat) (cs : List Char) : unescape n cs = unescape 0 (cs.drop n) := by
  induction cs generalizing n with
  | nil => rw [List.drop_nil]; rfl
  | cons c cs ih =>
    cases n with
    | zero => rfl
    | succ n => rw [unescape, ih, List.drop_succ_cons]

/-- An escape that names a character is read as the character. -/
theorem unescape_escape {e : List Char} (h : escapedChar (e ++ rest) = .ok (c, e.length)) :
    unescape 0 ('\\' :: (e ++ rest)) = (c :: ·) <$> unescape 0 rest := by
  have hitem : unescape 0 ('\\' :: (e ++ rest)) = (c :: ·) <$> unescape e.length (e ++ rest) := by
    rw [unescape, if_pos (by decide), h]
    rfl
  rw [hitem, unescape_eq, List.drop_left]

theorem unescape_plain (h : c ≠ '\\') (rest : List Char) :
    unescape 0 (c :: rest) = (c :: ·) <$> unescape 0 rest := by
  rw [unescape, if_neg (by simpa using h)]
  rfl

theorem unescape_escapedForm (c : Char) (rest : List Char) :
    unescape 0 (escapedForm c ++ rest) = (c :: ·) <$> unescape 0 rest := by
  rcases escapedForm_cases c with hc | ⟨hform, _, hescape, _⟩
  · simp only [List.mem_cons, List.not_mem_nil, or_false] at hc
    rcases hc with rfl | rfl | rfl | rfl | rfl | rfl | rfl
    · exact unescape_escape (e := ['"']) rfl
    · exact unescape_escape (e := ['\\']) rfl
    · exact unescape_escape (e := ['n']) rfl
    · exact unescape_escape (e := ['r']) rfl
    · exact unescape_escape (e := ['u', '0', '0', '8', '5']) rfl
    · exact unescape_escape (e := ['u', '2', '0', '2', '8']) rfl
    · exact unescape_escape (e := ['u', '2', '0', '2', '9']) rfl
  · rw [hform]
    exact unescape_plain hescape rest

theorem unescape_flatMap (s : List Char) : unescape 0 (s.flatMap escapedForm) = .ok s := by
  induction s with
  | nil => rfl
  | cons c s ih =>
    rw [List.flatMap_cons, unescape_escapedForm, ih]
    rfl

/-! ## Extent and value -/

theorem Quoting.units_writtenBody (q : Quoting) (s : List Char) : q.Units (q.writtenBody s) := by
  cases q with
  | escaped => exact escaped_flatMap s
  | verbatim => exact doubled_flatMap _ s
  | single => exact doubled_flatMap _ s

/-- The opener of an escaped quotation begins nothing else. -/
theorem Headed.of_doubleQuote {m : Match} (h : Headed ('"' :: s) m) :
    m = ⟨.quoted .escaped (escapedBody s).closed, 1 + (escapedBody s).length⟩ := by
  rcases h.of_separator (by decide) with ⟨hblank, _⟩ | ⟨q, rest, h, hm⟩ | ⟨op, h, _⟩
  · exact absurd hblank (by decide)
  · cases q <;> cases h
    exact hm
  · cases op <;> exact absurd h (by decide)

/-- A quotation is told by its opener, and reaches as far as its body. -/
theorem Quoting.Reads.head_eq (h : q.Reads body closed rest) :
    Lexeme.head (q.opener ++ body ++ rest) = ⟨some (.quoted q closed), q.opener ++ body⟩ := by
  rw [List.append_assoc]
  by_cases hq : q.spansLines = true
  · rw [Lexeme.head_quoted hq, h.body_eq, List.take_left]
  · obtain rfl : q = .escaped := by cases q <;> first | rfl | exact absurd rfl hq
    have hquoted : Headed ('"' :: (body ++ rest)) _ := Headed.quoted .escaped (body ++ rest) rfl
    obtain ⟨m, hm⟩ := hquoted.exists_longestMatch
    have hbody : escapedBody (body ++ rest) = ⟨body.length, closed⟩ := h.body_eq
    have hheaded := (headed_longestMatch hm).of_doubleQuote
    rw [hbody] at hheaded
    have htake : ('"' :: (body ++ rest)).take (1 + body.length) = '"' :: body := by
      rw [Nat.add_comm, List.take_succ_cons, List.take_left]
    show Lexeme.head ('"' :: (body ++ rest)) = ⟨_, '"' :: body⟩
    rw [Lexeme.head_of_longestMatch hm, hheaded, htake]

theorem Quoting.Reads.split_eq (h : q.Reads body closed rest) :
    Lexeme.split (q.opener ++ body ++ rest) =
      ⟨some (.quoted q closed), q.opener ++ body⟩ :: Lexeme.split rest :=
  Lexeme.split_of_head h.head_eq (q.opener_append_ne_nil body)

theorem Doubled.doubledValue_written (quote : Char) (s : List Char) :
    doubledValue quote (s.flatMap (doubledForm quote) ++ [quote]) = String.ofList s := by
  rw [(doubled_flatMap quote s).doubledValue_close (by simp), undouble_flatMap]

theorem Escaped.inner_close (h : Escaped body) :
    (escapedBody (body ++ ['"'])).inner (body ++ ['"']) = body := by
  rw [h.escapedBody_append, escapedBody_close, BodyExtent.inner, BodyExtent.after, if_pos rfl,
    Nat.add_sub_cancel, List.take_left]

theorem Quoting.quotedValue_written (q : Quoting) (s : List Char) :
    quotedValue (q.written s) = .ok (String.ofList s) := by
  cases q with
  | escaped =>
    have hinner := (escaped_flatMap s).inner_close
    show String.ofList <$> unescape 0 ((escapedBody (_ ++ ['"'])).inner (_ ++ ['"'])) = _
    rw [Quoting.writtenBody, hinner, unescape_flatMap]
    rfl
  | verbatim => exact congrArg Except.ok (Doubled.doubledValue_written '"' s)
  | single => exact congrArg Except.ok (Doubled.doubledValue_written '\'' s)

/-! ## Reading back -/

/-- The token that a text is quoted as. -/
def Quoting.writtenToken (q : Quoting) (v : Vocabulary) (t : TerminalId) (place : Place)
    (s : List Char) : Token :=
  { Token.plain v t place (q.written s) with value := some (.text (String.ofList s)) }

/-- In front of the rest, the written text is one closed quotation that stands for the text. -/
structure Quoting.ReadsBack (q : Quoting) (s rest : List Char) : Prop where
  /-- It is the first lexeme, and the others are those of the rest. -/
  split : Lexeme.split (q.written s ++ rest) =
    ⟨some (.quoted q true), q.written s⟩ :: Lexeme.split rest
  value : quotedValue (q.written s) = .ok (String.ofList s)
  /-- Where the grammar has strings, it is one complete token without a fault, and the others are
  those of the rest. -/
  scanned : ∀ (v : Vocabulary) (t : TerminalId) (extent : Extent) (place : Place),
    v.ofKind? .string = some t → v.scanFrom extent place (q.written s ++ rest) =
      q.writtenToken v t place s :: v.scanFrom extent (place.advance (q.written s)) rest

theorem Quoting.tokenOf_written (ht : v.ofKind? .string = some t) (extent : Extent) (place : Place)
    (q : Quoting) (s : List Char) :
    v.tokenOf extent place ⟨some (.quoted q true), q.written s⟩ =
      some (q.writtenToken v t place s) := by
  show some (v.quotedToken extent q true place (q.written s)) = _
  rw [Vocabulary.quotedToken, Bool.true_or, if_pos rfl, Vocabulary.literalToken, ht,
    q.quotedValue_written]
  rfl

theorem Quoting.split_written (q : Quoting) (s : List Char)
    (hrest : q.spansLines = true → rest.head? ≠ some q.closer) :
    Lexeme.split (q.written s ++ rest) =
      ⟨some (.quoted q true), q.written s⟩ :: Lexeme.split rest :=
  (Reads.close (q.units_writtenBody s) hrest).split_eq

/-- **Quoting.** Every text is read back from each of its quotations. -/
theorem Quoting.reads_back (q : Quoting) (s rest : List Char)
    (hrest : q.spansLines = true → rest.head? ≠ some q.closer) : q.ReadsBack s rest := by
  have hsplit := q.split_written s hrest
  refine ⟨hsplit, q.quotedValue_written s, fun v t extent place ht => ?_⟩
  rw [Vocabulary.scanFrom, hsplit, Vocabulary.tokensFrom, q.tokenOf_written ht, Option.toList_some,
    List.singleton_append, Token.joinUnexpected_cons rfl]
  rfl

/-- Quotes at both ends, a line break and a backslash, in front of a letter and of a further quote. -/
theorem Quoting.reads_back_edges :
    Quoting.single.ReadsBack ['\'', 'é', '\n', '\''] ['a'] ∧
      Quoting.verbatim.ReadsBack ['"', '\\'] [] ∧ Quoting.escaped.ReadsBack ['"', '\\'] ['"'] :=
  ⟨Quoting.reads_back _ _ _ (by decide), Quoting.reads_back _ _ _ (by decide),
    Quoting.reads_back _ _ _ (by decide)⟩

end FourGL
