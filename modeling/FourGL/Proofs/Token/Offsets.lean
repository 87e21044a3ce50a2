import FourGL.Proofs.Lexeme.Heads
import FourGL.Token.Scan

/-!
# Tokens by their offsets

Where a text stands in a longer one shows in the places of its tokens only. A `shifted` token stands
further on, and its line and column are left out. So the tokens of a text at an offset can be compared
with those of the text alone.

**Theorem (`map_shifted_scanFrom`).** The shifted tokens of a text are the tokens of the text at the
shifted offset.

The tokens of a text before unexpected characters are joined are its `rawTokens`; they follow the lexemes.
Joining acts on each side of a gap, or of a token that joins with nothing, alone.
-/

namespace FourGL

variable {v : Vocabulary} {e : Extent} {o k : Nat} {c : Char} {cs rest : List Char} {t u : Token}
  {ts us : List Token} {l : Lexeme} {ls : List Lexeme} {place : Place} {q : Quoting}

/-! ## Shifted tokens -/

/-- The token `k` bytes further on, its line and column left out. -/
def Token.shifted (k : Nat) (t : Token) : Token :=
  { t with span := ⟨k + t.span.start, k + t.span.stop⟩, line := 0, column := 0 }

/-- An offset as a place, its line and column left out. -/
def Place.ofOffset (o : Nat) : Place := ⟨o, 0, 0⟩

theorem Place.offset_advance (p : Place) (cs : List Char) :
    (p.advance cs).offset = p.offset + utf8Length cs := by
  fun_induction Place.advance p cs with
  | case1 => rfl
  | case2 p cs ih =>
    have hfeeds : Char.utf8Size '\r' = 1 ∧ Char.utf8Size '\n' = 1 := by decide
    rw [ih, utf8Length_cons, utf8Length_cons, hfeeds.1, hfeeds.2]
    show p.offset + 2 + _ = _
    omega
  | case3 p c cs _ _ ih | case4 p c cs _ _ ih =>
    rw [ih, utf8Length_cons, ← Nat.add_assoc]
    rfl

theorem Token.shifted_plain (term : TerminalId) :
    (Token.plain v term place cs).shifted k = Token.plain v term (.ofOffset (k + place.offset)) cs := by
  simp [Token.shifted, Token.plain, Place.ofOffset, Nat.add_assoc]

theorem Token.shifted_faulty (fault : LexicalFault) :
    (Token.faulty v fault place cs).shifted k = Token.faulty v fault (.ofOffset (k + place.offset)) cs := by
  simp [Token.shifted, Token.faulty, Token.plain, Place.ofOffset, Nat.add_assoc]

namespace Vocabulary

theorem shifted_literalToken (kind : TerminalKind) (missing : LexicalFault)
    (value : Except LiteralError Value) : (v.literalToken kind missing value place cs).shifted k =
    v.literalToken kind missing value (.ofOffset (k + place.offset)) cs := by
  unfold literalToken
  split
  · exact Token.shifted_faulty _
  · split
    · simp [Token.shifted, Token.plain, Place.ofOffset, Nat.add_assoc]
    · exact Token.shifted_faulty _

theorem shifted_wordToken :
    (v.wordToken place cs).shifted k = v.wordToken (.ofOffset (k + place.offset)) cs := by
  unfold wordToken
  split
  · exact Token.shifted_plain _
  · exact shifted_literalToken _ _ _

theorem shifted_quotedToken (closed : Bool) : (v.quotedToken e q closed place cs).shifted k =
    v.quotedToken e q closed (.ofOffset (k + place.offset)) cs := by
  unfold quotedToken
  split
  · rw [← shifted_literalToken]
    rfl
  · rw [← Token.shifted_faulty]
    rfl

theorem shifted_commentToken :
    (v.commentToken place cs).shifted k = v.commentToken (.ofOffset (k + place.offset)) cs := by
  unfold commentToken
  split
  · exact Token.shifted_plain _
  · exact Token.shifted_faulty _

theorem shifted_operatorToken :
    (v.operatorToken place cs).shifted k = v.operatorToken (.ofOffset (k + place.offset)) cs := by
  unfold operatorToken
  split
  · exact Token.shifted_plain _
  · exact Token.shifted_faulty _

theorem map_shifted_tokenOf (l : Lexeme) :
    (v.tokenOf e place l).map (·.shifted k) = v.tokenOf e (.ofOffset (k + place.offset)) l := by
  unfold tokenOf
  split
  · rfl
  · rw [Option.map_some, shifted_commentToken]
  · rw [Option.map_some, shifted_wordToken]
  · rw [Option.map_some, shifted_literalToken]
  · rw [Option.map_some, shifted_quotedToken]
  · rw [Option.map_some, shifted_operatorToken]
  · rw [Option.map_some, Token.shifted_faulty]

/-- The tokens of lexemes from an offset on, their lines and columns left out. -/
def tokensAt (v : Vocabulary) (e : Extent) (o : Nat) : List Lexeme → List Token
  | [] => []
  | l :: ls => (v.tokenOf e (.ofOffset o) l).toList ++ v.tokensAt e (o + utf8Length l.text) ls

theorem map_shifted_tokensFrom : (v.tokensFrom e place ls).map (·.shifted k) =
    v.tokensAt e (k + place.offset) ls := by
  induction ls generalizing place with
  | nil => rfl
  | cons l ls ih =>
    rw [tokensFrom, tokensAt, List.map_append, ih, Place.offset_advance, ← Option.toList_map,
      map_shifted_tokenOf, Nat.add_assoc]

end Vocabulary

/-! ## Joined tokens -/

namespace Token

theorem joins_shifted : (t.shifted k).joins (u.shifted k) = t.joins u := by
  have hspans : (k + t.span.stop == k + u.span.start) = (t.span.stop == u.span.start) := by
    rw [Bool.eq_iff_iff, beq_iff_eq, beq_iff_eq, Nat.add_left_cancel_iff]
  simp only [joins, isUnexpected, shifted, hspans]

theorem shifted_join : (t.join u).shifted k = (t.shifted k).join (u.shifted k) := by
  simp [join, shifted, Span.cover, Nat.add_min_add_left, Nat.add_max_add_left]

theorem map_shifted_joinUnexpected (ts : List Token) :
    (joinUnexpected ts).map (·.shifted k) = joinUnexpected (ts.map (·.shifted k)) := by
  induction ts with
  | nil => rfl
  | cons t ts ih =>
    rw [List.map_cons, joinUnexpected, joinUnexpected, ← ih]
    cases joinUnexpected ts with
    | nil => rfl
    | cons u us =>
      simp only [List.map_cons, joins_shifted]
      split_ifs
      · rw [List.map_cons, shifted_join]
      · rfl

/-- What holds of all tokens and is kept by joining holds of the joined tokens. -/
theorem forall_joinUnexpected {p : Token → Prop} (hjoin : ∀ t u, t.joins u = true → p t → p u → p (t.join u))
    (h : ∀ t ∈ ts, p t) : ∀ t ∈ joinUnexpected ts, p t := by
  induction ts with
  | nil => exact h
  | cons t ts ih =>
    have ht := h t List.mem_cons_self
    have hrest := ih fun u hu => h u (List.mem_cons_of_mem t hu)
    rw [joinUnexpected]
    cases hts : joinUnexpected ts with
    | nil => simpa using ht
    | cons u us =>
      rw [hts] at hrest
      have hu := hrest u List.mem_cons_self
      have hus := fun w hw => hrest w (List.mem_cons_of_mem u hw)
      simp only
      split_ifs with hjoins
      · exact List.forall_mem_cons.mpr ⟨hjoin t u hjoins ht hu, hus⟩
      · exact List.forall_mem_cons.mpr ⟨ht, hrest⟩

/-- Joining acts on both parts alone if nothing joins across. -/
theorem joinUnexpected_append
    (h : ∀ t ∈ ts, ∀ u ∈ (joinUnexpected us).head?, t.joins u = false) :
    joinUnexpected (ts ++ us) = joinUnexpected ts ++ joinUnexpected us := by
  induction ts with
  | nil => rfl
  | cons t ts ih =>
    have ht := h t List.mem_cons_self
    rw [List.cons_append, joinUnexpected, joinUnexpected,
      ih fun w hw => h w (List.mem_cons_of_mem t hw)]
    cases joinUnexpected ts with
    | cons w ws =>
      simp only [List.cons_append]
      split_ifs <;> rfl
    | nil =>
      cases hus : joinUnexpected us with
      | nil => rfl
      | cons u us' =>
        have hjoins : t.joins u = false := ht u (by rw [hus]; rfl)
        simp [hjoins]

theorem joinUnexpected_cons (h : t.isUnexpected = false) :
    joinUnexpected (t :: ts) = t :: joinUnexpected ts := by
  rw [joinUnexpected]
  cases joinUnexpected ts with
  | nil => rfl
  | cons u us => simp [joins, h]

/-- Joining acts on each side of a token that joins with nothing alone. -/
theorem joinUnexpected_append_cons (h : t.isUnexpected = false) :
    joinUnexpected (ts ++ t :: us) = joinUnexpected ts ++ t :: joinUnexpected us := by
  rw [joinUnexpected_append, joinUnexpected_cons h]
  intro w _ u hu
  rw [joinUnexpected_cons h] at hu
  cases hu
  simp [joins, h]

/-- Joining acts on each side of a gap alone. -/
theorem joinUnexpected_append_of_gap (hts : ∀ t ∈ ts, t.span.stop < k)
    (hus : ∀ u ∈ us, k ≤ u.span.start) :
    joinUnexpected (ts ++ us) = joinUnexpected ts ++ joinUnexpected us := by
  refine joinUnexpected_append fun t ht u hu => ?_
  have hstart : k ≤ u.span.start :=
    forall_joinUnexpected (p := fun u => k ≤ u.span.start) (fun _ _ _ ht hu => Nat.le_min.mpr ⟨ht, hu⟩)
      hus u (List.mem_of_mem_head? hu)
  have hstop := hts t ht
  have hne : t.span.stop ≠ u.span.start := by omega
  simp [joins, hne]

end Token

/-! ## The tokens of a text at an offset -/

namespace Vocabulary

/-- The tokens of a text at an offset before unexpected characters are joined. -/
def rawTokens (v : Vocabulary) (e : Extent) (o : Nat) (cs : List Char) : List Token :=
  v.tokensAt e o (Lexeme.split cs)

/-- The tokens of a text at an offset. -/
def tokensIn (v : Vocabulary) (e : Extent) (o : Nat) (cs : List Char) : List Token :=
  Token.joinUnexpected (v.rawTokens e o cs)

/-- Shifted tokens are those at the shifted offset. -/
theorem map_shifted_scanFrom (v : Vocabulary) (e : Extent) (place : Place) (cs : List Char) (k : Nat) :
    (v.scanFrom e place cs).map (·.shifted k) = v.tokensIn e (k + place.offset) cs := by
  rw [scanFrom, Token.map_shifted_joinUnexpected, map_shifted_tokensFrom]
  rfl

/-- The state in which a text leaves a line. -/
def stateOf (v : Vocabulary) (cs : List Char) : LineState := v.stateAfter (Lexeme.split cs)

@[simp] theorem rawTokens_nil : v.rawTokens e o [] = [] := rfl

theorem stateAfter_nil : v.stateAfter [] = .neutral := by
  unfold stateAfter
  split
  · next h _ => cases h
  · rfl

/-- Only an open quotation that may span lines leaves a line in another state than the rest does. -/
theorem stateAfter_cons (h : ∀ q, q.spansLines = true → l.kind ≠ some (.quoted q false)) :
    v.stateAfter (l :: ls) = v.stateAfter ls := by
  cases ls with
  | cons => simp only [stateAfter, List.getLast?_cons_cons]
  | nil =>
    rw [stateAfter_nil]
    unfold stateAfter
    split
    · next q _ hkind hterm =>
      cases q with
      | escaped => rfl
      | verbatim => exact absurd hkind (h .verbatim rfl)
      | single => exact absurd hkind (h .single rfl)
    · rfl

end Vocabulary

end FourGL
