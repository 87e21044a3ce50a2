import FourGL.Proofs.Token.Offsets

/-!
# A line read alone and in a text

**Theorem (`exists_readsAlike`).** A line gives the same tokens alone as at the head of a text, up to its
end or up to a quotation that it leaves open.

The proof goes lexeme by lexeme. A run of blanks may go on after the line, so blanks are left out one
character at a time; they give no tokens.
-/

namespace FourGL

/-- The token stands for the text at the place. -/
structure Token.Covers (t : Token) (place : Place) (cs : List Char) : Prop where
  span : t.span = ⟨place.offset, place.offset + utf8Length cs⟩
  text : t.text = String.ofList cs

/-- The token is a quotation that could span lines and is left open. -/
def Token.isLeftOpen (t : Token) : Bool :=
  t.fault == some .unterminatedString && t.text.toList.head? != some '"'

namespace Vocabulary

variable {v : Vocabulary} {e : Extent} {o o₁ o₂ : Nat} {c : Char} {tail line rest rest₁ rest₂ : List Char}
  {t : Token} {ts us : List Token} {l : Lexeme} {q : Quoting}

/-! ## Lexeme by lexeme -/

theorem rawTokens_of_split (h : Lexeme.split line = l :: Lexeme.split rest) :
    v.rawTokens e o line =
      (v.tokenOf e (.ofOffset o) l).toList ++ v.rawTokens e (o + utf8Length l.text) rest := by
  rw [rawTokens, h]
  rfl

theorem rawTokens_dropBlanks (v : Vocabulary) (e : Extent) (o : Nat) (cs : List Char) :
    v.rawTokens e o cs =
      v.rawTokens e (o + utf8Length (cs.takeWhile isBlank)) (cs.dropWhile isBlank) := by
  cases cs with
  | nil => rfl
  | cons c cs =>
    by_cases hc : isBlank c = true
    · rw [rawTokens_of_split (Lexeme.split_blank hc cs)]
      rfl
    · simp [hc]

theorem rawTokens_blank (hc : isBlank c = true) (cs : List Char) :
    v.rawTokens e o (c :: cs) = v.rawTokens e (o + c.utf8Size) cs := by
  rw [rawTokens_dropBlanks v e o, rawTokens_dropBlanks v e (o + c.utf8Size)]
  simp [hc, Nat.add_assoc]

theorem stateOf_of_split (h : Lexeme.split line = l :: Lexeme.split rest)
    (hkind : ∀ q, q.spansLines = true → l.kind ≠ some (.quoted q false)) :
    v.stateOf line = v.stateOf rest := by
  rw [stateOf, h, stateAfter_cons hkind, stateOf]

theorem stateOf_dropBlanks (v : Vocabulary) (cs : List Char) :
    v.stateOf cs = v.stateOf (cs.dropWhile isBlank) := by
  cases cs with
  | nil => rfl
  | cons c cs =>
    by_cases hc : isBlank c = true
    · exact stateOf_of_split (Lexeme.split_blank hc cs) fun _ _ h => by cases h
    · simp [hc]

theorem stateOf_blank (hc : isBlank c = true) (cs : List Char) :
    v.stateOf (c :: cs) = v.stateOf cs := by
  rw [stateOf_dropBlanks v (c :: cs), stateOf_dropBlanks v cs, List.dropWhile_cons_of_pos hc]

/-! ## The same tokens -/

/-- Up to `rest`, a line gives the tokens `ts` alone and with `tail` after it. -/
structure ReadsAlike (v : Vocabulary) (tail : List Char) (ts : List Token) (o : Nat)
    (line : List Char) (o' : Nat) (rest : List Char) : Prop where
  suffix : rest <:+ line
  offset : o + utf8Length line = o' + utf8Length rest
  inText : v.rawTokens .whole o (line ++ tail) = ts ++ v.rawTokens .whole o' (rest ++ tail)
  alone : v.rawTokens .line o line = ts ++ v.rawTokens .line o' rest
  state : v.stateOf line = v.stateOf rest

namespace ReadsAlike

theorem refl (v : Vocabulary) (tail : List Char) (o : Nat) (line : List Char) :
    ReadsAlike v tail [] o line o line :=
  ⟨List.suffix_rfl, rfl, rfl, rfl, rfl⟩

theorem trans (h : ReadsAlike v tail ts o line o₁ rest₁)
    (h' : ReadsAlike v tail us o₁ rest₁ o₂ rest₂) :
    ReadsAlike v tail (ts ++ us) o line o₂ rest₂ where
  suffix := h'.suffix.trans h.suffix
  offset := h.offset.trans h'.offset
  inText := by rw [h.inText, h'.inText, List.append_assoc]
  alone := by rw [h.alone, h'.alone, List.append_assoc]
  state := h.state.trans h'.state

/-- A blank. -/
theorem blank (hc : isBlank c = true) (tail line : List Char) :
    ReadsAlike v tail [] o (c :: line) (o + c.utf8Size) line where
  suffix := List.suffix_cons c line
  offset := by rw [utf8Length_cons, Nat.add_assoc]
  inText := rawTokens_blank hc _
  alone := rawTokens_blank hc _
  state := stateOf_blank hc _

/-- An extent matters only to an open quotation that may span lines. -/
theorem tokenOf_extent (hkind : ∀ q, q.spansLines = true → l.kind ≠ some (.quoted q false))
    (place : Place) : v.tokenOf .whole place l = v.tokenOf .line place l := by
  unfold tokenOf
  split
  case h_5 q closed hquoted =>
    have hopen : (closed || mayStayOpen .whole q) = (closed || mayStayOpen .line q) := by
      cases closed with
      | true => rfl
      | false =>
        cases hspans : q.spansLines with
        | true => exact absurd hquoted (hkind q hspans)
        | false => simp [mayStayOpen, hspans]
    simp only [quotedToken, hopen]
  all_goals rfl

/-- A lexeme that is cut from the line and from the text. -/
theorem lexeme (htext : line = l.text ++ rest)
    (hinText : Lexeme.split (line ++ tail) = l :: Lexeme.split (rest ++ tail))
    (halone : Lexeme.split line = l :: Lexeme.split rest)
    (hkind : ∀ q, q.spansLines = true → l.kind ≠ some (.quoted q false)) :
    ReadsAlike v tail (v.tokenOf .line (.ofOffset o) l).toList o line (o + utf8Length l.text) rest where
  suffix := ⟨l.text, htext.symm⟩
  offset := by rw [htext, utf8Length_append, Nat.add_assoc]
  inText := by rw [rawTokens_of_split hinText, tokenOf_extent hkind]
  alone := rawTokens_of_split halone
  state := stateOf_of_split halone hkind

/-- A quotation that ends on the line. -/
theorem quotation {inner : List Char} (h : EndsLine tail) (hq : q.spansLines = true)
    (hinner : Doubled q.closer inner) (hrest : rest.head? ≠ some q.closer) :
    ∃ ts o', ReadsAlike v tail ts o (q.opener ++ (inner ++ q.closer :: rest)) o' rest := by
  have hfeed : q.closer ≠ '\n' := by cases q <;> decide
  have hinText := Lexeme.split_closed hq hinner (h.head?_append_ne hfeed hrest)
  refine ⟨_, _, .lexeme ?_ ?_ (Lexeme.split_closed hq hinner hrest) ?_⟩
  · simp
  · simpa using hinText
  · rintro _ _ ⟨⟩

/-- Any lexeme but a blank and a quotation that may span lines. -/
theorem other (h : EndsLine tail) (hblank : isBlank c = false)
    (hq : ∀ q : Quoting, q.spansLines = true → ¬ q.opener <+: c :: line) :
    ∃ ts o' rest, ReadsAlike v tail ts o (c :: line) o' rest ∧ rest.length < (c :: line).length := by
  obtain ⟨rest, htext, hlt, halone⟩ := Lexeme.exists_split (List.cons_ne_nil c line)
  have hne : (Lexeme.head (c :: line)).text ≠ [] := by
    intro hnil
    rw [hnil, List.nil_append] at htext
    rw [← htext] at hlt
    exact absurd hlt (Nat.lt_irrefl _)
  have happend : c :: line ++ tail = (Lexeme.head (c :: line)).text ++ (rest ++ tail) := by
    rw [← List.append_assoc, ← htext]
  have hinText := Lexeme.split_of_head (happend ▸ Lexeme.head_append hblank hq h) hne
  rw [← happend] at hinText
  refine ⟨_, _, rest, .lexeme htext hinText halone ?_, hlt⟩
  intro q hspans hkind
  have hlocal := Lexeme.isLocal_head hblank hq hkind
  simp [LexicalClass.isLocal, hspans] at hlocal

end ReadsAlike

/-- The text is an open quotation that may span lines. -/
def IsOpen (cs : List Char) : Prop :=
  ∃ q : Quoting, ∃ body, q.spansLines = true ∧ Doubled q.closer body ∧ cs = q.opener ++ body

/-- One lexeme or one blank, unless a quotation is open. -/
theorem ReadsAlike.exists_step (v : Vocabulary) (h : EndsLine tail) (o : Nat) (hline : line ≠ []) :
    IsOpen line ∨
    ∃ ts o' rest, ReadsAlike v tail ts o line o' rest ∧ rest.length < line.length := by
  by_cases hopener : ∃ q : Quoting, q.spansLines = true ∧ q.opener <+: line
  · obtain ⟨q, hq, body, rfl⟩ := hopener
    rcases doubledBody_cases q.closer body with hopen | ⟨inner, rest, rfl, hinner, hrest⟩
    · exact Or.inl ⟨q, body, hq, hopen, rfl⟩
    · obtain ⟨ts, o', hread⟩ := ReadsAlike.quotation (v := v) (o := o) h hq hinner hrest
      refine Or.inr ⟨ts, o', rest, hread, ?_⟩
      simp only [List.length_append, List.length_cons]
      omega
  · refine Or.inr ?_
    cases line with
    | nil => exact absurd rfl hline
    | cons c line =>
      by_cases hc : isBlank c = true
      · exact ⟨_, _, line, .blank hc tail line, Nat.lt_succ_self _⟩
      · exact ReadsAlike.other h (Bool.eq_false_iff.mpr hc)
          fun q hspans hstarts => hopener ⟨q, hspans, hstarts⟩

/-- **Reading a line.** Alone and at the head of a text, a line gives the same tokens up to its end, or up
to a quotation that it leaves open. -/
theorem exists_readsAlike (v : Vocabulary) (h : EndsLine tail) (o : Nat) (line : List Char) :
    ∃ ts o' rest, ReadsAlike v tail ts o line o' rest ∧ (rest = [] ∨ IsOpen rest) := by
  induction hlength : line.length using Nat.strong_induction_on generalizing o line with
  | _ length ih =>
    by_cases hline : line = []
    · exact ⟨[], o, line, .refl v tail o line, Or.inl hline⟩
    · rcases ReadsAlike.exists_step v h o hline with hopen | ⟨ts, o', rest, hread, hlt⟩
      · exact ⟨[], o, line, .refl v tail o line, Or.inr hopen⟩
      · obtain ⟨us, o'', rest', hread', hrest'⟩ := ih rest.length (hlength ▸ hlt) o' rest rfl
        exact ⟨ts ++ us, o'', rest', hread.trans hread', hrest'⟩

/-! ## The tokens of a line -/

theorem exists_of_mem_rawTokens (h : t ∈ v.rawTokens e o line) : ∃ pre rest, line = pre ++ rest ∧
    rest ≠ [] ∧ t ∈ v.tokenOf e (.ofOffset (o + utf8Length pre)) (Lexeme.head rest) := by
  induction hlength : line.length using Nat.strong_induction_on generalizing o line with
  | _ length ih =>
    by_cases hline : line = []
    · subst hline
      cases h
    · obtain ⟨rest, htext, hlt, hsplit⟩ := Lexeme.exists_split hline
      rw [rawTokens_of_split hsplit, List.mem_append, Option.mem_toList] at h
      rcases h with hhead | hrest
      · exact ⟨[], line, rfl, hline, hhead⟩
      · obtain ⟨pre, rest', hpre, hne, hmem⟩ := ih rest.length (hlength ▸ hlt) hrest rfl
        refine ⟨(Lexeme.head line).text ++ pre, rest', ?_, hne, ?_⟩
        · rw [List.append_assoc, ← hpre, ← htext]
        · rwa [utf8Length_append, ← Nat.add_assoc]

theorem exists_plain_literalToken (kind : TerminalKind) (missing : LexicalFault)
    (value : Except LiteralError Value) (place : Place) (cs : List Char) : ∃ term value' fault,
    v.literalToken kind missing value place cs =
      { Token.plain v term place cs with value := value', fault := fault } := by
  unfold literalToken
  split
  · exact ⟨_, _, _, rfl⟩
  · split <;> exact ⟨_, _, _, rfl⟩

/-- The token of a lexeme is a plain token at its place, but for its value and its faults. -/
theorem exists_plain_of_mem_tokenOf {place : Place} (h : t ∈ v.tokenOf e place l) :
    ∃ term value incomplete fault, t = { Token.plain v term place l.text with
      value := value, incomplete := incomplete, fault := fault } := by
  unfold tokenOf at h
  split at h
  · cases h
  · cases h
    unfold commentToken
    split <;> exact ⟨_, _, _, _, rfl⟩
  · cases h
    unfold wordToken
    split
    · exact ⟨_, _, _, _, rfl⟩
    · obtain ⟨term, value, fault, htoken⟩ := exists_plain_literalToken (v := v) .identifier
        .noIdentifiers (.text <$> wordValue l.text) place l.text
      exact ⟨_, _, _, _, htoken⟩
  · cases h
    obtain ⟨term, value, fault, htoken⟩ := exists_plain_literalToken (v := v) .number .noNumbers
      (numberValue l.text) place l.text
    exact ⟨_, _, _, _, htoken⟩
  · cases h
    unfold quotedToken
    split
    · obtain ⟨term, value, fault, htoken⟩ := exists_plain_literalToken (v := v) .string .noStrings
        (.text <$> quotedValue l.text) place l.text
      rw [htoken]
      exact ⟨_, _, _, _, rfl⟩
    · exact ⟨_, _, _, _, rfl⟩
  · cases h
    unfold operatorToken
    split <;> exact ⟨_, _, _, _, rfl⟩
  · cases h
    exact ⟨_, _, _, _, rfl⟩

/-- The token of a lexeme stands for its text. -/
theorem covers_of_mem_tokenOf {place : Place} (h : t ∈ v.tokenOf e place l) :
    t.Covers place l.text := by
  obtain ⟨_, _, _, _, rfl⟩ := exists_plain_of_mem_tokenOf h
  exact ⟨rfl, rfl⟩

theorem le_start_of_mem_rawTokens (h : t ∈ v.rawTokens e o line) : o ≤ t.span.start := by
  obtain ⟨pre, rest, _, _, hmem⟩ := exists_of_mem_rawTokens h
  rw [(covers_of_mem_tokenOf hmem).span]
  exact Nat.le_add_right _ _

theorem stop_le_of_mem_rawTokens (h : t ∈ v.rawTokens e o line) :
    t.span.stop ≤ o + utf8Length line := by
  obtain ⟨pre, rest, rfl, hne, hmem⟩ := exists_of_mem_rawTokens h
  obtain ⟨rest', htext, _⟩ := Lexeme.exists_split hne
  have hlength := congrArg utf8Length htext
  rw [utf8Length_append] at hlength
  rw [(covers_of_mem_tokenOf hmem).span, utf8Length_append]
  show o + utf8Length pre + _ ≤ _
  omega

theorem mem_of_mem_rawTokens (h : t ∈ v.rawTokens e o line) (hc : c ∈ t.text.toList) : c ∈ line := by
  obtain ⟨pre, rest, rfl, hne, hmem⟩ := exists_of_mem_rawTokens h
  obtain ⟨rest', htext, _⟩ := Lexeme.exists_split hne
  rw [(covers_of_mem_tokenOf hmem).text, String.toList_ofList] at hc
  rw [htext]
  exact List.mem_append_right _ (List.mem_append_left _ hc)

theorem fault_literalToken_ne {kind : TerminalKind} {missing fault : LexicalFault}
    {value : Except LiteralError Value} {place : Place} {cs : List Char} (hmissing : missing ≠ fault)
    (hbad : ∀ e, .badLiteral e ≠ fault) :
    (v.literalToken kind missing value place cs).fault ≠ some fault := by
  unfold literalToken
  split
  · exact fun heq => hmissing (Option.some.inj heq)
  · split
    · exact fun heq => by cases heq
    · exact fun heq => hbad _ (Option.some.inj heq)

/-- Only a quotation that stays open is unterminated. -/
theorem kind_of_unterminated {place : Place} (h : t ∈ v.tokenOf e place l)
    (hfault : t.fault = some .unterminatedString) :
    ∃ q, l.kind = some (.quoted q false) ∧ mayStayOpen e q = false := by
  unfold tokenOf at h
  split at h
  · cases h
  · cases h
    unfold commentToken at hfault
    split at hfault <;> cases hfault
  · cases h
    unfold wordToken at hfault
    split at hfault
    · cases hfault
    · exact absurd hfault (fault_literalToken_ne (by decide) (fun _ => by simp))
  · cases h
    exact absurd hfault (fault_literalToken_ne (by decide) (fun _ => by simp))
  · next q closed hkind =>
    cases h
    unfold quotedToken at hfault
    split at hfault
    · exact absurd hfault (fault_literalToken_ne (by decide) (fun _ => by simp))
    · next hopen =>
      cases closed with
      | true => exact absurd rfl hopen
      | false => exact ⟨q, hkind, Bool.eq_false_iff.mpr hopen⟩
  · cases h
    unfold operatorToken at hfault
    split at hfault <;> cases hfault
  · cases h
    cases hfault

/-- On a line, only an escaped quotation is unterminated. -/
theorem isLeftOpen_of_mem_rawTokens (h : t ∈ v.rawTokens .line o line) : t.isLeftOpen = false := by
  by_contra hopen
  obtain ⟨hfault, hhead⟩ : t.fault = some .unterminatedString ∧ t.text.toList.head? ≠ some '"' := by
    simpa [Token.isLeftOpen] using hopen
  obtain ⟨pre, rest, _, _, hmem⟩ := exists_of_mem_rawTokens h
  obtain ⟨q, hkind, hstay⟩ := kind_of_unterminated hmem hfault
  rw [(covers_of_mem_tokenOf hmem).text, String.toList_ofList] at hhead
  obtain ⟨text, htext⟩ := Lexeme.opener_prefix_head hkind
  cases q with
  | escaped => exact hhead (by rw [← htext]; rfl)
  | verbatim => cases hstay
  | single => cases hstay

end Vocabulary

end FourGL
