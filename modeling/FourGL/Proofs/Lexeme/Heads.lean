import FourGL.Proofs.Lexeme.Locality
import FourGL.Proofs.Lexeme.Quotation

/-!
# What stands at the head of a text

**Theorem (`head_append`).** The lexeme at the head of a line is the same whatever follows the line,
unless it is a blank or a quotation that may span lines.

**Theorem (`head_blank`, `head_quoted`).** Those two are told by how they begin: a blank character begins
no other lexeme, and the opener of such a quotation begins none that is as long.

A lexeme is the longest of the matches at the head. `Headed` names these matches, so that what holds of
all of them holds of the lexeme.
-/

namespace FourGL

open Text

variable {c : Char} {cs line tail : List Char} {m n : Match} {q : Quoting}

/-! ## The longest match -/

theorem foldl_longer_mem (m : Match) (ms : List Match) : ms.foldl Match.longer m ∈ m :: ms := by
  induction ms generalizing m with
  | nil => exact List.mem_singleton_self m
  | cons n ms ih =>
    rw [List.foldl_cons]
    rcases List.mem_cons.mp (ih (m.longer n)) with heq | hmem
    · rw [heq, Match.longer]
      split_ifs <;> simp
    · simp [hmem]

theorem le_foldl_longer (m : Match) (ms : List Match) :
    ∀ n ∈ m :: ms, n.length ≤ (ms.foldl Match.longer m).length := by
  induction ms generalizing m with
  | nil => simp
  | cons k ms ih =>
    intro n hn
    rw [List.foldl_cons]
    have hlonger := ih (m.longer k) (m.longer k) List.mem_cons_self
    have hboth : m.length ≤ (m.longer k).length ∧ k.length ≤ (m.longer k).length := by
      unfold Match.longer
      split_ifs <;> omega
    rcases List.mem_cons.mp hn with rfl | hn
    · omega
    · rcases List.mem_cons.mp hn with rfl | hn
      · omega
      · exact ih _ n (List.mem_cons_of_mem _ hn)

theorem longestMatch_mem (h : longestMatch cs = some m) : m ∈ headMatches cs := by
  unfold longestMatch at h
  split at h
  · cases h
  · next hmatches =>
    cases h
    rw [hmatches]
    exact foldl_longer_mem _ _

theorem le_longestMatch (h : longestMatch cs = some m) (hn : n ∈ headMatches cs) :
    n.length ≤ m.length := by
  unfold longestMatch at h
  split at h
  · cases h
  · next hmatches =>
    cases h
    rw [hmatches] at hn
    exact le_foldl_longer _ _ n hn

theorem exists_longestMatch (h : m ∈ headMatches cs) : ∃ n, longestMatch cs = some n := by
  unfold longestMatch
  split
  · next hmatches =>
    rw [hmatches] at h
    cases h
  · exact ⟨_, rfl⟩

/-! ## The matches -/

/-- What matches at the head of a text, class by class. -/
inductive Headed (cs : List Char) : Match → Prop
  | blank : blankExtent cs ≠ 0 → Headed cs ⟨.blank, blankExtent cs⟩
  | comment : commentExtent cs ≠ 0 → Headed cs ⟨.comment, commentExtent cs⟩
  | word : wordExtent cs ≠ 0 → Headed cs ⟨.word, wordExtent cs⟩
  | number : numberExtent cs ≠ 0 → Headed cs ⟨.number, numberExtent cs⟩
  | quoted (q : Quoting) (rest : List Char) : cs = q.opener ++ rest →
    Headed cs ⟨.quoted q (q.body rest).closed, q.opener.length + (q.body rest).length⟩
  | operator (op : Operator) : op.text.toList <+: cs → Headed cs ⟨.operator op, op.text.length⟩

theorem plainMatch?_eq_some {kind : LexicalClass} {length : Nat} :
    plainMatch? kind length = some m ↔ length ≠ 0 ∧ ⟨kind, length⟩ = m := by
  unfold plainMatch?
  split_ifs with h <;> simp [h]

theorem Quoting.match?_opener (q : Quoting) (rest : List Char) : q.match? (q.opener ++ rest) =
    some ⟨.quoted q (q.body rest).closed, q.opener.length + (q.body rest).length⟩ := by
  have hstarts : q.opener.isPrefixOf (q.opener ++ rest) = true :=
    List.isPrefixOf_iff_prefix.mpr (List.prefix_append _ _)
  rw [Quoting.match?, if_pos hstarts, List.drop_left]

theorem Quoting.match?_eq_none (h : ¬ q.opener <+: cs) : q.match? cs = none := by
  rw [Quoting.match?, if_neg fun hstarts => h (List.isPrefixOf_iff_prefix.mp hstarts)]

theorem Quoting.headed_of_match? (h : q.match? cs = some m) : Headed cs m := by
  by_cases hstarts : q.opener <+: cs
  · obtain ⟨rest, rfl⟩ := hstarts
    rw [Quoting.match?_opener] at h
    cases h
    exact .quoted q rest rfl
  · rw [Quoting.match?_eq_none hstarts] at h
    cases h

theorem Operator.match?_eq_some {op : Operator} :
    op.match? cs = some m ↔ op.text.toList <+: cs ∧ ⟨.operator op, op.text.length⟩ = m := by
  unfold Operator.match?
  split_ifs with h
  · simp [List.isPrefixOf_iff_prefix.mp h]
  · have hstarts : ¬ op.text.toList <+: cs := fun hstarts => h (List.isPrefixOf_iff_prefix.mpr hstarts)
    simp [hstarts]

theorem mem_headMatches : m ∈ headMatches cs ↔ Headed cs m := by
  simp only [headMatches, List.mem_append, List.mem_filterMap, List.mem_cons, List.not_mem_nil,
    or_false, id_eq, exists_eq_or_imp, exists_eq_left, plainMatch?_eq_some, Operator.match?_eq_some]
  constructor
  · rintro ((⟨h, rfl⟩ | ⟨h, rfl⟩ | ⟨h, rfl⟩ | ⟨h, rfl⟩ | h | h | h) | ⟨op, _, h, rfl⟩)
    · exact .blank h
    · exact .comment h
    · exact .word h
    · exact .number h
    · exact Quoting.headed_of_match? h
    · exact Quoting.headed_of_match? h
    · exact Quoting.headed_of_match? h
    · exact .operator op h
  · intro h
    cases h with
    | blank h => simp [h]
    | comment h => simp [h]
    | word h => simp [h]
    | number h => simp [h]
    | quoted q rest h =>
      subst h
      have hmatch := q.match?_opener rest
      cases q <;> simp [hmatch]
    | operator op h => exact Or.inr ⟨op, op.mem_all, h, rfl⟩

theorem Headed.exists_longestMatch (h : Headed cs m) : ∃ n, longestMatch cs = some n :=
  FourGL.exists_longestMatch (mem_headMatches.mpr h)

theorem headed_longestMatch (h : longestMatch cs = some m) : Headed cs m :=
  mem_headMatches.mp (longestMatch_mem h)

theorem Headed.le_longestMatch (h : Headed cs n) (hm : longestMatch cs = some m) :
    n.length ≤ m.length :=
  FourGL.le_longestMatch hm (mem_headMatches.mpr h)

/-! ## Their lengths -/

theorem commentExtent_le_length (cs : List Char) : commentExtent cs ≤ cs.length := by
  unfold commentExtent
  split
  · have := leading_le_length (!isLineBreak ·) ‹List Char›
    rw [List.length_cons]
    omega
  · exact Nat.zero_le _

theorem Quoting.body_length_le (q : Quoting) (cs : List Char) : (q.body cs).length ≤ cs.length := by
  cases q with
  | escaped => exact escapedBody_length_le cs
  | verbatim => exact doubledBody_length_le _ cs
  | single => exact doubledBody_length_le _ cs

theorem Operator.length_text_pos (op : Operator) : 0 < op.text.length := by cases op <;> decide

theorem Headed.length_pos (h : Headed cs m) : 0 < m.length := by
  cases h with
  | blank h => exact Nat.pos_of_ne_zero h
  | comment h => exact Nat.pos_of_ne_zero h
  | word h => exact Nat.pos_of_ne_zero h
  | number h => exact Nat.pos_of_ne_zero h
  | quoted q rest =>
    have hopener : 0 < q.opener.length := by cases q <;> decide
    exact Nat.add_pos_left hopener _
  | operator op => exact op.length_text_pos

theorem Headed.length_le (h : Headed cs m) : m.length ≤ cs.length := by
  cases h with
  | blank => exact leading_le_length _ _
  | comment => exact commentExtent_le_length cs
  | word => exact wordExtent_le_length cs
  | number => exact numberExtent_le_length cs
  | quoted q rest h =>
    have := q.body_length_le rest
    rw [h, List.length_append]
    exact Nat.add_le_add_left this _
  | operator op h =>
    have hlength := h.length_le
    rwa [String.length_toList] at hlength

/-! ## Where nothing matches -/

theorem stuckExtent_cons (c d : Char) (cs : List Char) : stuckExtent (c :: d :: cs) =
    if c = '\\' ∧ d = 'u' then 2 + leading isHexDigit (cs.take 4)
    else if c = '\\' ∧ d = 'U' then 2 + leading isHexDigit (cs.take 8)
    else 1 := by
  unfold stuckExtent
  split
  · next h =>
    cases h
    simp
  · next h =>
    cases h
    simp
  · next hsmall hlarge =>
    rw [if_neg, if_neg]
    · rintro ⟨rfl, rfl⟩
      exact hlarge cs rfl
    · rintro ⟨rfl, rfl⟩
      exact hsmall cs rfl

theorem stuckExtent_pos (cs : List Char) : 0 < stuckExtent cs := by
  unfold stuckExtent
  split <;> omega

theorem stuckExtent_append (h : EndsLine tail) (hline : line ≠ []) :
    stuckExtent (line ++ tail) = stuckExtent line := by
  match line with
  | [] => exact absurd rfl hline
  | [c] =>
    cases h with
    | nil => rfl
    | cons rest =>
      rw [List.singleton_append, stuckExtent_cons]
      simp [stuckExtent]
  | c :: d :: cs =>
    rw [List.cons_append, List.cons_append, stuckExtent_cons, stuckExtent_cons,
      leading_take_append (by decide) h, leading_take_append (by decide) h]

theorem stuckExtent_le_length (h : cs ≠ []) : stuckExtent cs ≤ cs.length := by
  match cs with
  | [] => exact absurd rfl h
  | [c] => simp [stuckExtent]
  | c :: d :: cs =>
    have hlength := leading_le_length isHexDigit cs
    rw [stuckExtent_cons, leading_take, leading_take, List.length_cons, List.length_cons]
    split_ifs <;> omega

/-! ## The lexeme at the head -/

theorem Lexeme.head_of_longestMatch (h : longestMatch cs = some m) :
    Lexeme.head cs = ⟨some m.kind, cs.take m.length⟩ := by
  rw [Lexeme.head, h]

theorem Lexeme.head_text_eq_take (h : cs ≠ []) :
    ∃ n, 0 < n ∧ n ≤ cs.length ∧ (Lexeme.head cs).text = cs.take n := by
  unfold Lexeme.head
  split
  · next m hm =>
    exact ⟨m.length, (headed_longestMatch hm).length_pos, (headed_longestMatch hm).length_le, rfl⟩
  · exact ⟨stuckExtent cs, stuckExtent_pos cs, stuckExtent_le_length h, rfl⟩

theorem Lexeme.splitAfter_eq (n : Nat) (cs : List Char) :
    Lexeme.splitAfter n cs = Lexeme.split (cs.drop n) := by
  induction cs generalizing n with
  | nil => rw [List.drop_nil]; rfl
  | cons c cs ih =>
    cases n with
    | zero => rfl
    | succ n => rw [Lexeme.splitAfter, ih, List.drop_succ_cons]

/-- The first lexeme, and those of the rest. -/
theorem Lexeme.exists_split (h : cs ≠ []) : ∃ rest, cs = (Lexeme.head cs).text ++ rest ∧
    rest.length < cs.length ∧ Lexeme.split cs = Lexeme.head cs :: Lexeme.split rest := by
  obtain ⟨n, hpos, hle, htext⟩ := Lexeme.head_text_eq_take h
  have hlength : (Lexeme.head cs).text.length = n := by rw [htext, List.length_take]; omega
  refine ⟨cs.drop n, ?_, ?_, ?_⟩
  · rw [htext, List.take_append_drop]
  · rw [List.length_drop]
    omega
  · cases cs with
    | nil => exact absurd rfl h
    | cons c cs =>
      have hdrop : (c :: cs).drop n = cs.drop (n - 1) := by
        obtain ⟨k, rfl⟩ := Nat.exists_eq_succ_of_ne_zero hpos.ne'
        rfl
      rw [Lexeme.split, Lexeme.splitAfter, hlength, Lexeme.splitAfter_eq, hdrop]

theorem Lexeme.split_of_head {kind : Option LexicalClass} {text rest : List Char}
    (h : Lexeme.head (text ++ rest) = ⟨kind, text⟩) (hne : text ≠ []) :
    Lexeme.split (text ++ rest) = ⟨kind, text⟩ :: Lexeme.split rest := by
  obtain ⟨rest', hrest, _, hsplit⟩ := Lexeme.exists_split (List.append_ne_nil_of_left_ne_nil hne rest)
  rw [h] at hrest hsplit
  rw [hsplit, List.append_cancel_left hrest]

/-! ## Characters between words -/

/-- The character begins no comment, word or number. -/
def isSeparator (c : Char) : Bool :=
  c != '#' && !isIdentifierStart c && c != '\\' && !isDigit c && c != '.'

theorem Operator.head?_text {op : Operator} (h : op.text.toList <+: c :: cs) :
    op.text.toList.head? = some c := by
  obtain ⟨rest, hrest⟩ := h
  cases hop : op.text.toList with
  | nil =>
    have hpos := op.length_text_pos
    rw [← String.length_toList, hop] at hpos
    exact absurd hpos (Nat.lt_irrefl 0)
  | cons d ds =>
    rw [hop, List.cons_append] at hrest
    rw [List.head?_cons, (List.cons.inj hrest).1]

/-- What a separator begins is a blank, a quotation or an operator. -/
theorem Headed.of_separator (hc : isSeparator c = true) (h : Headed (c :: cs) m) :
    isBlank c = true ∧ m = ⟨.blank, blankExtent (c :: cs)⟩ ∨
    (∃ q rest, c :: cs = q.opener ++ rest ∧
      m = ⟨.quoted q (q.body rest).closed, q.opener.length + (q.body rest).length⟩) ∨
    ∃ op : Operator, op.text.toList.head? = some c ∧ m = ⟨.operator op, op.text.length⟩ := by
  simp only [isSeparator, Bool.and_eq_true, bne_iff_ne, Bool.not_eq_true'] at hc
  obtain ⟨⟨⟨⟨hcomment, hstart⟩, hescape⟩, hdigit⟩, hpoint⟩ := hc
  cases h with
  | blank h =>
    refine Or.inl ⟨?_, rfl⟩
    by_contra hblank
    exact h (by rw [blankExtent, leading_cons, if_neg hblank])
  | comment h => simp [commentExtent, hcomment] at h
  | word h => simp [wordExtent, wordItemExtent, codeEscapeExtent, hstart, hescape] at h
  | number h =>
    have hleading : leading isDigit (c :: cs) = 0 := by rw [leading_cons, if_neg (by simp [hdigit])]
    have hzero : c ≠ '0' := by
      rintro rfl
      exact absurd hdigit (by decide)
    rw [numberExtent, decimalExtent_of_point hleading, if_neg fun hboth => hpoint hboth.1] at h
    cases cs with
    | nil => simp [hexExtent] at h
    | cons d cs => simp [hexExtent_cons, hzero] at h
  | quoted q rest h => exact Or.inr (Or.inl ⟨q, rest, h, rfl⟩)
  | operator op h => exact Or.inr (Or.inr ⟨op, Operator.head?_text h, rfl⟩)

/-! ## Blanks -/

/-- What holds of every blank character, one by one, holds of a blank character. -/
theorem of_isBlank {p : Char → Bool} (h : isBlank c = true)
    (hall : [' ', '\t', '\x0b', '\x0c', '\u00a0', '\ufeff', '\r', '\n', '\u0085', '\u2028',
      '\u2029'].all p = true) : p c = true := by
  refine List.all_eq_true.mp hall c ?_
  simpa [isBlank, isLineBreak, or_assoc] using h

theorem isSeparator_of_isBlank (h : isBlank c = true) : isSeparator c = true :=
  of_isBlank h (by decide +kernel)

/-- A blank character begins blanks only. -/
theorem Headed.of_blank (hc : isBlank c = true) (h : Headed (c :: cs) m) :
    m = ⟨.blank, blankExtent (c :: cs)⟩ := by
  rcases h.of_separator (isSeparator_of_isBlank hc) with ⟨_, hm⟩ | ⟨q, rest, h, _⟩ | ⟨op, h, _⟩
  · exact hm
  · have hopener : (c != '"' && c != '@' && c != '\'') = true :=
      of_isBlank (p := fun c => c != '"' && c != '@' && c != '\'') hc (by decide)
    cases q <;> cases h <;> simp at hopener
  · have hno : (Operator.all.all fun op => op.text.toList.head? != some c) = true :=
      of_isBlank (p := fun c => Operator.all.all fun op => op.text.toList.head? != some c)
        hc (by decide +kernel)
    have hne := List.all_eq_true.mp hno op op.mem_all
    simp [h] at hne

/-- **Blanks.** A blank character begins a run of blanks. -/
theorem Lexeme.head_blank (hc : isBlank c = true) (cs : List Char) :
    Lexeme.head (c :: cs) = ⟨some .blank, (c :: cs).takeWhile isBlank⟩ := by
  have hextent : blankExtent (c :: cs) ≠ 0 := by
    rw [blankExtent, leading_cons, if_pos hc]
    exact Nat.succ_ne_zero _
  obtain ⟨m, hm⟩ := (Headed.blank hextent).exists_longestMatch
  rw [Lexeme.head_of_longestMatch hm, (headed_longestMatch hm).of_blank hc, blankExtent,
    take_leading]

theorem Lexeme.split_blank (hc : isBlank c = true) (cs : List Char) : Lexeme.split (c :: cs) =
    ⟨some .blank, (c :: cs).takeWhile isBlank⟩ :: Lexeme.split ((c :: cs).dropWhile isBlank) := by
  have happend : (c :: cs).takeWhile isBlank ++ (c :: cs).dropWhile isBlank = c :: cs :=
    List.takeWhile_append_dropWhile
  have hne : (c :: cs).takeWhile isBlank ≠ [] := by simp [hc]
  have hsplit := Lexeme.split_of_head (by rw [happend, Lexeme.head_blank hc]) hne
  rwa [happend] at hsplit

/-! ## Quotations -/

theorem Operator.length_text_of_atSign {op : Operator} (h : op.text.toList.head? = some '@') :
    op.text.length = 1 := by
  cases op <;> first | rfl | exact absurd h (by decide)

theorem Operator.head?_text_ne (op : Operator) : op.text.toList.head? ≠ some '\'' := by
  cases op <;> decide

/-- The opener of a quotation that may span lines begins that quotation, or the operator `@`. -/
theorem Headed.of_opener (hq : q.spansLines = true) (h : Headed (q.opener ++ cs) m) :
    m = ⟨.quoted q (q.body cs).closed, q.opener.length + (q.body cs).length⟩ ∨
    q = .verbatim ∧ m.length = 1 := by
  cases q with
  | escaped => cases hq
  | verbatim =>
    rcases h.of_separator (by decide) with ⟨hblank, _⟩ | ⟨q, rest, h, hm⟩ | ⟨op, h, hm⟩
    · exact absurd hblank (by decide)
    · cases q <;> cases h
      exact Or.inl hm
    · exact Or.inr ⟨rfl, by rw [hm, Operator.length_text_of_atSign h]⟩
  | single =>
    rcases h.of_separator (by decide) with ⟨hblank, _⟩ | ⟨q, rest, h, hm⟩ | ⟨op, h, hm⟩
    · exact absurd hblank (by decide)
    · cases q <;> cases h
      exact Or.inl hm
    · exact absurd h op.head?_text_ne

/-- **Quotations.** A quotation that may span lines is told by its opener. -/
theorem Lexeme.head_quoted (hq : q.spansLines = true) (cs : List Char) :
    Lexeme.head (q.opener ++ cs) =
    ⟨some (.quoted q (q.body cs).closed), q.opener ++ cs.take (q.body cs).length⟩ := by
  have hquoted : Headed (q.opener ++ cs) _ := Headed.quoted q cs rfl
  obtain ⟨m, hm⟩ := hquoted.exists_longestMatch
  rw [Lexeme.head_of_longestMatch hm]
  rcases (headed_longestMatch hm).of_opener hq with rfl | ⟨rfl, hone⟩
  · rw [List.take_length_add_append]
  · -- the operator is shorter than the opener
    have hle := hquoted.le_longestMatch hm
    simp only [hone, Quoting.opener, List.length_cons] at hle
    omega

theorem Quoting.body_eq_doubledBody (hq : q.spansLines = true) (cs : List Char) :
    q.body cs = doubledBody q.closer cs := by
  cases q with
  | escaped => cases hq
  | verbatim => rfl
  | single => rfl

theorem Quoting.opener_append_ne_nil (q : Quoting) (cs : List Char) : q.opener ++ cs ≠ [] := by
  cases q <;> exact List.cons_ne_nil _ _

/-- A quotation that nothing closes is all of the text. -/
theorem Lexeme.split_open {body : List Char} (hq : q.spansLines = true)
    (hbody : Doubled q.closer body) :
    Lexeme.split (q.opener ++ body) = [⟨some (.quoted q false), q.opener ++ body⟩] := by
  have hhead := Lexeme.head_quoted hq body
  rw [Quoting.body_eq_doubledBody hq, hbody.doubledBody_eq, List.take_length] at hhead
  have hwhole : Lexeme.head (q.opener ++ body ++ []) = ⟨some (.quoted q false), q.opener ++ body⟩ := by
    rw [List.append_nil, hhead]
  have hsplit := Lexeme.split_of_head hwhole (q.opener_append_ne_nil body)
  rwa [List.append_nil] at hsplit

theorem Lexeme.split_closed {body rest : List Char} (hq : q.spansLines = true)
    (hbody : Doubled q.closer body) (hrest : rest.head? ≠ some q.closer) :
    Lexeme.split (q.opener ++ (body ++ q.closer :: rest)) =
      ⟨some (.quoted q true), q.opener ++ (body ++ [q.closer])⟩ :: Lexeme.split rest := by
  have hhead := Lexeme.head_quoted hq (body ++ q.closer :: rest)
  have hassoc : body ++ q.closer :: rest = body ++ [q.closer] ++ rest := by simp
  have htake : (body ++ q.closer :: rest).take (body.length + 1) = body ++ [q.closer] := by
    rw [hassoc, List.take_left' (by simp)]
  rw [Quoting.body_eq_doubledBody hq, hbody.doubledBody_close hrest, htake] at hhead
  rw [hassoc, ← List.append_assoc] at hhead ⊢
  exact Lexeme.split_of_head hhead (q.opener_append_ne_nil _)

theorem Lexeme.opener_prefix_head {closed : Bool}
    (h : (Lexeme.head cs).kind = some (.quoted q closed)) : q.opener <+: (Lexeme.head cs).text := by
  unfold Lexeme.head at h ⊢
  split at h
  · next m hm =>
    have hheaded := headed_longestMatch hm
    obtain ⟨kind, length⟩ := m
    cases h
    cases hheaded with
    | quoted q rest h =>
      subst h
      show q.opener <+: (q.opener ++ rest).take _
      rw [List.take_length_add_append]
      exact List.prefix_append _ _
  · cases h

/-! ## Other lexemes -/

/-- Neither a blank nor a quotation that may span lines. -/
def LexicalClass.isLocal : LexicalClass → Bool
  | .blank => false
  | .quoted q _ => !q.spansLines
  | _ => true

theorem Quoting.match?_append (h : EndsLine tail)
    (hq : q.spansLines = true → ¬ q.opener <+: line) : q.match? (line ++ tail) = q.match? line := by
  have hopener : '\n' ∉ q.opener := by cases q <;> decide
  have hstarts := isPrefixOf_append h hopener line
  cases hspans : q.spansLines with
  | true =>
    have hline := hq hspans
    rw [← List.isPrefixOf_iff_prefix, ← hstarts, List.isPrefixOf_iff_prefix] at hline
    rw [match?_eq_none (hq hspans), match?_eq_none hline]
  | false =>
    by_cases hline : q.opener <+: line
    · obtain ⟨rest, rfl⟩ := hline
      cases q with
      | escaped =>
        have hbody : Quoting.escaped.body (rest ++ tail) = Quoting.escaped.body rest :=
          escapedBody_append h rest
        rw [List.append_assoc, match?_opener, match?_opener, hbody]
      | verbatim => cases hspans
      | single => cases hspans
    · have hlong := hline
      rw [← List.isPrefixOf_iff_prefix, ← hstarts, List.isPrefixOf_iff_prefix] at hlong
      rw [match?_eq_none hline, match?_eq_none hlong]

theorem Operator.match?_append (h : EndsLine tail) (op : Operator) (line : List Char) :
    op.match? (line ++ tail) = op.match? line := by
  have htext : '\n' ∉ op.text.toList := by cases op <;> decide
  rw [Operator.match?, Operator.match?, isPrefixOf_append h htext]

section Local

variable (hblank : isBlank c = false) (hq : ∀ q : Quoting, q.spansLines = true → ¬ q.opener <+: c :: cs)

include hblank hq

/-- What matches at the head of a line does not depend on what follows the line. -/
theorem headMatches_append (h : EndsLine tail) :
    headMatches (c :: cs ++ tail) = headMatches (c :: cs) := by
  have hextent : blankExtent (c :: cs ++ tail) = blankExtent (c :: cs) := by
    simp [blankExtent, leading_cons, hblank]
  have hoperators : (fun op : Operator => op.match? (c :: cs ++ tail)) = (·.match? (c :: cs)) :=
    funext fun op => op.match?_append h _
  rw [headMatches, headMatches, hextent, commentExtent_append h, wordExtent_append h,
    numberExtent_append h, Quoting.match?_append h (hq _), Quoting.match?_append h (hq _),
    Quoting.match?_append h (hq _), hoperators]

/-- **Other lexemes.** They do not depend on what follows the line. -/
theorem Lexeme.head_append (h : EndsLine tail) :
    Lexeme.head (c :: cs ++ tail) = Lexeme.head (c :: cs) := by
  have hmatch : longestMatch (c :: cs ++ tail) = longestMatch (c :: cs) := by
    rw [longestMatch, longestMatch, headMatches_append hblank hq h]
  cases hm : longestMatch (c :: cs) with
  | some m =>
    rw [hm] at hmatch
    rw [head_of_longestMatch hm, head_of_longestMatch hmatch,
      List.take_append_of_le_length (headed_longestMatch hm).length_le]
  | none =>
    rw [hm] at hmatch
    have hne : c :: cs ≠ [] := List.cons_ne_nil c cs
    simp only [Lexeme.head, hm, hmatch]
    rw [stuckExtent_append h hne, List.take_append_of_le_length (stuckExtent_le_length hne)]

theorem Lexeme.isLocal_head {kind : LexicalClass} (h : (Lexeme.head (c :: cs)).kind = some kind) :
    kind.isLocal = true := by
  unfold Lexeme.head at h
  split at h
  · next m hm =>
    cases h
    cases headed_longestMatch hm with
    | blank h =>
      rw [blankExtent, leading_cons, hblank] at h
      exact absurd rfl h
    | quoted q rest h =>
      have hspans : q.spansLines ≠ true := fun hspans => hq q hspans ⟨rest, h.symm⟩
      simp [LexicalClass.isLocal, hspans]
    | comment | word | number | operator => rfl
  · cases h

end Local

end FourGL
