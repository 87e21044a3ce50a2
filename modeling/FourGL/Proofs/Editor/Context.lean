import FourGL.Editor.Completion
import FourGL.Proofs.Parse.Input
import FourGL.Proofs.Parse.Soundness
import FourGL.Proofs.Token.Tiling

/-!
# The word at the caret

Names are offered while a word is typed: the caret is within the word or right behind it. The context is to
be the last token before the word that the parser reads. It is found from the last token that starts at the
caret or before it, with one step back if that token reaches the caret.

**Theorem (`context_fits`).** If no token starts at the caret, the context is the one before the word, and
behind the word that begins a function only locals are offered. If a token starts there, it is taken for the
word, and the context can be the word itself.

So a caret between a name and a parenthesis that follows at once is off by one (`exists_globals_offered`).
-/

namespace FourGL

namespace Parse

variable {p : Parse} {offset bound w i j : Nat} {cs : List Char} {found other : Option Nat}

/-! ## Words and contexts -/

/-- The token starts before the offset and ends at it or behind it. -/
structure IsWordAt (p : Parse) (offset w : Nat) : Prop where
  bound : w < p.tokens.size
  starts : (p.token w).span.start < offset
  reaches : offset ≤ (p.token w).span.stop

/-- Some token starts at the offset. -/
def BeginsAt (p : Parse) (offset : Nat) : Prop :=
  ∃ i < p.tokens.size, (p.token i).span.start = offset

/-- The token is neither a comment nor a lexical error. -/
def IsRead (p : Parse) (i : Nat) : Prop :=
  (p.token i).category ≠ .comment ∧ (p.token i).isError = false

/-- The last token below an index that is neither a comment nor a lexical error, if there is one. -/
def IsLastRead (p : Parse) (bound : Nat) : Option Nat → Prop
  | some i => i < bound ∧ p.IsRead i ∧ ∀ j, i < j → j < bound → ¬ p.IsRead j
  | none => ∀ j < bound, ¬ p.IsRead j

/-- What decides about the names to offer for a word. -/
structure ContextFits (p : Parse) (offset w : Nat) : Prop where
  only : ∀ u, p.IsWordAt offset u → u = w
  inside : offset < (p.token w).span.stop → ¬ p.BeginsAt offset
  apart : ¬ p.BeginsAt offset → p.IsLastRead w (p.contextToken? offset)
  /-- A token that starts at the offset passes for the word. -/
  touching : p.BeginsAt offset → p.IsLastRead (w + 1) (p.contextToken? offset)
  /-- Only locals are offered for the name of a function. -/
  function : ¬ p.BeginsAt offset → ∀ i, p.IsLastRead w (some i) → p.beginsFunction i = true →
    ∀ (facts : Facts) (lastGood : Option Parse), ∀ name ∈ facts.completions p lastGood offset,
      ∃ scope ∈ (p.scopeSource? lastGood).bind (·.scopeNameAt? (p.token i).span.start),
        name ∈ facts.locals scope

theorem isGrammatical_iff : (p.token i).isGrammatical = true ↔ p.IsRead i := by
  rw [IsRead, Token.isGrammatical, Token.isError]
  cases (p.token i).category <;> decide

theorem IsLastRead.unique (h : p.IsLastRead bound found) (h' : p.IsLastRead bound other) :
    found = other := by
  cases found with
  | none =>
    cases other with
    | none => rfl
    | some j => exact absurd h'.2.1 (h j h'.1)
  | some i =>
    cases other with
    | none => exact absurd h.2.1 (h' i h.1)
    | some j =>
      rcases lt_trichotomy i j with hlt | rfl | hlt
      · exact absurd h'.2.1 (h.2.2 j hlt h'.1)
      · rfl
      · exact absurd h.2.1 (h'.2.2 i hlt h.1)

theorem IsLastRead.succ (h : p.IsLastRead bound found) (hbound : ¬ p.IsRead bound) :
    p.IsLastRead (bound + 1) found := by
  cases found with
  | none => exact fun j hj => (Nat.lt_succ_iff_lt_or_eq.mp hj).elim (h j) fun heq => heq ▸ hbound
  | some i =>
    exact ⟨Nat.lt_succ_of_lt h.1, h.2.1, fun j hij hj =>
      (Nat.lt_succ_iff_lt_or_eq.mp hj).elim (h.2.2 j hij) fun heq => heq ▸ hbound⟩

/-- A search from the last index down finds the last token read. -/
theorem isLastRead_find? (p : Parse) (n : Nat) :
    p.IsLastRead n ((List.range n).reverse.find? fun i => (p.token i).isGrammatical) := by
  induction n with
  | zero => exact fun j hj => absurd hj (Nat.not_lt_zero j)
  | succ n ih =>
    rw [List.range_succ, List.reverse_append, List.reverse_singleton, List.singleton_append,
      List.find?_cons]
    split
    · next hread =>
      exact ⟨Nat.lt_succ_self n, isGrammatical_iff.mp hread, fun j hj hj' => by omega⟩
    · next hread => exact ih.succ (by rw [← isGrammatical_iff, hread]; exact Bool.false_ne_true)

theorem isLastRead_lastGrammatical? (p : Parse) (i : Nat) :
    p.IsLastRead (i + 1) (p.lastGrammatical? i) := p.isLastRead_find? (i + 1)

/-! ## Tokens in order -/

theorem token_eq_getElem (h : i < p.tokens.size) : p.token i = p.tokens.toList[i] := by
  rw [token, Array.getD, dif_pos h]
  rfl

section Ordered

variable (htiles : Tiles cs p.tokens.toList)

include htiles

theorem stop_le_start (hij : i < j) (hj : j < p.tokens.size) :
    (p.token i).span.stop ≤ (p.token j).span.start := by
  rw [token_eq_getElem (hij.trans hj), token_eq_getElem hj]
  exact List.pairwise_iff_getElem.mp htiles.ordered i j (hij.trans hj) hj hij

theorem start_lt_stop (hi : i < p.tokens.size) : (p.token i).span.start < (p.token i).span.stop := by
  obtain ⟨_, _, -, hstands⟩ := htiles.stands (p.token i) (by
    rw [token_eq_getElem hi]
    exact List.getElem_mem hi)
  exact hstands.start_lt_stop

/-- The last token that starts at the offset or before it is the one behind which they start later. -/
theorem tokenAt?_eq (hi : i < p.tokens.size) (hstart : (p.token i).span.start ≤ offset)
    (hnext : ∀ j, i < j → j < p.tokens.size → offset < (p.token j).span.start) :
    p.tokenAt? offset = some i := by
  have hfront : ∀ t ∈ p.tokens.toList.take (i + 1), decide (t.span.start ≤ offset) = true := by
    intro t ht
    obtain ⟨j, hj, rfl⟩ := List.mem_take_iff_getElem.mp ht
    obtain ⟨hji, hj⟩ := Nat.lt_min.mp hj
    rw [← token_eq_getElem hj, decide_eq_true_eq]
    rcases Nat.lt_succ_iff_lt_or_eq.mp hji with hlt | rfl
    · exact (start_lt_stop htiles hj).le.trans ((stop_le_start htiles hlt hi).trans hstart)
    · exact hstart
  have hback : (p.tokens.toList.drop (i + 1)).takeWhile (fun t => t.span.start ≤ offset) = [] := by
    rw [List.takeWhile_eq_nil_iff]
    intro hlength
    have hj : i + 1 < p.tokens.size := by simpa using hlength
    have hlater := hnext (i + 1) (Nat.lt_succ_self i) hj
    rw [token_eq_getElem hj] at hlater
    simpa using hlater
  rw [tokenAt?, ← List.take_append_drop (i + 1) p.tokens.toList, List.takeWhile_append_of_pos hfront,
    hback, List.append_nil, List.length_take_of_le hi]

/-- At most one token is the word at an offset. -/
theorem IsWordAt.unique (h : p.IsWordAt offset i) (h' : p.IsWordAt offset j) : i = j := by
  rcases lt_trichotomy i j with hlt | heq | hlt
  · exact absurd ((h.reaches.trans (stop_le_start htiles hlt h'.bound)).trans_lt h'.starts) (lt_irrefl _)
  · exact heq
  · exact absurd ((h'.reaches.trans (stop_le_start htiles hlt h.bound)).trans_lt h.starts) (lt_irrefl _)

/-- The tokens behind a word start at the offset or later. -/
theorem IsWordAt.le_start (h : p.IsWordAt offset w) (hj : w < j) (hsize : j < p.tokens.size) :
    offset ≤ (p.token j).span.start := h.reaches.trans (stop_le_start htiles hj hsize)

/-- A token that starts at the offset comes after the word. -/
theorem IsWordAt.lt_of_start_eq (h : p.IsWordAt offset w) (hi : i < p.tokens.size)
    (hstart : (p.token i).span.start = offset) : w < i := by
  rcases lt_trichotomy i w with hlt | rfl | hlt
  · have := start_lt_stop htiles hi
    have := stop_le_start htiles hlt h.bound
    have := h.starts
    omega
  · exact absurd hstart h.starts.ne
  · exact hlt

/-- So there is none while the word goes on. -/
theorem IsWordAt.not_beginsAt (h : p.IsWordAt offset w) (hinside : offset < (p.token w).span.stop) :
    ¬ p.BeginsAt offset := by
  rintro ⟨i, hi, hstart⟩
  have hbehind := stop_le_start htiles (h.lt_of_start_eq htiles hi hstart) hi
  omega

/-- From a word with no token at its end, the context is looked for one step back. -/
theorem IsWordAt.contextToken?_apart (h : p.IsWordAt offset w) (hapart : ¬ p.BeginsAt offset) :
    p.IsLastRead w (p.contextToken? offset) := by
  have hat : p.tokenAt? offset = some w := by
    apply tokenAt?_eq htiles h.bound h.starts.le
    intro j hj hsize
    exact (h.le_start htiles hj hsize).lt_of_ne fun heq => hapart ⟨j, hsize, heq.symm⟩
  rw [contextToken?, hat, Option.bind_eq_bind, Option.bind_some, if_pos h.reaches]
  cases w with
  | zero => exact fun j hj => absurd hj (Nat.not_lt_zero j)
  | succ i => exact p.isLastRead_lastGrammatical? i

/-- From the token at its end, it is the word itself that one step leads back to. -/
theorem IsWordAt.contextToken?_touching (h : p.IsWordAt offset w) (hbegins : p.BeginsAt offset) :
    p.IsLastRead (w + 1) (p.contextToken? offset) := by
  obtain ⟨i, hi, hstart⟩ := hbegins
  have hwi := h.lt_of_start_eq htiles hi hstart
  have hnext : i = w + 1 := by
    rcases Nat.lt_or_eq_of_le (Nat.succ_le_of_lt hwi) with hlt | heq
    · have := h.le_start htiles (Nat.lt_succ_self w) (hlt.trans hi)
      have := start_lt_stop htiles (hlt.trans hi)
      have := stop_le_start htiles hlt hi
      omega
    · exact heq.symm
  subst hnext
  have hat : p.tokenAt? offset = some (w + 1) := by
    apply tokenAt?_eq htiles hi hstart.le
    intro j hj hsize
    have := start_lt_stop htiles hi
    have := stop_le_start htiles hj hsize
    omega
  have htouches : offset ≤ (p.token (w + 1)).span.stop := hstart ▸ (start_lt_stop htiles hi).le
  rw [contextToken?, hat, Option.bind_eq_bind, Option.bind_some, if_pos htouches]
  exact p.isLastRead_lastGrammatical? w

end Ordered

/-- Behind the word that begins a function, what is offered comes from the scope there. -/
theorem mem_locals_of_beginsFunction (hcontext : p.contextToken? offset = some i)
    (hfunction : p.beginsFunction i = true) {facts : Facts} {lastGood : Option Parse} {name : String}
    (h : name ∈ facts.completions p lastGood offset) :
    ∃ scope ∈ (p.scopeSource? lastGood).bind (·.scopeNameAt? (p.token i).span.start),
      name ∈ facts.locals scope := by
  rw [Facts.completions, hcontext] at h
  simp only [hfunction, Facts.visible, Bool.not_true, Bool.false_eq_true, if_false] at h
  cases hscope : (p.scopeSource? lastGood).bind (·.scopeNameAt? (p.token i).span.start) with
  | none =>
    rw [hscope] at h
    cases h
  | some scope =>
    rw [hscope] at h
    exact ⟨scope, rfl, h⟩

end Parse

namespace Language

theorem tiles_parse (l : Language) (limits : Limits) (source : String) :
    Tiles source.toList (l.parse limits source).tokens.toList := by
  rw [tokens_parse]
  exact l.grammar.vocabulary.tiles_source source

end Language

/-- **The context of a word.** Whatever text is parsed, if no token starts at the offset, the token before
the word there decides, and behind the word that begins a function only locals are offered. -/
theorem context_fits (l : Language) (limits : Limits) (source : String) {offset w : Nat}
    (h : (l.parse limits source).IsWordAt offset w) : (l.parse limits source).ContextFits offset w where
  only _ hu := hu.unique (l.tiles_parse limits source) h
  inside := h.not_beginsAt (l.tiles_parse limits source)
  apart := h.contextToken?_apart (l.tiles_parse limits source)
  touching := h.contextToken?_touching (l.tiles_parse limits source)
  function hapart _ hlast hfunction _ _ _ hname :=
    Parse.mem_locals_of_beginsFunction
      ((h.contextToken?_apart (l.tiles_parse limits source) hapart).unique hlast) hfunction hname

/-! ## Names of functions -/

/-- A grammar of the heads of functions, with comments. -/
def headSteps : List DeclarationStep :=
  [.identifier "Identifier", .comment "Comment",
    .rule "head" (.seq [.keyword "function", .ref "Identifier", .symbol "("]), .root "head"]

/-- What a token was read as, and where. -/
def Token.outline (t : Token) : TerminalId × Category × Span := (t.terminal, t.category, t.span)

namespace Parse

variable {p : Parse} {outlines : List (TerminalId × Category × Span)} {t : TerminalId}
  {category : Category} {span : Span} {i offset : Nat}

theorem token_of_outline (h : p.tokens.toList.map Token.outline = outlines)
    (hi : outlines[i]? = some (t, category, span)) : i < p.tokens.size ∧
      (p.token i).terminal = t ∧ (p.token i).category = category ∧ (p.token i).span = span := by
  rw [← h, List.getElem?_map] at hi
  obtain ⟨token, htoken, heq⟩ := Option.map_eq_some_iff.mp hi
  obtain ⟨hsize, rfl⟩ := List.getElem?_eq_some_iff.mp htoken
  rw [← token_eq_getElem hsize, Token.outline, Prod.mk.injEq, Prod.mk.injEq] at heq
  exact ⟨hsize, heq⟩

theorem isWordAt_of_outline (h : p.tokens.toList.map Token.outline = outlines)
    (hi : outlines[i]? = some (t, category, span)) (hstart : span.start < offset)
    (hstop : offset ≤ span.stop) : p.IsWordAt offset i := by
  obtain ⟨hsize, -, -, rfl⟩ := token_of_outline h hi
  exact ⟨hsize, hstart, hstop⟩

theorem beginsAt_iff_outline (h : p.tokens.toList.map Token.outline = outlines) :
    p.BeginsAt offset ↔ ∃ o ∈ outlines, o.2.2.start = offset := by
  rw [← h]
  constructor
  · rintro ⟨i, hi, hstart⟩
    rw [token_eq_getElem hi] at hstart
    exact ⟨_, List.mem_map_of_mem (List.getElem_mem hi), hstart⟩
  · rintro ⟨_, ho, hstart⟩
    obtain ⟨token, htoken, rfl⟩ := List.mem_map.mp ho
    obtain ⟨i, hi, rfl⟩ := List.getElem_of_mem htoken
    exact ⟨i, hi, by rw [token_eq_getElem hi]; exact hstart⟩

end Parse

/-- The tokens of a head are those that are seen by a scan. -/
theorem exists_head {source : String} {outlines : List (TerminalId × Category × Span)}
    (h : (Declarations.ofSteps "head" headSteps).seen? (fun g =>
      some (g.vocabulary.keyword? "function", (g.vocabulary.scan source).map Token.outline)) =
        some (some 4, outlines)) :
    ∃ g : Grammar, g.IsBuilt ∧ ∃ p, (Language.ofGrammar g).parse {} source = p ∧
      p.vocabulary.keyword? "function" = some 4 ∧ p.tokens.toList.map Token.outline = outlines := by
  obtain ⟨g, hbuild, hseen⟩ := Declarations.exists_seen h
  obtain ⟨hkeyword, hscan⟩ := Prod.mk.inj (Option.some.inj hseen)
  refine ⟨g, ⟨_, _, hbuild⟩, _, rfl, ?_, ?_⟩
  · rw [Language.vocabulary_parse]
    exact hkeyword
  · rw [Language.tokens_parse]
    exact hscan

/-- Behind a name that a blank follows, the comment before the name is passed over. -/
theorem context_fits_head : ∃ g : Grammar, g.IsBuilt ∧ ∃ p,
    (Language.ofGrammar g).parse {} "function #?\nf (" = p ∧ p.IsWordAt 13 2 ∧ ¬ p.BeginsAt 13 ∧
      p.ContextFits 13 2 ∧ p.contextToken? 13 = some 0 ∧ p.beginsFunction 0 = true := by
  obtain ⟨g, hg, p, hp, hkeyword, houtlines⟩ :
      ∃ g : Grammar, g.IsBuilt ∧ ∃ p, (Language.ofGrammar g).parse {} "function #?\nf (" = p ∧
        p.vocabulary.keyword? "function" = some 4 ∧ p.tokens.toList.map Token.outline =
          [(4, .content, ⟨0, 8⟩), (3, .comment, ⟨9, 11⟩), (2, .content, ⟨12, 13⟩),
            (5, .content, ⟨14, 15⟩)] := exists_head (by decide +kernel)
  have hword : p.IsWordAt 13 2 := Parse.isWordAt_of_outline houtlines rfl (by decide) (by decide)
  have hapart : ¬ p.BeginsAt 13 := by
    rw [Parse.beginsAt_iff_outline houtlines]
    decide
  obtain ⟨-, hterminal, hcontent, -⟩ := Parse.token_of_outline houtlines (i := 0) rfl
  obtain ⟨-, -, hcomment, -⟩ := Parse.token_of_outline houtlines (i := 1) rfl
  have hlast : p.IsLastRead 2 (some 0) := by
    refine ⟨by decide, ?_, ?_⟩
    · simp [Parse.IsRead, Token.isError, hcontent]
    · intro j hj hj'
      obtain rfl : j = 1 := by omega
      exact fun hread => hread.1 hcomment
  have hfits : p.ContextFits 13 2 := by
    subst hp
    exact context_fits _ _ _ hword
  refine ⟨g, hg, p, hp, hword, hapart, hfits, (hfits.apart hapart).unique hlast, ?_⟩
  rw [Parse.beginsFunction, hkeyword, hterminal]
  rfl

/-- Where a parenthesis follows the name of a function at once, the name is its own context, and global
variables are offered for it. -/
theorem exists_globals_offered : ∃ g : Grammar, g.IsBuilt ∧ ∃ p,
    (Language.ofGrammar g).parse {} "function f(" = p ∧ p.IsWordAt 10 1 ∧ p.IsLastRead 1 (some 0) ∧
      p.beginsFunction 0 = true ∧ p.contextToken? 10 = some 1 ∧ ∃ facts : Facts,
        (∀ scope, facts.locals scope = []) ∧ facts.completions p none 10 = ["g"] := by
  obtain ⟨g, hg, p, hp, hkeyword, houtlines⟩ :
      ∃ g : Grammar, g.IsBuilt ∧ ∃ p, (Language.ofGrammar g).parse {} "function f(" = p ∧
        p.vocabulary.keyword? "function" = some 4 ∧ p.tokens.toList.map Token.outline =
          [(4, .content, ⟨0, 8⟩), (2, .content, ⟨9, 10⟩), (5, .content, ⟨10, 11⟩)] :=
    exists_head (by decide +kernel)
  have hword : p.IsWordAt 10 1 := Parse.isWordAt_of_outline houtlines rfl (by decide) (by decide)
  have hbegins : p.BeginsAt 10 := by
    rw [Parse.beginsAt_iff_outline houtlines]
    decide
  obtain ⟨-, hfirst, hfirstContent, -⟩ := Parse.token_of_outline houtlines (i := 0) rfl
  obtain ⟨-, hsecond, hsecondContent, -⟩ := Parse.token_of_outline houtlines (i := 1) rfl
  have hread : ∀ i, (p.token i).category = .content → p.IsRead i := by
    intro i hi
    simp [Parse.IsRead, Token.isError, hi]
  have hcontext : p.contextToken? 10 = some 1 := by
    have hlast := hword.contextToken?_touching (hp ▸ Language.tiles_parse _ _ _) hbegins
    exact hlast.unique ⟨by decide, hread 1 hsecondContent, fun j hj hj' => by omega⟩
  have hnone : ∀ scope, ({ globals := ["g"] } : Facts).locals scope = [] := by
    intro scope
    simp [Facts.locals]
  refine ⟨g, hg, p, hp, hword, ⟨by decide, hread 0 hfirstContent, fun j hj hj' => by omega⟩, ?_,
    hcontext, { globals := ["g"] }, hnone, ?_⟩
  · rw [Parse.beginsFunction, hkeyword, hfirst]
    rfl
  · have hplain : p.beginsFunction 1 = false := by
      rw [Parse.beginsFunction, hkeyword, hsecond]
      rfl
    have hlocals : ∀ scope : Option String,
        (scope.map ({ globals := ["g"] } : Facts).locals).getD [] = [] := by
      intro scope
      cases scope with
      | none => rfl
      | some name => exact hnone name
    rw [Facts.completions, hcontext]
    simp only [hplain, Facts.visible, hlocals]
    rfl

end FourGL
