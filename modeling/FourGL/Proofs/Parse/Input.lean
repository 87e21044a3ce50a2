import FourGL.Parse.Basic
import FourGL.Proofs.Grammar.Vocabulary

/-!
# The end of an input

Whatever a text holds, none of its tokens is read as the end of input, so a parser sees the end of
input exactly where the tokens are used up.

**Theorem (`isEnded_inputOf`).** In the input of a text, the terminal at a position is the end of
input exactly if the position is not below the number of tokens read.
-/

namespace FourGL

/-! ## Tokens -/

section Tokens

variable {v : Vocabulary} {place : Place} {cs : List Char} {t : TerminalId}

/-- The token is not read as the end of input. -/
def Token.IsProper (t : Token) : Prop := t.terminal ≠ Vocabulary.endOfInput

theorem Token.isProper_faulty {fault : LexicalFault} : (Token.faulty v fault place cs).IsProper :=
  fun h => absurd (show (1 : Nat) = 0 from h) (by omega)

theorem Token.isProper_plain (h : v.Usable t) : (Token.plain v t place cs).IsProper := h.1

namespace Vocabulary

theorem Sound.isProper_literalToken (hv : v.Sound) {kind : TerminalKind} {missing : LexicalFault}
    {value : Except LiteralError Value} (hk : kind ≠ .endOfInput) :
    (v.literalToken kind missing value place cs).IsProper := by
  rw [literalToken]
  cases ht : v.ofKind? kind with
  | none => exact Token.isProper_faulty
  | some t =>
    cases value with
    | error e => exact Token.isProper_faulty
    | ok value => exact (hv.usable_ofKind hk ht).1

theorem Sound.isProper_tokenOf (hv : v.Sound) {extent : Extent} {l : Lexeme} {token : Token}
    (h : v.tokenOf extent place l = some token) : token.IsProper := by
  rw [tokenOf] at h
  split at h
  · cases h
  · cases h
    rw [commentToken]
    split
    · next t ht => exact Token.isProper_plain (hv.usable_ofKind (by simp) ht)
    · exact Token.isProper_faulty
  · cases h
    rw [wordToken]
    split
    · next t ht => exact Token.isProper_plain (hv.keywords _ _ ht)
    · exact hv.isProper_literalToken (by simp)
  · cases h
    exact hv.isProper_literalToken (by simp)
  · cases h
    rw [quotedToken]
    split
    · exact hv.isProper_literalToken (by simp)
    · exact fun h => absurd (show (1 : Nat) = 0 from h) (by omega)
  · cases h
    rw [operatorToken]
    split
    · next t ht => exact Token.isProper_plain (hv.symbols _ _ ht)
    · exact Token.isProper_faulty
  · cases h
    exact Token.isProper_faulty

theorem Sound.isProper_tokensFrom (hv : v.Sound) {extent : Extent} {lexemes : List Lexeme} :
    ∀ token ∈ v.tokensFrom extent place lexemes, token.IsProper := by
  induction lexemes generalizing place with
  | nil => simp [tokensFrom]
  | cons l lexemes ih =>
    intro token ht
    rcases List.mem_append.mp ht with ht | ht
    · exact hv.isProper_tokenOf (Option.mem_toList.mp ht)
    · exact ih token ht

theorem isProper_joinUnexpected {tokens : List Token} (h : ∀ t ∈ tokens, t.IsProper) :
    ∀ t ∈ Token.joinUnexpected tokens, t.IsProper := by
  induction tokens with
  | nil => simp [Token.joinUnexpected]
  | cons t tokens ih =>
    obtain ⟨ht, hrest⟩ := List.forall_mem_cons.mp h
    have ih := ih hrest
    rw [Token.joinUnexpected]
    split
    · next u us hu =>
      rw [hu] at ih
      split
      · exact List.forall_mem_cons.mpr ⟨ht, fun x hx => ih x (List.mem_cons_of_mem _ hx)⟩
      · exact List.forall_mem_cons.mpr ⟨ht, ih⟩
    · exact List.forall_mem_singleton.mpr ht

/-- No token of a text is read as the end of input. -/
theorem Sound.isProper_scan (hv : v.Sound) {source : String} :
    ∀ token ∈ v.scan source, token.IsProper :=
  isProper_joinUnexpected hv.isProper_tokensFrom

end Vocabulary

end Tokens

/-! ## Inputs -/

namespace Input

/-- The end of input comes where the tokens are used up, and nowhere else. -/
def IsEnded (input : Input) : Prop :=
  ∀ position, input.terminal position = Vocabulary.endOfInput ↔ input.size ≤ position

/-- The terminals of the tokens that the parser reads. -/
def terminals (input : Input) : List TerminalId := (List.range input.size).map input.terminal

theorem exists_token {tokens : List Token} {stop position : Nat}
    (h : position < (ofTokens tokens stop).size) :
    ∃ t ∈ tokens, (ofTokens tokens stop).token? position = some t := by
  have hget : (ofTokens tokens stop).stream[position]? =
      some (ofTokens tokens stop).stream[position] := Array.getElem?_eq_getElem h
  have hmem : (ofTokens tokens stop).stream[position] ∈
      (tokens.zipIdx.filter (·.1.isGrammatical)).map (·.2) :=
    List.mem_toArray.mp (Array.getElem_mem h)
  obtain ⟨⟨t, i⟩, hti, heq⟩ := List.mem_map.mp hmem
  have hi : tokens[i]? = some t := List.mem_zipIdx_iff_getElem?.mp (List.mem_filter.mp hti).1
  refine ⟨t, List.mem_of_getElem? hi, ?_⟩
  rw [token?, hget, Option.bind_some, ← heq]
  simpa [ofTokens] using hi

theorem isEnded_ofTokens {tokens : List Token} {stop : Nat} (h : ∀ t ∈ tokens, t.IsProper) :
    (ofTokens tokens stop).IsEnded := by
  intro position
  by_cases hp : position < (ofTokens tokens stop).size
  · obtain ⟨t, ht, htoken⟩ := exists_token hp
    rw [terminal, htoken]
    exact ⟨fun heq => absurd heq (h t ht), fun hle => absurd hp (Nat.not_lt.mpr hle)⟩
  · have hnone : (ofTokens tokens stop).token? position = none := by
      rw [token?, Array.getElem?_eq_none (Nat.le_of_not_lt hp)]
      rfl
    rw [terminal, hnone]
    exact ⟨fun _ => Nat.le_of_not_lt hp, fun _ => rfl⟩

end Input

/-- The input that a parser of the grammar reads from a text. -/
def Grammar.inputOf (g : Grammar) (source : String) : Input :=
  .ofTokens (g.vocabulary.scan source) (utf8Length source.toList)

/-- **The end of input.** -/
theorem isEnded_inputOf {g : Grammar} (hv : g.vocabulary.Sound) (source : String) :
    (g.inputOf source).IsEnded := Input.isEnded_ofTokens hv.isProper_scan

/-! ## The tokens of a parse -/

namespace Language

variable (l : Language) (limits : Limits) (source : String)

/-- Whatever becomes of a text, the tokens of its parse are those of a scan. -/
theorem tokens_parse :
    (l.parse limits source).tokens = (l.grammar.vocabulary.scan source).toArray := by
  rw [parse]
  cases h : l.parseWithin ampleSteps limits source with
  | none => rfl
  | some p =>
    obtain ⟨run, -, rfl⟩ := Option.map_eq_some_iff.mp h
    rfl

theorem vocabulary_parse : (l.parse limits source).vocabulary = l.grammar.vocabulary := by
  rw [parse]
  cases h : l.parseWithin ampleSteps limits source with
  | none => rfl
  | some p =>
    obtain ⟨run, -, rfl⟩ := Option.map_eq_some_iff.mp h
    rfl

end Language

end FourGL
