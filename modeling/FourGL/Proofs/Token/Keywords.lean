import FourGL.Proofs.Grammar.Keywords
import FourGL.Proofs.Literal.Words

/-!
# Keywords that can be written

A keyword is spelled with alphanumeric characters and low lines. A word begins with a letter, a letter
number or a low line, and goes on with the characters of identifiers. The first is the wider class: there
are keywords that no text is read as.

**Theorem (`accepted_keyword_scanned_iff`).** In the grammar built, the text of an accepted keyword is read
as one token, with the terminal of the keyword, if and only if it is an identifier.

A token with the terminal of a keyword can come of a word only, since every other class of tokens has
terminals of its own kinds.
-/

namespace FourGL

open Text CharPattern
open scoped Computability

variable {v : Vocabulary} {e : Extent} {c : Char} {cs w : List Char} {l : Lexeme} {place : Place}
  {t : TerminalId} {token : Token} {text : String}

/-! ## Identifiers -/

/-- The text begins like an identifier, and goes on like one. -/
def IsIdentifier (cs : List Char) : Prop :=
  ∃ c rest, cs = c :: rest ∧ isIdentifierStart c = true ∧ ∀ d ∈ rest, isIdentifierPart d = true

theorem IsIdentifier.mem_word (h : IsIdentifier w) : w ∈ CharPattern.word := by
  obtain ⟨c, rest, rfl, hc, hrest⟩ := h
  have hparts : rest ∈ (one isIdentifierPart + unicodeEscape)∗ := by
    induction rest with
    | nil => exact Language.nil_mem_kstar _
    | cons d rest ih =>
      obtain ⟨hd, htail⟩ := List.forall_mem_cons.mp hrest
      exact append_mem_kstar (v := [d]) (Or.inl ⟨d, hd, rfl⟩) (ih htail)
  exact Language.append_mem_mul (a := [c]) (Or.inl ⟨c, hc, rfl⟩) hparts

/-- An item without a backslash is a character of its class. -/
theorem WordItem.exists_char {p : Char → Bool} {item : WordItem} (h : item.IsWritten p)
    (hplain : '\\' ∉ item.text) : ∃ c, item.text = [c] ∧ p c = true := by
  cases item with
  | char c => exact ⟨c, rfl, h⟩
  | short digits => exact absurd List.mem_cons_self hplain
  | long digits => exact absurd List.mem_cons_self hplain

/-- A word without a backslash is an identifier. -/
theorem isIdentifier_of_mem_word (h : w ∈ CharPattern.word) (hplain : '\\' ∉ w) : IsIdentifier w := by
  obtain ⟨items, htext, ⟨first, hfirst, hstart⟩, hparts⟩ := exists_spelled h
  obtain ⟨rest, rfl⟩ := List.head?_eq_some_iff.mp hfirst
  rw [htext, List.flatMap_cons, List.mem_append, not_or] at hplain
  obtain ⟨hplainFirst, hplainRest⟩ := hplain
  obtain ⟨c, hc, hcstart⟩ := WordItem.exists_char hstart hplainFirst
  refine ⟨c, rest.flatMap WordItem.text, by rw [htext, List.flatMap_cons, hc]; rfl, hcstart,
    fun d hd => ?_⟩
  obtain ⟨item, hitem, hmem⟩ := List.mem_flatMap.mp hd
  have hplainItem : '\\' ∉ item.text := fun hescape =>
    hplainRest (List.mem_flatMap.mpr ⟨item, hitem, hescape⟩)
  obtain ⟨d', hd', hpart⟩ := WordItem.exists_char (hparts item hitem) hplainItem
  rw [hd'] at hmem
  rwa [List.mem_singleton.mp hmem]

/-- A text that is a word is cut into no smaller pieces. -/
theorem Lexeme.split_word (h : w ∈ CharPattern.word) : Lexeme.split w = [⟨some .word, w⟩] := by
  have hmatches : LexicalClass.word.Matches w [] := .word h
  have hhead : (⟨some .word, w⟩ : Lexeme).IsHead [] := by
    refine .matched hmatches fun kind text rest happend hother => ?_
    rw [List.append_nil] at happend
    by_cases hrest : rest = []
    · subst hrest
      rw [List.append_nil] at happend
      subst happend
      exact Or.inr ⟨rfl, hother.kind_unique hmatches⟩
    · have hpos := List.length_pos_of_ne_nil hrest
      refine Or.inl ?_
      rw [happend, List.length_append]
      omega
  have hsplit := Lexeme.split_of_head (Lexeme.head_eq hhead hmatches.ne_nil) hmatches.ne_nil
  rwa [List.append_nil] at hsplit

/-! ## Kinds of tokens -/

namespace Vocabulary

theorem kindOf?_ofKind? {kind : TerminalKind} (h : v.ofKind? kind = some t) :
    v.kindOf? t = some kind := by
  obtain ⟨hlt, heq, -⟩ := Array.findIdx?_eq_some_iff_getElem.mp h
  rw [kindOf?, Array.getElem?_eq_getElem hlt, Option.map_some, eq_of_beq heq]

/-- The kinds of terminals that a class of lexemes can have. -/
def MayBe (v : Vocabulary) (token : Token) (kind : TerminalKind) : Prop :=
  v.kindOf? token.terminal = some kind ∨ v.kindOf? token.terminal = some .error

theorem Filed.mayBe_faulty (h : v.Filed) (fault : LexicalFault) (place : Place) (cs : List Char)
    (kind : TerminalKind) : v.MayBe (.faulty v fault place cs) kind := Or.inr h.error

theorem Filed.mayBe_literalToken (h : v.Filed) (kind : TerminalKind) (missing : LexicalFault)
    (value : Except LiteralError Value) (place : Place) (cs : List Char) :
    v.MayBe (v.literalToken kind missing value place cs) kind := by
  unfold literalToken
  split
  · exact h.mayBe_faulty _ _ _ _
  · next t ht =>
    split
    · exact Or.inl (kindOf?_ofKind? ht)
    · exact h.mayBe_faulty _ _ _ _

theorem Filed.mayBe_commentToken (h : v.Filed) : v.MayBe (v.commentToken place cs) .comment := by
  unfold commentToken
  split
  · next t ht => exact Or.inl (kindOf?_ofKind? ht)
  · exact h.mayBe_faulty _ _ _ _

theorem Filed.mayBe_quotedToken (h : v.Filed) (q : Quoting) (closed : Bool) :
    v.MayBe (v.quotedToken e q closed place cs) .string := by
  unfold quotedToken
  split
  · exact h.mayBe_literalToken .string .noStrings (.text <$> quotedValue cs) place cs
  · exact h.mayBe_faulty .unterminatedString place cs _

theorem Filed.mayBe_operatorToken (h : v.Filed) : v.MayBe (v.operatorToken place cs) .symbol := by
  unfold operatorToken
  split
  · next t ht => exact Or.inl (h.symbols _ t ht)
  · exact h.mayBe_faulty _ _ _ _

/-- **Keywords are words.** A token with the terminal of a keyword is read from a word. -/
theorem Filed.kind_of_keyword (h : v.Filed) (htoken : token ∈ v.tokenOf e place l)
    (hkeyword : v.kindOf? token.terminal = some .keyword) : l.kind = some .word := by
  have hother : ∀ kind : TerminalKind, kind ≠ .keyword → ¬ v.MayBe token kind := by
    intro kind hne hmay
    rcases hmay with hkind | herror
    · exact hne (Option.some.inj (hkind.symm.trans hkeyword))
    · cases herror.symm.trans hkeyword
  unfold tokenOf at htoken
  split at htoken
  · cases htoken
  · cases htoken
    exact absurd h.mayBe_commentToken (hother .comment (by decide))
  · assumption
  · cases htoken
    exact absurd (h.mayBe_literalToken _ _ _ _ _) (hother .number (by decide))
  · cases htoken
    exact absurd (h.mayBe_quotedToken _ _) (hother .string (by decide))
  · cases htoken
    exact absurd h.mayBe_operatorToken (hother .symbol (by decide))
  · cases htoken
    exact absurd (h.mayBe_faulty _ _ _ .error) (hother .error (by decide))

/-- A token with a fault has the terminal of errors. -/
def BadIsError (token : Token) : Prop := token.fault ≠ none → token.terminal = errorToken

theorem badIsError_literalToken (kind : TerminalKind) (missing : LexicalFault)
    (value : Except LiteralError Value) : BadIsError (v.literalToken kind missing value place cs) := by
  unfold literalToken
  split
  · exact fun _ => rfl
  · split
    · exact fun h => absurd rfl h
    · exact fun _ => rfl

theorem badIsError_of_mem_tokenOf (h : token ∈ v.tokenOf e place l) : BadIsError token := by
  unfold tokenOf at h
  split at h
  · cases h
  · cases h
    unfold commentToken
    split
    · exact fun h => absurd rfl h
    · exact fun _ => rfl
  · cases h
    unfold wordToken
    split
    · exact fun h => absurd rfl h
    · exact badIsError_literalToken _ _ _
  · cases h
    exact badIsError_literalToken _ _ _
  · cases h
    unfold quotedToken
    split
    · exact badIsError_literalToken .string .noStrings (.text <$> quotedValue l.text)
    · exact fun _ => rfl
  · cases h
    unfold operatorToken
    split
    · exact fun h => absurd rfl h
    · exact fun _ => rfl
  · cases h
    exact fun _ => rfl

/-! ## One token -/

/-- A token that joins with others has the terminal of errors, and one with the terminal of a keyword is
spelled as a word. -/
structure SpelledAsRead (v : Vocabulary) (token : Token) : Prop where
  unexpected : token.isUnexpected = true → v.kindOf? token.terminal = some .error
  keyword : v.kindOf? token.terminal = some .keyword → token.text.toList ∈ CharPattern.word

theorem Filed.spelledAsRead_tokensFrom (h : v.Filed) {ls : List Lexeme} (hls : Cuts cs ls)
    (place : Place) : ∀ token ∈ v.tokensFrom e place ls, v.SpelledAsRead token := by
  induction hls generalizing place with
  | nil =>
    rw [tokensFrom]
    exact List.forall_mem_nil _
  | @cons l rest ls hne hhead _ ih =>
    intro token hmem
    rw [tokensFrom, List.mem_append] at hmem
    rcases hmem with htoken | hmem
    · rw [Option.mem_toList] at htoken
      refine ⟨fun hunexpected => ?_, fun hkeyword => ?_⟩
      · have hfault : token.fault ≠ none := by
          intro hnone
          simp [Token.isUnexpected, hnone] at hunexpected
        rw [badIsError_of_mem_tokenOf htoken hfault]
        exact h.error
      · rw [(covers_of_mem_tokenOf htoken).text, String.toList_ofList]
        cases hhead.matches (h.kind_of_keyword htoken hkeyword) with
        | word hword => exact hword
    · exact ih _ token hmem

theorem Filed.spelledAsRead_scan (h : v.Filed) (source : String) :
    ∀ token ∈ v.scan source, v.SpelledAsRead token := by
  refine Token.forall_joinUnexpected (fun t u hjoins ht _ => ?_)
    (h.spelledAsRead_tokensFrom (Lexeme.cuts_split source.toList) {})
  simp only [Token.joins, Bool.and_eq_true] at hjoins
  have herror := ht.unexpected hjoins.1.1
  exact ⟨fun _ => herror, fun hkeyword => absurd (herror.symm.trans hkeyword) (by decide)⟩

/-- The only token of a text without blanks is all of it. -/
theorem text_of_scan {source : String} (h : v.scan source = [token])
    (hblank : ∀ c ∈ source.toList, isBlank c = false) : token.text.toList = source.toList := by
  have htiling : Tiling [] source.toList (v.scan source) :=
    (tiling_scanFrom v .whole [] source.toList nofun).1
  have hnil : ∀ gap : List Char, (∀ c ∈ gap, isBlank c = true) → (∀ c ∈ gap, c ∈ source.toList) →
      gap = [] := by
    intro gap hgap hmem
    refine List.eq_nil_iff_forall_not_mem.mpr fun c hc => ?_
    exact absurd ((hgap c hc).symm.trans (hblank c (hmem c hc))) (by decide)
  rw [h] at htiling
  generalize source.toList = cs at htiling hnil
  cases htiling with
  | @cons _ gap rest _ _ hgap _ hrest =>
    cases hrest with
    | nil hblanks =>
      rw [hnil gap hgap fun c hc => by simp [hc], hnil rest hblanks fun c hc => by simp [hc]]
      simp

/-- No character of a keyword is a blank or a backslash. -/
theorem of_isKeywordText (h : isKeywordText text = true) :
    ∀ c ∈ text.toList, isBlank c = false ∧ c ≠ '\\' := by
  unfold isKeywordText at h
  split at h
  · cases h
  · next c cs hcons =>
    rw [hcons]
    simp only [Bool.and_eq_true, List.all_eq_true] at h
    intro d hd
    have hpart := h.2 d hd
    refine ⟨Bool.eq_false_iff.mpr fun hblank => ?_, ?_⟩
    · have hnone : (!(isAlphanumeric d || d == '_')) = true :=
        of_isBlank (p := fun c => !(isAlphanumeric c || c == '_')) hblank (by decide +kernel)
      rw [hpart] at hnone
      cases hnone
    · rintro rfl
      exact absurd hpart (by decide +kernel)

/-- **One token.** A text of the characters of keywords is read as a keyword only if it is an identifier. -/
theorem Filed.isIdentifier_of_scan (h : v.Filed) (hscan : v.scan text = [token])
    (hkeyword : v.kindOf? token.terminal = some .keyword) (htext : isKeywordText text = true) :
    IsIdentifier text.toList := by
  have hchars := of_isKeywordText htext
  have hread := h.spelledAsRead_scan text token (by rw [hscan]; exact List.mem_singleton_self _)
  have hword := hread.keyword hkeyword
  rw [text_of_scan hscan fun c hc => (hchars c hc).1] at hword
  exact isIdentifier_of_mem_word hword fun hescape => (hchars _ hescape).2 rfl

/-- The text of a keyword that is an identifier is read as the keyword. -/
theorem scan_of_keyword? (h : v.keyword? text = some t) (hword : IsIdentifier text.toList) :
    v.scan text = [.plain v t {} text.toList] := by
  have hkeyword : v.keyword? (String.ofList text.toList) = some t := by rwa [String.ofList_toList]
  rw [scan, scanFrom, Lexeme.split_word hword.mem_word]
  show Token.joinUnexpected [v.wordToken {} text.toList] = _
  rw [wordToken, hkeyword]
  rfl

theorem isKeywordText_of_internKeyword (h : (v.internKeyword text).2 = .ok t) :
    isKeywordText text = true := by
  by_contra hno
  rw [internKeyword, if_neg hno] at h
  cases h

end Vocabulary

/-! ## Accepted keywords -/

open Declarations

variable {g : Grammar} {name : String} {steps : List DeclarationStep}

theorem Declarations.Accepts.isKeywordText (h : Accepts name steps text t) :
    Vocabulary.isKeywordText text = true := by
  cases h with
  | declared _ _ _ hok => exact Vocabulary.isKeywordText_of_internKeyword hok
  | mentioned _ _ _ _ _ _ _ _ _ hok => exact Vocabulary.isKeywordText_of_internKeyword hok

/-- **Accepted keywords.** The text of an accepted keyword alone is read as one token, with the terminal
of the keyword, if and only if it is an identifier. -/
theorem accepted_keyword_scanned_iff (hbuild : (ofSteps name steps).build = .ok g)
    (hcase : CaseSettled name steps) (haccepts : Accepts name steps text t) :
    (∃ token, g.vocabulary.scan text = [token] ∧ token.terminal = t) ↔
      IsIdentifier text.toList := by
  have hkeyword := haccepts.keyword?_eq hcase hbuild
  have hfiled := filed_of_build hbuild
  constructor
  · rintro ⟨token, hscan, rfl⟩
    have hkind := hfiled.keywords _ _ hkeyword
    exact hfiled.isIdentifier_of_scan hscan hkind haccepts.isKeywordText
  · exact fun hword => ⟨_, Vocabulary.scan_of_keyword? hkeyword hword, rfl⟩

/-- A grammar of one word, in any case. -/
def ifSteps : List DeclarationStep :=
  [.caseSensitive false, .keyword "If_2", .rule "s" (.keyword "iF_2"), .root "s"]

theorem caseSettled_if : CaseSettled "if" ifSteps := by
  intro before after text h
  match before with
  | [] => cases h
  | [a] =>
    cases h
    decide +kernel
  | [a, b] => cases h
  | [a, b, c] => cases h
  | a :: b :: c :: d :: more => simp [ifSteps] at h

theorem accepted_keyword_scanned_iff_if : ∃ g t, (ofSteps "if" ifSteps).build = .ok g ∧
    CaseSettled "if" ifSteps ∧ Accepts "if" ifSteps "If_2" t ∧
      ∃ token, g.vocabulary.scan "If_2" = [token] ∧ token.terminal = t := by
  have hseen : (ofSteps "if" ifSteps).seen? (fun g => some g.root) = some 1 := by decide +kernel
  obtain ⟨g, hbuild, -⟩ := exists_seen hseen
  have haccepts : Accepts "if" ifSteps "If_2" 2 :=
    .declared [.caseSensitive false] [.rule "s" (.keyword "iF_2"), .root "s"] rfl (by decide +kernel)
  refine ⟨g, 2, hbuild, caseSettled_if, haccepts, ?_⟩
  refine (accepted_keyword_scanned_iff hbuild caseSettled_if haccepts).mpr ?_
  exact ⟨'I', "f_2".toList, by decide, by decide +kernel,
    List.all_eq_true.mp (by decide +kernel)⟩

/-! ## A keyword that is never read -/

/-- A grammar of one superscript. -/
def squareSteps : List DeclarationStep := [.rule "s" (.keyword "²"), .root "s"]

/-- The grammar is built and its keyword accepted, but the text of the keyword is no token of it. -/
theorem exists_keyword_never_scanned : ∃ g t, (ofSteps "square" squareSteps).build = .ok g ∧
    CaseSettled "square" squareSteps ∧ Accepts "square" squareSteps "²" t ∧
      (g.vocabulary.scan "²").map (·.fault) = [some .unexpectedCharacter] ∧
      ∀ token, g.vocabulary.scan "²" = [token] → token.terminal ≠ t := by
  have hseen : (ofSteps "square" squareSteps).seen? (fun g =>
      some ((g.vocabulary.scan "²").map fun token => (token.terminal, token.fault))) =
        some [(1, some .unexpectedCharacter)] := by decide +kernel
  obtain ⟨g, hbuild, hseen⟩ := exists_seen hseen
  have haccepts : Accepts "square" squareSteps "²" 2 :=
    .mentioned [] [] ⟨"s", .keyword "²", false⟩ [] [] (ofSteps "square" squareSteps)
      (by cbv) rfl rfl (by decide +kernel)
  have hscan := Option.some.inj hseen
  refine ⟨g, 2, hbuild, ?_, haccepts, ?_, fun token htoken => ?_⟩
  · intro before after text h
    have hmem : .keyword text ∈ squareSteps := by simp [h]
    simp [squareSteps] at hmem
  · simpa using congrArg (List.map Prod.snd) hscan
  · rw [htoken] at hscan
    have hterminal : token.terminal = 1 := congrArg Prod.fst (List.singleton_inj.mp hscan)
    rw [hterminal]
    decide

end FourGL
