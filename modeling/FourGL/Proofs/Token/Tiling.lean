import FourGL.Proofs.Lexeme.LongestMatch
import FourGL.Proofs.Text.Places
import FourGL.Proofs.Token.Reading
import Mathlib.Data.List.Chain

/-!
# Tokens tile the text

**Theorem (`tiles_scan`).** The tokens of a text, and those of a line in any state, tile it (`Tiles`): they
stand in it one behind the other, each says where it stands, what lies between them is blank, and no two
unexpected characters touch.

A tiling is built behind the text already read (`Tiling`). Places are kept by going over lexemes, so they
are right only if no lexeme ends within a line break. None does: a run of blanks goes on as far as it can,
and nothing else ends in a carriage return.
-/

namespace FourGL

open Text CharPattern

variable {v : Vocabulary} {e : Extent} {c : Char} {cs before blanks text rest line : List Char}
  {t u : Token} {ts us : List Token} {l : Lexeme} {ls : List Lexeme}

/-! ## Tilings -/

/-- The token stands for the text that begins behind `before`. -/
structure Token.StandsAt (t : Token) (before : List Char) : Prop where
  written : t.text ≠ ""
  span : t.span = ⟨utf8Length before, utf8Length before + utf8Length t.text.toList⟩
  line : t.line = 1 + lineBreaks before
  column : t.column = 1 + sinceBreak before

/-- The tokens tile the text. -/
structure Tiles (cs : List Char) (ts : List Token) : Prop where
  stands : ∀ t ∈ ts, ∃ before after, cs = before ++ t.text.toList ++ after ∧ t.StandsAt before
  sliced : ∀ t ∈ ts, slice cs t.span = t.text.toList
  ordered : ts.Pairwise fun t u => t.span.stop ≤ u.span.start
  /-- Only blanks are outside of all tokens. -/
  gaps : ∀ before c after, cs = before ++ c :: after → isBlank c = false →
    ∃ t ∈ ts, t.span.contains (utf8Length before) = true
  apart : ts.Pairwise fun t u => t.isUnexpected = true → u.isUnexpected = true →
    t.span.stop < u.span.start

/-- The tokens stand one behind the other in a text behind `before`, with blanks between them. -/
inductive Tiling : List Char → List Char → List Token → Prop
  | nil {before gap : List Char} : (∀ c ∈ gap, isBlank c = true) → Tiling before gap []
  | cons {before gap rest : List Char} {t : Token} {ts : List Token} : (∀ c ∈ gap, isBlank c = true) →
    t.StandsAt (before ++ gap) → Tiling (before ++ gap ++ t.text.toList) rest ts →
    Tiling before (gap ++ t.text.toList ++ rest) (t :: ts)

/-- A character of two texts put together is one of the first or of the second. -/
theorem append_eq_append_cons {as bs pre post : List Char}
    (h : as ++ bs = pre ++ c :: post) :
    (∃ mid, as = pre ++ c :: mid ∧ post = mid ++ bs) ∨ ∃ mid, pre = as ++ mid ∧ bs = mid ++ c :: post := by
  rcases List.append_eq_append_iff.mp h with ⟨mid, hpre, hbs⟩ | ⟨mid, has, hmid⟩
  · exact Or.inr ⟨mid, hpre, hbs⟩
  · cases mid with
    | nil => exact Or.inr ⟨[], by simpa using has.symm, by simpa using hmid.symm⟩
    | cons d mid =>
      obtain ⟨rfl, hpost⟩ := List.cons.inj hmid
      exact Or.inl ⟨mid, has, hpost⟩

namespace Token.StandsAt

theorem start_eq (h : t.StandsAt before) : t.span.start = utf8Length before := by rw [h.span]

theorem stop_eq (h : t.StandsAt before) : t.span.stop = utf8Length (before ++ t.text.toList) := by
  rw [h.span, utf8Length_append]

theorem start_lt_stop (h : t.StandsAt before) : t.span.start < t.span.stop := by
  obtain ⟨c, cs, htext⟩ := List.exists_cons_of_ne_nil (mt String.toList_eq_nil_iff.mp h.written)
  have hpos := c.utf8Size_pos
  rw [h.stop_eq, h.start_eq, htext, utf8Length_append, utf8Length_cons]
  exact Nat.lt_add_of_pos_right (Nat.add_pos_left hpos _)

end Token.StandsAt

namespace Tiling

theorem gap (hgap : ∀ c ∈ blanks, isBlank c = true) (h : Tiling (before ++ blanks) cs ts) :
    Tiling before (blanks ++ cs) ts := by
  generalize hbefore : before ++ blanks = b at h
  cases h with
  | nil hcs => exact .nil (List.forall_mem_append.mpr ⟨hgap, hcs⟩)
  | cons hgap' ht hrest =>
    subst hbefore
    rw [List.append_assoc before] at ht hrest
    have hcons := Tiling.cons (List.forall_mem_append.mpr ⟨hgap, hgap'⟩) ht hrest
    simpa using hcons

/-- A token with nothing before it. -/
theorem cons_next (h : Tiling (before ++ t.text.toList) rest ts) (ht : t.StandsAt before) :
    Tiling before (t.text.toList ++ rest) (t :: ts) := by
  rw [← List.append_nil before] at h ht
  exact .cons (List.forall_mem_nil _) ht h

theorem exists_stands (h : Tiling before cs ts) :
    ∀ t ∈ ts, ∃ pre post, cs = pre ++ t.text.toList ++ post ∧ t.StandsAt (before ++ pre) := by
  induction h with
  | nil => exact fun t ht => nomatch ht
  | @cons before gap rest t ts _ ht _ ih =>
    refine List.forall_mem_cons.mpr ⟨⟨gap, rest, rfl, ht⟩, fun u hu => ?_⟩
    obtain ⟨pre, post, rfl, hu⟩ := ih u hu
    exact ⟨gap ++ t.text.toList ++ pre, post, by simp, by simpa using hu⟩

theorem le_start (h : Tiling before cs ts) : ∀ t ∈ ts, utf8Length before ≤ t.span.start := by
  intro t ht
  obtain ⟨pre, post, -, hstands⟩ := h.exists_stands t ht
  rw [hstands.start_eq, utf8Length_append]
  exact Nat.le_add_right _ _

theorem ordered (h : Tiling before cs ts) : ts.Pairwise fun t u => t.span.stop ≤ u.span.start := by
  induction h with
  | nil => exact .nil
  | cons _ ht hrest ih =>
    refine .cons (fun u hu => ?_) ih
    rw [ht.stop_eq]
    exact hrest.le_start u hu

theorem gaps (h : Tiling before cs ts) {pre post : List Char} (hcs : cs = pre ++ c :: post)
    (hc : isBlank c = false) : ∃ t ∈ ts, t.span.contains (utf8Length (before ++ pre)) = true := by
  induction h generalizing pre with
  | nil hblank =>
    have hmem := hblank c (by simp [hcs])
    rw [hc] at hmem
    cases hmem
  | @cons before gap rest t ts hgap ht _ ih =>
    rw [List.append_assoc] at hcs
    rcases append_eq_append_cons hcs with ⟨mid, rfl, -⟩ | ⟨mid, rfl, htail⟩
    · have hmem := hgap c (by simp)
      rw [hc] at hmem
      cases hmem
    · rcases append_eq_append_cons htail with ⟨inner, htext, -⟩ | ⟨inner, rfl, hrest⟩
      · refine ⟨t, List.mem_cons_self, ?_⟩
        have hpos := c.utf8Size_pos
        simp only [Span.contains, ht.start_eq, ht.stop_eq, htext, utf8Length_append, utf8Length_cons,
          Bool.and_eq_true, decide_eq_true_eq]
        omega
      · obtain ⟨u, hu, hin⟩ := ih hrest
        exact ⟨u, List.mem_cons_of_mem t hu, by simpa using hin⟩

/-- Tokens that stand apart one by one stand apart. -/
theorem apart (h : Tiling before cs ts) (hchain : ts.IsChain fun t u => t.joins u = false) :
    ts.Pairwise fun t u => t.isUnexpected = true → u.isUnexpected = true →
      t.span.stop < u.span.start := by
  induction h with
  | nil => exact .nil
  | @cons before gap rest t ts _ ht hrest ih =>
    obtain ⟨hnext, hchain⟩ := List.isChain_cons.mp hchain
    refine .cons (fun u hu htbad hubad => ?_) (ih hchain)
    cases hrest with
    | nil => cases hu
    | @cons _ gap' _ w ws _ hw hrest' =>
      have hle : t.span.stop ≤ w.span.start := by
        rw [ht.stop_eq, hw.start_eq, utf8Length_append _ gap']
        exact Nat.le_add_right _ _
      rcases List.mem_cons.mp hu with rfl | hu
      · have hjoins := hnext u rfl
        simp only [Token.joins, htbad, hubad, Bool.true_and, beq_eq_false_iff_ne] at hjoins
        omega
      · have hstart := hrest'.le_start u hu
        have hlt := hw.start_lt_stop
        rw [← hw.stop_eq] at hstart
        omega

theorem tiles (h : Tiling [] cs ts) (hchain : ts.IsChain fun t u => t.joins u = false) :
    Tiles cs ts where
  stands := h.exists_stands
  sliced t ht := by
    obtain ⟨pre, post, rfl, hstands⟩ := h.exists_stands t ht
    rw [hstands.span]
    exact slice_append pre t.text.toList post
  ordered := h.ordered
  gaps _ _ _ hcs hc := h.gaps hcs hc
  apart := h.apart hchain

end Tiling

/-! ## Unexpected characters -/

theorem Token.toList_text_join (t u : Token) :
    (t.join u).text.toList = t.text.toList ++ u.text.toList := String.toList_append

/-- Joined tokens stand for both texts, with nothing between them. -/
theorem Token.StandsAt.join (ht : t.StandsAt before)
    (hu : u.StandsAt (before ++ t.text.toList)) : (t.join u).StandsAt before where
  written := by simp [Token.join, ht.written]
  span := by
    rw [toList_text_join, utf8Length_append]
    simp only [Token.join, Span.cover, ht.start_eq, ht.stop_eq, hu.start_eq, hu.stop_eq,
      utf8Length_append, Span.mk.injEq]
    omega
  line := ht.line
  column := ht.column

/-- Tokens join only if there is nothing between them. -/
theorem gap_eq_nil (hjoins : t.joins u = true) (ht : t.StandsAt before)
    (hu : u.StandsAt (before ++ t.text.toList ++ blanks)) : blanks = [] := by
  simp only [Token.joins, Bool.and_eq_true, beq_iff_eq] at hjoins
  have hlength := hjoins.2
  rw [ht.stop_eq, hu.start_eq, utf8Length_append _ blanks] at hlength
  exact eq_nil_of_utf8Length (by omega)

theorem Tiling.joinUnexpected (h : Tiling before cs ts) :
    Tiling before cs (Token.joinUnexpected ts) := by
  induction h with
  | nil hgap => exact .nil hgap
  | @cons before gap rest t ts hgap ht _ ih =>
    rw [Token.joinUnexpected]
    cases hts : Token.joinUnexpected ts with
    | nil =>
      rw [hts] at ih
      exact .cons hgap ht ih
    | cons u us =>
      rw [hts] at ih
      simp only
      split_ifs with hjoins
      · cases ih with
        | @cons _ gap' _ _ _ _ hu hrest =>
          obtain rfl := gap_eq_nil hjoins ht hu
          simp only [List.append_nil] at hu hrest
          rw [List.append_assoc _ t.text.toList, ← Token.toList_text_join] at hrest
          have hjoined := Tiling.cons hgap (ht.join hu) hrest
          simpa [Token.toList_text_join] using hjoined
      · exact .cons hgap ht ih

theorem isChain_joinUnexpected (h : ∀ t ∈ ts, t.span.start ≤ t.span.stop) :
    (Token.joinUnexpected ts).IsChain fun t u => t.joins u = false := by
  induction ts with
  | nil => exact .nil
  | cons t ts ih =>
    obtain ⟨ht, hts⟩ := List.forall_mem_cons.mp h
    have hspans := Token.forall_joinUnexpected (p := fun t => t.span.start ≤ t.span.stop)
      (fun t u _ ht hu => by simp only [Token.join, Span.cover]; omega) hts
    have hchain := ih hts
    rw [Token.joinUnexpected]
    cases hjoined : Token.joinUnexpected ts with
    | nil => exact .singleton t
    | cons u us =>
      rw [hjoined] at hspans hchain
      simp only
      split_ifs with hjoins
      · obtain ⟨hnext, hrest⟩ := List.isChain_cons.mp hchain
        simp only [Token.joins, Bool.and_eq_true, beq_iff_eq] at hjoins
        obtain ⟨⟨htbad, hubad⟩, hmeet⟩ := hjoins
        have hstop : (t.join u).span.stop = u.span.stop :=
          max_eq_right (hmeet ▸ hspans u List.mem_cons_self)
        have hbad : (t.join u).isUnexpected = u.isUnexpected := htbad.trans hubad.symm
        refine List.isChain_cons.mpr ⟨fun w hw => ?_, hrest⟩
        rw [Token.joins, hstop, hbad]
        exact hnext w hw
      · exact List.isChain_cons_cons.mpr ⟨Bool.eq_false_of_not_eq_true hjoins, hchain⟩

/-! ## Lexemes -/

theorem Escaped.not_isLineBreak (h : Escaped cs) : ∀ c ∈ cs, isLineBreak c = false := by
  induction h with
  | nil => exact fun c hc => nomatch hc
  | plain _ _ hbreak _ ih => exact List.forall_mem_cons.mpr ⟨hbreak, ih⟩
  | escape hbreak _ ih =>
    exact List.forall_mem_cons.mpr ⟨by decide, List.forall_mem_cons.mpr ⟨hbreak, ih⟩⟩

theorem Quoting.Reads.not_splitsBreak {q : Quoting} {body rest : List Char} {closed : Bool}
    (h : q.Reads body closed rest) : ¬ SplitsBreak (q.opener ++ body) rest := by
  rintro ⟨hlast, hfeed⟩
  cases h with
  | close =>
    rw [← List.append_assoc, List.getLast?_concat] at hlast
    cases q <;> exact absurd hlast (by decide)
  | stop hunits hstop =>
    have hmem := List.mem_of_getLast? hlast
    cases q with
    | escaped =>
      rcases List.mem_append.mp hmem with hmem | hmem
      · exact absurd hmem (by decide)
      · exact absurd (Escaped.not_isLineBreak hunits _ hmem) (by decide)
    | verbatim | single => exact absurd (hstop _ hfeed).1 (by decide)
  | lone =>
    rw [← List.append_assoc, List.getLast?_concat] at hlast
    exact absurd hlast (by decide)

theorem Lexeme.IsHead.matches {kind : LexicalClass} (h : l.IsHead rest) (hkind : l.kind = some kind) :
    kind.Matches l.text rest := by
  cases h with
  | matched hmatches => exact Option.some.inj hkind ▸ hmatches
  | stuck => cases hkind

/-- No lexeme ends within a line break. -/
theorem Lexeme.IsHead.not_splitsBreak (h : l.IsHead rest) (hne : l.text ≠ []) :
    ¬ SplitsBreak l.text rest := by
  rintro ⟨hlast, hfeed⟩
  have hmem := List.mem_of_getLast? hlast
  cases h with
  | @matched kind text rest hmatches hlongest =>
    cases hmatches with
    | blank hblank =>
      obtain ⟨ds, rfl⟩ := List.head?_eq_some_iff.mp hfeed
      have hall : ∀ c ∈ text ++ ['\n'], isBlank c = true :=
        List.forall_mem_append.mpr ⟨(mem_run.mp hblank).2, List.forall_mem_singleton.mpr (by decide)⟩
      have hlonger : text ++ ['\n'] ∈ CharPattern.blank := mem_run.mpr ⟨by simp, hall⟩
      rcases hlongest .blank (text ++ ['\n']) ds (by simp) (.blank hlonger) with hlt | ⟨hsame, -⟩
      · rw [List.length_append] at hlt
        omega
      · simp at hsame
    | comment h => exact absurd (over_comment _ h _ hmem) (by decide)
    | word h => exact absurd (over_word _ h _ hmem) (by decide)
    | number h => exact absurd (over_number _ h _ hmem) (by decide)
    | quoted hreads => exact hreads.not_splitsBreak ⟨hlast, hfeed⟩
    | operator op =>
      have hno : '\r' ∉ op.text.toList := by cases op <;> decide
      exact hno hmem
  | @stuck text rest hunmatched hbegins =>
    match text with
    | [] => exact hne rfl
    | [c] =>
      obtain rfl : '\r' = c := List.mem_singleton.mp hmem
      have hone : ['\r'] ∈ CharPattern.blank :=
        mem_run.mpr ⟨List.cons_ne_nil _ _, List.forall_mem_singleton.mpr (by decide)⟩
      exact hunmatched .blank ['\r'] rest rfl (.blank hone)
    | c :: d :: ds =>
      obtain ⟨more, hword⟩ := hunmatched.exists_word (hbegins.resolve_right (by simp))
      exact absurd (over_word _ hword _ (List.mem_append_left _ hmem)) (by decide)

namespace Vocabulary

theorem standsAt_of_mem_tokenOf (h : t ∈ v.tokenOf e (Place.advance {} before) l) (hne : l.text ≠ []) :
    t.StandsAt before ∧ t.text.toList = l.text := by
  rw [Place.advance_start] at h
  obtain ⟨_, _, _, _, rfl⟩ := exists_plain_of_mem_tokenOf h
  have htext : (String.ofList l.text).toList = l.text := String.toList_ofList
  exact ⟨⟨by simpa [Token.plain] using hne, by simp [Token.plain], rfl, rfl⟩, htext⟩

theorem blank_of_tokenOf_eq_none {place : Place} (h : v.tokenOf e place l = none) :
    l.kind = some .blank := by
  unfold tokenOf at h
  split at h
  · assumption
  all_goals cases h

theorem tiling_tokensFrom (h : Cuts cs ls) (hsplits : ¬ SplitsBreak before cs) :
    Tiling before cs (v.tokensFrom e (Place.advance {} before) ls) := by
  induction h generalizing before with
  | nil => exact .nil (List.forall_mem_nil _)
  | @cons l rest ls hne hhead _ ih =>
    have hnext : ¬ SplitsBreak (before ++ l.text) rest :=
      fun h => hhead.not_splitsBreak hne (h.of_append_left hne)
    have hrest := ih hnext
    rw [Place.advance_append fun h => hsplits (h.append_right rest)] at hrest
    rw [tokensFrom]
    cases htoken : v.tokenOf e (Place.advance {} before) l with
    | none =>
      cases hhead.matches (blank_of_tokenOf_eq_none htoken) with
      | blank hblank => exact hrest.gap (mem_run.mp hblank).2
    | some t =>
      obtain ⟨hstands, htext⟩ := standsAt_of_mem_tokenOf htoken hne
      rw [← htext] at hrest ⊢
      exact hrest.cons_next hstands

/-- The tokens of a text behind another one tile it, and no two of them are to be joined. -/
theorem tiling_scanFrom (v : Vocabulary) (e : Extent) (before cs : List Char)
    (hsplits : ¬ SplitsBreak before cs) :
    Tiling before cs (v.scanFrom e (Place.advance {} before) cs) ∧
      (v.scanFrom e (Place.advance {} before) cs).IsChain fun t u => t.joins u = false := by
  have htiling := tiling_tokensFrom (v := v) (e := e) (Lexeme.cuts_split cs) hsplits
  refine ⟨htiling.joinUnexpected, isChain_joinUnexpected fun t ht => ?_⟩
  obtain ⟨_, _, -, hstands⟩ := htiling.exists_stands t ht
  exact hstands.start_lt_stop.le

/-- What an open quotation of an earlier line takes of a line ends within no line break. -/
theorem not_splitsBreak_of_doubledBody {quote : Char} (hquote : quote ≠ '\r') (line : List Char) :
    ¬ SplitsBreak (line.take (doubledBody quote line).length)
      (line.drop (doubledBody quote line).length) := by
  rintro ⟨hlast, hfeed⟩
  rcases doubledBody_cases quote line with hopen | ⟨body, rest, rfl, hbody, hrest⟩
  · rw [hopen.doubledBody_eq, List.drop_length] at hfeed
    cases hfeed
  · have hassoc : body ++ quote :: rest = body ++ [quote] ++ rest := by simp
    rw [hbody.doubledBody_close hrest, hassoc, List.take_left' (by simp), List.getLast?_concat] at hlast
    exact hquote (Option.some.inj hlast)

theorem length_doubledBody_of_open {quote : Char} (h : (doubledBody quote line).closed = false) :
    (doubledBody quote line).length = line.length := by
  rcases doubledBody_cases quote line with hopen | ⟨body, rest, rfl, hbody, hrest⟩
  · rw [hopen.doubledBody_eq]
  · rw [hbody.doubledBody_close hrest] at h
    cases h

theorem standsAt_continuationToken (q : Quoting) (closed : Bool) (hne : cs ≠ []) :
    (v.continuationToken q closed cs).StandsAt [] where
  written := by simpa [continuationToken, Token.plain] using hne
  span := by simp [continuationToken, Token.plain]
  line := rfl
  column := rfl

/-- The rest of a quotation, and the tokens behind it. -/
theorem tiles_resumed (q : Quoting) (closed : Bool) (h : Tiling text rest ts)
    (hchain : ts.IsChain fun t u => t.joins u = false) :
    Tiles (text ++ rest) ((if text = [] then [] else [v.continuationToken q closed text]) ++ ts) := by
  by_cases hempty : text = []
  · subst hempty
    rw [if_pos rfl]
    exact h.tiles hchain
  · have hstands := standsAt_continuationToken (v := v) q closed hempty
    have htext : (v.continuationToken q closed text).text.toList = text := String.toList_ofList
    rw [← htext] at h
    have htiling := Tiling.cons_next h hstands
    rw [htext] at htiling
    rw [if_neg hempty]
    exact htiling.tiles (List.isChain_cons.mpr ⟨fun u _ => rfl, hchain⟩)

/-- The tokens of a line tile it, in whatever state it is resumed. -/
theorem tiles_scanLine (v : Vocabulary) (line : List Char) (state : LineState) :
    Tiles line (v.scanLine line state).tokens := by
  unfold scanLine
  cases hstate : state.quoting? with
  | none =>
    obtain ⟨htiling, hchain⟩ := tiling_scanFrom v .line [] line nofun
    exact htiling.tiles hchain
  | some q =>
    have hline := List.take_append_drop (doubledBody q.closer line).length line
    simp only
    cases hclosed : (doubledBody q.closer line).closed with
    | true =>
      have hquote : q.closer ≠ '\r' := by cases q <;> decide
      obtain ⟨htiling, hchain⟩ :=
        tiling_scanFrom v .line _ _ (not_splitsBreak_of_doubledBody hquote line)
      have htiles := tiles_resumed (v := v) q true htiling hchain
      rwa [hline] at htiles
    | false =>
      have hwhole : line.take (doubledBody q.closer line).length = line := by
        rw [length_doubledBody_of_open hclosed, List.take_length]
      have htiling : Tiling line [] [] := .nil (List.forall_mem_nil _)
      have htiles := tiles_resumed (v := v) q false htiling .nil
      rw [hwhole]
      rwa [List.append_nil, List.append_nil] at htiles

theorem tiles_source (v : Vocabulary) (source : String) : Tiles source.toList (v.scan source) := by
  obtain ⟨htiling, hchain⟩ := tiling_scanFrom v .whole [] source.toList nofun
  exact htiling.tiles hchain

/-- **Tiling.** The tokens of a text tile it, and so do those of a line in any state. -/
theorem tiles_scan (v : Vocabulary) :
    (∀ source : String, Tiles source.toList (v.scan source)) ∧
    ∀ (line : List Char) (state : LineState), Tiles line (v.scanLine line state).tokens :=
  ⟨v.tiles_source, v.tiles_scanLine⟩

end Vocabulary

end FourGL
