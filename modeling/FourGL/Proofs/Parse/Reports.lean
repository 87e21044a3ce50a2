import FourGL.Proofs.Parse.SourceOrder
import FourGL.Proofs.Parse.Verdict
import FourGL.Proofs.Token.Tiling

/-!
# Reports as an ordered cut

What is reported about a text are the syntax errors that the machine has reported and the lexical errors of
the text, by position. Beyond a limit they are only counted.

**Theorem (`reports_cut`).** The reports of a parse are ordered by position and lie within the text. If all
errors together are within the limit, the reports are their stable sort. Otherwise they are its beginning,
with a warning at the last report kept that tells how many are missing. Every lexical error has one report
before the cut.

A report of the machine points at a token that the parser reads or at the end of the text, and lexical errors
are not read. So no syntax error is reported where a lexical error is (`Language.lexical_reported`).
-/

namespace FourGL

/-! ## Sorting by position -/

namespace Diagnostic

variable {a b c : Diagnostic} {reports sorted : List Diagnostic} {limit : Nat}

/-- One report comes no later than another: by the start of its span, then by the end. -/
def Precedes (a b : Diagnostic) : Prop :=
  a.span.start < b.span.start ∨ a.span.start = b.span.start ∧ a.span.stop ≤ b.span.stop

theorem notAfter_iff : a.notAfter b = true ↔ a.Precedes b := by
  rw [notAfter, Bool.or_eq_true, Bool.and_eq_true, decide_eq_true_eq, beq_iff_eq, decide_eq_true_eq,
    Precedes]

theorem notAfter_trans (a b c : Diagnostic) (hab : a.notAfter b = true) (hbc : b.notAfter c = true) :
    a.notAfter c = true := by
  rw [notAfter_iff, Precedes] at hab hbc ⊢
  omega

theorem notAfter_total (a b : Diagnostic) : (a.notAfter b || b.notAfter a) = true := by
  rw [Bool.or_eq_true, notAfter_iff, notAfter_iff, Precedes, Precedes]
  omega

theorem precedes_of_span_eq (h : a.span = b.span) : a.Precedes b :=
  Or.inr ⟨by rw [h], by rw [h]⟩

/-- The reports by position, where those at one position are in the order in which they came. -/
structure IsStableSort (reports sorted : List Diagnostic) : Prop where
  perm : sorted.Perm reports
  ordered : sorted.Pairwise Precedes
  stable : ∀ span : Span, sorted.filter (·.span = span) = reports.filter (·.span = span)

theorem isStableSort_mergeSort (reports : List Diagnostic) :
    IsStableSort reports (reports.mergeSort notAfter) := by
  have hperm : (reports.mergeSort notAfter).Perm reports := List.mergeSort_perm _ _
  refine ⟨hperm, ?_, fun span => ?_⟩
  · exact (List.pairwise_mergeSort notAfter_trans notAfter_total reports).imp notAfter_iff.mp
  · -- The reports at one position are in order already, so sorting keeps them as a sublist.
    have hordered : (reports.filter (·.span = span)).Pairwise fun a b => a.notAfter b = true := by
      refine List.Pairwise.imp_of_mem ?_ (List.pairwise_of_forall fun _ _ => trivial)
      intro a b ha hb _
      have hspan : a.span = span := of_decide_eq_true (List.mem_filter.mp ha).2
      have hspan' : b.span = span := of_decide_eq_true (List.mem_filter.mp hb).2
      exact notAfter_iff.mpr (precedes_of_span_eq (hspan.trans hspan'.symm))
    have hsub := (List.sublist_mergeSort notAfter_trans notAfter_total hordered
      List.filter_sublist).filter (·.span = span)
    rw [List.filter_filter] at hsub
    simp only [Bool.and_self] at hsub
    exact (hsub.eq_of_length (hperm.filter _).length_eq.symm).symm

/-! ## The cut -/

/-- A warning that some reports are missing, at the last one kept, or at the start of the text. -/
structure IsNotice (count : Nat) (kept : List Diagnostic) (w : Diagnostic) : Prop where
  severity : w.severity = .warning
  message : w.message = s!"{count} more diagnostics not shown"
  last : ∀ d, kept.getLast? = some d → w.line = d.line ∧ w.column = d.column ∧ w.span = d.span
  first : kept = [] → w.line = 1 ∧ w.column = 1 ∧ w.span = .emptyAt 0

theorem isNotice_missing (count : Nat) (kept : List Diagnostic) :
    IsNotice count kept (missing count kept.getLast?) := by
  cases hlast : kept.getLast? with
  | none =>
    refine ⟨rfl, rfl, fun d hd => ?_, fun _ => ⟨rfl, rfl, rfl⟩⟩
    rw [hlast] at hd
    cases hd
  | some last =>
    refine ⟨rfl, rfl, fun d hd => ?_, fun hnil => ?_⟩
    · rw [hlast] at hd
      cases hd
      exact ⟨rfl, rfl, rfl⟩
    · rw [hnil] at hlast
      cases hlast

theorem inOrder_of_le (h : reports.length ≤ limit) :
    inOrder limit reports = reports.mergeSort notAfter := by
  rw [inOrder, List.length_mergeSort, if_neg (Nat.not_lt.mpr h)]

theorem inOrder_of_lt (h : limit < reports.length) :
    ∃ w, IsNotice (reports.length - limit) ((reports.mergeSort notAfter).take limit) w ∧
      inOrder limit reports = (reports.mergeSort notAfter).take limit ++ [w] := by
  rw [inOrder, List.length_mergeSort, if_pos h]
  exact ⟨_, isNotice_missing _ _, rfl⟩

/-- The notice stands in order behind the reports that are kept. -/
theorem IsNotice.pairwise {count : Nat} {kept : List Diagnostic} {w : Diagnostic}
    (h : IsNotice count kept w) (hkept : kept.Pairwise Precedes) : (kept ++ [w]).Pairwise Precedes := by
  refine List.pairwise_append.mpr ⟨hkept, List.pairwise_singleton _ _, fun d hd w' hw' => ?_⟩
  obtain rfl := List.mem_singleton.mp hw'
  rcases List.eq_nil_or_concat' kept with rfl | ⟨front, last, rfl⟩
  · cases hd
  · have hspan : last.span = w'.span := (h.last last List.getLast?_concat).2.2.symm
    have hlast : d.Precedes last := by
      rcases List.mem_append.mp hd with hfront | hd
      · exact (List.pairwise_append.mp hkept).2.2 d hfront last (List.mem_singleton_self _)
      · obtain rfl := List.mem_singleton.mp hd
        exact precedes_of_span_eq rfl
    rw [Precedes, hspan] at hlast
    exact hlast

/-- The span of a notice is that of a report, or empty at the start of the text. -/
theorem IsNotice.span_eq {count : Nat} {kept : List Diagnostic} {w : Diagnostic}
    (h : IsNotice count kept w) : (∃ d ∈ kept, w.span = d.span) ∨ w.span = .emptyAt 0 := by
  cases hlast : kept.getLast? with
  | none => exact Or.inr (h.first (List.getLast?_eq_none_iff.mp hlast)).2.2
  | some d => exact Or.inl ⟨d, List.mem_of_getLast? hlast, (h.last d hlast).2.2⟩

theorem pairwise_inOrder (limit : Nat) (reports : List Diagnostic) :
    (inOrder limit reports).Pairwise Precedes := by
  have hsorted := (isStableSort_mergeSort reports).ordered
  by_cases hle : reports.length ≤ limit
  · rw [inOrder_of_le hle]
    exact hsorted
  · obtain ⟨w, hw, heq⟩ := inOrder_of_lt (Nat.lt_of_not_le hle)
    rw [heq]
    exact hw.pairwise (hsorted.sublist (List.take_sublist _ _))

/-- Every report in order has the span of one of the reports, or is empty at the start of the text. -/
theorem span_of_mem_inOrder {d : Diagnostic} (hd : d ∈ inOrder limit reports) :
    (∃ d' ∈ reports, d.span = d'.span) ∨ d.span = .emptyAt 0 := by
  have hmem : ∀ d', d' ∈ reports.mergeSort notAfter → d' ∈ reports := fun d' =>
    (List.mergeSort_perm reports notAfter).mem_iff.mp
  by_cases hle : reports.length ≤ limit
  · rw [inOrder_of_le hle] at hd
    exact Or.inl ⟨d, hmem d hd, rfl⟩
  · obtain ⟨w, hw, heq⟩ := inOrder_of_lt (Nat.lt_of_not_le hle)
    rw [heq] at hd
    rcases List.mem_append.mp hd with hkept | hd
    · exact Or.inl ⟨d, hmem d (List.mem_of_mem_take hkept), rfl⟩
    · obtain rfl := List.mem_singleton.mp hd
      rcases hw.span_eq with ⟨d', hd', hspan⟩ | hspan
      · exact Or.inl ⟨d', hmem d' (List.mem_of_mem_take hd'), hspan⟩
      · exact Or.inr hspan

end Diagnostic

/-! ## The reports of the machine -/

namespace Report

variable {l : Language} {input : Input} {d : Diagnostic} {tokens : List Token} {stop position : Nat}

/-- A report of a syntax error: of something unexpected, or that the parser stops. -/
inductive IsSyntactic (l : Language) (input : Input) : Diagnostic → Prop
  | unexpected (position : Nat) (s : StateId) : IsSyntactic l input (Report.unexpected l input position s)
  | stopped (position : Nat) : IsSyntactic l input (Report.stopped input position)

/-- A token at a position is one that the parser reads. -/
theorem mem_of_token? {t : Token} (h : (Input.ofTokens tokens stop).token? position = some t) :
    t ∈ tokens ∧ t.isGrammatical = true := by
  obtain ⟨i, hi, ht⟩ := Option.bind_eq_some_iff.mp h
  have hstream : i ∈ (Input.ofTokens tokens stop).stream.toList :=
    Array.mem_toList_iff.mpr (Array.mem_of_getElem? hi)
  obtain ⟨t', ht', hread⟩ := Input.mem_stream.mp hstream
  rw [ht] at ht'
  cases ht'
  refine ⟨?_, hread⟩
  rw [Input.ofTokens, List.getElem?_toArray] at ht
  exact List.mem_of_getElem? ht

/-- A report on a position points at the token there or at the one before. -/
theorem exists_token_of_anchor? {t : Token} (h : anchor? input position = some t) :
    ∃ position, input.token? position = some t := by
  have hbefore : ∀ u, (if position = 0 then none else input.token? (position - 1)) = some u →
      ∃ position, input.token? position = some u := by
    intro u hu
    split at hu
    · cases hu
    · exact ⟨_, hu⟩
  simp only [anchor?] at h
  split at h
  · exact hbefore t h
  · next hhere hprevious =>
    split at h
    · cases h
      exact hbefore _ hprevious
    · cases h
      exact ⟨position, hhere⟩
  · next hhere _ =>
    cases h
    exact ⟨position, hhere⟩

theorem span_errorAt_anchor? (message : String) :
    (∃ t position', input.token? position' = some t ∧
      (Diagnostic.errorAt (anchor? input position) input.stop message).span = t.span) ∨
    (Diagnostic.errorAt (anchor? input position) input.stop message).span = .emptyAt input.stop := by
  cases h : anchor? input position with
  | none => exact Or.inr rfl
  | some t =>
    obtain ⟨position', ht⟩ := exists_token_of_anchor? h
    exact Or.inl ⟨t, position', ht, rfl⟩

/-- A report of a syntax error has the span of a token that is read, or is empty at the end of the text. -/
theorem IsSyntactic.span_eq (h : IsSyntactic l (.ofTokens tokens stop) d) :
    (∃ t ∈ tokens, t.isGrammatical = true ∧ d.span = t.span) ∨ d.span = .emptyAt stop := by
  have hanchor : (∃ t position, (Input.ofTokens tokens stop).token? position = some t ∧
      d.span = t.span) ∨ d.span = .emptyAt stop := by
    cases h with
    | unexpected position s => exact span_errorAt_anchor? _
    | stopped position => exact span_errorAt_anchor? _
  rcases hanchor with ⟨t, position, ht, hspan⟩ | hspan
  · obtain ⟨hmem, hread⟩ := mem_of_token? ht
    exact Or.inl ⟨t, hmem, hread, hspan⟩
  · exact Or.inr hspan

end Report

namespace Machine

variable {l : Language} {limits : Limits} {input : Input} {m m' : Machine} {s : StateId}
  {allowance n : Nat} {ending : Ending}

/-- All reports of the machine are of syntax errors. -/
def ReportsSyntax (l : Language) (input : Input) (m : Machine) : Prop :=
  ∀ d ∈ m.reports, Report.IsSyntactic l input d

theorem ReportsSyntax.noteError (h : m.ReportsSyntax l input) :
    (m.noteError l input s).ReportsSyntax l input := by
  intro d hd
  simp only [Machine.noteError] at hd
  split at hd
  · rcases List.mem_cons.mp hd with rfl | hd
    · exact .unexpected m.position s
    · exact h d hd
  · exact h d hd

theorem ReportsSyntax.move (h : m.ReportsSyntax l input) (hm : Move l input m m') :
    m'.ReportsSyntax l input := by
  cases hm with
  | shift _ _ => exact h
  | reduce _ _ _ _ => exact h
  | repair _ _ _ _ => exact h.noteError
  | discard _ _ => exact h.noteError

/-- The last step of a run adds no report, that of an error, or also that the parser stops. -/
theorem reports_of_done (h : m.step l limits input allowance = some (.done m' ending)) :
    m'.reports = m.reports ∨ ∃ s, m'.reports = (m.noteError l input s).reports ∨
      m'.reports = Report.stopped input m.position :: (m.noteError l input s).reports := by
  simp only [step] at h
  split at h
  · cases h
    exact Or.inl rfl
  · next top frames hstack =>
    split at h
    · cases h
    · simp only [reduce] at h
      split at h
      · cases h
        exact Or.inl rfl
      · split at h <;> cases h
        exact Or.inl rfl
    · cases h
      exact Or.inl rfl
    · refine Or.inr ⟨top.state, ?_⟩
      simp only [recover] at h
      split at h
      · cases h
        exact Or.inr rfl
      · split at h
        · cases h
        · cases h
        · split at h <;> cases h
          exact Or.inl rfl

theorem ReportsSyntax.done (h : m.ReportsSyntax l input)
    (hstep : m.step l limits input allowance = some (.done m' ending)) :
    m'.ReportsSyntax l input := by
  intro d hd
  rcases reports_of_done hstep with heq | ⟨s, heq | heq⟩
  · exact h d (heq ▸ hd)
  · exact h.noteError d (heq ▸ hd)
  · rw [heq] at hd
    rcases List.mem_cons.mp hd with rfl | hd
    · exact .stopped m.position
    · exact h.noteError d hd

/-- **The machine reports syntax errors**, and nothing else. -/
theorem reportsSyntax_of_run (h : initial.run l limits input n = some (m, ending)) :
    m.ReportsSyntax l input := by
  obtain ⟨last, allowance, hmoves, hlast⟩ := moves_of_run h
  have hall : last.ReportsSyntax l input := by
    clear hlast
    induction hmoves with
    | refl => exact fun d hd => absurd hd List.not_mem_nil
    | tail _ hmove ih => exact ih.move hmove
  exact hall.done hlast

end Machine

/-! ## Lexical errors -/

namespace Tiles

variable {cs : List Char} {tokens : List Token} {t u : Token}

theorem start_lt_stop (h : Tiles cs tokens) (ht : t ∈ tokens) : t.span.start < t.span.stop := by
  obtain ⟨_, _, -, hstands⟩ := h.stands t ht
  exact hstands.start_lt_stop

theorem stop_le (h : Tiles cs tokens) (ht : t ∈ tokens) : t.span.stop ≤ utf8Length cs := by
  obtain ⟨before, after, rfl, hstands⟩ := h.stands t ht
  rw [hstands.stop_eq, utf8Length_append (before ++ _)]
  exact Nat.le_add_right _ _

/-- No two tokens have the same span. -/
theorem distinct (h : Tiles cs tokens) : tokens.Pairwise fun t u => t.span ≠ u.span := by
  refine h.ordered.imp_of_mem fun {t u} _ hu hle heq => ?_
  have hlt := h.start_lt_stop hu
  rw [heq] at hle
  exact absurd hlt (Nat.not_lt.mpr hle)

/-- A token is the only one with its span. -/
theorem filter_span_eq (h : tokens.Pairwise fun t u => t.span ≠ u.span) (ht : t ∈ tokens) :
    tokens.filter (·.span = t.span) = [t] := by
  induction tokens with
  | nil => cases ht
  | cons u tokens ih =>
    obtain ⟨hu, hrest⟩ := List.pairwise_cons.mp h
    rcases List.mem_cons.mp ht with rfl | ht
    · rw [List.filter_cons_of_pos (by simp)]
      refine congrArg (t :: ·) (List.filter_eq_nil_iff.mpr fun v hv => ?_)
      rw [decide_eq_true_eq]
      exact (hu v hv).symm
    · rw [List.filter_cons_of_neg (by rw [decide_eq_true_eq]; exact hu t ht), ih hrest ht]

theorem eq_of_span_eq (h : Tiles cs tokens) (ht : t ∈ tokens) (hu : u ∈ tokens)
    (hspan : t.span = u.span) : t = u := by
  have hmem : t ∈ tokens.filter (·.span = u.span) := List.mem_filter.mpr ⟨ht, decide_eq_true hspan⟩
  rw [filter_span_eq h.distinct hu] at hmem
  exact List.mem_singleton.mp hmem

end Tiles

namespace Parse

variable {l : Language} {m : Machine} {tokens : List Token} {cs : List Char} {t : Token}

/-- No syntax error is reported where a lexical error is. -/
theorem span_ne_of_isSyntactic (htiles : Tiles cs tokens) (ht : t ∈ tokens) (herror : t.isError = true)
    {d : Diagnostic} (hd : Report.IsSyntactic l (.ofTokens tokens (utf8Length cs)) d) :
    d.span ≠ t.span := by
  intro heq
  rcases hd.span_eq with ⟨u, hu, hread, hspan⟩ | hspan
  · obtain rfl := htiles.eq_of_span_eq hu ht (hspan.symm.trans heq)
    rw [Token.isGrammatical, eq_of_beq herror] at hread
    cases hread
  · have hlt := htiles.start_lt_stop ht
    rw [← heq, hspan] at hlt
    exact absurd hlt (Nat.lt_irrefl _)

/-- **A lexical error has one report** among all errors of the text. -/
theorem filter_reportsOf (htiles : Tiles cs tokens)
    (hm : m.ReportsSyntax l (.ofTokens tokens (utf8Length cs))) (ht : t ∈ tokens)
    (herror : t.isError = true) :
    (reportsOf m tokens).filter (·.span = t.span) = [Report.lexical t] := by
  have hsyntax : m.reports.reverse.filter (·.span = t.span) = [] := by
    refine List.filter_eq_nil_iff.mpr fun d hd => ?_
    rw [decide_eq_true_eq]
    exact span_ne_of_isSyntactic htiles ht herror (hm d (List.mem_reverse.mp hd))
  have hlexical : (tokens.filter Token.isError).filter (·.span = t.span) = [t] :=
    Tiles.filter_span_eq (htiles.distinct.filter _) (List.mem_filter.mpr ⟨ht, herror⟩)
  rw [reportsOf, List.filter_append, hsyntax, List.nil_append, List.filter_map]
  exact congrArg (List.map Report.lexical) hlexical

theorem length_reportsOf (m : Machine) (tokens : List Token) :
    (reportsOf m tokens).length = m.reports.length + tokens.countP Token.isError := by
  rw [reportsOf, List.length_append, List.length_reverse, List.length_map, List.countP_eq_length_filter]

/-- All errors of a text lie within it. -/
theorem within_reportsOf (htiles : Tiles cs tokens)
    (hm : m.ReportsSyntax l (.ofTokens tokens (utf8Length cs))) :
    ∀ d ∈ reportsOf m tokens, d.span.start ≤ d.span.stop ∧ d.span.stop ≤ utf8Length cs := by
  intro d hd
  have hspan : (∃ t ∈ tokens, d.span = t.span) ∨ d.span = .emptyAt (utf8Length cs) := by
    rcases List.mem_append.mp hd with hd | hd
    · rcases (hm d (List.mem_reverse.mp hd)).span_eq with ⟨t, ht, -, hspan⟩ | hspan
      · exact Or.inl ⟨t, ht, hspan⟩
      · exact Or.inr hspan
    · obtain ⟨t, ht, rfl⟩ := List.mem_map.mp hd
      exact Or.inl ⟨t, (List.mem_filter.mp ht).1, rfl⟩
  rcases hspan with ⟨t, ht, hspan⟩ | hspan
  · rw [hspan]
    exact ⟨(htiles.start_lt_stop ht).le, htiles.stop_le ht⟩
  · rw [hspan]
    exact ⟨Nat.le_refl _, Nat.le_refl _⟩

/-- The reports of a parse are an ordered cut of all errors of its text: those that the machine has
reported, and the lexical ones. -/
structure IsCut (p : Parse) (limit : Nat) (m : Machine) (sorted : List Diagnostic) : Prop where
  sort : Diagnostic.IsStableSort (reportsOf m p.tokens.toList) sorted
  severe : ∀ d ∈ sorted, d.severity = .error
  ordered : p.diagnostics.Pairwise Diagnostic.Precedes
  within : ∀ d ∈ p.diagnostics, d.span.start ≤ d.span.stop ∧ d.span.stop ≤ utf8Length p.source.toList
  whole : m.reports.length + p.tokens.toList.countP Token.isError ≤ limit → p.diagnostics = sorted
  cut : limit < m.reports.length + p.tokens.toList.countP Token.isError →
    ∃ count w, count + limit = m.reports.length + p.tokens.toList.countP Token.isError ∧
      Diagnostic.IsNotice count (sorted.take limit) w ∧ p.diagnostics = sorted.take limit ++ [w]
  lexical : ∀ t ∈ p.tokens.toList, t.isError = true →
    sorted.filter (·.span = t.span) = [Report.lexical t]

end Parse

/-- **Reports.** The reports of every parse are an ordered cut of all errors of its text. -/
theorem reports_cut {l : Language} {limits : Limits} {source : String} {n : Nat} {p : Parse}
    (h : l.parseWithin n limits source = some p) :
    ∃ m ending, Machine.initial.run l limits (l.grammar.inputOf source) n = some (m, ending) ∧
      ∃ sorted, p.IsCut limits.diagnostics m sorted := by
  obtain ⟨m, ending, hrun, rfl⟩ := Language.parseWithin_eq_some h
  have htiles := l.grammar.vocabulary.tiles_source source
  have hsyntax := Machine.reportsSyntax_of_run hrun
  have hsort := Diagnostic.isStableSort_mergeSort
    (Parse.reportsOf m (l.grammar.vocabulary.scan source))
  refine ⟨m, ending, hrun, _, hsort, fun d hd => ?_, Diagnostic.pairwise_inOrder _ _, fun d hd => ?_,
    fun hle => ?_, fun hlt => ?_, fun t ht herror => ?_⟩
  · exact ((Machine.recorded_of_run hrun).reportsOf _).1 d (hsort.perm.mem_iff.mp hd)
  · rcases Diagnostic.span_of_mem_inOrder hd with ⟨d', hd', hspan⟩ | hspan
    · rw [hspan]
      exact Parse.within_reportsOf htiles hsyntax d' hd'
    · rw [hspan]
      exact ⟨Nat.le_refl _, Nat.zero_le _⟩
  · exact Diagnostic.inOrder_of_le (by rwa [Parse.length_reportsOf])
  · rw [← Parse.length_reportsOf] at hlt
    obtain ⟨w, hw, heq⟩ := Diagnostic.inOrder_of_lt hlt
    refine ⟨_, w, ?_, hw, heq⟩
    rw [Nat.sub_add_cancel hlt.le]
    exact Parse.length_reportsOf _ _
  · rw [hsort.stable]
    exact Parse.filter_reportsOf htiles hsyntax ht herror

/-- With a limit of zero, the report on the second of two signs is only counted. -/
theorem reports_cut_signs : ∃ g : Grammar, g.IsBuilt ∧ ∃ p m sorted,
    (Language.ofGrammar g).parseWithin 10 { diagnostics := 0 } "+ +" = some p ∧
      p.IsCut 0 m sorted ∧ ∃ count w, 0 < count ∧ Diagnostic.IsNotice count [] w ∧
        p.diagnostics = [w] := by
  have hjudged : (Declarations.ofSteps "signs" plusSteps).judged? { diagnostics := 0 } "+ +" 10 =
      some (true, 1) := by cbv
  obtain ⟨g, p, hbuild, hparse, -, herror⟩ := Declarations.parse_of_judged? hjudged
  obtain ⟨m, ending, hrun, sorted, hcut⟩ := reports_cut hparse
  have hmet := (Language.findsError_iff_of_run hrun).mp (herror 10 (Nat.le_refl _))
  have hreports := ((Machine.recorded_of_run hrun).reportsOf _).2.mpr hmet
  have hpos := List.length_pos_of_ne_nil hreports
  obtain ⟨m', ending', hrun', rfl⟩ := Language.parseWithin_eq_some hparse
  rw [Parse.length_reportsOf] at hpos
  obtain ⟨count, w, hcount, hw, heq⟩ := hcut.cut hpos
  refine ⟨g, ⟨"signs", plusSteps, hbuild⟩, _, m, sorted, hparse, hcut, count, w, ?_, hw, heq⟩
  rw [Nat.add_zero] at hcount
  rw [hcount]
  exact hpos

end FourGL
