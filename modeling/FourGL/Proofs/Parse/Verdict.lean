import FourGL.Command.Basic
import FourGL.Proofs.Parse.Exactness

/-!
# What a verdict says

A parse is in order when it has a tree and no error is among its reports. But not every error is
reported: none is after a recovery until three tokens have been shifted, and beyond a limit reports
are only counted.

The first syntax error of a run is always reported. All reports are errors, so whichever of them are
kept, one of them is an error as long as the limit is not zero.

**Theorem (`isOk_iff`).** With a limit that is not zero, a parse is in order exactly if it has a tree,
its run met no syntax error, and no token is a lexical error. A check of a file with a syntax error or
a lexical error counts an error, and the command ends with the code of a check that found errors.
-/

namespace FourGL

/-! ## Reports in order -/

namespace Diagnostic

variable {limit : Nat} {reports : List Diagnostic}

/-- Where there is no report, there is none in order. -/
theorem inOrder_nil : inOrder limit [] = [] := by simp [inOrder]

/-- Some report is kept, if there are any and the limit is not zero. -/
theorem exists_mem_inOrder (hlimit : 0 < limit) (h : reports ≠ []) :
    ∃ d ∈ reports, d ∈ inOrder limit reports := by
  have hperm : (reports.mergeSort notAfter).Perm reports := List.mergeSort_perm _ _
  obtain ⟨d, sorted, hsorted⟩ := List.exists_cons_of_ne_nil fun hnil =>
    h (List.nil_perm.mp (hnil ▸ hperm))
  refine ⟨d, hperm.mem_iff.mp (by simp [hsorted]), ?_⟩
  obtain ⟨limit, rfl⟩ := Nat.exists_eq_succ_of_ne_zero hlimit.ne'
  rw [inOrder, hsorted]
  split_ifs <;> simp

/-- Of reports that are all errors, an error is kept exactly if there are any. -/
theorem exists_error_inOrder_iff (hlimit : 0 < limit)
    (herror : ∀ d ∈ reports, d.severity = .error) :
    (∃ d ∈ inOrder limit reports, d.severity = .error) ↔ reports ≠ [] := by
  constructor
  · rintro ⟨d, hd, -⟩ rfl
    rw [inOrder_nil] at hd
    cases hd
  · intro h
    obtain ⟨d, hd, hkept⟩ := exists_mem_inOrder hlimit h
    exact ⟨d, hkept, herror d hd⟩

theorem severity_errorAt {token : Option Token} {offset : Nat} {message : String} :
    (errorAt token offset message).severity = .error := by
  cases token <;> rfl

end Diagnostic

/-! ## What a machine has reported -/

namespace Machine

variable {l : Language} {limits : Limits} {input : Input} {m m' : Machine} {s : StateId}
  {allowance n : Nat} {ending : Ending}

/-- All reports are errors, and there are some exactly if there was an error. Up to the first error
the machine is calm, so that it will be reported. -/
structure Recorded (m : Machine) : Prop where
  severe : ∀ d ∈ m.reports, d.severity = .error
  clean : m.errors = 0 → m.reports = [] ∧ quietShifts ≤ m.calm
  noted : m.errors ≠ 0 → m.reports ≠ []

theorem recorded_initial : initial.Recorded :=
  ⟨fun _ h => absurd h List.not_mem_nil, fun _ => ⟨rfl, Nat.le_refl _⟩, fun h => absurd rfl h⟩

/-- An error is reported, or there are reports already. -/
theorem Recorded.noteError (h : m.Recorded) : (m.noteError l input s).Recorded := by
  refine ⟨fun d hd => ?_, fun herrors => absurd herrors (Nat.succ_ne_zero _), fun _ => ?_⟩
  · simp only [Machine.noteError] at hd
    split_ifs at hd
    · rcases List.mem_cons.mp hd with rfl | hd
      · exact Diagnostic.severity_errorAt
      · exact h.severe d hd
    · exact h.severe d hd
  · simp only [Machine.noteError]
    split_ifs with hcalm
    · exact List.cons_ne_nil _ _
    · exact h.noted fun herrors => hcalm (h.clean herrors).2

/-- What is done about an error does not change what was reported. -/
theorem Recorded.of_error (h : m.Recorded) (herrors : m'.errors = m.errors)
    (hreports : m'.reports = m.reports) (hmet : m.errors ≠ 0) : m'.Recorded :=
  ⟨hreports ▸ h.severe, fun hzero => absurd (herrors ▸ hzero) hmet,
    fun hne => hreports ▸ h.noted (herrors ▸ hne)⟩

theorem Recorded.move (h : m.Recorded) (hm : Move l input m m') : m'.Recorded := by
  cases hm with
  | shift _ _ =>
    exact ⟨h.severe, fun herrors => ⟨(h.clean herrors).1, (h.clean herrors).2.trans (Nat.le_succ _)⟩,
      h.noted⟩
  | reduce _ _ _ _ => exact ⟨h.severe, h.clean, h.noted⟩
  | repair _ _ _ _ => exact h.noteError.of_error rfl rfl (Nat.succ_ne_zero _)
  | discard _ _ => exact h.noteError.of_error rfl rfl (Nat.succ_ne_zero _)

theorem Recorded.moves (h : m.Recorded) (hm : Relation.ReflTransGen (Move l input) m m') :
    m'.Recorded := by
  induction hm with
  | refl => exact h
  | tail _ hm ih => exact ih.move hm

/-- The report that the parser stops is one more. -/
theorem Recorded.stopped {position : Nat} (h : m.Recorded) (hmet : m.errors ≠ 0) :
    { m with reports := Report.stopped input position :: m.reports }.Recorded := by
  refine ⟨fun d hd => ?_, fun herrors => absurd herrors hmet, fun _ => List.cons_ne_nil _ _⟩
  rcases List.mem_cons.mp hd with rfl | hd
  · exact Diagnostic.severity_errorAt
  · exact h.severe d hd

theorem Recorded.done (h : m.Recorded)
    (hstep : m.step l limits input allowance = some (.done m' ending)) : m'.Recorded := by
  simp only [step] at hstep
  split at hstep
  · cases hstep
    exact h
  · split at hstep
    · cases hstep
    · simp only [reduce] at hstep
      split at hstep
      · cases hstep
        exact h
      · split at hstep <;> cases hstep
        exact h
    · cases hstep
      exact h
    · simp only [recover] at hstep
      split at hstep
      · cases hstep
        exact h.noteError.stopped (Nat.succ_ne_zero _)
      · split at hstep
        · cases hstep
        · cases hstep
        · split at hstep <;> cases hstep
          exact h.noteError

/-- **Runs record their errors.** -/
theorem recorded_of_run (h : initial.run l limits input n = some (m, ending)) : m.Recorded := by
  obtain ⟨last, allowance, hmoves, hlast⟩ := moves_of_run h
  exact (recorded_initial.moves hmoves).done hlast

/-- All errors of a text are errors, and there are some if the run met one or a token is one. -/
theorem Recorded.reportsOf (h : m.Recorded) (tokens : List Token) :
    (∀ d ∈ Parse.reportsOf m tokens, d.severity = .error) ∧
      (Parse.reportsOf m tokens ≠ [] ↔ m.errors ≠ 0 ∨ ∃ t ∈ tokens, t.isError = true) := by
  constructor
  · intro d hd
    rcases List.mem_append.mp hd with hd | hd
    · exact h.severe d (List.mem_reverse.mp hd)
    · obtain ⟨t, -, rfl⟩ := List.mem_map.mp hd
      exact Diagnostic.severity_errorAt
  · have hreports : m.reports ≠ [] ↔ m.errors ≠ 0 :=
      ⟨fun hne hzero => hne (h.clean hzero).1, h.noted⟩
    rw [Parse.reportsOf, Ne, List.append_eq_nil_iff, not_and_or, List.reverse_eq_nil_iff,
      List.map_eq_nil_iff, List.filter_eq_nil_iff]
    refine or_congr hreports ?_
    simp

end Machine

/-! ## Verdicts -/

namespace Parse

variable {v : Vocabulary} {limits : Limits} {source : String} {tokens : List Token} {m : Machine}
  {ending : Ending}

/-- An error is among the reports of a parse exactly if there was one. -/
theorem exists_error_ofRun_iff (hlimit : 0 < limits.diagnostics) (h : m.Recorded) :
    (∃ d ∈ (ofRun v limits source tokens (m, ending)).diagnostics, d.severity = .error) ↔
      m.errors ≠ 0 ∨ ∃ t ∈ tokens, t.isError = true := by
  obtain ⟨hsevere, hreports⟩ := h.reportsOf tokens
  exact (Diagnostic.exists_error_inOrder_iff hlimit hsevere).trans hreports

theorem isOk_eq_true_iff {p : Parse} :
    p.isOk = true ↔ p.root.isSome = true ∧ ¬ ∃ d ∈ p.diagnostics, d.severity = .error := by
  simp [isOk]

end Parse

namespace Language

variable {l : Language} {limits : Limits} {source : String} {n : Nat}

/-- The run on a text meets a syntax error within an allowance of steps, or a token of the text is a
lexical error. -/
def FindsError (l : Language) (limits : Limits) (source : String) (n : Nat) : Prop :=
  (∃ m ending, Machine.initial.run l limits (l.grammar.inputOf source) n = some (m, ending) ∧
      m.errors ≠ 0) ∨
    ∃ t ∈ l.grammar.vocabulary.scan source, t.isError = true

/-- A parse is that of a run. -/
theorem parseWithin_eq_some {p : Parse} (h : l.parseWithin n limits source = some p) :
    ∃ m ending, Machine.initial.run l limits (l.grammar.inputOf source) n = some (m, ending) ∧
      p = .ofRun l.grammar.vocabulary limits source (l.grammar.vocabulary.scan source)
        (m, ending) := by
  obtain ⟨⟨m, ending⟩, hrun, rfl⟩ := Option.map_eq_some_iff.mp h
  exact ⟨m, ending, hrun, rfl⟩

theorem findsError_iff_of_run {m : Machine} {ending : Ending}
    (h : Machine.initial.run l limits (l.grammar.inputOf source) n = some (m, ending)) :
    l.FindsError limits source n ↔
      m.errors ≠ 0 ∨ ∃ t ∈ l.grammar.vocabulary.scan source, t.isError = true := by
  refine or_congr ⟨?_, fun herrors => ⟨m, ending, h, herrors⟩⟩ Iff.rfl
  rintro ⟨m', ending', hrun, herrors⟩
  rw [h] at hrun
  cases hrun
  exact herrors

/-- The verdict on a text tells whether there was an error. -/
theorem isOk_parseWithin_iff (hlimit : 0 < limits.diagnostics) {p : Parse}
    (h : l.parseWithin n limits source = some p) :
    p.isOk = true ↔ p.root.isSome = true ∧ ¬ l.FindsError limits source n := by
  obtain ⟨m, ending, hrun, rfl⟩ := parseWithin_eq_some h
  rw [Parse.isOk_eq_true_iff,
    Parse.exists_error_ofRun_iff hlimit (Machine.recorded_of_run hrun),
    findsError_iff_of_run hrun]

/-- Where an error is found, one is reported. -/
theorem exists_error_parse (hlimit : 0 < limits.diagnostics)
    (h : l.FindsError limits source ampleSteps) :
    ∃ d ∈ (l.parse limits source).diagnostics, d.severity = .error := by
  cases hparse : l.parseWithin ampleSteps limits source with
  | some p =>
    rw [parse, hparse, Option.getD_some]
    obtain ⟨m, ending, hrun, rfl⟩ := parseWithin_eq_some hparse
    exact (Parse.exists_error_ofRun_iff hlimit (Machine.recorded_of_run hrun)).mpr
      ((findsError_iff_of_run hrun).mp h)
  | none =>
    -- Without an end of the run, only the tokens count.
    rw [parse, hparse, Option.getD_none]
    refine (Parse.exists_error_ofRun_iff hlimit Machine.recorded_initial).mpr (Or.inr ?_)
    rcases h with ⟨m, ending, hrun, -⟩ | htoken
    · have hnone : Machine.initial.run l limits (l.grammar.inputOf source) ampleSteps = none :=
        Option.map_eq_none_iff.mp hparse
      rw [hnone] at hrun
      cases hrun
    · exact htoken

end Language

/-! ## Checks -/

namespace Check

variable {l : Language} {c : Configuration} {fs : FileSystem} {operands : List String}
  {path text : String}

/-- A check counts an error for a file in which one is found. -/
theorem errors_run_pos (hlimit : 0 < c.limits.diagnostics) (hpath : path ∈ allFiles fs c operands)
    (htext : fs.text? path = some text) (h : l.FindsError c.limits text Language.ampleSteps) :
    0 < (run l c fs operands).errors := by
  obtain ⟨d, hd, herror⟩ := Language.exists_error_parse hlimit h
  refine List.countP_pos_iff.mpr ⟨.diagnostic path d, ?_, by simp [Finding.severity, herror]⟩
  refine List.mem_append_right _ (List.mem_flatMap.mpr ⟨path, hpath, ?_⟩)
  rw [findingsIn, htext]
  exact List.mem_map_of_mem hd

end Check

/-- **Verdicts.** With a limit that is not zero, a parse is in order exactly if it has a tree and there
is no error in the text. A check of a file with an error counts at least one, and the command ends
with the code for errors found. -/
theorem isOk_iff (l : Language) (c : Configuration) (hlimit : 0 < c.limits.diagnostics) :
    (∀ source n p, l.parseWithin n c.limits source = some p →
      (p.isOk = true ↔ p.root.isSome = true ∧ ¬ l.FindsError c.limits source n)) ∧
    ∀ fs operands path text, path ∈ Check.allFiles fs c operands → fs.text? path = some text →
      l.FindsError c.limits text Language.ampleSteps →
      0 < (Check.run l c fs operands).errors ∧
        ∀ file, Command.configuration fs file = .ok c →
          Command.exitCode ((Command.check file operands).run l fs) = 1 := by
  refine ⟨fun source n p hparse => Language.isOk_parseWithin_iff hlimit hparse,
    fun fs operands path text hpath htext herror => ?_⟩
  have hpos := Check.errors_run_pos hlimit hpath htext herror
  refine ⟨hpos, fun file hfile => ?_⟩
  rw [Command.run, hfile]
  have hne : ((Check.run l c fs operands).errors != 0) = true := bne_iff_ne.mpr hpos.ne'
  show (if ((Check.run l c fs operands).errors != 0) = true then 1 else 0) = 1
  rw [if_pos hne]

/-- The verdict of the parser of some declarations on a text, with the number of syntax errors, if
there is such a parser and its run ends within the allowance. -/
def Declarations.judged? (d : Declarations) (limits : Limits) (source : String) (n : Nat) :
    Option (Bool × Nat) :=
  match d.build with
  | .error _ => none
  | .ok g => (Machine.initial.run (.ofGrammar g) limits (g.inputOf source) n).map fun run =>
      ((Parse.ofRun g.vocabulary limits source (g.vocabulary.scan source) run).isOk, run.1.errors)

theorem Declarations.parse_of_judged? {d : Declarations} {limits : Limits} {source : String}
    {n k : Nat} {ok : Bool} (h : d.judged? limits source n = some (ok, k + 1)) :
    ∃ g p, d.build = .ok g ∧ (Language.ofGrammar g).parseWithin n limits source = some p ∧
      p.isOk = ok ∧ ∀ j ≥ n, (Language.ofGrammar g).FindsError limits source j := by
  simp only [judged?] at h
  split at h
  · cases h
  · next g hg =>
    obtain ⟨⟨m, ending⟩, hrun, hm⟩ := Option.map_eq_some_iff.mp h
    obtain ⟨hok, hmet⟩ := Prod.mk.inj hm
    refine ⟨g, _, hg, Option.map_eq_some_iff.mpr ⟨_, hrun, rfl⟩, hok, fun j hj =>
      Or.inl ⟨m, ending, Machine.run_mono hrun hj, ?_⟩⟩
    rw [show m.errors = k + 1 from hmet]
    exact Nat.succ_ne_zero k

/-- A working directory with one file, of two signs. -/
def signsDirectory : FileSystem := ⟨.directory [("signs.4gl", .file "+ +".toUTF8)], []⟩

/-- The second sign is a syntax error. -/
theorem isOk_iff_signs : ∃ g : Grammar, g.IsBuilt ∧ ∃ p,
    (Language.ofGrammar g).parseWithin 10 {} "+ +" = some p ∧ p.isOk = false ∧
      (p.isOk = true ↔
        p.root.isSome = true ∧ ¬ (Language.ofGrammar g).FindsError {} "+ +" 10) ∧
      0 < (Check.run (.ofGrammar g) {} signsDirectory ["signs.4gl"]).errors ∧
      Command.exitCode ((Command.check none ["signs.4gl"]).run (.ofGrammar g) signsDirectory) =
        1 := by
  have hjudged : (Declarations.ofSteps "signs" plusSteps).judged? {} "+ +" 10 = some (false, 1) := by
    cbv
  have hfiles : Check.allFiles signsDirectory {} ["signs.4gl"] = ["signs.4gl"] := by cbv
  have htext : signsDirectory.text? "signs.4gl" = some "+ +" := by cbv
  have hconfiguration : Command.configuration signsDirectory none = .ok {} := by cbv
  obtain ⟨g, p, hbuild, hparse, hok, herror⟩ := Declarations.parse_of_judged? hjudged
  obtain ⟨hiff, hcheck⟩ := isOk_iff (.ofGrammar g) {} (by decide)
  obtain ⟨hpos, hcode⟩ := hcheck signsDirectory ["signs.4gl"] "signs.4gl" "+ +"
    (by rw [hfiles]; exact List.mem_singleton_self _) htext (herror _ (by decide))
  exact ⟨g, ⟨"signs", plusSteps, hbuild⟩, p, hparse, hok, hiff "+ +" 10 p hparse, hpos,
    hcode none hconfiguration⟩

/-- With a limit of zero, no error is left in the reports: the parse of two signs is in order. -/
theorem exists_error_hidden : ∃ g : Grammar, g.IsBuilt ∧ ∃ limits : Limits, ∃ p,
    (Language.ofGrammar g).parseWithin 10 limits "+ +" = some p ∧ p.isOk = true ∧
      (Language.ofGrammar g).FindsError limits "+ +" 10 := by
  have hjudged : (Declarations.ofSteps "signs" plusSteps).judged? { diagnostics := 0 } "+ +" 10 =
      some (true, 1) := by cbv
  obtain ⟨g, p, hbuild, hparse, hok, herror⟩ := Declarations.parse_of_judged? hjudged
  exact ⟨g, ⟨"signs", plusSteps, hbuild⟩, _, p, hparse, hok, herror 10 (Nat.le_refl _)⟩

end FourGL
