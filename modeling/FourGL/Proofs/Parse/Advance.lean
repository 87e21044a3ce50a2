import FourGL.Proofs.Parse.Repairing

/-!
# Recoveries advance

A repair need not skip a token. That the next syntax error is at a later position is due to the trial of
the repair: it has promised that a token is shifted before, even where none is required. Where no repair
is good, tokens are discarded, and at the end of input the run stops.

What is counted along a run is counted over its history: the machines before its steps, one after the
other.

**Theorem (`recovery_advances`).** Along a run the positions of syntax errors increase, so there are at
most as many as there are tokens, and one at the end of input. The recoveries are also limited. A
syntax error that is reported comes at least three shifted tokens after the last recovery.
-/

namespace FourGL

namespace Machine

variable {l : Language} {limits : Limits} {input : Input} {m m' last : Machine}
  {ms bs : List Machine} {k : Nat}

/-! ## What a machine does next -/

/-- The machine meets a syntax error within the limit, and a repair of it is found. -/
def Resynchronises (l : Language) (limits : Limits) (input : Input) (m : Machine) : Prop :=
  m.MeetsError l input ∧ m.errors < limits.recoveries ∧
    ∃ n r, Repair.find l input n m.states m.position limits.lookahead = some (some r)

/-- The machine meets a syntax error and adds it to the reports. -/
def ReportsError (l : Language) (input : Input) (m : Machine) : Prop :=
  ∃ top frames, m.stack = top :: frames ∧
    l.automaton.action? top.state (input.terminal m.position) = none ∧
    (m.noteError l input top.state).reports =
      Report.unexpected l input m.position top.state :: m.reports

/-- An error is reported only where some tokens have been shifted since the last recovery. -/
theorem ReportsError.quietShifts_le (h : m.ReportsError l input) : quietShifts ≤ m.calm := by
  obtain ⟨top, frames, -, -, hreports⟩ := h
  by_contra hcalm
  simp only [noteError, if_neg hcalm] at hreports
  exact List.cons_ne_self _ _ hreports.symm

/-- At a syntax error, a step that leads on is a recovery. -/
theorem MeetsError.recovers (h : m.MeetsError l input) (hstep : Steps l limits input m m') :
    m.errors < limits.recoveries ∧ ∃ s,
      (∃ allowance r, Repair.find l input allowance m.states m.position limits.lookahead =
        some (some r) ∧ m' = (m.noteError l input s).apply r) ∨
      m.position < input.size ∧ m' = (m.noteError l input s).discard input := by
  obtain ⟨allowance, hstep⟩ := hstep
  rcases walk?_or_recover hstep with ⟨hwalk, -⟩ | ⟨top, frames, -, -, hrecover⟩
  · exact absurd h (not_meetsError_of_walk? hwalk)
  · obtain ⟨hlimit, hnext⟩ := recover_next hrecover
    exact ⟨hlimit, top.state, hnext.imp_left fun ⟨r, hr, heq⟩ => ⟨allowance, r, hr, heq⟩⟩

/-! ## Progress -/

/-- The syntax error after a recovery is at a later position. -/
theorem MeetsError.position_lt (h : m.MeetsError l input) (hstep : Steps l limits input m m')
    (hreaches : Reaches l limits input m' last) (hlast : last.MeetsError l input) :
    m.position < last.position := by
  obtain ⟨-, s, ⟨allowance, r, hfind, rfl⟩ | ⟨hlt, rfl⟩⟩ := h.recovers hstep
  · have hholds := (holdsFor_of_find s hfind).before_error last hreaches hlast
    have hshifted : 1 ≤ max 1 limits.lookahead := Nat.le_max_left _ _
    have hskip : ((m.noteError l input s).apply r).position = m.position + r.skip := rfl
    omega
  · have hdiscard : m.position < ((m.noteError l input s).discard input).position :=
      Nat.lt_min.mpr ⟨by simp only [position_noteError]; omega, hlt⟩
    exact hdiscard.trans_le (position_le_of_reaches hreaches)

theorem errors_le_of_reaches (h : Reaches l limits input m m') : m.errors ≤ m'.errors := by
  induction h with
  | refl => exact Nat.le_refl _
  | tail _ hstep ih =>
    obtain ⟨allowance, hstep⟩ := hstep
    rcases walk?_or_recover hstep with ⟨-, hsame⟩ | ⟨top, frames, -, -, hrecover⟩
    · exact hsame ▸ ih
    · exact recover_errors hrecover ▸ ih.trans (Nat.le_succ _)

/-- Every syntax error is counted. -/
theorem MeetsError.errors_lt (h : m.MeetsError l input) (hstep : Steps l limits input m m')
    (hreaches : Reaches l limits input m' last) : m.errors < last.errors := by
  refine Nat.lt_of_lt_of_le ?_ (errors_le_of_reaches hreaches)
  obtain ⟨-, s, ⟨allowance, r, -, rfl⟩ | ⟨-, rfl⟩⟩ := h.recovers hstep
  · exact Nat.lt_succ_self _
  · exact Nat.lt_succ_self _

/-! ## Histories -/

/-- The machines before the steps of a run, one after the other. -/
structure IsHistory (l : Language) (limits : Limits) (input : Input) (ms : List Machine) : Prop where
  head : ms.head? = some .initial
  chain : ms.IsChain (Steps l limits input)

/-- A run has a history up to every machine that it reaches. -/
theorem exists_history (h : Reaches l limits input .initial m) :
    ∃ ms, IsHistory l limits input ms ∧ ms.getLast? = some m := by
  obtain ⟨ms, hchain, hlast⟩ := List.exists_isChain_cons_of_relationReflTransGen h
  exact ⟨.initial :: ms, ⟨rfl, hchain⟩, by
    rw [List.getLast?_eq_some_getLast (List.cons_ne_nil _ _), hlast]⟩

/-- Of two machines in a history, the first has taken a step and the run goes on to the second. -/
theorem IsHistory.pairwise (h : IsHistory l limits input ms) :
    ms.Pairwise fun m m' => ∃ next, Steps l limits input m next ∧ Reaches l limits input next m' := by
  have hchain := h.chain.imp fun _ _ hstep => Relation.TransGen.single hstep
  exact hchain.pairwise.imp fun hlater => Relation.TransGen.head'_iff.mp hlater

theorem IsHistory.reaches (h : IsHistory l limits input ms) (hm : m ∈ ms) :
    Reaches l limits input .initial m := by
  obtain ⟨rest, rfl⟩ := List.head?_eq_some_iff.mp h.head
  rcases List.mem_cons.mp hm with rfl | hm
  · exact .refl
  · obtain ⟨next, hstep, hreaches⟩ := List.rel_of_pairwise_cons h.pairwise hm
    exact .head hstep hreaches

/-- Where a number grows from one to the next, there are no more than its bound. -/
theorem countP_le {P : Machine → Prop} [DecidablePred P] {f : Machine → Nat}
    (hgrows : ms.Pairwise fun m m' => P m → P m' → f m < f m') (hbound : ∀ m ∈ ms, P m → f m < k) :
    ms.countP P ≤ k := by
  have hsorted : ((ms.filter P).map f).Pairwise (· < ·) := by
    rw [List.pairwise_map, List.pairwise_filter]
    simpa using hgrows
  have hnodup : ((ms.filter P).map f).Nodup := hsorted.imp Nat.ne_of_lt
  have hsubset : (ms.filter P).map f ⊆ List.range k := by
    intro a ha
    obtain ⟨m, hm, rfl⟩ := List.mem_map.mp ha
    obtain ⟨hmem, hP⟩ := List.mem_filter.mp hm
    exact List.mem_range.mpr (hbound m hmem (of_decide_eq_true hP))
  have hle := (hnodup.subperm hsubset).length_le
  rwa [List.length_map, List.length_range, ← List.countP_eq_length_filter] at hle

/-! ## Tokens between errors -/

open scoped Classical in
/-- A step that is no recovery counts a token only if it shifts one. -/
theorem calm_le_of_step (h : Steps l limits input m m') (hm : ¬ m.Resynchronises l limits input) :
    m'.calm ≤ m.calm + [m].countP (Shifts l input) := by
  by_cases hmeets : m.MeetsError l input
  · obtain ⟨hlimit, s, ⟨n, r, hfind, rfl⟩ | ⟨-, rfl⟩⟩ := hmeets.recovers h
    · exact absurd ⟨hmeets, hlimit, n, r, hfind⟩ hm
    · exact Nat.le_add_right _ _
  · rcases h.quiet hmeets with ⟨hshifts, -, hcalm⟩ | ⟨-, hcalm⟩
    · rw [hcalm, List.countP_singleton, decide_eq_true hshifts]
      exact Nat.le_refl _
    · rw [hcalm]
      exact Nat.le_add_right _ _

open scoped Classical in
/-- Without a recovery, no more tokens are counted than are shifted. -/
theorem calm_le_of_chain (h : (m :: bs ++ [last]).IsChain (Steps l limits input))
    (hm : ∀ b ∈ m :: bs, ¬ b.Resynchronises l limits input) :
    last.calm ≤ m.calm + (m :: bs).countP (Shifts l input) := by
  induction bs generalizing m with
  | nil => exact calm_le_of_step (List.isChain_pair.mp h) (hm m List.mem_cons_self)
  | cons b bs ih =>
    obtain ⟨hstep, hrest⟩ := List.isChain_cons_cons.mp h
    obtain ⟨hfirst, hlater⟩ := List.forall_mem_cons.mp hm
    have hone := calm_le_of_step hstep hfirst
    have hmore := ih hrest hlater
    rw [← List.singleton_append, List.countP_append]
    omega

theorem Resynchronises.calm_eq (h : m.Resynchronises l limits input)
    (hstep : Steps l limits input m m') : m'.calm = 0 := by
  obtain ⟨⟨top, frames, hstack, hact⟩, hlimit, n, r, hfind⟩ := h
  obtain ⟨allowance, hstep⟩ := hstep
  cases step_unique hstep (step_eq_apply hstack hact hlimit hfind)
  rfl

/-! ## What is counted along a run -/

/-- The positions of syntax errors increase. -/
theorem IsHistory.positions_lt (h : IsHistory l limits input ms) :
    ms.Pairwise fun m m' => m.MeetsError l input → m'.MeetsError l input →
      m.position < m'.position :=
  h.pairwise.imp fun ⟨_, hstep, hreaches⟩ hm hm' => hm.position_lt hstep hreaches hm'

theorem IsHistory.countP_meetsError_le (h : IsHistory l limits input ms)
    (hinside : ∀ m ∈ ms, m.position ≤ input.size) :
    ms.countP (MeetsError l input) ≤ input.size + 1 :=
  countP_le h.positions_lt fun m hm _ => Nat.lt_succ_of_le (hinside m hm)

open scoped Classical in
/-- No more recoveries than the limits allow, and than there are syntax errors. -/
theorem IsHistory.countP_resynchronises_le (h : IsHistory l limits input ms) :
    ms.countP (Resynchronises l limits input) ≤
      min limits.recoveries (ms.countP (MeetsError l input)) := by
  have herrors : ms.Pairwise fun m m' => m.Resynchronises l limits input →
      m'.Resynchronises l limits input → m.errors < m'.errors :=
    h.pairwise.imp fun ⟨_, hstep, hreaches⟩ hm _ => hm.1.errors_lt hstep hreaches
  refine Nat.le_min.mpr ⟨countP_le herrors fun m _ hm => hm.2.1, ?_⟩
  exact List.countP_mono_left fun m _ hm => decide_eq_true (of_decide_eq_true hm).1

open scoped Classical in
/-- Between the last recovery and a syntax error that is reported, some tokens are shifted. -/
theorem IsHistory.quietShifts_le {before after : List Machine} (h : IsHistory l limits input ms)
    (hms : ms = before ++ m :: bs ++ last :: after) (hm : m.Resynchronises l limits input)
    (hbs : ∀ b ∈ bs, ¬ b.Resynchronises l limits input) (hreports : last.ReportsError l input) :
    quietShifts ≤ bs.countP (Shifts l input) := by
  have hchain : (m :: bs ++ [last]).IsChain (Steps l limits input) :=
    h.chain.infix ⟨before, after, by simp [hms]⟩
  refine hreports.quietShifts_le.trans ?_
  cases bs with
  | nil => exact (hm.calm_eq (List.isChain_pair.mp hchain)).le
  | cons b bs =>
    obtain ⟨hstep, hrest⟩ := List.isChain_cons_cons.mp hchain
    have hcalm := calm_le_of_chain hrest hbs
    rwa [hm.calm_eq hstep, Nat.zero_add] at hcalm

end Machine

open Machine

open scoped Classical in
/-- **Recoveries advance.** In every history of a run of a grammar that builds, within any limits, the
positions of the syntax errors increase. So there are no more of them than tokens, and one at the end of
input, and no more recoveries than that or than the limit. Between a recovery and the next reported
error, if no other recovery is between them, at least three tokens are shifted. -/
theorem recovery_advances {g : Grammar} (hg : g.IsBuilt) {limits : Limits} {source : String}
    {ms : List Machine} (h : IsHistory (.ofGrammar g) limits (g.inputOf source) ms) :
    ((ms.filter (MeetsError (.ofGrammar g) (g.inputOf source))).map (·.position)).Pairwise (· < ·) ∧
    ms.countP (MeetsError (.ofGrammar g) (g.inputOf source)) ≤ (g.inputOf source).size + 1 ∧
    ms.countP (Resynchronises (.ofGrammar g) limits (g.inputOf source)) ≤
      min limits.recoveries ((g.inputOf source).size + 1) ∧
    ∀ before m between m' after, ms = before ++ m :: between ++ m' :: after →
      m.Resynchronises (.ofGrammar g) limits (g.inputOf source) →
      (∀ b ∈ between, ¬ b.Resynchronises (.ofGrammar g) limits (g.inputOf source)) →
      m'.ReportsError (.ofGrammar g) (g.inputOf source) →
      3 ≤ between.countP (Shifts (.ofGrammar g) (g.inputOf source)) := by
  have wf := Grammar.wellFormed_of_isBuilt hg
  have hinside : ∀ m ∈ ms, m.position ≤ (g.inputOf source).size := fun m hm => by
    obtain ⟨-, -, -, -, hle, -⟩ := grounded_initial.moves wf (isEnded_inputOf wf.vocabulary source)
      (moves_of_reaches (h.reaches hm))
    exact hle
  have hcount := h.countP_meetsError_le hinside
  refine ⟨?_, hcount, h.countP_resynchronises_le.trans (min_le_min_left _ hcount),
    fun before m between m' after hms hm hbetween hreports =>
      h.quietShifts_le hms hm hbetween hreports⟩
  rw [List.pairwise_map, List.pairwise_filter]
  simpa using h.positions_lt

open scoped Classical in
theorem recovery_advances_plus : ∃ (g : Grammar) (ms : List Machine), g.IsBuilt ∧
    IsHistory (.ofGrammar g) {} (g.inputOf "+ +") ms ∧
    0 < ms.countP (Resynchronises (.ofGrammar g) {} (g.inputOf "+ +")) ∧
    ms.countP (Resynchronises (.ofGrammar g) {} (g.inputOf "+ +")) ≤
      min ({} : Limits).recoveries ((g.inputOf "+ +").size + 1) := by
  obtain ⟨g, m, hg, hm, hmeets, herrors, hfind⟩ := exists_repair_plus
  obtain ⟨ms, hms, hlast⟩ := exists_history hm
  have hlimit : m.errors < ({} : Limits).recoveries := by
    rw [herrors]
    decide
  refine ⟨g, ms, hg, hms, List.countP_pos_iff.mpr ⟨m, List.mem_of_getLast? hlast, ?_⟩,
    (recovery_advances hg hms).2.2.1⟩
  exact decide_eq_true ⟨hmeets, hlimit, 5, _, hfind⟩

end FourGL
