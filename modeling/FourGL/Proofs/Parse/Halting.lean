import FourGL.Proofs.Parse.Completeness

/-!
# Runs that end

Shifts are bounded by the input and recoveries by the limits, so a run goes on for ever only if it
reduces for ever, at one position. The symbols on the stack then have ever longer derivations of one
and the same text. A grammar is *bounded* if there are no such derivations.

**Theorem (`Bounded.halts`).** Every run of a bounded grammar ends, whatever the input and the
limits, and so do all trials of repairs.
-/

namespace FourGL

namespace Grammar

/-- The stack of states is a path whose symbols yield the word in a number of steps. -/
def Reached (g : Grammar) (σ : List StateId) (w : List TerminalId) (n : Nat) : Prop :=
  ∃ γ, g.Path σ γ ∧ g.Yields γ.reverse w n

/-- On all paths, the derivations of a word have a greatest length. -/
def Bounded (g : Grammar) : Prop :=
  ∀ w, ∃ bound, ∀ σ n, g.Reached σ w n → n ≤ bound

variable {g : Grammar} {s s' : StateId} {σ σ' : List StateId} {w : List TerminalId} {n k : Nat}
  {t : TerminalId} {p : ProductionId}

/-! ## What is reached -/

theorem reached_start : g.Reached [Automaton.start] [] 0 := ⟨[], .start, .nil⟩

theorem Reached.shift (h : g.Reached (s :: σ) w n) (hgoto : g.goto? s (.terminal t) = some s') :
    g.Reached (s' :: s :: σ) (w ++ [t]) (n + 1) := by
  obtain ⟨γ, hpath, hy⟩ := h
  refine ⟨.terminal t :: γ, .step hpath hgoto, ?_⟩
  rw [List.reverse_cons]
  exact hy.append (.terminal .nil)

/-- A reduction makes the derivation of the same word one step longer. -/
theorem Reached.reduce (h : g.Reached (s :: σ) w n) (wf : g.WellFormed)
    (hasks : g.Asks s t (.reduce p))
    (hdrop : (s :: σ).drop (g.production p).right.length = s' :: σ') {next : StateId}
    (hgoto : g.goto? s' (.nonterminal (g.production p).left) = some next) :
    g.Reached (next :: s' :: σ') w (n + 1) := by
  obtain ⟨γ, hpath, hy⟩ := h
  cases hasks with
  | @reduce i hlook hrest _ =>
    obtain ⟨htake, -⟩ := wf.handle hpath hlook.mem hrest
    have hlt : (g.production i.production).right.length < (s :: σ).length := by
      have hlength := congrArg List.length hdrop
      simp only [List.length_drop, List.length_cons] at hlength ⊢
      omega
    have hbelow := hpath.drop hlt
    rw [hdrop] at hbelow
    refine ⟨_, .step hbelow hgoto, ?_⟩
    have hright : (γ.take (g.production i.production).right.length).reverse =
        (g.production i.production).right := by
      rw [htake, List.reverse_reverse]
    rw [← List.take_append_drop (g.production i.production).right.length γ, List.reverse_append,
      hright] at hy
    obtain ⟨u, v, m, k, rfl, rfl, hu, hv⟩ := hy.split
    rw [List.reverse_cons]
    exact hu.append (.of_production (wf.proper_itemsOf hlook.mem).1 hv)

theorem Reached.drop (h : g.Reached σ w n) (hk : k < σ.length) :
    ∃ w' n', g.Reached (σ.drop k) w' n' := by
  obtain ⟨γ, hpath, hy⟩ := h
  rw [← List.take_append_drop k γ, List.reverse_append] at hy
  obtain ⟨u, v, m, n, rfl, rfl, hu, -⟩ := hy.split
  exact ⟨u, m, γ.drop k, hpath.drop hk, hu⟩

theorem Reached.ne_nil (h : g.Reached σ w n) : σ ≠ [] := by
  obtain ⟨γ, hpath, -⟩ := h
  rintro rfl
  cases hpath

end Grammar

/-! ## Walks end -/

namespace Language

variable {g : Grammar} {l : Language} {input : Input} {σ σ' : List StateId}
  {w : List TerminalId} {n position position' : Nat}

/-- A step of a walk reads a terminal of the input, or makes a derivation longer. -/
theorem reached_of_walk? (wf : g.WellFormed) (hend : input.IsEnded) (h : g.Reached σ w n)
    (hwalk : (ofGrammar g).walk? input.terminal (σ, position) = some (σ', position')) :
    (position < input.size ∧ position' = position + 1 ∧
        g.Reached σ' (w ++ [input.terminal position]) (n + 1)) ∨
      (position' = position ∧ g.Reached σ' w (n + 1)) := by
  cases σ with
  | nil => cases hwalk
  | cons s σ =>
    simp only [walk?] at hwalk
    split at hwalk
    · next s' hact =>
      obtain ⟨rfl, rfl⟩ := Prod.mk.inj (Option.some.inj hwalk)
      have hasks := wf.asks_of_action? hact
      have hlt : position < input.size := by
        by_contra hle
        exact (wf.ne_endOfInput_of_shift hasks).1 ((hend _).mpr (Nat.le_of_not_lt hle))
      cases hasks with
      | shift _ _ hgoto => exact .inl ⟨hlt, rfl, h.shift hgoto⟩
    · next p hact =>
      obtain ⟨stack, hreduce, heq⟩ := Option.map_eq_some_iff.mp hwalk
      obtain ⟨rfl, rfl⟩ := Prod.mk.inj heq
      simp only [Repair.reduceStates] at hreduce
      split at hreduce
      · cases hreduce
      · next below rest hdrop =>
        obtain ⟨next, hgoto, rfl⟩ := Option.map_eq_some_iff.mp hreduce
        exact .inr ⟨rfl, h.reduce wf (wf.asks_of_action? hact) hdrop hgoto⟩
    · cases hwalk

theorem exists_reached_of_walk? (wf : g.WellFormed) (hend : input.IsEnded) (h : g.Reached σ w n)
    (hwalk : (ofGrammar g).walk? input.terminal (σ, position) = some (σ', position')) :
    ∃ w' n', g.Reached σ' w' n' := by
  rcases reached_of_walk? wf hend h hwalk with ⟨-, -, h'⟩ | ⟨-, h'⟩
  · exact ⟨_, _, h'⟩
  · exact ⟨_, _, h'⟩

/-- Where derivations are bounded, there is no endless walk. -/
theorem acc_walk? (wf : g.WellFormed) (hb : g.Bounded) (hend : input.IsEnded)
    (h : g.Reached σ w n) : Acc (fun c' c => (ofGrammar g).walk? input.terminal c = some c')
      (σ, position) := by
  -- By the number of terminals left, and then by the room left below the bound.
  induction hd : input.size - position using Nat.strong_induction_on
    generalizing σ w n position with
  | _ d ihd =>
    obtain ⟨bound, hbound⟩ := hb w
    induction hk : bound - n using Nat.strong_induction_on generalizing σ n with
    | _ k ihk =>
      refine ⟨_, fun c' hwalk => ?_⟩
      obtain ⟨σ', position'⟩ := c'
      rcases reached_of_walk? wf hend h hwalk with ⟨hlt, rfl, h'⟩ | ⟨rfl, h'⟩
      · exact ihd _ (by omega) h' rfl
      · have := hbound _ _ h'
        exact ihk _ (by omega) h' rfl

end Language

/-! ## Trials end -/

namespace Repair

variable {g : Grammar} {l : Language} {input : Input} {stack : List StateId} {m n position need : Nat}
  {b : Bool} {rs : List Repair} {found : Option Repair}

/-- What comes out of a trial does not depend on the allowance. -/
theorem survives_mono (h : survives l input n stack position need = some b) (hle : n ≤ m) :
    survives l input m stack position need = some b := by
  induction n generalizing m stack position need with
  | zero => cases h
  | succ n ih =>
    obtain ⟨m, rfl⟩ := Nat.exists_eq_add_of_le' (Nat.one_le_of_lt (Nat.lt_of_succ_le hle))
    have hle' : n ≤ m := Nat.le_of_succ_le_succ hle
    cases stack with
    | nil => exact h
    | cons top rest =>
      simp only [survives] at h ⊢
      split at h
      · next hact => simpa [hact] using h
      · next hact => simpa [hact] using h
      · next next hact =>
        split at h
        · next hneed => simpa [hact, hneed] using h
        · next hneed => simpa [hact, hneed] using ih h hle'
      · next p hact =>
        split at h
        · next hreduce => simpa [hact, hreduce] using h
        · next stack hreduce => simpa [hact, hreduce] using ih h hle'

theorem firstGood_mono (h : firstGood l input n stack position need rs = some found) (hle : n ≤ m) :
    firstGood l input m stack position need rs = some found := by
  induction rs with
  | nil => exact h
  | cons r rs ih =>
    simp only [firstGood] at h ⊢
    split at h
    · cases h
    · next hsurvives => rwa [survives_mono hsurvives hle]
    · next hsurvives =>
      rw [survives_mono hsurvives hle]
      exact ih h

theorem find_mono (h : find l input n stack position need = some found) (hle : n ≤ m) :
    find l input m stack position need = some found := firstGood_mono h hle

/-- A trial ends where walks end. -/
theorem exists_survives
    (h : Acc (fun c' c => l.walk? input.terminal c = some c') (stack, position)) (need : Nat) :
    ∃ n b, survives l input n stack position need = some b := by
  generalize hc : (stack, position) = c at h
  induction h generalizing stack position need with
  | intro c _ ih =>
    subst hc
    cases stack with
    | nil => exact ⟨1, false, rfl⟩
    | cons top rest =>
      cases hact : l.automaton.action? top (input.terminal position) with
      | none => exact ⟨1, false, by simp [survives, hact]⟩
      | some action =>
        cases action with
        | accept => exact ⟨1, true, by simp [survives, hact]⟩
        | shift next =>
          by_cases hneed : need ≤ 1
          · exact ⟨1, true, by simp [survives, hact, hneed]⟩
          · have hwalk : l.walk? input.terminal (top :: rest, position) =
                some (next :: top :: rest, position + 1) := by simp [Language.walk?, hact]
            obtain ⟨n, b, hn⟩ := ih _ hwalk (need - 1) rfl
            exact ⟨n + 1, b, by simpa [survives, hact, hneed] using hn⟩
        | reduce p =>
          cases hreduce : reduceStates l p (top :: rest) with
          | none => exact ⟨1, false, by simp [survives, hact, hreduce]⟩
          | some stack =>
            have hwalk : l.walk? input.terminal (top :: rest, position) =
                some (stack, position) := by simp [Language.walk?, hact, hreduce]
            obtain ⟨n, b, hn⟩ := ih _ hwalk need rfl
            exact ⟨n + 1, b, by simpa [survives, hact, hreduce] using hn⟩

theorem exists_firstGood (h : ∀ r ∈ rs,
      ∃ n b, survives l input n (stack.drop r.pop) (position + r.skip) need = some b) :
    ∃ n found, firstGood l input n stack position need rs = some found := by
  induction rs with
  | nil => exact ⟨0, none, rfl⟩
  | cons r rs ih =>
    obtain ⟨⟨n, b, hn⟩, hrest⟩ := List.forall_mem_cons.mp h
    obtain ⟨n', found, hn'⟩ := ih hrest
    cases b with
    | true => exact ⟨n, some r, by simp [firstGood, hn]⟩
    | false =>
      refine ⟨max n n', found, ?_⟩
      have hfirst := survives_mono hn (Nat.le_max_left n n')
      simpa [firstGood, hfirst] using firstGood_mono hn' (Nat.le_max_right n n')

/-- The search for a repair ends. -/
theorem exists_find (wf : g.WellFormed) (hb : g.Bounded) (hend : input.IsEnded)
    {w : List TerminalId} {k : Nat} (h : g.Reached stack w k) (position need : Nat) :
    ∃ n found, find (.ofGrammar g) input n stack position need = some found := by
  refine exists_firstGood fun r hr => ?_
  obtain ⟨-, -, hpop⟩ := mem_candidates.mp hr
  obtain ⟨w', k', h'⟩ := h.drop hpop
  exact exists_survives (Language.acc_walk? wf hb hend h') need

end Repair

/-! ## Runs end -/

namespace Machine

variable {g : Grammar} {l : Language} {limits : Limits} {input : Input} {m m' : Machine}
  {ending : Ending} {progress : Progress} {j n : Nat}

theorem recover_mono {s : StateId} (h : m.recover l limits input n s = some progress)
    (hle : n ≤ j) : m.recover l limits input j s = some progress := by
  simp only [recover] at h ⊢
  by_cases hlimit : limits.recoveries < (m.noteError l input s).errors
  · rw [if_pos hlimit] at h ⊢
    exact h
  · rw [if_neg hlimit] at h ⊢
    cases hfind : Repair.find l input n (m.noteError l input s).states
        (m.noteError l input s).position limits.lookahead with
    | none =>
      rw [hfind] at h
      cases h
    | some found =>
      rw [hfind] at h
      rw [Repair.find_mono hfind hle]
      exact h

/-- What a step leads to does not depend on the allowance for trials. -/
theorem step_mono (h : m.step l limits input n = some progress) (hle : n ≤ j) :
    m.step l limits input j = some progress := by
  simp only [step] at h ⊢
  split at h
  · exact h
  · split at h
    · exact h
    · exact h
    · exact h
    · exact recover_mono h hle

theorem run_mono (h : m.run l limits input n = some (m', ending)) (hle : n ≤ j) :
    m.run l limits input j = some (m', ending) := by
  induction n generalizing m j with
  | zero => cases h
  | succ n ih =>
    obtain ⟨j, rfl⟩ := Nat.exists_eq_add_of_le' (Nat.one_le_of_lt (Nat.lt_of_succ_le hle))
    have hle' : n ≤ j := Nat.le_of_succ_le_succ hle
    simp only [run] at h ⊢
    split at h
    · cases h
    · next next hstep =>
      rw [step_mono hstep hle']
      exact ih h hle'
    · next last ending' hstep =>
      rw [step_mono hstep hle']
      exact h

/-- The run from the machine ends. -/
def Halts (l : Language) (limits : Limits) (input : Input) (m : Machine) : Prop :=
  ∃ n m' ending, m.run l limits input n = some (m', ending)

theorem halts_of_done (h : m.step l limits input n = some (.done m' ending)) :
    m.Halts l limits input := ⟨n + 1, m', ending, by simp [run, h]⟩

theorem halts_of_next (h : m.step l limits input n = some (.next m'))
    (hm : m'.Halts l limits input) : m.Halts l limits input := by
  obtain ⟨k, last, ending, hrun⟩ := hm
  refine ⟨max n k + 1, last, ending, ?_⟩
  rw [run, step_mono h (Nat.le_max_left n k)]
  exact run_mono hrun (Nat.le_max_right n k)

theorem states_of_stack {top : Frame} {frames : List Frame} (h : m.stack = top :: frames) :
    m.states = top.state :: frames.map (·.state) := by
  rw [states, h]
  rfl

/-- A step on which the tables agree is a step of a walk; any other is a recovery. -/
theorem walk?_or_recover (h : m.step l limits input n = some (.next m')) :
    (l.walk? input.terminal (m.states, m.position) = some (m'.states, m'.position) ∧
      m'.errors = m.errors) ∨
    ∃ top frames, m.stack = top :: frames ∧
      l.automaton.action? top.state (input.terminal m.position) = none ∧
      m.recover l limits input n top.state = some (.next m') := by
  simp only [step] at h
  split at h
  · cases h
  · next top frames hstack =>
    have hstates := states_of_stack hstack
    split at h
    · next next hact =>
      cases h
      exact .inl ⟨by simp [Language.walk?, hact, shift, states, hstack], rfl⟩
    · next p hact =>
      simp only [reduce] at h
      split at h
      · cases h
      · next below rest hdrop =>
        split at h
        · cases h
        · next next hgoto =>
          cases h
          have hdrop' : (top.state :: frames.map (·.state)).drop
              (l.grammar.production p).right.length = below.state :: rest.map (·.state) := by
            rw [← hstates, states, ← List.map_drop, hdrop]
            rfl
          refine .inl ⟨?_, rfl⟩
          rw [hstates]
          simp [Language.walk?, hact, Repair.reduceStates, hdrop', hgoto, states]
    · cases h
    · next hact => exact .inr ⟨top, frames, hstack, hact, h⟩

/-- The states on the stack are a path. -/
def Standing (g : Grammar) (m : Machine) : Prop := ∃ w n, g.Reached m.states w n

theorem standing_initial : initial.Standing g := ⟨[], 0, Grammar.reached_start⟩

theorem Standing.apply (h : m.Standing g) {r : Repair} (hpop : r.pop < m.stack.length) :
    (m.apply r).Standing g := by
  obtain ⟨w, n, h⟩ := h
  have hlen : r.pop < m.states.length := by simpa [states] using hpop
  obtain ⟨w', n', h'⟩ := h.drop hlen
  refine ⟨w', n', ?_⟩
  rwa [states, Machine.apply, List.map_drop]

/-- What a recovery leads to has one error more, and its states are a path again. -/
theorem Standing.recover (h : m.Standing g) {s : StateId} {allowance : Nat}
    (hnext : m.recover l limits input allowance s = some (.next m')) :
    m'.Standing g ∧ m'.errors = m.errors + 1 ∧ m.errors < limits.recoveries := by
  obtain ⟨hlimit, ⟨r, hr, rfl⟩ | ⟨-, rfl⟩⟩ := recover_next hnext
  · have hpop := (Repair.mem_of_find hr).2
    exact ⟨Standing.apply (m := m.noteError l input s) h (by simpa [states] using hpop), rfl,
      hlimit⟩
  · exact ⟨h, rfl, hlimit⟩

/-- A recovery ends. -/
theorem Standing.exists_recover (h : m.Standing g) (wf : g.WellFormed) (hb : g.Bounded)
    (hend : input.IsEnded) (s : StateId) :
    ∃ n progress, m.recover (.ofGrammar g) limits input n s = some progress := by
  obtain ⟨w, k, h⟩ := h
  obtain ⟨n, found, hfind⟩ :=
    Repair.exists_find wf hb hend h m.position limits.lookahead
  have hfind' : Repair.find (.ofGrammar g) input n (m.noteError (.ofGrammar g) input s).states
      (m.noteError (.ofGrammar g) input s).position limits.lookahead = some found := hfind
  refine ⟨n, ?_⟩
  simp only [Machine.recover, hfind']
  split
  · exact ⟨_, rfl⟩
  · cases found with
    | some r => exact ⟨_, rfl⟩
    | none =>
      simp only
      split <;> exact ⟨_, rfl⟩

/-- A step ends. -/
theorem Standing.exists_step (h : m.Standing g) (wf : g.WellFormed) (hb : g.Bounded)
    (hend : input.IsEnded) (limits : Limits) :
    ∃ n progress, m.step (.ofGrammar g) limits input n = some progress := by
  simp only [step]
  split
  · exact ⟨0, _, rfl⟩
  · split
    · exact ⟨0, _, rfl⟩
    · exact ⟨0, _, rfl⟩
    · exact ⟨0, _, rfl⟩
    · exact h.exists_recover wf hb hend _

/-- **Runs end.** -/
theorem Standing.halts (h : m.Standing g) (wf : g.WellFormed) (hb : g.Bounded)
    (hend : input.IsEnded) : m.Halts (.ofGrammar g) limits input := by
  -- By the number of recoveries left, and then along the walk.
  induction hd : limits.recoveries - m.errors using Nat.strong_induction_on generalizing m with
  | _ d ihd =>
    have hacc : Acc (fun c' c => (Language.ofGrammar g).walk? input.terminal c = some c')
        (m.states, m.position) := by
      obtain ⟨w, n, h⟩ := h
      exact Language.acc_walk? wf hb hend h
    generalize hc : (m.states, m.position) = c at hacc
    induction hacc generalizing m with
    | intro c _ ihc =>
      subst hc
      obtain ⟨n, progress, hstep⟩ := h.exists_step wf hb hend limits
      cases progress with
      | done m' ending => exact halts_of_done hstep
      | next m' =>
        refine halts_of_next hstep ?_
        rcases walk?_or_recover hstep with ⟨hwalk, herrors⟩ | ⟨top, frames, -, -, hrecover⟩
        · obtain ⟨w, k, hreached⟩ := h
          exact ihc _ hwalk (Language.exists_reached_of_walk? wf hend hreached hwalk)
            (by rw [herrors]; exact hd) rfl
        · obtain ⟨hstanding, herrors, hlimit⟩ := h.recover hrecover
          exact ihd _ (by omega) hstanding rfl

end Machine

/-- **Runs of bounded grammars end.** -/
theorem Grammar.Bounded.halts {g : Grammar} (hb : g.Bounded) (wf : g.WellFormed) (limits : Limits)
    (source : String) : Machine.initial.Halts (.ofGrammar g) limits (g.inputOf source) :=
  Machine.standing_initial.halts wf hb (isEnded_inputOf wf.vocabulary source)

end FourGL
