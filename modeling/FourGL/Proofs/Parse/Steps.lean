import FourGL.Parse.Machine
import Mathlib.Logic.Relation

/-!
# What a step can do

A step that does not end the run shifts, reduces, repairs a syntax error or discards tokens. All that
holds along a run is proved from these four moves.

**Theorem (`move_of_step`).** Every step that leads on is a move.

**Theorem (`moves_of_run`).** A run that ends has made moves up to the step that ends it.
-/

namespace FourGL

namespace Repair

variable {l : Language} {input : Input} {stack : List StateId} {allowance position need : Nat}
  {r : Repair}

theorem mem_of_firstGood {rs : List Repair}
    (h : firstGood l input allowance stack position need rs = some (some r)) : r ∈ rs := by
  induction rs with
  | nil => cases h
  | cons r' rs ih =>
    simp only [firstGood] at h
    split at h
    · cases h
    · cases h
      exact List.mem_cons_self
    · exact List.mem_cons_of_mem _ (ih h)

/-- What a repair takes and skips is there. -/
theorem mem_candidates {size depth : Nat} :
    r ∈ candidates size depth position ↔
      r.skip ≤ window ∧ position + r.skip ≤ size ∧ r.pop < depth := by
  simp only [candidates, List.mem_flatMap, List.mem_filter, List.mem_range, List.mem_map,
    decide_eq_true_eq]
  constructor
  · rintro ⟨skip, ⟨hskip, hle⟩, pop, hpop, rfl⟩
    exact ⟨Nat.lt_succ_iff.mp hskip, hle, hpop⟩
  · rintro ⟨hskip, hle, hpop⟩
    exact ⟨r.skip, ⟨Nat.lt_succ_iff.mpr hskip, hle⟩, r.pop, hpop, rfl⟩

theorem mem_of_find (h : find l input allowance stack position need = some (some r)) :
    position + r.skip ≤ input.size ∧ r.pop < stack.length :=
  (mem_candidates.mp (mem_of_firstGood h)).2

end Repair

namespace Machine

variable {l : Language} {limits : Limits} {input : Input} {allowance n : Nat} {s : StateId}
  {m m' : Machine} {ending : Ending}

@[simp] theorem stack_noteError : (m.noteError l input s).stack = m.stack := rfl

@[simp] theorem position_noteError : (m.noteError l input s).position = m.position := rfl

@[simp] theorem errors_noteError : (m.noteError l input s).errors = m.errors + 1 := rfl

/-- A reduction with a state below the right-hand side and a way on from there. -/
theorem reduce_eq_next {p : ProductionId} {below : Frame} {rest : List Frame} {next : StateId}
    (hdrop : m.stack.drop (l.grammar.production p).right.length = below :: rest)
    (hgoto : l.automaton.goto? below.state (l.grammar.production p).left = some next) :
    m.reduce l input p = .next { m with
      stack := ⟨next, (l.grammar.production p).action.run input m.position
        ((m.stack.take (l.grammar.production p).right.length).map (·.tree)).reverse⟩ ::
          below :: rest } := by
  simp only [reduce, hdrop, hgoto]

theorem step_eq_reduce {top : Frame} {frames : List Frame} {p : ProductionId}
    (hstack : m.stack = top :: frames)
    (hact : l.automaton.action? top.state (input.terminal m.position) = some (.reduce p)) :
    m.step l limits input allowance = some (m.reduce l input p) := by
  simp only [step, hstack, hact]

/-- The moves of a machine. -/
inductive Move (l : Language) (input : Input) (m : Machine) : Machine → Prop
  | shift {top : Frame} {frames : List Frame} {next : StateId} : m.stack = top :: frames →
      l.automaton.action? top.state (input.terminal m.position) = some (.shift next) →
      Move l input m (m.shift input next)
  | reduce {top : Frame} {frames : List Frame} {p : ProductionId} {below : Frame}
      {rest : List Frame} {next : StateId} : m.stack = top :: frames →
      l.automaton.action? top.state (input.terminal m.position) = some (.reduce p) →
      m.stack.drop (l.grammar.production p).right.length = below :: rest →
      l.automaton.goto? below.state (l.grammar.production p).left = some next →
      Move l input m { m with
        stack := ⟨next, (l.grammar.production p).action.run input m.position
          ((m.stack.take (l.grammar.production p).right.length).map (·.tree)).reverse⟩ ::
            below :: rest }
  | repair {top : Frame} {frames : List Frame} {r : Repair} : m.stack = top :: frames →
      l.automaton.action? top.state (input.terminal m.position) = none →
      m.position + r.skip ≤ input.size → r.pop < m.stack.length →
      Move l input m ((m.noteError l input top.state).apply r)
  | discard {top : Frame} {frames : List Frame} : m.stack = top :: frames →
      l.automaton.action? top.state (input.terminal m.position) = none →
      Move l input m ((m.noteError l input top.state).discard input)

/-- A recovery that leads on is within the limit. It applies the repair that was found, or it discards
tokens where some are left. -/
theorem recover_next (h : m.recover l limits input allowance s = some (.next m')) :
    m.errors < limits.recoveries ∧
    ((∃ r : Repair, Repair.find l input allowance m.states m.position limits.lookahead =
        some (some r) ∧ m' = (m.noteError l input s).apply r) ∨
      m.position < input.size ∧ m' = (m.noteError l input s).discard input) := by
  simp only [recover] at h
  split at h
  · cases h
  · next hlimit =>
    refine ⟨Nat.lt_of_succ_le (Nat.le_of_not_lt hlimit), ?_⟩
    split at h
    · cases h
    · next r hr =>
      cases h
      exact Or.inl ⟨r, hr, rfl⟩
    · split at h
      · cases h
      · next hlt =>
        cases h
        exact Or.inr ⟨Nat.lt_of_not_le hlt, rfl⟩

/-- **Moves.** A step that leads on is a move. -/
theorem move_of_step (h : m.step l limits input allowance = some (.next m')) :
    Move l input m m' := by
  simp only [step] at h
  split at h
  · cases h
  · next top frames hstack =>
    split at h
    · next next hact =>
      cases h
      exact .shift hstack hact
    · next p hact =>
      simp only [reduce] at h
      split at h
      · cases h
      · next below rest hdrop =>
        split at h
        · cases h
        · next next hgoto =>
          cases h
          exact .reduce hstack hact hdrop hgoto
    · cases h
    · next hact =>
      rcases (recover_next h).2 with ⟨r, hr, rfl⟩ | ⟨-, rfl⟩
      · obtain ⟨hskip, hpop⟩ := Repair.mem_of_find hr
        exact .repair hstack hact hskip (by simpa [states] using hpop)
      · exact .discard hstack hact

theorem recover_done (h : m.recover l limits input allowance s = some (.done m' ending)) :
    m'.errors = m.errors + 1 ∧ ∀ tree, ending ≠ .accepted tree := by
  simp only [recover] at h
  split at h
  · cases h
    exact ⟨rfl, by simp⟩
  · split at h
    · cases h
    · cases h
    · split at h
      · cases h
        exact ⟨rfl, by simp⟩
      · cases h

/-- A step that accepts has met an accepting action. -/
theorem step_accepted {tree : Tree}
    (h : m.step l limits input allowance = some (.done m' (.accepted tree))) :
    m' = m ∧ ∃ top frames, m.stack = top :: frames ∧ tree = top.tree ∧
      l.automaton.action? top.state (input.terminal m.position) = some .accept := by
  simp only [step] at h
  split at h
  · cases h
  · next top frames hstack =>
    split at h
    · cases h
    · simp only [reduce] at h
      split at h
      · cases h
      · split at h <;> cases h
    · next hact =>
      cases h
      exact ⟨rfl, top, frames, hstack, rfl, hact⟩
    · exact absurd rfl ((recover_done h).2 tree)

/-- **Runs.** A run consists of moves and a step that ends it. -/
theorem moves_of_run (h : m.run l limits input n = some (m', ending)) :
    ∃ last allowance, Relation.ReflTransGen (Move l input) m last ∧
      last.step l limits input allowance = some (.done m' ending) := by
  induction n generalizing m with
  | zero => cases h
  | succ n ih =>
    simp only [run] at h
    split at h
    · cases h
    · next next hstep =>
      obtain ⟨last, allowance, hmoves, hlast⟩ := ih h
      exact ⟨last, allowance, .head (move_of_step hstep) hmoves, hlast⟩
    · next last ending' hstep =>
      cases h
      exact ⟨m, n, .refl, hstep⟩

end Machine

end FourGL
