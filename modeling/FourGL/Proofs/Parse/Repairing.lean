import FourGL.Proofs.Parse.Endless
import FourGL.Proofs.Parse.Exactness
import Mathlib.Data.Prod.Lex

/-!
# Least repairs

A repair is judged by a trial: the automaton runs on from it without building anything. Nothing in the
search is about the text or the grammar, so what is proved here is about any tables at all, any stack
and any position.

The repairs are ordered by the tokens they skip and then by the states they take off. They are tried in
that order, so the first good one is the least.

A trial and the machine take the same steps, as both are walks of the automaton. What the trial of the
repair has promised is then what the machine does.

**Theorem (`least_repair_holds`).** A search whose trials end finds the least good repair, or none if
there is no good one. Behind a repair the machine accepts, or shifts as many tokens as required and at
least one, before it meets the next syntax error.
-/

namespace FourGL

namespace Repair

variable {l : Language} {input : Input} {stack : List StateId} {position need n : Nat}
  {r r' : Repair} {rs : List Repair} {found : Option Repair} {b b' : Bool}

/-! ## The order of repairs -/

/-- The skipped tokens, and then the states taken off. -/
def rank (r : Repair) : Nat ×ₗ Nat := toLex (r.skip, r.pop)

theorem rank_injective : Function.Injective rank := by
  rintro ⟨skip, pop⟩ ⟨skip', pop'⟩ h
  cases toLex.injective h
  rfl

instance : LinearOrder Repair := LinearOrder.lift' rank rank_injective

theorem lt_iff : r < r' ↔ r.skip < r'.skip ∨ r.skip = r'.skip ∧ r.pop < r'.pop :=
  Prod.Lex.toLex_lt_toLex

/-- The repairs are tried in order. -/
theorem sorted_candidates (size depth position : Nat) :
    (candidates size depth position).Pairwise (· < ·) := by
  refine List.pairwise_flatMap.mpr ⟨fun skip _ => List.pairwise_map.mpr ?_, ?_⟩
  · refine List.pairwise_lt_range.imp fun hpop => ?_
    exact lt_iff.mpr (Or.inr ⟨rfl, hpop⟩)
  · refine (List.pairwise_lt_range.filter _).imp fun hskip r hr r' hr' => ?_
    obtain ⟨pop, -, rfl⟩ := List.mem_map.mp hr
    obtain ⟨pop', -, rfl⟩ := List.mem_map.mp hr'
    exact lt_iff.mpr (Or.inl hskip)

/-! ## Trials -/

/-- A repair skips no more than the window and nothing behind the end of input, and it leaves a state.
-/
structure IsPossible (input : Input) (stack : List StateId) (position : Nat) (r : Repair) : Prop where
  skip_le : r.skip ≤ window
  inside : position + r.skip ≤ input.size
  pop_lt : r.pop < stack.length

theorem isPossible_iff :
    r.IsPossible input stack position ↔ r ∈ candidates input.size stack.length position :=
  ⟨fun ⟨hskip, hinside, hpop⟩ => mem_candidates.mpr ⟨hskip, hinside, hpop⟩, fun h =>
    have ⟨hskip, hinside, hpop⟩ := mem_candidates.mp h
    ⟨hskip, hinside, hpop⟩⟩

/-- The trial of a repair ends with a verdict. -/
def Tried (l : Language) (input : Input) (stack : List StateId) (position need : Nat) (r : Repair)
    (b : Bool) : Prop :=
  ∃ n, survives l input n (stack.drop r.pop) (position + r.skip) need = some b

/-- A trial has one verdict. -/
theorem Tried.unique (h : r.Tried l input stack position need b)
    (h' : r.Tried l input stack position need b') : b = b' := by
  obtain ⟨n, hn⟩ := h
  obtain ⟨n', hn'⟩ := h'
  have hmax := survives_mono hn (Nat.le_max_left n n')
  rw [survives_mono hn' (Nat.le_max_right n n')] at hmax
  exact (Option.some.inj hmax).symm

/-- The repairs that are possible and whose trials say yes. -/
def good (l : Language) (input : Input) (stack : List StateId) (position need : Nat) : Set Repair :=
  {r | r.IsPossible input stack position ∧ r.Tried l input stack position need true}

/-! ## The search -/

/-- A search ends at its first repair if that is good, and goes on if it is not. -/
theorem exists_firstGood_cons :
    (∃ n, firstGood l input n stack position need (r :: rs) = some found) ↔
      (r.Tried l input stack position need true ∧ found = some r) ∨
        r.Tried l input stack position need false ∧
          ∃ n, firstGood l input n stack position need rs = some found := by
  constructor
  · rintro ⟨n, hn⟩
    simp only [firstGood] at hn
    split at hn
    · cases hn
    · next hsurvives => exact Or.inl ⟨⟨n, hsurvives⟩, (Option.some.inj hn).symm⟩
    · next hsurvives => exact Or.inr ⟨⟨n, hsurvives⟩, n, hn⟩
  · rintro (⟨⟨n, hn⟩, rfl⟩ | ⟨⟨n, hn⟩, n', hn'⟩)
    · exact ⟨n, by simp only [firstGood, hn]⟩
    · refine ⟨max n n', ?_⟩
      simp only [firstGood, survives_mono hn (Nat.le_max_left n n')]
      exact firstGood_mono hn' (Nat.le_max_right n n')

theorem exists_firstGood_eq_none :
    (∃ n, firstGood l input n stack position need rs = some none) ↔
      ∀ r ∈ rs, r.Tried l input stack position need false := by
  induction rs with
  | nil => exact ⟨fun _ r hr => absurd hr List.not_mem_nil, fun _ => ⟨0, rfl⟩⟩
  | cons r rs ih =>
    rw [exists_firstGood_cons, ih, List.forall_mem_cons]
    exact ⟨fun h => h.resolve_left (by simp), Or.inr⟩

theorem exists_firstGood_eq_some (hsorted : rs.Pairwise (· < ·)) :
    (∃ n, firstGood l input n stack position need rs = some (some r)) ↔
      r ∈ rs ∧ r.Tried l input stack position need true ∧
        ∀ r' ∈ rs, r' < r → r'.Tried l input stack position need false := by
  induction rs with
  | nil => simp [firstGood]
  | cons head rs ih =>
    obtain ⟨hhead, hrest⟩ := List.pairwise_cons.mp hsorted
    rw [exists_firstGood_cons, ih hrest, List.forall_mem_cons, List.mem_cons, Option.some.injEq]
    constructor
    · rintro (⟨htried, rfl⟩ | ⟨htried, hmem, hgood, hless⟩)
      · refine ⟨Or.inl rfl, htried, fun h => absurd h (lt_irrefl _), fun r' hr' hlt => ?_⟩
        exact absurd hlt (hhead r' hr').asymm
      · exact ⟨Or.inr hmem, hgood, fun _ => htried, hless⟩
    · rintro ⟨rfl | hmem, hgood, hfirst, hless⟩
      · exact Or.inl ⟨hgood, rfl⟩
      · exact Or.inr ⟨hfirst (hhead r hmem), hmem, hgood, hless⟩

/-- What is found is the least good repair, where the trials before it end. -/
theorem exists_find_eq_some :
    (∃ n, find l input n stack position need = some (some r)) ↔
      IsLeast (good l input stack position need) r ∧
        ∀ r' < r, r'.IsPossible input stack position →
          ∃ b, r'.Tried l input stack position need b := by
  simp only [find, exists_firstGood_eq_some (sorted_candidates _ _ _), ← isPossible_iff]
  constructor
  · rintro ⟨hpossible, htried, hless⟩
    refine ⟨⟨⟨hpossible, htried⟩, fun r' hr' => ?_⟩, fun r' hlt hr' => ⟨false, hless r' hr' hlt⟩⟩
    by_contra hlt
    cases (hless r' hr'.1 (lt_of_not_ge hlt)).unique hr'.2
  · rintro ⟨⟨⟨hpossible, htried⟩, hleast⟩, hends⟩
    refine ⟨hpossible, htried, fun r' hr' hlt => ?_⟩
    obtain ⟨b, hb⟩ := hends r' hlt hr'
    cases b with
    | false => exact hb
    | true => exact absurd (hleast ⟨hr', hb⟩) (not_le_of_gt hlt)

/-- None is found where all trials end and there is no good repair. -/
theorem exists_find_eq_none :
    (∃ n, find l input n stack position need = some none) ↔
      good l input stack position need = ∅ ∧
        ∀ r : Repair, r.IsPossible input stack position →
          ∃ b, r.Tried l input stack position need b := by
  simp only [find, exists_firstGood_eq_none, ← isPossible_iff]
  constructor
  · refine fun h => ⟨Set.eq_empty_of_forall_notMem fun r hr => ?_, fun r hr => ⟨false, h r hr⟩⟩
    cases (h r hr.1).unique hr.2
  · rintro ⟨hempty, hends⟩ r hr
    obtain ⟨b, hb⟩ := hends r hr
    cases b with
    | false => exact hb
    | true => exact absurd (show r ∈ good l input stack position need from ⟨hr, hb⟩) (by simp [hempty])

/-- A search whose trials end comes to an answer. -/
theorem exists_find_of_tried (h : ∀ r : Repair, r.IsPossible input stack position →
      ∃ b, r.Tried l input stack position need b) :
    ∃ n found, find l input n stack position need = some found :=
  exists_firstGood fun r hr => by
    obtain ⟨b, n, hn⟩ := h r (isPossible_iff.mpr hr)
    exact ⟨n, b, hn⟩

/-! ## Trials are walks -/

/-- A trial that says yes has accepted, or it has taken a step of a walk, and there it needs nothing more
or goes on. -/
theorem walk?_of_survives (h : survives l input (n + 1) stack position need = some true) :
    (∃ top rest, stack = top :: rest ∧
      l.automaton.action? top (input.terminal position) = some .accept) ∨
    ∃ c, l.walk? input.terminal (stack, position) = some c ∧
      ((c.2 = position + 1 ∧
          (need ≤ 1 ∨ 1 < need ∧ survives l input n c.1 c.2 (need - 1) = some true)) ∨
        c.2 = position ∧ survives l input n c.1 c.2 need = some true) := by
  cases stack with
  | nil => cases h
  | cons top rest =>
    simp only [survives] at h
    split at h
    · cases h
    · next hact => exact Or.inl ⟨top, rest, rfl, hact⟩
    · next next hact =>
      refine Or.inr ⟨(next :: top :: rest, position + 1), by simp only [Language.walk?, hact],
        Or.inl ⟨rfl, ?_⟩⟩
      split at h
      · next hneed => exact Or.inl hneed
      · next hneed => exact Or.inr ⟨Nat.lt_of_not_le hneed, h⟩
    · next p hact =>
      split at h
      · cases h
      · next stack hreduce =>
        exact Or.inr ⟨(stack, position), by simp only [Language.walk?, hact, hreduce, Option.map_some],
          Or.inr ⟨rfl, h⟩⟩

end Repair

namespace Machine

variable {l : Language} {limits : Limits} {input : Input} {m m' m'' : Machine} {r : Repair}
  {progress progress' : Progress} {allowance allowance' n need k : Nat} {c : Footing}

/-! ## The machine behind a repair -/

/-- A step that does not end the run. -/
def Steps (l : Language) (limits : Limits) (input : Input) (m m' : Machine) : Prop :=
  ∃ allowance, m.step l limits input allowance = some (.next m')

/-- The machine reads the token at hand. -/
def Shifts (l : Language) (input : Input) (m : Machine) : Prop :=
  ∃ top frames next, m.stack = top :: frames ∧
    l.automaton.action? top.state (input.terminal m.position) = some (.shift next)

/-- A step leads to one thing only. -/
theorem step_unique (h : m.step l limits input allowance = some progress)
    (h' : m.step l limits input allowance' = some progress') : progress = progress' := by
  have hmax := step_mono h (Nat.le_max_left allowance allowance')
  rw [step_mono h' (Nat.le_max_right allowance allowance')] at hmax
  exact (Option.some.inj hmax).symm

theorem Steps.position_le (h : Steps l limits input m m') : m.position ≤ m'.position := by
  obtain ⟨allowance, hstep⟩ := h
  rcases walk?_or_recover hstep with ⟨hwalk, -⟩ | ⟨top, frames, -, -, hrecover⟩
  · exact Language.position_le_of_walk? hwalk
  · rcases (recover_next hrecover).2 with ⟨r, -, rfl⟩ | ⟨hlt, rfl⟩
    · exact Nat.le_add_right _ _
    · have hle : m.position ≤ m.position + Repair.window + 1 := by omega
      exact Nat.le_min.mpr ⟨hle, hlt.le⟩

theorem position_le_of_reaches (h : Reaches l limits input m m') : m.position ≤ m'.position := by
  induction h with
  | refl => exact Nat.le_refl _
  | tail _ hstep ih => exact ih.trans (Steps.position_le hstep)

/-- The tables accept the input. -/
def Accepts (l : Language) (input : Input) (m : Machine) : Prop :=
  ∃ top frames, m.stack = top :: frames ∧
    l.automaton.action? top.state (input.terminal m.position) = some .accept

theorem Accepts.step (h : m.Accepts l input) (limits : Limits) (allowance : Nat) :
    ∃ tree, m.step l limits input allowance = some (.done m (.accepted tree)) := by
  obtain ⟨top, frames, hstack, hact⟩ := h
  exact ⟨top.tree, by simp only [Machine.step, hstack, hact]⟩

/-- The run leads from one machine to the other without a syntax error. -/
def ReadsOn (l : Language) (limits : Limits) (input : Input) : Machine → Machine → Prop :=
  Relation.ReflTransGen fun m m' => ¬ m.MeetsError l input ∧ Steps l limits input m m'

/-- A repair holds for a number of tokens: behind it, the run accepts or shifts so many tokens before
it meets a syntax error. -/
structure HoldsFor (l : Language) (limits : Limits) (input : Input) (k : Nat) (m : Machine) :
    Prop where
  reads : ∃ m', ReadsOn l limits input m m' ∧
    (m'.Accepts l input ∨ m'.position = m.position + k ∧ m'.calm = m.calm + k)
  before_error : ∀ m', Reaches l limits input m m' → m'.MeetsError l input →
    m.position + k ≤ m'.position

theorem not_meetsError_of_walk? (h : l.walk? input.terminal (m.states, m.position) = some c) :
    ¬ m.MeetsError l input := by
  rintro ⟨top, frames, hstack, hact⟩
  rw [states_of_stack hstack] at h
  simp only [Language.walk?, hact] at h
  cases h

/-- Without a syntax error, a step reads one token or none. -/
theorem Steps.quiet (h : Steps l limits input m m') (hquiet : ¬ m.MeetsError l input) :
    (m.Shifts l input ∧ m'.position = m.position + 1 ∧ m'.calm = m.calm + 1) ∨
      m'.position = m.position ∧ m'.calm = m.calm := by
  obtain ⟨allowance, hstep⟩ := h
  cases move_of_step hstep with
  | shift hstack hact => exact Or.inl ⟨⟨_, _, _, hstack, hact⟩, rfl, rfl⟩
  | reduce => exact Or.inr ⟨rfl, rfl⟩
  | repair hstack hact => exact absurd ⟨_, _, hstack, hact⟩ hquiet
  | discard hstack hact => exact absurd ⟨_, _, hstack, hact⟩ hquiet

/-- The position moves by the tokens that are counted. -/
theorem ReadsOn.calm (h : ReadsOn l limits input m m') :
    m'.calm + m.position = m.calm + m'.position := by
  induction h with
  | refl => rfl
  | tail _ hstep ih =>
    obtain ⟨hquiet, hstep⟩ := hstep
    rcases hstep.quiet hquiet with ⟨-, hposition, hcalm⟩ | ⟨hposition, hcalm⟩ <;> omega

/-- What the trial from a machine promises. -/
theorem exists_readsOn (limits : Limits)
    (h : Repair.survives l input n m.states m.position need = some true) :
    ∃ m', ReadsOn l limits input m m' ∧
      (m'.Accepts l input ∨ m'.position = m.position + max 1 need) := by
  induction n generalizing m need with
  | zero => cases h
  | succ n ih =>
    rcases Repair.walk?_of_survives h with ⟨top, rest, hstates, hact⟩ | ⟨c, hwalk, hc⟩
    · obtain ⟨frame, frames, hstack, rfl, -⟩ := List.map_eq_cons_iff.mp hstates
      exact ⟨m, .refl, Or.inl ⟨frame, frames, hstack, hact⟩⟩
    · obtain ⟨b, hstep, rfl⟩ := exists_step_of_walk? limits hwalk
      have hfirst : ¬ m.MeetsError l input ∧ Steps l limits input m b :=
        ⟨not_meetsError_of_walk? hwalk, 0, hstep 0⟩
      rcases hc with ⟨hposition, hneed | ⟨hneed, hsurvives⟩⟩ | ⟨hposition, hsurvives⟩
      · refine ⟨b, .single hfirst, Or.inr ?_⟩
        rw [Nat.max_eq_left hneed]
        exact hposition
      · obtain ⟨m', hreads, hend⟩ := ih hsurvives
        refine ⟨m', .head hfirst hreads, hend.imp_right fun hm' => ?_⟩
        dsimp only at hposition
        omega
      · obtain ⟨m', hreads, hend⟩ := ih hsurvives
        refine ⟨m', .head hfirst hreads, hend.imp_right fun hm' => ?_⟩
        rw [hm', show b.position = m.position from hposition]

/-- A syntax error comes behind all that is read without one. -/
theorem ReadsOn.reaches_error (h : ReadsOn l limits input m m') (hreaches : Reaches l limits input m m'')
    (hmeets : m''.MeetsError l input) : Reaches l limits input m' m'' := by
  induction h with
  | refl => exact hreaches
  | tail _ hstep ih =>
    obtain ⟨hquiet, allowance, hstep⟩ := hstep
    rcases ih.cases_head with rfl | ⟨b, ⟨allowance', hb⟩, hrest⟩
    · exact absurd hmeets hquiet
    · cases step_unique hstep hb
      exact hrest

theorem holdsFor_of_survives (limits : Limits)
    (h : Repair.survives l input n m.states m.position need = some true) :
    m.HoldsFor l limits input (max 1 need) := by
  obtain ⟨m', hreads, hend⟩ := exists_readsOn limits h
  refine ⟨⟨m', hreads, hend.imp_right fun hposition => ⟨hposition, ?_⟩⟩, fun m'' hreaches hmeets => ?_⟩
  · have hcalm := hreads.calm
    omega
  · have hrest := hreads.reaches_error hreaches hmeets
    rcases hend with haccepts | hposition
    · rcases hrest.cases_head with rfl | ⟨b, ⟨allowance, hb⟩, -⟩
      · obtain ⟨top, frames, hstack, hact⟩ := hmeets
        obtain ⟨top', frames', hstack', hact'⟩ := haccepts
        rw [hstack] at hstack'
        cases hstack'
        rw [hact] at hact'
        cases hact'
      · obtain ⟨tree, hdone⟩ := haccepts.step limits allowance
        rw [hdone] at hb
        cases hb
    · exact hposition ▸ position_le_of_reaches hrest

theorem states_apply : (m.apply r).states = m.states.drop r.pop := List.map_drop

/-- What is found holds. -/
theorem holdsFor_of_find (s : StateId)
    (h : Repair.find l input allowance m.states m.position limits.lookahead = some (some r)) :
    ((m.noteError l input s).apply r).HoldsFor l limits input (max 1 limits.lookahead) := by
  obtain ⟨⟨-, n, hsurvives⟩, -⟩ := (Repair.exists_find_eq_some.mp ⟨allowance, h⟩).1
  refine holdsFor_of_survives (n := n) limits ?_
  rw [states_apply]
  exact hsurvives

/-- At a syntax error within the limit, the machine applies the repair that is found. -/
theorem step_eq_apply {top : Frame} {frames : List Frame} (hstack : m.stack = top :: frames)
    (hact : l.automaton.action? top.state (input.terminal m.position) = none)
    (hlimit : m.errors < limits.recoveries)
    (hfind : Repair.find l input allowance m.states m.position limits.lookahead = some (some r)) :
    m.step l limits input allowance = some (.next ((m.noteError l input top.state).apply r)) := by
  have hwithin : ¬ limits.recoveries < (m.noteError l input top.state).errors :=
    Nat.not_lt_of_le (Nat.succ_le_of_lt hlimit)
  have hfind' : Repair.find l input allowance (m.noteError l input top.state).states
      (m.noteError l input top.state).position limits.lookahead = some (some r) := hfind
  simp only [step, hstack, hact, recover, if_neg hwithin, hfind']

end Machine

/-- **Least repairs.** For any tables, stack, position and number of tokens required, the search for a
repair comes to an answer if its trials end. It finds a repair exactly if that is the least good one,
and none exactly if there is no good one. Where the machine applies a repair that was found, it then
accepts, or shifts as many tokens as required and at least one, before it meets a syntax error. -/
theorem least_repair_holds (l : Language) (input : Input) :
    (∀ stack position need,
      ((∀ r : Repair, r.IsPossible input stack position →
          ∃ b, r.Tried l input stack position need b) →
        ∃ n found, Repair.find l input n stack position need = some found) ∧
      (∀ r, (∃ n, Repair.find l input n stack position need = some (some r)) ↔
        IsLeast (Repair.good l input stack position need) r ∧
          ∀ r' < r, r'.IsPossible input stack position →
            ∃ b, r'.Tried l input stack position need b) ∧
      ((∃ n, Repair.find l input n stack position need = some none) ↔
        Repair.good l input stack position need = ∅ ∧
          ∀ r : Repair, r.IsPossible input stack position →
            ∃ b, r.Tried l input stack position need b)) ∧
    ∀ (limits : Limits) (m : Machine) (allowance : Nat) (r : Repair),
      m.MeetsError l input → m.errors < limits.recoveries →
      Repair.find l input allowance m.states m.position limits.lookahead = some (some r) →
      ∃ m', m.step l limits input allowance = some (.next m') ∧
        m'.states = m.states.drop r.pop ∧ m'.position = m.position + r.skip ∧
        m'.HoldsFor l limits input (max 1 limits.lookahead) := by
  refine ⟨fun stack position need => ⟨Repair.exists_find_of_tried, fun r =>
    Repair.exists_find_eq_some, Repair.exists_find_eq_none⟩, ?_⟩
  rintro limits m allowance r ⟨top, frames, hstack, hact⟩ hlimit hfind
  exact ⟨_, Machine.step_eq_apply hstack hact hlimit hfind, Machine.states_apply, rfl,
    Machine.holdsFor_of_find top.state hfind⟩

/-- A second sign is a syntax error, and the repair found takes off the state behind the first one. -/
theorem exists_repair_plus : ∃ (g : Grammar) (m : Machine), g.IsBuilt ∧
    Machine.Reaches (.ofGrammar g) {} (g.inputOf "+ +") .initial m ∧
    m.MeetsError (.ofGrammar g) (g.inputOf "+ +") ∧ m.errors = 0 ∧
    Repair.find (.ofGrammar g) (g.inputOf "+ +") 5 m.states m.position 3 = some (some ⟨0, 1⟩) := by
  have hseen : (Declarations.ofSteps "signs" plusSteps).seen? (fun g =>
      (Machine.initial.after? (.ofGrammar g) {} (g.inputOf "+ +") 1 1).bind fun m =>
        if m.MeetsError (.ofGrammar g) (g.inputOf "+ +") then
          some (m.errors, Repair.find (.ofGrammar g) (g.inputOf "+ +") 5 m.states m.position 3)
        else none) = some (0, some (some ⟨0, 1⟩)) := by cbv
  obtain ⟨g, hbuild, hseen⟩ := Declarations.exists_seen hseen
  obtain ⟨m, hafter, hseen⟩ := Option.bind_eq_some_iff.mp hseen
  have hm := Machine.reaches_of_after? hafter
  obtain ⟨hmeets, heq⟩ := Option.ite_none_right_eq_some.mp hseen
  obtain ⟨herrors, hfind⟩ := Prod.mk.inj (Option.some.inj heq)
  exact ⟨g, m, ⟨"signs", plusSteps, hbuild⟩, hm, hmeets, herrors, hfind⟩

/-- At a second sign, that repair is the least good one, and it holds. -/
theorem least_repair_holds_plus : ∃ (g : Grammar) (m m' : Machine), g.IsBuilt ∧
    Machine.Reaches (.ofGrammar g) {} (g.inputOf "+ +") .initial m ∧
    m.MeetsError (.ofGrammar g) (g.inputOf "+ +") ∧
    IsLeast (Repair.good (.ofGrammar g) (g.inputOf "+ +") m.states m.position 3) ⟨0, 1⟩ ∧
    (∃ n, m.step (.ofGrammar g) {} (g.inputOf "+ +") n = some (.next m')) ∧
    m'.HoldsFor (.ofGrammar g) {} (g.inputOf "+ +") 3 := by
  obtain ⟨g, m, hg, hm, hmeets, herrors, hfind⟩ := exists_repair_plus
  obtain ⟨hsearch, hdrive⟩ := least_repair_holds (.ofGrammar g) (g.inputOf "+ +")
  obtain ⟨hleast, -⟩ := ((hsearch m.states m.position 3).2.1 ⟨0, 1⟩).mp ⟨5, hfind⟩
  have hlimit : m.errors < ({} : Limits).recoveries := by
    rw [herrors]
    decide
  obtain ⟨m', hstep, -, -, hholds⟩ := hdrive {} m 5 ⟨0, 1⟩ hmeets hlimit hfind
  exact ⟨g, m, m', hg, hm, hmeets, hleast, ⟨5, hstep⟩, hholds⟩

end FourGL
