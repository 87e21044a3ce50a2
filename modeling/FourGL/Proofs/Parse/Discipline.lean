import FourGL.Proofs.Parse.Numbering
import FourGL.Proofs.Parse.Soundness

/-!
# The discipline of the stack

The parsing machine takes frames off its stack without looking at them first. It can do so because
of what is on the stack at every moment, before and after any number of repairs: the states are a
path of transitions from the first state, and every tree above the bottom is a value of the symbol
of its transition.

**Theorem (`disciplined_of_reaches`).** Every machine that a run reaches is disciplined: where its
tables say to reduce, the right-hand side is on top of the stack, something is left below it, and
there is a way on from there. So no run gets stuck. A builder keeps slots on a stack of its own beside the
states of its machine, and the two stay equally high.
-/

namespace FourGL

open DerivationTree

/-! ## Values -/

/-- The tree is what becomes of a derivation of the symbol from tokens of the input. -/
def Grammar.IsValue (g : Grammar) (input : Input) (x : Symbol) (t : Tree) : Prop :=
  ∃ d start stop, d.symbol g input = x ∧ Reads g input start [d] stop ∧ t = d.image g input

namespace Stacked

variable {g : Grammar} {input : Input} {frames : List Frame} {ds : List DerivationTree} {stop : Nat}

/-- The trees above the bottom are values of the symbols read. -/
theorem values (h : Stacked g input frames ds stop) :
    List.Forall₂ (g.IsValue input) (ds.map (symbol g input)) (frames.map (·.tree)).dropLast := by
  induction h with
  | start => exact .nil
  | @push top frames ds d s middle stop hs hgoto hd ih =>
    rw [List.map_cons, List.map_cons, List.map_cons, List.dropLast_cons_cons]
    exact .cons ⟨d, middle, stop, rfl, hd, rfl⟩ ih

end Stacked

namespace Machine

variable {g : Grammar} {l : Language} {limits : Limits} {input : Input} {m m' : Machine}
  {ending : Ending} {allowance n : Nat}

/-- The trees on the stack, top first. -/
def values (m : Machine) : List Tree := m.stack.map (·.tree)

/-- What holds of the stack between any two steps of a run. -/
structure Disciplined (g : Grammar) (input : Input) (m : Machine) : Prop where
  nonempty : 0 < m.states.length
  sameHeight : m.values.length = m.states.length
  /-- The states are a path from the first one, and each value belongs to the symbol of its
  transition. -/
  path : ∃ γ, g.Path m.states γ ∧ List.Forall₂ (g.IsValue input) γ m.values.dropLast
  /-- A reduction finds its right-hand side, a state below it, and a way on. -/
  handle : ∀ s p, m.states.head? = some s →
    (Automaton.ofGrammar g).action? s (input.terminal m.position) = some (.reduce p) →
    (g.production p).right.length < m.states.length ∧
    (∀ γ, g.Path m.states γ →
      γ.take (g.production p).right.length = (g.production p).right.reverse) ∧
    ∃ below next, (m.states.drop (g.production p).right.length).head? = some below ∧
      (Automaton.ofGrammar g).goto? below (g.production p).left = some next

/-- Where a grounded machine reduces, the production is a handle on top of the stack. -/
theorem Grounded.handle (wf : g.WellFormed) (h : m.Grounded g input) {s : StateId}
    {p : ProductionId} (hs : m.states.head? = some s)
    (hact : (Automaton.ofGrammar g).action? s (input.terminal m.position) = some (.reduce p)) :
    (∀ γ, g.Path m.states γ →
      γ.take (g.production p).right.length = (g.production p).right.reverse) ∧
    ∃ below rest next, m.states.drop (g.production p).right.length = below :: rest ∧
      g.goto? below (.nonterminal (g.production p).left) = some next := by
  obtain ⟨σ, hstates⟩ := List.head?_eq_some_iff.mp hs
  rw [hstates]
  cases wf.asks_of_action? hact with
  | @reduce i hlook hrest hne =>
    refine ⟨fun γ hpath => (wf.handle hpath hlook.mem hrest).1, ?_⟩
    obtain ⟨ds, stop, hstack, -⟩ := h
    have hpath : g.Path m.states (ds.map (symbol g input)) := hstack.path
    rw [hstates] at hpath
    obtain ⟨-, below, rest, hdrop, hmem⟩ := wf.handle hpath hlook.mem hrest
    obtain ⟨next, hnext⟩ := wf.exists_goto_left hmem hne (wf.length_le_of_complete hlook.mem hrest)
    exact ⟨below, rest, next, hdrop, hnext⟩

theorem Grounded.disciplined (wf : g.WellFormed) (h : m.Grounded g input) :
    m.Disciplined g input := by
  obtain ⟨ds, stop, hstack, hrest⟩ := h
  have hpath : g.Path m.states (ds.map (symbol g input)) := hstack.path
  refine ⟨by rw [hpath.length]; exact Nat.succ_pos _, by simp [states, values],
    ⟨_, hpath, hstack.values⟩, fun s p hs hact => ?_⟩
  obtain ⟨htake, below, rest, next, hdrop, hnext⟩ :=
    Grounded.handle wf ⟨ds, stop, hstack, hrest⟩ hs hact
  refine ⟨?_, htake, below, next, by rw [hdrop]; rfl, hnext⟩
  have hlength := congrArg List.length hdrop
  simp only [List.length_drop, List.length_cons] at hlength
  omega

/-! ## Runs -/

/-- The run leads from one machine to the other, with any allowance for trials. -/
def Reaches (l : Language) (limits : Limits) (input : Input) : Machine → Machine → Prop :=
  Relation.ReflTransGen fun m m' => ∃ allowance, m.step l limits input allowance = some (.next m')

theorem moves_of_reaches (h : Reaches l limits input m m') :
    Relation.ReflTransGen (Move l input) m m' :=
  Relation.ReflTransGen.mono (fun _ _ ⟨_, hstep⟩ => move_of_step hstep) _ _ h

/-- A run that ends has reached the machine whose step ends it. -/
theorem reaches_of_run (h : m.run l limits input n = some (m', ending)) :
    ∃ last allowance, Reaches l limits input m last ∧
      last.step l limits input allowance = some (.done m' ending) := by
  induction n generalizing m with
  | zero => cases h
  | succ n ih =>
    simp only [run] at h
    split at h
    · cases h
    · next next hstep =>
      obtain ⟨last, allowance, hreaches, hlast⟩ := ih h
      exact ⟨last, allowance, .head ⟨n, hstep⟩ hreaches, hlast⟩
    · next last ending' hstep =>
      cases h
      exact ⟨m, n, .refl, hstep⟩

/-- The machine after some steps, none of which ends the run. -/
def after? (l : Language) (limits : Limits) (input : Input) (allowance : Nat) :
    Nat → Machine → Option Machine
  | 0, m => some m
  | n + 1, m =>
    match m.step l limits input allowance with
    | some (.next m) => after? l limits input allowance n m
    | _ => none

theorem reaches_of_after? (h : m.after? l limits input allowance n = some m') :
    Reaches l limits input m m' := by
  induction n generalizing m with
  | zero =>
    cases h
    exact .refl
  | succ n ih =>
    simp only [after?] at h
    split at h
    · next hstep => exact .head ⟨allowance, hstep⟩ (ih h)
    · cases h

/-- No step of a grounded machine gets stuck. -/
theorem Grounded.ne_stuck (wf : g.WellFormed) (h : m.Grounded g input)
    (hstep : m.step (.ofGrammar g) limits input allowance = some (.done m' ending)) :
    ending ≠ .stuck := by
  rintro rfl
  simp only [step] at hstep
  split at hstep
  · next hnil =>
    obtain ⟨ds, stop, hstack, -⟩ := h
    rw [hnil] at hstack
    cases hstack
  · next top frames htop =>
    split at hstep
    · cases hstep
    · next p hact =>
      obtain ⟨-, below, rest, next, hdrop, hnext⟩ :=
        h.handle wf (s := top.state) (by rw [states, htop]; rfl) hact
      rw [states, ← List.map_drop] at hdrop
      obtain ⟨frame, frames', hframes, rfl, rfl⟩ := List.map_eq_cons_iff.mp hdrop
      rw [reduce_eq_next (l := .ofGrammar g) hframes hnext] at hstep
      cases hstep
    · cases hstep
    · next hact =>
      simp only [recover] at hstep
      split at hstep
      · cases hstep
      · split at hstep
        · cases hstep
        · cases hstep
        · split at hstep <;> cases hstep

end Machine

/-! ## The stack of slots -/

namespace Builder

variable {l : Language} {limits : Limits} {input : Input} {b b' : Builder}

/-- The run leads from one builder to the other, with any allowance for trials. -/
def Reaches (l : Language) (limits : Limits) (input : Input) : Builder → Builder → Prop :=
  Relation.ReflTransGen fun b b' => ∃ allowance m,
    b.machine.step l limits input allowance = some (.next m) ∧ b' = b.follow l input m

theorem Reaches.machine (h : Reaches l limits input b b') :
    Machine.Reaches l limits input b.machine b'.machine := by
  induction h with
  | refl => exact .refl
  | tail _ hstep ih =>
    obtain ⟨allowance, m, hstep, rfl⟩ := hstep
    exact ih.tail ⟨allowance, by rw [machine_follow]; exact hstep⟩

theorem Reaches.consistent (h : Reaches l limits input b b') (hb : b.Consistent) : b'.Consistent := by
  induction h with
  | refl => exact hb
  | tail _ hstep ih =>
    obtain ⟨allowance, m, hstep, rfl⟩ := hstep
    exact ih.follow (Machine.move_of_step hstep)

/-- Whatever a machine reaches, a builder reaches with it. -/
theorem exists_reaches {m : Machine} (h : Machine.Reaches l limits input b.machine m) :
    ∃ b', Reaches l limits input b b' ∧ b'.machine = m := by
  induction h with
  | refl => exact ⟨b, .refl, rfl⟩
  | tail _ hstep ih =>
    obtain ⟨b', hb', rfl⟩ := ih
    obtain ⟨allowance, hstep⟩ := hstep
    exact ⟨_, hb'.tail ⟨allowance, _, hstep, rfl⟩, machine_follow⟩

/-- The slots are as many as the states. -/
theorem Consistent.length_slots (h : b.Consistent) : b.slots.length = b.machine.states.length := by
  obtain ⟨ks, h, -⟩ := h
  have hlength := h.length_eq
  simpa [Machine.states] using hlength

end Builder

/-- **The discipline of the stack.** At every step of every run, whatever errors it has recovered
from, the machine is disciplined. With it goes a builder, whose slots are as many as the states and hold
the trees. And no run ends for want of a way on. -/
theorem disciplined_of_reaches {g : Grammar} (hg : g.IsBuilt) (limits : Limits) (source : String) :
    (∀ m, Machine.Reaches (.ofGrammar g) limits (g.inputOf source) .initial m →
      m.Disciplined g (g.inputOf source) ∧
      ∃ b, Builder.Reaches (.ofGrammar g) limits (g.inputOf source) .initial b ∧ b.machine = m) ∧
    (∀ b, Builder.Reaches (.ofGrammar g) limits (g.inputOf source) .initial b →
      Machine.Reaches (.ofGrammar g) limits (g.inputOf source) .initial b.machine ∧
      b.slots.length = b.machine.states.length ∧ b.Consistent) ∧
    ∀ n m ending, Machine.initial.run (.ofGrammar g) limits (g.inputOf source) n =
      some (m, ending) → ending ≠ .stuck := by
  have wf := Grammar.wellFormed_of_isBuilt hg
  have hgrounded : ∀ m, Machine.Reaches (.ofGrammar g) limits (g.inputOf source) .initial m →
      m.Grounded g (g.inputOf source) := fun m hm =>
    Machine.grounded_initial.moves wf (isEnded_inputOf wf.vocabulary source)
      (Machine.moves_of_reaches hm)
  refine ⟨fun m hm => ⟨(hgrounded m hm).disciplined wf, Builder.exists_reaches hm⟩, fun b hb => ?_,
    fun n m ending hrun => ?_⟩
  · have hconsistent := hb.consistent Builder.consistent_initial
    exact ⟨hb.machine, hconsistent.length_slots, hconsistent⟩
  · obtain ⟨last, allowance, hreaches, hlast⟩ := Machine.reaches_of_run hrun
    exact (hgrounded last hreaches).ne_stuck wf hlast

/-- The number of syntax errors that the parser of some declarations meets in a text, if there is
such a parser and its run ends within the allowance. -/
def Declarations.errorsIn? (d : Declarations) (source : String) (n : Nat) : Option Nat :=
  match d.build with
  | .error _ => none
  | .ok g => (Machine.initial.run (.ofGrammar g) {} (g.inputOf source) n).map (·.1.errors)

theorem Declarations.run_of_errorsIn? {d : Declarations} {source : String} {n k : Nat}
    (h : d.errorsIn? source n = some k) : ∃ g m ending, d.build = .ok g ∧ m.errors = k ∧
      Machine.initial.run (.ofGrammar g) {} (g.inputOf source) n = some (m, ending) := by
  simp only [errorsIn?] at h
  split at h
  · cases h
  · next g hg =>
    obtain ⟨⟨m, ending⟩, hrun, hm⟩ := Option.map_eq_some_iff.mp h
    exact ⟨g, m, ending, hg, hm, hrun⟩

/-- A second sign is a syntax error, from which the run recovers. -/
theorem disciplined_of_reaches_plus : ∃ g : Grammar, g.IsBuilt ∧
    ∃ last m ending, Machine.Reaches (.ofGrammar g) {} (g.inputOf "+ +") .initial last ∧
      last.Disciplined g (g.inputOf "+ +") ∧
      (∃ b : Builder, b.machine = last ∧ b.slots.length = last.states.length) ∧
      Machine.initial.run (.ofGrammar g) {} (g.inputOf "+ +") 10 = some (m, ending) ∧
      m.errors = 1 ∧ ending ≠ .stuck := by
  have herrors : (Declarations.ofSteps "signs" plusSteps).errorsIn? "+ +" 10 = some 1 := by cbv
  obtain ⟨g, m, ending, hbuild, hm, hrun⟩ := Declarations.run_of_errorsIn? herrors
  have hg : g.IsBuilt := ⟨"signs", plusSteps, hbuild⟩
  obtain ⟨hall, hslots, hstuck⟩ := disciplined_of_reaches hg {} "+ +"
  obtain ⟨last, -, hreaches, -⟩ := Machine.reaches_of_run hrun
  obtain ⟨hdisciplined, b, hb, rfl⟩ := hall last hreaches
  exact ⟨g, hg, b.machine, m, ending, hreaches, hdisciplined, ⟨b, rfl, (hslots b hb).2.1⟩, hrun, hm,
    hstuck 10 m ending hrun⟩

end FourGL
