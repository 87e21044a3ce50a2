import FourGL.Proofs.Automaton.Table
import FourGL.Proofs.Parse.DerivationTree
import FourGL.Proofs.Parse.Input
import FourGL.Proofs.Parse.Steps
import Mathlib

/-!
# Soundness of the parsing machine

Between steps, the frames on the stack stand for derivation trees, read one after the other: each
state is led to by the symbol of its tree from the state below, and each tree on the stack is the
image of its derivation. Every prefix of such a stack is one again, so it does not matter where a
repair cuts it.

**Theorem (`exists_derivation_of_accepted`).** A run that accepts ends with the image of a derivation
tree of the root. Its leaves are tokens in their order, and all of them if the run met no syntax
error.
-/

namespace FourGL

open DerivationTree

/-! ## Stacks -/

/-- The frames stand for derivation trees, both top first, read up to a position. -/
inductive Stacked (g : Grammar) (input : Input) : List Frame → List DerivationTree → Nat → Prop
  | start : Stacked g input [⟨Automaton.start, .absent⟩] [] 0
  | push {top : Frame} {frames : List Frame} {ds : List DerivationTree} {d : DerivationTree} {s : StateId}
      {middle stop : Nat} : Stacked g input (top :: frames) ds middle →
      g.goto? top.state (d.symbol g input) = some s → Reads g input middle [d] stop →
      Stacked g input (⟨s, d.image g input⟩ :: top :: frames) (d :: ds) stop

namespace Stacked

variable {g : Grammar} {input : Input} {frames : List Frame} {ds : List DerivationTree} {stop : Nat}

theorem path (h : Stacked g input frames ds stop) :
    g.Path (frames.map (·.state)) (ds.map (symbol g input)) := by
  induction h with
  | start => exact .start
  | push _ hs _ ih => exact .step ih hs

/-- All trees on the stack, read from the beginning. -/
theorem reads (h : Stacked g input frames ds stop) : Reads g input 0 ds.reverse stop := by
  induction h with
  | start => exact .nil
  | push _ _ hd ih =>
    rw [List.reverse_cons]
    exact ih.append hd

/-- **Taking frames off.** What is left stands for the trees left, and those taken off were read
after it. -/
theorem drop (h : Stacked g input frames ds stop) {k : Nat} (hk : k < frames.length) :
    ∃ middle, Stacked g input (frames.drop k) (ds.drop k) middle ∧
      Reads g input middle (ds.take k).reverse stop ∧
      (frames.take k).map (·.tree) = (ds.take k).map (image g input) := by
  induction h generalizing k with
  | start =>
    obtain rfl : k = 0 := by simpa using hk
    exact ⟨_, .start, .nil, rfl⟩
  | @push top frames ds d s _ stop hs hg hd ih =>
    cases k with
    | zero => exact ⟨_, .push hs hg hd, .nil, rfl⟩
    | succ k =>
      obtain ⟨middle, hs', hreads, htrees⟩ := ih (by simpa using hk)
      refine ⟨middle, hs', ?_, ?_⟩
      · rw [List.take_succ_cons, List.reverse_cons]
        exact hreads.append hd
      · exact congrArg (List.cons _) htrees

end Stacked

/-! ## Reductions -/

namespace Grammar.WellFormed

variable {g : Grammar} {s : StateId} {σ : List StateId} {γ : List Symbol} {i : Item}

/-- **Handles.** Where a state holds a complete item, the right-hand side is on top of every path
to it, and below that stands a state with the item at its start. -/
theorem handle (wf : g.WellFormed) (h : g.Path (s :: σ) γ) (hi : i ∈ g.itemsOf s)
    (hr : g.rest i = []) :
    γ.take (g.production i.production).right.length = (g.production i.production).right.reverse ∧
      ∃ s' σ', (s :: σ).drop (g.production i.production).right.length = s' :: σ' ∧
        Item.initial i.production ∈ g.itemsOf s' := by
  obtain ⟨-, htake, hbelow⟩ := wf.exists_prefix h hi
  rw [wf.dot_eq_length hi hr, List.take_length] at htake
  rw [wf.dot_eq_length hi hr] at hbelow
  exact ⟨htake, hbelow⟩

/-- After a reduction there is a way on. -/
theorem exists_goto_left (wf : g.WellFormed) {p : ProductionId}
    (hi : Item.initial p ∈ g.itemsOf s) (hp : p ≠ startProduction)
    (hlength : (g.production p).right.length ≤ maxIndex) :
    ∃ s', g.goto? s (.nonterminal (g.production p).left) = some s' := by
  have hk : Item.initial p ∉ g.kernelOf s := fun hk =>
    hp (wf.eq_start_of_mem_kernelOf hk hlength).2
  obtain ⟨j, hj, q, -, heq, hx⟩ := wf.exists_started hi hk
  obtain rfl : p = q := congrArg Item.production heq
  exact wf.exists_goto hj hx

/-- The state that accepts stands right above the first one. -/
theorem eq_of_accept (wf : g.WellFormed) (h : g.Path (s :: σ) γ) (hi : i ∈ g.itemsOf s)
    (hr : g.rest i = []) (hp : i.production = startProduction) :
    σ = [Automaton.start] ∧ γ = [.nonterminal g.root] := by
  obtain ⟨htake, s', σ', hdrop, hmem⟩ := wf.handle h hi hr
  rw [hp, wf.right_start] at htake hdrop
  obtain rfl : σ = s' :: σ' := hdrop
  rw [hp] at hmem
  obtain rfl := wf.eq_start_of_mem hmem
  cases h with
  | step hbelow _ =>
    cases hbelow with
    | start => exact ⟨rfl, htake⟩
    | step _ hs => exact absurd rfl (wf.goto?_ne_start hs)

end Grammar.WellFormed

/-! ## The machine -/

namespace Machine

/-- The stack stands for derivation trees of tokens before the position, and of all of them as long
as there was no syntax error. -/
def Grounded (g : Grammar) (input : Input) (m : Machine) : Prop :=
  ∃ ds stop, Stacked g input m.stack ds stop ∧ stop ≤ m.position ∧ m.position ≤ input.size ∧
    (m.errors = 0 → leavesOfAll ds.reverse = List.range m.position)

variable {g : Grammar} {input : Input} {m m' : Machine}

theorem grounded_initial : initial.Grounded g input :=
  ⟨[], 0, .start, Nat.le_refl _, Nat.zero_le _, fun _ => rfl⟩

theorem Grounded.shift (wf : g.WellFormed) (hend : input.IsEnded) (h : m.Grounded g input)
    {top : Frame} {frames : List Frame} {next : StateId} (hstack : m.stack = top :: frames)
    (hact : (Automaton.ofGrammar g).action? top.state (input.terminal m.position) =
      some (.shift next)) : (m.shift input next).Grounded g input := by
  obtain ⟨ds, stop, hs, hstop, hpos, hall⟩ := h
  have hasks := wf.asks_of_action? hact
  have hlt : m.position < input.size := by
    by_contra hle
    exact (wf.ne_endOfInput_of_shift hasks).1 ((hend _).mpr (Nat.le_of_not_lt hle))
  rw [hstack] at hs
  cases hasks with
  | shift _ _ hgoto =>
    refine ⟨.leaf m.position :: ds, m.position + 1, ?_, Nat.le_refl _, hlt, fun herrors => ?_⟩
    · rw [Machine.shift, hstack]
      exact .push (d := .leaf m.position) hs hgoto (.leaf hstop hlt .nil)
    · rw [List.reverse_cons, leavesOfAll_append, hall herrors]
      exact List.range_succ.symm

/-- Where a grounded machine reduces, the trees that it takes off are those of the right-hand side. -/
theorem Grounded.exists_children (wf : g.WellFormed) (h : m.Grounded g input) {top : Frame}
    {frames : List Frame} {p : ProductionId} (hstack : m.stack = top :: frames)
    (hact : (Automaton.ofGrammar g).action? top.state (input.terminal m.position) =
      some (.reduce p)) :
    ∃ ds cs middle stop,
      Stacked g input (m.stack.drop (g.production p).right.length) ds middle ∧
      Reads g input middle cs stop ∧ stop ≤ m.position ∧ m.position ≤ input.size ∧
      p < g.productions.size ∧ cs.map (symbol g input) = (g.production p).right ∧
      ((m.stack.take (g.production p).right.length).map (·.tree)).reverse =
        imageOfAll g input cs ∧
      (m.errors = 0 → leavesOfAll (ds.reverse ++ cs) = List.range m.position) := by
  obtain ⟨ds, stop, hs, hstop, hpos, hall⟩ := h
  cases wf.asks_of_action? hact with
  | @reduce i hlook hr _ =>
    have hpath := hs.path
    rw [hstack, List.map_cons] at hpath
    obtain ⟨htake, below, rest, hdrop, -⟩ := wf.handle hpath hlook.mem hr
    have hlen : (g.production i.production).right.length < m.stack.length := by
      have := congrArg List.length hdrop
      rw [← List.map_cons, ← hstack] at this
      simp only [List.length_drop, List.length_map, List.length_cons] at this
      omega
    obtain ⟨middle, hbelow, hreads, htrees⟩ := hs.drop hlen
    generalize hk : (g.production i.production).right.length = k at *
    refine ⟨ds.drop k, (ds.take k).reverse, middle, stop, hbelow, hreads, hstop, hpos,
      (wf.proper_itemsOf hlook.mem).1, ?_, ?_, fun herrors => ?_⟩
    · rw [List.map_reverse, List.map_take, htake, List.reverse_reverse]
    · rw [imageOfAll_eq_map, htrees, List.map_reverse]
    · rw [← List.reverse_append, List.take_append_drop, hall herrors]

theorem Grounded.reduce (wf : g.WellFormed) (h : m.Grounded g input) {top : Frame}
    {frames : List Frame} {p : ProductionId} {below : Frame} {rest : List Frame} {next : StateId}
    (hstack : m.stack = top :: frames)
    (hact : (Automaton.ofGrammar g).action? top.state (input.terminal m.position) =
      some (.reduce p))
    (hdrop : m.stack.drop (g.production p).right.length = below :: rest)
    (hgoto : g.goto? below.state (.nonterminal (g.production p).left) = some next) :
    Grounded g input { m with
      stack := ⟨next, (g.production p).action.run input m.position
        ((m.stack.take (g.production p).right.length).map (·.tree)).reverse⟩ :: below :: rest } := by
  obtain ⟨ds, cs, middle, stop, hbelow, hreads, hstop, hpos, hp, hchildren, htrees, hall⟩ :=
    h.exists_children wf hstack hact
  rw [hdrop] at hbelow
  have hnode : Reads g input middle [.node p m.position cs] m.position :=
    .node hp hchildren hreads hstop .nil
  refine ⟨.node p m.position cs :: ds, m.position, ?_, Nat.le_refl _, hpos, fun herrors => ?_⟩
  · rw [htrees]
    exact .push (d := .node p m.position cs) hbelow hgoto hnode
  · rw [← hall herrors, List.reverse_cons, leavesOfAll_append, leavesOfAll_singleton, leaves,
      leavesOfAll_append]

theorem Grounded.repair (h : m.Grounded g input) {l : Language} {s : StateId} {r : Repair}
    (hskip : m.position + r.skip ≤ input.size) (hpop : r.pop < m.stack.length) :
    ((m.noteError l input s).apply r).Grounded g input := by
  obtain ⟨ds, stop, hs, hstop, -, -⟩ := h
  obtain ⟨middle, hs', hreads, -⟩ := hs.drop hpop
  refine ⟨_, middle, hs', ?_, hskip, fun herrors => absurd herrors (Nat.succ_ne_zero _)⟩
  have := hreads.le
  show middle ≤ m.position + r.skip
  omega

theorem Grounded.discard (h : m.Grounded g input) {l : Language} {s : StateId} :
    ((m.noteError l input s).discard input).Grounded g input := by
  obtain ⟨ds, stop, hs, hstop, hpos, -⟩ := h
  refine ⟨ds, stop, hs, ?_, Nat.min_le_right _ _, fun herrors => absurd herrors (Nat.succ_ne_zero _)⟩
  show stop ≤ min (m.position + Repair.window + 1) input.size
  omega

/-- Every move keeps a machine grounded. -/
theorem Grounded.move (wf : g.WellFormed) (hend : input.IsEnded) (h : m.Grounded g input)
    (hm : Move (.ofGrammar g) input m m') : m'.Grounded g input := by
  cases hm with
  | shift hstack hact => exact h.shift wf hend hstack hact
  | reduce hstack hact hdrop hgoto => exact h.reduce wf hstack hact hdrop hgoto
  | repair _ _ hskip hpop => exact h.repair hskip hpop
  | discard _ _ => exact h.discard

theorem Grounded.moves (wf : g.WellFormed) (hend : input.IsEnded) (h : m.Grounded g input)
    (hm : Relation.ReflTransGen (Move (.ofGrammar g) input) m m') : m'.Grounded g input := by
  induction hm with
  | refl => exact h
  | tail _ hm ih => exact ih.move wf hend hm

/-- A grounded machine that accepts has one tree, that of the root. -/
theorem Grounded.accept (wf : g.WellFormed) (hend : input.IsEnded) (h : m.Grounded g input)
    {top : Frame} {frames : List Frame} (hstack : m.stack = top :: frames)
    (hact : (Automaton.ofGrammar g).action? top.state (input.terminal m.position) =
      some .accept) :
    ∃ d stop, d.symbol g input = .nonterminal g.root ∧ Reads g input 0 [d] stop ∧
      d.leaves.Sublist (List.range input.size) ∧ top.tree = d.image g input ∧
      (m.errors = 0 → d.leaves = List.range input.size) := by
  obtain ⟨ds, stop, hs, hstop, hpos, hall⟩ := h
  have hasks := wf.asks_of_action? hact
  have hsize : input.size ≤ m.position := (hend _).mp (wf.eq_endOfInput_of_accept hasks)
  cases hasks with
  | accept hlook hr hp =>
    have hpath := hs.path
    rw [hstack, List.map_cons] at hpath
    obtain ⟨-, hγ⟩ := wf.eq_of_accept hpath hlook.mem hr hp
    have hreads := hs.reads
    rw [hstack] at hs
    cases hs with
    | start => cases hγ
    | @push _ _ ds d =>
      obtain ⟨hroot, hnil⟩ := List.cons.inj hγ
      obtain rfl : ds = [] := List.map_eq_nil_iff.mp hnil
      have hsub := hreads.leaves_sublist
      simp only [List.reverse_singleton, leavesOfAll_singleton, Nat.sub_zero] at hsub hreads
      rw [← List.range_eq_range'] at hsub
      refine ⟨d, stop, hroot, hreads, ?_, rfl, fun herrors => ?_⟩
      · exact hsub.trans (List.range_sublist.mpr (hstop.trans hpos))
      · have := hall herrors
        rw [List.reverse_singleton, leavesOfAll_singleton] at this
        rw [this, Nat.le_antisymm hpos hsize]

end Machine

/-- A run that accepts ends with the image of a derivation tree of the root. -/
theorem Machine.exists_image_of_run {g : Grammar} (hg : g.IsBuilt) {limits : Limits}
    {source : String} {n : Nat} {m : Machine} {tree : Tree}
    (h : Machine.initial.run (.ofGrammar g) limits (g.inputOf source) n =
      some (m, .accepted tree)) :
    ∃ d stop, d.symbol g (g.inputOf source) = .nonterminal g.root ∧
      Reads g (g.inputOf source) 0 [d] stop ∧
      d.leaves.Sublist (List.range (g.inputOf source).size) ∧
      tree = d.image g (g.inputOf source) := by
  have wf := Grammar.wellFormed_of_isBuilt hg
  have hend := isEnded_inputOf wf.vocabulary source
  obtain ⟨last, allowance, hmoves, hlast⟩ := Machine.moves_of_run h
  obtain ⟨rfl, top, frames, hstack, rfl, hact⟩ := Machine.step_accepted hlast
  obtain ⟨d, stop, hroot, hreads, hsub, htree, -⟩ :=
    (Machine.grounded_initial.moves wf hend hmoves).accept wf hend hstack hact
  exact ⟨d, stop, hroot, hreads, hsub, htree⟩

/-- **Soundness.** Whatever errors a run has recovered from, if it accepts, it ends with the image of
a derivation tree of the root, whose leaves are tokens of the text in their order. If it met no
error, the leaves are all tokens that the parser reads, and these are a sentence. -/
theorem exists_derivation_of_accepted {g : Grammar} (hg : g.IsBuilt) {limits : Limits}
    {source : String} {n : Nat} {m : Machine} {tree : Tree}
    (h : Machine.initial.run (.ofGrammar g) limits (g.inputOf source) n =
      some (m, .accepted tree)) :
    ∃ d stop, d.symbol g (g.inputOf source) = .nonterminal g.root ∧
      Reads g (g.inputOf source) 0 [d] stop ∧
      d.leaves.Sublist (List.range (g.inputOf source).size) ∧
      tree = d.image g (g.inputOf source) ∧
      (m.errors = 0 → d.leaves = List.range (g.inputOf source).size ∧
        g.Sentence (g.inputOf source).terminals) := by
  have wf := Grammar.wellFormed_of_isBuilt hg
  have hend := isEnded_inputOf wf.vocabulary source
  obtain ⟨last, allowance, hmoves, hlast⟩ := Machine.moves_of_run h
  obtain ⟨rfl, top, frames, hstack, rfl, hact⟩ := Machine.step_accepted hlast
  obtain ⟨d, stop, hroot, hreads, hsub, htree, hall⟩ :=
    (Machine.grounded_initial.moves wf hend hmoves).accept wf hend hstack hact
  refine ⟨d, stop, hroot, hreads, hsub, htree, fun herrors => ⟨hall herrors, ?_⟩⟩
  obtain ⟨k, hk⟩ := hreads.yields
  rw [leavesOfAll_singleton, hall herrors, List.map_singleton, hroot] at hk
  exact Grammar.sentence_iff_yields.mpr ⟨k, hk⟩

/-- Whether the grammar of some declarations accepts a text without a syntax error. -/
def Declarations.accepts (d : Declarations) (source : String) (n : Nat) : Bool :=
  match d.build with
  | .error _ => false
  | .ok g =>
    match Machine.initial.run (.ofGrammar g) {} (g.inputOf source) n with
    | some (m, .accepted _) => m.errors == 0
    | _ => false

theorem Declarations.run_of_accepts {d : Declarations} {source : String} {n : Nat}
    (h : d.accepts source n = true) : ∃ g m tree, d.build = .ok g ∧ m.errors = 0 ∧
      Machine.initial.run (.ofGrammar g) {} (g.inputOf source) n = some (m, .accepted tree) := by
  simp only [accepts] at h
  split at h
  · cases h
  · next g hg =>
    split at h
    · next m tree hrun => exact ⟨g, m, tree, hg, by simpa using h, hrun⟩
    · cases h

theorem exists_derivation_of_accepted_plus : ∃ g : Grammar, g.IsBuilt ∧ ∃ d stop,
    d.symbol g (g.inputOf "+") = .nonterminal g.root ∧ Reads g (g.inputOf "+") 0 [d] stop ∧
      d.leaves = List.range (g.inputOf "+").size ∧ g.Sentence (g.inputOf "+").terminals := by
  have haccepts : (Declarations.ofSteps "signs" plusSteps).accepts "+" 10 = true := by cbv
  obtain ⟨g, m, tree, hg, herrors, hrun⟩ := Declarations.run_of_accepts haccepts
  obtain ⟨d, stop, hroot, hreads, -, -, hall⟩ :=
    exists_derivation_of_accepted ⟨"signs", plusSteps, hg⟩ hrun
  exact ⟨g, ⟨"signs", plusSteps, hg⟩, d, stop, hroot, hreads, hall herrors⟩

end FourGL
