import FourGL.Proofs.Automaton.Lookahead
import Mathlib.Data.Set.Basic

/-!
# The lookahead sets are those of the canonical collection

The canonical collection has sets of items with a lookahead terminal each. It starts from the first
item with the end of input; the *closure* of a set adds, with an item before a nonterminal, the
productions of the nonterminal with every terminal that may come next; and a symbol leads to the
items that are past it then. The items alone are the *core* of such a set. States of the automaton
stand for all canonical sets of one core.

**Theorem (`foresees_iff_exists_canonical`).** The lookahead set that is computed for an item of a
state is the union of the lookaheads that the item has in the canonical sets whose core is the kernel
of the state. This goes for items of the kernel and for those that the closure adds. Every loop behind
it has come to rest (`atRest`).

The proof goes by paths. What is in a canonical set is what is valid on a path, and a state has the
lookaheads that are valid on some path to it.
-/

namespace FourGL

namespace Grammar

/-- Items, each with one terminal of its lookahead. -/
abbrev CanonicalSet := Set (Item × TerminalId)

namespace CanonicalSet

/-- The items alone. -/
def core (K : CanonicalSet) : Set Item := {i | ∃ t, (i, t) ∈ K}

/-- What comes in with the items of the set. Behind a nonterminal comes the first terminal of a text
of what follows it, or the lookahead if that text is empty. -/
inductive Closure (g : Grammar) (K : CanonicalSet) : Item → TerminalId → Prop
  | kernel {i : Item} {t : TerminalId} : (i, t) ∈ K → Closure g K i t
  | close {i : Item} {t : TerminalId} {n : NonterminalId} {δ : List Symbol} {p : ProductionId}
      {v : List TerminalId} {k : Nat} : Closure g K i t → g.rest i = .nonterminal n :: δ →
      p < g.productions.size → (g.production p).left = n → g.Yields δ v k →
      Closure g K (.initial p) (v.headD t)

/-- The set in which the automaton starts. -/
def first : CanonicalSet := {(.initial startProduction, Vocabulary.endOfInput)}

/-- The items past a symbol, after it was read. -/
def next (g : Grammar) (K : CanonicalSet) (x : Symbol) : CanonicalSet :=
  {e | ∃ i, e.1 = i.advance ∧ g.nextSymbol? i = some x ∧ Closure g K i e.2}

end CanonicalSet

open CanonicalSet

/-- The set belongs to the canonical collection. -/
inductive Canonical (g : Grammar) : CanonicalSet → Prop
  | first : Canonical g CanonicalSet.first
  | next {K : CanonicalSet} {x : Symbol} : Canonical g K → (K.next g x).Nonempty →
      Canonical g (K.next g x)

variable {g : Grammar} {s s' : StateId} {x : Symbol} {i : Item} {p : ProductionId}
  {t : TerminalId} {σ : List StateId} {γ : List Symbol} {K : CanonicalSet}

/-! ## Canonical sets along paths -/

/-- The canonical set holds what is valid on the path. -/
structure Represents (g : Grammar) (K : CanonicalSet) (s : StateId) (σ : List StateId)
    (γ : List Symbol) : Prop where
  path : g.Path (s :: σ) γ
  core : K.core = {i | i ∈ g.kernelOf s}
  closure : ∀ i t, K.Closure g i t ↔ g.Valid (s :: σ) γ i t

theorem WellFormed.represents_start (wf : g.WellFormed) :
    g.Represents CanonicalSet.first Automaton.start [] [] := by
  refine ⟨.start, ?_, fun i t => ⟨fun h => ?_, fun h => ?_⟩⟩
  · ext i
    simp [CanonicalSet.core, CanonicalSet.first, wf.kernelOf_start]
  · induction h with
    | kernel hmem =>
      obtain ⟨rfl, rfl⟩ := Prod.mk.inj hmem
      exact .start
    | close _ hr hp hl hv ih => exact .close ih hr hp hl hv
  · generalize hσ : [Automaton.start] = σ, hγ : ([] : List Symbol) = γ at h
    induction h with
    | start => exact .kernel rfl
    | advance => cases hγ
    | close _ hr hp hl hv ih => exact .close (ih hσ hγ) hr hp hl hv

/-- An item is in a state exactly if it is in the closure of the sets that the state stands for. -/
theorem Represents.mem_itemsOf_iff (h : g.Represents K s σ γ) (wf : g.WellFormed) :
    i ∈ g.itemsOf s ↔ ∃ t, K.Closure g i t := by
  constructor
  · intro hi
    obtain ⟨t, hv⟩ := wf.exists_valid h.path hi
    exact ⟨t, (h.closure i t).mpr hv⟩
  · rintro ⟨t, hclosure⟩
    exact (wf.looksAhead_of_valid ((h.closure i t).mp hclosure)).mem

/-- A symbol leads from a canonical set where it leads from its state. -/
theorem Represents.step (h : g.Represents K s σ γ) (wf : g.WellFormed)
    (hx : g.goto? s x = some s') :
    (K.next g x).Nonempty ∧ g.Represents (K.next g x) s' (s :: σ) (x :: γ) := by
  have hcore : (K.next g x).core = {i | i ∈ g.kernelOf s'} := by
    ext i
    constructor
    · rintro ⟨t, j, rfl, hnext, hclosure⟩
      exact (wf.mem_kernelOf_goto hx).mpr ⟨j, (h.mem_itemsOf_iff wf).mpr ⟨t, hclosure⟩, hnext, rfl⟩
    · intro hi
      obtain ⟨j, hj, hnext, rfl⟩ := (wf.mem_kernelOf_goto hx).mp hi
      obtain ⟨t, hclosure⟩ := (h.mem_itemsOf_iff wf).mp hj
      exact ⟨t, j, rfl, hnext, hclosure⟩
  refine ⟨?_, .step h.path hx, hcore, fun i t => ⟨fun hclosure => ?_, fun hv => ?_⟩⟩
  · obtain ⟨i, hi⟩ := List.exists_mem_of_ne_nil _ (wf.kernelOf_goto_ne_nil hx)
    have hmem : i ∈ (K.next g x).core := by rw [hcore]; exact hi
    obtain ⟨t, ht⟩ := hmem
    exact ⟨_, ht⟩
  · induction hclosure with
    | kernel hmem =>
      obtain ⟨j, hj, hnext, hclosure⟩ := hmem
      obtain rfl := hj
      exact .advance ((h.closure j _).mp hclosure) hnext hx
    | close _ hr hp hl hv ih => exact .close ih hr hp hl hv
  · generalize hτ : s' :: s :: σ = τ, hδ : x :: γ = δ at hv
    induction hv with
    | start => cases hδ
    | @advance _ _ _ _ j _ _ hv hnext _ =>
      cases hτ
      cases hδ
      exact .kernel ⟨j, rfl, hnext, (h.closure j _).mpr hv⟩
    | close _ hr hp hl hv ih => exact .close (ih hτ hδ) hr hp hl hv

/-- Every path has its canonical set. -/
theorem WellFormed.exists_canonical (wf : g.WellFormed) (h : g.Path (s :: σ) γ) :
    ∃ K, g.Canonical K ∧ g.Represents K s σ γ := by
  generalize hτ : s :: σ = τ at h
  induction h generalizing s σ with
  | start =>
    cases hτ
    exact ⟨_, .first, wf.represents_start⟩
  | step _ hx ih =>
    cases hτ
    obtain ⟨K, hK, hrep⟩ := ih rfl
    obtain ⟨hne, hstep⟩ := hrep.step wf hx
    exact ⟨_, .next hK hne, hstep⟩

/-- Every canonical set has a path. -/
theorem Canonical.exists_represents (h : g.Canonical K) (wf : g.WellFormed) :
    ∃ s σ γ, g.Represents K s σ γ := by
  induction h with
  | first => exact ⟨_, _, _, wf.represents_start⟩
  | @next K x _ hne ih =>
    obtain ⟨s, σ, γ, hrep⟩ := ih
    obtain ⟨⟨_, t⟩, i, rfl, hnext, hclosure⟩ := hne
    obtain ⟨s', hx⟩ := wf.exists_goto ((hrep.mem_itemsOf_iff wf).mpr ⟨t, hclosure⟩) hnext
    exact ⟨_, _, _, (hrep.step wf hx).2⟩

theorem Canonical.nonempty (h : g.Canonical K) : K.Nonempty := by
  cases h with
  | first => exact ⟨_, rfl⟩
  | next _ hne => exact hne

/-- Canonical sets of one core belong to one state. -/
theorem WellFormed.eq_of_core (wf : g.WellFormed) (hne : K.Nonempty)
    (h : K.core = {i | i ∈ g.kernelOf s}) (h' : K.core = {i | i ∈ g.kernelOf s'}) : s = s' := by
  obtain ⟨⟨i, t⟩, he⟩ := hne
  have hs : i ∈ g.kernelOf s := (Set.ext_iff.mp h i).mp ⟨t, he⟩
  have hs' : i ∈ g.kernelOf s' := (Set.ext_iff.mp h' i).mp ⟨t, he⟩
  exact wf.eq_of_kernelOf (lt_stateCount_of_mem_kernelOf hs) (lt_stateCount_of_mem_kernelOf hs')
    (Set.ext_iff.mp (h.symm.trans h'))

/-! ## The lookahead sets -/

/-- A state stands for the canonical sets with its core, each of which is that of a path to it. -/
theorem Canonical.exists_represents_of_core (h : g.Canonical K) (wf : g.WellFormed)
    (hcore : K.core = {i | i ∈ g.kernelOf s}) : ∃ σ γ, g.Represents K s σ γ := by
  obtain ⟨s', σ, γ, hrep⟩ := h.exists_represents wf
  obtain rfl := wf.eq_of_core h.nonempty hcore hrep.core
  exact ⟨σ, γ, hrep⟩

/-- The lookahead set that is computed for a slot holds the terminal. -/
def Computes (g : Grammar) (slot : Nat) (t : TerminalId) : Prop :=
  ((g.lookaheads.solve g.vocabulary.terminals.size).level slot).testBit t = true

/-- The terminal is in the lookahead set that is computed for the item in the state. -/
def Foresees (g : Grammar) (s : StateId) (i : Item) (t : TerminalId) : Prop :=
  ∃ slot, ⟨i, slot⟩ ∈ g.slotted s ∧ g.Computes slot t

theorem WellFormed.foresees_iff (wf : g.WellFormed) : g.Foresees s i t ↔ g.LooksAhead s i t :=
  exists_congr fun _ => and_congr_right fun _ => wf.testBit_solve_lookaheads

/-- **The lookahead sets are those of the canonical collection.** What is computed for an item of a
state is the union of what follows the item in the canonical sets with the state's core. -/
theorem WellFormed.foresees_iff_exists_canonical (wf : g.WellFormed) :
    g.Foresees s i t ↔ ∃ K, g.Canonical K ∧ K.core = {i | i ∈ g.kernelOf s} ∧
      K.Closure g i t := by
  rw [wf.foresees_iff, wf.looksAhead_iff]
  constructor
  · rintro ⟨σ, γ, hv⟩
    obtain ⟨K, hK, hrep⟩ := wf.exists_canonical hv.path
    exact ⟨K, hK, hrep.core, (hrep.closure i t).mpr hv⟩
  · rintro ⟨K, hK, hcore, hclosure⟩
    obtain ⟨σ, γ, hrep⟩ := hK.exists_represents_of_core wf hcore
    exact ⟨σ, γ, (hrep.closure i t).mp hclosure⟩

/-! ## Loops -/

/-- No loop behind the lookahead sets stops before it is done: another round changes nothing. -/
structure AtRest (g : Grammar) : Prop where
  nullable : Marks.round (nullableClauses g) (FirstSets.ofGrammar g).nullable =
    (FirstSets.ofGrammar g).nullable
  first : Flow.round g.firstFlow.edges (FirstSets.ofGrammar g).first =
    (FirstSets.ofGrammar g).first
  corners : Flow.round g.cornerFlow.edges (leftCorners g) = leftCorners g
  states : g.collection.isComplete = true
  lookaheads : Flow.round g.lookaheads.edges (g.lookaheads.solve g.vocabulary.terminals.size) =
    g.lookaheads.solve g.vocabulary.terminals.size

theorem WellFormed.atRest (wf : g.WellFormed) : g.AtRest where
  nullable := Marks.round_close
  first := Flow.round_solve wf.fits_firstFlow
  corners := by
    show Flow.round _ (g.cornerFlow.solve g.nonterminals.size) =
      g.cornerFlow.solve g.nonterminals.size
    exact Flow.round_solve fits_cornerFlow
  states := by
    rw [Collection.isComplete, wf.explored_collection.2]
    exact beq_self_eq_true _
  lookaheads := Flow.round_solve wf.fits_lookaheads

end Grammar

end FourGL
