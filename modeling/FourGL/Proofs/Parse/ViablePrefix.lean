import FourGL.Proofs.Parse.Exactness
import FourGL.Proofs.Parse.Totality

/-!
# Viable prefixes

A *rightmost* derivation always rewrites the last nonterminal. A sequence of symbols is a *viable
prefix* if it is the beginning of a sequence in such a derivation and does not go beyond the
right-hand side that was put in last.

A valid item shows that the symbols of its path are a viable prefix: the production of the item is
the one put in last, up to the position of the item. As every path to a state has a valid item, this
does not depend on how conflicts are settled, and taking states off the stack does no harm.

**Theorem (`viable_of_reaches`).** At every moment of every run, whatever errors it has recovered
from, the symbols on the stack are a viable prefix that derives some of the tokens passed, in their
order. Up to the first error these are all tokens passed, and the beginning of a sentence.
-/

namespace FourGL

namespace Grammar

variable {g : Grammar} {α γ δ before : List Symbol} {v w z : List TerminalId} {k n : Nat}
  {σ : List StateId} {i : Item} {t : TerminalId}

/-! ## Rightmost derivations -/

/-- The last nonterminal of a sequence is replaced by the right-hand side of one of its productions.
-/
def ProducesLast (g : Grammar) (α β : List Symbol) : Prop :=
  ∃ before p, ∃ w : List TerminalId, p < g.productions.size ∧
    α = before ++ .nonterminal (g.production p).left :: w.map .terminal ∧
    β = before ++ (g.production p).right ++ w.map .terminal

/-- What the start symbol can be rewritten to, always at the last nonterminal. -/
def RightSentential (g : Grammar) (α : List Symbol) : Prop :=
  Relation.ReflTransGen g.ProducesLast [.nonterminal start] α

/-- The symbols are the beginning of a sequence in a rightmost derivation, and end within the
right-hand side that was put in last. -/
def IsViablePrefix (g : Grammar) (γ : List Symbol) : Prop :=
  ∃ before p, ∃ w : List TerminalId, ∃ k, p < g.productions.size ∧
    k ≤ (g.production p).right.length ∧
    g.RightSentential (before ++ .nonterminal (g.production p).left :: w.map .terminal) ∧
    γ = before ++ (g.production p).right.take k

theorem RightSentential.produce {p : ProductionId} (hp : p < g.productions.size)
    (h : g.RightSentential (before ++ .nonterminal (g.production p).left :: w.map .terminal)) :
    g.RightSentential (before ++ (g.production p).right ++ w.map .terminal) :=
  h.tail ⟨before, p, w, hp, rfl, rfl⟩

/-- What symbols yield can take their place, from the last one to the first. -/
theorem RightSentential.yield (hy : g.Yields δ v k)
    (h : g.RightSentential (before ++ δ ++ w.map .terminal)) :
    g.RightSentential (before ++ (v ++ w).map .terminal) := by
  induction hy generalizing before w with
  | nil => simpa using h
  | @terminal u β v _ _ ih =>
    have hrest : g.RightSentential ((before ++ [.terminal u]) ++ β ++ w.map .terminal) := by
      simpa using h
    simpa using ih hrest
  | @nonterminal p l β u v _ _ hp hl _ _ ihr ihβ =>
    subst hl
    -- The symbols behind the nonterminal are rewritten first.
    have hbehind : g.RightSentential
        ((before ++ [.nonterminal (g.production p).left]) ++ β ++ w.map .terminal) := by
      simpa using h
    have hrest := ihβ hbehind
    rw [List.append_assoc, List.singleton_append] at hrest
    rw [List.append_assoc]
    exact ihr (hrest.produce hp)

/-! ## Valid items -/

/-- **Valid items.** The symbols of a path to a valid item end with what was read of its production,
which is the one put in last in a rightmost derivation. -/
theorem Valid.exists_rightSentential (h : g.Valid σ γ i t) (wf : g.WellFormed)
    (hnarrow : g.Narrow) :
    ∃ before w, g.RightSentential
        (before ++ .nonterminal (g.production i.production).left :: List.map .terminal w) ∧
      γ.reverse = before ++ (g.production i.production).right.take i.dot := by
  induction h with
  | start =>
    refine ⟨[], [], ?_, rfl⟩
    rw [Item.initial, wf.left_start]
    exact .refl
  | @advance s s' σ γ i t x hvalid hx _ ih =>
    obtain ⟨before, w, hsentential, hγ⟩ := ih
    refine ⟨before, w, hsentential, ?_⟩
    have hdot : (g.production i.production).right[i.dot]? = some x :=
      List.head?_drop.symm.trans hx
    rw [List.reverse_cons, hγ, List.append_assoc,
      Item.advance_of_lt (hnarrow.dot_lt (hvalid.proper wf) hx), List.take_add_one, hdot]
    rfl
  | @close σ γ i t n δ p v k hvalid hrest hp hl hy ih =>
    subst hl
    obtain ⟨before, w, hsentential, hγ⟩ := ih
    refine ⟨γ.reverse, v ++ w, ?_, by simp [Item.initial]⟩
    -- The production of the item is put in, and what follows the nonterminal is rewritten.
    have hright : (g.production i.production).right =
        (g.production i.production).right.take i.dot ++
          .nonterminal (g.production p).left :: δ := by
      rw [← hrest]
      exact (List.take_append_drop _ _).symm
    have hput := hsentential.produce (hvalid.proper wf).1
    rw [hright, ← List.append_assoc before, ← hγ] at hput
    have hδ : g.RightSentential
        ((γ.reverse ++ [.nonterminal (g.production p).left]) ++ δ ++ w.map .terminal) := by
      simpa using hput
    simpa [Item.initial] using hδ.yield hy

/-- The symbols of a path are a viable prefix. -/
theorem WellFormed.isViablePrefix_of_path (wf : g.WellFormed) (hnarrow : g.Narrow) (h : g.Path σ γ) :
    g.IsViablePrefix γ.reverse := by
  obtain ⟨i, t, -, -, hvalid, -⟩ := wf.exists_valid_of_path h
  obtain ⟨before, w, hsentential, hγ⟩ := hvalid.exists_rightSentential wf hnarrow
  obtain ⟨hp, hdot⟩ := hvalid.proper wf
  exact ⟨before, i.production, w, i.dot, hp, hdot, hsentential, hγ⟩

/-- What the symbols of a path yield is the beginning of a sentence. -/
theorem WellFormed.exists_sentence_of_path (wf : g.WellFormed) (hnarrow : g.Narrow) (h : g.Path σ γ)
    (hy : g.Yields γ.reverse w n) : ∃ z, g.Sentence z ∧ w <+: z := by
  obtain ⟨i, t, v, k, hvalid, hv⟩ := wf.exists_valid_of_path h
  obtain ⟨z, hz, -⟩ := hvalid.exists_sentence wf hnarrow hy hv
  refine ⟨_, hz, ?_⟩
  rw [List.append_assoc]
  exact List.prefix_append _ _

end Grammar

/-! ## The machine -/

open DerivationTree

namespace Machine

variable {g : Grammar} {l : Language} {limits : Limits} {input : Input} {m m' : Machine}
  {ending : Ending} {allowance : Nat}

/-- What the stack and the tokens passed have to do with the sentences of the grammar. -/
structure Viable (g : Grammar) (input : Input) (m : Machine) : Prop where
  position_le : m.position ≤ input.size
  /-- The symbols on the stack are a viable prefix and derive tokens passed: all of them, as long as
  there was no error. -/
  stack : ∃ γ positions, g.Path m.states γ ∧ g.IsViablePrefix γ.reverse ∧
    Relation.ReflTransGen g.Produces γ.reverse
      (positions.map fun position => .terminal (input.terminal position)) ∧
    positions.Sublist (List.range m.position) ∧
    (m.errors = 0 → positions = List.range m.position)
  /-- Before the first error, the tokens passed are the beginning of a sentence. -/
  passed : m.errors = 0 → ∃ w, g.Sentence w ∧ input.terminals.take m.position <+: w

theorem Grounded.viable (wf : g.WellFormed) (hnarrow : g.Narrow) (h : m.Grounded g input) :
    m.Viable g input := by
  obtain ⟨ds, stop, hstack, hstop, hposition, hall⟩ := h
  have hpath : g.Path m.states (ds.map (symbol g input)) := hstack.path
  obtain ⟨n, hy⟩ := hstack.reads.yields
  rw [List.map_reverse] at hy
  have hviable := wf.isViablePrefix_of_path hnarrow hpath
  refine ⟨hposition, ⟨_, leavesOfAll ds.reverse, hpath, hviable, ?_, ?_, hall⟩, fun herrors => ?_⟩
  · simpa [Function.comp_def] using Grammar.rewrites_of_yields hy
  · have hsub := hstack.reads.leaves_sublist
    rw [Nat.sub_zero, ← List.range_eq_range'] at hsub
    exact hsub.trans (List.range_sublist.mpr hstop)
  · obtain ⟨z, hz, hstart⟩ := wf.exists_sentence_of_path hnarrow hpath hy
    rw [hall herrors] at hstart
    refine ⟨z, hz, ?_⟩
    rwa [Input.terminals, ← List.map_take, List.take_range, Nat.min_eq_left hposition]

/-- The last step of a run leaves the stack and the position as they are. -/
theorem unmoved_of_done (h : m.step l limits input allowance = some (.done m' ending)) :
    m'.stack = m.stack ∧ m'.position = m.position ∧ m.errors ≤ m'.errors := by
  simp only [step] at h
  split at h
  · cases h
    exact ⟨rfl, rfl, Nat.le_refl _⟩
  · split at h
    · cases h
    · simp only [reduce] at h
      split at h
      · cases h
        exact ⟨rfl, rfl, Nat.le_refl _⟩
      · split at h <;> cases h
        exact ⟨rfl, rfl, Nat.le_refl _⟩
    · cases h
      exact ⟨rfl, rfl, Nat.le_refl _⟩
    · simp only [recover] at h
      split at h
      · cases h
        exact ⟨rfl, rfl, Nat.le_succ _⟩
      · split at h
        · cases h
        · cases h
        · split at h <;> cases h
          exact ⟨rfl, rfl, Nat.le_succ _⟩

theorem Viable.done (h : m.Viable g input)
    (hstep : m.step l limits input allowance = some (.done m' ending)) : m'.Viable g input := by
  obtain ⟨hstack, hposition, herrors⟩ := unmoved_of_done hstep
  have hzero : m'.errors = 0 → m.errors = 0 := fun h0 => Nat.le_zero.mp (h0 ▸ herrors)
  obtain ⟨hle, ⟨γ, positions, hpath, hviable, hderives, hsub, hall⟩, hpassed⟩ := h
  refine ⟨hposition ▸ hle, ⟨γ, positions, ?_, hviable, hderives, hposition ▸ hsub, ?_⟩, ?_⟩
  · rwa [states, hstack]
  · rw [hposition]
    exact fun h0 => hall (hzero h0)
  · rw [hposition]
    exact fun h0 => hpassed (hzero h0)

end Machine

/-- **Viable prefixes.** At every moment of every run, the end included and whatever errors it has
recovered from, the machine is viable. A run with errors has met a first one, and the tokens before
the position where an error is met first are the beginning of a sentence. -/
theorem viable_of_reaches {g : Grammar} (hg : g.IsBuilt) (hnarrow : g.Narrow) (limits : Limits)
    (source : String) :
    (∀ m, Machine.Reaches (.ofGrammar g) limits (g.inputOf source) .initial m →
      m.Viable g (g.inputOf source)) ∧
    (∀ n m ending, Machine.initial.run (.ofGrammar g) limits (g.inputOf source) n =
      some (m, ending) → m.Viable g (g.inputOf source) ∧
        (m.errors ≠ 0 → ∃ first,
          Machine.Reaches (.ofGrammar g) limits (g.inputOf source) .initial first ∧
            first.errors = 0 ∧ first.MeetsError (.ofGrammar g) (g.inputOf source))) ∧
    ∀ first, Machine.Reaches (.ofGrammar g) limits (g.inputOf source) .initial first →
      first.errors = 0 → first.MeetsError (.ofGrammar g) (g.inputOf source) →
      ∃ w, g.Sentence w ∧ (g.inputOf source).terminals.take first.position <+: w := by
  have wf := Grammar.wellFormed_of_isBuilt hg
  have hgrounded : ∀ m, Machine.Reaches (.ofGrammar g) limits (g.inputOf source) .initial m →
      m.Grounded g (g.inputOf source) := fun m hm =>
    Machine.grounded_initial.moves wf (isEnded_inputOf wf.vocabulary source)
      (Machine.moves_of_reaches hm)
  refine ⟨fun m hm => (hgrounded m hm).viable wf hnarrow, fun n m ending hrun => ?_,
    fun first hm herrors _ => ((hgrounded first hm).viable wf hnarrow).passed herrors⟩
  obtain ⟨last, allowance, hreaches, hlast⟩ := Machine.reaches_of_run hrun
  refine ⟨((hgrounded last hreaches).viable wf hnarrow).done hlast, fun herrors => ?_⟩
  by_cases hzero : last.errors = 0
  · rcases Machine.step_done hlast with hs | ⟨rfl, -⟩ | ⟨hmeets, -⟩
    · exact absurd hs ((hgrounded last hreaches).ne_stuck wf hlast)
    · exact absurd hzero herrors
    · exact ⟨last, hreaches, hzero, hmeets⟩
  · exact Machine.exists_first_error hreaches hzero

/-- The second sign is the first error; the run recovers from it. -/
theorem viable_of_reaches_plus : ∃ g : Grammar, g.IsBuilt ∧ g.Narrow ∧ ∃ first m ending,
    Machine.Reaches (.ofGrammar g) {} (g.inputOf "+ +") .initial first ∧ first.errors = 0 ∧
      (∃ w, g.Sentence w ∧ (g.inputOf "+ +").terminals.take first.position <+: w) ∧
      Machine.initial.run (.ofGrammar g) {} (g.inputOf "+ +") 10 = some (m, ending) ∧
      m.errors = 1 ∧ m.Viable g (g.inputOf "+ +") := by
  have herrors : (Declarations.ofSteps "signs" plusSteps).errorsIn? "+ +" 10 = some 1 := by cbv
  obtain ⟨g, m, ending, hbuild, hm, hrun⟩ := Declarations.run_of_errorsIn? herrors
  have hg : g.IsBuilt := ⟨"signs", plusSteps, hbuild⟩
  obtain ⟨g', -, hbuild', hnarrow, -⟩ := exists_strict_plus
  obtain rfl : g' = g := Except.ok.inj (hbuild'.symm.trans hbuild)
  obtain ⟨-, hend, hfirst⟩ := viable_of_reaches hg hnarrow {} "+ +"
  obtain ⟨hviable, hmet⟩ := hend 10 m ending hrun
  obtain ⟨first, hreaches, hzero, hmeets⟩ := hmet (by omega)
  exact ⟨_, hg, hnarrow, first, m, ending, hreaches, hzero, hfirst first hreaches hzero hmeets, hrun, hm,
    hviable⟩

end FourGL
