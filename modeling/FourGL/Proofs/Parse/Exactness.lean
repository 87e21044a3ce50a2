import FourGL.Proofs.Parse.Discipline
import FourGL.Proofs.Parse.Halting
import Mathlib.Data.Finset.Lattice.Fold
import Mathlib.Order.Bounds.Defs

/-!
# Exactness without conflicts

A grammar whose tables have no conflict is bounded: one walk follows all derivations of a text, and
it is no longer than the walk of a sentence that goes on from there. So every run ends.

A stack that a walk comes to can always be completed to a sentence. So an error is met no later, and
by completeness no earlier, than where the text stops to be the start of a sentence.

**Theorem (`exact_of_strict`).** If the tables have no conflict, every run ends. It meets no error
exactly if the text is a sentence. The first error is at the first position where the terminals, that
at the position included, are not the start of a sentence.
-/

namespace FourGL

open FourGL.Language

/-! ## Words as texts -/

/-- The terminals at all positions of a word, with the end of input behind. -/
def textOf (w : List TerminalId) (position : Nat) : TerminalId :=
  w.getD position Vocabulary.endOfInput

theorem spells_of_getElem? {f : Nat → TerminalId} {w : List TerminalId} {position : Nat}
    (h : ∀ j t, w[j]? = some t → f (position + j) = t) : Spells f position w := by
  induction w generalizing position with
  | nil => trivial
  | cons t w ih =>
    refine ⟨h 0 t rfl, ih fun j u hj => ?_⟩
    rw [Nat.add_right_comm]
    exact h (j + 1) u hj

theorem textOf_of_getElem? {w : List TerminalId} {j : Nat} {t : TerminalId}
    (h : (w ++ [Vocabulary.endOfInput])[j]? = some t) : textOf w j = t := by
  rw [textOf, List.getD_eq_getElem?_getD]
  rcases Nat.lt_or_ge j w.length with hlt | hge
  · rw [List.getElem?_append_left hlt] at h
    rw [h]
    rfl
  · rw [List.getElem?_append_right hge] at h
    rw [List.getElem?_eq_none hge]
    exact (List.mem_singleton.mp (List.mem_of_getElem? h)).symm

theorem spells_textOf (w : List TerminalId) :
    Spells (textOf w) 0 (w ++ [Vocabulary.endOfInput]) := by
  refine spells_of_getElem? fun j t hj => ?_
  rw [Nat.zero_add]
  exact textOf_of_getElem? hj

namespace Language

variable {l : Language} {f f' : Nat → TerminalId} {c c' c'' : Footing} {m n : Nat}

/-- No walk goes beyond one that has come to its end. -/
theorem walks_le (h : l.walks f m c = some c') (hend : l.walk? f c' = none)
    (h' : l.walks f n c = some c'') : n ≤ m := by
  by_contra hlt
  obtain ⟨k, rfl⟩ := Nat.exists_eq_add_of_lt (Nat.lt_of_not_le hlt)
  rw [Nat.add_assoc, walks_add, h, Option.bind_some, walks, hend] at h'
  cases h'

theorem position_le_of_walk? (h : l.walk? f c = some c') : c.2 ≤ c'.2 := by
  obtain ⟨σ, position⟩ := c
  cases σ with
  | nil => cases h
  | cons s σ =>
    simp only [walk?] at h
    split at h
    · cases h
      exact Nat.le_succ _
    · obtain ⟨stack, -, rfl⟩ := Option.map_eq_some_iff.mp h
      exact Nat.le_refl _
    · cases h

theorem walk?_congr (h : f c.2 = f' c.2) : l.walk? f c = l.walk? f' c := by
  obtain ⟨σ, position⟩ := c
  cases σ with
  | nil => rfl
  | cons s σ => simp only [walk?, show f position = f' position from h]

theorem position_le_of_walks (h : l.walks f n c = some c') : c.2 ≤ c'.2 := by
  induction n generalizing c with
  | zero =>
    cases h
    exact Nat.le_refl _
  | succ n ih =>
    obtain ⟨b, hb, h⟩ := Option.bind_eq_some_iff.mp h
    exact (position_le_of_walk? hb).trans (ih h)

/-- A walk reads no further than one terminal beyond its position. -/
theorem walks_congr (h : l.walks f n c = some c') (hf : ∀ j ≤ c'.2, f j = f' j) :
    l.walks f' n c = some c' := by
  induction n generalizing c with
  | zero => exact h
  | succ n ih =>
    obtain ⟨b, hb, h⟩ := Option.bind_eq_some_iff.mp h
    have hle := (position_le_of_walk? hb).trans (position_le_of_walks h)
    rw [walks, ← walk?_congr (hf _ hle), hb]
    exact ih h

end Language

/-! ## Boundedness -/

namespace Grammar

variable {g : Grammar} {automaton : Automaton} {s : StateId} {σ : List StateId} {γ : List Symbol}
  {i : Item} {t : TerminalId} {u v w z : List TerminalId} {k n : Nat} {f : Nat → TerminalId}

/-- The walk of a sentence ends, in a state that accepts. -/
theorem WellFormed.exists_walks_sentence (wf : g.WellFormed) (hnarrow : g.Narrow)
    (hstrict : Automaton.ofGrammarStrict g = .ok automaton) (h : g.Sentence w) :
    ∃ n s σ, walks ⟨g, automaton⟩ (textOf w) n ([Automaton.start], 0) = some (s :: σ, w.length) ∧
      automaton.action? s (textOf w w.length) = some .accept ∧
      walk? ⟨g, automaton⟩ (textOf w) (s :: σ, w.length) = none := by
  obtain ⟨n, hy⟩ := sentence_iff_yields.mp h
  obtain ⟨s, σ, hwalks, hact⟩ := wf.walks_of_sentence hnarrow hstrict hy (spells_textOf w)
  have hlast : textOf w w.length = Vocabulary.endOfInput := by simp [textOf]
  rw [← hlast] at hact
  exact ⟨n, s, σ, hwalks, hact, by simp [walk?, hact]⟩

/-- What comes next after a valid item is a terminal of the vocabulary. -/
theorem WellFormed.headD_lt (wf : g.WellFormed) (hvalid : g.Valid σ γ i t)
    (hv : g.Yields (g.rest i) v k) : v.headD t < g.vocabulary.terminals.size := by
  cases σ with
  | nil => cases hvalid.path
  | cons s σ =>
    have hlook := wf.looksAhead_of_valid hvalid
    cases v with
    | nil => exact wf.lt_of_looksAhead hlook
    | cons u v =>
      have husable := wf.usable_of_yields hv (wf.usable_of_rest (wf.proper_itemsOf hlook.mem))
      exact (husable u List.mem_cons_self).2

/-- The next terminal being given, all derivations of a text on paths have a greatest length. -/
theorem WellFormed.exists_bound_of_next (wf : g.WellFormed) (hnarrow : g.Narrow)
    (hstrict : Automaton.ofGrammarStrict g = .ok automaton) (w : List TerminalId) (u : TerminalId) :
    ∃ bound, ∀ σ γ i t v k n, g.Valid σ γ i t → g.Yields γ.reverse w n →
      g.Yields (g.rest i) v k → v.headD t = u → n ≤ bound := by
  by_cases hex : ∃ σ γ i t v k n, g.Valid σ γ i t ∧ g.Yields γ.reverse w n ∧
      g.Yields (g.rest i) v k ∧ v.headD t = u
  · obtain ⟨σ, γ, i, t, v, k, n, hvalid, hy, hv, rfl⟩ := hex
    obtain ⟨z, hz, rfl⟩ := hvalid.exists_sentence wf hnarrow hy hv
    obtain ⟨bound, s, τ, hwalks, -, hlast⟩ := wf.exists_walks_sentence hnarrow hstrict hz
    refine ⟨bound, fun σ' γ' i' t' v' k' n' hvalid' hy' hv' hnext => ?_⟩
    refine walks_le hwalks hlast (wf.walks_of_path hnarrow hstrict hvalid' hy' hv' ?_)
    have hspells := spells_textOf (w ++ v ++ z)
    rw [List.append_assoc w] at hspells
    have hhead := Spells.next (v := []) (t := Vocabulary.endOfInput) hspells
    rw [hnext, List.append_assoc w]
    have : v.headD (z.headD Vocabulary.endOfInput) = (v ++ z ++ []).headD Vocabulary.endOfInput := by
      cases v <;> simp
    rwa [this]
  · exact ⟨0, fun σ γ i t v k n hvalid hy hv hnext =>
      absurd ⟨σ, γ, i, t, v, k, n, hvalid, hy, hv, hnext⟩ hex⟩

/-- **Without conflicts, derivations are bounded.** -/
theorem WellFormed.bounded_of_strict (wf : g.WellFormed) (hnarrow : g.Narrow)
    (hstrict : Automaton.ofGrammarStrict g = .ok automaton) : g.Bounded := by
  intro w
  choose bound hbound using wf.exists_bound_of_next hnarrow hstrict w
  refine ⟨(Finset.range g.vocabulary.terminals.size).sup bound, fun σ n ⟨γ, hpath, hy⟩ => ?_⟩
  obtain ⟨i, t, v, k, hvalid, hv⟩ := wf.exists_valid_of_path hpath
  have hmem := Finset.mem_range.mpr (wf.headD_lt hvalid hv)
  exact (hbound _ σ γ i t v k n hvalid hy hv rfl).trans (Finset.le_sup hmem)

end Grammar

/-! ## Starts of sentences -/

/-- The terminals that a parser sees, the end of input among them. -/
def Input.ended (input : Input) : List TerminalId := input.terminals ++ [Vocabulary.endOfInput]

/-- The terminals are the start of a sentence, with the end of input behind it. -/
def Grammar.IsViable (g : Grammar) (u : List TerminalId) : Prop :=
  ∃ w, g.Sentence w ∧ u <+: w ++ [Vocabulary.endOfInput]

theorem Grammar.IsViable.of_isPrefix {g : Grammar} {u v : List TerminalId} (h : g.IsViable v)
    (hu : u <+: v) : g.IsViable u := by
  obtain ⟨w, hw, hv⟩ := h
  exact ⟨w, hw, hu.trans hv⟩

namespace Input

variable {input : Input} {position j : Nat}

theorem length_terminals : input.terminals.length = input.size := by simp [terminals]

theorem getElem?_ended (hend : input.IsEnded) (hj : j ≤ input.size) :
    input.ended[j]? = some (input.terminal j) := by
  rcases Nat.lt_or_ge j input.size with hlt | hge
  · rw [ended, List.getElem?_append_left (by rwa [length_terminals]), terminals, List.getElem?_map,
      List.getElem?_range hlt]
    rfl
  · obtain rfl : j = input.size := Nat.le_antisymm hj hge
    rw [ended, List.getElem?_append_right (by rw [length_terminals]), length_terminals,
      Nat.sub_self, (hend _).mpr (Nat.le_refl _)]
    rfl

theorem take_ended (hposition : position ≤ input.size) :
    input.ended.take position = (List.range position).map input.terminal := by
  rw [ended, List.take_append_of_le_length (by rwa [length_terminals]), terminals, ← List.map_take,
    List.take_range, Nat.min_eq_left hposition]

end Input

namespace Grammar

variable {g : Grammar} {automaton : Automaton} {input : Input} {s : StateId}
  {σ : List StateId} {position k n : Nat}

/-- A walk has read the terminals before its position, and makes derivations of them. -/
theorem WellFormed.reached_of_walks (wf : g.WellFormed) (hend : input.IsEnded)
    (h : walks (.ofGrammar g) input.terminal k ([Automaton.start], 0) = some (σ, position)) :
    position ≤ input.size ∧ g.Reached σ ((List.range position).map input.terminal) k := by
  induction k generalizing σ position with
  | zero =>
    cases h
    exact ⟨Nat.zero_le _, reached_start⟩
  | succ k ih =>
    rw [walks_add] at h
    obtain ⟨⟨τ, middle⟩, hk, hlast⟩ := Option.bind_eq_some_iff.mp h
    obtain ⟨hle, hreached⟩ := ih hk
    obtain ⟨c, hwalk, hc⟩ := Option.bind_eq_some_iff.mp hlast
    cases hc
    rcases reached_of_walk? wf hend hreached hwalk with ⟨hlt, rfl, h'⟩ | ⟨rfl, h'⟩
    · refine ⟨hlt, ?_⟩
      rw [List.range_succ, List.map_append]
      exact h'
    · exact ⟨hle, h'⟩

/-- What a walk has read is the start of a sentence. -/
theorem WellFormed.isViable_of_walks (wf : g.WellFormed) (hnarrow : g.Narrow) (hend : input.IsEnded)
    (h : walks (.ofGrammar g) input.terminal k ([Automaton.start], 0) = some (σ, position)) :
    g.IsViable (input.ended.take position) := by
  obtain ⟨hle, γ, hpath, hy⟩ := wf.reached_of_walks hend h
  obtain ⟨i, t, v, m, hvalid, hv⟩ := wf.exists_valid_of_path hpath
  obtain ⟨z, hz, -⟩ := hvalid.exists_sentence wf hnarrow hy hv
  refine ⟨_, hz, ?_⟩
  rw [Input.take_ended hle, List.append_assoc, List.append_assoc]
  exact List.prefix_append _ _

/-- Where the tables have no action, what was read does not go on with the terminal at hand. -/
theorem WellFormed.not_isViable_of_walks (wf : g.WellFormed) (hnarrow : g.Narrow)
    (hstrict : Automaton.ofGrammarStrict g = .ok automaton) (hend : input.IsEnded)
    (h : walks ⟨g, automaton⟩ input.terminal k ([Automaton.start], 0) = some (s :: σ, position))
    (hle : position ≤ input.size) (hact : automaton.action? s (input.terminal position) = none) :
    ¬ g.IsViable (input.ended.take (position + 1)) := by
  rintro ⟨w, hw, hprefix⟩
  -- The walk of the sentence is the same up to here, and it does not end here.
  have hagree : ∀ j ≤ position, input.terminal j = textOf w j := by
    intro j hj
    have hget : (input.ended.take (position + 1))[j]? = some (input.terminal j) := by
      rw [List.getElem?_take_of_lt (Nat.lt_succ_of_le hj),
        Input.getElem?_ended hend (hj.trans hle)]
    obtain ⟨rest, hrest⟩ := hprefix
    refine (textOf_of_getElem? ?_).symm
    rw [← hrest, List.getElem?_append_left (List.getElem?_eq_some_iff.mp hget).1]
    exact hget
  obtain ⟨n, s', σ', hwalks, haccept, hlast⟩ := wf.exists_walks_sentence hnarrow hstrict hw
  have hwalks' := walks_congr h hagree
  have hnone : walk? ⟨g, automaton⟩ (textOf w) (s :: σ, position) = none := by
    rw [hagree position (Nat.le_refl _)] at hact
    simp [walk?, hact]
  have hkn : k = n := Nat.le_antisymm (walks_le hwalks hlast hwalks') (walks_le hwalks' hnone hwalks)
  rw [hkn, hwalks] at hwalks'
  cases hwalks'
  rw [hagree _ (Nat.le_refl _), haccept] at hact
  cases hact

/-- Where a walk accepts, it has read a sentence. -/
theorem WellFormed.sentence_of_walks (wf : g.WellFormed) (hend : input.IsEnded)
    (h : walks (.ofGrammar g) input.terminal k ([Automaton.start], 0) = some (s :: σ, position))
    (hact : (Automaton.ofGrammar g).action? s (input.terminal position) = some .accept) :
    g.Sentence input.terminals := by
  obtain ⟨hle, γ, hpath, hy⟩ := wf.reached_of_walks hend h
  have hasks := wf.asks_of_action? hact
  have hposition : position = input.size :=
    Nat.le_antisymm hle ((hend _).mp (wf.eq_endOfInput_of_accept hasks))
  cases hasks with
  | accept hlook hrest hp =>
    obtain ⟨-, rfl⟩ := wf.eq_of_accept hpath hlook.mem hrest hp
    rw [hposition] at hy
    exact sentence_iff_yields.mpr ⟨k, hy⟩

end Grammar

/-! ## The first error -/

namespace Machine

variable {l : Language} {limits : Limits} {input : Input} {m m' : Machine} {allowance : Nat}
  {ending : Ending}

/-- The tables have no action for the terminal at hand. -/
def MeetsError (l : Language) (input : Input) (m : Machine) : Prop :=
  ∃ top frames, m.stack = top :: frames ∧
    l.automaton.action? top.state (input.terminal m.position) = none

instance : Decidable (m.MeetsError l input) :=
  decidable_of_iff (m.stack.head?.any fun top =>
    (l.automaton.action? top.state (input.terminal m.position)).isNone) <| by
      cases hstack : m.stack <;> simp [MeetsError, hstack]

theorem recover_errors {s : StateId}
    (h : m.recover l limits input allowance s = some (.next m')) : m'.errors = m.errors + 1 := by
  rcases (recover_next h).2 with ⟨r, -, rfl⟩ | ⟨-, rfl⟩ <;> rfl

/-- The last step of a run gets stuck, accepts or gives up on an error. -/
theorem step_done (h : m.step l limits input allowance = some (.done m' ending)) :
    ending = .stuck ∨ (m' = m ∧ ∃ tree, ending = .accepted tree) ∨
      (m.MeetsError l input ∧ m'.errors = m.errors + 1 ∧ ∀ tree, ending ≠ .accepted tree) := by
  simp only [step] at h
  split at h
  · cases h
    exact .inl rfl
  · next top frames hstack =>
    split at h
    · cases h
    · simp only [reduce] at h
      split at h
      · cases h
        exact .inl rfl
      · split at h
        · cases h
          exact .inl rfl
        · cases h
    · cases h
      exact .inr (.inl ⟨rfl, _, rfl⟩)
    · next hact => exact .inr (.inr ⟨⟨top, frames, hstack, hact⟩, recover_done h⟩)

/-- As long as there is no error, a run is a walk. -/
theorem walks_of_reaches (h : Reaches l limits input m m') (herrors : m'.errors = 0) :
    ∃ k, l.walks input.terminal k (m.states, m.position) = some (m'.states, m'.position) := by
  induction h with
  | refl => exact ⟨0, rfl⟩
  | tail _ hstep ih =>
    obtain ⟨allowance, hstep⟩ := hstep
    rcases walk?_or_recover hstep with ⟨hwalk, hsame⟩ | ⟨top, frames, -, -, hrecover⟩
    · obtain ⟨k, hk⟩ := ih (hsame ▸ herrors)
      refine ⟨k + 1, walks_trans hk ?_⟩
      rw [walks, hwalk]
      rfl
    · rw [recover_errors hrecover] at herrors
      cases herrors

/-- Where there are errors, there was a first one. -/
theorem exists_first_error (h : Reaches l limits input .initial m) (herrors : m.errors ≠ 0) :
    ∃ first, Reaches l limits input .initial first ∧ first.errors = 0 ∧
      first.MeetsError l input := by
  induction h with
  | refl => exact absurd rfl herrors
  | @tail b m hreaches hstep ih =>
    by_cases hb : b.errors = 0
    · obtain ⟨allowance, hstep⟩ := hstep
      rcases walk?_or_recover hstep with ⟨-, hsame⟩ | ⟨top, frames, hstack, hact, -⟩
      · exact absurd (hsame.trans hb) herrors
      · exact ⟨b, hreaches, hb, top, frames, hstack, hact⟩
    · exact ih hb

end Machine

/-- **The first error.** It is met at the first position where the text is no start of a sentence. -/
theorem Grammar.WellFormed.isLeast_of_meetsError {g : Grammar} (wf : g.WellFormed)
    (hnarrow : g.Narrow) {automaton : Automaton}
    (hstrict : Automaton.ofGrammarStrict g = .ok automaton) {input : Input}
    (hend : input.IsEnded) {limits : Limits} {first : Machine}
    (hreaches : Machine.Reaches ⟨g, automaton⟩ limits input .initial first)
    (herrors : first.errors = 0) (hmeets : first.MeetsError ⟨g, automaton⟩ input) :
    IsLeast {p | ¬ g.IsViable (input.ended.take (p + 1))} first.position := by
  obtain ⟨rfl, -⟩ := ofGrammarStrict_ok hstrict
  obtain ⟨top, frames, hstack, hact⟩ := hmeets
  obtain ⟨k, hk⟩ := Machine.walks_of_reaches hreaches herrors
  have hk' : walks (.ofGrammar g) input.terminal k ([Automaton.start], 0) =
      some (top.state :: frames.map (·.state), first.position) := by
    rw [Machine.states_of_stack hstack] at hk
    exact hk
  refine ⟨wf.not_isViable_of_walks hnarrow hstrict hend hk' (wf.reached_of_walks hend hk).1 hact,
    fun p hp => ?_⟩
  by_contra hlt
  exact hp ((wf.isViable_of_walks hnarrow hend hk).of_isPrefix (List.take_prefix_take_left (by omega)))

/-- **Exactness.** Without conflicts, and if no right-hand side is longer than positions reach, every run
ends, and it meets no error exactly if the text is a sentence. Where the first error is met, the terminals
up to there are not the start of a sentence, and at every earlier position they are. -/
theorem exact_of_strict {g : Grammar} (hg : g.IsBuilt) (hnarrow : g.Narrow) {automaton : Automaton}
    (hstrict : Automaton.ofGrammarStrict g = .ok automaton) (limits : Limits) (source : String) :
    ∃ n m ending, Machine.initial.run ⟨g, automaton⟩ limits (g.inputOf source) n =
        some (m, ending) ∧
      (m.errors = 0 ↔ g.Sentence (g.inputOf source).terminals) ∧
      (m.errors = 0 → ∃ tree, ending = .accepted tree) ∧
      (m.errors ≠ 0 → ∃ first,
        Machine.Reaches ⟨g, automaton⟩ limits (g.inputOf source) .initial first ∧
          first.errors = 0 ∧ first.MeetsError ⟨g, automaton⟩ (g.inputOf source)) ∧
      ∀ first, Machine.Reaches ⟨g, automaton⟩ limits (g.inputOf source) .initial first →
        first.errors = 0 → first.MeetsError ⟨g, automaton⟩ (g.inputOf source) →
        IsLeast {p | ¬ g.IsViable ((g.inputOf source).ended.take (p + 1))} first.position := by
  have wf := Grammar.wellFormed_of_isBuilt hg
  have hend := isEnded_inputOf wf.vocabulary source
  have hleast := fun first
      (hreaches : Machine.Reaches ⟨g, automaton⟩ limits (g.inputOf source) .initial first)
      herrors hmeets =>
    wf.isLeast_of_meetsError hnarrow hstrict hend hreaches herrors hmeets
  obtain ⟨rfl, -⟩ := Grammar.ofGrammarStrict_ok hstrict
  obtain ⟨n, m, ending, hrun⟩ := (wf.bounded_of_strict hnarrow hstrict).halts wf limits source
  obtain ⟨last, allowance, hreaches, hlast⟩ := Machine.reaches_of_run hrun
  have hstuck : ending ≠ .stuck :=
    (Machine.grounded_initial.moves wf hend (Machine.moves_of_reaches hreaches)).ne_stuck wf hlast
  have hfirst : m.errors ≠ 0 → ∃ first,
      Machine.Reaches (.ofGrammar g) limits (g.inputOf source) .initial first ∧
        first.errors = 0 ∧ first.MeetsError (.ofGrammar g) (g.inputOf source) := by
    intro herrors
    by_cases hzero : last.errors = 0
    · rcases Machine.step_done hlast with hs | ⟨rfl, -⟩ | ⟨hmeets, -⟩
      · exact absurd hs hstuck
      · exact absurd hzero herrors
      · exact ⟨last, hreaches, hzero, hmeets⟩
    · exact Machine.exists_first_error hreaches hzero
  have haccepted : m.errors = 0 → ∃ tree, ending = .accepted tree := by
    intro herrors
    rcases Machine.step_done hlast with hs | ⟨-, htree⟩ | ⟨-, hmore, -⟩
    · exact absurd hs hstuck
    · exact htree
    · rw [hmore] at herrors
      cases herrors
  refine ⟨n, m, ending, hrun, ⟨fun herrors => ?_, fun hsentence => ?_⟩, haccepted, hfirst, hleast⟩
  · obtain ⟨tree, rfl⟩ := haccepted herrors
    obtain ⟨rfl, top, frames, hstack, -, hact⟩ := Machine.step_accepted hlast
    obtain ⟨k, hk⟩ := Machine.walks_of_reaches hreaches herrors
    rw [Machine.states_of_stack hstack] at hk
    exact wf.sentence_of_walks hend hk hact
  · by_contra herrors
    obtain ⟨first, hreaches, hzero, hmeets⟩ := hfirst herrors
    refine (hleast first hreaches hzero hmeets).1 ⟨_, hsentence, ?_⟩
    exact List.take_prefix _ _

theorem exists_strict_plus : ∃ g automaton, (Declarations.ofSteps "signs" plusSteps).build = .ok g ∧
    g.Narrow ∧ Automaton.ofGrammarStrict g = .ok automaton := by
  have hok : ((Declarations.ofSteps "signs" plusSteps).build.toOption.any fun g =>
      decide g.Narrow && (Automaton.ofGrammarStrict g).toBool) = true := by cbv
  cases hbuild : (Declarations.ofSteps "signs" plusSteps).build with
  | error e =>
    rw [hbuild] at hok
    cases hok
  | ok g =>
    rw [hbuild] at hok
    obtain ⟨hnarrow, htables⟩ := Bool.and_eq_true_iff.mp hok
    cases hstrict : Automaton.ofGrammarStrict g with
    | error e =>
      rw [hstrict] at htables
      cases htables
    | ok automaton => exact ⟨g, automaton, rfl, of_decide_eq_true hnarrow, hstrict⟩

/-- The grammar of the plus sign has no conflicts. -/
theorem exact_of_strict_plus : ∃ g : Grammar, g.IsBuilt ∧ g.Narrow ∧ ∃ automaton,
    Automaton.ofGrammarStrict g = .ok automaton ∧ ∃ n m ending,
      Machine.initial.run ⟨g, automaton⟩ {} (g.inputOf "+ +") n = some (m, ending) ∧
        (m.errors = 0 ↔ g.Sentence (g.inputOf "+ +").terminals) := by
  obtain ⟨g, automaton, hbuild, hnarrow, hstrict⟩ := exists_strict_plus
  have hg : g.IsBuilt := ⟨"signs", plusSteps, hbuild⟩
  obtain ⟨n, m, ending, hrun, hexact, -⟩ := exact_of_strict hg hnarrow hstrict {} "+ +"
  exact ⟨g, hg, hnarrow, automaton, hstrict, n, m, ending, hrun, hexact⟩

end FourGL
