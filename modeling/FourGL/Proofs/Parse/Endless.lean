import FourGL.Proofs.Automaton.Policy
import FourGL.Proofs.Parse.Halting

/-!
# A run that does not end

Not every grammar that builds has a parser whose runs all end. With conflicts resolved by the order
of productions, a parser may go round a cycle of the grammar for ever.

**Theorem (`endless_loop`).** There is a grammar, and a text of one character, for which no number
of steps suffices.

In that grammar a nonterminal may stand for itself, and that is preferred to what would lead on.
-/

namespace FourGL

/-! ## Endless walks -/

namespace Language

variable {l : Language} {f : Nat → TerminalId} {c c' : Footing} {k n : Nat}

/-- A walk that goes far goes less far first. -/
theorem exists_walks_of_le (h : l.walks f n c = some c') (hle : k ≤ n) :
    ∃ b, l.walks f k c = some b := by
  obtain ⟨j, rfl⟩ := Nat.exists_eq_add_of_le hle
  rw [walks_add] at h
  obtain ⟨b, hb, -⟩ := Option.bind_eq_some_iff.mp h
  exact ⟨b, hb⟩

/-- A walk that comes back to a footing has no end. -/
theorem exists_walks_of_loop {m : Nat} (h : l.walks f m c = some c')
    (hloop : l.walks f (n + 1) c' = some c') (k : Nat) : ∃ b, l.walks f k c = some b := by
  have hrounds : ∀ j, l.walks f (m + (n + 1) * j) c = some c' := by
    intro j
    induction j with
    | zero => exact h
    | succ j ih =>
      rw [Nat.mul_succ, ← Nat.add_assoc]
      exact walks_trans ih hloop
  refine exists_walks_of_le (hrounds k) ?_
  exact (Nat.le_mul_of_pos_left k (Nat.succ_pos n)).trans (Nat.le_add_left _ _)

end Language

namespace Machine

variable {l : Language} {limits : Limits} {input : Input} {m : Machine} {c : Footing}

theorem exists_reduce_of_reduceStates (input : Input) {p : ProductionId} {σ : List StateId}
    (h : Repair.reduceStates l p m.states = some σ) :
    ∃ m', m.reduce l input p = .next m' ∧ m'.states = σ ∧ m'.position = m.position := by
  simp only [Repair.reduceStates] at h
  split at h
  · cases h
  · next s rest hdrop =>
    obtain ⟨next, hgoto, rfl⟩ := Option.map_eq_some_iff.mp h
    rw [states, ← List.map_drop] at hdrop
    obtain ⟨below, frames, hframes, rfl, rfl⟩ := List.map_eq_cons_iff.mp hdrop
    exact ⟨_, reduce_eq_next hframes hgoto, rfl, rfl⟩

/-- Where a walk goes on, so does the machine. -/
theorem exists_step_of_walk? (limits : Limits)
    (h : l.walk? input.terminal (m.states, m.position) = some c) :
    ∃ m', (∀ allowance, m.step l limits input allowance = some (.next m')) ∧
      (m'.states, m'.position) = c := by
  cases hstack : m.stack with
  | nil =>
    rw [states, hstack] at h
    cases h
  | cons top frames =>
    rw [states_of_stack hstack] at h
    simp only [Language.walk?] at h
    split at h
    · next s' hact =>
      cases h
      refine ⟨m.shift input s', fun allowance => by simp [step, hstack, hact], ?_⟩
      rw [← states_of_stack hstack]
      rfl
    · next p hact =>
      obtain ⟨stack, hreduce, rfl⟩ := Option.map_eq_some_iff.mp h
      rw [← states_of_stack hstack] at hreduce
      obtain ⟨m', hm', rfl, hposition⟩ := exists_reduce_of_reduceStates input hreduce
      refine ⟨m', fun allowance => by simp [step, hstack, hact, hm'], ?_⟩
      rw [hposition]
    · cases h

/-- An endless walk is an endless run. -/
theorem run_eq_none_of_walks (n : Nat)
    (h : ∀ k, ∃ c, l.walks input.terminal k (m.states, m.position) = some c) :
    m.run l limits input n = none := by
  induction n generalizing m with
  | zero => rfl
  | succ n ih =>
    obtain ⟨c, hc⟩ := h 1
    obtain ⟨b, hb, -⟩ := Option.bind_eq_some_iff.mp hc
    obtain ⟨m', hstep, rfl⟩ := exists_step_of_walk? limits hb
    rw [run, hstep]
    refine ih fun k => ?_
    obtain ⟨c', hc'⟩ := h (k + 1)
    rw [Language.walks, hb] at hc'
    exact ⟨c', hc'⟩

end Machine

/-! ## Productions of one symbol -/

namespace Grammar

open FourGL.Language

variable {g : Grammar} {s s' s'' : StateId} {σ : List StateId} {x : Symbol} {p : ProductionId}
  {i : Item} {f : Nat → TerminalId} {position : Nat}

/-- Every right-hand side is a single symbol. -/
def IsUnary (g : Grammar) : Prop :=
  ∀ p < g.productions.size, (g.production p).right.length = 1

/-- Behind a symbol, the complete items are those of the productions that consist of it. -/
theorem IsUnary.right_of_complete (h : g.IsUnary) (wf : g.WellFormed)
    (hgoto : g.goto? s x = some s') (hi : i ∈ g.itemsOf s') (hrest : g.rest i = []) :
    (g.production i.production).right = [x] := by
  have hlength := h i.production (wf.proper_itemsOf hi).1
  rcases mem_itemsOf_iff.mp hi with hkernel | ⟨p, -, -, rfl⟩
  · obtain ⟨j, hj, hx, rfl⟩ := (wf.mem_kernelOf_goto hgoto).mp hkernel
    change (g.production j.production).right.length = 1 at hlength
    have hdot : j.dot = 0 := by
      have := dot_lt_length hx
      omega
    have hright : g.rest j = [x] := by
      rw [rest_eq_cons (by rw [hdot]; decide) hx, hrest]
    rwa [rest, hdot, List.drop_zero] at hright
  · rw [rest_initial] at hrest
    rw [show (Item.initial p).production = p from rfl, hrest] at hlength
    cases hlength

/-- The production is the first one that consists of the symbol, and is not that of the start symbol.
-/
structure IsFirstOf (g : Grammar) (x : Symbol) (p : ProductionId) : Prop where
  ne_start : p ≠ startProduction
  lt : p < g.productions.size
  right : (g.production p).right = [x]
  least : ∀ q < g.productions.size, (g.production q).right = [x] → p ≤ q

/-- Before the end of input, the parser reduces by the first production that consists of the symbol
it has read last, if there are complete items of such productions only. -/
theorem IsFirstOf.action?_eq (h : g.IsFirstOf x p) (wf : g.WellFormed)
    (hcomplete : ∀ i ∈ g.itemsOf s', g.rest i = [] → (g.production i.production).right = [x])
    (hlook : g.LooksAhead s' ⟨p, 1⟩ Vocabulary.endOfInput) :
    (Automaton.ofGrammar g).action? s' Vocabulary.endOfInput = some (.reduce p) := by
  have hrest : g.rest ⟨p, 1⟩ = [] := by rw [rest, h.right]; rfl
  refine wf.action?_of_least (.reduce hlook hrest h.ne_start) fun b hb => ?_
  cases hb with
  | shift hi hx hs => exact absurd rfl (wf.ne_endOfInput_of_shift (.shift hi hx hs)).1
  | reduce hlook hrest _ =>
    have hq := hcomplete _ hlook.mem hrest
    exact Nat.add_le_add_right (h.least _ (wf.proper_itemsOf hlook.mem).1 hq) 2
  | @accept i hlook hrest hproduction =>
    have hq := hcomplete _ hlook.mem hrest
    have hle := h.least _ (wf.proper_itemsOf hlook.mem).1 hq
    rw [hproduction] at hle
    exact absurd (Nat.le_zero.mp hle) h.ne_start

theorem IsFirstOf.walk?_reduce (h : g.IsFirstOf x p) (wf : g.WellFormed) (hunary : g.IsUnary)
    (hgoto : g.goto? s x = some s') (hlook : g.LooksAhead s' ⟨p, 1⟩ Vocabulary.endOfInput)
    (hnext : g.goto? s (.nonterminal (g.production p).left) = some s'')
    (hend : f position = Vocabulary.endOfInput) :
    walk? (.ofGrammar g) f (s' :: s :: σ, position) = some (s'' :: s :: σ, position) := by
  have hact := h.action?_eq wf (fun i => hunary.right_of_complete wf hgoto) hlook
  have hreduce : Repair.reduceStates (.ofGrammar g) p (s' :: s :: σ) = some (s'' :: s :: σ) := by
    simp only [Repair.reduceStates, Language.ofGrammar, h.right, List.length_singleton,
      List.drop_succ_cons, List.drop_zero, goto?_ofGrammar, hnext, Option.map_some]
  simp only [walk?, hend]
  rw [show (Language.ofGrammar g).automaton = Automaton.ofGrammar g from rfl, hact]
  simp only [hreduce, Option.map_some]

/-- A nonterminal that stands for itself, where that is preferred, leads to a walk without end. -/
theorem IsUnary.exists_walks (hunary : g.IsUnary) (wf : g.WellFormed) {t : TerminalId}
    {q : ProductionId} (hlook : g.LooksAhead Automaton.start (.initial p) Vocabulary.endOfInput)
    (hself : g.IsFirstOf (.nonterminal (g.production p).left) p) (hsign : g.IsFirstOf (.terminal t) q)
    (hleft : (g.production q).left = (g.production p).left)
    (hfirst : f 0 = t) (hend : f 1 = Vocabulary.endOfInput) (k : Nat) :
    ∃ c, walks (.ofGrammar g) f k ([Automaton.start], 0) = some c := by
  have hlook' : g.LooksAhead Automaton.start (.initial q) Vocabulary.endOfInput :=
    wf.looksAhead_close hlook (by rw [rest_initial, hself.right]) hsign.lt hleft .nil
  have hnext : g.nextSymbol? (.initial p) = some (.nonterminal (g.production p).left) := by
    rw [nextSymbol?_initial, hself.right, List.head?_cons]
  have hnext' : g.nextSymbol? (.initial q) = some (.terminal t) := by
    rw [nextSymbol?_initial, hsign.right, List.head?_cons]
  obtain ⟨s, hs⟩ := wf.exists_goto hlook.mem hnext
  obtain ⟨s', hs'⟩ := wf.exists_goto hlook'.mem hnext'
  -- The terminal is read, then reduced to the nonterminal, and that to itself.
  have hshift : walk? (.ofGrammar g) f ([Automaton.start], 0) = some ([s', Automaton.start], 1) := by
    have hact := wf.action?_shift hlook'.mem hnext' hs'
    simp only [walk?, hfirst]
    rw [show (Language.ofGrammar g).automaton = Automaton.ofGrammar g from rfl, hact]
  have hreduce : walk? (.ofGrammar g) f ([s', Automaton.start], 1) =
      some ([s, Automaton.start], 1) :=
    hsign.walk?_reduce wf hunary hs' (wf.looksAhead_advance hlook' hnext' hs') (by rwa [hleft]) hend
  have hagain : walk? (.ofGrammar g) f ([s, Automaton.start], 1) = some ([s, Automaton.start], 1) :=
    hself.walk?_reduce wf hunary hs (wf.looksAhead_advance hlook hnext hs) hs hend
  have htwo : walks (.ofGrammar g) f 2 ([Automaton.start], 0) = some ([s, Automaton.start], 1) := by
    simp only [walks, hshift, hreduce, Option.bind_some]
  have hone : walks (.ofGrammar g) f (0 + 1) ([s, Automaton.start], 1) =
      some ([s, Automaton.start], 1) := by
    simp only [walks, hagain, Option.bind_some]
  exact exists_walks_of_loop htwo hone k

end Grammar

/-! ## A nonterminal that stands for itself -/

/-- The grammar of the plus sign, with a nonterminal that may also stand for itself. -/
def loopSteps : List DeclarationStep :=
  [.transient "a" (.alt [.ref "a", .symbol "+"]), .rule "s" (.ref "a"), .root "s"]

/-- The productions of that grammar. -/
def loopProductions : List Production :=
  [⟨0, [.nonterminal 2], .accept⟩, ⟨1, [.nonterminal 1], .unwrap⟩, ⟨1, [.terminal 2], .unwrap⟩,
    ⟨2, [.nonterminal 1], .node "s"⟩]

theorem exists_build_loop : ∃ g : Grammar, (Declarations.ofSteps "loop" loopSteps).build = .ok g ∧
    g.productions.toList = loopProductions ∧ (g.inputOf "+").terminal 0 = 2 ∧
      (g.inputOf "+").terminal 1 = Vocabulary.endOfInput := by
  have hassemble : ((Declarations.ofSteps "loop" loopSteps).assemble.toOption.any fun g =>
      g.nonterminals.size == 3 && g.productions.toList == loopProductions &&
        (g.inputOf "+").terminal 0 == 2 && (g.inputOf "+").terminal 1 == Vocabulary.endOfInput) =
      true := by cbv
  cases hg : (Declarations.ofSteps "loop" loopSteps).assemble with
  | error e =>
    rw [hg] at hassemble
    cases hassemble
  | ok g =>
    rw [hg] at hassemble
    simp only [Except.toOption, Option.any_some, Bool.and_eq_true, beq_iff_eq] at hassemble
    obtain ⟨⟨⟨hsize, hproductions⟩, hplus⟩, hend⟩ := hassemble
    have hcheck : checkNonterminals g.nonterminals g.productions.toList = .ok () := by
      refine checkNonterminals_eq_ok ?_ ?_ <;> rw [hsize, hproductions] <;> decide +kernel
    exact ⟨g, Declarations.build_eq_ok hg hcheck, hproductions, hplus, hend⟩

/-- **An endless run.** Behind the plus sign the parser reduces the nonterminal to itself for ever. -/
theorem endless_loop : ∃ g : Grammar, g.IsBuilt ∧ ∀ limits n,
    (Language.ofGrammar g).parseWithin n limits "+" = none := by
  obtain ⟨g, hbuild, hproductions, hplus, hend⟩ := exists_build_loop
  have hbuilt : g.IsBuilt := ⟨"loop", loopSteps, hbuild⟩
  have wf := Grammar.wellFormed_of_isBuilt hbuilt
  have hproduction : ∀ p, g.production p = loopProductions.getD p default := fun p => by
    rw [Grammar.production, Array.getD_eq_getD_getElem?, ← Array.getElem?_toList, hproductions,
      List.getD_eq_getElem?_getD]
  have hsize : g.productions.size = 4 := by
    rw [← Array.length_toList, hproductions]
    rfl
  have hunary : g.IsUnary := by
    simp only [Grammar.IsUnary, hproduction, hsize]
    decide
  have hself : g.IsFirstOf (.nonterminal (g.production 1).left) 1 := by
    refine ⟨by decide, ?_, ?_, ?_⟩ <;> simp only [hproduction, hsize] <;> decide
  have hsign : g.IsFirstOf (.terminal 2) 2 := by
    refine ⟨by decide, ?_, ?_, ?_⟩ <;> simp only [hproduction, hsize] <;> decide
  have hroot : g.LooksAhead Automaton.start (.initial 3) Vocabulary.endOfInput := by
    refine wf.looksAhead_close wf.looksAhead_start (n := 2) ?_ (by simp only [hsize]; decide) ?_ .nil
    all_goals simp only [Grammar.rest_initial, hproduction]; rfl
  have hlook : g.LooksAhead Automaton.start (.initial 1) Vocabulary.endOfInput := by
    refine wf.looksAhead_close hroot (n := 1) ?_ (by simp only [hsize]; decide) ?_ .nil
    all_goals simp only [Grammar.rest_initial, hproduction]; rfl
  have hleft : (g.production 2).left = (g.production 1).left := by
    rw [hproduction, hproduction]
    rfl
  refine ⟨g, hbuilt, fun limits n => Option.map_eq_none_iff.mpr ?_⟩
  exact Machine.run_eq_none_of_walks n (hunary.exists_walks wf hlook hself hsign hleft hplus hend)

end FourGL
