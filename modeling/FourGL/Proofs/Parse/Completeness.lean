import FourGL.Proofs.Parse.Soundness

/-!
# Completeness of the parsing machine

Without trees and without errors, a parse is a walk of the automaton: a stack of states and a
position, where every step shifts or reduces as the tables say. A walk is determined by the
terminals it reads, one beyond its position.

Where the tables of a grammar have no conflict, what an item asks for is what happens. So a walk
follows every derivation: it takes one step for each terminal and one for each production. The grammar
is to be narrow, for no item comes to the end of a right-hand side that is too long for its positions.

**Theorem (`walks_of_yields`).** From a state with a valid item, a walk reads any text of the
symbols next in it, in as many steps as the text is derived in, provided that a lookahead comes
behind.

**Theorem (`walks_of_path`).** A walk leads along every path, by any derivation of its symbols.
-/

namespace FourGL

/-! ## Texts at a position -/

/-- The terminals from a position on begin with the word. -/
def Spells (f : Nat → TerminalId) : Nat → List TerminalId → Prop
  | _, [] => True
  | position, t :: w => f position = t ∧ Spells f (position + 1) w

theorem spells_append {f : Nat → TerminalId} {u w : List TerminalId} {position : Nat} :
    Spells f position (u ++ w) ↔ Spells f position u ∧ Spells f (position + u.length) w := by
  induction u generalizing position with
  | nil => simp [Spells]
  | cons t u ih =>
    rw [List.cons_append, Spells, Spells, ih, List.length_cons, Nat.add_right_comm,
      Nat.add_assoc position, and_assoc]

/-- The first terminal behind a word that has one. -/
theorem Spells.next {f : Nat → TerminalId} {u w v : List TerminalId} {t : TerminalId}
    {position : Nat} (h : Spells f position ((u ++ w) ++ [v.headD t])) :
    Spells f position (u ++ [(w ++ v).headD t]) := by
  rw [List.append_assoc, spells_append] at h
  refine spells_append.mpr ⟨h.1, ?_⟩
  cases w with
  | nil => exact h.2
  | cons t' w => exact ⟨h.2.1, trivial⟩

/-! ## Walks -/

/-- A stack of states, top first, and a position. -/
abbrev Footing := List StateId × Nat

namespace Language

/-- The next step of a walk over the terminals at all positions, where it is to shift or to reduce.
-/
def walk? (l : Language) (f : Nat → TerminalId) : Footing → Option Footing
  | ([], _) => none
  | (s :: σ, position) =>
    match l.automaton.action? s (f position) with
    | some (.shift s') => some (s' :: s :: σ, position + 1)
    | some (.reduce p) => (Repair.reduceStates l p (s :: σ)).map (·, position)
    | _ => none

/-- A number of steps of a walk, if it goes that far. -/
def walks (l : Language) (f : Nat → TerminalId) : Nat → Footing → Option Footing
  | 0, c => some c
  | n + 1, c => (l.walk? f c).bind (l.walks f n)

variable {l : Language} {f : Nat → TerminalId} {c c' : Footing} {m n : Nat}

theorem walks_add : l.walks f (m + n) c = (l.walks f m c).bind (l.walks f n) := by
  induction m generalizing c with
  | zero => simp [walks]
  | succ m ih =>
    rw [Nat.succ_add, walks, walks]
    cases l.walk? f c with
    | none => rfl
    | some b => exact ih

theorem walks_trans {c'' : Footing} (h : l.walks f m c = some c') (h' : l.walks f n c' = some c'') :
    l.walks f (m + n) c = some c'' := by
  rw [walks_add, h]
  exact h'

end Language

/-! ## Following derivations -/

namespace Grammar

open FourGL.Language

variable {g : Grammar} {automaton : Automaton} {f : Nat → TerminalId} {s s' : StateId}
  {σ : List StateId} {γ β δ : List Symbol} {i : Item} {t : TerminalId} {w v : List TerminalId}
  {n k position : Nat} {p : ProductionId}

/-- A complete item that is valid with the terminal at hand is reduced. -/
theorem WellFormed.walk_reduce (wf : g.WellFormed)
    (hstrict : Automaton.ofGrammarStrict g = .ok automaton) {σ' : List StateId}
    (hvalid : g.Valid (s :: σ) γ i t) (hrest : g.rest i = []) (hne : i.production ≠ startProduction)
    (hdrop : (s :: σ).drop (g.production i.production).right.length = s' :: σ')
    {next : StateId} (hgoto : g.goto? s' (.nonterminal (g.production i.production).left) = some next)
    (hnext : f position = t) :
    walk? ⟨g, automaton⟩ f (s :: σ, position) = some (next :: s' :: σ', position) := by
  have hlook := wf.looksAhead_of_valid hvalid
  have hact := wf.action?_of_asks hstrict (.reduce hlook hrest hne)
  obtain ⟨rfl, -⟩ := ofGrammarStrict_ok hstrict
  have hgoto' : (Automaton.ofGrammar g).goto? s' (g.production i.production).left = some next :=
    hgoto
  simp [walk?, hnext, hact, Repair.reduceStates, hdrop, hgoto']

/-- A terminal next in an item is shifted. -/
theorem WellFormed.walk_shift (wf : g.WellFormed)
    (hstrict : Automaton.ofGrammarStrict g = .ok automaton) (hi : i ∈ g.itemsOf s)
    (hx : g.nextSymbol? i = some (.terminal t)) (hgoto : g.goto? s (.terminal t) = some s')
    (hnext : f position = t) :
    walk? ⟨g, automaton⟩ f (s :: σ, position) = some (s' :: s :: σ, position + 1) := by
  have hact := wf.action?_of_asks hstrict (.shift hi hx hgoto)
  simp [walk?, hnext, hact]

/-- **Walks follow derivations.** -/
theorem WellFormed.walks_of_yields (wf : g.WellFormed) (hnarrow : g.Narrow)
    (hstrict : Automaton.ofGrammarStrict g = .ok automaton) (hy : g.Yields β w n)
    (hvalid : g.Valid (s :: σ) γ i t) (hrest : g.rest i = β ++ δ) (hv : g.Yields δ v k)
    (hspells : Spells f position (w ++ [v.headD t])) :
    ∃ top σ', walks ⟨g, automaton⟩ f n (s :: σ, position) = some (top :: σ', position + w.length) ∧
      g.Valid (top :: σ') (β.reverse ++ γ) ⟨i.production, i.dot + β.length⟩ t ∧
      (top :: σ').drop β.length = s :: σ := by
  induction hy generalizing s σ γ i t δ v k position with
  | nil => exact ⟨s, σ, rfl, hvalid, rfl⟩
  | @terminal u β w n _ ih =>
    have hx : g.nextSymbol? i = some (.terminal u) := nextSymbol?_of_rest hrest
    have hmem := (wf.looksAhead_of_valid hvalid).mem
    have hdot := hnarrow.dot_lt (wf.proper_itemsOf hmem) hx
    obtain ⟨s', hgoto⟩ := wf.exists_goto hmem hx
    have hwalk := wf.walk_shift (σ := σ) hstrict hmem hx hgoto hspells.1
    obtain ⟨top, σ', hwalks, hvalid', hdrop⟩ :=
      ih (.advance hvalid hx hgoto) (rest_advance hdot hrest) hv hspells.2
    rw [Item.advance_of_lt hdot] at hvalid'
    refine ⟨top, σ', ?_, ?_, ?_⟩
    · rw [walks, hwalk, Option.bind_some, hwalks, List.length_cons, Nat.add_right_comm,
        Nat.add_assoc]
    · rw [List.reverse_cons, List.append_assoc, List.length_cons, ← Nat.add_assoc,
        Nat.add_right_comm]
      exact hvalid'
    · rw [List.length_cons, ← List.drop_drop, hdrop]
      rfl
  | @nonterminal p l β u w m n hp hl _ hβ ihr ihβ =>
    have hx : g.nextSymbol? i = some (.nonterminal l) := nextSymbol?_of_rest hrest
    have hmem := (wf.looksAhead_of_valid hvalid).mem
    have hdot := hnarrow.dot_lt (wf.proper_itemsOf hmem) hx
    obtain ⟨s', hgoto⟩ := wf.exists_goto hmem hx
    -- First the production is read, from its start to its end.
    have hclose : g.Valid (s :: σ) γ (.initial p) ((w ++ v).headD t) :=
      .close hvalid hrest hp hl (hβ.append hv)
    have hnext := hspells.next
    obtain ⟨top, σ', hwalks, hvalid', hdrop⟩ :=
      ihr (i := .initial p) (δ := []) (v := []) hclose (by rw [rest_initial, List.append_nil]) .nil
        hnext
    -- Then it is reduced, and a symbol is read.
    have hcomplete : g.rest ⟨p, 0 + (g.production p).right.length⟩ = [] := by
      rw [Nat.zero_add]
      exact List.drop_length
    have hne : p ≠ startProduction := by
      rintro rfl
      rw [wf.left_start] at hl
      exact wf.next_ne_start hmem (hl ▸ hx)
    have hafter : f (position + u.length) = (w ++ v).headD t := (spells_append.mp hnext).2.1
    have hwalk := wf.walk_reduce hstrict hvalid' hcomplete hne hdrop (hl.symm ▸ hgoto) hafter
    -- Then what follows the nonterminal is read.
    rw [List.append_assoc, spells_append] at hspells
    obtain ⟨top', σ'', hwalks', hvalid'', hdrop'⟩ :=
      ihβ (.advance hvalid hx hgoto) (rest_advance hdot hrest) hv hspells.2
    rw [Item.advance_of_lt hdot] at hvalid''
    refine ⟨top', σ'', ?_, ?_, ?_⟩
    · have hwalks₁ : walks ⟨g, automaton⟩ f (1 + n) (top :: σ', position + u.length) =
          some (top' :: σ'', position + u.length + w.length) := by
        rw [Nat.add_comm, walks, hwalk]
        exact hwalks'
      rw [show m + n + 1 = m + (1 + n) by omega, walks_trans hwalks hwalks₁, List.length_append,
        Nat.add_assoc]
    · rw [List.reverse_cons, List.append_assoc, List.length_cons, ← Nat.add_assoc,
        Nat.add_right_comm]
      exact hvalid''
    · rw [List.length_cons, ← List.drop_drop, hdrop']
      rfl

/-- **Walks lead along every path.** -/
theorem WellFormed.walks_of_path (wf : g.WellFormed) (hnarrow : g.Narrow)
    (hstrict : Automaton.ofGrammarStrict g = .ok automaton) (hvalid : g.Valid σ γ i t)
    (hy : g.Yields γ.reverse w n) (hv : g.Yields (g.rest i) v k)
    (hspells : Spells f 0 (w ++ [v.headD t])) :
    walks ⟨g, automaton⟩ f n ([Automaton.start], 0) = some (σ, w.length) := by
  induction hvalid generalizing w n v k with
  | start =>
    obtain ⟨rfl, rfl⟩ := hy.eq_nil
    rfl
  | @advance s s' σ γ i t x hvalid hx hgoto ih =>
    rw [List.reverse_cons] at hy
    obtain ⟨u, u', m, n, rfl, rfl, hu, hu'⟩ := hy.split
    have hrest := rest_eq_cons (hnarrow.dot_lt (hvalid.proper wf) hx) hx
    have hv' : g.Yields (g.rest i) (u' ++ v) (n + k) := by
      rw [hrest]
      exact hu'.append hv
    have hwalks := ih hu hv' hspells.next
    rw [List.append_assoc, spells_append, Nat.zero_add] at hspells
    obtain ⟨top, σ', hwalks', hvalid', hdrop⟩ :=
      wf.walks_of_yields hnarrow hstrict hu' hvalid (by rw [hrest]; rfl) hv hspells.2
    obtain rfl : σ' = s :: σ := hdrop
    have htop : top = s' := by
      have hpath : g.Path (top :: s :: σ) (x :: γ) := hvalid'.path
      cases hpath with
      | step _ hgoto' => exact Option.some.inj (hgoto'.symm.trans hgoto)
    rw [walks_trans hwalks hwalks', List.length_append, htop]
  | @close σ γ i t l δ p v' k' _ hrest hp hl hδ ih =>
    rw [rest_initial] at hv
    have hv' : g.Yields (g.rest i) (v ++ v') (k + k' + 1) := by
      rw [hrest]
      exact .nonterminal hp hl hv hδ
    refine ih hy hv' ?_
    have hhead : (v ++ v').headD t = v.headD (v'.headD t) := by cases v <;> rfl
    rwa [hhead]

/-- On a path there is a valid item, and what is left of it has some text. -/
theorem WellFormed.exists_valid_of_path (wf : g.WellFormed) (h : g.Path σ γ) :
    ∃ i t v k, g.Valid σ γ i t ∧ g.Yields (g.rest i) v k := by
  obtain ⟨s, τ, rfl, i, hi⟩ : ∃ s τ, σ = s :: τ ∧ ∃ i, i ∈ g.itemsOf s := by
    cases h with
    | start => exact ⟨_, _, rfl, _, wf.first_mem_itemsOf⟩
    | step _ hgoto =>
      obtain ⟨i, hi⟩ := List.exists_mem_of_ne_nil _ (wf.kernelOf_goto_ne_nil hgoto)
      exact ⟨_, _, rfl, i, kernelOf_subset_itemsOf hi⟩
  obtain ⟨t, hvalid⟩ := wf.exists_valid h hi
  obtain ⟨v, k, hv⟩ := wf.exists_yields (wf.usable_of_rest (wf.proper_itemsOf hi))
  exact ⟨i, t, v, k, hvalid, hv⟩

/-- A valid item and what is read complete each other to a sentence. -/
theorem Valid.exists_sentence (h : g.Valid σ γ i t) (wf : g.WellFormed) (hnarrow : g.Narrow)
    (hy : g.Yields γ.reverse w n) (hv : g.Yields (g.rest i) v k) :
    ∃ z, g.Sentence (w ++ v ++ z) ∧ z.headD Vocabulary.endOfInput = t := by
  induction h generalizing w n v k with
  | start =>
    obtain ⟨rfl, -⟩ := hy.eq_nil
    rw [rest_initial, wf.right_start] at hv
    exact ⟨[], by simpa using sentence_iff_yields.mpr ⟨k, hv⟩, rfl⟩
  | @advance s s' σ γ i t x hvalid hx _ ih =>
    rw [List.reverse_cons] at hy
    obtain ⟨u, u', m, n, rfl, rfl, hu, hu'⟩ := hy.split
    have hv' : g.Yields (g.rest i) (u' ++ v) (n + k) := by
      rw [rest_eq_cons (hnarrow.dot_lt (hvalid.proper wf) hx) hx]
      exact hu'.append hv
    obtain ⟨z, hz, hhead⟩ := ih hu hv'
    exact ⟨z, by simpa using hz, hhead⟩
  | @close σ γ i t l δ p v' k' _ hrest hp hl hδ ih =>
    rw [rest_initial] at hv
    have hv' : g.Yields (g.rest i) (v ++ v') (k + k' + 1) := by
      rw [hrest]
      exact .nonterminal hp hl hv hδ
    obtain ⟨z, hz, rfl⟩ := ih hy hv'
    refine ⟨v' ++ z, by simpa using hz, ?_⟩
    cases v' <;> rfl

/-- **Sentences are accepted.** The walk of a sentence comes to a state that accepts. -/
theorem WellFormed.walks_of_sentence (wf : g.WellFormed) (hnarrow : g.Narrow)
    (hstrict : Automaton.ofGrammarStrict g = .ok automaton)
    (hy : g.Yields [.nonterminal g.root] w n) (hspells : Spells f 0 (w ++ [Vocabulary.endOfInput])) :
    ∃ s σ, walks ⟨g, automaton⟩ f n ([Automaton.start], 0) = some (s :: σ, w.length) ∧
      automaton.action? s Vocabulary.endOfInput = some .accept := by
  obtain ⟨s, σ, hwalks, hvalid, -⟩ :=
    wf.walks_of_yields hnarrow hstrict hy .start (by rw [wf.rest_first]; rfl) .nil hspells
  rw [Nat.zero_add] at hwalks
  refine ⟨s, σ, hwalks, wf.action?_of_asks hstrict ?_⟩
  refine .accept (wf.looksAhead_of_valid hvalid) ?_ rfl
  show (g.production startProduction).right.drop (0 + 1) = []
  rw [wf.right_start]
  rfl

end Grammar

end FourGL
