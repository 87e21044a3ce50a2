import FourGL.Proofs.Automaton.ItemLoop
import FourGL.Proofs.Automaton.Lookahead

/-!
# What the exploration finds

The sets of items that a parser can be in start from the first item. The *closure* of a set adds, with
an item before a nonterminal, the productions of the nonterminal; and a symbol leads to the items of
the closure that are past it then.

**Theorem (`states_explored`).** The exploration ends. Its states are the sets that can be reached in
this way, each under one number, and its transitions lead from set to set. Kernels and rows are in
strict order, so that a search by halves finds what they hold.

**Search by halves** (`seek?`). A search that goes on in the upper half unless that begins behind what
is looked for never leaves the place of an entry, as long as the entries are in order. In rows and
kernels each key has one place, so the search and the plain lookup agree.
-/

namespace FourGL

open Std

/-! ## Search by halves -/

/-- The place where a search ends that has `size` places from `base` on to go through. It goes on in the
upper half, unless that begins behind what is looked for. -/
def bisect (order : Nat → Ordering) (base size : Nat) : Nat :=
  if size ≤ 1 then base
  else bisect order (if order (base + size / 2) = .gt then base else base + size / 2)
    (size - size / 2)
termination_by size
decreasing_by omega

section Search

variable {α β : Type} [Ord β] {key : α → β} {b : β} {xs : List α} {k : Nat}

/-- How the key at a place lies to the one looked for. There is nothing but what lies behind it past the
end of the list. -/
def orderAt (key : α → β) (b : β) (xs : List α) (place : Nat) : Ordering :=
  (xs[place]?).elim .gt fun a => compare (key a) b

/-- The place of the entry with the key, as a search by halves finds it. -/
def seek? (key : α → β) (b : β) (xs : List α) : Option Nat :=
  let place := bisect (orderAt key b xs) 0 xs.length
  if orderAt key b xs place = .eq then some place else none

/-- The search ends at the last place that does not lie behind what is looked for. -/
theorem bisect_eq {order : Nat → Ordering} {base size : Nat}
    (hupto : ∀ j ≤ k, order j ≠ .gt) (hbehind : ∀ j, k < j → order j = .gt)
    (hbase : base ≤ k) (hk : k < base + size) : bisect order base size = k := by
  induction size using Nat.strong_induction_on generalizing base with
  | _ size ih =>
    rw [bisect]
    split
    · omega
    · next hsize =>
      by_cases hmiddle : order (base + size / 2) = .gt
      · have hlt : k < base + size / 2 := Nat.lt_of_not_le fun hle => hupto _ hle hmiddle
        rw [if_pos hmiddle]
        exact ih _ (by omega) hbase (by omega)
      · have hle : base + size / 2 ≤ k := Nat.le_of_not_lt fun hlt => hmiddle (hbehind _ hlt)
        rw [if_neg hmiddle]
        exact ih _ (by omega) hle (by omega)

/-- **Search by halves.** In a list whose keys are in strict order, the search finds the place of a key
if it has one. -/
theorem seek?_eq_some_iff [TransOrd β] [LawfulEqOrd β]
    (h : xs.Pairwise fun a c => compare (key a) (key c) = .lt) :
    seek? key b xs = some k ↔ ∃ a, xs[k]? = some a ∧ key a = b := by
  rw [List.pairwise_iff_getElem] at h
  constructor
  · intro hk
    simp only [seek?] at hk
    split at hk
    · next horder =>
      cases hk
      cases ha : xs[bisect (orderAt key b xs) 0 xs.length]? with
      | none => simp [orderAt, ha] at horder
      | some a =>
        simp only [orderAt, ha, Option.elim_some] at horder
        exact ⟨a, rfl, LawfulEqOrd.eq_of_compare horder⟩
    · cases hk
  · rintro ⟨a, ha, rfl⟩
    obtain ⟨hlt, rfl⟩ := List.getElem?_eq_some_iff.mp ha
    have hself : orderAt key (key xs[k]) xs k = .eq := by
      rw [orderAt, ha]
      exact ReflOrd.compare_self
    have hupto : ∀ j ≤ k, orderAt key (key xs[k]) xs j ≠ .gt := by
      intro j hj
      rcases Nat.lt_or_eq_of_le hj with hj | rfl
      · rw [orderAt, List.getElem?_eq_getElem (hj.trans hlt), Option.elim_some, h j k _ hlt hj]
        decide
      · rw [hself]
        decide
    have hbehind : ∀ j, k < j → orderAt key (key xs[k]) xs j = .gt := by
      intro j hj
      by_cases hend : j < xs.length
      · rw [orderAt, List.getElem?_eq_getElem hend, Option.elim_some]
        exact OrientedCmp.gt_of_lt (h k j hlt hend hj)
      · rw [orderAt, List.getElem?_eq_none (Nat.le_of_not_lt hend)]
        rfl
    have hplace : bisect (orderAt key (key xs[k]) xs) 0 xs.length = k :=
      bisect_eq hupto hbehind (Nat.zero_le k) (by omega)
    rw [seek?, hplace]
    exact if_pos hself

end Search

/-! ## Sets of items -/

namespace Grammar

variable {g : Grammar} {s t : StateId} {x : Symbol} {i : Item} {K : Set Item}

/-- The items past a symbol, after it was read. -/
def itemsPast (g : Grammar) (K : Set Item) (x : Symbol) : Set Item :=
  {i | ∃ j, g.ItemClosure K j ∧ g.nextSymbol? j = some x ∧ i = j.advance}

/-- The set can be reached from the first item. -/
inductive ReachableItems (g : Grammar) : Set Item → Prop
  | first : ReachableItems g {.initial startProduction}
  | past {K : Set Item} {x : Symbol} : ReachableItems g K → (g.itemsPast K x).Nonempty →
      ReachableItems g (g.itemsPast K x)

/-- The transitions of a state. -/
def rowOf (g : Grammar) (s : StateId) : List (Symbol × StateId) := g.collection.rows.getD s []

theorem WellFormed.kernelSet_start (wf : g.WellFormed) :
    g.kernelSet Automaton.start = {.initial startProduction} := by
  ext i
  simp [kernelSet, wf.kernelOf_start]

theorem WellFormed.start_lt_stateCount (wf : g.WellFormed) : Automaton.start < g.stateCount :=
  (Array.getElem?_eq_some_iff.mp wf.explored_collection.1.first).1

theorem WellFormed.kernelSet_injective (wf : g.WellFormed) (hs : s < g.stateCount)
    (ht : t < g.stateCount) (h : g.kernelSet s = g.kernelSet t) : s = t :=
  wf.eq_of_kernelOf hs ht fun i => Set.ext_iff.mp h i

theorem WellFormed.kernelSet_of_goto (wf : g.WellFormed) (h : g.goto? s x = some t) :
    g.kernelSet t = g.itemsPast (g.kernelSet s) x := by
  ext i
  refine (wf.mem_kernelOf_goto h).trans (exists_congr fun j => ?_)
  rw [wf.mem_itemsOf_iff_closure]

theorem WellFormed.nonempty_of_goto (wf : g.WellFormed) (h : g.goto? s x = some t) :
    (g.itemsPast (g.kernelSet s) x).Nonempty := by
  rw [← wf.kernelSet_of_goto h]
  exact List.exists_mem_of_ne_nil _ (wf.kernelOf_goto_ne_nil h)

/-- A symbol leads on from a state exactly if some item of the closure is before it. -/
theorem WellFormed.exists_goto_iff (wf : g.WellFormed) : (∃ t, g.goto? s x = some t) ↔
    ∃ i, g.ItemClosure (g.kernelSet s) i ∧ g.nextSymbol? i = some x := by
  constructor
  · rintro ⟨t, ht⟩
    obtain ⟨_, i, hi, hx, -⟩ := wf.nonempty_of_goto ht
    exact ⟨i, hi, hx⟩
  · rintro ⟨i, hi, hx⟩
    exact wf.exists_goto (wf.mem_itemsOf_iff_closure.mpr hi) hx

/-- Every state is reached: the first one at once, the others from an earlier one. -/
theorem WellFormed.reachable_kernelSet (wf : g.WellFormed) (hs : s < g.stateCount) :
    g.ReachableItems (g.kernelSet s) := by
  induction s using Nat.strong_induction_on with
  | _ s ih =>
    by_cases hzero : s = Automaton.start
    · rw [hzero, wf.kernelSet_start]
      exact .first
    · obtain ⟨r, hr, x, hx⟩ := wf.exists_source (Nat.pos_of_ne_zero hzero) hs
      rw [wf.kernelSet_of_goto hx]
      exact .past (ih r hr (wf.lt_of_goto? hx)) (wf.nonempty_of_goto hx)

/-- Every set that can be reached is that of a state. -/
theorem WellFormed.exists_state_of_reachable (wf : g.WellFormed) (h : g.ReachableItems K) :
    ∃ s < g.stateCount, g.kernelSet s = K := by
  induction h with
  | first => exact ⟨_, wf.start_lt_stateCount, wf.kernelSet_start⟩
  | past _ hne ih =>
    obtain ⟨s, -, rfl⟩ := ih
    obtain ⟨_, j, hj, hx, -⟩ := hne
    obtain ⟨t, ht⟩ := wf.exists_goto_iff.mpr ⟨j, hj, hx⟩
    exact ⟨t, (wf.successor_of_goto? ht).1, wf.kernelSet_of_goto ht⟩

/-! ## Order -/

theorem WellFormed.ordered_rowOf (wf : g.WellFormed) (s : StateId) :
    (g.rowOf s).Pairwise fun a b => compare a.1 b.1 = .lt := by
  by_cases hs : s < g.stateCount
  · have hsymbols := (gathered_successors g (g.itemsOf s)).symbols
    rw [← List.pairwise_map (R := fun a b : Symbol => compare a b = .lt)] at hsymbols ⊢
    rwa [rowOf, (wf.numbers_row hs).symbols]
  · rw [rowOf, wf.rows_of_le (Nat.le_of_not_lt hs)]
    exact .nil

theorem WellFormed.seek?_rowOf_iff (wf : g.WellFormed) {k : Nat} :
    seek? Prod.fst x (g.rowOf s) = some k ↔ ∃ t, (g.rowOf s)[k]? = some (x, t) := by
  rw [seek?_eq_some_iff (wf.ordered_rowOf s)]
  constructor
  · rintro ⟨⟨y, t⟩, ht, rfl⟩
    exact ⟨t, ht⟩
  · rintro ⟨t, ht⟩
    exact ⟨_, ht, rfl⟩

theorem WellFormed.seek?_kernelOf_iff (wf : g.WellFormed) {k : Nat} :
    seek? id i (g.kernelOf s) = some k ↔ (g.kernelOf s)[k]? = some i := by
  have hordered : (g.kernelOf s).Pairwise fun i j => compare (id i) (id j) = .lt :=
    wf.ordered_kernelOf s
  rw [seek?_eq_some_iff hordered]
  exact ⟨fun ⟨_, hi, heq⟩ => heq ▸ hi, fun h => ⟨i, h, rfl⟩⟩

/-- What is looked up in a row is what a search by halves finds there. -/
theorem WellFormed.goto?_eq_seek (wf : g.WellFormed) : g.goto? s x =
    ((seek? Prod.fst x (g.rowOf s)).bind fun k => (g.rowOf s)[k]?).map Prod.snd := by
  refine Option.ext fun t => wf.goto?_eq_some_iff.trans ?_
  simp only [Option.map_eq_some_iff, Option.bind_eq_some_iff, wf.seek?_rowOf_iff]
  constructor
  · intro hmem
    obtain ⟨k, hk⟩ := List.mem_iff_getElem?.mp hmem
    exact ⟨_, ⟨k, ⟨t, hk⟩, hk⟩, rfl⟩
  · rintro ⟨_, ⟨k, ⟨u, hu⟩, he⟩, rfl⟩
    rw [hu] at he
    cases he
    exact List.mem_of_getElem? hu

/-- The place of an item in a kernel is the one that a search by halves finds. -/
theorem WellFormed.idxOf?_eq_seek (wf : g.WellFormed) :
    (g.kernelOf s).idxOf? i = seek? id i (g.kernelOf s) := by
  refine Option.ext fun k => ⟨fun hk => wf.seek?_kernelOf_iff.mpr (getElem?_of_idxOf? hk), fun hk => ?_⟩
  obtain ⟨place, hplace⟩ := exists_idxOf? (List.mem_of_getElem? (wf.seek?_kernelOf_iff.mp hk))
  rw [wf.seek?_kernelOf_iff.mpr (getElem?_of_idxOf? hplace)] at hk
  rw [hplace, hk]

/-- The searches for the item past a symbol find it. -/
theorem WellFormed.exists_seek (wf : g.WellFormed) (hi : g.ItemClosure (g.kernelSet s) i)
    (hx : g.nextSymbol? i = some x) : ∃ k t l, seek? Prod.fst x (g.rowOf s) = some k ∧
      (g.rowOf s)[k]? = some (x, t) ∧ seek? id i.advance (g.kernelOf t) = some l ∧
      (g.kernelOf t)[l]? = some i.advance := by
  obtain ⟨t, ht⟩ := wf.exists_goto_iff.mpr ⟨i, hi, hx⟩
  obtain ⟨k, hk⟩ := List.mem_iff_getElem?.mp (wf.goto?_eq_some_iff.mp ht)
  have hmem : i.advance ∈ g.kernelOf t :=
    (wf.mem_kernelOf_goto ht).mpr ⟨i, wf.mem_itemsOf_iff_closure.mpr hi, hx, rfl⟩
  obtain ⟨l, hl⟩ := List.mem_iff_getElem?.mp hmem
  exact ⟨k, t, l, wf.seek?_rowOf_iff.mpr ⟨t, hk⟩, hk, wf.seek?_kernelOf_iff.mpr hl, hl⟩

theorem WellFormed.exists_gathering (wf : g.WellFormed) (s : StateId) :
    ∃ n c, ComesToEnd (Gathering.step? g) n (.ofKernel (g.kernelOf s)) c ∧
      c.items.Nodup ∧ (∀ i, i ∈ c.items ↔ g.ItemClosure (g.kernelSet s) i) ∧
      successors g c.items = successors g (g.itemsOf s) := by
  obtain ⟨n, c, hloop, -, hnodup, hitems⟩ :=
    Gathering.exists_gathered g (wf.nodup_kernelOf s)
  exact ⟨n, c, hloop, hnodup, hitems,
    successors_congr fun i => (hitems i).trans wf.mem_itemsOf_iff_closure.symm⟩

/-! ## The collection -/

/-- What the exploration of the states of a grammar finds. -/
structure StatesExplored (g : Grammar) : Prop where
  /-- It ends by itself, with a row for every state. -/
  ends : g.collection.isComplete = true
  first : g.collection.kernels[Automaton.start]? = some [.initial startProduction]
  /-- The states are sets that can be reached, -/
  reachable : ∀ s < g.stateCount, g.ReachableItems (g.kernelSet s)
  /-- and each of these is one state. -/
  once : ∀ K, g.ReachableItems K → ∃! s, s < g.stateCount ∧ g.kernelSet s = K
  /-- Kernels are in strict order. -/
  ordered : ∀ s, Kernel.Ordered (g.kernelOf s)
  closure : ∀ s i, i ∈ g.itemsOf s ↔ g.ItemClosure (g.kernelSet s) i
  /-- The loop over a list that grows from the kernel on ends with these items, each once, and with the
  successors that the row of the state numbers. -/
  gathers : ∀ s, ∃ n c, ComesToEnd (Gathering.step? g) n (.ofKernel (g.kernelOf s)) c ∧
    c.items.Nodup ∧ (∀ i, i ∈ c.items ↔ g.ItemClosure (g.kernelSet s) i) ∧
    successors g c.items = successors g (g.itemsOf s)
  /-- A row has the symbols that items of the closure are before, -/
  reads : ∀ s x, (∃ t, (x, t) ∈ g.rowOf s) ↔
    ∃ i, g.ItemClosure (g.kernelSet s) i ∧ g.nextSymbol? i = some x
  /-- each with the state of the items past it. -/
  leads : ∀ s x t, (x, t) ∈ g.rowOf s →
    t < g.stateCount ∧ g.kernelSet t = g.itemsPast (g.kernelSet s) x
  /-- Rows are in strict order. -/
  rows : ∀ s, (g.rowOf s).Pairwise fun a b => compare a.1 b.1 = .lt
  /-- A search in a row finds what the row holds, -/
  seeksRow : ∀ s x k, seek? Prod.fst x (g.rowOf s) = some k ↔ ∃ t, (g.rowOf s)[k]? = some (x, t)
  /-- and one in a kernel what the kernel holds. -/
  seeksKernel : ∀ s i k, seek? id i (g.kernelOf s) = some k ↔ (g.kernelOf s)[k]? = some i
  /-- The tables are built with what the searches find. -/
  lookups : ∀ s x i, g.goto? s x =
      ((seek? Prod.fst x (g.rowOf s)).bind fun k => (g.rowOf s)[k]?).map Prod.snd ∧
    (g.kernelOf s).idxOf? i = seek? id i (g.kernelOf s)
  /-- The item past a symbol is never missed. -/
  found : ∀ s i x, g.ItemClosure (g.kernelSet s) i → g.nextSymbol? i = some x →
    ∃ k t l, seek? Prod.fst x (g.rowOf s) = some k ∧ (g.rowOf s)[k]? = some (x, t) ∧
      seek? id i.advance (g.kernelOf t) = some l ∧ (g.kernelOf t)[l]? = some i.advance
  /-- Positions have the width of an index where right-hand sides have. -/
  positions : (∀ p < g.productions.size, (g.production p).right.length ≤ maxIndex) →
    ∀ s, ∀ i ∈ g.itemsOf s, ∀ x, g.nextSymbol? i = some x → i.dot + 1 ≤ maxIndex

end Grammar

open Grammar

/-- **The exploration is exact.** The states of a grammar are the sets of items that can be reached from
the first item, each once and in order, and its transitions are the steps between them. -/
theorem states_explored {g : Grammar} (hg : g.IsBuilt) : g.StatesExplored := by
  have wf := wellFormed_of_isBuilt hg
  constructor
  · rw [Collection.isComplete, wf.explored_collection.2]
    exact beq_self_eq_true _
  · exact wf.explored_collection.1.first
  · exact fun s hs => wf.reachable_kernelSet hs
  · intro K hK
    obtain ⟨s, hs, rfl⟩ := wf.exists_state_of_reachable hK
    exact ⟨s, ⟨hs, rfl⟩, fun t ht => wf.kernelSet_injective ht.1 hs ht.2⟩
  · exact wf.ordered_kernelOf
  · exact fun s i => wf.mem_itemsOf_iff_closure
  · exact wf.exists_gathering
  · intro s x
    rw [← wf.exists_goto_iff]
    exact exists_congr fun t => wf.goto?_eq_some_iff.symm
  · intro s x t ht
    have hgoto := wf.goto?_eq_some_iff.mpr ht
    exact ⟨(wf.successor_of_goto? hgoto).1, wf.kernelSet_of_goto hgoto⟩
  · exact wf.ordered_rowOf
  · exact fun s x k => wf.seek?_rowOf_iff
  · exact fun s i k => wf.seek?_kernelOf_iff
  · exact fun s x i => ⟨wf.goto?_eq_seek, wf.idxOf?_eq_seek⟩
  · exact fun s i x => wf.exists_seek
  · intro hlength s i hi x hx
    exact (dot_lt_length hx).trans_le (hlength _ (wf.proper_itemsOf hi).1)

/-- In the grammar of the plus sign, the root leads from the first state to the items past it. -/
theorem states_explored_plus : ∃ g : Grammar, g.IsBuilt ∧ ∃ k t,
    seek? Prod.fst (.nonterminal g.root) (g.rowOf Automaton.start) = some k ∧
      (g.rowOf Automaton.start)[k]? = some (.nonterminal g.root, t) ∧
      g.kernelSet t = g.itemsPast {.initial startProduction} (.nonterminal g.root) := by
  obtain ⟨g, hbuild⟩ := exists_build_plus
  have hg : g.IsBuilt := ⟨"signs", plusSteps, hbuild⟩
  have wf := wellFormed_of_isBuilt hg
  have hexplored := states_explored hg
  have hfirst : g.ItemClosure (g.kernelSet Automaton.start) (.initial startProduction) :=
    .kernel (by simp [wf.kernelSet_start])
  obtain ⟨k, t, -, hk, hget, -⟩ := hexplored.found _ _ _ hfirst wf.next_first
  refine ⟨g, hg, k, t, hk, hget, ?_⟩
  rw [← wf.kernelSet_start]
  exact (hexplored.leads _ _ _ (List.mem_of_getElem? hget)).2

end FourGL
