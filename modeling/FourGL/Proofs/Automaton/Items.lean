import FourGL.Proofs.Automaton.Collection
import FourGL.Proofs.Automaton.First

/-!
# The items of a state

A state holds its kernel and the productions of the nonterminals at the left edge of what some item
of the kernel reads next. That is the closure of the kernel: with an item before a nonterminal come
all productions of the nonterminal, and nothing else comes in.

**Theorem (`initial_mem_itemsOf`).** The items of a state are closed under the productions of the
nonterminals next in them.

**Theorem (`exists_started`).** Every item outside the kernel starts a production of a nonterminal
next in some item of the state.

A *path* is a stack of states, each led to from the one below, with the symbols between them.

**Theorem (`exists_prefix`).** On a path to a state that holds an item, the symbols on top are those
before the position of the item, and the state below them holds the item at its start.
-/

namespace FourGL

namespace Grammar

variable {g : Grammar} {s t : StateId} {x : Symbol} {i : Item} {m n : NonterminalId}
  {p : ProductionId}

/-! ## Left corners -/

/-- The flow whose solution is the left corners. -/
def cornerFlow (g : Grammar) : Flow where
  seeds := (Array.range g.nonterminals.size).map fun n => 1 <<< n
  edges := g.productions.filterMap fun p =>
    (p.right.head?.bind Symbol.nonterminal?).map (·, p.left)

theorem testBit_cornerFlow_seeds : (Levels.level g.cornerFlow.seeds n).testBit m = true ↔
    n < g.nonterminals.size ∧ m = n := by
  simp only [cornerFlow, Levels.level, Array.getD_eq_getD_getElem?, Array.getElem?_map]
  by_cases hn : n < g.nonterminals.size
  · simp [hn, Nat.one_shiftLeft, Nat.testBit_two_pow, eq_comm]
  · simp [hn]

theorem mem_cornerFlow_edges : (m, n) ∈ g.cornerFlow.edges ↔
    ∃ p < g.productions.size, (g.production p).left = n ∧
      (g.production p).right.head? = some (.nonterminal m) := by
  simp only [cornerFlow, Array.mem_filterMap, Option.map_eq_some_iff, Option.bind_eq_some_iff]
  constructor
  · rintro ⟨production, hmem, m', ⟨y, hy, hm⟩, heq⟩
    obtain ⟨rfl, rfl⟩ := Prod.mk.inj heq
    obtain ⟨p, hp, rfl⟩ := exists_production (Array.mem_toList_iff.mpr hmem)
    refine ⟨p, hp, rfl, ?_⟩
    cases y with
    | terminal t => cases hm
    | nonterminal m'' =>
      cases hm
      exact hy
  · rintro ⟨p, hp, rfl, hhead⟩
    refine ⟨g.production p, ?_, m, ⟨_, hhead, rfl⟩, rfl⟩
    rw [production_eq_getElem hp]
    exact Array.getElem_mem hp

theorem size_cornerFlow_seeds : g.cornerFlow.seeds.size = g.nonterminals.size := by
  simp [cornerFlow]

theorem fits_cornerFlow :
    Flow.Fits g.cornerFlow.seeds.size g.nonterminals.size g.cornerFlow.seeds := by
  refine ⟨rfl, fun n m h => ?_⟩
  obtain ⟨hn, rfl⟩ := testBit_cornerFlow_seeds.mp h
  exact hn

theorem testBit_leftCorners :
    ((leftCorners g).level n).testBit m = true ↔ g.cornerFlow.Holds n m := by
  show ((g.cornerFlow.solve g.nonterminals.size).level n).testBit m = true ↔ _
  exact Flow.mem_solve_iff fits_cornerFlow

/-- What is at the left edge of a left corner is a left corner itself. -/
theorem corner_tail (h : g.cornerFlow.Holds n m) {k : NonterminalId}
    (hk : k < g.nonterminals.size) (he : (k, m) ∈ g.cornerFlow.edges) :
    g.cornerFlow.Holds n k := by
  induction h with
  | seed hs =>
    obtain ⟨hn, rfl⟩ := testBit_cornerFlow_seeds.mp hs
    refine .edge he (by rwa [size_cornerFlow_seeds]) (.seed ?_)
    exact testBit_cornerFlow_seeds.mpr ⟨hk, rfl⟩
  | edge he' hlt _ ih => exact .edge he' hlt (ih he)

/-! ## Closure -/

theorem testBit_startedSet {corners : Levels} {kernel : Kernel} :
    (startedSet g corners kernel).testBit m = true ↔
      ∃ i ∈ kernel, ∃ n, g.nextSymbol? i = some (.nonterminal n) ∧
        (corners.level n).testBit m = true := by
  rw [startedSet]
  refine (testBit_foldl (fun set i => ?_) kernel 0).trans (or_iff_right (by simp))
  rcases hx : g.nextSymbol? i with _ | _ | n <;> simp

/-- The nonterminal starts in the state. -/
def Started (g : Grammar) (s : StateId) (m : NonterminalId) : Prop :=
  ∃ i ∈ g.kernelOf s, ∃ n, g.nextSymbol? i = some (.nonterminal n) ∧ g.cornerFlow.Holds n m

theorem mem_itemsOf_iff : i ∈ g.itemsOf s ↔ i ∈ g.kernelOf s ∨
    ∃ p < g.productions.size, g.Started s (g.production p).left ∧ i = Item.initial p := by
  rw [itemsOf, Collection.itemsOf, List.mem_append]
  refine or_congr_right ?_
  simp only [startedItems, List.mem_map, List.mem_filter, List.mem_range, testBit_startedSet,
    testBit_leftCorners, Started]
  constructor
  · rintro ⟨p, ⟨hp, hs⟩, rfl⟩
    exact ⟨p, hp, hs, rfl⟩
  · rintro ⟨p, hp, hs, rfl⟩
    exact ⟨p, ⟨hp, hs⟩, rfl⟩

theorem kernelOf_subset_itemsOf (h : i ∈ g.kernelOf s) : i ∈ g.itemsOf s :=
  mem_itemsOf_iff.mpr (Or.inl h)

/-- The nonterminals next in proper items are those of right-hand sides. -/
theorem WellFormed.usable_of_next (wf : g.WellFormed) (hi : i.Proper g)
    (hx : g.nextSymbol? i = some x) : x.Usable g.vocabulary g.nonterminals.size := by
  refine wf.right _ hi.1 x (List.mem_of_mem_drop (i := i.dot) ?_)
  exact List.mem_of_mem_head? hx

theorem nextSymbol?_initial : g.nextSymbol? (Item.initial p) = (g.production p).right.head? := rfl

theorem rest_initial : g.rest (Item.initial p) = (g.production p).right := rfl

theorem WellFormed.started_of_next (wf : g.WellFormed) (hi : i ∈ g.itemsOf s)
    (hx : g.nextSymbol? i = some (.nonterminal n)) : g.Started s n := by
  have hn := (wf.usable_of_next (wf.proper_itemsOf hi) hx).2
  rcases mem_itemsOf_iff.mp hi with hk | ⟨p, hp, ⟨j, hj, m, hm, hcorner⟩, rfl⟩
  · exact ⟨i, hk, n, hx, .seed (testBit_cornerFlow_seeds.mpr ⟨hn, rfl⟩)⟩
  · exact ⟨j, hj, m, hm, corner_tail hcorner hn (mem_cornerFlow_edges.mpr ⟨p, hp, rfl, hx⟩)⟩

/-- **Closure.** With an item come the productions of the nonterminal next in it. -/
theorem WellFormed.initial_mem_itemsOf (wf : g.WellFormed) (hi : i ∈ g.itemsOf s)
    (hx : g.nextSymbol? i = some (.nonterminal n)) (hp : p < g.productions.size)
    (hl : (g.production p).left = n) : Item.initial p ∈ g.itemsOf s :=
  mem_itemsOf_iff.mpr (Or.inr ⟨p, hp, hl ▸ wf.started_of_next hi hx, rfl⟩)

/-- An induction over the closure: what holds of the kernel, and passes from an item to the
productions of the nonterminal next in it, holds of all items. -/
theorem WellFormed.itemsOf_induction (wf : g.WellFormed) {P : Item → Prop}
    (kernel : ∀ i ∈ g.kernelOf s, P i)
    (close : ∀ i ∈ g.itemsOf s, P i → ∀ p < g.productions.size,
      g.nextSymbol? i = some (.nonterminal (g.production p).left) → P (.initial p)) :
    ∀ i ∈ g.itemsOf s, P i := by
  -- From a nonterminal next in an item, along the edges to its left corners.
  have hcorner : ∀ n m, g.cornerFlow.Holds n m →
      ∀ i ∈ g.itemsOf s, P i → g.nextSymbol? i = some (.nonterminal n) →
      ∃ j ∈ g.itemsOf s, P j ∧ g.nextSymbol? j = some (.nonterminal m) := by
    intro n m h
    induction h with
    | seed hs =>
      obtain ⟨-, rfl⟩ := testBit_cornerFlow_seeds.mp hs
      exact fun i hi hP hx => ⟨i, hi, hP, hx⟩
    | edge he _ _ ih =>
      intro i hi hP hx
      obtain ⟨p, hp, rfl, hhead⟩ := mem_cornerFlow_edges.mp he
      exact ih _ (wf.initial_mem_itemsOf hi hx hp rfl) (close i hi hP p hp hx) hhead
  intro i hi
  rcases mem_itemsOf_iff.mp hi with hk | ⟨p, hp, ⟨j, hj, n, hn, hholds⟩, rfl⟩
  · exact kernel i hk
  · obtain ⟨k, hk, hP, hx⟩ := hcorner _ _ hholds j (kernelOf_subset_itemsOf hj) (kernel j hj) hn
    exact close k hk hP p hp hx

/-- **What is started.** An item outside the kernel starts a production of a nonterminal next in some
item of the state. -/
theorem WellFormed.exists_started (wf : g.WellFormed) (hi : i ∈ g.itemsOf s)
    (hk : i ∉ g.kernelOf s) : ∃ j ∈ g.itemsOf s, ∃ p < g.productions.size, i = .initial p ∧
      g.nextSymbol? j = some (.nonterminal (g.production p).left) := by
  refine (wf.itemsOf_induction (P := fun i => i ∈ g.kernelOf s ∨
    ∃ j ∈ g.itemsOf s, ∃ p < g.productions.size, i = .initial p ∧
      g.nextSymbol? j = some (.nonterminal (g.production p).left))
    (fun i hi => Or.inl hi) (fun i hi _ p hp hx => Or.inr ⟨i, hi, p, hp, rfl, hx⟩)
    i hi).resolve_left hk

/-! ## The first production -/

theorem WellFormed.startProduction_lt (wf : g.WellFormed) :
    startProduction < g.productions.size := (Array.getElem?_eq_some_iff.mp wf.first).1

theorem WellFormed.production_start (wf : g.WellFormed) :
    g.production startProduction = Lower.rootProduction g.root := production_of_getElem? wf.first

theorem WellFormed.right_start (wf : g.WellFormed) :
    (g.production startProduction).right = [.nonterminal g.root] := by
  rw [wf.production_start]
  rfl

theorem WellFormed.left_start (wf : g.WellFormed) :
    (g.production startProduction).left = start := by
  rw [wf.production_start]
  rfl

/-- The root is a nonterminal of a rule. -/
theorem WellFormed.usable_root (wf : g.WellFormed) :
    g.root ≠ start ∧ g.root < g.nonterminals.size := by
  refine wf.right startProduction wf.startProduction_lt (.nonterminal g.root) ?_
  rw [wf.right_start]
  exact List.mem_singleton_self _

theorem WellFormed.ne_startProduction (wf : g.WellFormed) (hleft : (g.production p).left = g.root) :
    p ≠ startProduction := by
  rintro rfl
  exact wf.usable_root.1 (hleft.symm.trans wf.left_start)

/-- The first state holds the first item. -/
theorem WellFormed.first_mem_itemsOf (wf : g.WellFormed) :
    Item.initial startProduction ∈ g.itemsOf Automaton.start :=
  kernelOf_subset_itemsOf (by rw [wf.kernelOf_start]; exact List.mem_singleton_self _)

theorem WellFormed.rest_first (wf : g.WellFormed) :
    g.rest (.initial startProduction) = [.nonterminal g.root] := by
  rw [rest_initial, wf.right_start]

/-- The root is next in the first item. -/
theorem WellFormed.next_first (wf : g.WellFormed) :
    g.nextSymbol? (.initial startProduction) = some (.nonterminal g.root) :=
  nextSymbol?_of_rest wf.rest_first

/-- No item has a position that is too wide. -/
theorem WellFormed.dot_le (wf : g.WellFormed) (hi : i ∈ g.itemsOf s) : i.dot ≤ maxIndex := by
  rcases mem_itemsOf_iff.mp hi with hk | ⟨p, -, -, rfl⟩
  · have hs := lt_stateCount_of_mem_kernelOf hk
    by_cases hstart : s = Automaton.start
    · rw [hstart, wf.kernelOf_start, List.mem_singleton] at hk
      rw [hk]
      exact Nat.zero_le _
    · obtain ⟨r, -, x, hx⟩ := wf.exists_source (Nat.pos_of_ne_zero hstart) hs
      obtain ⟨j, -, -, rfl⟩ := (wf.mem_kernelOf_goto hx).mp hk
      exact j.dot_advance_le
  · exact Nat.zero_le _

/-- The dot of a complete item is the length of its right-hand side. -/
theorem WellFormed.dot_eq_length (wf : g.WellFormed) (hi : i ∈ g.itemsOf s) (hr : g.rest i = []) :
    i.dot = (g.production i.production).right.length :=
  Nat.le_antisymm (wf.proper_itemsOf hi).2 (List.drop_eq_nil_iff.mp hr)

/-- A production that is completed is not too long for its positions. -/
theorem WellFormed.length_le_of_complete (wf : g.WellFormed) (hi : i ∈ g.itemsOf s)
    (hr : g.rest i = []) : (g.production i.production).right.length ≤ maxIndex := by
  rw [← wf.dot_eq_length hi hr]
  exact wf.dot_le hi

/-- The states reached by a symbol hold no item at its start in their kernel, unless its positions have
run over. -/
theorem WellFormed.dot_pos_of_goto (wf : g.WellFormed) (h : g.goto? s x = some t)
    (hi : i ∈ g.kernelOf t) (hlength : (g.production i.production).right.length ≤ maxIndex) :
    0 < i.dot := by
  obtain ⟨j, -, hx, rfl⟩ := (wf.mem_kernelOf_goto h).mp hi
  rw [Item.advance_of_lt ((dot_lt_length hx).trans_le hlength)]
  exact Nat.succ_pos _

theorem WellFormed.length_start_le (wf : g.WellFormed) :
    (g.production startProduction).right.length ≤ maxIndex := by
  rw [wf.right_start, List.length_singleton]
  decide

/-- No symbol leads back to the first state. -/
theorem WellFormed.goto?_ne_start (wf : g.WellFormed) (h : g.goto? s x = some t) :
    t ≠ Automaton.start := by
  rintro rfl
  have hkernel : .initial startProduction ∈ g.kernelOf Automaton.start := by simp [wf.kernelOf_start]
  exact absurd (wf.dot_pos_of_goto h hkernel wf.length_start_le) (Nat.lt_irrefl 0)

/-- The start symbol is next in no item. -/
theorem WellFormed.next_ne_start (wf : g.WellFormed) (hi : i ∈ g.itemsOf s) :
    g.nextSymbol? i ≠ some (.nonterminal start) := fun hx =>
  (wf.usable_of_next (wf.proper_itemsOf hi) hx).1 rfl

/-- A kernel with an item at its start is that of the first state. -/
theorem WellFormed.eq_start_of_mem_kernelOf (wf : g.WellFormed) (hi : .initial p ∈ g.kernelOf s)
    (hlength : (g.production p).right.length ≤ maxIndex) :
    s = Automaton.start ∧ p = startProduction := by
  by_cases hs : s = Automaton.start
  · rw [hs, wf.kernelOf_start, List.mem_singleton] at hi
    exact ⟨hs, congrArg Item.production hi⟩
  · obtain ⟨r, -, x, hx⟩ := wf.exists_source (Nat.pos_of_ne_zero hs) (lt_stateCount_of_mem_kernelOf hi)
    exact absurd (wf.dot_pos_of_goto hx hi hlength) (Nat.lt_irrefl 0)

/-- The first item is in the first state only. -/
theorem WellFormed.eq_start_of_mem (wf : g.WellFormed)
    (hi : Item.initial startProduction ∈ g.itemsOf s) : s = Automaton.start := by
  by_cases hk : Item.initial startProduction ∈ g.kernelOf s
  · exact (wf.eq_start_of_mem_kernelOf hk wf.length_start_le).1
  · obtain ⟨j, hj, p, -, heq, hx⟩ := wf.exists_started hi hk
    have hp : p = startProduction := (congrArg Item.production heq).symm
    rw [hp, wf.left_start] at hx
    exact absurd hx (wf.next_ne_start hj)

/-! ## Paths -/

/-- The states lead from the first one to that on top by the symbols, both top first. -/
inductive Path (g : Grammar) : List StateId → List Symbol → Prop
  | start : Path g [Automaton.start] []
  | step {s t : StateId} {σ : List StateId} {γ : List Symbol} {x : Symbol} :
      Path g (s :: σ) γ → g.goto? s x = some t → Path g (t :: s :: σ) (x :: γ)

variable {σ : List StateId} {γ : List Symbol}

theorem Path.length (h : g.Path σ γ) : σ.length = γ.length + 1 := by
  induction h with
  | start => rfl
  | step _ _ ih => simp [ih]

/-- What is left of a path after some states are taken off. -/
theorem Path.drop (h : g.Path σ γ) {k : Nat} (hk : k < σ.length) :
    g.Path (σ.drop k) (γ.drop k) := by
  induction h generalizing k with
  | start =>
    obtain rfl : k = 0 := by simpa using hk
    exact .start
  | step hp hx ih =>
    cases k with
    | zero => exact .step hp hx
    | succ k => exact ih (by simpa using hk)

/-- **The symbols before an item.** They are on top of every path to a state with the item. -/
theorem WellFormed.exists_prefix (wf : g.WellFormed) (h : g.Path (s :: σ) γ)
    (hi : i ∈ g.itemsOf s) : i.dot < (s :: σ).length ∧
      γ.take i.dot = ((g.production i.production).right.take i.dot).reverse ∧
      ∃ s' σ', (s :: σ).drop i.dot = s' :: σ' ∧ Item.initial i.production ∈ g.itemsOf s' := by
  obtain ⟨p, d⟩ := i
  induction d generalizing s σ γ with
  | zero => exact ⟨Nat.succ_pos _, rfl, s, σ, rfl, hi⟩
  | succ d ih =>
    -- Only the kernel has items that something has been read of.
    have hk : (⟨p, d + 1⟩ : Item) ∈ g.kernelOf s := by
      rcases mem_itemsOf_iff.mp hi with hk | ⟨q, -, -, heq⟩
      · exact hk
      · cases heq
    cases h with
    | start =>
      rw [wf.kernelOf_start, List.mem_singleton] at hk
      cases hk
    | step hp hx =>
      obtain ⟨⟨q, e⟩, hj, hnext, heq⟩ := (wf.mem_kernelOf_goto hx).mp hk
      -- An item that something was read of is not one whose position has run over.
      obtain ⟨rfl, rfl⟩ : p = q ∧ d = e := by
        rw [Item.advance] at heq
        split at heq <;> cases heq
        exact ⟨rfl, rfl⟩
      obtain ⟨hlt, htake, s', σ', hdrop, hmem⟩ := ih hp hj
      refine ⟨Nat.succ_lt_succ hlt, ?_, s', σ', hdrop, hmem⟩
      rw [Grammar.nextSymbol?, Grammar.rest, List.head?_drop] at hnext
      show _ :: _ = _
      rw [List.take_add_one, htake]
      simp_all

end Grammar

end FourGL
