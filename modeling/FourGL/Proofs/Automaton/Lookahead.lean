import FourGL.Proofs.Automaton.Items

/-!
# Lookahead sets are exact

An item is *valid* on a path, with a terminal as lookahead, if it comes from the first item by
reading the symbols of the path and by starting productions of nonterminals; where a production is
started, its lookahead is the first terminal of some text of what follows the nonterminal, or the
lookahead there if that text is empty.

**Theorem (`looksAhead_iff`).** The lookahead set of an item in a state holds a terminal exactly if
the item is valid with it on some path to the state.

States with equal kernels are merged, so the path need not be the one that a parser is on.
-/

namespace FourGL

namespace Grammar

variable {g : Grammar} {s s' : StateId} {x : Symbol} {i : Item} {n : NonterminalId}
  {p : ProductionId} {t : TerminalId} {σ : List StateId} {γ : List Symbol}

/-! ## Slots -/

/-- The numbering of the slots of all states. -/
def slotPlan (g : Grammar) : SlotPlan := .ofCollection g g.collection

/-- The items of a state with their slots. -/
def slotted (g : Grammar) (s : StateId) : List SlottedItem :=
  slottedItems g (leftCorners g) g.slotPlan s (g.kernelOf s)

/-- The slotted items of all states. -/
def slottedStates (g : Grammar) : Array (List SlottedItem) :=
  g.collection.kernels.mapIdx fun s kernel => slottedItems g (leftCorners g) g.slotPlan s kernel

/-- The flow whose solution is the lookahead sets. -/
def lookaheads (g : Grammar) : Flow :=
  lookaheadFlow g (.ofGrammar g) g.collection g.slotPlan g.slottedStates

/-- The terminal is in the lookahead set of the item in the state. -/
def LooksAhead (g : Grammar) (s : StateId) (i : Item) (t : TerminalId) : Prop :=
  ∃ slot, ⟨i, slot⟩ ∈ g.slotted s ∧ g.lookaheads.Holds slot t

theorem length_kernelOf_le : (g.kernelOf s).length ≤ g.slotPlan.kernelSlots := by
  have hfold : ∀ (kernels : List Kernel) (n : Nat),
      n ≤ kernels.foldl (fun n kernel => max n kernel.length) n ∧
        ∀ kernel ∈ kernels, kernel.length ≤ kernels.foldl (fun n kernel => max n kernel.length) n := by
    intro kernels
    induction kernels with
    | nil => simp
    | cons k kernels ih =>
      intro n
      obtain ⟨hle, hall⟩ := ih (max n k.length)
      refine ⟨(Nat.le_max_left _ _).trans hle, fun kernel hk => ?_⟩
      rcases List.mem_cons.mp hk with rfl | hk
      · exact (Nat.le_max_right _ _).trans hle
      · exact hall kernel hk
  by_cases hs : s < g.stateCount
  · have hmem : g.kernelOf s ∈ g.collection.kernels.toList :=
      Array.mem_toList_iff.mpr (Array.mem_of_getElem? (getElem?_kernels hs))
    simp only [slotPlan, SlotPlan.ofCollection, ← Array.foldl_toList]
    exact (hfold _ 0).2 _ hmem
  · rw [kernelOf_of_le (Nat.le_of_not_lt hs)]
    exact Nat.zero_le _

theorem width_slotPlan :
    g.slotPlan.width = g.slotPlan.kernelSlots + g.nonterminals.size := rfl

theorem slot_lt_of_place {place : Nat} (h : (g.kernelOf s)[place]? = some i) :
    place < g.slotPlan.kernelSlots :=
  (List.getElem?_eq_some_iff.mp h).1.trans_le length_kernelOf_le

theorem lt_of_holds_corner {m : NonterminalId} (h : g.cornerFlow.Holds n m) :
    m < g.nonterminals.size := by
  induction h with
  | seed hs =>
    obtain ⟨hn, rfl⟩ := testBit_cornerFlow_seeds.mp hs
    exact hn
  | edge _ _ _ ih => exact ih

theorem Started.lt (h : g.Started s n) : n < g.nonterminals.size := by
  obtain ⟨_, _, _, _, hcorner⟩ := h
  exact lt_of_holds_corner hcorner

/-- A number below the width and a state are known from the slot that they make. -/
theorem slot_injective {width a b : Nat} (ha : a < width) (hb : b < width)
    (h : s * width + a = s' * width + b) : s = s' ∧ a = b := by
  have hdiv := congrArg (· / width) h
  have hmod := congrArg (· % width) h
  simp only [Nat.mul_comm _ width, Nat.mul_add_mod, Nat.mod_eq_of_lt ha, Nat.mod_eq_of_lt hb,
    Nat.mul_add_div (Nat.zero_lt_of_lt ha), Nat.div_eq_of_lt ha, Nat.div_eq_of_lt hb] at hdiv hmod
  exact ⟨hdiv, hmod⟩

theorem place_lt_width {a : Nat} (ha : a < g.slotPlan.kernelSlots) : a < g.slotPlan.width := by
  rw [width_slotPlan]
  omega

theorem nonterminal_lt_width {m : Nat} (hm : m < g.nonterminals.size) :
    g.slotPlan.kernelSlots + m < g.slotPlan.width := by
  rw [width_slotPlan]
  omega

theorem ofItem_injective {a b : Nat} (ha : a < g.slotPlan.kernelSlots)
    (hb : b < g.slotPlan.kernelSlots) (h : g.slotPlan.ofItem s a = g.slotPlan.ofItem s' b) :
    s = s' ∧ a = b :=
  slot_injective (place_lt_width ha) (place_lt_width hb) h

theorem ofNonterminal_injective {m : NonterminalId} (hn : n < g.nonterminals.size)
    (hm : m < g.nonterminals.size)
    (h : g.slotPlan.ofNonterminal s n = g.slotPlan.ofNonterminal s' m) : s = s' ∧ n = m := by
  simp only [SlotPlan.ofNonterminal, Nat.add_assoc] at h
  obtain ⟨hs, heq⟩ := slot_injective (nonterminal_lt_width hn) (nonterminal_lt_width hm) h
  exact ⟨hs, Nat.add_left_cancel heq⟩

theorem ofItem_ne_ofNonterminal {a : Nat} (ha : a < g.slotPlan.kernelSlots)
    (hn : n < g.nonterminals.size) :
    g.slotPlan.ofItem s a ≠ g.slotPlan.ofNonterminal s' n := by
  intro h
  simp only [SlotPlan.ofItem, SlotPlan.ofNonterminal, Nat.add_assoc] at h
  obtain ⟨-, rfl⟩ := slot_injective (place_lt_width ha) (nonterminal_lt_width hn) h
  exact absurd ha (Nat.not_lt.mpr (Nat.le_add_right _ _))

theorem slot_lt_size {width a b c : Nat} (ha : a < width) (hb : b < c) :
    b * width + a < width * c := by
  have : (b + 1) * width ≤ c * width := Nat.mul_le_mul_right width hb
  rw [Nat.succ_mul] at this
  rw [Nat.mul_comm width]
  omega

theorem mem_slotted_iff {slot : Nat} : ⟨i, slot⟩ ∈ g.slotted s ↔
    (∃ place, (g.kernelOf s)[place]? = some i ∧ slot = g.slotPlan.ofItem s place) ∨
      ∃ p < g.productions.size, g.Started s (g.production p).left ∧ i = .initial p ∧
        slot = g.slotPlan.ofNonterminal s (g.production p).left := by
  simp only [slotted, slottedItems, List.mem_mergeSort, List.mem_append, List.mem_map]
  refine or_congr ?_ ?_
  · constructor
    · rintro ⟨⟨j, place⟩, hmem, heq⟩
      cases heq
      exact ⟨place, by simpa [List.mem_zipIdx_iff_getElem?] using hmem, rfl⟩
    · rintro ⟨place, hget, rfl⟩
      exact ⟨(i, place), by simpa [List.mem_zipIdx_iff_getElem?] using hget, rfl⟩
  · simp only [startedItems, List.mem_map, List.mem_filter, List.mem_range, testBit_startedSet,
      testBit_leftCorners]
    constructor
    · rintro ⟨_, ⟨p, ⟨hp, hs⟩, rfl⟩, heq⟩
      cases heq
      exact ⟨p, hp, hs, rfl, rfl⟩
    · rintro ⟨p, hp, hs, rfl, rfl⟩
      exact ⟨_, ⟨p, ⟨hp, hs⟩, rfl⟩, rfl⟩

theorem exists_slot (hi : i ∈ g.itemsOf s) : ∃ slot, ⟨i, slot⟩ ∈ g.slotted s := by
  rcases mem_itemsOf_iff.mp hi with hk | ⟨p, hp, hs, rfl⟩
  · obtain ⟨place, hplace⟩ := List.mem_iff_getElem?.mp hk
    exact ⟨_, mem_slotted_iff.mpr (Or.inl ⟨place, hplace, rfl⟩)⟩
  · exact ⟨_, mem_slotted_iff.mpr (Or.inr ⟨p, hp, hs, rfl, rfl⟩)⟩

theorem mem_itemsOf_of_slotted {slot : Nat} (h : ⟨i, slot⟩ ∈ g.slotted s) : i ∈ g.itemsOf s := by
  rcases mem_slotted_iff.mp h with ⟨place, hget, -⟩ | ⟨p, hp, hs, rfl, -⟩
  · exact kernelOf_subset_itemsOf (List.mem_of_getElem? hget)
  · exact mem_itemsOf_iff.mpr (Or.inr ⟨p, hp, hs, rfl⟩)

theorem LooksAhead.mem (h : g.LooksAhead s i t) : i ∈ g.itemsOf s :=
  mem_itemsOf_of_slotted h.choose_spec.1

/-- The slots of the items of a state lie within the system. -/
theorem slot_lt_of_mem {slot : Nat} (h : ⟨i, slot⟩ ∈ g.slotted s) :
    slot < g.slotPlan.width * g.stateCount := by
  have hs := lt_stateCount_of_mem (mem_itemsOf_of_slotted h)
  rcases mem_slotted_iff.mp h with ⟨place, hget, rfl⟩ | ⟨p, -, hstarted, -, rfl⟩
  · exact slot_lt_size (place_lt_width (slot_lt_of_place hget)) hs
  · rw [SlotPlan.ofNonterminal, Nat.add_assoc]
    exact slot_lt_size (nonterminal_lt_width hstarted.lt) hs

/-! ## The system -/

/-- What the items of all states add to the system. -/
def contributions (g : Grammar) : List Contribution :=
  g.slottedStates.zipIdx.toList.flatMap fun (items, s) =>
    items.map (contribution g (.ofGrammar g) g.collection g.slotPlan s)

theorem mem_zipIdx_slottedStates {items : List SlottedItem} :
    (items, s) ∈ g.slottedStates.zipIdx ↔ s < g.stateCount ∧ items = g.slotted s := by
  rw [Array.mk_mem_zipIdx_iff_getElem?, slottedStates, Array.getElem?_mapIdx]
  by_cases hs : s < g.stateCount
  · rw [getElem?_kernels hs]
    simp [hs, slotted, eq_comm]
  · rw [Array.getElem?_eq_none (Nat.le_of_not_lt hs)]
    simp [hs]

theorem mem_contributions {k : Contribution} : k ∈ g.contributions ↔
    ∃ s i slot, ⟨i, slot⟩ ∈ g.slotted s ∧
      k = contribution g (.ofGrammar g) g.collection g.slotPlan s ⟨i, slot⟩ := by
  simp only [contributions, List.mem_flatMap, Array.mem_toList_iff, List.mem_map]
  constructor
  · rintro ⟨⟨items, s⟩, hmem, ⟨i, slot⟩, he, rfl⟩
    obtain ⟨-, rfl⟩ := mem_zipIdx_slottedStates.mp hmem
    exact ⟨s, i, slot, he, rfl⟩
  · rintro ⟨s, i, slot, he, rfl⟩
    have hs := lt_stateCount_of_mem (mem_itemsOf_of_slotted he)
    exact ⟨_, mem_zipIdx_slottedStates.mpr ⟨hs, rfl⟩, _, he, rfl⟩

theorem seed_contribution {slot target set : Nat} :
    (contribution g (.ofGrammar g) g.collection g.slotPlan s ⟨i, slot⟩).seed = some (target, set) ↔
      ∃ n δ, g.rest i = .nonterminal n :: δ ∧ target = g.slotPlan.ofNonterminal s n ∧
        set = (FirstSets.ofGrammar g).ofSequence δ := by
  rw [contribution]
  rcases hr : g.rest i with _ | ⟨_ | m, δ⟩
  · simp
  · simp
  · simp only [Option.some.injEq, Prod.mk.injEq]
    constructor
    · rintro ⟨rfl, rfl⟩
      exact ⟨m, δ, rfl, rfl, rfl⟩
    · rintro ⟨n, δ', heq, rfl, rfl⟩
      cases heq
      exact ⟨rfl, rfl⟩

theorem mem_advancedSlot? {target : Nat} :
    target ∈ (advancedSlot? g.collection g.slotPlan s x i).toList ↔
      ∃ t place, g.goto? s x = some t ∧ (g.kernelOf t).idxOf? i.advance = some place ∧
        target = g.slotPlan.ofItem t place := by
  simp only [Option.mem_toList, advancedSlot?, Option.bind_eq_bind, Option.bind_eq_some_iff,
    Option.pure_def, Option.some.injEq, goto?, kernelOf]
  constructor
  · rintro ⟨t, ht, place, hplace, rfl⟩
    exact ⟨t, place, ht, hplace, rfl⟩
  · rintro ⟨t, place, ht, hplace, rfl⟩
    exact ⟨t, ht, place, hplace, rfl⟩

theorem edges_contribution {slot source target : Nat} :
    (source, target) ∈ (contribution g (.ofGrammar g) g.collection g.slotPlan s ⟨i, slot⟩).edges ↔
      source = slot ∧
        ((∃ x, g.nextSymbol? i = some x ∧
            target ∈ (advancedSlot? g.collection g.slotPlan s x i).toList) ∨
          ∃ n δ, g.rest i = .nonterminal n :: δ ∧ (FirstSets.ofGrammar g).isNullable δ = true ∧
            target = g.slotPlan.ofNonterminal s n) := by
  have hmap : ∀ l : List Nat, (source, target) ∈ l.map (slot, ·) ↔ source = slot ∧ target ∈ l := by
    intro l
    simp only [List.mem_map, Prod.mk.injEq]
    exact ⟨fun ⟨b, hb, h₁, h₂⟩ => ⟨h₁.symm, h₂ ▸ hb⟩, fun ⟨h₁, h₂⟩ => ⟨_, h₂, h₁.symm, rfl⟩⟩
  rw [contribution, nextSymbol?]
  rcases hr : g.rest i with _ | ⟨_ | m, δ⟩
  · simp
  · simp [hmap]
  · by_cases hnull : (FirstSets.ofGrammar g).isNullable δ = true
    · simp [hmap, hnull, or_comm, and_or_left]
    · simp [hmap, hnull]

theorem size_lookaheads_seeds :
    g.lookaheads.seeds.size = g.slotPlan.width * g.stateCount := by
  refine (Levels.size_foldl_pour Contribution.seed (fun _ _ => rfl)
    g.contributions _).trans ?_
  rw [Levels.size_pour, Array.size_replicate, slottedStates, Array.size_mapIdx]
  rfl

theorem testBit_lookaheads_seeds {slot : Nat} :
    (Levels.level g.lookaheads.seeds slot).testBit t = true ↔
      slot < g.slotPlan.width * g.stateCount ∧
        ((slot = g.slotPlan.ofItem Automaton.start 0 ∧ t = Vocabulary.endOfInput) ∨
          ∃ s i, i ∈ g.itemsOf s ∧ ∃ n δ, g.rest i = .nonterminal n :: δ ∧
            slot = g.slotPlan.ofNonterminal s n ∧
            ((FirstSets.ofGrammar g).ofSequence δ).testBit t = true) := by
  have hsize : g.slottedStates.size = g.stateCount := Array.size_mapIdx
  refine (Levels.testBit_foldl_pour Contribution.seed (fun _ _ => rfl)
    g.contributions _).trans ?_
  rw [Levels.testBit_pour, level_replicate_zero, Levels.size_pour, Array.size_replicate, hsize,
    testBit_bit]
  simp only [Nat.zero_testBit, Bool.false_eq_true, false_or]
  constructor
  · rintro (⟨hslot, hlt, ht⟩ | ⟨hlt, k, hk, set, hseed, ht⟩)
    · exact ⟨hlt, Or.inl ⟨hslot, ht⟩⟩
    · obtain ⟨s, i, slot', he, rfl⟩ := mem_contributions.mp hk
      obtain ⟨n, δ, hr, hslot, rfl⟩ := seed_contribution.mp hseed
      exact ⟨hlt, Or.inr ⟨s, i, mem_itemsOf_of_slotted he, n, δ, hr, hslot, ht⟩⟩
  · rintro ⟨hlt, ⟨hslot, ht⟩ | ⟨s, i, hi, n, δ, hr, hslot, ht⟩⟩
    · exact Or.inl ⟨hslot, hlt, ht⟩
    · obtain ⟨slot', he⟩ := exists_slot hi
      exact Or.inr ⟨hlt, _, mem_contributions.mpr ⟨s, i, slot', he, rfl⟩, _,
        seed_contribution.mpr ⟨n, δ, hr, hslot, rfl⟩, ht⟩

theorem mem_lookaheads_edges {source target : Nat} :
    (source, target) ∈ g.lookaheads.edges ↔ ∃ s i, ⟨i, source⟩ ∈ g.slotted s ∧
      ((∃ x, g.nextSymbol? i = some x ∧
          target ∈ (advancedSlot? g.collection g.slotPlan s x i).toList) ∨
        ∃ n δ, g.rest i = .nonterminal n :: δ ∧ (FirstSets.ofGrammar g).isNullable δ = true ∧
          target = g.slotPlan.ofNonterminal s n) := by
  show (source, target) ∈ (g.contributions.flatMap (·.edges)).toArray ↔ _
  simp only [List.mem_toArray, List.mem_flatMap]
  constructor
  · rintro ⟨k, hk, he⟩
    obtain ⟨s, i, slot, hi, rfl⟩ := mem_contributions.mp hk
    obtain ⟨rfl, hcase⟩ := edges_contribution.mp he
    exact ⟨s, i, hi, hcase⟩
  · rintro ⟨s, i, hi, hcase⟩
    exact ⟨_, mem_contributions.mpr ⟨s, i, _, hi, rfl⟩, edges_contribution.mpr ⟨rfl, hcase⟩⟩

/-! ## Completeness -/

theorem getElem?_of_idxOf? {kernel : Kernel} {place : Nat} (h : kernel.idxOf? i = some place) :
    kernel[place]? = some i := by
  obtain ⟨hlt, heq, -⟩ := List.findIdx?_eq_some_iff_getElem.mp h
  rw [List.getElem?_eq_getElem hlt, eq_of_beq heq]

theorem exists_idxOf? {kernel : Kernel} (h : i ∈ kernel) :
    ∃ place, kernel.idxOf? i = some place := by
  cases hi : kernel.idxOf? i with
  | none =>
    have := List.findIdx?_eq_none_iff.mp hi i h
    simp at this
  | some place => exact ⟨place, rfl⟩

theorem WellFormed.usable_of_rest (wf : g.WellFormed) (hi : i.Proper g) :
    ∀ y ∈ g.rest i, y.Usable g.vocabulary g.nonterminals.size := fun y hy =>
  wf.right _ hi.1 y (List.mem_of_mem_drop hy)

theorem WellFormed.usable_of_rest_cons (wf : g.WellFormed) (hi : i.Proper g) {δ : List Symbol}
    (hr : g.rest i = x :: δ) : ∀ y ∈ δ, y.Usable g.vocabulary g.nonterminals.size := fun y hy =>
  wf.usable_of_rest hi y (by rw [hr]; exact List.mem_cons_of_mem _ hy)

/-- Usable symbols yield usable terminals. -/
theorem WellFormed.usable_of_yields (wf : g.WellFormed) {β : List Symbol} {w : List TerminalId}
    {k : Nat} (h : g.Yields β w k)
    (hβ : ∀ y ∈ β, y.Usable g.vocabulary g.nonterminals.size) :
    ∀ t ∈ w, g.vocabulary.Usable t := by
  induction h with
  | nil => simp
  | terminal _ ih =>
    refine List.forall_mem_cons.mpr ⟨hβ _ List.mem_cons_self, ?_⟩
    exact ih fun y hy => hβ y (List.mem_cons_of_mem _ hy)
  | nonterminal hp _ _ _ ihr ihβ =>
    intro t ht
    rcases List.mem_append.mp ht with ht | ht
    · exact ihr (wf.right _ hp) t ht
    · exact ihβ (fun y hy => hβ y (List.mem_cons_of_mem _ hy)) t ht

theorem WellFormed.fits_lookaheads (wf : g.WellFormed) :
    Flow.Fits g.lookaheads.seeds.size g.vocabulary.terminals.size g.lookaheads.seeds := by
  refine ⟨rfl, fun slot t ht => ?_⟩
  rcases (testBit_lookaheads_seeds.mp ht).2 with ⟨-, rfl⟩ | ⟨s, i, hi, n, δ, hr, -, ht⟩
  · exact wf.vocabulary.size_pos
  · have hδ := wf.usable_of_rest_cons (wf.proper_itemsOf hi) hr
    obtain ⟨w, k, hw⟩ := (wf.testBit_ofSequence_iff hδ).mp ht
    exact (wf.usable_of_yields hw hδ t List.mem_cons_self).2

/-- The lookahead sets that are computed for the slots. -/
theorem WellFormed.testBit_solve_lookaheads (wf : g.WellFormed) {slot : Nat} :
    ((g.lookaheads.solve g.vocabulary.terminals.size).level slot).testBit t = true ↔
      g.lookaheads.Holds slot t :=
  Flow.mem_solve_iff wf.fits_lookaheads

theorem WellFormed.looksAhead_start (wf : g.WellFormed) :
    g.LooksAhead Automaton.start (.initial startProduction) Vocabulary.endOfInput := by
  have hslot : ⟨Item.initial startProduction, g.slotPlan.ofItem Automaton.start 0⟩ ∈
      g.slotted Automaton.start :=
    mem_slotted_iff.mpr (Or.inl ⟨0, by rw [wf.kernelOf_start]; rfl, rfl⟩)
  exact ⟨_, hslot, .seed (testBit_lookaheads_seeds.mpr
    ⟨slot_lt_of_mem hslot, Or.inl ⟨rfl, rfl⟩⟩)⟩

/-- Lookaheads stay when an item is advanced. -/
theorem WellFormed.looksAhead_advance (wf : g.WellFormed) (h : g.LooksAhead s i t)
    (hx : g.nextSymbol? i = some x) (hs : g.goto? s x = some s') :
    g.LooksAhead s' i.advance t := by
  obtain ⟨slot, hi, hholds⟩ := h
  have hmem : i.advance ∈ g.kernelOf s' :=
    (wf.mem_kernelOf_goto hs).mpr ⟨i, mem_itemsOf_of_slotted hi, hx, rfl⟩
  obtain ⟨place, hplace⟩ := exists_idxOf? hmem
  have htarget : ⟨i.advance, g.slotPlan.ofItem s' place⟩ ∈ g.slotted s' :=
    mem_slotted_iff.mpr (Or.inl ⟨place, getElem?_of_idxOf? hplace, rfl⟩)
  refine ⟨_, htarget, .edge (mem_lookaheads_edges.mpr ⟨s, i, hi, Or.inl ⟨x, hx, ?_⟩⟩) ?_ hholds⟩
  · exact mem_advancedSlot?.mpr ⟨s', place, hs, hplace, rfl⟩
  · rw [size_lookaheads_seeds]
    exact slot_lt_of_mem htarget

/-- Lookaheads of the productions of a nonterminal next in an item. -/
theorem WellFormed.looksAhead_close (wf : g.WellFormed) (h : g.LooksAhead s i t)
    {δ : List Symbol} (hr : g.rest i = .nonterminal n :: δ) (hp : p < g.productions.size)
    (hl : (g.production p).left = n) {v : List TerminalId} {k : Nat} (hv : g.Yields δ v k) :
    g.LooksAhead s (.initial p) (v.headD t) := by
  obtain ⟨slot, hi, hholds⟩ := h
  have hmem := mem_itemsOf_of_slotted hi
  have hx := nextSymbol?_of_rest hr
  have hδ := wf.usable_of_rest_cons (wf.proper_itemsOf hmem) hr
  have htarget : ⟨Item.initial p, g.slotPlan.ofNonterminal s n⟩ ∈ g.slotted s :=
    mem_slotted_iff.mpr (Or.inr ⟨p, hp, hl ▸ wf.started_of_next hmem hx, rfl, by rw [hl]⟩)
  refine ⟨_, htarget, ?_⟩
  cases v with
  | nil =>
    have hnull := wf.isNullable_iff.mpr ⟨k, hv⟩
    refine .edge (mem_lookaheads_edges.mpr ⟨s, i, hi, Or.inr ⟨n, δ, hr, hnull, rfl⟩⟩) ?_ hholds
    rw [size_lookaheads_seeds]
    exact slot_lt_of_mem htarget
  | cons t' v =>
    have hfirst := (wf.testBit_ofSequence_iff hδ).mpr ⟨v, k, hv⟩
    exact .seed (testBit_lookaheads_seeds.mpr
      ⟨slot_lt_of_mem htarget, Or.inr ⟨s, i, hmem, n, δ, hr, rfl, hfirst⟩⟩)

/-! ## Validity -/

/-- The item is valid on the path, with the terminal as lookahead. -/
inductive Valid (g : Grammar) : List StateId → List Symbol → Item → TerminalId → Prop
  | start : Valid g [Automaton.start] [] (.initial startProduction) Vocabulary.endOfInput
  | advance {s s' : StateId} {σ : List StateId} {γ : List Symbol} {i : Item} {t : TerminalId}
      {x : Symbol} : Valid g (s :: σ) γ i t → g.nextSymbol? i = some x → g.goto? s x = some s' →
      Valid g (s' :: s :: σ) (x :: γ) i.advance t
  | close {σ : List StateId} {γ : List Symbol} {i : Item} {t : TerminalId} {n : NonterminalId}
      {δ : List Symbol} {p : ProductionId} {v : List TerminalId} {k : Nat} :
      Valid g σ γ i t → g.rest i = .nonterminal n :: δ → p < g.productions.size →
      (g.production p).left = n → g.Yields δ v k → Valid g σ γ (.initial p) (v.headD t)

theorem Valid.path (h : g.Valid σ γ i t) : g.Path σ γ := by
  induction h with
  | start => exact .start
  | advance _ _ hs ih => exact .step ih hs
  | close _ _ _ _ _ ih => exact ih

/-- What is valid on a path has the lookahead in the state on top. -/
theorem WellFormed.looksAhead_of_valid (wf : g.WellFormed) (h : g.Valid (s :: σ) γ i t) :
    g.LooksAhead s i t := by
  generalize hτ : s :: σ = τ at h
  induction h generalizing s σ with
  | start =>
    cases hτ
    exact wf.looksAhead_start
  | advance _ hx hs ih =>
    cases hτ
    exact wf.looksAhead_advance (ih rfl) hx hs
  | close _ hr hp hl hv ih => exact wf.looksAhead_close (ih hτ) hr hp hl hv

theorem WellFormed.exists_path (wf : g.WellFormed) (hs : s < g.stateCount) :
    ∃ σ γ, g.Path (s :: σ) γ := by
  induction s using Nat.strong_induction_on with
  | _ s ih =>
    rcases Nat.eq_zero_or_pos s with rfl | hpos
    · exact ⟨_, _, .start⟩
    · obtain ⟨s', hlt, x, hx⟩ := wf.exists_source hpos hs
      obtain ⟨σ, γ, hpath⟩ := ih s' hlt (wf.lt_of_goto? hx)
      exact ⟨_, _, .step hpath hx⟩

/-- Every item of the state on top of a path is valid there. -/
theorem WellFormed.exists_valid (wf : g.WellFormed) (h : g.Path (s :: σ) γ)
    (hi : i ∈ g.itemsOf s) : ∃ t, g.Valid (s :: σ) γ i t := by
  -- On one path, validity passes on to what an item starts.
  have hclosed : ∀ {s : StateId} {σ : List StateId} {γ : List Symbol},
      (∀ i ∈ g.kernelOf s, ∃ t, g.Valid (s :: σ) γ i t) →
      ∀ i ∈ g.itemsOf s, ∃ t, g.Valid (s :: σ) γ i t := fun hkernel =>
    wf.itemsOf_induction hkernel fun i hi ⟨t, hv⟩ p hp hx => by
      obtain ⟨δ, hr⟩ := exists_rest hx
      obtain ⟨v, k, hyields⟩ := wf.exists_yields (wf.usable_of_rest_cons (wf.proper_itemsOf hi) hr)
      exact ⟨_, .close hv hr hp rfl hyields⟩
  generalize hτ : s :: σ = τ at h
  induction h generalizing s σ i with
  | start =>
    cases hτ
    refine hclosed (fun j hj => ?_) i hi
    rw [wf.kernelOf_start, List.mem_singleton] at hj
    subst hj
    exact ⟨_, .start⟩
  | step hp hs ih =>
    cases hτ
    refine hclosed (fun j hj => ?_) i hi
    obtain ⟨k, hk, hx, rfl⟩ := (wf.mem_kernelOf_goto hs).mp hj
    obtain ⟨t, hv⟩ := ih hk rfl
    exact ⟨t, .advance hv hx hs⟩

/-- The terminal may follow a text of the nonterminal on some path to the state. -/
def Follows (g : Grammar) (s : StateId) (n : NonterminalId) (t : TerminalId) : Prop :=
  ∃ σ γ i t' δ v k, g.Valid (s :: σ) γ i t' ∧ g.rest i = .nonterminal n :: δ ∧ g.Yields δ v k ∧
    v.headD t' = t

/-- What a slot holds is justified by paths. -/
def Justified (g : Grammar) (slot : Nat) (t : TerminalId) : Prop :=
  (∀ s place i, (g.kernelOf s)[place]? = some i → slot = g.slotPlan.ofItem s place →
    ∃ σ γ, g.Valid (s :: σ) γ i t) ∧
  ∀ s n, n < g.nonterminals.size → slot = g.slotPlan.ofNonterminal s n → g.Follows s n t

theorem Justified.valid {slot : Nat} (h : g.Justified slot t) (hi : ⟨i, slot⟩ ∈ g.slotted s) :
    ∃ σ γ, g.Valid (s :: σ) γ i t := by
  rcases mem_slotted_iff.mp hi with ⟨place, hget, hslot⟩ | ⟨p, hp, hstarted, rfl, hslot⟩
  · exact h.1 s place i hget hslot
  · obtain ⟨σ, γ, j, t', δ, v, k, hv, hr, hyields, rfl⟩ := h.2 s _ hstarted.lt hslot
    exact ⟨σ, γ, .close hv hr hp rfl hyields⟩

theorem justified_ofNonterminal (hn : n < g.nonterminals.size) (h : g.Follows s n t) :
    g.Justified (g.slotPlan.ofNonterminal s n) t := by
  refine ⟨fun s' place i hget hslot => ?_, fun s' m hm hslot => ?_⟩
  · exact absurd hslot.symm (ofItem_ne_ofNonterminal (slot_lt_of_place hget) hn)
  · obtain ⟨rfl, rfl⟩ := ofNonterminal_injective hn hm hslot
    exact h

theorem justified_ofItem {place : Nat} (hget : (g.kernelOf s)[place]? = some i)
    (h : ∃ σ γ, g.Valid (s :: σ) γ i t) : g.Justified (g.slotPlan.ofItem s place) t := by
  refine ⟨fun s' place' i' hget' hslot => ?_, fun s' m hm hslot => ?_⟩
  · obtain ⟨rfl, rfl⟩ := ofItem_injective (slot_lt_of_place hget) (slot_lt_of_place hget') hslot
    rw [hget] at hget'
    cases hget'
    exact h
  · exact absurd hslot (ofItem_ne_ofNonterminal (slot_lt_of_place hget) hm)

theorem WellFormed.justified_of_holds (wf : g.WellFormed) {slot : Nat}
    (h : g.lookaheads.Holds slot t) : g.Justified slot t := by
  induction h with
  | seed hs =>
    rcases (testBit_lookaheads_seeds.mp hs).2 with ⟨rfl, rfl⟩ | ⟨s, i, hi, n, δ, hr, rfl, ht⟩
    · exact justified_ofItem (by rw [wf.kernelOf_start]; rfl) ⟨_, _, .start⟩
    · have hmem := wf.proper_itemsOf hi
      obtain ⟨w, k, hw⟩ := (wf.testBit_ofSequence_iff (wf.usable_of_rest_cons hmem hr)).mp ht
      obtain ⟨σ, γ, hpath⟩ := wf.exists_path (lt_stateCount_of_mem hi)
      obtain ⟨t', hv⟩ := wf.exists_valid hpath hi
      exact justified_ofNonterminal (wf.usable_of_next hmem (nextSymbol?_of_rest hr)).2
        ⟨σ, γ, i, t', δ, _, k, hv, hr, hw, rfl⟩
  | edge he _ _ ih =>
    obtain ⟨s, i, hi, ⟨x, hx, htarget⟩ | ⟨n, δ, hr, hnull, rfl⟩⟩ := mem_lookaheads_edges.mp he
    · obtain ⟨s', place, hs, hplace, rfl⟩ := mem_advancedSlot?.mp htarget
      obtain ⟨σ, γ, hv⟩ := ih.valid hi
      exact justified_ofItem (getElem?_of_idxOf? hplace) ⟨_, _, .advance hv hx hs⟩
    · obtain ⟨σ, γ, hv⟩ := ih.valid hi
      obtain ⟨k, hk⟩ := wf.isNullable_iff.mp hnull
      have hmem := wf.proper_itemsOf (mem_itemsOf_of_slotted hi)
      exact justified_ofNonterminal (wf.usable_of_next hmem (nextSymbol?_of_rest hr)).2
        ⟨σ, γ, i, _, δ, [], k, hv, hr, hk, rfl⟩

/-- **Lookahead sets.** They hold what is valid on some path to the state. -/
theorem WellFormed.looksAhead_iff (wf : g.WellFormed) :
    g.LooksAhead s i t ↔ ∃ σ γ, g.Valid (s :: σ) γ i t :=
  ⟨fun ⟨_, hi, hholds⟩ => (wf.justified_of_holds hholds).valid hi,
    fun ⟨_, _, hv⟩ => wf.looksAhead_of_valid hv⟩

theorem WellFormed.lt_of_looksAhead (wf : g.WellFormed) (h : g.LooksAhead s i t) :
    t < g.vocabulary.terminals.size := by
  obtain ⟨slot, -, hholds⟩ := h
  exact (Flow.fits_solve wf.fits_lookaheads).2 slot t (wf.testBit_solve_lookaheads.mpr hholds)

theorem Valid.proper (h : g.Valid σ γ i t) (wf : g.WellFormed) : i.Proper g := by
  cases σ with
  | nil => cases h.path
  | cons s σ => exact wf.proper_itemsOf (wf.looksAhead_of_valid h).mem

/-- The first production is followed by the end of input only. -/
theorem WellFormed.eq_endOfInput (wf : g.WellFormed) (h : g.LooksAhead s i t)
    (hi : i.production = startProduction) : t = Vocabulary.endOfInput := by
  obtain ⟨σ, γ, hv⟩ := wf.looksAhead_iff.mp h
  clear h
  generalize s :: σ = τ at hv
  induction hv with
  | start => rfl
  | advance _ _ _ ih => exact ih hi
  | @close τ _ j _ n _ p _ _ hv hr _ hl _ _ =>
    obtain rfl : p = startProduction := hi
    cases τ with
    | nil => cases hv.path
    | cons s τ =>
      rw [← hl, wf.left_start] at hr
      exact absurd (nextSymbol?_of_rest hr) (wf.next_ne_start (wf.looksAhead_of_valid hv).mem)

end Grammar

end FourGL
