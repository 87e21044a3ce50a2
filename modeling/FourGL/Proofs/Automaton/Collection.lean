import FourGL.Automaton.Basic
import FourGL.Proofs.Automaton.Successors
import FourGL.Proofs.Grammar.WellFormed
import Mathlib.Data.Finset.Powerset
import Mathlib.Tactic.Set

/-!
# The collection of states

Exploring a state enters the kernels that its items lead to, each under one number. Kernels are
ordered lists of items of the grammar, so there are at most as many as there are sets of items, and
the exploration ends with a row of transitions for every state.

**Theorem (`explored_collection`).** The collection of a well-formed grammar is explored: each state
has a row, which holds the numbers of the kernels that are the successors of its items.

**Theorem (`mem_kernelOf_goto`).** The kernel of the state that a symbol leads to holds exactly the
items reached by the symbol.
-/

namespace FourGL

open Std

/-! ## Items of a grammar -/

/-- The item belongs to a production of the grammar. -/
def Item.Proper (g : Grammar) (i : Item) : Prop :=
  i.production < g.productions.size ∧ i.dot ≤ (g.production i.production).right.length

section Items

variable {g : Grammar} {i : Item} {x : Symbol} {p : ProductionId}

theorem Grammar.nextSymbol?_of_rest {β : List Symbol} (h : g.rest i = x :: β) :
    g.nextSymbol? i = some x := by
  rw [Grammar.nextSymbol?, h]
  rfl

theorem Grammar.exists_rest (h : g.nextSymbol? i = some x) : ∃ β, g.rest i = x :: β :=
  List.head?_eq_some_iff.mp h

theorem Grammar.nextSymbol?_eq_getElem? (p : ProductionId) (k : Nat) :
    g.nextSymbol? ⟨p, k⟩ = (g.production p).right[k]? := List.head?_drop

theorem Grammar.dot_lt_length (h : g.nextSymbol? i = some x) :
    i.dot < (g.production i.production).right.length :=
  (List.getElem?_eq_some_iff.mp ((Grammar.nextSymbol?_eq_getElem? _ _).symm.trans h)).1

theorem Item.Proper.advance (hi : i.Proper g) (h : g.nextSymbol? i = some x) :
    i.advance.Proper g := by
  have hdot := Grammar.dot_lt_length h
  refine ⟨hi.1, ?_⟩
  simp only [Item.advance]
  split
  · exact hdot
  · exact Nat.zero_le _

/-! ### Positions that are not the last one -/

theorem Item.advance_of_lt (h : i.dot < maxIndex) : i.advance = ⟨i.production, i.dot + 1⟩ := by
  rw [Item.advance, if_pos h]

theorem Item.dot_advance_le (i : Item) : i.advance.dot ≤ maxIndex := by
  simp only [Item.advance]
  split <;> omega

theorem Grammar.rest_advance {β : List Symbol} (hdot : i.dot < maxIndex) (h : g.rest i = x :: β) :
    g.rest i.advance = β := by
  rw [Item.advance_of_lt hdot, Grammar.rest, ← List.drop_drop, ← Grammar.rest, h]
  rfl

theorem Grammar.rest_eq_cons (hdot : i.dot < maxIndex) (h : g.nextSymbol? i = some x) :
    g.rest i = x :: g.rest i.advance := by
  obtain ⟨β, hβ⟩ := Grammar.exists_rest h
  rw [Grammar.rest_advance hdot hβ, hβ]

/-- No right-hand side is longer than positions reach. -/
def Grammar.Narrow (g : Grammar) : Prop :=
  ∀ p < g.productions.size, (g.production p).right.length ≤ maxIndex

instance : Decidable g.Narrow :=
  inferInstanceAs (Decidable (∀ p < g.productions.size, (g.production p).right.length ≤ maxIndex))

/-- In narrow grammars, no position with a symbol behind it is the last one. -/
theorem Grammar.Narrow.dot_lt (h : g.Narrow) (hi : i.Proper g) (hx : g.nextSymbol? i = some x) :
    i.dot < maxIndex :=
  (Grammar.dot_lt_length hx).trans_le (h _ hi.1)

theorem Item.proper_initial (hp : p < g.productions.size) : (Item.initial p).Proper g :=
  ⟨hp, Nat.zero_le _⟩

/-- Every item of the grammar. -/
def Grammar.allItems (g : Grammar) : List Item :=
  (List.range g.productions.size).flatMap fun p =>
    (List.range ((g.production p).right.length + 1)).map (Item.mk p)

theorem Grammar.mem_allItems : i ∈ g.allItems ↔ i.Proper g := by
  simp only [allItems, List.mem_flatMap, List.mem_range, List.mem_map]
  constructor
  · rintro ⟨p, hp, d, hd, rfl⟩
    exact ⟨hp, Nat.lt_succ_iff.mp hd⟩
  · exact fun ⟨hp, hd⟩ => ⟨i.production, hp, i.dot, Nat.lt_succ_iff.mpr hd, rfl⟩

theorem Grammar.map_production_range :
    (List.range g.productions.size).map g.production = g.productions.toList := by
  refine List.ext_getElem (by simp) fun p hp hp' => ?_
  rw [List.getElem_map, List.getElem_range, production_eq_getElem (by simpa using hp),
    Array.getElem_toList]

theorem Grammar.length_allItems : g.allItems.length = Collection.itemCount g := by
  rw [Collection.itemCount, ← map_production_range, List.foldr_map, allItems, List.length_flatMap]
  simp [List.sum_eq_foldr, List.foldr_map]

end Items

/-! ## Entering kernels -/

namespace Collection

variable {g : Grammar} {c c' : Collection} {kernel : Kernel} {s t : StateId}

/-- Numbers and kernels agree. -/
def Consistent (c : Collection) : Prop :=
  ∀ (kernel : Kernel) (s : StateId), c.numbers[kernel]? = some s ↔ c.kernels[s]? = some kernel

/-- What entering the kernels of some successors keeps and adds. -/
structure Entered (c c' : Collection) (added : List Kernel) : Prop where
  consistent : c'.Consistent
  rows : c'.rows = c.rows
  kept : ∀ (s : StateId) (kernel : Kernel), c.kernels[s]? = some kernel →
    c'.kernels[s]? = some kernel
  grown : c.kernels.size ≤ c'.kernels.size
  origin : ∀ (s : StateId) (kernel : Kernel), c'.kernels[s]? = some kernel →
    c.kernels[s]? = some kernel ∨ kernel ∈ added

theorem Entered.refl (h : c.Consistent) : Entered c c [] :=
  ⟨h, rfl, fun _ _ h => h, Nat.le_refl _, fun _ _ h => Or.inl h⟩

theorem Entered.trans {c'' : Collection} {a b : List Kernel} (h : Entered c c' a)
    (h' : Entered c' c'' b) : Entered c c'' (a ++ b) where
  consistent := h'.consistent
  rows := h'.rows.trans h.rows
  kept s kernel hs := h'.kept s kernel (h.kept s kernel hs)
  grown := h.grown.trans h'.grown
  origin s kernel hs := by
    rw [List.mem_append]
    rcases h'.origin s kernel hs with hs | hb
    · exact (h.origin s kernel hs).imp_right Or.inl
    · exact Or.inr (Or.inr hb)

theorem entered_intern (h : c.Consistent) (kernel : Kernel) :
    Entered c (c.intern kernel).1 [kernel] ∧
      (c.intern kernel).1.kernels[(c.intern kernel).2]? = some kernel ∧
      ∀ t, c.kernels.size ≤ t → t < (c.intern kernel).1.kernels.size → t = (c.intern kernel).2 := by
  cases hn : c.numbers[kernel]? with
  | some s =>
    have hintern : c.intern kernel = (c, s) := by rw [intern]; split <;> simp_all
    rw [hintern]
    refine ⟨⟨h, rfl, fun _ _ h => h, Nat.le_refl _, fun _ _ h => Or.inl h⟩, (h kernel s).mp hn, ?_⟩
    exact fun t ht hlt => absurd hlt (Nat.not_lt.mpr ht)
  | none =>
    have hintern : c.intern kernel = (⟨c.kernels.push kernel,
        c.numbers.insert kernel c.kernels.size, c.rows⟩, c.kernels.size) := by
      rw [intern]; split <;> simp_all
    rw [hintern]
    have hget : ∀ (s : StateId) (k : Kernel), (c.kernels.push kernel)[s]? = some k ↔
        c.kernels[s]? = some k ∨ s = c.kernels.size ∧ k = kernel := fun s k => by
      rw [Array.getElem?_push]
      split
      · next heq =>
        subst heq
        simp [eq_comm]
      · next hne => simp [hne]
    refine ⟨⟨fun k s => ?_, rfl, fun s k hs => (hget s k).mpr (Or.inl hs), by simp,
      fun s k hs => ?_⟩, (hget _ _).mpr (Or.inr ⟨rfl, rfl⟩), fun t ht hlt => ?_⟩
    · rw [hget, TreeMap.getElem?_insert]
      split
      · next heq =>
        have hk : kernel = k := LawfulEqCmp.eq_of_compare heq
        subst hk
        have hnot : c.kernels[s]? ≠ some kernel := fun hs => by
          rw [(h kernel s).mpr hs] at hn
          cases hn
        simp [hnot, eq_comm]
      · next hne =>
        have hk : k ≠ kernel := fun heq => hne (by rw [heq]; exact ReflCmp.compare_self)
        rw [h k s]
        simp [hk]
    · exact ((hget s k).mp hs).imp_right fun h => by simp [h.2]
    · simp only [Array.size_push] at hlt
      omega

/-- The row holds the numbers of the given kernels. -/
def Numbers (c : Collection) (row : List (Symbol × StateId)) (found : List (Symbol × Kernel)) :
    Prop :=
  row.map (fun e => (e.1, c.kernels[e.2]?)) = found.map fun e => (e.1, some e.2)

theorem Numbers.mono {row : List (Symbol × StateId)} {found : List (Symbol × Kernel)}
    (h : c.Numbers row found)
    (kept : ∀ (s : StateId) (kernel : Kernel), c.kernels[s]? = some kernel →
      c'.kernels[s]? = some kernel) : c'.Numbers row found := by
  induction row generalizing found with
  | nil => exact h
  | cons e row ih =>
    cases found with
    | nil => cases h
    | cons f found =>
      obtain ⟨hfirst, hrest⟩ := List.cons.inj h
      obtain ⟨hsymbol, hkernel⟩ := Prod.mk.inj hfirst
      exact congrArg₂ _ (Prod.ext hsymbol (kept _ _ hkernel)) (ih hrest)

theorem Numbers.symbols {row : List (Symbol × StateId)} {found : List (Symbol × Kernel)}
    (h : c.Numbers row found) : row.map Prod.fst = found.map Prod.fst := by
  have := congrArg (List.map Prod.fst) h
  simpa [List.map_map, Function.comp_def] using this

theorem entered_internRow (h : c.Consistent) (found : List (Symbol × Kernel)) :
    Entered c (c.internRow found).1 (found.map (·.2)) ∧
      (c.internRow found).1.Numbers (c.internRow found).2 found ∧
      ∀ t, c.kernels.size ≤ t → t < (c.internRow found).1.kernels.size →
        ∃ e ∈ (c.internRow found).2, e.2 = t := by
  induction found generalizing c with
  | nil => exact ⟨.refl h, rfl, fun t ht hlt => absurd hlt (Nat.not_lt.mpr ht)⟩
  | cons f found ih =>
    obtain ⟨symbol, kernel⟩ := f
    obtain ⟨hone, hnumber, hnew⟩ := entered_intern h kernel
    obtain ⟨hmore, hnumbers, hnews⟩ := ih hone.consistent
    have hrow : c.internRow ((symbol, kernel) :: found) =
        (((c.intern kernel).1.internRow found).1,
          (symbol, (c.intern kernel).2) :: ((c.intern kernel).1.internRow found).2) := rfl
    rw [hrow]
    refine ⟨hone.trans hmore, ?_, fun t ht hlt => ?_⟩
    · exact congrArg₂ List.cons (congrArg (Prod.mk symbol) (hmore.kept _ _ hnumber)) hnumbers
    · by_cases htc : t < (c.intern kernel).1.kernels.size
      · exact ⟨_, List.mem_cons_self, (hnew t ht htc).symm⟩
      · obtain ⟨e, he, rfl⟩ := hnews t (Nat.le_of_not_lt htc) hlt
        exact ⟨e, List.mem_cons_of_mem _ he, rfl⟩

/-! ## Exploring -/

/-- The states found so far, and the rows of those explored, are right. -/
structure Explored (g : Grammar) (c : Collection) : Prop where
  consistent : c.Consistent
  first : c.kernels[Automaton.start]? = some startKernel
  size : c.rows.size ≤ c.kernels.size
  /-- A row numbers the successors of its state. -/
  row : ∀ (s : StateId) (row : List (Symbol × StateId)), c.rows[s]? = some row →
    ∃ kernel, c.kernels[s]? = some kernel ∧
      c.Numbers row (successors g (itemsOf g (leftCorners g) kernel))
  /-- Every state but the first is led to by an earlier one. -/
  source : ∀ t, 0 < t → t < c.kernels.size →
    ∃ s < t, ∃ row, c.rows[s]? = some row ∧ ∃ e ∈ row, e.2 = t
  ordered : ∀ (s : StateId) (kernel : Kernel), c.kernels[s]? = some kernel → Kernel.Ordered kernel
  proper : ∀ (s : StateId) (kernel : Kernel), c.kernels[s]? = some kernel →
    ∀ i ∈ kernel, i.Proper g

theorem proper_startedItems {set : Nat} {i : Item} (hi : i ∈ startedItems g set) :
    i.Proper g := by
  obtain ⟨p, hp, rfl⟩ := List.mem_map.mp hi
  exact Item.proper_initial (List.mem_range.mp (List.mem_filter.mp hp).1)

theorem proper_itemsOf {corners : Levels} (h : ∀ i ∈ kernel, i.Proper g) {i : Item}
    (hi : i ∈ itemsOf g corners kernel) : i.Proper g := by
  rcases List.mem_append.mp hi with hi | hi
  · exact h i hi
  · exact proper_startedItems hi

theorem proper_successor {items : List Item} (h : ∀ i ∈ items, i.Proper g)
    {x : Symbol} (hk : (x, kernel) ∈ successors g items) : ∀ i ∈ kernel, i.Proper g := by
  intro i hi
  obtain ⟨j, hj, hx, rfl⟩ := (mem_successor_iff hk).mp hi
  exact (h j hj).advance hx

theorem explored_initial (wf : g.WellFormed) : Explored g initial where
  consistent kernel s := by
    simp only [initial, TreeMap.getElem?_insert, Array.getElem?_singleton,
      LawfulEqCmp.compare_eq_iff_eq]
    by_cases hk : startKernel = kernel
    · subst hk
      by_cases hs : s = 0 <;> simp [hs, eq_comm]
    · by_cases hs : s = 0 <;> simp [hs, hk]
  first := rfl
  size := Nat.zero_le _
  row s row h := by simp [initial] at h
  source t ht hlt := by
    simp only [initial, List.size_toArray, List.length_singleton] at hlt
    omega
  ordered s kernel h := by
    obtain ⟨hlt, rfl⟩ := Array.getElem?_eq_some_iff.mp h
    have hs : s = 0 := by simpa [initial] using hlt
    subst hs
    exact List.pairwise_singleton _ _
  proper s kernel h i hi := by
    obtain ⟨hlt, rfl⟩ := Array.getElem?_eq_some_iff.mp h
    have hs : s = 0 := by simpa [initial] using hlt
    subst hs
    rw [List.mem_singleton.mp hi]
    exact Item.proper_initial (Array.getElem?_eq_some_iff.mp wf.first).1

theorem Explored.exploreNext (h : Explored g c) (hlt : c.rows.size < c.kernels.size) :
    Explored g (exploreNext g (leftCorners g) c) ∧
      (exploreNext g (leftCorners g) c).rows.size = c.rows.size + 1 := by
  set kernel := c.kernels[c.rows.size] with hkernel
  set found := successors g (itemsOf g (leftCorners g) kernel) with hfound
  obtain ⟨hentered, hnumbers, hnew⟩ := entered_internRow h.consistent found
  have hget : c.kernels[c.rows.size]? = some kernel := Array.getElem?_eq_getElem hlt
  have hstep : Collection.exploreNext g (leftCorners g) c =
      { (c.internRow found).1 with
        rows := (c.internRow found).1.rows.push (c.internRow found).2 } := by
    rw [Collection.exploreNext, hget]
  rw [hstep]
  generalize c.internRow found = result at hentered hnumbers hnew
  obtain ⟨c', row'⟩ := result
  obtain ⟨kernels', numbers', rows'⟩ := c'
  obtain rfl : rows' = c.rows := hentered.rows
  refine ⟨⟨hentered.consistent, hentered.kept _ _ h.first, ?_, fun s row hrow => ?_,
    fun t ht ht' => ?_, fun s k hk => ?_, fun s k hk => ?_⟩, Array.size_push _⟩
  · have := hentered.grown
    simp only [Array.size_push] at this ⊢
    omega
  · rw [Array.getElem?_push] at hrow
    split at hrow
    · next heq =>
      subst heq
      cases hrow
      exact ⟨kernel, hentered.kept _ _ hget, hnumbers⟩
    · obtain ⟨k, hk, hn⟩ := h.row s row hrow
      exact ⟨k, hentered.kept _ _ hk, hn.mono hentered.kept⟩
  · by_cases hold : t < c.kernels.size
    · obtain ⟨s, hs, row, hrow, he⟩ := h.source t ht hold
      have hne : s ≠ c.rows.size := by
        have := (Array.getElem?_eq_some_iff.mp hrow).1
        omega
      refine ⟨s, hs, row, ?_, he⟩
      rw [Array.getElem?_push, if_neg hne]
      exact hrow
    · obtain ⟨e, he, heq⟩ := hnew t (Nat.le_of_not_lt hold) ht'
      refine ⟨c.rows.size, by omega, row', ?_, e, he, heq⟩
      rw [Array.getElem?_push, if_pos rfl]
  · rcases hentered.origin s k hk with hk | hk
    · exact h.ordered s k hk
    · obtain ⟨e, he, rfl⟩ := List.mem_map.mp hk
      exact (gathered_successors g _).ordered e he
  · rcases hentered.origin s k hk with hk | hk
    · exact h.proper s k hk
    · obtain ⟨e, he, rfl⟩ := List.mem_map.mp hk
      exact proper_successor (fun i => proper_itemsOf (h.proper _ _ hget)) he

/-- Kernels are known by their sets of items, of which there are so many. -/
theorem Explored.size_kernels_le (h : Explored g c) : c.kernels.size ≤ 2 ^ itemCount g := by
  have hnodup : c.kernels.toList.Nodup := by
    rw [List.nodup_iff_injective_get]
    intro s t hst
    have hs : c.kernels[s.val]? = some (c.kernels.toList.get s) := by simp
    have ht : c.kernels[t.val]? = some (c.kernels.toList.get s) := by rw [hst]; simp
    have := ((h.consistent _ _).mpr hs).symm.trans ((h.consistent _ _).mpr ht)
    exact Fin.ext (Option.some.inj this)
  have hmem : ∀ kernel ∈ c.kernels.toList, ∃ s : StateId, c.kernels[s]? = some kernel :=
    fun kernel hk => by
      obtain ⟨s, hs, rfl⟩ := Array.mem_iff_getElem.mp (Array.mem_toList_iff.mp hk)
      exact ⟨s, Array.getElem?_eq_getElem hs⟩
  calc c.kernels.size = c.kernels.toList.toFinset.card := by
        rw [List.toFinset_card_of_nodup hnodup, Array.length_toList]
    _ ≤ g.allItems.toFinset.powerset.card := by
        refine Finset.card_le_card_of_injOn List.toFinset (fun kernel hk => ?_) ?_
        · obtain ⟨s, hs⟩ := hmem kernel (List.mem_toFinset.mp hk)
          refine Finset.mem_powerset.mpr fun i hi => ?_
          rw [List.mem_toFinset, Grammar.mem_allItems]
          exact h.proper s kernel hs i (List.mem_toFinset.mp hi)
        · intro a ha b hb hab
          obtain ⟨s, hs⟩ := hmem a (List.mem_toFinset.mp ha)
          obtain ⟨t, ht⟩ := hmem b (List.mem_toFinset.mp hb)
          refine (h.ordered s a hs).eq_of_mem_iff (h.ordered t b ht) fun i => ?_
          rw [← List.mem_toFinset, hab, List.mem_toFinset]
    _ = 2 ^ g.allItems.toFinset.card := Finset.card_powerset _
    _ ≤ 2 ^ itemCount g := by
        refine Nat.pow_le_pow_right (by omega) ?_
        rw [← Grammar.length_allItems]
        exact List.toFinset_card_le _

theorem Explored.explore (h : Explored g c) (n : Nat)
    (enough : 2 ^ itemCount g ≤ n + c.rows.size) :
    Explored g (explore g (leftCorners g) n c) ∧
      (explore g (leftCorners g) n c).rows.size = (explore g (leftCorners g) n c).kernels.size := by
  induction n generalizing c with
  | zero =>
    have := h.size_kernels_le
    have := h.size
    exact ⟨h, by simp only [Collection.explore]; omega⟩
  | succ n ih =>
    simp only [Collection.explore]
    split
    · next hc => exact ⟨h, by simpa [isComplete] using hc⟩
    · next hc =>
      have hne : c.rows.size ≠ c.kernels.size := by simpa [isComplete] using hc
      obtain ⟨hnext, hsize⟩ := h.exploreNext (Nat.lt_of_le_of_ne h.size hne)
      exact ih hnext (by omega)

end Collection

/-! ## The states of a grammar -/

/-- In a list without repeated keys, looking up is membership. -/
theorem lookup_eq_some_iff_mem {α β : Type} [BEq α] [LawfulBEq α] {l : List (α × β)} {a : α} {b : β}
    (h : l.Pairwise fun p q => p.1 ≠ q.1) : l.lookup a = some b ↔ (a, b) ∈ l := by
  rw [List.lookup_eq_some_iff]
  constructor
  · rintro ⟨l₁, l₂, rfl, -⟩
    simp
  · intro hmem
    obtain ⟨l₁, l₂, rfl⟩ := List.append_of_mem hmem
    refine ⟨l₁, l₂, rfl, fun p hp => ?_⟩
    have := (List.pairwise_append.mp h).2.2 p hp (a, b) List.mem_cons_self
    simpa [bne_iff_ne] using this.symm

namespace Grammar

/-- The collection of all states. -/
def collection (g : Grammar) : Collection := .ofGrammar g (leftCorners g)

/-- The number of states. -/
def stateCount (g : Grammar) : Nat := g.collection.kernels.size

/-- The kernel of a state. -/
def kernelOf (g : Grammar) (s : StateId) : Kernel := g.collection.kernels.getD s []

/-- All items of a state. -/
def itemsOf (g : Grammar) (s : StateId) : List Item :=
  Collection.itemsOf g (leftCorners g) (g.kernelOf s)

/-- The state that a symbol leads to. -/
def goto? (g : Grammar) (s : StateId) (x : Symbol) : Option StateId :=
  (g.collection.rows.getD s []).lookup x

variable {g : Grammar} {s t : StateId} {x : Symbol} {i : Item}

/-- **The collection is explored.** Every state has a row. -/
theorem WellFormed.explored_collection (wf : g.WellFormed) :
    Collection.Explored g g.collection ∧
      g.collection.rows.size = g.collection.kernels.size :=
  (Collection.explored_initial wf).explore _ (by rw [Nat.one_shiftLeft]; exact Nat.le_add_right _ _)

theorem WellFormed.kernelOf_start (wf : g.WellFormed) :
    g.kernelOf Automaton.start = [Item.initial startProduction] := by
  rw [kernelOf, Array.getD_eq_getD_getElem?, wf.explored_collection.1.first]
  rfl

theorem kernelOf_of_getElem? {kernel : Kernel} (h : g.collection.kernels[s]? = some kernel) :
    g.kernelOf s = kernel := by
  rw [kernelOf, Array.getD_eq_getD_getElem?, h]
  rfl

theorem getElem?_kernels (h : s < g.stateCount) :
    g.collection.kernels[s]? = some (g.kernelOf s) := by
  rw [kernelOf, Array.getD_eq_getD_getElem?, Array.getElem?_eq_getElem h]
  rfl

theorem kernelOf_of_le (h : g.stateCount ≤ s) : g.kernelOf s = [] := by
  rw [kernelOf, Array.getD_eq_getD_getElem?, Array.getElem?_eq_none h]
  rfl

theorem itemsOf_of_le (h : g.stateCount ≤ s) : g.itemsOf s = [] := by
  rw [itemsOf, kernelOf_of_le h]
  simp [Collection.itemsOf, startedSet, startedItems]

theorem lt_stateCount_of_mem (h : i ∈ g.itemsOf s) : s < g.stateCount := by
  by_contra hle
  rw [itemsOf_of_le (Nat.le_of_not_lt hle)] at h
  cases h

theorem lt_stateCount_of_mem_kernelOf (h : i ∈ g.kernelOf s) : s < g.stateCount := by
  by_contra hle
  rw [kernelOf_of_le (Nat.le_of_not_lt hle)] at h
  cases h

theorem WellFormed.numbers_row (wf : g.WellFormed) (hs : s < g.stateCount) :
    g.collection.Numbers (g.collection.rows.getD s []) (successors g (g.itemsOf s)) := by
  obtain ⟨he, hsize⟩ := wf.explored_collection
  have hrow : g.collection.rows[s]? = some (g.collection.rows.getD s []) := by
    rw [Array.getD_eq_getD_getElem?, Array.getElem?_eq_getElem (by rw [hsize]; exact hs)]
    rfl
  obtain ⟨k, hk, hn⟩ := he.row s _ hrow
  rwa [← kernelOf_of_getElem? hk] at hn

theorem WellFormed.rows_of_le (wf : g.WellFormed) (h : g.stateCount ≤ s) :
    g.collection.rows.getD s [] = [] := by
  rw [Array.getD_eq_getD_getElem?,
    Array.getElem?_eq_none (by rw [wf.explored_collection.2]; exact h)]
  rfl

theorem WellFormed.goto?_eq_some_iff (wf : g.WellFormed) :
    g.goto? s x = some t ↔ (x, t) ∈ g.collection.rows.getD s [] := by
  refine lookup_eq_some_iff_mem ?_
  by_cases hs : s < g.stateCount
  · have hsymbols := (gathered_successors g (g.itemsOf s)).symbols.imp Symbol.ne_of_lt
    rw [← List.pairwise_map (f := Prod.fst)] at hsymbols ⊢
    rwa [(wf.numbers_row hs).symbols]
  · rw [wf.rows_of_le (Nat.le_of_not_lt hs)]
    exact .nil

theorem WellFormed.lt_of_goto? (wf : g.WellFormed) (h : g.goto? s x = some t) :
    s < g.stateCount := by
  by_contra hs
  rw [goto?, wf.rows_of_le (Nat.le_of_not_lt hs)] at h
  cases h

/-- A symbol leads from a state to that of the successor by the symbol. -/
theorem WellFormed.successor_of_goto? (wf : g.WellFormed) (h : g.goto? s x = some t) :
    t < g.stateCount ∧ (x, g.kernelOf t) ∈ successors g (g.itemsOf s) := by
  have hmem := List.mem_map_of_mem (f := fun e => (e.1, g.collection.kernels[e.2]?))
    (wf.goto?_eq_some_iff.mp h)
  rw [wf.numbers_row (wf.lt_of_goto? h)] at hmem
  obtain ⟨⟨y, kernel⟩, hk, heq⟩ := List.mem_map.mp hmem
  obtain ⟨rfl, hkernel⟩ := Prod.mk.inj heq
  refine ⟨(Array.getElem?_eq_some_iff.mp hkernel.symm).1, ?_⟩
  rwa [kernelOf_of_getElem? hkernel.symm]

/-- **Transitions.** The kernel that a symbol leads to holds the items reached by the symbol. -/
theorem WellFormed.mem_kernelOf_goto (wf : g.WellFormed) (h : g.goto? s x = some t) :
    i ∈ g.kernelOf t ↔ ∃ j ∈ g.itemsOf s, g.nextSymbol? j = some x ∧ i = j.advance :=
  mem_successor_iff (wf.successor_of_goto? h).2

theorem WellFormed.kernelOf_goto_ne_nil (wf : g.WellFormed) (h : g.goto? s x = some t) :
    g.kernelOf t ≠ [] :=
  (gathered_successors g _).nonempty _ (wf.successor_of_goto? h).2

/-- Every symbol that an item of a state can read leads to a state. -/
theorem WellFormed.exists_goto (wf : g.WellFormed) (hi : i ∈ g.itemsOf s)
    (hx : g.nextSymbol? i = some x) : ∃ t, g.goto? s x = some t := by
  have hs := lt_stateCount_of_mem hi
  obtain ⟨kernel, hk⟩ := exists_successor hi hx
  have hmem := List.mem_map_of_mem (f := fun e => (e.1, some e.2)) hk
  rw [← wf.numbers_row hs] at hmem
  obtain ⟨⟨y, t⟩, ht, heq⟩ := List.mem_map.mp hmem
  obtain ⟨rfl, -⟩ := Prod.mk.inj heq
  exact ⟨t, wf.goto?_eq_some_iff.mpr ht⟩

/-- Every state but the first is led to by an earlier one. -/
theorem WellFormed.exists_source (wf : g.WellFormed) (ht : 0 < t) (hlt : t < g.stateCount) :
    ∃ s < t, ∃ x, g.goto? s x = some t := by
  obtain ⟨s, hs, row, hrow, ⟨x, _⟩, he, rfl⟩ := wf.explored_collection.1.source t ht hlt
  refine ⟨s, hs, x, wf.goto?_eq_some_iff.mpr ?_⟩
  rw [Array.getD_eq_getD_getElem?, hrow]
  exact he

/-- States with the same items in their kernels are the same. -/
theorem WellFormed.eq_of_kernelOf (wf : g.WellFormed) (hs : s < g.stateCount)
    (ht : t < g.stateCount) (h : ∀ i, i ∈ g.kernelOf s ↔ i ∈ g.kernelOf t) : s = t := by
  have hexplored := wf.explored_collection.1
  have hkernel : g.kernelOf s = g.kernelOf t :=
    Kernel.Ordered.eq_of_mem_iff (hexplored.ordered s _ (getElem?_kernels hs))
      (hexplored.ordered t _ (getElem?_kernels ht)) h
  have hnumber := (hexplored.consistent _ _).mpr (getElem?_kernels hs)
  rw [hkernel, (hexplored.consistent _ _).mpr (getElem?_kernels ht)] at hnumber
  exact (Option.some.inj hnumber).symm

theorem WellFormed.ordered_kernelOf (wf : g.WellFormed) (s : StateId) :
    Kernel.Ordered (g.kernelOf s) := by
  by_cases hs : s < g.stateCount
  · exact wf.explored_collection.1.ordered s _ (getElem?_kernels hs)
  · rw [kernelOf_of_le (Nat.le_of_not_lt hs)]
    exact .nil

theorem WellFormed.nodup_kernelOf (wf : g.WellFormed) (s : StateId) : (g.kernelOf s).Nodup :=
  (wf.ordered_kernelOf s).imp Item.Before.ne

theorem WellFormed.proper_kernelOf (wf : g.WellFormed) (hi : i ∈ g.kernelOf s) : i.Proper g :=
  wf.explored_collection.1.proper s _ (getElem?_kernels (lt_stateCount_of_mem_kernelOf hi)) i hi

theorem WellFormed.proper_itemsOf (wf : g.WellFormed) (hi : i ∈ g.itemsOf s) : i.Proper g :=
  Collection.proper_itemsOf (fun _ => wf.proper_kernelOf) hi

end Grammar

end FourGL
