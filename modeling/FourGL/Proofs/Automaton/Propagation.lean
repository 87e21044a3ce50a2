import FourGL.Proofs.Automaton.ClosureLoop

/-!
# Propagation along the states

The lookahead sets of all kernels can be found with a list of the states that are *waiting*. The last one
is taken off, and its kernel is closed with the sets that it has. Every item of the closure gives its set
to the item one symbol further on, in the state that the symbol leads to. Where a set grows by that, the
state waits again, unless it does already.

**Theorem (`lookaheads_eq_canonical`).** The list of waiting states becomes empty. The set of an item of a
kernel then is the union of its lookaheads in the canonical sets whose core is the kernel, the closing of
these sets ends with the unions for the items of the closure, and the tables are made from the same sets.

A state that is not waiting has given on what it has, or it has nothing yet. So from the canonical set of
the first state on, nothing is left out. And nothing wrong is given on, for a set whose core is the kernel
leads to one whose core is the kernel of the next state.
-/

namespace FourGL

open Std Grammar

/-! ## What is to be found -/

namespace Grammar

variable {g : Grammar} {s s' : StateId} {x : Symbol} {i : Item} {t : TerminalId} {C : Set Item}
  {K K' : CanonicalSet}

/-- The union of the canonical sets whose core is the kernel of the state. -/
def merged (g : Grammar) (s : StateId) : CanonicalSet :=
  {e | ∃ K, g.Canonical K ∧ K.core = {i | i ∈ g.kernelOf s} ∧ e ∈ K}

/-- The union of the closures of these sets. -/
def MergedClosure (g : Grammar) (s : StateId) (i : Item) (t : TerminalId) : Prop :=
  ∃ K, g.Canonical K ∧ K.core = {i | i ∈ g.kernelOf s} ∧ K.Closure g i t

theorem Spread.mono (h : g.Spread C K i t) (hK : K ⊆ K') : g.Spread C K' i t := by
  induction h with
  | kernel he => exact .kernel (hK he)
  | first hi hr hp hl hw => exact .first hi hr hp hl hw
  | pass _ hr hp hl hv ih => exact .pass ih hr hp hl hv

theorem CanonicalSet.Closure.itemClosure (h : K.Closure g i t) : g.ItemClosure K.core i := by
  induction h with
  | kernel he => exact .kernel ⟨_, he⟩
  | close _ hr hp hl _ ih =>
    subst hl
    exact .close ih hp (nextSymbol?_of_rest hr)

/-- What is in the closure of a canonical set is spread from it. -/
theorem CanonicalSet.Closure.spread (h : K.Closure g i t) : g.Spread K.core K i t := by
  induction h with
  | kernel he => exact .kernel he
  | @close i t n δ p v k hclosure hr hp hl hv ih =>
    cases v with
    | nil => exact .pass ih hr hp hl (derives_iff_yields.mpr ⟨k, hv⟩)
    | cons u v => exact .first hclosure.itemClosure hr hp hl (derives_iff_yields.mpr ⟨k, hv⟩)

/-- What is spread from the canonical sets of a state is in their closures. -/
theorem WellFormed.mergedClosure_of_spread (wf : g.WellFormed)
    (h : g.Spread (g.kernelSet s) (g.merged s) i t) : g.MergedClosure s i t := by
  induction h with
  | kernel he =>
    obtain ⟨K, hK, hcore, he⟩ := he
    exact ⟨K, hK, hcore, .kernel he⟩
  | @first i t n δ p w hi hr hp hl hw =>
    -- The item is in some closure, with whatever terminal.
    have hmem := wf.mem_itemsOf_iff_closure.mpr hi
    obtain ⟨σ, γ, hpath⟩ := wf.exists_path (lt_stateCount_of_mem hmem)
    obtain ⟨K, hK, hrep⟩ := wf.exists_canonical hpath
    obtain ⟨u, hu⟩ := (hrep.mem_itemsOf_iff wf).mp hmem
    obtain ⟨k, hy⟩ := derives_iff_yields.mp hw
    exact ⟨K, hK, hrep.core, .close hu hr hp hl hy⟩
  | pass _ hr hp hl hv ih =>
    obtain ⟨K, hK, hcore, hclosure⟩ := ih
    obtain ⟨k, hy⟩ := derives_iff_yields.mp hv
    exact ⟨K, hK, hcore, .close hclosure hr hp hl hy⟩

theorem WellFormed.spread_merged_iff (wf : g.WellFormed) :
    g.Spread (g.kernelSet s) (g.merged s) i t ↔ g.MergedClosure s i t := by
  refine ⟨wf.mergedClosure_of_spread, fun ⟨K, hK, hcore, hclosure⟩ => ?_⟩
  have hspread := hclosure.spread
  rw [hcore] at hspread
  exact hspread.mono fun e he => ⟨K, hK, hcore, he⟩

/-- What follows an item of a state follows the item past a symbol in the next state. -/
theorem MergedClosure.step (h : g.MergedClosure s i t) (wf : g.WellFormed) (hx : g.nextSymbol? i = some x)
    (hgoto : g.goto? s x = some s') : (i.advance, t) ∈ g.merged s' := by
  obtain ⟨K, hK, hcore, hclosure⟩ := h
  obtain ⟨σ, γ, hrep⟩ := hK.exists_represents_of_core wf hcore
  obtain ⟨hne, hstep⟩ := hrep.step wf hgoto
  exact ⟨_, .next hK hne, hstep.core, i, rfl, hx, hclosure⟩

end Grammar

/-! ## The loop -/

/-- Lookahead sets by state and by place in the kernel, and the states that are waiting, the last one
first. -/
structure Propagation where
  sets : Array Levels
  waits : Array Bool
  waiting : List StateId

namespace Propagation

/-- Empty sets for the items of all kernels. -/
def blank (g : Grammar) : Array Levels :=
  g.collection.kernels.map fun kernel => Array.replicate kernel.length 0

/-- Nothing is known but that the end of input follows the first item. The first state is waiting. -/
def initial (g : Grammar) : Propagation where
  sets := (blank g).modify Automaton.start (Levels.pour · 0 (bit Vocabulary.endOfInput))
  waits := (Array.replicate g.stateCount false).setIfInBounds Automaton.start true
  waiting := [Automaton.start]

/-- The sets of the kernel of a state. -/
def levelsOf (c : Propagation) (s : StateId) : Levels := c.sets.getD s #[]

/-- The set of an item of a kernel, by its place. -/
def level (c : Propagation) (s : StateId) (place : Nat) : Nat := (c.levelsOf s).level place

/-- Adds a set to that at a place in a state, which then waits if the set grows by that. -/
def pour (c : Propagation) (s : StateId) (place set : Nat) : Propagation :=
  let sum := c.level s place ||| set
  if sum == c.level s place then c
  else
    let sets := c.sets.modify s (Levels.pour · place set)
    if c.waits.getD s false then { c with sets := sets }
    else ⟨sets, c.waits.setIfInBounds s true, s :: c.waiting⟩

/-- The state and the place of the item one symbol further on. -/
def onward? (g : Grammar) (s : StateId) (i : Item) : Option (StateId × Nat) := do
  let x ← g.nextSymbol? i
  let t ← g.goto? s x
  let place ← (g.kernelOf t).idxOf? i.advance
  return (t, place)

/-- Gives the set of an item of a state to the item one symbol further on. -/
def give (g : Grammar) (s : StateId) (c : Propagation) (e : Item × Nat) : Propagation :=
  match onward? g s e.1 with
  | some (t, place) => c.pour t place e.2
  | none => c

/-- Closes the sets of the last state that is waiting, and gives them on. -/
def step? (g : Grammar) (c : Propagation) : Option Propagation :=
  match c.waiting with
  | s :: waiting =>
    let closed := Closing.close g (g.kernelOf s) (c.levelsOf s)
    some (closed.sets.toList.foldl (give g s)
      { c with waits := c.waits.setIfInBounds s false, waiting := waiting })
  | [] => none

variable {g : Grammar} {c c' c'' : Propagation} {s t : StateId} {place set k : Nat} {i : Item}
  {u : TerminalId} {es fs : List (Item × Nat)}

/-! ## What giving on does -/

theorem levelsOf_modify {waits : Array Bool} {waiting : List StateId} :
    levelsOf ⟨c.sets.modify s (Levels.pour · place set), waits, waiting⟩ t =
      if t = s then (c.levelsOf s).pour place set else c.levelsOf t := by
  simp only [levelsOf, Array.getD_eq_getD_getElem?, Array.getElem?_modify]
  by_cases h : s = t
  · subst h
    cases hs : c.sets[s]? <;> simp [Levels.pour]
  · simp [h, Ne.symm h]

/-- There are sets for all kernels, and states that are marked as waiting are in the list. -/
structure Shaped (g : Grammar) (c : Propagation) : Prop where
  sizes : ∀ s, (c.levelsOf s).size = (g.kernelOf s).length
  marked : ∀ s, c.waits.getD s false = true → s ∈ c.waiting

/-- One propagation comes from another by giving on the sets of some items of a state. -/
structure Given (g : Grammar) (s : StateId) (es : List (Item × Nat)) (c c' : Propagation) : Prop where
  shaped : c'.Shaped g
  testBit_iff : ∀ t k u, (c'.level t k).testBit u = true ↔ (c.level t k).testBit u = true ∨
    ∃ e ∈ es, onward? g s e.1 = some (t, k) ∧ e.2.testBit u = true
  kept : ∀ t ∈ c.waiting, t ∈ c'.waiting
  /-- The sets of a state that is not waiting are as before. -/
  same : ∀ t, t ∉ c'.waiting → c'.levelsOf t = c.levelsOf t

theorem Given.refl (h : c.Shaped g) : Given g s [] c c := by
  refine ⟨h, ?_, ?_, ?_⟩ <;> simp

theorem Given.trans (h : Given g s es c c') (h' : Given g s fs c' c'') :
    Given g s (es ++ fs) c c'' where
  shaped := h'.shaped
  testBit_iff t k u := by
    rw [h'.testBit_iff, h.testBit_iff, or_assoc]
    simp only [List.mem_append, or_and_right, exists_or]
  kept t ht := h'.kept t (h.kept t ht)
  same t ht := (h'.same t ht).trans (h.same t fun hmem => ht (h'.kept t hmem))

theorem onward?_eq_some : onward? g s i = some (t, k) ↔ ∃ x, g.nextSymbol? i = some x ∧
    g.goto? s x = some t ∧ (g.kernelOf t).idxOf? i.advance = some k := by
  simp [onward?, Option.bind_eq_some_iff]

/-- What is poured is in the set then, and the state waits if that is new. -/
theorem pour_cases (c : Propagation) (s : StateId) (place set : Nat) :
    (c.level s place ||| set = c.level s place ∧ c.pour s place set = c) ∨
      (c.level s place ||| set ≠ c.level s place ∧ ∃ waits waiting,
        c.pour s place set = ⟨c.sets.modify s (Levels.pour · place set), waits, waiting⟩ ∧
        (c.waits.getD s false = true ∧ waits = c.waits ∧ waiting = c.waiting ∨
          waits = c.waits.setIfInBounds s true ∧ waiting = s :: c.waiting)) := by
  by_cases h : c.level s place ||| set = c.level s place
  · exact Or.inl ⟨h, by simp [pour, h]⟩
  · refine Or.inr ⟨h, ?_⟩
    by_cases hw : c.waits.getD s false = true
    · exact ⟨c.waits, c.waiting, by rw [pour, if_neg (by simpa using h), if_pos hw],
        Or.inl ⟨hw, rfl, rfl⟩⟩
    · exact ⟨_, _, by rw [pour, if_neg (by simpa using h), if_neg hw], Or.inr ⟨rfl, rfl⟩⟩

theorem Shaped.given_pour (h : c.Shaped g) {e : Item × Nat} (he : onward? g s e.1 = some (t, place)) :
    Given g s [e] c (c.pour t place e.2) := by
  have hplace : place < (c.levelsOf t).size := by
    obtain ⟨x, -, -, hidx⟩ := onward?_eq_some.mp he
    rw [h.sizes]
    exact (List.getElem?_eq_some_iff.mp (getElem?_of_idxOf? hidx)).1
  have hgives : ∀ t' k u, (∃ d ∈ [e], onward? g s d.1 = some (t', k) ∧ d.2.testBit u = true) ↔
      t' = t ∧ k = place ∧ e.2.testBit u = true := by
    intro t' k u
    simp only [List.mem_singleton, exists_eq_left, he, Option.some.injEq, Prod.mk.injEq, and_assoc,
      @eq_comm _ t' t, @eq_comm _ k place]
  rcases pour_cases c t place e.2 with ⟨hsum, heq⟩ | ⟨-, waits, waiting, heq, hwaits⟩
  · rw [heq]
    refine ⟨h, fun t' k u => ?_, fun _ ht => ht, fun _ _ => rfl⟩
    rw [hgives]
    refine ⟨Or.inl, ?_⟩
    rintro (hu | ⟨rfl, rfl, hu⟩)
    · exact hu
    · rw [← hsum, Nat.testBit_or, hu, Bool.or_true]
  · -- In both cases the state is waiting afterwards.
    have hmem : t ∈ waiting ∧ ∀ t' ∈ c.waiting, t' ∈ waiting := by
      rcases hwaits with ⟨hmark, -, rfl⟩ | ⟨-, rfl⟩
      · exact ⟨h.marked t hmark, fun _ ht => ht⟩
      · exact ⟨List.mem_cons_self, fun _ => List.mem_cons_of_mem _⟩
    rw [heq]
    refine ⟨⟨fun t' => ?_, fun t' ht' => ?_⟩, fun t' k u => ?_, hmem.2, fun t' ht' => ?_⟩
    · rw [levelsOf_modify]
      split_ifs with htt
      · rw [Levels.size_pour, h.sizes, htt]
      · exact h.sizes t'
    · rcases hwaits with ⟨-, rfl, rfl⟩ | ⟨rfl, rfl⟩
      · exact h.marked t' ht'
      · by_cases htt : t' = t
        · exact htt ▸ List.mem_cons_self
        · refine List.mem_cons_of_mem _ (h.marked t' ?_)
          simpa [Array.getD_eq_getD_getElem?, Array.getElem?_setIfInBounds, Ne.symm htt] using ht'
    · rw [hgives, level, levelsOf_modify]
      split_ifs with htt
      · subst htt
        rw [Levels.testBit_pour]
        refine or_congr Iff.rfl ⟨fun hk => ⟨rfl, hk.1, hk.2.2⟩, fun hk => ⟨hk.2.1, ?_, hk.2.2⟩⟩
        rw [hk.2.1]
        exact hplace
      · simp [htt, level]
    · rw [levelsOf_modify, if_neg]
      rintro rfl
      exact ht' hmem.1

theorem Shaped.given_foldl (h : c.Shaped g) (s : StateId) (es : List (Item × Nat)) :
    Given g s es c (es.foldl (give g s) c) := by
  induction es generalizing c with
  | nil => exact .refl h
  | cons e es ih =>
    have hfirst : Given g s [e] c (give g s c e) := by
      rw [give]
      split
      · next t place he => exact h.given_pour he
      · next hnone =>
        refine ⟨h, fun t k u => ?_, fun _ ht => ht, fun _ _ => rfl⟩
        simp [hnone]
    exact hfirst.trans (ih hfirst.shaped)

/-! ## What the loop keeps -/

/-- What is known of a state, as a set of items with a terminal each. -/
def found (g : Grammar) (c : Propagation) (s : StateId) : CanonicalSet :=
  .ofLevels (g.kernelOf s) (c.levelsOf s)

/-- What is known of a state has been given on. -/
def GivesOn (g : Grammar) (c : Propagation) (s : StateId) : Prop :=
  ∀ i u, g.Spread (g.kernelSet s) (c.found g s) i u → ∀ t k, onward? g s i = some (t, k) →
    (c.level t k).testBit u = true

structure Invariant (g : Grammar) (c : Propagation) : Prop where
  shaped : c.Shaped g
  /-- What is known is right. -/
  sound : ∀ s, c.found g s ⊆ g.merged s
  first : (c.level Automaton.start 0).testBit Vocabulary.endOfInput = true
  /-- A state that is not waiting has given on what it has, unless it has nothing. -/
  settled : ∀ s, s ∉ c.waiting → c.found g s = ∅ ∨ GivesOn g c s

variable {waiting : List StateId}

theorem mem_found (h : (g.kernelOf s)[k]? = some i) (hu : (c.level s k).testBit u = true) :
    (i, u) ∈ c.found g s := ⟨k, h, hu⟩

theorem exists_of_testBit (h : c.Shaped g) (hu : (c.level s k).testBit u = true) :
    ∃ i, (g.kernelOf s)[k]? = some i := by
  have hk : k < (g.kernelOf s).length := by
    by_contra hle
    rw [level, Levels.level_eq_zero_of_le (by rw [h.sizes]; omega), Nat.zero_testBit] at hu
    cases hu
  exact ⟨_, List.getElem?_eq_getElem hk⟩

/-- The sets hold terminals of the vocabulary. -/
theorem Invariant.lt (h : c.Invariant g) (wf : g.WellFormed) (hu : (c.level s k).testBit u = true) :
    u < g.vocabulary.terminals.size := by
  obtain ⟨i, hi⟩ := exists_of_testBit h.shaped hu
  obtain ⟨K, hK, hcore, hmem⟩ := h.sound s (mem_found hi hu)
  have hlook := wf.foresees_iff_exists_canonical.mpr ⟨K, hK, hcore, .kernel hmem⟩
  exact wf.lt_of_looksAhead (wf.foresees_iff.mp hlook)

/-- What the closing of a state ends with. -/
theorem Invariant.closed (h : c.Invariant g) (wf : g.WellFormed) (s : StateId) :
    ∀ i u, ((Closing.close g (g.kernelOf s) (c.levelsOf s)).level i).testBit u = true ↔
      g.Spread (g.kernelSet s) (c.found g s) i u :=
  (Closing.exists_closed wf (wf.nodup_kernelOf s) (fun _ => wf.proper_kernelOf) fun _ _ => h.lt wf).2.2

theorem step?_eq_some (hstep : step? g c = some c') : ∃ s waiting, c.waiting = s :: waiting ∧
    c' = (Closing.close g (g.kernelOf s) (c.levelsOf s)).sets.toList.foldl (give g s)
      { c with waits := c.waits.setIfInBounds s false, waiting := waiting } := by
  simp only [step?] at hstep
  split at hstep
  · next s waiting hw => exact ⟨s, waiting, hw, (Option.some.inj hstep).symm⟩
  · cases hstep

theorem mem_closed_toList {closing : Closing} {v : Nat} (h : (i, v) ∈ closing.sets.toList) :
    closing.level i = v := by
  rw [Closing.level, TreeMap.getD_eq_getD_getElem?, TreeMap.mem_toList_iff_getElem?_eq_some.mp h]
  rfl

theorem exists_mem_toList {closing : Closing} (h : (closing.level i).testBit u = true) :
    (i, closing.level i) ∈ closing.sets.toList := by
  have hmem : i ∈ closing.sets := by
    by_contra hnot
    rw [Closing.level, TreeMap.getD_eq_fallback hnot, Nat.zero_testBit] at h
    cases h
  rw [TreeMap.mem_toList_iff_getElem?_eq_some, Closing.level, TreeMap.getD_eq_getD_getElem?,
    TreeMap.getElem?_eq_some_getElem hmem]
  rfl

/-- What is given on from a state that was waiting is right, and a state that does not wait afterwards has
given on what it has. -/
theorem Invariant.given (h : c.Invariant g) (wf : g.WellFormed) (hw : c.waiting = s :: waiting)
    {popped : Propagation} (hgiven : Given g s es popped c') (hlevels : popped.levelsOf = c.levelsOf)
    (hpopped : popped.waiting = waiting)
    (hes : ∀ i u, (∃ v, (i, v) ∈ es ∧ v.testBit u = true) ↔
      g.Spread (g.kernelSet s) (c.found g s) i u) : c'.Invariant g := by
  have hlevel : popped.level = c.level := by
    funext t k
    rw [level, level, hlevels]
  have hbits := hgiven.testBit_iff
  rw [hlevel] at hbits
  refine ⟨hgiven.shaped, fun t => ?_, (hbits _ _ _).mpr (Or.inl h.first), fun t ht => ?_⟩
  · rintro ⟨j, u⟩ ⟨k, hj, hu⟩
    rcases (hbits t k u).mp hu with hold | ⟨⟨i, v⟩, he, hon, hv⟩
    · exact h.sound t (mem_found hj hold)
    · obtain ⟨x, hx, hgoto, hidx⟩ := onward?_eq_some.mp hon
      obtain rfl : j = i.advance := Option.some.inj (hj.symm.trans (getElem?_of_idxOf? hidx))
      have hspread := ((hes i u).mp ⟨v, he, hv⟩).mono (h.sound s)
      exact (wf.mergedClosure_of_spread hspread).step wf hx hgoto
  · have hfound : c'.found g t = c.found g t := by
      rw [found, found, hgiven.same t ht, hlevels]
    by_cases hts : t = s
    · subst hts
      refine Or.inr fun i u hspread t' k hon => ?_
      rw [hfound] at hspread
      obtain ⟨v, he, hu⟩ := (hes i u).mpr hspread
      exact (hbits t' k u).mpr (Or.inr ⟨(i, v), he, hon, hu⟩)
    · have hnot : t ∉ c.waiting := fun hmem => by
        rw [hw] at hmem
        exact ht (hgiven.kept t (hpopped ▸ (List.mem_cons.mp hmem).resolve_left hts))
      refine (h.settled t hnot).imp (fun hempty => hfound.trans hempty) fun hon i u hspread t' k hi => ?_
      rw [hfound] at hspread
      exact (hbits _ _ _).mpr (Or.inl (hon i u hspread t' k hi))

/-- A state that is taken off the list is no longer marked. -/
theorem Shaped.pop (h : c.Shaped g) (hw : c.waiting = s :: waiting) :
    Shaped g { c with waits := c.waits.setIfInBounds s false, waiting := waiting } := by
  refine ⟨h.sizes, fun t ht => ?_⟩
  have hts : s ≠ t := by
    rintro rfl
    rw [Array.getD_eq_getD_getElem?, Array.getElem?_setIfInBounds, if_pos rfl] at ht
    split at ht <;> cases ht
  have hmem : t ∈ c.waiting := by
    refine h.marked t ?_
    simpa [Array.getD_eq_getD_getElem?, Array.getElem?_setIfInBounds, hts] using ht
  rw [hw] at hmem
  exact (List.mem_cons.mp hmem).resolve_left (Ne.symm hts)

/-- **A step.** -/
theorem Invariant.step (h : c.Invariant g) (wf : g.WellFormed) (hstep : step? g c = some c') :
    c'.Invariant g := by
  obtain ⟨s, waiting, hw, rfl⟩ := step?_eq_some hstep
  refine h.given wf hw ((h.shaped.pop hw).given_foldl s _) rfl rfl fun i u => ?_
  rw [← h.closed wf s]
  constructor
  · rintro ⟨v, hv, hu⟩
    rwa [mem_closed_toList hv]
  · exact fun hu => ⟨_, exists_mem_toList hu, hu⟩

/-! ## The beginning -/

theorem levelsOf_blank {waits : Array Bool} {waiting : List StateId} :
    levelsOf ⟨blank g, waits, waiting⟩ s = Array.replicate (g.kernelOf s).length 0 := by
  rw [levelsOf, blank, kernelOf, Array.getD_eq_getD_getElem?, Array.getD_eq_getD_getElem?,
    Array.getElem?_map]
  cases g.collection.kernels[s]? <;> rfl

theorem levelsOf_initial : (initial g).levelsOf s =
    if s = Automaton.start then
      Levels.pour (Array.replicate (g.kernelOf s).length 0) 0 (bit Vocabulary.endOfInput)
    else Array.replicate (g.kernelOf s).length 0 := by
  refine (levelsOf_modify (c := ⟨blank g, #[], []⟩)).trans ?_
  rw [levelsOf_blank, levelsOf_blank]
  split_ifs with h
  · rw [h]
  · rfl

theorem testBit_initial (wf : g.WellFormed) : ((initial g).level s k).testBit u = true ↔
    s = Automaton.start ∧ k = 0 ∧ u = Vocabulary.endOfInput := by
  rw [level, levelsOf_initial]
  split_ifs with h
  · rw [Levels.testBit_pour, level_replicate_zero, Nat.zero_testBit, testBit_bit, h, wf.kernelOf_start,
      Array.size_replicate]
    simp only [Bool.false_eq_true, false_or, true_and]
    exact and_congr_right fun hk => and_iff_right (by rw [hk]; exact Nat.one_pos)
  · rw [level_replicate_zero, Nat.zero_testBit]
    simp [h]

theorem invariant_initial (wf : g.WellFormed) : (initial g).Invariant g where
  shaped := by
    refine ⟨fun s => ?_, fun s hs => ?_⟩
    · rw [levelsOf_initial]
      split_ifs
      · rw [Levels.size_pour, Array.size_replicate]
      · rw [Array.size_replicate]
    · by_contra hne
      have hne' : Automaton.start ≠ s := fun h => hne (h ▸ List.mem_cons_self)
      simp [initial, Array.getD_eq_getD_getElem?, hne', Array.getElem?_replicate] at hs
      split at hs <;> cases hs
  sound s := by
    rintro ⟨i, u⟩ ⟨k, hi, hu⟩
    obtain ⟨rfl, rfl, rfl⟩ := (testBit_initial wf).mp hu
    rw [wf.kernelOf_start] at hi
    cases hi
    exact ⟨_, .first, wf.represents_start.core, rfl⟩
  first := (testBit_initial wf).mpr ⟨rfl, rfl, rfl⟩
  settled s hs := by
    refine Or.inl (Set.eq_empty_of_forall_notMem ?_)
    rintro ⟨i, u⟩ ⟨k, -, hu⟩
    obtain ⟨rfl, -, -⟩ := (testBit_initial wf).mp hu
    exact hs List.mem_cons_self

/-! ## What is left to do -/

/-- The places in kernels with the terminals in their sets. -/
def given (g : Grammar) (c : Propagation) : Finset ((StateId × Nat) × TerminalId) :=
  ((Finset.range g.stateCount ×ˢ Finset.range g.slotPlan.kernelSlots) ×ˢ
    Finset.range g.vocabulary.terminals.size).filter fun e =>
      (c.level e.1.1 e.1.2).testBit e.2 = true

/-- How much there is to know. -/
def room (g : Grammar) : Nat :=
  g.stateCount * g.slotPlan.kernelSlots * g.vocabulary.terminals.size

/-- What is left to do: the states that are waiting, and whatever may still make one wait. -/
def left (g : Grammar) (c : Propagation) : Nat := 2 * (room g - (c.given g).card) + c.waiting.length

theorem card_given_le (g : Grammar) (c : Propagation) : (c.given g).card ≤ room g := by
  refine (Finset.card_filter_le _ _).trans_eq ?_
  rw [Finset.card_product, Finset.card_product, Finset.card_range, Finset.card_range, Finset.card_range,
    room]

theorem Shaped.left_pour_le (h : c.Shaped g) (wf : g.WellFormed) {e : Item × Nat}
    (he : onward? g s e.1 = some (t, k))
    (hset : ∀ u, e.2.testBit u = true → u < g.vocabulary.terminals.size) :
    (c.pour t k e.2).left g ≤ c.left g := by
  rcases pour_cases c t k e.2 with ⟨-, heq⟩ | ⟨hnew, waits, waiting, heq, hwaits⟩
  · rw [heq]
  · have hgiven := h.given_pour he
    have hsubset : c.given g ⊆ (c.pour t k e.2).given g :=
      Finset.monotone_filter_right _ fun d _ hd => (hgiven.testBit_iff _ _ _).mpr (Or.inl hd)
    obtain ⟨x, -, hgoto, hidx⟩ := onward?_eq_some.mp he
    obtain ⟨u, hu, hnone⟩ := exists_testBit_of_or_ne hnew
    have hlt : (c.given g).card < ((c.pour t k e.2).given g).card := by
      refine Finset.card_lt_card ((Finset.ssubset_iff_of_subset hsubset).mpr ⟨((t, k), u), ?_, ?_⟩)
      · refine Finset.mem_filter.mpr ⟨Finset.mem_product.mpr ⟨Finset.mem_product.mpr
          ⟨Finset.mem_range.mpr (wf.successor_of_goto? hgoto).1, Finset.mem_range.mpr ?_⟩,
          Finset.mem_range.mpr (hset u hu)⟩, ?_⟩
        · exact slot_lt_of_place (getElem?_of_idxOf? hidx)
        · exact (hgiven.testBit_iff _ _ _).mpr (Or.inr ⟨e, List.mem_cons_self, he, hu⟩)
      · exact fun hmem => hnone (Finset.mem_filter.mp hmem).2
    have hle := card_given_le g (c.pour t k e.2)
    have hlength : (c.pour t k e.2).waiting.length ≤ c.waiting.length + 1 := by
      rw [heq]
      rcases hwaits with ⟨-, -, rfl⟩ | ⟨-, rfl⟩
      · exact Nat.le_succ _
      · exact le_rfl
    rw [left, left]
    omega

theorem Shaped.left_foldl_le (h : c.Shaped g) (wf : g.WellFormed)
    (hset : ∀ e ∈ es, ∀ u, e.2.testBit u = true → u < g.vocabulary.terminals.size) :
    (es.foldl (give g s) c).left g ≤ c.left g := by
  induction es generalizing c with
  | nil => exact le_rfl
  | cons e es ih =>
    obtain ⟨he, hes⟩ := List.forall_mem_cons.mp hset
    refine (ih (h.given_foldl s [e]).shaped hes).trans ?_
    show (give g s c e).left g ≤ c.left g
    rw [give]
    split
    · next t k hon => exact h.left_pour_le wf hon he
    · exact le_rfl

theorem Invariant.left_lt (h : c.Invariant g) (wf : g.WellFormed) (hstep : step? g c = some c') :
    c'.left g < c.left g := by
  obtain ⟨s, waiting, hw, rfl⟩ := step?_eq_some hstep
  refine Nat.lt_of_le_of_lt ((h.shaped.pop hw).left_foldl_le wf fun e he u hu => ?_) ?_
  · rw [← mem_closed_toList (i := e.1) he, h.closed wf] at hu
    refine hu.lt wf (fun _ => wf.proper_kernelOf) ?_
    rintro d ⟨k, -, hd⟩
    exact h.lt wf hd
  · rw [left, left, hw, List.length_cons]
    exact Nat.lt_succ_self _

/-! ## The end of the loop -/

/-- Where nothing is waiting, nothing is left out. -/
theorem Invariant.complete (h : c.Invariant g) (wf : g.WellFormed) (hdone : c.waiting = []) :
    c.found g s = g.merged s := by
  refine Set.Subset.antisymm (h.sound s) ?_
  rintro e ⟨K, hK, hcore, he⟩
  induction hK generalizing s e with
  | first =>
    obtain rfl := wf.eq_of_core (Canonical.first (g := g)).nonempty hcore wf.represents_start.core
    cases he
    exact mem_found (by rw [wf.kernelOf_start]; rfl) h.first
  | @next K x hK hne ih =>
    obtain ⟨s₀, σ, γ, hrep⟩ := hK.exists_represents wf
    obtain ⟨i, hi, hx, hclosure⟩ := he
    have hmem := (hrep.mem_itemsOf_iff wf).mpr ⟨e.2, hclosure⟩
    obtain ⟨s', hgoto⟩ := wf.exists_goto hmem hx
    obtain rfl := wf.eq_of_core hne hcore (hrep.step wf hgoto).2.core
    -- The state before it is not waiting, and it has something.
    have hfound : K ⊆ c.found g s₀ := fun d hd => ih hrep.core hd
    have hspread : g.Spread (g.kernelSet s₀) (c.found g s₀) i e.2 := by
      have hspread := hclosure.spread
      rw [hrep.core] at hspread
      exact hspread.mono hfound
    have hon : GivesOn g c s₀ := by
      refine (h.settled s₀ (by simp [hdone])).resolve_left fun hempty => ?_
      obtain ⟨d, hd⟩ := hK.nonempty
      exact Set.eq_empty_iff_forall_notMem.mp hempty d (hfound hd)
    obtain ⟨k, hk⟩ := exists_idxOf? ((wf.mem_kernelOf_goto hgoto).mpr ⟨i, hmem, hx, rfl⟩)
    have hbit := hon i e.2 hspread s k (onward?_eq_some.mpr ⟨x, hx, hgoto, hk⟩)
    rw [← Prod.mk.eta (p := e), hi]
    exact mem_found (getElem?_of_idxOf? hk) hbit

variable {n : Nat}

/-- The closing of a state, which ends within what is allowed it. -/
def Closes (g : Grammar) (c : Propagation) (s : StateId) (closing : Closing) : Prop :=
  ∃ n, ComesToEnd (Closing.step? g) n (.ofKernel (g.kernelOf s) (c.levelsOf s)) closing

theorem Invariant.closes (h : c.Invariant g) (wf : g.WellFormed) (s : StateId) :
    Closes g c s (Closing.close g (g.kernelOf s) (c.levelsOf s)) := by
  have hfits : ∀ k u, ((c.levelsOf s).level k).testBit u = true → u < g.vocabulary.terminals.size :=
    fun _ _ => h.lt wf
  obtain ⟨⟨n, -, hloop⟩, -⟩ :=
    Closing.exists_closed wf (wf.nodup_kernelOf s) (fun _ => wf.proper_kernelOf) hfits
  exact ⟨n, hloop⟩

/-- The sets are those of the canonical collection. -/
structure Exact (g : Grammar) (c : Propagation) : Prop where
  /-- The set of an item of a kernel, by its place, is the union of those that the item has in the
  canonical sets whose core is the kernel. -/
  kernel : ∀ s k i t, (g.kernelOf s)[k]? = some i → ((c.level s k).testBit t = true ↔
    ∃ K, g.Canonical K ∧ K.core = {i | i ∈ g.kernelOf s} ∧ (i, t) ∈ K)
  /-- The closing of a state has the items of the state, -/
  items : ∀ s closing, Closes g c s closing → ∀ i, i ∈ closing.sets ↔ i ∈ g.itemsOf s
  /-- with the unions of what they have in the closures of these sets. -/
  closure : ∀ s closing, Closes g c s closing → ∀ i t, (closing.level i).testBit t = true ↔
    ∃ K, g.Canonical K ∧ K.core = {i | i ∈ g.kernelOf s} ∧ K.Closure g i t
  /-- The tables are made from the same sets. -/
  tables : ∀ s closing, Closes g c s closing → ∀ i t, (closing.level i).testBit t = true ↔
    g.Foresees s i t

theorem Invariant.exact (h : c.Invariant g) (wf : g.WellFormed) (hdone : c.waiting = []) :
    c.Exact g := by
  have hclose : ∀ s closing, Closes g c s closing →
      closing = Closing.close g (g.kernelOf s) (c.levelsOf s) := by
    rintro s closing ⟨n, hn⟩
    obtain ⟨m, hm⟩ := h.closes wf s
    exact hn.unique hm
  have hclosure : ∀ s closing, Closes g c s closing → ∀ i t, (closing.level i).testBit t = true ↔
      g.MergedClosure s i t := by
    intro s closing hcloses i t
    rw [hclose s closing hcloses, h.closed wf, h.complete wf hdone]
    exact wf.spread_merged_iff
  refine ⟨fun s k i t hk => ?_, fun s closing hcloses i => ?_, hclosure, fun s closing hcloses i t => ?_⟩
  · show _ ↔ (i, t) ∈ g.merged s
    rw [← h.complete wf hdone]
    refine ⟨mem_found hk, ?_⟩
    rintro ⟨l, hl, ht⟩
    have hlt := (List.getElem?_eq_some_iff.mp hk).1
    rwa [(List.getElem?_inj hlt (wf.nodup_kernelOf s)).mp (hk.trans hl.symm)]
  · rw [hclose s closing hcloses, wf.mem_itemsOf_iff_closure]
    exact (Closing.exists_closed wf (wf.nodup_kernelOf s) (fun _ => wf.proper_kernelOf)
      fun _ _ => h.lt wf).2.1 i
  · rw [hclosure s closing hcloses, wf.foresees_iff_exists_canonical]
    rfl

theorem Invariant.of_steps (h : c.Invariant g) (wf : g.WellFormed)
    (hsteps : Relation.ReflTransGen (fun c c' => step? g c = some c') c c') : c'.Invariant g := by
  induction hsteps with
  | refl => exact h
  | tail _ hstep ih => exact ih.step wf hstep

theorem exists_exact (wf : g.WellFormed) :
    ∃ n, ∃ c, ComesToEnd (step? g) n (initial g) c ∧ c.Exact g := by
  have hkeeps : ∀ a b : Propagation, a.Invariant g → step? g a = some b → b.Invariant g :=
    fun a b ha hstep => ha.step wf hstep
  obtain ⟨n, -, c, hloop⟩ := exists_comesToEnd (left g) hkeeps
    (fun a b ha hstep => ha.left_lt wf hstep) (invariant_initial wf)
  have hdone : c.waiting = [] := by
    have hnone := hloop.ended
    simp only [step?] at hnone
    split at hnone
    · cases hnone
    · assumption
  exact ⟨n, c, hloop, (hloop.keeps hkeeps (invariant_initial wf)).exact wf hdone⟩

end Propagation

/-- **The lookahead sets are those of the canonical collection.** The list of waiting states becomes
empty, and what is found then is the union over the canonical sets of a state. Every closing on the way
ends, and so do the loops before. -/
theorem lookaheads_eq_canonical {g : Grammar} (hg : g.IsBuilt) :
    (∃ n c, ComesToEnd (Propagation.step? g) n (.initial g) c ∧ c.Exact g) ∧
    (∀ c, Relation.ReflTransGen (fun c c' => Propagation.step? g c = some c') (.initial g) c →
      ∀ s, ∃ closing, Propagation.Closes g c s closing) ∧
    g.AtRest := by
  have wf := wellFormed_of_isBuilt hg
  refine ⟨Propagation.exists_exact wf, fun c hsteps s => ?_, wf.atRest⟩
  exact ⟨_, ((Propagation.invariant_initial wf).of_steps wf hsteps).closes wf s⟩

/-- In the grammar of the plus sign, the end of input is found to follow the first item. -/
theorem lookaheads_eq_canonical_plus : ∃ g : Grammar, g.IsBuilt ∧ ∃ n c,
    ComesToEnd (Propagation.step? g) n (.initial g) c ∧
      (c.level Automaton.start 0).testBit Vocabulary.endOfInput = true := by
  obtain ⟨g, hbuild⟩ := exists_build_plus
  have hg : g.IsBuilt := ⟨"signs", plusSteps, hbuild⟩
  have wf := wellFormed_of_isBuilt hg
  obtain ⟨⟨n, c, hloop, hexact⟩, -, -⟩ := lookaheads_eq_canonical hg
  refine ⟨g, hg, n, c, hloop, ?_⟩
  refine (hexact.kernel _ _ _ _ (by rw [wf.kernelOf_start]; rfl)).mpr ?_
  exact ⟨_, .first, wf.represents_start.core, rfl⟩

end FourGL
