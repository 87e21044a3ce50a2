import FourGL.Proofs.Automaton.Canonical
import FourGL.Proofs.Automaton.FirstLoop
import FourGL.Proofs.Automaton.ItemLoop

/-!
# The closure of lookahead sets in one loop

Where the items of a kernel have lookahead sets, the items that come in with them get theirs by a loop
over items that are *pending*. The last one is taken off. If it is before a nonterminal, the productions
of the nonterminal get the first set of what follows, and the set of the item as well if that can vanish.
A production that is new, or whose set has grown, becomes pending again.

**Theorem (`exists_closed`).** The loop ends. The items are then those of the closure of the kernel, and a
set holds exactly what is spread to the item.

An item that is not pending has passed on what it has (`Invariant.step`): its set does not grow without
its becoming pending, and what it was passed on to only grows. Every time that an item becomes pending
more is known, of which there is only so much.
-/

namespace FourGL

open Std Grammar

namespace Grammar

variable {g : Grammar} {C : Set Item} {K : CanonicalSet} {i : Item} {t : TerminalId}
  {δ : List Symbol} {own : Nat}

/-! ## What is spread -/

/-- The lookahead sets of a closure, from those of the kernel. An item before a nonterminal brings in
what may come next behind that, whether it has a terminal itself or not. -/
inductive Spread (g : Grammar) (C : Set Item) (K : CanonicalSet) : Item → TerminalId → Prop
  | kernel {i : Item} {t : TerminalId} : (i, t) ∈ K → Spread g C K i t
  | first {i : Item} {t : TerminalId} {n : NonterminalId} {δ : List Symbol} {p : ProductionId}
      {w : List TerminalId} : g.ItemClosure C i → g.rest i = .nonterminal n :: δ →
      p < g.productions.size → (g.production p).left = n → g.Derives δ (t :: w) →
      Spread g C K (.initial p) t
  | pass {i : Item} {t : TerminalId} {n : NonterminalId} {δ : List Symbol} {p : ProductionId} :
      Spread g C K i t → g.rest i = .nonterminal n :: δ → p < g.productions.size →
      (g.production p).left = n → g.Derives δ [] → Spread g C K (.initial p) t

/-- The items of a kernel with the terminals in their sets, by the places in the kernel. -/
def CanonicalSet.ofLevels (kernel : Kernel) (levels : Levels) : CanonicalSet :=
  {e | ∃ k, kernel[k]? = some e.1 ∧ (levels.level k).testBit e.2 = true}

/-- What the productions of a nonterminal get from an item before it: the first set of what follows, and
the set of the item if that can vanish. -/
def passedOn (g : Grammar) (δ : List Symbol) (own : Nat) : Nat :=
  let seen := (FirstSets.ofGrammar g).look δ
  if seen.2 then seen.1 ||| own else seen.1

theorem WellFormed.testBit_passedOn (wf : g.WellFormed)
    (hδ : ∀ x ∈ δ, x.Usable g.vocabulary g.nonterminals.size) :
    (g.passedOn δ own).testBit t = true ↔
      (∃ w, g.Derives δ (t :: w)) ∨ g.Derives δ [] ∧ own.testBit t = true := by
  obtain ⟨hnullable, hfirst⟩ := wf.look_iff hδ
  rw [← hfirst t, ← hnullable, passedOn]
  split_ifs with hvanishes
  · simp [hvanishes]
  · simp [hvanishes]

theorem WellFormed.lt_of_derives (wf : g.WellFormed) {w : List TerminalId}
    (hδ : ∀ x ∈ δ, x.Usable g.vocabulary g.nonterminals.size) (h : g.Derives δ (t :: w)) :
    t < g.vocabulary.terminals.size := by
  obtain ⟨k, hy⟩ := derives_iff_yields.mp h
  exact (wf.usable_of_yields hy hδ t List.mem_cons_self).2

theorem ItemClosure.proper (h : g.ItemClosure C i) (hC : ∀ i ∈ C, i.Proper g) : i.Proper g := by
  cases h with
  | kernel hi => exact hC i hi
  | close _ hp _ => exact Item.proper_initial hp

/-- Only terminals of the vocabulary are spread. -/
theorem Spread.lt (h : g.Spread C K i t) (wf : g.WellFormed) (hC : ∀ i ∈ C, i.Proper g)
    (hK : ∀ e ∈ K, e.2 < g.vocabulary.terminals.size) : t < g.vocabulary.terminals.size := by
  induction h with
  | kernel hmem => exact hK _ hmem
  | first hi hr _ _ hw => exact wf.lt_of_derives (wf.usable_of_rest_cons (hi.proper hC) hr) hw
  | pass _ _ _ _ _ ih => exact ih

end Grammar

/-! ## The loop -/

/-- The items that have come in, with their sets, and those that are pending, the last one first. -/
structure Closing where
  sets : TreeMap Item Nat
  pending : List Item

namespace Closing

/-- The items of a kernel, with their sets by their places, all pending. -/
def ofKernel (kernel : Kernel) (levels : Levels) : Closing :=
  ⟨.ofList (kernel.zipIdx.map fun e => (e.1, levels.level e.2)), kernel.reverse⟩

/-- The set of an item. -/
def level (c : Closing) (i : Item) : Nat := c.sets.getD i 0

/-- Adds a set to that of the start of a production, which becomes pending if it is new or if its set
grows. -/
def pour (set : Nat) (c : Closing) (p : ProductionId) : Closing :=
  let sum := c.level (.initial p) ||| set
  if c.sets.contains (.initial p) && sum == c.level (.initial p) then c
  else ⟨c.sets.insert (.initial p) sum, .initial p :: c.pending⟩

/-- Passes on what an item has to the productions of the nonterminal next in it. -/
def visit (g : Grammar) (c : Closing) (i : Item) : Closing :=
  match g.rest i with
  | .nonterminal n :: δ => (g.productionsOf n).foldl (pour (g.passedOn δ (c.level i))) c
  | _ => c

/-- Visits the last item that is pending. -/
def step? (g : Grammar) (c : Closing) : Option Closing :=
  match c.pending with
  | i :: pending => some (visit g { c with pending := pending } i)
  | [] => none

variable {g : Grammar} {kernel : Kernel} {levels : Levels} {c c' c'' : Closing} {i : Item}
  {p : ProductionId} {ps qs : List ProductionId} {t : TerminalId} {set : Nat}

/-! ## What a visit does -/

theorem pour_cases (set : Nat) (c : Closing) (p : ProductionId) :
    (.initial p ∈ c.sets ∧ c.level (.initial p) ||| set = c.level (.initial p) ∧ c.pour set p = c) ∨
      (.initial p ∈ c.sets → c.level (.initial p) ||| set ≠ c.level (.initial p)) ∧
        c.pour set p =
          ⟨c.sets.insert (.initial p) (c.level (.initial p) ||| set), .initial p :: c.pending⟩ := by
  by_cases h : .initial p ∈ c.sets ∧ c.level (.initial p) ||| set = c.level (.initial p)
  · exact Or.inl ⟨h.1, h.2, by simp [pour, h.1, h.2]⟩
  · refine Or.inr ⟨fun hmem heq => h ⟨hmem, heq⟩, ?_⟩
    rw [pour, if_neg]
    simpa using h

theorem level_insert {v : Nat} {l : List Item} :
    level ⟨c.sets.insert (.initial p) v, l⟩ i = if i = .initial p then v else c.level i := by
  simp only [level, TreeMap.getD_insert, LawfulEqCmp.compare_eq_iff_eq, @eq_comm _ i]

theorem mem_insert (v : Nat) : i ∈ c.sets.insert (.initial p) v ↔ i ∈ c.sets ∨ i = .initial p := by
  rw [TreeMap.mem_insert, LawfulEqCmp.compare_eq_iff_eq, or_comm, eq_comm]

/-- One closing comes from another by pouring a set into the starts of productions. -/
structure Poured (set : Nat) (ps : List ProductionId) (c c' : Closing) : Prop where
  mem_iff : ∀ i, i ∈ c'.sets ↔ i ∈ c.sets ∨ ∃ p ∈ ps, i = .initial p
  testBit_iff : ∀ i t, (c'.level i).testBit t = true ↔
    (c.level i).testBit t = true ∨ (∃ p ∈ ps, i = .initial p) ∧ set.testBit t = true
  kept : ∀ i ∈ c.pending, i ∈ c'.pending
  fresh : ∀ i ∈ c'.pending, i ∈ c.pending ∨ ∃ p ∈ ps, i = .initial p
  /-- What is not pending is not new, and its set has not grown. -/
  same : ∀ i ∈ c'.sets, i ∉ c'.pending → i ∈ c.sets ∧ c'.level i = c.level i

theorem Poured.refl (set : Nat) (c : Closing) : Poured set [] c c := by
  constructor <;> simp +contextual

theorem Poured.trans (h : Poured set ps c c') (h' : Poured set qs c' c'') :
    Poured set (ps ++ qs) c c'' where
  mem_iff i := by
    rw [h'.mem_iff, h.mem_iff, or_assoc]
    simp only [List.mem_append, or_and_right, exists_or]
  testBit_iff i t := by
    rw [h'.testBit_iff, h.testBit_iff, or_assoc, ← or_and_right]
    simp only [List.mem_append, or_and_right, exists_or]
  kept i hi := h'.kept i (h.kept i hi)
  fresh i hi := by
    rcases h'.fresh i hi with hi | ⟨p, hp, rfl⟩
    · rcases h.fresh i hi with hi | ⟨p, hp, rfl⟩
      · exact Or.inl hi
      · exact Or.inr ⟨p, List.mem_append_left _ hp, rfl⟩
    · exact Or.inr ⟨p, List.mem_append_right _ hp, rfl⟩
  same i hi hpending := by
    obtain ⟨hi, hlevel⟩ := h'.same i hi hpending
    obtain ⟨hi, hlevel'⟩ := h.same i hi fun hmem => hpending (h'.kept i hmem)
    exact ⟨hi, hlevel.trans hlevel'⟩

theorem poured_pour (set : Nat) (c : Closing) (p : ProductionId) :
    Poured set [p] c (c.pour set p) := by
  rcases pour_cases set c p with ⟨hmem, hsum, heq⟩ | ⟨hnew, heq⟩
  · rw [heq]
    refine ⟨fun i => ?_, fun i t => ?_, fun _ h => h, fun _ h => Or.inl h, fun _ h _ => ⟨h, rfl⟩⟩
    · simpa using fun hi => hi ▸ hmem
    · refine ⟨Or.inl, ?_⟩
      rintro (ht | ⟨⟨q, hq, rfl⟩, ht⟩)
      · exact ht
      · rw [List.mem_singleton.mp hq, ← hsum, Nat.testBit_or, ht, Bool.or_true]
  · rw [heq]
    refine ⟨fun i => ?_, fun i t => ?_, fun _ h => List.mem_cons_of_mem _ h, fun i hi => ?_,
      fun i hi hpending => ?_⟩
    · simpa using mem_insert (c.level (.initial p) ||| set)
    · rw [level_insert]
      split_ifs with h
      · simp [h]
      · simp [h]
    · rcases List.mem_cons.mp hi with rfl | hi
      · exact Or.inr ⟨p, List.mem_cons_self, rfl⟩
      · exact Or.inl hi
    · have hne : i ≠ .initial p := fun h => hpending (h ▸ List.mem_cons_self)
      exact ⟨((mem_insert _).mp hi).resolve_right hne, level_insert.trans (if_neg hne)⟩

theorem poured_foldl (set : Nat) (ps : List ProductionId) (c : Closing) :
    Poured set ps c (ps.foldl (pour set) c) := by
  induction ps generalizing c with
  | nil => exact .refl set c
  | cons p ps ih => exact (poured_pour set c p).trans (ih (c.pour set p))

/-! ## What the loop keeps -/

/-- What is known so far is right. -/
structure Sound (g : Grammar) (C : Set Item) (K : CanonicalSet) (c : Closing) : Prop where
  closure : ∀ i ∈ c.sets, g.ItemClosure C i
  spread : ∀ i t, (c.level i).testBit t = true → g.Spread C K i t
  pending : ∀ i ∈ c.pending, i ∈ c.sets
  /-- The kernel is in. -/
  start : ∀ i ∈ C, i ∈ c.sets
  kernel : ∀ e ∈ K, (c.level e.1).testBit e.2 = true

/-- The productions of the nonterminal next in the item have come in, and have what it passes on. -/
def Passes (g : Grammar) (c : Closing) (i : Item) : Prop :=
  ∀ n δ, g.rest i = .nonterminal n :: δ → ∀ p < g.productions.size, (g.production p).left = n →
    .initial p ∈ c.sets ∧
      ∀ t, (g.passedOn δ (c.level i)).testBit t = true → (c.level (.initial p)).testBit t = true

/-- What is not pending has passed on what it has. -/
structure Invariant (g : Grammar) (C : Set Item) (K : CanonicalSet) (c : Closing) : Prop where
  sound : c.Sound g C K
  passes : ∀ i ∈ c.sets, i ∉ c.pending → Passes g c i

variable {C : Set Item} {K : CanonicalSet}

/-- An item that is not pending goes on having passed on what it has, whatever is poured. -/
theorem Passes.poured (h : Passes g c i) (hpoured : Poured set ps c c')
    (hlevel : c'.level i = c.level i) : Passes g c' i := by
  intro n δ hr p hp hleft
  obtain ⟨hmem, hbits⟩ := h n δ hr p hp hleft
  rw [hlevel]
  exact ⟨(hpoured.mem_iff _).mpr (Or.inl hmem), fun t ht =>
    (hpoured.testBit_iff _ t).mpr (Or.inl (hbits t ht))⟩

/-- What a visit pours, and into what. -/
theorem exists_poured_visit (g : Grammar) (c : Closing) (i : Item) :
    (∃ n δ, g.rest i = .nonterminal n :: δ ∧
      Poured (g.passedOn δ (c.level i)) (g.productionsOf n) c (visit g c i)) ∨
    (∀ n δ, g.rest i ≠ .nonterminal n :: δ) ∧ visit g c i = c := by
  rw [visit]
  split
  · next n δ hr => exact Or.inl ⟨n, δ, hr, poured_foldl _ _ _⟩
  · next hnone => exact Or.inr ⟨hnone, rfl⟩

theorem Sound.visit (h : c.Sound g C K) (wf : g.WellFormed) (hC : ∀ i ∈ C, i.Proper g)
    (hi : i ∈ c.sets) : (visit g c i).Sound g C K := by
  rcases exists_poured_visit g c i with ⟨n, δ, hr, hpoured⟩ | ⟨-, heq⟩
  · have hclosure := h.closure i hi
    have hδ := wf.usable_of_rest_cons (hclosure.proper hC) hr
    refine ⟨fun j hj => ?_, fun j t ht => ?_, fun j hj => ?_, fun j hj => ?_, fun e he => ?_⟩
    · rcases (hpoured.mem_iff j).mp hj with hj | ⟨p, hp, rfl⟩
      · exact h.closure j hj
      · obtain ⟨hlt, rfl⟩ := mem_productionsOf.mp hp
        exact .close hclosure hlt (nextSymbol?_of_rest hr)
    · rcases (hpoured.testBit_iff j t).mp ht with ht | ⟨⟨p, hp, rfl⟩, hset⟩
      · exact h.spread j t ht
      · obtain ⟨hlt, hleft⟩ := mem_productionsOf.mp hp
        rcases (wf.testBit_passedOn hδ).mp hset with ⟨w, hw⟩ | ⟨hvanishes, ht⟩
        · exact .first hclosure hr hlt hleft hw
        · exact .pass (h.spread i t ht) hr hlt hleft hvanishes
    · rcases hpoured.fresh j hj with hj | hp
      · exact (hpoured.mem_iff j).mpr (Or.inl (h.pending j hj))
      · exact (hpoured.mem_iff j).mpr (Or.inr hp)
    · exact (hpoured.mem_iff j).mpr (Or.inl (h.start j hj))
    · exact (hpoured.testBit_iff e.1 e.2).mpr (Or.inl (h.kernel e he))
  · rwa [heq]

theorem step?_eq_some (hstep : step? g c = some c') : ∃ i pending, c.pending = i :: pending ∧
    c' = visit g { c with pending := pending } i := by
  simp only [step?] at hstep
  split at hstep
  · next i pending hp => exact ⟨i, pending, hp, (Option.some.inj hstep).symm⟩
  · cases hstep

/-- **A step.** The item that is visited has passed on what it has, unless it is pending again. -/
theorem Invariant.step (h : c.Invariant g C K) (wf : g.WellFormed) (hC : ∀ i ∈ C, i.Proper g)
    (hstep : step? g c = some c') : c'.Invariant g C K := by
  obtain ⟨i, pending, hp, rfl⟩ := step?_eq_some hstep
  have hi : i ∈ c.sets := h.sound.pending i (hp ▸ List.mem_cons_self)
  have hsound : Sound g C K { c with pending := pending } :=
    ⟨h.sound.closure, h.sound.spread, fun j hj => h.sound.pending j (hp ▸ List.mem_cons_of_mem _ hj),
      h.sound.start, h.sound.kernel⟩
  have hothers : ∀ j ∈ c.sets, j ∉ pending → j ≠ i → Passes g { c with pending := pending } j :=
    fun j hj hnot hne => h.passes j hj (by simp [hp, hne, hnot])
  refine ⟨hsound.visit wf hC hi, fun j hj hnot => ?_⟩
  rcases exists_poured_visit g { c with pending := pending } i with ⟨n, δ, hr, hpoured⟩ | ⟨hnone, heq⟩
  · obtain ⟨hold, hlevel⟩ := hpoured.same j hj hnot
    by_cases hji : j = i
    · -- What the item has is what it has just been asked for.
      subst hji
      intro m ε hr' p hlt hleft
      obtain ⟨hn, rfl⟩ := List.cons.inj (hr.symm.trans hr')
      obtain rfl := Symbol.nonterminal.inj hn
      have hmem : p ∈ g.productionsOf n := mem_productionsOf.mpr ⟨hlt, hleft⟩
      refine ⟨(hpoured.mem_iff _).mpr (Or.inr ⟨p, hmem, rfl⟩), fun t ht => ?_⟩
      rw [hlevel] at ht
      exact (hpoured.testBit_iff _ t).mpr (Or.inr ⟨⟨p, hmem, rfl⟩, ht⟩)
    · exact (hothers j hold (fun hmem => hnot (hpoured.kept j hmem)) hji).poured hpoured hlevel
  · rw [heq] at hj hnot ⊢
    by_cases hji : j = i
    · subst hji
      exact fun n δ hr => absurd hr (hnone n δ)
    · exact hothers j hj hnot hji

/-! ## What is left to do -/

/-- The productions whose start has come in. -/
def started (g : Grammar) (c : Closing) : Finset ProductionId :=
  (Finset.range g.productions.size).filter fun p => c.sets.contains (.initial p) = true

/-- The productions with the terminals in the sets of their starts. -/
def given (g : Grammar) (c : Closing) : Finset (ProductionId × TerminalId) :=
  (Finset.range g.productions.size ×ˢ Finset.range g.vocabulary.terminals.size).filter fun e =>
    (c.level (.initial e.1)).testBit e.2 = true

/-- How much is known. -/
def known (g : Grammar) (c : Closing) : Nat := (c.started g).card + (c.given g).card

/-- How much there is to know. -/
def room (g : Grammar) : Nat := g.productions.size * (g.vocabulary.terminals.size + 1)

/-- What is left to do: what is pending, and whatever may still become pending. -/
def left (g : Grammar) (c : Closing) : Nat := 2 * (room g - c.known g) + c.pending.length

theorem known_le (g : Grammar) (c : Closing) : c.known g ≤ room g := by
  have hstarted : (c.started g).card ≤ _ := Finset.card_filter_le _ _
  have hgiven : (c.given g).card ≤ _ := Finset.card_filter_le _ _
  rw [Finset.card_range] at hstarted
  rw [Finset.card_product, Finset.card_range, Finset.card_range] at hgiven
  rw [known, room, Nat.mul_add, Nat.mul_one, Nat.add_comm]
  exact Nat.add_le_add hgiven hstarted

/-- A set that is new to the start of a production makes more known. -/
theorem known_lt_pour (hp : p < g.productions.size)
    (hset : ∀ t, set.testBit t = true → t < g.vocabulary.terminals.size)
    (hnew : .initial p ∈ c.sets → c.level (.initial p) ||| set ≠ c.level (.initial p)) :
    c.known g < (c.pour set p).known g := by
  have hpoured := poured_pour set c p
  have hstarted : c.started g ⊆ (c.pour set p).started g :=
    Finset.monotone_filter_right _ fun q _ hq =>
      TreeMap.contains_iff_mem.mpr ((hpoured.mem_iff _).mpr (Or.inl (TreeMap.contains_iff_mem.mp hq)))
  have hgiven : c.given g ⊆ (c.pour set p).given g :=
    Finset.monotone_filter_right _ fun e _ he => (hpoured.testBit_iff _ _).mpr (Or.inl he)
  by_cases hmem : .initial p ∈ c.sets
  · obtain ⟨t, ht, hnone⟩ := exists_testBit_of_or_ne (hnew hmem)
    refine Nat.add_lt_add_of_le_of_lt (Finset.card_le_card hstarted) (Finset.card_lt_card ?_)
    refine (Finset.ssubset_iff_of_subset hgiven).mpr ⟨(p, t), ?_, fun h => ?_⟩
    · refine Finset.mem_filter.mpr ⟨Finset.mem_product.mpr ⟨Finset.mem_range.mpr hp,
        Finset.mem_range.mpr (hset t ht)⟩, ?_⟩
      exact (hpoured.testBit_iff _ _).mpr (Or.inr ⟨⟨p, List.mem_cons_self, rfl⟩, ht⟩)
    · exact hnone (Finset.mem_filter.mp h).2
  · refine Nat.add_lt_add_of_lt_of_le (Finset.card_lt_card ?_) (Finset.card_le_card hgiven)
    refine (Finset.ssubset_iff_of_subset hstarted).mpr ⟨p, ?_, fun h => ?_⟩
    · refine Finset.mem_filter.mpr ⟨Finset.mem_range.mpr hp, TreeMap.contains_iff_mem.mpr ?_⟩
      exact (hpoured.mem_iff _).mpr (Or.inr ⟨p, List.mem_cons_self, rfl⟩)
    · exact hmem (TreeMap.contains_iff_mem.mp (Finset.mem_filter.mp h).2)

theorem left_pour_le (hp : p < g.productions.size)
    (hset : ∀ t, set.testBit t = true → t < g.vocabulary.terminals.size) :
    (c.pour set p).left g ≤ c.left g := by
  rcases pour_cases set c p with ⟨-, -, heq⟩ | ⟨hnew, heq⟩
  · rw [heq]
  · have hlt := known_lt_pour hp hset hnew
    have hle := known_le g (c.pour set p)
    have hlength : (c.pour set p).pending.length = c.pending.length + 1 := by
      rw [heq, List.length_cons]
    rw [left, left, hlength]
    omega

theorem left_foldl_le (hps : ∀ p ∈ ps, p < g.productions.size)
    (hset : ∀ t, set.testBit t = true → t < g.vocabulary.terminals.size) :
    (ps.foldl (pour set) c).left g ≤ c.left g := by
  induction ps generalizing c with
  | nil => exact le_rfl
  | cons p ps ih =>
    obtain ⟨hp, hps⟩ := List.forall_mem_cons.mp hps
    exact (ih hps).trans (left_pour_le hp hset)

theorem Invariant.left_lt (h : c.Invariant g C K) (wf : g.WellFormed) (hC : ∀ i ∈ C, i.Proper g)
    (hK : ∀ e ∈ K, e.2 < g.vocabulary.terminals.size) (hstep : step? g c = some c') :
    c'.left g < c.left g := by
  obtain ⟨i, pending, hp, rfl⟩ := step?_eq_some hstep
  have hclosure := h.sound.closure i (h.sound.pending i (hp ▸ List.mem_cons_self))
  have hpop : left g { c with pending := pending } < c.left g := by
    rw [left, left, hp, List.length_cons]
    exact Nat.lt_succ_self _
  refine Nat.lt_of_le_of_lt ?_ hpop
  rw [visit]
  split
  · next n δ hr =>
    have hδ := wf.usable_of_rest_cons (hclosure.proper hC) hr
    refine left_foldl_le (fun p hp => (mem_productionsOf.mp hp).1) fun t ht => ?_
    rcases (wf.testBit_passedOn hδ).mp ht with ⟨w, hw⟩ | ⟨-, ht⟩
    · exact wf.lt_of_derives hδ hw
    · exact (h.sound.spread i t ht).lt wf hC hK
  · exact le_rfl

/-! ## The end of the loop -/

theorem mem_ofKernel : i ∈ (ofKernel kernel levels).sets ↔ i ∈ kernel := by
  simp [ofKernel, TreeMap.mem_ofList, List.mem_iff_getElem?]

theorem testBit_ofKernel (h : kernel.Nodup) : ((ofKernel kernel levels).level i).testBit t = true ↔
    (i, t) ∈ CanonicalSet.ofLevels kernel levels := by
  have hdistinct : (kernel.zipIdx.map fun e => (e.1, levels.level e.2)).Pairwise
      fun a b => ¬ compare a.1 b.1 = .eq := by
    have hfirst : (kernel.zipIdx.map Prod.fst).Nodup := by rwa [List.zipIdx_map_fst]
    refine List.pairwise_map.mpr ((List.pairwise_map.mp hfirst).imp fun hne heq => hne ?_)
    exact LawfulEqCmp.eq_of_compare heq
  have hlevel : ∀ k, kernel[k]? = some i → (ofKernel kernel levels).level i = levels.level k := by
    intro k hk
    refine TreeMap.getD_ofList_of_mem ReflCmp.compare_self hdistinct ?_
    exact List.mem_map.mpr ⟨(i, k), List.mem_zipIdx_iff_getElem?.mpr hk, rfl⟩
  constructor
  · intro ht
    by_cases hi : i ∈ kernel
    · obtain ⟨k, hk⟩ := List.mem_iff_getElem?.mp hi
      rw [hlevel k hk] at ht
      exact ⟨k, hk, ht⟩
    · rw [level, TreeMap.getD_eq_fallback fun hmem => hi (mem_ofKernel.mp hmem), Nat.zero_testBit] at ht
      cases ht
  · rintro ⟨k, hk, ht⟩
    rwa [hlevel k hk]

theorem invariant_ofKernel (h : kernel.Nodup) : (ofKernel kernel levels).Invariant g
    {i | i ∈ kernel} (.ofLevels kernel levels) where
  sound :=
    { closure := fun _ hi => .kernel (mem_ofKernel.mp hi)
      spread := fun _ _ ht => .kernel ((testBit_ofKernel h).mp ht)
      pending := fun _ hi => mem_ofKernel.mpr (List.mem_reverse.mp hi)
      start := fun _ hi => mem_ofKernel.mpr hi
      kernel := fun _ he => (testBit_ofKernel h).mpr he }
  passes _ hi hnot := absurd (List.mem_reverse.mpr (mem_ofKernel.mp hi)) hnot

/-- Where everything has been passed on, all that is to be spread has been. -/
theorem Invariant.complete (h : c.Invariant g C K) (wf : g.WellFormed) (hC : ∀ i ∈ C, i.Proper g)
    (hdone : c.pending = []) : (∀ i, i ∈ c.sets ↔ g.ItemClosure C i) ∧
      ∀ i t, (c.level i).testBit t = true ↔ g.Spread C K i t := by
  have hpasses : ∀ i ∈ c.sets, Passes g c i := fun i hi => h.passes i hi (by simp [hdone])
  have hmem : ∀ i, g.ItemClosure C i → i ∈ c.sets := by
    intro i hi
    induction hi with
    | kernel hi => exact h.sound.start _ hi
    | close _ hp hx ih =>
      obtain ⟨δ, hr⟩ := exists_rest hx
      exact (hpasses _ ih _ _ hr _ hp rfl).1
  refine ⟨fun i => ⟨h.sound.closure i, hmem i⟩, fun i t => ⟨h.sound.spread i t, fun hspread => ?_⟩⟩
  induction hspread with
  | kernel he => exact h.sound.kernel _ he
  | first hi hr hp hleft hw =>
    have hδ := wf.usable_of_rest_cons (hi.proper hC) hr
    exact (hpasses _ (hmem _ hi) _ _ hr _ hp hleft).2 _
      ((wf.testBit_passedOn hδ).mpr (Or.inl ⟨_, hw⟩))
  | @pass i t n δ p hspread hr hp hleft hvanishes ih =>
    have hi : i ∈ c.sets := by
      by_contra hnot
      rw [level, TreeMap.getD_eq_fallback hnot, Nat.zero_testBit] at ih
      cases ih
    have hδ := wf.usable_of_rest_cons ((h.sound.closure i hi).proper hC) hr
    exact (hpasses i hi _ _ hr _ hp hleft).2 _ ((wf.testBit_passedOn hδ).mpr (Or.inr ⟨hvanishes, ih⟩))

/-- The steps that the loop may take. -/
def allowance (g : Grammar) (kernel : Kernel) : Nat := 2 * room g + kernel.length

/-- The closing that the loop ends with. -/
def close (g : Grammar) (kernel : Kernel) (levels : Levels) : Closing :=
  runOut (step? g) (allowance g kernel) (ofKernel kernel levels)

/-- **The loop.** From the sets of a kernel on, it ends, with the closure of the kernel and with what is
spread in it. -/
theorem exists_closed (wf : g.WellFormed) (hnodup : kernel.Nodup)
    (hproper : ∀ i ∈ kernel, i.Proper g)
    (hfits : ∀ k t, (levels.level k).testBit t = true → t < g.vocabulary.terminals.size) :
    (∃ n ≤ allowance g kernel,
      ComesToEnd (step? g) n (ofKernel kernel levels) (close g kernel levels)) ∧
    (∀ i, i ∈ (close g kernel levels).sets ↔ g.ItemClosure {i | i ∈ kernel} i) ∧
    ∀ i t, ((close g kernel levels).level i).testBit t = true ↔
      g.Spread {i | i ∈ kernel} (.ofLevels kernel levels) i t := by
  have hK : ∀ e ∈ CanonicalSet.ofLevels kernel levels, e.2 < g.vocabulary.terminals.size := by
    rintro e ⟨k, -, ht⟩
    exact hfits k e.2 ht
  have hstart : (ofKernel kernel levels).Invariant g {i | i ∈ kernel} (.ofLevels kernel levels) :=
    invariant_ofKernel hnodup
  have hkeeps : ∀ a b, a.Invariant g {i | i ∈ kernel} (.ofLevels kernel levels) →
      step? g a = some b → b.Invariant g {i | i ∈ kernel} (.ofLevels kernel levels) :=
    fun a b ha hstep => ha.step wf hproper hstep
  obtain ⟨n, hn, c, hloop⟩ := exists_comesToEnd (left g) hkeeps
    (fun a b ha hstep => ha.left_lt wf hproper hK hstep) hstart
  have hn' : n ≤ allowance g kernel := by
    refine hn.trans (Nat.add_le_add (Nat.mul_le_mul_left 2 (Nat.sub_le _ _)) ?_)
    rw [ofKernel, List.length_reverse]
  have hclose : close g kernel levels = c := hloop.runOut_eq hn'
  have hdone : c.pending = [] := by
    have hnone := hloop.ended
    simp only [step?] at hnone
    split at hnone
    · cases hnone
    · assumption
  rw [hclose]
  exact ⟨⟨n, hn', hloop⟩, (hloop.keeps hkeeps hstart).complete wf hproper hdone⟩

end Closing

end FourGL
