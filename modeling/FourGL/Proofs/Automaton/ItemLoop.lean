import FourGL.Proofs.Automaton.Items
import FourGL.Proofs.Closure.Ending
import Mathlib.Data.Set.Basic
import Std.Data.TreeSet

/-!
# The closure of a kernel in one loop

The *closure* of a set of items adds, with an item before a nonterminal, the productions of the
nonterminal. It can be found by going through a list that grows meanwhile. The list starts as the kernel,
and an item before a nonterminal puts the productions of the nonterminal at its end, as far as they have
not been seen before.

**Theorem (`exists_gathered`).** The loop ends, with every item of the closure in the list, and no item
twice. For the kernel of a state these are the items of the state, and they lead to the same successors.

What has been gone through is closed, since the list keeps what has been put into it
(`Sound.step`). A step either goes on or sees something new, of which there is no more than there are
productions.
-/

namespace FourGL

open Std

namespace Grammar

variable {g : Grammar} {s : StateId} {i : Item} {p : ProductionId} {n : NonterminalId} {K : Set Item}

/-! ## Closures -/

/-- What comes in with the items of a set. -/
inductive ItemClosure (g : Grammar) (K : Set Item) : Item → Prop
  | kernel {i : Item} : i ∈ K → ItemClosure g K i
  | close {i : Item} {p : ProductionId} : ItemClosure g K i → p < g.productions.size →
      g.nextSymbol? i = some (.nonterminal (g.production p).left) → ItemClosure g K (.initial p)

/-- The items of a state's kernel. -/
def kernelSet (g : Grammar) (s : StateId) : Set Item := {i | i ∈ g.kernelOf s}

theorem WellFormed.mem_itemsOf_iff_closure (wf : g.WellFormed) :
    i ∈ g.itemsOf s ↔ g.ItemClosure (g.kernelSet s) i := by
  constructor
  · refine wf.itemsOf_induction (fun i hi => .kernel hi) (fun i _ hclosure p hp hx => ?_) i
    exact .close hclosure hp hx
  · intro h
    induction h with
    | kernel hi => exact kernelOf_subset_itemsOf hi
    | close _ hp hx ih => exact wf.initial_mem_itemsOf ih hx hp rfl

/-- The productions of a nonterminal, in order. -/
def productionsOf (g : Grammar) (n : NonterminalId) : List ProductionId :=
  (List.range g.productions.size).filter fun p => (g.production p).left = n

theorem mem_productionsOf :
    p ∈ g.productionsOf n ↔ p < g.productions.size ∧ (g.production p).left = n := by
  simp [productionsOf]

end Grammar

/-! ## The loop -/

/-- A list of items that is gone through while it grows. -/
structure Gathering where
  items : List Item
  seen : TreeSet Item
  /-- The place in the list that comes next. -/
  index : Nat

namespace Gathering

/-- The kernel has been seen. -/
def ofKernel (kernel : Kernel) : Gathering := ⟨kernel, .ofList kernel, 0⟩

/-- Puts the start of a production at the end of the list if it has not been seen before. -/
def add (c : Gathering) (p : ProductionId) : Gathering :=
  if c.seen.contains (.initial p) then c
  else { c with items := c.items ++ [.initial p], seen := c.seen.insert (.initial p) }

/-- Adds the productions of the nonterminal next in the item. -/
def close (g : Grammar) (c : Gathering) (i : Item) : Gathering :=
  match g.nextSymbol? i with
  | some (.nonterminal n) => (g.productionsOf n).foldl add c
  | _ => c

/-- Goes on by one place. -/
def step? (g : Grammar) (c : Gathering) : Option Gathering :=
  match c.items[c.index]? with
  | some i => some { close g c i with index := c.index + 1 }
  | none => none

variable {g : Grammar} {kernel : Kernel} {c c' : Gathering} {i : Item} {p : ProductionId}
  {ps : List ProductionId}

/-! ## What the list keeps -/

/-- The list has each item once, those of the kernel first, and what has been seen is in it. -/
structure Sound (g : Grammar) (kernel : Kernel) (c : Gathering) : Prop where
  seen : ∀ i, i ∈ c.seen ↔ i ∈ c.items
  nodup : c.items.Nodup
  start : kernel <+: c.items
  closure : ∀ i ∈ c.items, g.ItemClosure {i | i ∈ kernel} i

theorem sound_ofKernel (h : kernel.Nodup) : (ofKernel kernel).Sound g kernel where
  seen i := by simp [ofKernel, TreeSet.mem_ofList]
  nodup := h
  start := List.prefix_rfl
  closure _ hi := .kernel hi

theorem prefix_add : c.items <+: (c.add p).items := by
  rw [add]
  split_ifs
  · exact List.prefix_rfl
  · exact List.prefix_append _ _

theorem prefix_foldl_add : c.items <+: (ps.foldl add c).items := by
  induction ps generalizing c with
  | nil => exact List.prefix_rfl
  | cons p ps ih => exact prefix_add.trans ih

theorem prefix_close : c.items <+: (close g c i).items := by
  rw [close]
  split
  · exact prefix_foldl_add
  · exact List.prefix_rfl

theorem Sound.initial_mem_add (h : c.Sound g kernel) : .initial p ∈ (c.add p).items := by
  rw [add]
  split_ifs with hseen
  · exact (h.seen _).mp hseen
  · simp

theorem Sound.add (h : c.Sound g kernel) (hp : g.ItemClosure {i | i ∈ kernel} (.initial p)) :
    (c.add p).Sound g kernel := by
  rw [Gathering.add]
  split_ifs with hseen
  · exact h
  have hnew : .initial p ∉ c.items := fun hmem => hseen ((h.seen _).mpr hmem)
  refine ⟨fun i => ?_, ?_, h.start.trans (List.prefix_append _ _), fun i hi => ?_⟩
  · rw [TreeSet.mem_insert, h.seen, List.mem_append, List.mem_singleton, LawfulEqCmp.compare_eq_iff_eq,
      or_comm, eq_comm]
  · exact List.nodup_append.mpr ⟨h.nodup, List.nodup_singleton _, fun i hi j hj heq =>
      hnew (List.mem_singleton.mp hj ▸ heq ▸ hi)⟩
  · rcases List.mem_append.mp hi with hi | hi
    · exact h.closure i hi
    · rw [List.mem_singleton.mp hi]
      exact hp

theorem Sound.foldl_add (h : c.Sound g kernel)
    (hps : ∀ p ∈ ps, g.ItemClosure {i | i ∈ kernel} (.initial p)) :
    (ps.foldl Gathering.add c).Sound g kernel ∧
      ∀ p ∈ ps, .initial p ∈ (ps.foldl Gathering.add c).items := by
  induction ps generalizing c with
  | nil => exact ⟨h, nofun⟩
  | cons p ps ih =>
    obtain ⟨hp, hps⟩ := List.forall_mem_cons.mp hps
    obtain ⟨hsound, hadded⟩ := ih (h.add hp) hps
    exact ⟨hsound, List.forall_mem_cons.mpr ⟨prefix_foldl_add.mem h.initial_mem_add, hadded⟩⟩

/-- What the item starts is in the list. -/
def Closes (g : Grammar) (c : Gathering) (i : Item) : Prop :=
  ∀ p < g.productions.size, g.nextSymbol? i = some (.nonterminal (g.production p).left) →
    .initial p ∈ c.items

theorem Sound.close (h : c.Sound g kernel) (hi : g.ItemClosure {i | i ∈ kernel} i) :
    (close g c i).Sound g kernel ∧ Closes g (Gathering.close g c i) i := by
  rw [Gathering.close]
  split
  · next n hx =>
    have hps : ∀ p ∈ g.productionsOf n, g.ItemClosure {i | i ∈ kernel} (.initial p) := fun p hp => by
      obtain ⟨hlt, rfl⟩ := Grammar.mem_productionsOf.mp hp
      exact .close hi hlt hx
    obtain ⟨hsound, hadded⟩ := h.foldl_add hps
    refine ⟨hsound, fun p hp hx' => hadded p (Grammar.mem_productionsOf.mpr ⟨hp, ?_⟩)⟩
    rw [hx'] at hx
    cases hx
    rfl
  · next hnone => exact ⟨h, fun p _ hx => absurd hx (hnone _)⟩

/-- What has been gone through is closed. -/
structure Invariant (g : Grammar) (kernel : Kernel) (c : Gathering) : Prop where
  sound : c.Sound g kernel
  closed : ∀ k < c.index, ∀ i, c.items[k]? = some i → Closes g c i

theorem Invariant.step (h : c.Invariant g kernel) (hstep : step? g c = some c') :
    c'.Invariant g kernel := by
  simp only [step?] at hstep
  split at hstep
  · next i hi =>
    cases hstep
    obtain ⟨hsound, hcloses⟩ := h.sound.close (h.sound.closure i (List.mem_of_getElem? hi))
    have hprefix : c.items <+: (close g c i).items := prefix_close
    have hlt := (List.getElem?_eq_some_iff.mp hi).1
    refine ⟨⟨hsound.seen, hsound.nodup, hsound.start, hsound.closure⟩, fun k hk j hj => ?_⟩
    change k < c.index + 1 at hk
    have hold : c.items[k]? = some j := by
      have hk' : k < c.items.length := by omega
      rw [List.getElem?_eq_getElem hk', ← List.prefix_iff_getElem?.mp hprefix k hk']
      exact hj
    rcases Nat.lt_or_eq_of_le (Nat.le_of_lt_succ hk) with hk | rfl
    · exact fun p hp hx => hprefix.mem (h.closed k hk j hold p hp hx)
    · rw [hi] at hold
      cases hold
      exact hcloses
  · cases hstep

/-! ## What is left to do -/

/-- The productions whose start has been seen. -/
def started (g : Grammar) (c : Gathering) : Finset ProductionId :=
  (Finset.range g.productions.size).filter fun p => .initial p ∈ c.items

/-- What has not been gone through yet, and what has not been seen. -/
def left (g : Grammar) (c : Gathering) : Nat :=
  (c.items.length - c.index) + (g.productions.size - (c.started g).card)

theorem card_started_le (g : Grammar) (c : Gathering) : (c.started g).card ≤ g.productions.size :=
  (Finset.card_filter_le _ _).trans_eq (Finset.card_range _)

/-- What is put at the end of the list has not been seen before. -/
theorem Sound.left_add_le (h : c.Sound g kernel) (hp : p < g.productions.size) :
    (c.add p).left g ≤ c.left g ∧ (c.add p).index = c.index := by
  rw [Gathering.add]
  split_ifs with hseen
  · exact ⟨le_rfl, rfl⟩
  have hnew : p ∉ c.started g := fun hmem =>
    hseen ((h.seen _).mpr (Finset.mem_filter.mp hmem).2)
  have hmore : insert p (c.started g) ⊆
      started g ⟨c.items ++ [.initial p], c.seen.insert (.initial p), c.index⟩ := by
    intro q hq
    rcases Finset.mem_insert.mp hq with rfl | hq
    · exact Finset.mem_filter.mpr ⟨Finset.mem_range.mpr hp, List.mem_append_right _ List.mem_cons_self⟩
    · exact Finset.mem_filter.mpr
        ⟨(Finset.mem_filter.mp hq).1, List.mem_append_left _ (Finset.mem_filter.mp hq).2⟩
  have hcard := Finset.card_le_card hmore
  have hbound := card_started_le g ⟨c.items ++ [.initial p], c.seen.insert (.initial p), c.index⟩
  rw [Finset.card_insert_of_notMem hnew] at hcard
  refine ⟨?_, rfl⟩
  simp only [left, List.length_append, List.length_singleton]
  omega

theorem Sound.left_foldl_add_le (h : c.Sound g kernel)
    (hps : ∀ p ∈ ps, p < g.productions.size ∧ g.ItemClosure {i | i ∈ kernel} (.initial p)) :
    (ps.foldl Gathering.add c).left g ≤ c.left g ∧ (ps.foldl Gathering.add c).index = c.index := by
  induction ps generalizing c with
  | nil => exact ⟨le_rfl, rfl⟩
  | cons p ps ih =>
    obtain ⟨⟨hp, hclosure⟩, hps⟩ := List.forall_mem_cons.mp hps
    obtain ⟨hle, hindex⟩ := h.left_add_le hp
    obtain ⟨hle', hindex'⟩ := ih (h.add hclosure) hps
    exact ⟨hle'.trans hle, hindex'.trans hindex⟩

theorem Sound.left_close_le (h : c.Sound g kernel) (hi : g.ItemClosure {i | i ∈ kernel} i) :
    (Gathering.close g c i).left g ≤ c.left g ∧ (Gathering.close g c i).index = c.index := by
  rw [Gathering.close]
  split
  · next n hx =>
    refine h.left_foldl_add_le fun p hp => ?_
    obtain ⟨hlt, rfl⟩ := Grammar.mem_productionsOf.mp hp
    exact ⟨hlt, .close hi hlt hx⟩
  · exact ⟨le_rfl, rfl⟩

theorem Invariant.left_lt (h : c.Invariant g kernel) (hstep : step? g c = some c') :
    c'.left g < c.left g := by
  simp only [step?] at hstep
  split at hstep
  · next i hi =>
    cases hstep
    obtain ⟨hle, hindex⟩ :=
      h.sound.left_close_le (h.sound.closure i (List.mem_of_getElem? hi))
    have hlt := (List.getElem?_eq_some_iff.mp hi).1
    have hlength := (prefix_close (g := g) (c := c) (i := i)).length_le
    have hsame : started g { close g c i with index := c.index + 1 } = started g (close g c i) := rfl
    rw [left, hsame]
    rw [left, hindex] at hle
    show ((close g c i).items.length - (c.index + 1)) + _ < _
    omega
  · cases hstep

/-- **The loop.** From a kernel on, it ends with the closure of the kernel, and with each item once. -/
theorem exists_gathered (g : Grammar) (h : kernel.Nodup) :
    ∃ n c, ComesToEnd (step? g) n (ofKernel kernel) c ∧ kernel <+: c.items ∧ c.items.Nodup ∧
      ∀ i, i ∈ c.items ↔ g.ItemClosure {i | i ∈ kernel} i := by
  have hstart : (ofKernel kernel).Invariant g kernel := ⟨sound_ofKernel h, nofun⟩
  obtain ⟨n, -, c, hloop⟩ := exists_comesToEnd (left g) (fun _ _ h hstep => h.step hstep)
    (fun _ _ h hstep => h.left_lt hstep) hstart
  have hend : c.Invariant g kernel := hloop.keeps (fun _ _ h hstep => h.step hstep) hstart
  have hdone : c.items.length ≤ c.index := by
    have hnone := hloop.ended
    simp only [step?] at hnone
    split at hnone
    · cases hnone
    · next hi => exact List.getElem?_eq_none_iff.mp hi
  refine ⟨n, c, hloop, hend.sound.start, hend.sound.nodup, fun i => ⟨hend.sound.closure i, fun hi => ?_⟩⟩
  induction hi with
  | kernel hi => exact hend.sound.start.mem hi
  | close _ hp hx ih =>
    obtain ⟨k, hk⟩ := List.mem_iff_getElem?.mp ih
    exact hend.closed k ((List.getElem?_eq_some_iff.mp hk).1.trans_le hdone) _ hk _ hp hx

end Gathering

end FourGL
