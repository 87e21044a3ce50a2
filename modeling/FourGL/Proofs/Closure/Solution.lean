import FourGL.Closure.Flow
import FourGL.Closure.Marking
import Mathlib.Data.Finset.Prod
import Mathlib.Data.Finset.Card

/-!
# What closures and flows amount to

Both kinds of system are solved by repeating a round until nothing changes, a number of times that
is computed beforehand.

**Theorem (`has_close_iff`).** The closure of a list of clauses marks exactly what is derivable from
them.

**Theorem (`mem_solve_iff`).** The solution of a flow puts a number into the set of a node exactly if
a path leads there from a node that holds the number from the start.

In both, the value is a finite set that a round can only enlarge. A round that changes it adds a
member, so the rounds allowed are enough to reach a value that no round changes.
-/

namespace FourGL

/-! ## Saturation -/

/-- A step that can only enlarge a finite set comes to rest within as many steps as there may be
members. -/
theorem saturate_fixed {α β : Type} [BEq α] [LawfulBEq α] {f : α → α} {P : α → Prop}
    (members : α → Finset β) (all : Finset β) (keeps : ∀ a, P a → P (f a))
    (within : ∀ a, P a → members a ⊆ all)
    (grows : ∀ a, P a → f a ≠ a → members a ⊂ members (f a)) (n : Nat) {a : α} (start : P a)
    (enough : all.card < n + (members a).card) : f (saturate f n a) = saturate f n a := by
  induction n generalizing a with
  | zero =>
    have := Finset.card_le_card (within a start)
    omega
  | succ n ih =>
    simp only [saturate]
    split
    · next h => exact eq_of_beq h
    · next h =>
      have hne : f a ≠ a := fun he => h (beq_iff_eq.mpr he)
      have := Finset.card_lt_card (grows a start hne)
      exact ih (keeps a start) (by omega)

/-! ## Levels -/

/-- A set that changes another one brings something new. -/
theorem exists_testBit_of_or_ne {held set : Nat} (h : held ||| set ≠ held) :
    ∃ t, set.testBit t = true ∧ held.testBit t ≠ true := by
  by_contra hall
  refine h (Nat.eq_of_testBit_eq fun t => ?_)
  rw [Nat.testBit_or]
  by_cases ht : set.testBit t = true
  · rw [not_not.mp fun hnone => hall ⟨t, ht, hnone⟩, Bool.true_or]
  · rw [Bool.not_eq_true] at ht
    rw [ht, Bool.or_false]

namespace Levels

variable {levels : Levels} {node set n t : Nat}

@[simp] theorem size_pour : (levels.pour node set).size = levels.size := by simp [pour]

theorem level_eq_zero_of_le (h : levels.size ≤ n) : levels.level n = 0 := by
  simp [level, Array.getD_eq_getD_getElem?, Array.getElem?_eq_none h]

theorem level_pour :
    (levels.pour node set).level n =
      if n = node ∧ n < levels.size then levels.level n ||| set else levels.level n := by
  simp only [level, pour, Array.getD_eq_getD_getElem?, Array.getElem?_modify]
  by_cases hn : node = n
  · subst hn
    by_cases hlt : node < levels.size <;> simp [hlt]
  · simp [hn, Ne.symm hn]

theorem testBit_pour :
    ((levels.pour node set).level n).testBit t = true ↔
      (levels.level n).testBit t = true ∨ n = node ∧ n < levels.size ∧ set.testBit t = true := by
  rw [level_pour]
  split_ifs with h
  · simp [h.1, h.1 ▸ h.2]
  · constructor
    · exact Or.inl
    · rintro (hl | ⟨h₁, h₂, -⟩)
      · exact hl
      · exact absurd ⟨h₁, h₂⟩ h

/-- The set at every node is part of that in the other levels. -/
def Within (a b : Levels) : Prop :=
  a.size = b.size ∧ ∀ n t, (a.level n).testBit t = true → (b.level n).testBit t = true

theorem Within.refl (a : Levels) : a.Within a := ⟨rfl, fun _ _ h => h⟩

theorem Within.trans {a b c : Levels} (h : a.Within b) (h' : b.Within c) : a.Within c :=
  ⟨h.1.trans h'.1, fun n t ht => h'.2 n t (h.2 n t ht)⟩

theorem Within.antisymm {a b : Levels} (h : a.Within b) (h' : b.Within a) : a = b := by
  refine Array.ext h.1 fun i hi hi' => Nat.eq_of_testBit_eq fun t => ?_
  have ha : a.level i = a[i] := by simp [level, Array.getD_eq_getD_getElem?, hi]
  have hb : b.level i = b[i] := by simp [level, Array.getD_eq_getD_getElem?, hi']
  rw [← ha, ← hb, Bool.eq_iff_iff]
  exact ⟨h.2 i t, h'.2 i t⟩

theorem within_pour : levels.Within (levels.pour node set) :=
  ⟨size_pour.symm, fun _ _ ht => testBit_pour.mpr (Or.inl ht)⟩

theorem within_foldl_along (edges : List (Nat × Nat)) (levels : Levels) :
    levels.Within (edges.foldl along levels) := by
  induction edges generalizing levels with
  | nil => exact Within.refl levels
  | cons e es ih => exact within_pour.trans (ih (levels.along e))

/-- Levels that no edge changes are closed under the edges. -/
theorem closed_of_foldl_along {edges : List (Nat × Nat)} {levels : Levels}
    (h : edges.foldl along levels = levels) {source target : Nat}
    (he : (source, target) ∈ edges) (hlt : target < levels.size)
    (ht : (levels.level source).testBit t = true) : (levels.level target).testBit t = true := by
  induction edges with
  | nil => cases he
  | cons e es ih =>
    have hrest := within_foldl_along es (levels.along e)
    rw [List.foldl_cons] at h
    -- The first edge changes nothing either, for what it adds would still be there at the end.
    have hfirst : levels.along e = levels := by
      rw [h] at hrest
      exact hrest.antisymm within_pour
    rw [hfirst] at h
    rcases List.mem_cons.mp he with rfl | he
    · rw [← hfirst]
      exact testBit_pour.mpr (Or.inr ⟨rfl, hlt, ht⟩)
    · exact ih h he

end Levels

/-! ## Flows -/

namespace Flow

variable {flow : Flow} {width node t : Nat}

/-- What the sets hold: a number flows along the edges from the nodes that hold it at the start. -/
inductive Holds (flow : Flow) : Nat → Nat → Prop
  | seed {node t : Nat} : (Levels.level flow.seeds node).testBit t = true → Holds flow node t
  | edge {source target t : Nat} : (source, target) ∈ flow.edges → target < flow.seeds.size →
      Holds flow source t → Holds flow target t

theorem round_eq (edges : Array (Nat × Nat)) (levels : Levels) :
    round edges levels = edges.toList.foldl Levels.along levels := by
  simp [round, Array.foldl_toList]

/-- The pairs of a node and a number in its set. -/
def members (size width : Nat) (levels : Levels) : Finset (Nat × Nat) :=
  (Finset.range size ×ˢ Finset.range width).filter fun p =>
    (levels.level p.1).testBit p.2 = true

/-- Levels of a given size whose sets hold numbers below a bound. -/
def Fits (size width : Nat) (levels : Levels) : Prop :=
  levels.size = size ∧ ∀ n t, (levels.level n).testBit t = true → t < width

theorem Fits.pour {size : Nat} {levels : Levels} (h : Fits size width levels) {set : Nat}
    (hset : ∀ t, set.testBit t = true → t < width) : Fits size width (levels.pour node set) := by
  refine ⟨by simp [h.1], fun n t ht => ?_⟩
  rcases Levels.testBit_pour.mp ht with ht | ⟨-, -, ht⟩
  · exact h.2 n t ht
  · exact hset t ht

theorem Fits.round {size : Nat} {edges : Array (Nat × Nat)} {levels : Levels}
    (h : Fits size width levels) : Fits size width (round edges levels) := by
  rw [round_eq]
  induction edges.toList generalizing levels with
  | nil => exact h
  | cons e es ih => exact ih (h.pour (h.2 e.1))

theorem members_ssubset_round {size : Nat} {edges : Array (Nat × Nat)} {levels : Levels}
    (h : Fits size width levels) (hne : Flow.round edges levels ≠ levels) :
    members size width levels ⊂ members size width (Flow.round edges levels) := by
  have hwithin : levels.Within (Flow.round edges levels) := by
    rw [round_eq]
    exact Levels.within_foldl_along _ _
  refine Finset.ssubset_iff_subset_ne.mpr ⟨fun p hp => ?_, fun heq => hne ?_⟩
  · simp only [members, Finset.mem_filter] at hp ⊢
    exact ⟨hp.1, hwithin.2 _ _ hp.2⟩
  · refine (Levels.Within.antisymm hwithin ⟨hwithin.1.symm, fun n t ht => ?_⟩).symm
    have hfit : Fits size width (Flow.round edges levels) := h.round
    have hn : n < size := by
      by_contra hge
      rw [Levels.level_eq_zero_of_le (by rw [hfit.1]; omega)] at ht
      simp at ht
    have hp : (n, t) ∈ members size width (Flow.round edges levels) := by
      simp [members, hn, hfit.2 n t ht, ht]
    rw [← heq] at hp
    exact (Finset.mem_filter.mp hp).2

theorem round_solve (h : Fits flow.seeds.size width flow.seeds) :
    round flow.edges (flow.solve width) = flow.solve width := by
  refine saturate_fixed (P := Fits flow.seeds.size width)
    (members flow.seeds.size width)
    (Finset.range flow.seeds.size ×ˢ Finset.range width) (fun _ ha => ha.round)
    (fun _ _ => Finset.filter_subset _ _) (fun _ => members_ssubset_round) _ h ?_
  rw [Finset.card_product, Finset.card_range, Finset.card_range]
  omega

theorem fits_solve (h : Fits flow.seeds.size width flow.seeds) :
    Fits flow.seeds.size width (flow.solve width) :=
  saturate_induction (fun _ ha => ha.round) _ h

theorem seeds_within_solve (flow : Flow) (width : Nat) : Levels.Within flow.seeds (flow.solve width) :=
  saturate_induction (P := Levels.Within flow.seeds)
    (fun a ha => ha.trans (by rw [round_eq]; exact Levels.within_foldl_along _ _)) _
    (Levels.Within.refl _)

theorem holds_of_mem_solve (ht : ((flow.solve width).level node).testBit t = true) :
    flow.Holds node t := by
  have hround : ∀ levels : Levels, levels.size = flow.seeds.size →
      (∀ n t, (levels.level n).testBit t = true → flow.Holds n t) →
      ∀ es : List (Nat × Nat), (∀ e ∈ es, e ∈ flow.edges) →
      ∀ n t, ((es.foldl Levels.along levels).level n).testBit t = true → flow.Holds n t := by
    intro levels hsize hlevels es
    induction es generalizing levels with
    | nil => exact fun _ => hlevels
    | cons e es ih =>
      intro hes
      refine ih (levels.along e) (by simp [Levels.along, hsize]) (fun n t ht => ?_)
        fun e' he' => hes e' (List.mem_cons_of_mem e he')
      rcases Levels.testBit_pour.mp ht with ht | ⟨rfl, hlt, ht⟩
      · exact hlevels n t ht
      · exact .edge (hes e List.mem_cons_self) (hsize ▸ hlt) (hlevels e.1 t ht)
  refine (saturate_induction (f := round flow.edges)
    (P := fun levels : Levels => levels.size = flow.seeds.size ∧
      ∀ n t, (levels.level n).testBit t = true → flow.Holds n t)
    (fun a ha => ?_) (flow.seeds.size * width + 1) ⟨rfl, fun n t h => .seed h⟩).2 node t ht
  rw [round_eq]
  refine ⟨?_, hround a ha.1 ha.2 _ fun e he => Array.mem_toList_iff.mp he⟩
  rw [← (Levels.within_foldl_along flow.edges.toList a).1, ha.1]

/-- **The solution of a flow.** A node's set holds exactly the numbers that flow to it. -/
theorem mem_solve_iff (h : Fits flow.seeds.size width flow.seeds) :
    ((flow.solve width).level node).testBit t = true ↔ flow.Holds node t := by
  refine ⟨holds_of_mem_solve, fun hh => ?_⟩
  induction hh with
  | seed hs => exact (seeds_within_solve flow width).2 _ _ hs
  | edge he hlt _ ih =>
    have hfix := round_solve h
    rw [round_eq] at hfix
    exact Levels.closed_of_foldl_along hfix (Array.mem_toList_iff.mpr he)
      (by rw [(fits_solve h).1]; exact hlt) ih

end Flow

theorem mem_bitsBelow {width set t : Nat} :
    t ∈ bitsBelow width set ↔ t < width ∧ set.testBit t = true := by simp [bitsBelow]

/-! ## Marks -/

/-- The heads that a finite derivation by clauses reaches. -/
inductive Derivable (clauses : List Clause) : Nat → Prop
  | clause {c : Clause} : c ∈ clauses → (∀ i ∈ c.body, Derivable clauses i) →
      Derivable clauses c.head

namespace Marks

variable {marks : Marks} {c : Clause} {i size : Nat} {clauses : List Clause}

@[simp] theorem size_apply : (marks.apply c).size = marks.size := by
  simp only [apply]
  split <;> simp

theorem has_apply :
    (marks.apply c).has i = true ↔ marks.has i = true ∨
      c.head = i ∧ i < marks.size ∧ ∀ j ∈ c.body, marks.has j = true := by
  simp only [apply, has, Array.getD_eq_getD_getElem?]
  split_ifs with h
  · rw [List.all_eq_true] at h
    rw [Array.getElem?_setIfInBounds]
    by_cases hi : c.head = i
    · subst hi
      by_cases hlt : c.head < marks.size
      · simp only [hlt, if_true, true_and, Option.getD_some]
        exact ⟨fun _ => Or.inr fun j hj => by simpa [has] using h j hj, fun _ => trivial⟩
      · simp [hlt]
    · simp [hi]
  · constructor
    · exact Or.inl
    · rintro (hm | ⟨-, -, hb⟩)
      · exact hm
      · exact absurd (List.all_eq_true.mpr fun j hj => by simpa [has] using hb j hj) h

theorem has_lt (h : marks.has i = true) : i < marks.size := by
  by_contra hge
  simp [has, Array.getD_eq_getD_getElem?, Array.getElem?_eq_none (Nat.le_of_not_lt hge)] at h

@[simp] theorem size_round : (round clauses marks).size = marks.size := by
  simp only [round]
  induction clauses generalizing marks with
  | nil => rfl
  | cons c cs ih => rw [List.foldl_cons, ih, size_apply]

theorem has_round_of_has (h : marks.has i = true) : (round clauses marks).has i = true := by
  simp only [round]
  induction clauses generalizing marks with
  | nil => exact h
  | cons c cs ih => exact ih (has_apply.mpr (Or.inl h))

theorem ext {a b : Marks} (hs : a.size = b.size) (h : ∀ i, a.has i = true ↔ b.has i = true) :
    a = b := by
  refine Array.ext hs fun i hi hi' => ?_
  have := h i
  simp only [has, Array.getD_eq_getD_getElem?, hi, hi', Array.getElem?_eq_getElem,
    Option.getD_some] at this
  exact Bool.eq_iff_iff.mpr this

/-- Marks that no round changes are closed under the clauses. -/
theorem closed_of_round (h : round clauses marks = marks) (hc : c ∈ clauses)
    (hlt : c.head < marks.size) (hb : ∀ j ∈ c.body, marks.has j = true) :
    marks.has c.head = true := by
  induction clauses with
  | nil => cases hc
  | cons d ds ih =>
    have hrest : round ds (marks.apply d) = marks := h
    have hfirst : marks.apply d = marks := by
      refine ext size_apply fun i => ⟨fun hi => ?_, fun hi => has_apply.mpr (Or.inl hi)⟩
      rw [← hrest]
      exact has_round_of_has hi
    rw [hfirst] at hrest
    rcases List.mem_cons.mp hc with rfl | hc
    · rw [← hfirst]
      exact has_apply.mpr (Or.inr ⟨rfl, hlt, hb⟩)
    · exact ih hrest hc

/-- The marked indices. -/
def members (size : Nat) (marks : Marks) : Finset Nat :=
  (Finset.range size).filter fun i => marks.has i = true

theorem members_ssubset_round (hs : marks.size = size) (hne : round clauses marks ≠ marks) :
    members size marks ⊂ members size (round clauses marks) := by
  refine Finset.ssubset_iff_subset_ne.mpr ⟨fun i hi => ?_, fun heq => hne ?_⟩
  · simp only [members, Finset.mem_filter] at hi ⊢
    exact ⟨hi.1, has_round_of_has hi.2⟩
  · refine ext size_round fun i => ⟨fun hi => ?_, has_round_of_has⟩
    have hsize : (round clauses marks).size = marks.size := size_round
    have hlt : i < size := by rw [← hs, ← hsize]; exact has_lt hi
    have : i ∈ members size (round clauses marks) := by simp [members, hlt, hi]
    rw [← heq] at this
    exact (Finset.mem_filter.mp this).2

theorem round_close : round clauses (close size clauses) = close size clauses := by
  refine saturate_fixed (P := fun m : Marks => m.size = size) (members size)
    (Finset.range size) (fun _ ha => by simpa using ha)
    (fun _ _ => Finset.filter_subset _ _) (fun _ => members_ssubset_round) _
    (Array.size_replicate ..) ?_
  rw [Finset.card_range]
  omega

@[simp] theorem size_close : (close size clauses).size = size :=
  saturate_induction (P := fun m : Marks => m.size = size) (fun _ ha => by simpa using ha) _
    (Array.size_replicate ..)

theorem derivable_of_has_close (h : (close size clauses).has i = true) :
    Derivable clauses i := by
  have hround : ∀ cs : List Clause, (∀ c ∈ cs, c ∈ clauses) → ∀ m : Marks,
      (∀ i, m.has i = true → Derivable clauses i) →
      ∀ i, (round cs m).has i = true → Derivable clauses i := by
    intro cs hcs
    induction cs with
    | nil => exact fun _ hm => hm
    | cons c cs ih =>
      refine fun m hm => ih (fun d hd => hcs d (List.mem_cons_of_mem c hd)) _ fun i hi => ?_
      rcases has_apply.mp hi with hi | ⟨rfl, -, hb⟩
      · exact hm i hi
      · exact .clause (hcs c List.mem_cons_self) fun j hj => hm j (hb j hj)
  refine saturate_induction (P := fun m : Marks => ∀ i, m.has i = true → Derivable clauses i)
    (fun m hm => hround clauses (fun _ hc => hc) m hm) _ (fun i hi => ?_) i h
  simp only [has, Array.getD_eq_getD_getElem?, Array.getElem?_replicate] at hi
  split at hi <;> simp at hi

/-- **The closure of clauses.** Exactly the derivable indices are marked. -/
theorem has_close_iff (hheads : ∀ c ∈ clauses, c.head < size) :
    (close size clauses).has i = true ↔ Derivable clauses i := by
  refine ⟨derivable_of_has_close, fun hd => ?_⟩
  induction hd with
  | clause hc _ ih =>
    exact closed_of_round round_close hc (by simpa using hheads _ hc) ih

end Marks

end FourGL
