import FourGL.Proofs.Outline.Slots

/-!
# Paths in a tree

A path leads through slots to one of the trees in a tree. Nothing keeps equal trees from standing in
several places, but the tokens do: a tree with tokens is where they are.

**Theorem (`at?_unique`).** If the tokens of a tree are in order, one path at most leads to a tree with
tokens.
-/

namespace FourGL.Tree

variable {t u c d : Tree} {ts : List Tree} {i j k : Nat} {path path' : List Nat} {P : Tree → Prop}

/-! ## The end of a path -/

theorem at?_cons_eq_some_iff : t.at? (i :: path) = some u ↔
    ∃ c, t.children[i]? = some c ∧ c ≠ .absent ∧ c.at? path = some u := by
  simp only [at?, Option.bind_eq_some_iff, slot?_eq_some_iff, and_assoc]

/-- What passes from trees to their children holds at the end of every path. -/
theorem of_at? (hchildren : ∀ t, P t → ∀ c ∈ t.children, P c) (ht : P t)
    (h : t.at? path = some u) : P u := by
  induction path generalizing t with
  | nil =>
    cases h
    exact ht
  | cons i path ih =>
    obtain ⟨c, hc, -, h⟩ := at?_cons_eq_some_iff.mp h
    exact ih (hchildren t ht c (List.mem_of_getElem? hc)) h

theorem leaves_sublist_of_at? (h : t.at? path = some u) : u.leaves.Sublist t.leaves :=
  of_at? (P := fun u => u.leaves.Sublist t.leaves)
    (fun _ hu _ hc => (leaves_sublist_of_mem_children hc).trans hu) (.refl _) h

theorem sizeOf_lt_of_mem_children (h : c ∈ t.children) : sizeOf c < sizeOf t :=
  (List.sizeOf_lt_of_mem h).trans_le (sizeOf_children_le t)

/-- Induction over a tree and all trees below. -/
theorem induction_children (h : ∀ t, (∀ c ∈ t.children, P c) → P t) (t : Tree) : P t :=
  h t fun c hc =>
    have _hlt := sizeOf_lt_of_mem_children hc
    induction_children h c
termination_by sizeOf t

theorem isNode_of_mem_children (h : c ∈ t.children) : t.isNode = true := by
  cases t with
  | absent | token => cases h
  | node => rfl

theorem sizeOf_le_of_at? (h : t.at? path = some u) : sizeOf u ≤ sizeOf t :=
  of_at? (P := fun u => sizeOf u ≤ sizeOf t)
    (fun _ hu _ hc => (sizeOf_lt_of_mem_children hc).le.trans hu) (Nat.le_refl _) h

/-- No tree is below itself. -/
theorem at?_self (h : t.at? path = some t) : path = [] := by
  cases path with
  | nil => rfl
  | cons i path =>
    obtain ⟨c, hc, -, h⟩ := at?_cons_eq_some_iff.mp h
    have hlt := sizeOf_lt_of_mem_children (List.mem_of_getElem? hc)
    exact absurd (sizeOf_le_of_at? h) (Nat.not_le.mpr hlt)

/-! ## Trees with tokens -/

/-- Of two trees of a list, the tokens of the first come before those of the second. -/
theorem pairwise_leaves (h : (leavesOfAll ts).Pairwise (· < ·)) :
    ts.Pairwise fun t u => ∀ i ∈ t.leaves, ∀ j ∈ u.leaves, i < j := by
  induction ts with
  | nil => exact .nil
  | cons t ts ih =>
    rw [leavesOfAll] at h
    obtain ⟨-, hrest, hbefore⟩ := List.pairwise_append.mp h
    exact .cons (fun u hu i hi j hj => hbefore i hi j (mem_leavesOfAll.mpr ⟨u, hu, hj⟩)) (ih hrest)

theorem pairwise_children (h : t.leaves.Pairwise (· < ·)) :
    t.children.Pairwise fun c d => ∀ i ∈ c.leaves, ∀ j ∈ d.leaves, i < j := by
  rw [leaves_eq t] at h
  exact pairwise_leaves (h.sublist (List.sublist_append_right _ _))

/-- Two children that share a token are the same. -/
theorem index_unique (h : t.leaves.Pairwise (· < ·)) (hc : t.children[i]? = some c)
    (hd : t.children[j]? = some d) (hk : k ∈ c.leaves) (hk' : k ∈ d.leaves) : i = j := by
  obtain ⟨hi, rfl⟩ := List.getElem?_eq_some_iff.mp hc
  obtain ⟨hj, rfl⟩ := List.getElem?_eq_some_iff.mp hd
  have hbefore := List.pairwise_iff_getElem.mp (pairwise_children h)
  rcases lt_trichotomy i j with hlt | heq | hlt
  · exact absurd (hbefore i j hi hj hlt k hk k hk') (Nat.lt_irrefl k)
  · exact heq
  · exact absurd (hbefore j i hj hi hlt k hk' k hk) (Nat.lt_irrefl k)

/-- **One place.** In a tree with its tokens in order, a tree with tokens is in one place. -/
theorem at?_unique (hordered : t.leaves.Pairwise (· < ·)) (h : t.at? path = some u)
    (h' : t.at? path' = some u) (hu : k ∈ u.leaves) : path = path' := by
  induction path generalizing t path' with
  | nil =>
    cases h
    exact (at?_self h').symm
  | cons i path ih =>
    cases path' with
    | nil =>
      cases h'
      exact at?_self h
    | cons j path' =>
      obtain ⟨c, hc, -, h⟩ := at?_cons_eq_some_iff.mp h
      obtain ⟨d, hd, -, h'⟩ := at?_cons_eq_some_iff.mp h'
      obtain rfl := index_unique hordered hc hd ((leaves_sublist_of_at? h).mem hu)
        ((leaves_sublist_of_at? h').mem hu)
      obtain rfl := Option.some.inj (hc.symm.trans hd)
      have hbelow := hordered.sublist (leaves_sublist_of_mem_children (List.mem_of_getElem? hc))
      rw [ih hbelow h h']

end FourGL.Tree
