import FourGL.Proofs.Tree.Arena

/-!
# Topmost nodes

A walk for the topmost nodes of some rules ends at each of them, so it misses what lies below. Where no
such node lies below another, there is nothing to miss.

**Theorem (`topmost_eq_filter`).** If no node of the rules has another one below, the topmost ones are
all of them, in the order of the text.

**Theorem (`flatMap_leaves_topmost`).** The tokens of the topmost nodes, one node after the other, are
in the order of the text.
-/

namespace FourGL.Tree

variable {ends : Tree → Bool} {ts us : List Tree} {t root : Tree} {seen : Array Tree}
  {accepts : String → Bool}

/-! ## A walk through several trees -/

/-- Nothing is visited below a tree at which the walk ends. -/
theorem visit_cons (ends : Tree → Bool) (t : Tree) (ts : List Tree) (seen : Array Tree) :
    visit ends (t :: ts) seen =
      visit ends ((if ends t then [] else t.children) ++ ts) (seen.push t) := by
  rw [visit]
  split <;> rfl

/-- Induction along a walk. -/
theorem visit_induction (ends : Tree → Bool) {P : List Tree → Array Tree → Prop} (nil : ∀ seen, P [] seen)
    (cons : ∀ t ts seen, P ((if ends t then [] else t.children) ++ ts) (seen.push t) →
      P (t :: ts) seen) (ts : List Tree) (seen : Array Tree) : P ts seen := by
  fun_induction visit ends ts seen with
  | case1 seen => exact nil seen
  | case2 seen t ts ih =>
    refine cons t ts seen ?_
    split at ih <;> simp_all

theorem visit_append (ts us : List Tree) (seen : Array Tree) :
    visit ends (ts ++ us) seen = visit ends us (visit ends ts seen) := by
  induction ts, seen using visit_induction ends with
  | nil seen => rw [visit, List.nil_append]
  | cons t ts seen ih => rw [List.cons_append, visit_cons, ← List.append_assoc, ih, ← visit_cons]

/-- What was seen before stays in front. -/
theorem visit_append_seen (ends : Tree → Bool) (before : Array Tree) (ts : List Tree) (seen : Array Tree) :
    visit ends ts (before ++ seen) = before ++ visit ends ts seen := by
  induction ts, seen using visit_induction ends with
  | nil seen => rw [visit, visit]
  | cons t ts seen ih => rw [visit_cons, ← Array.append_push, ih, ← visit_cons]

theorem allOf_append (ts us : List Tree) : allOf (ts ++ us) = allOf ts ++ allOf us := by
  have h := visit_append_seen (fun _ => false) (visit (fun _ => false) ts #[]) us #[]
  rw [Array.append_empty] at h
  rw [allOf, visit_append, h, Array.toList_append, allOf, allOf]

theorem allOf_nil : allOf [] = [] := by rw [allOf, visit]

/-- A tree comes before those below it, and these before the next tree. -/
theorem allOf_cons (t : Tree) (ts : List Tree) :
    allOf (t :: ts) = t :: (allOf t.children ++ allOf ts) := by
  have h := visit_append_seen (fun _ => false) #[t] (t.children ++ ts) #[]
  rw [Array.append_empty] at h
  rw [← allOf_append, allOf, visit_cons, if_neg Bool.false_ne_true, Array.push_eq_append,
    Array.empty_append, h, Array.toList_append, allOf]
  rfl

/-! ## Nothing is missed -/

/-- Where no tree at which a walk ends has another one below, the walk meets all of them. -/
theorem filter_visit (ts : List Tree) (seen : Array Tree)
    (hapart : ∀ t ∈ allOf ts, ends t = true → ∀ u ∈ allOf t.children, ends u = false) :
    (visit ends ts seen).toList.filter ends = seen.toList.filter ends ++ (allOf ts).filter ends := by
  induction ts, seen using visit_induction ends with
  | nil seen => rw [visit, allOf_nil, List.filter_nil, List.append_nil]
  | cons t ts seen ih =>
    rw [allOf_cons] at hapart
    obtain ⟨ht, hrest⟩ := List.forall_mem_cons.mp hapart
    obtain ⟨-, hts⟩ := List.forall_mem_append.mp hrest
    cases hends : ends t with
    | true =>
      rw [hends, if_pos rfl] at ih
      have hnone : (allOf t.children).filter ends = [] :=
        List.filter_eq_nil_iff.mpr fun u hu => by rw [ht hends u hu]; exact Bool.false_ne_true
      rw [visit_cons, hends, if_pos rfl, ih hts, allOf_cons, List.filter_cons_of_pos hends,
        List.filter_append, hnone, Array.toList_push, List.filter_append,
        List.filter_singleton, hends]
      simp
    | false =>
      rw [hends, if_neg Bool.false_ne_true] at ih
      rw [← allOf_append] at hrest
      rw [visit_cons, hends, if_neg Bool.false_ne_true, ih hrest, allOf_cons, allOf_append,
        Array.toList_push, List.filter_append, List.filter_singleton, hends]
      simp [hends]

/-- **Topmost nodes.** If none has another one below, they are all nodes of the rules. -/
theorem topmost_eq_filter (hapart : ∀ t ∈ allOf [root], topmost.ends accepts t = true →
      ∀ u ∈ allOf t.children, topmost.ends accepts u = false) :
    root.topmost accepts = (allOf [root]).filter (topmost.ends accepts) := by
  rw [topmost, filter_visit [root] #[] hapart]
  rfl

/-! ## Tokens in order -/

theorem leavesOfAll_eq_flatMap (ts : List Tree) : leavesOfAll ts = ts.flatMap leaves := by
  induction ts with
  | nil => rfl
  | cons t ts ih => rw [leavesOfAll, ih, List.flatMap_cons]

/-- The trees at which a walk ends have no tokens in common, and those of the first come first. -/
theorem flatMap_leaves_visit (ends : Tree → Bool) (ts : List Tree) (seen : Array Tree) :
    (((visit ends ts seen).toList.filter ends).flatMap leaves).Sublist
      ((seen.toList.filter ends).flatMap leaves ++ leavesOfAll ts) := by
  induction ts, seen using visit_induction ends with
  | nil seen =>
    rw [visit]
    exact List.sublist_append_left _ _
  | cons t ts seen ih =>
    rw [visit_cons]
    refine ih.trans ?_
    rw [Array.toList_push, List.filter_append, List.flatMap_append, List.append_assoc, leavesOfAll]
    refine List.Sublist.append_left ?_ _
    split
    · next hends => simp [hends]
    · next hends =>
      rw [leavesOfAll_append, leaves_eq t]
      simp [hends]

/-- **Tokens of topmost nodes.** They are some of those of the tree, in their order. -/
theorem flatMap_leaves_topmost (accepts : String → Bool) (root : Tree) :
    ((root.topmost accepts).flatMap leaves).Sublist root.leaves := by
  have h := flatMap_leaves_visit (topmost.ends accepts) [root] #[]
  rwa [leavesOfAll, leavesOfAll, List.append_nil] at h

end FourGL.Tree
