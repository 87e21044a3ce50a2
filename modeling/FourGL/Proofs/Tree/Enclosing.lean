import FourGL.Proofs.Parse.Hulls

/-!
# The innermost rule around an offset

The search goes down from the root, each time into the last child that has the offset in its text or at
the end of it. It never comes back to try another child.

**Theorem (`finds_innermost`).** In the tree of a parse no node is missed: every accepted node whose text
contains the offset is the node found or above it.

In any tree, the search finds the last accepted node on its way down (`Leads.exists_enclosing?`). In the
tree of a parse, all nodes that contain the offset are on that way (`Parse.leads_of_contains`): what
contains a child's text contains the offset with it, and a child further on starts too late to touch it.
-/

namespace FourGL

namespace Tree

variable {accepts : String → Bool} {offset i : Nat} {t u c root found : Tree} {ts : List Tree}
  {path : List Nat}

/-! ## The way down -/

/-- The last of several trees that holds the offset. -/
structure IsLastHolding (offset : Nat) (ts : List Tree) (i : Nat) (c : Tree) : Prop where
  child : ts[i]? = some c
  holds : c.holds offset = true
  last : ∀ j d, i < j → ts[j]? = some d → d.holds offset = false

theorem exists_isLastHolding (offset : Nat) (ts : List Tree) :
    (∀ t ∈ ts, t.holds offset = false) ∨ ∃ i c, IsLastHolding offset ts i c := by
  induction ts with
  | nil => exact Or.inl (List.forall_mem_nil _)
  | cons t ts ih =>
    rcases ih with hnone | ⟨i, c, hc⟩
    · cases ht : t.holds offset with
      | false => exact Or.inl (List.forall_mem_cons.mpr ⟨ht, hnone⟩)
      | true =>
        refine Or.inr ⟨0, t, rfl, ht, fun j d hj hd => ?_⟩
        obtain ⟨j, rfl⟩ := Nat.exists_eq_add_one.mpr hj
        exact hnone d (List.mem_of_getElem? hd)
    · refine Or.inr ⟨i + 1, c, hc.child, hc.holds, fun j d hj hd => ?_⟩
      obtain ⟨j, rfl⟩ := Nat.exists_eq_add_one.mpr (Nat.zero_lt_of_lt hj)
      exact hc.last j d (Nat.lt_of_succ_lt_succ hj) hd

theorem isNode_of_holds (h : t.holds offset = true) : t.isNode = true := by
  simp only [holds, Bool.and_eq_true] at h
  exact h.1.1

/-- The way down to the offset leads along the path. -/
inductive Leads (offset : Nat) : Tree → List Nat → Tree → Prop
  | stay {t : Tree} : Leads offset t [] t
  | enter {t c u : Tree} {i : Nat} {path : List Nat} : IsLastHolding offset t.children i c →
    Leads offset c path u → Leads offset t (i :: path) u

namespace Leads

theorem at?_eq (h : Leads offset t path u) : t.at? path = some u := by
  induction h with
  | stay => rfl
  | @enter _ c _ _ _ hc _ ih =>
    have hnode := isNode_of_holds hc.holds
    refine at?_cons_eq_some_iff.mpr ⟨c, hc.child, ?_, ih⟩
    rintro rfl
    cases hnode

theorem holds_of_ne (h : Leads offset t path u) : u ≠ t → u.holds offset = true := by
  induction h with
  | stay => exact fun hne => absurd rfl hne
  | @enter _ c u _ _ hc _ ih =>
    intro _
    by_cases hu : u = c
    · exact hu ▸ hc.holds
    · exact ih hu

end Leads

/-! ## What the search finds -/

/-- The tree is a node of an accepted rule. -/
def isAccepted (accepts : String → Bool) (t : Tree) : Bool := t.isNode && accepts t.kind

/-- The tree itself, if it is accepted. -/
def own? (accepts : String → Bool) (t : Tree) : Option Tree :=
  if t.isAccepted accepts then some t else none

theorem own?_eq_some_iff : t.own? accepts = some u ↔ u = t ∧ u.isAccepted accepts = true := by
  rw [own?]
  split
  · next h => exact ⟨fun heq => Option.some.inj heq ▸ ⟨rfl, h⟩, fun heq => congrArg some heq.1.symm⟩
  · next h => exact ⟨nofun, fun heq => absurd (heq.1 ▸ heq.2) h⟩

theorem enclosingAmong?_eq_none (h : ∀ t ∈ ts, t.holds offset = false) :
    enclosingAmong? accepts offset ts = none := by
  induction ts with
  | nil => rfl
  | cons t ts ih =>
    obtain ⟨ht, hts⟩ := List.forall_mem_cons.mp h
    rw [enclosingAmong?, ih hts, ht]
    rfl

theorem IsLastHolding.enclosingAmong?_eq (h : IsLastHolding offset ts i c) :
    enclosingAmong? accepts offset ts = some (c.enclosing? accepts offset) := by
  induction ts generalizing i with
  | nil => cases h.child
  | cons t ts ih =>
    cases i with
    | zero =>
      have hrest : ∀ d ∈ ts, d.holds offset = false := fun d hd => by
        obtain ⟨j, hj⟩ := List.mem_iff_getElem?.mp hd
        exact h.last (j + 1) d (Nat.succ_pos j) hj
      obtain rfl : t = c := Option.some.inj h.child
      rw [enclosingAmong?, enclosingAmong?_eq_none hrest, h.holds]
      rfl
    | succ i =>
      have hc : IsLastHolding offset ts i c :=
        ⟨h.child, h.holds, fun j d hj hd => h.last (j + 1) d (Nat.succ_lt_succ hj) hd⟩
      rw [enclosingAmong?, ih hc]

theorem enclosing?_eq (accepts : String → Bool) (offset : Nat) (t : Tree) :
    t.enclosing? accepts offset =
      ((enclosingAmong? accepts offset t.children).bind id).or (t.own? accepts) := by
  cases t with
  | absent | token => rfl
  | node kind span ts =>
    rw [enclosing?, show (node kind span ts).children = ts from rfl]
    rcases enclosingAmong? accepts offset ts with _ | _ | inner <;> rfl

/-- The search ends where no child holds the offset. -/
theorem enclosing?_of_forall (h : ∀ c ∈ t.children, c.holds offset = false) :
    t.enclosing? accepts offset = t.own? accepts := by
  rw [enclosing?_eq, enclosingAmong?_eq_none h]
  rfl

/-- Else it goes on in the last child that does. -/
theorem IsLastHolding.enclosing?_eq (h : IsLastHolding offset t.children i c) :
    t.enclosing? accepts offset = (c.enclosing? accepts offset).or (t.own? accepts) := by
  rw [Tree.enclosing?_eq, h.enclosingAmong?_eq]
  rfl

theorem exists_leads (h : t.enclosing? accepts offset = some found) :
    found.isAccepted accepts = true ∧ ∃ path, Leads offset t path found := by
  induction t using induction_children with
  | h t ih =>
    rcases exists_isLastHolding offset t.children with hnone | ⟨i, c, hc⟩
    · rw [enclosing?_of_forall hnone] at h
      obtain ⟨rfl, haccepted⟩ := own?_eq_some_iff.mp h
      exact ⟨haccepted, [], .stay⟩
    · rw [hc.enclosing?_eq] at h
      rcases Option.or_eq_some_iff.mp h with hinner | ⟨-, hown⟩
      · obtain ⟨haccepted, path, hpath⟩ := ih c (List.mem_of_getElem? hc.child) hinner
        exact ⟨haccepted, i :: path, .enter hc hpath⟩
      · obtain ⟨rfl, haccepted⟩ := own?_eq_some_iff.mp hown
        exact ⟨haccepted, [], .stay⟩

theorem exists_enclosing? (offset : Nat) (h : t.isAccepted accepts = true) :
    ∃ found, t.enclosing? accepts offset = some found := by
  have hown : t.own? accepts = some t := own?_eq_some_iff.mpr ⟨rfl, h⟩
  rw [enclosing?_eq, hown]
  exact Option.isSome_iff_exists.mp (by simp)

/-- An accepted tree on the way is found, or one further down is. -/
theorem Leads.exists_enclosing? (h : Leads offset t path u) (hu : u.isAccepted accepts = true) :
    ∃ found more, t.enclosing? accepts offset = some found ∧ Leads offset t (path ++ more) found := by
  induction h with
  | stay =>
    obtain ⟨found, hfound⟩ := Tree.exists_enclosing? offset hu
    obtain ⟨-, more, hmore⟩ := exists_leads hfound
    exact ⟨found, more, hfound, hmore⟩
  | enter hc _ ih =>
    obtain ⟨found, more, hfound, hmore⟩ := ih hu
    refine ⟨found, more, ?_, .enter hc hmore⟩
    rw [hc.enclosing?_eq, hfound]
    rfl

/-! ## Searches from a root -/

/-- What the search around an offset is to find below a root. -/
structure Finds (root : Tree) (accepts : String → Bool) (offset : Nat) (found : Option Tree) :
    Prop where
  accepted : ∀ t ∈ found, t.isNode = true ∧ accepts t.kind = true
  /-- What is found is in one place. -/
  place : ∀ t ∈ found, ∃! path, root.at? path = some t
  /-- Except for the root, it has the offset in its text or at the end of it. -/
  touches : ∀ t ∈ found, t ≠ root → t.span.isEmpty = false ∧ t.span.touches offset = true
  /-- Every accepted node that contains the offset is the node found or above it. -/
  complete : ∀ path t, root.at? path = some t → t.isNode = true → accepts t.kind = true →
    t.span.contains offset = true → ∃ u ∈ found, ∃ more, root.at? (path ++ more) = some u

end Tree

namespace Span

variable {s t : Span} {offset : Nat}

theorem isEmpty_of_contains (h : s.contains offset = true) : s.isEmpty = false := by
  simp [contains, isEmpty] at *
  omega

theorem contains_of_inside (h : s.contains offset = true) (hstart : t.start ≤ s.start)
    (hstop : s.stop ≤ t.stop) : t.contains offset = true := by
  simp [contains] at *
  omega

theorem not_touches_of_contains (h : s.contains offset = true) (hst : s.stop ≤ t.start) :
    t.touches offset = false := by
  simp [contains, touches] at *
  omega

end Span

open FourGL.Tree

namespace Parse

variable {p : Parse} {t u c : Tree} {offset i : Nat} {path : List Nat}

theorem spanOf_of_isNode (h : t.isNode = true) : p.spanOf t = t.span := by
  cases t with
  | absent | token => cases h
  | node => rfl

/-- A child that contains the offset is the last to hold it. -/
theorem SpanFits.isLastHolding (h : p.SpanFits t) (hc : t.children[i]? = some c)
    (hnode : c.isNode = true) (hcontains : c.span.contains offset = true) :
    IsLastHolding offset t.children i c := by
  have hcovers := Span.isEmpty_of_contains hcontains
  refine ⟨hc, ?_, fun j d hj hd => ?_⟩
  · rw [holds, hnode, hcovers, Span.touches_of_contains hcontains]
    rfl
  · by_contra hholds
    obtain ⟨hdnode, hdcovers, htouches⟩ : d.isNode = true ∧ d.span.isEmpty = false ∧
        d.span.touches offset = true := by simpa [holds, and_assoc] using hholds
    obtain ⟨hi', rfl⟩ := List.getElem?_eq_some_iff.mp hc
    obtain ⟨hj', rfl⟩ := List.getElem?_eq_some_iff.mp hd
    have hbehind := List.pairwise_iff_getElem.mp (List.pairwise_filter.mp h.ordered) i j hi' hj' hj
    simp only [spanOf_of_isNode hnode, spanOf_of_isNode hdnode, hcovers, hdcovers] at hbehind
    rw [Span.not_touches_of_contains hcontains (hbehind rfl rfl)] at htouches
    cases htouches

theorem SpanFits.contains_of_child (h : p.SpanFits t) (hc : c ∈ t.children) (hnode : c.isNode = true)
    (hcontains : c.span.contains offset = true) : t.span.contains offset = true := by
  have hinside := h.inside c hc
  rw [spanOf_of_isNode hnode] at hinside
  obtain ⟨hstart, hstop⟩ := hinside (Span.isEmpty_of_contains hcontains)
  exact Span.contains_of_inside hcontains hstart hstop

theorem SpanFits.exists_mem_leaves (h : p.SpanFits t) (hcovers : t.span.isEmpty = false) :
    ∃ k, k ∈ t.leaves := by
  refine List.exists_mem_of_ne_nil _ fun hnone => ?_
  rw [(h.empty ((tokens_eq_leaves t).trans hnone)).1] at hcovers
  cases hcovers

section Laid

variable (htiles : Tiles p.source.toList p.tokens.toList)

include htiles

/-- A node that contains the offset is on the way down, from a tree that contains it as well. -/
theorem leads_of_contains (h : t.IsLaid p.input) (hu : t.at? path = some u) (hnode : u.isNode = true)
    (hcontains : u.span.contains offset = true) :
    t.isNode = true ∧ t.span.contains offset = true ∧ Leads offset t path u := by
  induction path generalizing t with
  | nil =>
    cases hu
    exact ⟨hnode, hcontains, .stay⟩
  | cons i path ih =>
    obtain ⟨c, hc, -, hu⟩ := at?_cons_eq_some_iff.mp hu
    have hmem := List.mem_of_getElem? hc
    obtain ⟨hcnode, hcontains, hleads⟩ := ih (h.of_mem_children hmem) hu
    have htnode := isNode_of_mem_children hmem
    have hfits := spanFits htiles h htnode
    exact ⟨htnode, hfits.contains_of_child hmem hcnode hcontains,
      .enter (hfits.isLastHolding hc hcnode hcontains) hleads⟩

/-- A node that covers text is in one place. -/
theorem existsUnique_at? (h : t.IsLaid p.input) (hu : t.at? path = some u)
    (hplace : u ≠ t → u.isNode = true ∧ u.span.isEmpty = false) :
    ∃! path, t.at? path = some u := by
  refine ⟨path, hu, fun path' hu' => ?_⟩
  by_cases hroot : u = t
  · rw [hroot] at hu hu'
    rw [at?_self hu, at?_self hu']
  · obtain ⟨hnode, hcovers⟩ := hplace hroot
    obtain ⟨k, hk⟩ := (spanFits_of_at? htiles h hu hnode).exists_mem_leaves hcovers
    exact at?_unique h.ordered hu' hu hk

theorem finds_of_isLaid (h : t.IsLaid p.input) (accepts : String → Bool) (offset : Nat) :
    t.Finds accepts offset (t.enclosing? accepts offset) := by
  have hholds : ∀ u ∈ t.enclosing? accepts offset, u ≠ t → u.holds offset = true := fun u hu => by
    obtain ⟨-, path, hpath⟩ := exists_leads hu
    exact hpath.holds_of_ne
  simp only [holds, Bool.and_eq_true, Bool.not_eq_true'] at hholds
  constructor
  case accepted =>
    intro u hu
    simpa [isAccepted] using (exists_leads hu).1
  case place =>
    intro u hu
    obtain ⟨-, path, hpath⟩ := exists_leads hu
    exact existsUnique_at? htiles h hpath.at?_eq fun hne => (hholds u hu hne).1
  case touches => exact fun u hu hne => ⟨(hholds u hu hne).1.2, (hholds u hu hne).2⟩
  case complete =>
    intro path u hu hnode haccepts hcontains
    obtain ⟨-, -, hleads⟩ := leads_of_contains htiles h hu hnode hcontains
    have haccepted : u.isAccepted accepts = true := by rw [isAccepted, hnode, haccepts]; rfl
    obtain ⟨found, more, hfound, hmore⟩ := hleads.exists_enclosing? haccepted
    exact ⟨found, hfound, more, hmore.at?_eq⟩

end Laid

end Parse

/-- **Enclosing rules.** Around every offset and for every choice of rules, the search from the root of
a parse finds an accepted node, and all accepted nodes that contain the offset are at or above it. -/
theorem finds_innermost {g : Grammar} (hg : g.IsBuilt) {limits : Limits} {source : String} {n : Nat}
    {p : Parse} (h : (Language.ofGrammar g).parseWithin n limits source = some p) :
    ∀ root ∈ p.root, ∀ accepts offset,
      root.Finds accepts offset (root.enclosing? accepts offset) := fun root hroot =>
  Parse.finds_of_isLaid (Parse.tiles_of_parseWithin h) (Parse.isLaid_of_parseWithin hg h root hroot)

/-- Behind the first sign, the node found ends there, and the root that contains the offset is above. -/
theorem finds_innermost_nested : ∃ g : Grammar, g.IsBuilt ∧ ∃ p root inner,
    (Language.ofGrammar g).parseWithin 10 {} "+ +" = some p ∧ p.root = some root ∧
      root.enclosing? (· == "signs") 1 = some inner ∧ inner.span = ⟨0, 1⟩ ∧
      root.span.contains 1 = true ∧ root.Finds (· == "signs") 1 (some inner) := by
  obtain ⟨g, hg, p, hp, hroot⟩ := exists_parse_nested
  exact ⟨g, hg, p, _, _, hp, hroot, rfl, rfl, rfl, finds_innermost hg hp _ hroot _ 1⟩

end FourGL
