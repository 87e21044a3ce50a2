import FourGL.Proofs.Parse.Hulls
import FourGL.Proofs.Tree.Topmost
import FourGL.Tree.Handlers

/-!
# Walks in pre-order

The walks keep a list of pending trees. What they meet is said here by recursion over the tree: a tree
comes before those below it, and these come from left to right. The walk for nodes only needs the nodes
on its list (`nodesOver`), and that for tokens what is in no empty slot (`tokensOver`). Either meets what
the walk over all slots leaves after a filter.

**Theorem (`walks_agree`).** From every node of a parse, the walks for nodes, for tokens and for handlers
meet what the recursion lists.

That the recursion lists the right trees is said through their places. A place is the path of slots that
leads to a tree, so equal trees in two places are told apart. Pre-order is the order of the dictionary on
places: a path comes before its extensions, and these before a path that turns to a later slot.
-/

namespace FourGL

namespace Tree

variable {ends : Tree → Bool} {t u c root : Tree} {ts us : List Tree} {path : List Nat} {i k : Nat}

/-! ## The recursion -/

mutual

/-- A tree and those below it in pre-order. Nothing is listed below a tree that satisfies `ends`. -/
def preorder (ends : Tree → Bool) : Tree → List Tree
  | .absent => []
  | .token i => [.token i]
  | .node kind span children =>
    .node kind span children ::
      if ends (.node kind span children) then [] else preorderOfAll ends children

/-- The same for several trees, one after the other. -/
def preorderOfAll (ends : Tree → Bool) : List Tree → List Tree
  | [] => []
  | t :: ts => t.preorder ends ++ preorderOfAll ends ts

end

/-- Ends a walk at no tree. -/
def never (_ : Tree) : Bool := false

theorem preorder_of_ne (h : t ≠ .absent) :
    t.preorder ends = t :: if ends t then [] else preorderOfAll ends t.children := by
  cases t with
  | absent => exact absurd rfl h
  | token i => cases ends (.token i) <;> rfl
  | node kind span children => rfl

theorem preorderOfAll_append (ts us : List Tree) :
    preorderOfAll ends (ts ++ us) = preorderOfAll ends ts ++ preorderOfAll ends us := by
  induction ts with
  | nil => rfl
  | cons t ts ih => rw [List.cons_append, preorderOfAll, ih, preorderOfAll, List.append_assoc]

theorem preorderOfAll_singleton (t : Tree) : preorderOfAll ends [t] = t.preorder ends := by
  rw [preorderOfAll, preorderOfAll, List.append_nil]

/-! ## The walk with pending trees -/

theorem filterMap_preorder {α : Type} {f : Tree → Option α} (hf : f .absent = none) (t : Tree) :
    (t.preorder ends).filterMap f =
      [t].filterMap f ++ (preorderOfAll ends (if ends t then [] else t.children)).filterMap f := by
  by_cases ht : t = .absent
  · subst ht
    simp [hf, preorder, children, preorderOfAll]
  · rw [preorder_of_ne ht, ← List.singleton_append, List.filterMap_append]
    split <;> rfl

/-- What a walk gathers, empty slots apart, is what the pending trees list. -/
theorem filterMap_visit {α : Type} {f : Tree → Option α} (hf : f .absent = none) (ts : List Tree)
    (seen : Array Tree) : (visit ends ts seen).toList.filterMap f =
      seen.toList.filterMap f ++ (preorderOfAll ends ts).filterMap f := by
  induction ts, seen using visit_induction ends with
  | nil seen => rw [visit, preorderOfAll, List.filterMap_nil, List.append_nil]
  | cons t ts seen ih =>
    rw [visit_cons, ih, Array.toList_push, preorderOfAll_append, preorderOfAll]
    simp only [List.filterMap_append, filterMap_preorder hf t, List.append_assoc]

theorem filter_visit_eq {q : Tree → Bool} (hq : q .absent = false) (ts : List Tree) :
    (visit ends ts #[]).toList.filter q = (preorderOfAll ends ts).filter q := by
  rw [← List.filterMap_eq_filter, filterMap_visit (by rw [Option.guard, hq]; rfl) ts #[]]
  rfl

theorem descendants_eq_preorder (t : Tree) :
    t.descendants = (preorderOfAll never t.children).filter isNode :=
  filter_visit_eq rfl t.children

theorem tokens_eq_preorder (t : Tree) : t.tokens = (t.preorder never).filterMap token? := by
  rw [← preorderOfAll_singleton]
  exact filterMap_visit rfl [t] #[]

theorem topmost_eq_preorder (accepts : String → Bool) (t : Tree) :
    t.topmost accepts = (t.preorder (topmost.ends accepts)).filter (topmost.ends accepts) := by
  rw [← preorderOfAll_singleton]
  exact filter_visit_eq rfl [t]

/-! ## Stacks -/

/-- What a predicate on nodes picks from pending trees does not depend on the others. -/
theorem filter_preorderOfAll_isNode {q : Tree → Bool} (hq : ∀ t, q t = true → t.isNode = true)
    (ts : List Tree) : (preorderOfAll ends (ts.filter isNode)).filter q =
      (preorderOfAll ends ts).filter q := by
  induction ts with
  | nil => rfl
  | cons t ts ih =>
    rw [List.filter_cons, preorderOfAll, List.filter_append, ← ih]
    cases t with
    | absent => rfl
    | token i =>
      have hnone : q (.token i) = false := Bool.eq_false_iff.mpr fun h => Bool.false_ne_true (hq _ h)
      rw [preorder, List.filter_cons_of_neg (by rw [hnone]; exact Bool.false_ne_true)]
      rfl
    | node => rw [isNode, if_pos rfl, preorderOfAll, List.filter_append]

/-- The nodes that come off a stack of nodes, given from its top. The child nodes of each are put on
the stack, the first one on top. -/
def nodesOver : List Tree → List Tree
  | [] => []
  | t :: stack => t :: nodesOver (t.childNodes ++ stack)
termination_by stack => sizeOf stack
decreasing_by
  have := t.sizeOf_childNodes_le
  have := t.sizeOf_children_le
  have := sizeOf_append_lt t.childNodes stack
  simp only [List.cons.sizeOf_spec]
  omega

/-- The children that are not empty. -/
def filled (t : Tree) : List Tree := t.children.filter fun c => c.isNode || c.token?.isSome

theorem sizeOf_filled_le (t : Tree) : sizeOf t.filled ≤ sizeOf t.children := by
  rw [filled]
  induction t.children with
  | nil => simp
  | cons c cs ih =>
    rw [List.filter_cons]
    split <;> simp only [List.cons.sizeOf_spec] <;> omega

/-- The tokens that come off a stack of nodes and tokens. The children of each node are put on the
stack, the first one on top. -/
def tokensOver : List Tree → List Nat
  | [] => []
  | .token i :: stack => i :: tokensOver stack
  | t :: stack => tokensOver (t.filled ++ stack)
termination_by stack => sizeOf stack
decreasing_by
  · simp only [List.cons.sizeOf_spec]
    omega
  · have := sizeOf_filled_le t
    have := t.sizeOf_children_le
    have := sizeOf_append_lt t.filled stack
    simp only [List.cons.sizeOf_spec]
    omega

theorem nodesOver_eq (hts : ∀ t ∈ ts, t.isNode = true) :
    nodesOver ts = (preorderOfAll never ts).filter isNode := by
  fun_induction nodesOver ts with
  | case1 => rfl
  | case2 t stack ih =>
    obtain ⟨ht, hstack⟩ := List.forall_mem_cons.mp hts
    have hlist : t.preorder never = t :: preorderOfAll never t.children :=
      preorder_of_ne (by rintro rfl; cases ht)
    have hnodes : ∀ u ∈ t.childNodes ++ stack, u.isNode = true :=
      List.forall_mem_append.mpr ⟨fun u hu => (List.mem_filter.mp hu).2, hstack⟩
    rw [ih hnodes, preorderOfAll, hlist, List.cons_append, List.filter_cons_of_pos ht,
      preorderOfAll_append, List.filter_append, List.filter_append, childNodes,
      filter_preorderOfAll_isNode fun _ => id]

theorem preorderOfAll_filled (t : Tree) :
    preorderOfAll ends t.filled = preorderOfAll ends t.children := by
  rw [filled]
  induction t.children with
  | nil => rfl
  | cons c cs ih =>
    rw [List.filter_cons, preorderOfAll, ← ih]
    cases c with
    | absent => rfl
    | token => rfl
    | node => rfl

theorem tokensOver_eq (ts : List Tree) :
    tokensOver ts = (preorderOfAll never ts).filterMap token? := by
  fun_induction tokensOver ts with
  | case1 => rfl
  | case2 i stack ih =>
    rw [ih, preorderOfAll, preorder, List.singleton_append]
    rfl
  | case3 t stack hne ih =>
    rw [ih, preorderOfAll, preorderOfAll_append, preorderOfAll_filled]
    cases t with
    | absent => rfl
    | token i => exact absurd rfl (hne i)
    | node => rfl

/-- **Stacks.** The walks for nodes and tokens are those with a stack each. -/
theorem descendants_eq_nodesOver (t : Tree) : t.descendants = nodesOver t.childNodes := by
  have hnodes : ∀ u ∈ t.childNodes, u.isNode = true := fun u hu => (List.mem_filter.mp hu).2
  rw [descendants_eq_preorder, nodesOver_eq hnodes, childNodes, filter_preorderOfAll_isNode fun _ => id]

theorem tokens_eq_tokensOver (ht : t.isNode = true) : t.tokens = tokensOver t.filled := by
  rw [tokens_eq_preorder, tokensOver_eq, preorderOfAll_filled]
  cases t with
  | node => rfl
  | absent | token => cases ht

/-! ## Places -/

mutual

/-- The paths to what `preorder` lists. -/
def places (ends : Tree → Bool) : Tree → List (List Nat)
  | .absent => []
  | .token _ => [[]]
  | .node kind span children =>
    [] :: if ends (.node kind span children) then [] else placesFrom ends 0 children

/-- The paths through slots, of which the first has the given number. -/
def placesFrom (ends : Tree → Bool) (i : Nat) : List Tree → List (List Nat)
  | [] => []
  | t :: ts => (t.places ends).map (i :: ·) ++ placesFrom ends (i + 1) ts

end

theorem places_of_ne (h : t ≠ .absent) :
    t.places ends = [] :: if ends t then [] else placesFrom ends 0 t.children := by
  cases t with
  | absent => exact absurd rfl h
  | token i => cases ends (.token i) <;> rfl
  | node kind span children => rfl

theorem mem_placesFrom : path ∈ placesFrom ends k ts ↔
    ∃ i rest c, path = (k + i) :: rest ∧ ts[i]? = some c ∧ rest ∈ c.places ends := by
  induction ts generalizing k with
  | nil => simp [placesFrom]
  | cons t ts ih =>
    rw [placesFrom, List.mem_append, List.mem_map, ih]
    constructor
    · rintro (⟨rest, hrest, rfl⟩ | ⟨i, rest, c, rfl, hc, hrest⟩)
      · exact ⟨0, rest, t, rfl, rfl, hrest⟩
      · exact ⟨i + 1, rest, c, by rw [Nat.add_right_comm, Nat.add_assoc], hc, hrest⟩
    · rintro ⟨i, rest, c, rfl, hc, hrest⟩
      cases i with
      | zero =>
        obtain rfl : t = c := Option.some.inj hc
        exact Or.inl ⟨rest, hrest, rfl⟩
      | succ i => exact Or.inr ⟨i, rest, c, by rw [Nat.add_right_comm, Nat.add_assoc], hc, hrest⟩

/-- The walk reaches the end of the path: it goes on below every tree on the way. -/
def Reaches (ends : Tree → Bool) (t : Tree) (path : List Nat) : Prop :=
  ∀ front, front <+: path → front ≠ path → ∀ u ∈ t.at? front, ends u = false

theorem reaches_nil : t.Reaches ends [] := fun _ hfront hne =>
  absurd (List.prefix_nil.mp hfront) hne

theorem reaches_cons (hc : t.slot? i = some c) :
    t.Reaches ends (i :: path) ↔ ends t = false ∧ c.Reaches ends path := by
  have hat : ∀ front, t.at? (i :: front) = c.at? front := fun front => by rw [at?, hc]; rfl
  constructor
  · intro h
    constructor
    · exact h [] List.nil_prefix (List.cons_ne_nil i path).symm t rfl
    · intro front hfront hne u hu
      refine h (i :: front) (List.cons_prefix_cons.mpr ⟨rfl, hfront⟩) ?_ u (by rwa [hat])
      exact fun heq => hne (List.cons.inj heq).2
  · rintro ⟨ht, h⟩
    intro front hfront hne u hu
    cases front with
    | nil => exact Option.some.inj hu ▸ ht
    | cons j front =>
      obtain ⟨rfl, hbelow⟩ := List.cons_prefix_cons.mp hfront
      exact h front hbelow (fun heq => hne (congrArg (j :: ·) heq)) u (by rwa [← hat])

theorem reaches_never : t.Reaches never path := fun _ _ _ _ _ => rfl

theorem mem_places (ht : t ≠ .absent) :
    path ∈ t.places ends ↔ (∃ u, t.at? path = some u) ∧ t.Reaches ends path := by
  induction path generalizing t with
  | nil => simp [places_of_ne ht, at?, reaches_nil]
  | cons i path ih =>
    have hmem : i :: path ∈ t.places ends ↔
        ends t = false ∧ ∃ c, t.slot? i = some c ∧ path ∈ c.places ends := by
      rw [places_of_ne ht]
      cases hends : ends t with
      | true => simp
      | false =>
        simp only [Bool.false_eq_true, if_false, List.mem_cons, mem_placesFrom, Nat.zero_add,
          List.cons.injEq, slot?_eq_some_iff]
        constructor
        · rintro (h | ⟨_, _, c, ⟨rfl, rfl⟩, hc, hpath⟩)
          · cases h
          · refine ⟨trivial, c, ⟨hc, ?_⟩, hpath⟩
            rintro rfl
            cases hpath
        · rintro ⟨-, c, ⟨hc, -⟩, hpath⟩
          exact Or.inr ⟨i, path, c, ⟨rfl, rfl⟩, hc, hpath⟩
    rw [hmem]
    constructor
    · rintro ⟨hends, c, hc, hpath⟩
      obtain ⟨⟨u, hu⟩, hreaches⟩ := (ih (slot?_eq_some_iff.mp hc).2).mp hpath
      exact ⟨⟨u, by rw [at?, hc]; exact hu⟩, (reaches_cons hc).mpr ⟨hends, hreaches⟩⟩
    · rintro ⟨⟨u, hu⟩, hreaches⟩
      obtain ⟨c, hc, hu⟩ := Option.bind_eq_some_iff.mp hu
      obtain ⟨hends, hreaches⟩ := (reaches_cons hc).mp hreaches
      exact ⟨hends, c, hc, (ih (slot?_eq_some_iff.mp hc).2).mpr ⟨⟨u, hu⟩, hreaches⟩⟩

theorem pairwise_placesFrom (h : ∀ t ∈ ts, (t.places ends).Pairwise (List.Lex (· < ·))) :
    (placesFrom ends k ts).Pairwise (List.Lex (· < ·)) := by
  induction ts generalizing k with
  | nil => exact .nil
  | cons t ts ih =>
    obtain ⟨ht, hts⟩ := List.forall_mem_cons.mp h
    refine List.pairwise_append.mpr ⟨ht.map _ fun _ _ => .cons, ih hts, ?_⟩
    intro path hpath path' hpath'
    obtain ⟨_, -, rfl⟩ := List.mem_map.mp hpath
    obtain ⟨i, _, _, rfl, -, -⟩ := mem_placesFrom.mp hpath'
    exact .rel (by omega)

/-- A path comes before its extensions, and these before a path that turns to a later slot. -/
theorem pairwise_places (ends : Tree → Bool) (t : Tree) :
    (t.places ends).Pairwise (List.Lex (· < ·)) := by
  induction t using induction_children with
  | h t ih =>
    by_cases ht : t = .absent
    · subst ht
      exact .nil
    · rw [places_of_ne ht]
      refine .cons ?_ ?_
      · intro path hpath
        split at hpath
        · cases hpath
        · obtain ⟨_, _, _, rfl, -, -⟩ := mem_placesFrom.mp hpath
          exact .nil
      · split
        · exact .nil
        · exact pairwise_placesFrom ih

theorem map_at?_placesFrom (hts : root.children.drop k = ts)
    (h : ∀ t ∈ ts, (t.places ends).map t.at? = (t.preorder ends).map some) :
    (placesFrom ends k ts).map root.at? = (preorderOfAll ends ts).map some := by
  induction ts generalizing k with
  | nil => rfl
  | cons t ts ih =>
    obtain ⟨ht, hrest⟩ := List.forall_mem_cons.mp h
    have hchild : root.children[k]? = some t := by
      rw [← List.head?_drop, hts]
      rfl
    have hts : root.children.drop (k + 1) = ts := by rw [← List.tail_drop, hts]; rfl
    rw [placesFrom, preorderOfAll, List.map_append, List.map_append, ih hts hrest, List.map_map, ← ht]
    congr 1
    by_cases habsent : t = .absent
    · subst habsent
      rfl
    · apply List.map_congr_left
      intro path _
      rw [Function.comp_apply, at?, slot?_eq_some_iff.mpr ⟨hchild, habsent⟩]
      rfl

theorem map_at?_places (ends : Tree → Bool) (t : Tree) :
    (t.places ends).map t.at? = (t.preorder ends).map some := by
  induction t using induction_children with
  | h t ih =>
    by_cases ht : t = .absent
    · subst ht
      rfl
    · rw [places_of_ne ht, preorder_of_ne ht, List.map_cons, List.map_cons]
      congr 1
      split
      · rfl
      · exact map_at?_placesFrom rfl ih

/-! ## What a walk lists -/

/-- The trees are those that satisfy the predicate at their places in a tree, each place once, in
pre-order. -/
def Lists (t : Tree) (us : List Tree) (P : List Nat → Tree → Prop) : Prop :=
  ∃ paths : List (List Nat), paths.Pairwise (List.Lex (· < ·)) ∧ paths.map t.at? = us.map some ∧
    ∀ path, path ∈ paths ↔ ∃ u, t.at? path = some u ∧ P path u

theorem lists_preorder (ends : Tree → Bool) (ht : t ≠ .absent) :
    t.Lists (t.preorder ends) fun path _ => t.Reaches ends path :=
  ⟨t.places ends, pairwise_places ends t, map_at?_places ends t, fun _ =>
    (mem_places ht).trans exists_and_right.symm⟩

/-- The first place is that of the tree itself. -/
theorem lists_below (ht : t ≠ .absent) :
    t.Lists (preorderOfAll never t.children) fun path _ => path ≠ [] := by
  have hplaces : t.places never = [] :: placesFrom never 0 t.children := places_of_ne ht
  refine ⟨placesFrom never 0 t.children, ?_, ?_, ?_⟩
  · exact pairwise_placesFrom fun c _ => pairwise_places never c
  · exact map_at?_placesFrom rfl fun c _ => map_at?_places never c
  · intro path
    have hmem : path ∈ t.places never ↔ (∃ u, t.at? path = some u) ∧ t.Reaches never path :=
      mem_places ht
    rw [hplaces, List.mem_cons] at hmem
    constructor
    · intro hpath
      obtain ⟨⟨u, hu⟩, -⟩ := hmem.mp (Or.inr hpath)
      obtain ⟨_, _, _, rfl, -, -⟩ := mem_placesFrom.mp hpath
      exact ⟨u, hu, List.cons_ne_nil _ _⟩
    · rintro ⟨u, hu, hne⟩
      exact (hmem.mpr ⟨⟨u, hu⟩, reaches_never⟩).resolve_left hne

theorem Lists.congr {P Q : List Nat → Tree → Prop} (h : t.Lists us P) (hPQ : ∀ path u, P path u ↔ Q path u) :
    t.Lists us Q := by
  obtain ⟨paths, hpairwise, hmap, hmem⟩ := h
  exact ⟨paths, hpairwise, hmap, fun path => by simp only [hmem, hPQ]⟩

theorem Lists.filter {P : List Nat → Tree → Prop} (h : t.Lists us P) (q : Tree → Bool) :
    t.Lists (us.filter q) fun path u => P path u ∧ q u = true := by
  obtain ⟨paths, hpairwise, hmap, hmem⟩ := h
  refine ⟨paths.filter fun path => (t.at? path).any q, hpairwise.filter _, ?_, ?_⟩
  · calc (paths.filter fun path => (t.at? path).any q).map t.at?
        = (paths.map t.at?).filter (·.any q) := by rw [List.filter_map]; rfl
      _ = (us.map some).filter (·.any q) := by rw [hmap]
      _ = (us.filter q).map some := List.filter_map
  · intro path
    rw [List.mem_filter, hmem]
    constructor
    · rintro ⟨⟨u, hu, hP⟩, hq⟩
      rw [hu] at hq
      exact ⟨u, hu, hP, hq⟩
    · rintro ⟨u, hu, hP, hq⟩
      exact ⟨⟨u, hu, hP⟩, by rw [hu]; exact hq⟩

end Tree

/-! ## Handlers -/

open FourGL.Tree

namespace Handlers

variable {σ : Type} {h : Handlers σ} {t : Tree} {ts : List Tree}

@[simp] theorem find?_on (h : Handlers σ) (rule other : String) (handler : σ → Tree → σ) :
    (h.on rule handler).find? other = if other = rule then some handler else h.find? other := by
  rw [find?, on, List.lookup_cons]
  by_cases heq : other = rule
  · rw [if_pos heq, beq_iff_eq.mpr heq]
  · rw [if_neg heq, beq_false_of_ne heq, find?]

/-- Whether the tree is a node that has a handler. -/
def handles (h : Handlers σ) : Tree → Bool := topmost.ends fun rule => (h.find? rule).isSome

/-- What the handler of a node makes of what was gathered. -/
def call (h : Handlers σ) (gathered : σ) (t : Tree) : σ :=
  match h.find? t.kind with
  | some handler => handler gathered t
  | none => gathered

/-- The nodes that have a handler, without those below another one, in pre-order. -/
def handled (h : Handlers σ) (t : Tree) : List Tree := (t.preorder h.handles).filter h.handles

/-- They are the topmost nodes of the rules that have a handler. -/
theorem handled_eq_topmost (h : Handlers σ) (t : Tree) :
    h.handled t = t.topmost fun rule => (h.find? rule).isSome := (topmost_eq_preorder _ t).symm

theorem isNode_of_handles (ht : h.handles t = true) : t.isNode = true := by
  rw [handles, topmost.ends, Bool.and_eq_true] at ht
  exact ht.1

theorem handles_of_isNode (ht : t.isNode = true) : h.handles t = (h.find? t.kind).isSome := by
  rw [handles, topmost.ends, ht, Bool.true_and]

/-- A run calls the handlers of what the pending nodes list. -/
theorem handle_eq (ts : List Tree) (gathered : σ) (n : Nat) (hts : ∀ t ∈ ts, t.isNode = true) :
    h.handle ts gathered n =
      (((preorderOfAll h.handles ts).filter h.handles).foldl h.call gathered,
        n + ((preorderOfAll h.handles ts).filter h.handles).length) := by
  fun_induction h.handle ts gathered n with
  | case1 gathered n => rfl
  | case2 gathered n t rest handler hfind ih =>
    obtain ⟨ht, hrest⟩ := List.forall_mem_cons.mp hts
    have hhandles : h.handles t = true := by rw [handles_of_isNode ht, hfind]; rfl
    have hlist : t.preorder h.handles = [t] := by
      rw [preorder_of_ne (by rintro rfl; cases ht), if_pos hhandles]
    have hcall : handler gathered t = h.call gathered t := by rw [call, hfind]
    rw [ih hrest, preorderOfAll, hlist, List.singleton_append, List.filter_cons_of_pos hhandles,
      List.foldl_cons, List.length_cons, hcall, Nat.add_right_comm, Nat.add_assoc]
  | case3 gathered n t rest hfind ih =>
    obtain ⟨ht, hrest⟩ := List.forall_mem_cons.mp hts
    have hhandles : h.handles t = false := by rw [handles_of_isNode ht, hfind]; rfl
    have hlist : t.preorder h.handles = t :: preorderOfAll h.handles t.children := by
      rw [preorder_of_ne (by rintro rfl; cases ht), hhandles]
      rfl
    have hpending : (preorderOfAll h.handles (t.childNodes ++ rest)).filter h.handles =
        (preorderOfAll h.handles (t :: rest)).filter h.handles := by
      rw [preorderOfAll_append, List.filter_append, childNodes,
        filter_preorderOfAll_isNode fun _ => isNode_of_handles, preorderOfAll, hlist,
        List.cons_append, List.filter_cons_of_neg (by rw [hhandles]; exact Bool.false_ne_true),
        List.filter_append]
    have hnodes : ∀ u ∈ t.childNodes ++ rest, u.isNode = true :=
      List.forall_mem_append.mpr ⟨fun u hu => (List.mem_filter.mp hu).2, hrest⟩
    rw [ih hnodes, hpending]

theorem run_eq (h : Handlers σ) (ht : t.isNode = true) (gathered : σ) :
    h.run t gathered = ((h.handled t).foldl h.call gathered, (h.handled t).length) := by
  rw [run, handle_eq [t] gathered 0 (List.forall_mem_singleton.mpr ht), preorderOfAll_singleton,
    Nat.zero_add]
  rfl

end Handlers

/-! ## Walks from a node -/

/-- What the walks from a node meet, by recursion and by place. -/
structure Tree.WalksAgree (t : Tree) : Prop where
  descendants : t.descendants = (preorderOfAll never t.children).filter isNode
  /-- The walk with a stack of nodes. -/
  nodeStack : nodesOver t.childNodes = t.descendants
  /-- The nodes properly below. -/
  nodes : t.Lists t.descendants fun path u => path ≠ [] ∧ u.isNode = true
  tokens : t.tokens = (t.preorder never).filterMap token?
  /-- The walk with a stack of nodes and tokens. -/
  tokenStack : tokensOver t.filled = t.tokens
  /-- All tokens. -/
  leaves : t.Lists (t.tokens.map .token) fun _ u => u.token?.isSome = true
  increasing : t.tokens.Pairwise (· < ·)
  /-- One call for each node handled. -/
  run : ∀ {σ : Type} (h : Handlers σ) (gathered : σ),
    h.run t gathered = ((h.handled t).foldl h.call gathered, (h.handled t).length)
  /-- The nodes that have a handler, while no node above has one. -/
  handled : ∀ {σ : Type} (h : Handlers σ),
    t.Lists (h.handled t) fun path u => t.Reaches h.handles path ∧ h.handles u = true

namespace Tree

variable {t : Tree}

theorem map_token_tokens (t : Tree) :
    t.tokens.map .token = (t.preorder never).filter fun u => u.token?.isSome := by
  rw [tokens_eq_preorder, List.map_filterMap, ← List.filterMap_eq_filter]
  apply List.filterMap_congr
  intro u _
  cases u <;> rfl

theorem walksAgree (hnode : t.isNode = true) (hordered : t.leaves.Pairwise (· < ·)) :
    t.WalksAgree := by
  have hne : t ≠ .absent := by
    rintro rfl
    cases hnode
  constructor
  case descendants => exact descendants_eq_preorder t
  case nodeStack => exact (descendants_eq_nodesOver t).symm
  case nodes =>
    rw [descendants_eq_preorder]
    exact (lists_below hne).filter isNode
  case tokens => exact tokens_eq_preorder t
  case tokenStack => exact (tokens_eq_tokensOver hnode).symm
  case leaves =>
    rw [map_token_tokens]
    exact ((lists_preorder never hne).filter fun u => u.token?.isSome).congr fun path u =>
      ⟨And.right, fun h => ⟨reaches_never, h⟩⟩
  case increasing =>
    rw [tokens_eq_leaves]
    exact hordered
  case run => exact fun h gathered => h.run_eq hnode gathered
  case handled => exact fun h => (lists_preorder h.handles hne).filter h.handles

end Tree

/-- **Walks.** From every node of a parse, the walks for nodes, tokens and handlers meet what the
recursion over the tree lists. -/
theorem walks_agree {g : Grammar} (hg : g.IsBuilt) {limits : Limits} {source : String} {n : Nat}
    {p : Parse} (h : (Language.ofGrammar g).parseWithin n limits source = some p) :
    ∀ root ∈ p.root, ∀ path t, root.at? path = some t → t.isNode = true → t.WalksAgree :=
  fun root hroot _ _ ht hnode => walksAgree hnode
    ((Parse.isLaid_of_parseWithin hg h root hroot).ordered.sublist (leaves_sublist_of_at? ht))

/-- Below the root of two signs there is one node, and the handler of their rule is called once. -/
theorem walks_agree_nested : ∃ g : Grammar, g.IsBuilt ∧ ∃ p root inner,
    (Language.ofGrammar g).parseWithin 10 {} "+ +" = some p ∧ p.root = some root ∧
      root.at? [] = some root ∧ root.isNode = true ∧ root.WalksAgree ∧
      root.descendants = [inner] ∧ root.tokens = [0, 1] ∧
      ((({} : Handlers Nat).on "signs" fun n _ => n + 1).run root 0) = (1, 1) := by
  obtain ⟨g, hg, p, hp, hroot⟩ := exists_parse_nested
  have hwalks := walks_agree hg hp _ hroot [] _ rfl rfl
  exact ⟨g, hg, p, _, _, hp, hroot, rfl, rfl, hwalks, hwalks.descendants, hwalks.tokens,
    hwalks.run _ 0⟩

end FourGL
