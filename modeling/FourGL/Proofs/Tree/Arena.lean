import FourGL.Tree.Arena
import FourGL.Tree.Walk
import Mathlib.Data.List.Flatten
import Mathlib.Data.List.Nodup
import Mathlib.Data.List.Pairwise
import Mathlib.Data.List.Perm.Basic

/-!
# Trees in a table of nodes

Slots of a table hold trees if every node of the trees has its record there. `Holds` lists the
numbers of these nodes along the way, so that no number being listed twice says that no node is
shared.

**Theorem (`Holds.perm`).** What stands in the slots, together with the children of all nodes
listed, is every node listed and every token of the trees, each as often as it occurs there.

**Theorem (`Rooted.isTree`).** If a slot holds a node, and no node below it and no token is shared, the
table of parents made from that node is the inverse of the child lists, and every way up ends at it.
-/

namespace FourGL

/-! ## Tokens of trees -/

namespace Tree

mutual

/-- The tokens of a tree, from left to right. -/
def leaves : Tree → List Nat
  | .absent => []
  | .token i => [i]
  | .node _ _ children => leavesOfAll children

/-- The tokens of several trees. -/
def leavesOfAll : List Tree → List Nat
  | [] => []
  | t :: ts => t.leaves ++ leavesOfAll ts

end

theorem leavesOfAll_append (ts us : List Tree) :
    leavesOfAll (ts ++ us) = leavesOfAll ts ++ leavesOfAll us := by
  induction ts with
  | nil => rfl
  | cons t ts ih => rw [List.cons_append, leavesOfAll, ih, leavesOfAll, List.append_assoc]

theorem leaves_eq (t : Tree) : t.leaves = t.token?.toList ++ leavesOfAll t.children := by
  cases t <;> simp [leaves, token?, children, leavesOfAll]

theorem filterMap_token?_visit (ts : List Tree) (seen : Array Tree) :
    (visit (fun _ => false) ts seen).toList.filterMap token? =
      seen.toList.filterMap token? ++ leavesOfAll ts := by
  fun_induction visit with
  | case1 => simp [leavesOfAll]
  | case2 seen t rest ih =>
    simp only [Bool.false_eq_true, dite_false, ite_false, Array.toList_push] at ih ⊢
    rw [ih, leavesOfAll_append, leavesOfAll, leaves_eq, List.filterMap_append]
    cases ht : t.token? <;> simp [ht]

/-- The walk through a tree meets its tokens from left to right. -/
theorem tokens_eq_leaves (t : Tree) : t.tokens = t.leaves := by
  simp [tokens, allOf, filterMap_token?_visit, leavesOfAll]

end Tree

/-! ## Tables of parents -/

namespace Parents

variable {parents : Parents} {nodes tokens k : Nat} {e e' : Element}

/-- Enters links, one after the other. -/
def enterAll (parents : Parents) (links : List (Nat × Element)) : Parents :=
  links.foldl (fun ps l => ps.enter l.1 l.2) parents

/-- The table has a place for the element. -/
def Covers (parents : Parents) : Element → Prop
  | .node k => k < parents.ofNodes.size
  | .token i => i < parents.ofTokens.size

theorem covers_enter : (parents.enter k e').Covers e ↔ parents.Covers e := by
  cases e <;> cases e' <;> simp [enter, Covers]

theorem of?_enter (h : parents.Covers e') :
    (parents.enter k e').of? e = if e = e' then some k else parents.of? e := by
  cases e <;> cases e' <;> simp_all [enter, of?, Covers, Array.getD_eq_getD_getElem?,
    Array.getElem?_setIfInBounds, eq_comm, apply_ite]

theorem of?_unknown : (unknown nodes tokens).of? e = none := by
  cases e <;> simp [unknown, of?, Array.getD_eq_getD_getElem?, Array.getElem?_replicate] <;>
    split <;> rfl

/-- Links to different elements are all found afterwards. -/
theorem of?_enterAll {links : List (Nat × Element)} (hcovers : ∀ l ∈ links, parents.Covers l.2)
    (hnodup : (links.map Prod.snd).Nodup) :
    (parents.enterAll links).of? e = some k ↔
      (k, e) ∈ links ∨ (e ∉ links.map Prod.snd ∧ parents.of? e = some k) := by
  induction links generalizing parents with
  | nil => simp [enterAll]
  | cons l links ih =>
    rw [enterAll, List.foldl_cons, ← enterAll]
    obtain ⟨hfirst, hrest⟩ := List.forall_mem_cons.mp hcovers
    obtain ⟨hnew, hnodup⟩ := List.nodup_cons.mp hnodup
    rw [ih (fun l' hl' => covers_enter.mpr (hrest l' hl')) hnodup,
      of?_enter hfirst]
    obtain ⟨k', e'⟩ := l
    by_cases he : e = e'
    · subst he
      have hmem : (k, e) ∉ links := fun h => hnew (List.mem_map.mpr ⟨_, h, rfl⟩)
      have hnot : e ∉ links.map Prod.snd := hnew
      simp [hmem, hnot, eq_comm]
    · simp [he]

end Parents

/-! ## Slots that hold trees -/

namespace Arena

open Element (present)
open FourGL.Tree (leavesOfAll)

/-- The slots hold the trees. The nodes of the trees have the numbers listed, those of a later slot
before those of an earlier one, and each before the nodes below it. -/
inductive Holds (a : Arena) : List (Option Element) → List Tree → List Nat → Prop
  | nil : Holds a [] [] []
  | absent {slots : List (Option Element)} {ts : List Tree} {ks : List Nat} : Holds a slots ts ks →
      Holds a (none :: slots) (.absent :: ts) ks
  | token {slots : List (Option Element)} {ts : List Tree} {ks : List Nat} {i : Nat} :
      Holds a slots ts ks → Holds a (some (.token i) :: slots) (.token i :: ts) ks
  | node {slots slots' : List (Option Element)} {ts children : List Tree} {ks below : List Nat}
      {k : Nat} {kind : String} {span : Span} : a.nodes[k]? = some ⟨kind, span, slots'⟩ →
      Holds a slots' children below → Holds a slots ts ks →
      Holds a (some (.node k) :: slots) (.node kind span children :: ts) (ks ++ k :: below)

variable {a b : Arena} {slots more : List (Option Element)} {ts us : List Tree}
  {ks below : List Nat} {k root : Nat} {t : Tree}

theorem slotsOf_eq {record : NodeRecord} (h : a.nodes[k]? = some record) :
    a.slotsOf k = record.slots := by
  rw [slotsOf, h]

namespace Holds

theorem length_eq (h : a.Holds slots ts ks) : slots.length = ts.length := by
  induction h <;> simp_all

theorem lt_size (h : a.Holds slots ts ks) : ∀ k ∈ ks, k < a.nodes.size := by
  induction h with
  | nil => simp
  | absent _ ih => exact ih
  | token _ ih => exact ih
  | node hk _ _ ihc ih =>
    intro n hn
    rcases List.mem_append.mp hn with hn | hn
    · exact ih n hn
    · rcases List.mem_cons.mp hn with rfl | hn
      · exact (Array.getElem?_eq_some_iff.mp hk).1
      · exact ihc n hn

/-- **Frame.** Only the records of the nodes listed matter. -/
theorem congr (h : a.Holds slots ts ks) (hab : ∀ k ∈ ks, b.nodes[k]? = a.nodes[k]?) :
    b.Holds slots ts ks := by
  induction h with
  | nil => exact .nil
  | absent _ ih => exact .absent (ih hab)
  | token _ ih => exact .token (ih hab)
  | node hk _ _ ihc ih =>
    refine .node ?_ (ihc fun n hn => ?_) (ih fun n hn => ?_)
    · rw [hab _ (by simp), hk]
    · exact hab n (by simp [hn])
    · exact hab n (by simp [hn])

theorem append (h : a.Holds slots ts ks) (h' : a.Holds more us below) :
    a.Holds (slots ++ more) (ts ++ us) (below ++ ks) := by
  induction h with
  | nil =>
    rw [List.append_nil]
    exact h'
  | absent _ ih => exact .absent ih
  | token _ ih => exact .token ih
  | node hk hc _ _ ih =>
    rw [← List.append_assoc]
    exact .node hk hc ih

theorem split (left : List (Option Element)) {right : List (Option Element)}
    (h : a.Holds (left ++ right) ts ks) :
    ∃ ts₁ ts₂ ks₁ ks₂, ts = ts₁ ++ ts₂ ∧ ks = ks₂ ++ ks₁ ∧ a.Holds left ts₁ ks₁ ∧
      a.Holds right ts₂ ks₂ := by
  induction left generalizing ts ks with
  | nil => exact ⟨[], ts, [], ks, rfl, (List.append_nil ks).symm, .nil, h⟩
  | cons slot left ih =>
    cases h with
    | absent h =>
      obtain ⟨ts₁, ts₂, ks₁, ks₂, rfl, rfl, h₁, h₂⟩ := ih h
      exact ⟨_, ts₂, ks₁, ks₂, rfl, rfl, .absent h₁, h₂⟩
    | token h =>
      obtain ⟨ts₁, ts₂, ks₁, ks₂, rfl, rfl, h₁, h₂⟩ := ih h
      exact ⟨_, ts₂, ks₁, ks₂, rfl, rfl, .token h₁, h₂⟩
    | node hk hc h =>
      obtain ⟨ts₁, ts₂, ks₁, ks₂, rfl, rfl, h₁, h₂⟩ := ih h
      exact ⟨_, ts₂, _, ks₂, rfl, List.append_assoc _ _ _, .node hk hc h₁, h₂⟩

/-- A slot that holds a node. -/
theorem single {kind : String} {span : Span} (hk : a.nodes[k]? = some ⟨kind, span, slots⟩)
    (h : a.Holds slots ts ks) : a.Holds [some (.node k)] [.node kind span ts] (k :: ks) :=
  .node hk h .nil

end Holds

/-! ## Links -/

/-- The nodes listed, each with every one of its children. -/
def links (a : Arena) (ks : List Nat) : List (Nat × Element) :=
  ks.flatMap fun k => (a.childrenOf k).map (k, ·)

theorem mem_links {e : Element} : (k, e) ∈ a.links ks ↔ k ∈ ks ∧ e ∈ a.childrenOf k := by
  simp only [links, List.mem_flatMap, List.mem_map, Prod.mk.injEq]
  constructor
  · rintro ⟨_, hk, _, he, rfl, rfl⟩
    exact ⟨hk, he⟩
  · rintro ⟨hk, he⟩
    exact ⟨k, hk, e, he, rfl, rfl⟩

theorem map_snd_links : (a.links ks).map Prod.snd = ks.flatMap a.childrenOf := by
  simp [links, List.map_flatMap, Function.comp_def]

/-- **Every node and token is linked to once.** -/
theorem Holds.perm (h : a.Holds slots ts ks) :
    (present slots ++ ks.flatMap a.childrenOf).Perm
      (ks.map Element.node ++ (leavesOfAll ts).map Element.token) := by
  induction h with
  | nil => exact .refl _
  | absent _ ih => exact ih
  | @token slots ts ks i _ ih =>
    refine (ih.cons (Element.token i)).trans ?_
    exact List.perm_middle.symm
  | @node slots slots' ts children ks below k kind span hk hc _ ihc ih =>
    have hchildren : a.childrenOf k = present slots' := by
      rw [childrenOf, slotsOf_eq hk]
    rw [List.perm_iff_count] at ih ihc ⊢
    intro e
    have h₁ := ih e
    have h₂ := ihc e
    simp only [present, List.flatMap_append, List.flatMap_cons, hchildren,
      List.map_append, List.map_cons, leavesOfAll, Tree.leaves, List.cons_append,
      List.count_append, List.count_cons] at h₁ h₂ ⊢
    omega

/-! ## Walks -/

/-- The tokens found by walking down are those of the trees. -/
theorem Holds.tokensBelow (h : a.Holds slots ts ks) : ∃ cost, ∀ n rest,
    a.tokensBelow (n + cost) (present slots ++ rest) =
      (a.tokensBelow n rest).map (leavesOfAll ts ++ ·) := by
  induction h with
  | nil => exact ⟨0, fun n rest => by simp [present, leavesOfAll]⟩
  | absent _ ih =>
    obtain ⟨cost, ih⟩ := ih
    exact ⟨cost, fun n rest => by simpa [present, leavesOfAll, Tree.leaves] using ih n rest⟩
  | token _ ih =>
    obtain ⟨cost, ih⟩ := ih
    refine ⟨cost + 1, fun n rest => ?_⟩
    rw [present, List.cons_append, ← Nat.add_assoc, Arena.tokensBelow, ih, Option.map_map]
    rfl
  | @node slots slots' ts children ks below k kind span hk _ _ ihc ih =>
    obtain ⟨cost, ih⟩ := ih
    obtain ⟨cost', ihc⟩ := ihc
    have hchildren : a.childrenOf k = present slots' := by
      rw [childrenOf, slotsOf_eq hk]
    refine ⟨cost + cost' + 1, fun n rest => ?_⟩
    rw [present, List.cons_append, ← Nat.add_assoc, Arena.tokensBelow, hchildren, ← Nat.add_assoc,
      ihc, ih, Option.map_map, leavesOfAll, Tree.leaves]
    congr 1
    funext more
    exact (List.append_assoc _ _ _).symm

/-- The walk that fills a table of parents enters the children of all nodes listed, in order. -/
theorem Holds.enterBelow (h : a.Holds slots ts ks) : ∃ cost, ∀ n pending parents,
    a.enterBelow (n + cost)
        (((present slots).filterMap Element.node?).reverse ++ pending) parents =
      a.enterBelow n pending (parents.enterAll (a.links ks)) := by
  induction h with
  | nil => exact ⟨0, fun _ _ _ => rfl⟩
  | absent _ ih => exact ih
  | token _ ih => exact ih
  | @node slots slots' ts children ks below k kind span hk _ _ ihc ih =>
    obtain ⟨cost, ih⟩ := ih
    obtain ⟨cost', ihc⟩ := ihc
    have hchildren : a.childrenOf k = present slots' := by
      rw [childrenOf, slotsOf_eq hk]
    refine ⟨cost' + 1 + cost, fun n pending parents => ?_⟩
    simp only [present, List.filterMap_cons, Element.node?, List.reverse_cons, List.append_assoc,
      List.singleton_append, ← Nat.add_assoc, ih, Arena.enterBelow, hchildren, ihc]
    simp [Parents.enterAll, links, List.flatMap_append, List.foldl_append, List.foldl_map,
      hchildren]

/-! ## One tree -/

/-- Found on a walk down from a node, which is found itself. -/
inductive Below (a : Arena) (root : Nat) : Element → Prop
  | root : Below a root (.node root)
  | child {k : Nat} {e : Element} : Below a root (.node k) → e ∈ a.childrenOf k → Below a root e

/-- The nodes below the root form a tree, and the table of parents leads up in it. -/
structure IsTree (a : Arena) (root : Nat) (parents : Parents) : Prop where
  /-- Every node found is in the table of nodes. -/
  known : ∀ k, a.Below root (.node k) → k < a.nodes.size
  /-- The root is in no slot. -/
  top : ∀ k, a.Below root (.node k) → .node root ∉ a.childrenOf k
  /-- Nothing is in two slots of a node. -/
  nodup : ∀ k, a.Below root (.node k) → (a.childrenOf k).Nodup
  /-- Nothing is in the slots of two nodes. -/
  single : ∀ e k k', a.Below root (.node k) → a.Below root (.node k') → e ∈ a.childrenOf k →
    e ∈ a.childrenOf k' → k = k'
  /-- What has a parent is a child of this node, which is found, and the other way round. -/
  inverse : ∀ e k, parents.of? e = some k ↔ a.Below root (.node k) ∧ e ∈ a.childrenOf k
  /-- The way up ends at the root. -/
  ancestors : ∀ e, a.Below root e → ∃ n path, parents.ancestors n e = some path ∧
    (e :: path.map Element.node).getLast? = some (.node root)

/-- A node holds a tree whose nodes have different numbers, and whose tokens are different. -/
structure Rooted (a : Arena) (root : Nat) (t : Tree) (ks : List Nat) : Prop where
  holds : a.Holds [some (.node root)] [t] ks
  numbers : ks.Nodup
  tokens : t.tokens.Nodup

/-- A property of all slots' contents that passes on to children holds of all nodes listed. -/
theorem Holds.of_closed {P : Element → Prop} (h : a.Holds slots ts ks)
    (hslots : ∀ e ∈ present slots, P e)
    (hclosed : ∀ k, P (.node k) → ∀ e ∈ a.childrenOf k, P e) : ∀ k ∈ ks, P (.node k) := by
  induction h with
  | nil => simp
  | absent _ ih => exact ih hslots
  | token _ ih => exact ih fun e he => hslots e (List.mem_cons_of_mem _ he)
  | @node slots slots' ts children ks below k kind span hk _ _ ihc ih =>
    have hnode : P (.node k) := hslots _ List.mem_cons_self
    have hchildren : a.childrenOf k = present slots' := by
      rw [childrenOf, slotsOf_eq hk]
    intro n hn
    rcases List.mem_append.mp hn with hn | hn
    · exact ih (fun e he => hslots e (List.mem_cons_of_mem _ he)) n hn
    · rcases List.mem_cons.mp hn with rfl | hn
      · exact hnode
      · exact ihc (hchildren ▸ hclosed k hnode) n hn

namespace Rooted

variable {tokens : Nat}

theorem perm (h : a.Rooted root t ks) : (Element.node root :: ks.flatMap a.childrenOf).Perm
    (ks.map Element.node ++ t.tokens.map Element.token) := by
  have := h.holds.perm
  rwa [leavesOfAll, leavesOfAll, List.append_nil, ← Tree.tokens_eq_leaves] at this

/-- **No sharing.** The root and the children of all nodes listed are different. -/
theorem nodup (h : a.Rooted root t ks) : (Element.node root :: ks.flatMap a.childrenOf).Nodup := by
  rw [h.perm.nodup_iff]
  refine List.Nodup.append (h.numbers.map fun _ _ => Element.node.inj)
    (h.tokens.map fun _ _ => Element.token.inj) ?_
  intro e hnode htoken
  obtain ⟨k, -, rfl⟩ := List.mem_map.mp hnode
  obtain ⟨i, -, hi⟩ := List.mem_map.mp htoken
  cases hi

/-- The nodes listed are those found below the root. -/
theorem below_node_iff (h : a.Rooted root t ks) : a.Below root (.node k) ↔ k ∈ ks := by
  have hmem : ∀ n, .node n ∈ Element.node root :: ks.flatMap a.childrenOf → n ∈ ks := by
    intro n hn
    simpa using h.perm.mem_iff.mp hn
  constructor
  · intro hk
    generalize he : Element.node k = e at hk
    induction hk generalizing k with
    | root =>
      cases he
      exact hmem root List.mem_cons_self
    | child _ hmember ih =>
      subst he
      exact hmem k (List.mem_cons_of_mem _ (List.mem_flatMap.mpr ⟨_, ih rfl, hmember⟩))
  · refine h.holds.of_closed (P := a.Below root) ?_ (fun k hk e he => .child hk he) k
    intro e he
    obtain rfl := List.mem_singleton.mp he
    exact .root

/-- The tokens of the tree are those found below the root. -/
theorem below_token_iff (h : a.Rooted root t ks) {i : Nat} :
    a.Below root (.token i) ↔ i ∈ t.tokens := by
  have hmem : .token i ∈ Element.node root :: ks.flatMap a.childrenOf ↔ i ∈ t.tokens := by
    rw [h.perm.mem_iff]
    simp
  constructor
  · intro hi
    cases hi with
    | child hk hmember =>
      exact hmem.mp (List.mem_cons_of_mem _
        (List.mem_flatMap.mpr ⟨_, h.below_node_iff.mp hk, hmember⟩))
  · intro hi
    rcases List.mem_cons.mp (hmem.mpr hi) with hroot | hi
    · cases hroot
    · obtain ⟨k, hk, hmember⟩ := List.mem_flatMap.mp hi
      exact .child (h.below_node_iff.mpr hk) hmember

/-- Walking down from the root finds the tokens of the tree in their order. -/
theorem tokensBelow (h : a.Rooted root t ks) : ∃ least, ∀ n ≥ least,
    a.tokensBelow n [.node root] = some t.tokens := by
  obtain ⟨cost, hcost⟩ := h.holds.tokensBelow
  refine ⟨1 + cost, fun n hn => ?_⟩
  obtain ⟨n, rfl⟩ := Nat.exists_eq_add_of_le' hn
  have := hcost (n + 1) []
  rw [present, present, List.append_nil, leavesOfAll, leavesOfAll, List.append_nil,
    ← Tree.tokens_eq_leaves, Arena.tokensBelow] at this
  rw [← Nat.add_assoc, this]
  simp

/-- The way up from what is below the root. -/
theorem exists_ancestors {parents : Parents} (h : a.Rooted root t ks)
    (hinverse : ∀ e k, parents.of? e = some k ↔ a.Below root (.node k) ∧ e ∈ a.childrenOf k)
    {e : Element} (he : a.Below root e) : ∃ n path, parents.ancestors n e = some path ∧
      (e :: path.map Element.node).getLast? = some (.node root) := by
  induction he with
  | root =>
    have hnone : parents.of? (.node root) = none := by
      rw [Option.eq_none_iff_forall_ne_some]
      intro k hk
      obtain ⟨hbelow, hmember⟩ := (hinverse _ k).mp hk
      exact (List.nodup_cons.mp h.nodup).1
        (List.mem_flatMap.mpr ⟨k, h.below_node_iff.mp hbelow, hmember⟩)
    exact ⟨1, [], by rw [Parents.ancestors, hnone], rfl⟩
  | @child k e hk hmember ih =>
    obtain ⟨n, path, hpath, hlast⟩ := ih
    refine ⟨n + 1, k :: path, ?_, ?_⟩
    · rw [Parents.ancestors, (hinverse e k).mpr ⟨hk, hmember⟩]
      simp [hpath]
    · rw [List.map_cons, List.getLast?_cons_cons]
      exact hlast

/-- The parents found are those of the links. -/
theorem of?_entered (h : a.Rooted root t ks) (htokens : ∀ i ∈ t.tokens, i < tokens) {e : Element} :
    ((Parents.unknown a.nodes.size tokens).enterAll (a.links ks)).of? e = some k ↔
      a.Below root (.node k) ∧ e ∈ a.childrenOf k := by
  have hcovers : ∀ l ∈ a.links ks, (Parents.unknown a.nodes.size tokens).Covers l.2 := by
    rintro ⟨k, e⟩ hl
    obtain ⟨hk, he⟩ := mem_links.mp hl
    have hmem := h.perm.mem_iff.mp (List.mem_cons_of_mem _ (List.mem_flatMap.mpr ⟨k, hk, he⟩))
    cases e with
    | node n =>
      have hlt := h.holds.lt_size n (by simpa using hmem)
      simpa [Parents.Covers, Parents.unknown] using hlt
    | token i =>
      have hlt := htokens i (by simpa using hmem)
      simpa [Parents.Covers, Parents.unknown] using hlt
  have hnodup := (List.nodup_cons.mp h.nodup).2
  rw [Parents.of?_enterAll hcovers (map_snd_links ▸ hnodup), mem_links, h.below_node_iff]
  simp [Parents.of?_unknown]

/-- **Trees.** The walk down from the root fills a table of parents that leads up in a tree. -/
theorem isTree (h : a.Rooted root t ks) (tokens : Nat) (htokens : ∀ i ∈ t.tokens, i < tokens) :
    ∃ parents,
    (∃ least, ∀ n ≥ least, a.enterBelow n [root] (.unknown a.nodes.size tokens) = some parents) ∧
      a.IsTree root parents := by
  obtain ⟨cost, hcost⟩ := h.holds.enterBelow
  obtain ⟨htop, hnodup⟩ := List.nodup_cons.mp h.nodup
  obtain ⟨hinner, hdisjoint⟩ := List.nodup_flatMap.mp hnodup
  have hinverse := fun e k => h.of?_entered (k := k) htokens (e := e)
  refine ⟨(Parents.unknown a.nodes.size tokens).enterAll (a.links ks),
    ⟨1 + cost, fun n hn => ?_⟩, ?_, ?_, ?_, ?_, hinverse,
    fun e he => h.exists_ancestors hinverse he⟩
  · obtain ⟨n, rfl⟩ := Nat.exists_eq_add_of_le' hn
    rw [← Nat.add_assoc]
    exact hcost (n + 1) [] _
  · intro k hk
    exact h.holds.lt_size k (h.below_node_iff.mp hk)
  · intro k hk hroot
    exact htop (List.mem_flatMap.mpr ⟨k, h.below_node_iff.mp hk, hroot⟩)
  · intro k hk
    exact hinner k (h.below_node_iff.mp hk)
  · intro e k k' hk hk' he he'
    have hsymm : Std.Symm (Function.onFun List.Disjoint a.childrenOf) :=
      ⟨fun _ _ h _ hx hy => h hy hx⟩
    by_contra hne
    exact hdisjoint.forall (h.below_node_iff.mp hk) (h.below_node_iff.mp hk') hne he he'

end Rooted

end Arena

end FourGL
