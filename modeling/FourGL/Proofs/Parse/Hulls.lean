import FourGL.Proofs.Token.Tiling
import FourGL.Proofs.Tree.Paths

/-!
# Nodes are the hulls of their tokens

A node takes its span from its children when it is built, and a list is given a new span each time
something is added to it. In the end the spans say no more than the tokens do.

**Theorem (`spans_are_hulls`).** In the tree of a parse, a node with tokens reaches from the start of the
first to the end of the last one, and a node without tokens is empty and lies within the text. So the
children of a node that cover any text lie in it, one behind the other, and the text of a node is cut from
the source between characters.

That a span is the hull of the tokens is kept by every action on trees (`Spanned`), in whatever order the
tokens stand: hulls of parts make up the hull of the whole, and parts without tokens do not count. The order
comes in only where the first and the last token are named.
-/

namespace FourGL

/-! ## Hulls -/

namespace Span

variable {s t u : Span} {ss ts : List Span}

/-- The smallest span that holds all of them; none if there are none. -/
def hull? : List Span → Option Span
  | [] => none
  | s :: ss => some (ss.foldl cover s)

/-- The span holds some text. -/
def Proper (s : Span) : Prop := s.start < s.stop

instance : Std.Associative cover := ⟨fun s t u => by simp [cover, Nat.min_assoc, Nat.max_assoc]⟩

theorem hull?_cons (s : Span) (ss : List Span) :
    hull? (s :: ss) = (some s).merge cover (hull? ss) := by
  cases ss with
  | nil => rfl
  | cons t ts => exact congrArg some List.foldl_assoc

theorem hull?_append (ss ts : List Span) :
    hull? (ss ++ ts) = (hull? ss).merge cover (hull? ts) := by
  induction ss with
  | nil => simp [hull?]
  | cons s ss ih =>
    have hassoc := (inferInstance : Std.Associative (Option.merge cover)).assoc
    rw [List.cons_append, hull?_cons, ih, hull?_cons, hassoc]

theorem Proper.isEmpty (h : s.Proper) : s.isEmpty = false := by
  simpa [Span.isEmpty] using Nat.ne_of_lt h

theorem Proper.cover (hs : s.Proper) (ht : t.Proper) : (s.cover t).Proper := by
  simp only [Proper, Span.cover] at *
  omega

theorem isEmpty_emptyAt (n : Nat) : (emptyAt n).isEmpty = true := by simp [emptyAt, isEmpty]

theorem proper_of_hull? (h : ∀ s ∈ ss, s.Proper) : ∀ s ∈ hull? ss, s.Proper := by
  induction ss with
  | nil => exact fun s hs => nomatch hs
  | cons s ss ih =>
    obtain ⟨hs, hss⟩ := List.forall_mem_cons.mp h
    rw [hull?_cons]
    cases hrest : hull? ss with
    | none => simpa using hs
    | some t => simpa using hs.cover (ih hss t hrest)

theorem hull?_eq_none_iff : hull? ss = none ↔ ss = [] := by cases ss <;> simp [hull?]

/-- Between them, spans reach as far as their hull. -/
theorem hull?_eq_some (h : hull? ss = some t) :
    (∀ s ∈ ss, t.start ≤ s.start ∧ s.stop ≤ t.stop) ∧
    (∃ s ∈ ss, s.start = t.start) ∧ ∃ s ∈ ss, s.stop = t.stop := by
  induction ss generalizing t with
  | nil => cases h
  | cons s ss ih =>
    rw [hull?_cons] at h
    cases hrest : hull? ss with
    | none =>
      rw [hrest] at h
      cases h
      obtain rfl := hull?_eq_none_iff.mp hrest
      simp
    | some u =>
      rw [hrest] at h
      cases h
      obtain ⟨hall, ⟨a, ha, hstart⟩, b, hb, hstop⟩ := ih hrest
      refine ⟨List.forall_mem_cons.mpr ⟨⟨min_le_left _ _, le_max_left _ _⟩, fun r hr => ?_⟩, ?_, ?_⟩
      · exact ⟨(min_le_right _ _).trans (hall r hr).1, (hall r hr).2.trans (le_max_right _ _)⟩
      · rcases min_choice s.start u.start with h | h
        · exact ⟨s, List.mem_cons_self, h.symm⟩
        · exact ⟨a, List.mem_cons_of_mem s ha, hstart.trans h.symm⟩
      · rcases max_choice s.stop u.stop with h | h
        · exact ⟨s, List.mem_cons_self, h.symm⟩
        · exact ⟨b, List.mem_cons_of_mem s hb, hstop.trans h.symm⟩

/-- The hull of spans one behind the other reaches from the first to the last. -/
theorem hull?_of_pairwise (hproper : ∀ s ∈ ss, s.Proper)
    (h : ss.Pairwise fun s t => s.stop ≤ t.start) :
    ∀ first ∈ ss.head?, ∀ last ∈ ss.getLast?, hull? ss = some ⟨first.start, last.stop⟩ := by
  induction ss with
  | nil => exact fun first hfirst => nomatch hfirst
  | cons s ss ih =>
    intro first hfirst last hlast
    obtain rfl : s = first := Option.some.inj hfirst
    obtain ⟨hs, hss⟩ := List.forall_mem_cons.mp hproper
    obtain ⟨hbehind, hrest⟩ := List.pairwise_cons.mp h
    cases ss with
    | nil =>
      cases hlast
      rfl
    | cons t ts =>
      rw [List.getLast?_cons_cons] at hlast
      have hstart := hbehind t List.mem_cons_self
      have hstop := hbehind last (List.mem_of_getLast? hlast)
      have hlastProper := hss last (List.mem_of_getLast? hlast)
      rw [hull?_cons, ih hss hrest t rfl last hlast]
      simp only [Option.merge_some_some, cover, Option.some.injEq, Span.mk.injEq]
      simp only [Proper] at hs hlastProper
      omega

end Span

/-! ## Spans of trees -/

namespace Input

variable {input : Input} {is js : List Nat} {s : Span}

/-- The stretch of text that a token covers. -/
def spanAt (input : Input) (i : Nat) : Span := input.spanOf (.token i)

/-- The span is the hull of the tokens, or is empty at some position if there are none. -/
def Hulls (input : Input) (is : List Nat) (s : Span) : Prop :=
  match Span.hull? (is.map input.spanAt) with
  | some hull => s = hull
  | none => ∃ position, s = .emptyAt (input.offset position)

/-- A span with tokens is their hull, and holds some text as they do; one without tokens is empty. -/
theorem Hulls.cases (h : input.Hulls is s) (hproper : ∀ i ∈ is, (input.spanAt i).Proper) :
    s.Proper ∧ Span.hull? (is.map input.spanAt) = some s ∨
    (∃ position, s = .emptyAt (input.offset position)) ∧ Span.hull? (is.map input.spanAt) = none := by
  unfold Hulls at h
  split at h
  · next hull heq =>
    subst h
    exact Or.inl ⟨Span.proper_of_hull? (List.forall_mem_map.mpr hproper) s heq, heq⟩
  · next heq => exact Or.inr ⟨h, heq⟩

theorem hulls_of_eq_some (h : Span.hull? (is.map input.spanAt) = some s) : input.Hulls is s := by
  rw [Hulls, h]

theorem hulls_of_eq_none {position : Nat} (h : Span.hull? (is.map input.spanAt) = none) :
    input.Hulls is (.emptyAt (input.offset position)) := by
  rw [Hulls, h]
  exact ⟨position, rfl⟩

theorem hull?_eq (input : Input) (ts : List Tree) :
    input.hull? ts = Span.hull? ((ts.map input.spanOf).filter (!·.isEmpty)) := by
  rw [hull?]
  cases (ts.map input.spanOf).filter (!·.isEmpty) <;> rfl

end Input

namespace Tree

variable {input : Input} {position : Nat} {kind : String} {t list : Tree} {ts more : List Tree}

/-- The tokens of the tree cover text, and the spans of its nodes are their hulls. -/
inductive Spanned (input : Input) : Tree → Prop
  | absent : Spanned input .absent
  | token {i : Nat} : (input.spanAt i).Proper → Spanned input (.token i)
  | node {kind : String} {span : Span} {children : List Tree} : (∀ c ∈ children, Spanned input c) →
    input.Hulls (leavesOfAll children) span → Spanned input (.node kind span children)

namespace Spanned

theorem proper (h : Spanned input t) : ∀ i ∈ t.leaves, (input.spanAt i).Proper := by
  induction h with
  | absent => exact fun i hi => nomatch hi
  | token h => exact List.forall_mem_singleton.mpr h
  | node _ _ ih =>
    intro i hi
    obtain ⟨c, hc, hi⟩ := mem_leavesOfAll.mp hi
    exact ih c hc i hi

/-- A tree counts as much as its tokens do. -/
theorem hull?_eq (h : Spanned input t) :
    Span.hull? ([input.spanOf t].filter (!·.isEmpty)) = Span.hull? (t.leaves.map input.spanAt) := by
  have hproper := h.proper
  cases h with
  | absent => rfl
  | token h =>
    have hkept : (input.spanOf (.token _)).isEmpty = false := h.isEmpty
    simp only [List.filter_cons, hkept]
    rfl
  | @node _ span children hall hhulls =>
    rw [leaves] at hproper ⊢
    rcases hhulls.cases hproper with ⟨hspan, hhull⟩ | ⟨⟨position, rfl⟩, hhull⟩
    · rw [hhull]
      simp [Input.spanOf, hspan.isEmpty, Span.hull?]
    · rw [hhull]
      simp [Input.spanOf, Span.isEmpty_emptyAt, Span.hull?]

theorem hull?_eq_of_forall (h : ∀ t ∈ ts, Spanned input t) :
    input.hull? ts = Span.hull? ((leavesOfAll ts).map input.spanAt) := by
  rw [Input.hull?_eq]
  induction ts with
  | nil => rfl
  | cons t ts ih =>
    obtain ⟨ht, hts⟩ := List.forall_mem_cons.mp h
    rw [leavesOfAll, List.map_append, Span.hull?_append, ← ih hts, ← ht.hull?_eq, ← Span.hull?_append,
      ← List.filter_append]
    rfl

/-- A node built over trees. -/
theorem build (h : ∀ t ∈ ts, Spanned input t) : Spanned input (.build input position kind ts) := by
  refine .node h ?_
  have hhull := hull?_eq_of_forall h
  cases hspan : input.hull? ts with
  | none => exact Input.hulls_of_eq_none (hhull.symm.trans hspan)
  | some s => exact Input.hulls_of_eq_some (hhull.symm.trans hspan)

/-- A list with trees added. -/
theorem append (hlist : Spanned input list) (h : ∀ t ∈ more, Spanned input t) :
    Spanned input (list.append input more) := by
  have hproper := hlist.proper
  cases hlist with
  | absent => exact .absent
  | token h => exact .token h
  | @node _ span children hall hhulls =>
    refine .node (List.forall_mem_append.mpr ⟨hall, h⟩) ?_
    rw [leaves] at hproper
    rw [Input.Hulls, leavesOfAll_append, List.map_append, Span.hull?_append, ← hull?_eq_of_forall h]
    rcases hhulls.cases hproper with ⟨hspan, hhull⟩ | ⟨⟨position, rfl⟩, hhull⟩
    · rw [hhull]
      cases input.hull? more with
      | none => rfl
      | some s => simp [extendSpan, hspan.isEmpty]
    · rw [hhull]
      cases input.hull? more with
      | none => exact ⟨position, rfl⟩
      | some s => simp [extendSpan, Span.isEmpty_emptyAt]

/-- Every action on trees keeps their spans right. -/
theorem run (action : TreeAction) (h : ∀ t ∈ ts, Spanned input t) :
    Spanned input (action.run input position ts) := by
  cases action with
  | node | emptyList => exact build h
  | startList => exact build fun t ht => h t (List.mem_of_mem_take ht)
  | absent | accept => exact .absent
  | unwrap =>
    cases ts with
    | nil => exact .absent
    | cons t ts => exact h t List.mem_cons_self
  | appendList drop =>
    cases ts with
    | nil => exact .absent
    | cons t ts =>
      obtain ⟨ht, hts⟩ := List.forall_mem_cons.mp h
      exact ht.append fun u hu => hts u ((TreeAction.additions_sublist drop ts).mem hu)

end Spanned

end Tree

namespace DerivationTree

mutual

/-- The image of a derivation has the spans of its tokens. -/
theorem spanned_image (g : Grammar) (input : Input) : ∀ d : DerivationTree,
    (∀ position ∈ d.leaves, (input.spanAt (input.stream.getD position 0)).Proper) →
      Tree.Spanned input (d.image g input)
  | .leaf position, h => by
    rw [image]
    exact .token (h position (by rw [leaves]; exact List.mem_cons_self))
  | .node p position children, h => by
    rw [image]
    exact .run _ (spanned_imageOfAll g input children (by rwa [leaves] at h))

theorem spanned_imageOfAll (g : Grammar) (input : Input) : ∀ ds : List DerivationTree,
    (∀ position ∈ leavesOfAll ds, (input.spanAt (input.stream.getD position 0)).Proper) →
      ∀ t ∈ imageOfAll g input ds, Tree.Spanned input t
  | [], _ => by
    rw [imageOfAll]
    exact List.forall_mem_nil _
  | d :: ds, h => by
    rw [leavesOfAll] at h
    obtain ⟨hd, hds⟩ := List.forall_mem_append.mp h
    rw [imageOfAll]
    exact List.forall_mem_cons.mpr ⟨spanned_image g input d hd, spanned_imageOfAll g input ds hds⟩

end

end DerivationTree

/-! ## Tokens of a text -/

namespace Tiles

variable {cs : List Char} {tokens : List Token} {i j position : Nat}

theorem spanAt_eq (h : i < tokens.length) (stop : Nat) :
    (Input.ofTokens tokens stop).spanAt i = tokens[i].span := by
  simp [Input.spanAt, Input.spanOf, Input.ofTokens, h]

theorem proper_spanAt (h : Tiles cs tokens) (hi : i < tokens.length) (stop : Nat) :
    ((Input.ofTokens tokens stop).spanAt i).Proper := by
  rw [spanAt_eq hi]
  obtain ⟨_, _, -, hstands⟩ := h.stands _ (List.getElem_mem hi)
  exact hstands.start_lt_stop

theorem spanAt_le (h : Tiles cs tokens) (hj : j < tokens.length) (hij : i < j) (stop : Nat) :
    ((Input.ofTokens tokens stop).spanAt i).stop ≤ ((Input.ofTokens tokens stop).spanAt j).start := by
  rw [spanAt_eq (hij.trans hj), spanAt_eq hj]
  exact List.pairwise_iff_getElem.mp h.ordered i j (hij.trans hj) hj hij

theorem isBoundary_spanAt (h : Tiles cs tokens) (hi : i < tokens.length) (stop : Nat) :
    IsBoundary cs ((Input.ofTokens tokens stop).spanAt i).start ∧
      IsBoundary cs ((Input.ofTokens tokens stop).spanAt i).stop := by
  rw [spanAt_eq hi]
  obtain ⟨before, after, rfl, hstands⟩ := h.stands _ (List.getElem_mem hi)
  refine ⟨⟨before, tokens[i].text.toList ++ after, by simp, hstands.start_eq.symm⟩, ?_⟩
  exact ⟨before ++ tokens[i].text.toList, after, rfl, hstands.stop_eq.symm⟩

theorem isBoundary_offset (h : Tiles cs tokens) (position : Nat) :
    IsBoundary cs ((Input.ofTokens tokens (utf8Length cs)).offset position) := by
  rw [Input.offset]
  split
  · next t ht =>
    obtain ⟨i, -, hi⟩ := Option.bind_eq_some_iff.mp ht
    obtain ⟨before, after, rfl, hstands⟩ :=
      h.stands t (List.mem_toArray.mp (Array.mem_of_getElem? hi))
    exact ⟨before, t.text.toList ++ after, by simp, hstands.start_eq.symm⟩
  · exact ⟨cs, [], by simp, rfl⟩

end Tiles

/-! ## The tree of a parse -/

namespace Parse

/-- The stretch of text that a tree covers. -/
def spanOf (p : Parse) : Tree → Span
  | .node _ span _ => span
  | .token i => (p.token i).span
  | .absent => ⟨0, 0⟩

/-- The span of a node fits its tokens, its children and the text. -/
structure SpanFits (p : Parse) (t : Tree) : Prop where
  /-- It reaches from the first token to the last. -/
  hull : ∀ first ∈ t.tokens.head?, ∀ last ∈ t.tokens.getLast?,
    t.span = ⟨(p.token first).span.start, (p.token last).span.stop⟩
  empty : t.tokens = [] → t.span.isEmpty = true ∧ t.span.stop ≤ utf8Length p.source.toList
  /-- Children that cover any text lie in it, one behind the other. -/
  inside : ∀ c ∈ t.children, (p.spanOf c).isEmpty = false →
    t.span.start ≤ (p.spanOf c).start ∧ (p.spanOf c).stop ≤ t.span.stop
  ordered : (t.children.filter fun c => !(p.spanOf c).isEmpty).Pairwise fun c d =>
    (p.spanOf c).stop ≤ (p.spanOf d).start
  /-- It is cut from the text between characters. -/
  text : ∃ before after, p.source.toList = before ++ (p.textOf t).toList ++ after ∧
    t.span = ⟨utf8Length before, utf8Length before + utf8Length (p.textOf t).toList⟩

end Parse

namespace Tree

variable {input : Input} {t c : Tree}

/-- The tree has tokens of the input in their order, and its nodes have the spans of their tokens. -/
structure IsLaid (input : Input) (t : Tree) : Prop where
  spanned : t.Spanned input
  ordered : t.leaves.Pairwise (· < ·)
  bounded : ∀ i ∈ t.leaves, i < input.tokens.size

theorem Spanned.of_mem_children (h : t.Spanned input) (hc : c ∈ t.children) : c.Spanned input := by
  cases h with
  | absent | token => cases hc
  | node hall => exact hall c hc

theorem Spanned.hulls (h : t.Spanned input) (hnode : t.isNode = true) :
    input.Hulls t.leaves t.span := by
  cases h with
  | absent | token => cases hnode
  | node _ hhulls => exact hhulls

theorem IsLaid.of_mem_children (h : t.IsLaid input) (hc : c ∈ t.children) : c.IsLaid input where
  spanned := h.spanned.of_mem_children hc
  ordered := h.ordered.sublist (leaves_sublist_of_mem_children hc)
  bounded i hi := h.bounded i ((leaves_sublist_of_mem_children hc).mem hi)

/-- A tree that covers any text covers the hull of its tokens. -/
theorem Spanned.hull?_leaves (h : t.Spanned input) (hspan : (input.spanOf t).isEmpty = false) :
    Span.hull? (t.leaves.map input.spanAt) = some (input.spanOf t) := by
  rw [← h.hull?_eq]
  simp [hspan, Span.hull?]

end Tree

namespace Parse

variable {p : Parse} {t : Tree}

/-- The input that the tokens of a parse make. -/
def input (p : Parse) : Input := .ofTokens p.tokens.toList (utf8Length p.source.toList)

theorem spanOf_input (p : Parse) (t : Tree) : p.input.spanOf t = p.spanOf t := by
  cases t <;> rfl

section SpanFits

variable (htiles : Tiles p.source.toList p.tokens.toList) (h : t.IsLaid p.input)

include h

theorem span_hulls (hnode : t.isNode = true) :
    Span.hull? (t.leaves.map p.input.spanAt) = some t.span ∨
    t.leaves = [] ∧ ∃ position, t.span = .emptyAt (p.input.offset position) := by
  rcases (h.spanned.hulls hnode).cases h.spanned.proper with ⟨-, hhull⟩ | ⟨hempty, hhull⟩
  · exact Or.inl hhull
  · exact Or.inr ⟨List.map_eq_nil_iff.mp (Span.hull?_eq_none_iff.mp hhull), hempty⟩

theorem span_inside (hnode : t.isNode = true) : ∀ c ∈ t.children, (p.spanOf c).isEmpty = false →
    t.span.start ≤ (p.spanOf c).start ∧ (p.spanOf c).stop ≤ t.span.stop := by
  intro c hc hcovers
  rw [← spanOf_input] at hcovers ⊢
  obtain ⟨-, ⟨_, hfirst, hstart⟩, _, hlast, hstop⟩ :=
    Span.hull?_eq_some ((h.of_mem_children hc).spanned.hull?_leaves hcovers)
  have hsub : (c.leaves.map p.input.spanAt).Sublist (t.leaves.map p.input.spanAt) :=
    (Tree.leaves_sublist_of_mem_children hc).map _
  rcases span_hulls h hnode with hhull | ⟨hnone, -⟩
  · obtain ⟨hall, -⟩ := Span.hull?_eq_some hhull
    exact ⟨hstart ▸ (hall _ (hsub.mem hfirst)).1, hstop ▸ (hall _ (hsub.mem hlast)).2⟩
  · rw [hnone] at hsub
    cases hsub.mem hfirst

theorem lt_length : ∀ i ∈ t.leaves, i < p.tokens.toList.length := by
  simpa [input, Input.ofTokens] using h.bounded

include htiles

theorem spanAt_le_spanAt {i j : Nat} (hj : j ∈ t.leaves) (hij : i < j) :
    (p.input.spanAt i).stop ≤ (p.input.spanAt j).start :=
  htiles.spanAt_le (lt_length h j hj) hij _

theorem span_hull (hnode : t.isNode = true) : ∀ first ∈ t.tokens.head?, ∀ last ∈ t.tokens.getLast?,
    t.span = ⟨(p.token first).span.start, (p.token last).span.stop⟩ := by
  rw [Tree.tokens_eq_leaves]
  intro first hfirst last hlast
  rcases span_hulls h hnode with hhull | ⟨hnone, -⟩
  · have hproper : ∀ s ∈ t.leaves.map p.input.spanAt, s.Proper :=
      List.forall_mem_map.mpr h.spanned.proper
    have hpairwise : (t.leaves.map p.input.spanAt).Pairwise fun s u => s.stop ≤ u.start :=
      List.pairwise_map.mpr (h.ordered.imp_of_mem fun _ hj hij => spanAt_le_spanAt htiles h hj hij)
    have hreach := Span.hull?_of_pairwise hproper hpairwise (p.input.spanAt first)
      (by rw [List.head?_map, hfirst]; rfl) (p.input.spanAt last) (by rw [List.getLast?_map, hlast]; rfl)
    exact Option.some.inj (hhull.symm.trans hreach)
  · rw [hnone] at hfirst
    cases hfirst

theorem spans_ordered : (t.children.filter fun c => !(p.spanOf c).isEmpty).Pairwise fun c d =>
    (p.spanOf c).stop ≤ (p.spanOf d).start := by
  refine ((Tree.pairwise_children h.ordered).filter _).imp_of_mem fun {c d} hc hd hbefore => ?_
  simp only [List.mem_filter, Bool.not_eq_true', ← spanOf_input] at hc hd
  obtain ⟨-, -, _, hlast, hstop⟩ :=
    Span.hull?_eq_some ((h.of_mem_children hc.1).spanned.hull?_leaves hc.2)
  obtain ⟨-, ⟨_, hfirst, hstart⟩, -⟩ :=
    Span.hull?_eq_some ((h.of_mem_children hd.1).spanned.hull?_leaves hd.2)
  obtain ⟨i, hi, rfl⟩ := List.mem_map.mp hlast
  obtain ⟨j, hj, rfl⟩ := List.mem_map.mp hfirst
  rw [← spanOf_input, ← spanOf_input, ← hstop, ← hstart]
  exact spanAt_le_spanAt htiles (h.of_mem_children hd.1) hj (hbefore i hi j hj)

theorem span_isBoundary (hnode : t.isNode = true) :
    IsBoundary p.source.toList t.span.start ∧ IsBoundary p.source.toList t.span.stop ∧
      t.span.start ≤ t.span.stop := by
  rcases span_hulls h hnode with hhull | ⟨-, position, hspan⟩
  · have hproper := Span.proper_of_hull? (List.forall_mem_map.mpr h.spanned.proper) _ hhull
    obtain ⟨-, ⟨_, hfirst, hstart⟩, _, hlast, hstop⟩ := Span.hull?_eq_some hhull
    obtain ⟨i, hi, rfl⟩ := List.mem_map.mp hfirst
    obtain ⟨j, hj, rfl⟩ := List.mem_map.mp hlast
    rw [← hstart, ← hstop]
    exact ⟨(htiles.isBoundary_spanAt (lt_length h i hi) _).1,
      (htiles.isBoundary_spanAt (lt_length h j hj) _).2, hstart ▸ hstop ▸ Nat.le_of_lt hproper⟩
  · rw [hspan]
    exact ⟨htiles.isBoundary_offset position, htiles.isBoundary_offset position, Nat.le_refl _⟩

theorem spanFits (hnode : t.isNode = true) : p.SpanFits t where
  hull := span_hull htiles h hnode
  empty hnone := by
    rw [Tree.tokens_eq_leaves] at hnone
    rcases span_hulls h hnode with hhull | ⟨-, position, hspan⟩
    · rw [hnone] at hhull
      cases hhull
    · rw [hspan]
      exact ⟨Span.isEmpty_emptyAt _, (htiles.isBoundary_offset position).le⟩
  inside := span_inside h hnode
  ordered := spans_ordered htiles h
  text := by
    obtain ⟨hstart, hstop, hle⟩ := span_isBoundary htiles h hnode
    obtain ⟨before, after, hsource, hspan⟩ := exists_slice hstart hstop hle
    exact ⟨before, after, by rwa [textOf, String.toList_ofList], by rwa [textOf, String.toList_ofList]⟩

end SpanFits

section Parsed

variable {g : Grammar} {limits : Limits} {source : String} {n : Nat}

theorem tiles_of_parseWithin (h : (Language.ofGrammar g).parseWithin n limits source = some p) :
    Tiles p.source.toList p.tokens.toList := by
  obtain ⟨m, ending, -, rfl⟩ := Language.parseWithin_eq_some h
  exact g.vocabulary.tiles_source source

/-- The tree of a parse has its tokens in order, and its nodes have the spans of their tokens. -/
theorem isLaid_of_parseWithin (hg : g.IsBuilt)
    (h : (Language.ofGrammar g).parseWithin n limits source = some p) :
    ∀ root ∈ p.root, root.IsLaid p.input := by
  have htiles := tiles_of_parseWithin h
  obtain ⟨m, ending, hrun, rfl⟩ := Language.parseWithin_eq_some h
  intro root hroot
  obtain ⟨rfl, -⟩ := rootOf_eq_some hroot
  obtain ⟨d, stop, -, -, hsub, rfl⟩ := Machine.exists_image_of_run hg hrun
  have htokens := Grammar.tokens_sublist hsub
  rw [Tree.tokens_eq_leaves] at htokens
  have hread : ∀ i ∈ (g.inputOf source).stream.toList, i < (g.vocabulary.scan source).length := by
    intro i hi
    obtain ⟨t, ht, -⟩ := Input.mem_stream.mp hi
    simpa [Input.ofTokens] using (Array.getElem?_eq_some_iff.mp ht).1
  refine ⟨DerivationTree.spanned_image g _ d fun position hposition => ?_,
    Input.pairwise_stream.sublist htokens, fun i hi => ?_⟩
  · refine htiles.proper_spanAt (hread _ ?_) _
    rw [← Input.map_getD_range]
    exact List.mem_map_of_mem (hsub.mem hposition)
  · show i < (g.vocabulary.scan source).toArray.toList.toArray.size
    simpa using hread i (htokens.mem hi)

end Parsed

/-- Everywhere in a tree laid over tokens that tile the text, the spans of nodes fit. -/
theorem spanFits_of_at? {root : Tree} {path : List Nat} (htiles : Tiles p.source.toList p.tokens.toList)
    (h : root.IsLaid p.input) (ht : root.at? path = some t) (hnode : t.isNode = true) : p.SpanFits t :=
  spanFits htiles (Tree.of_at? (fun _ h _ hc => h.of_mem_children hc) h ht) hnode

end Parse

/-- **Hulls.** In the tree of every parse, the span of each node fits its tokens, its children and the
text. -/
theorem spans_are_hulls {g : Grammar} (hg : g.IsBuilt) {limits : Limits} {source : String} {n : Nat}
    {p : Parse} (h : (Language.ofGrammar g).parseWithin n limits source = some p) :
    ∀ root ∈ p.root, ∀ path t, root.at? path = some t → t.isNode = true → p.SpanFits t :=
  fun root hroot _ _ ht hnode => Parse.spanFits_of_at? (Parse.tiles_of_parseWithin h)
    (Parse.isLaid_of_parseWithin hg h root hroot) ht hnode

/-- The grammar of plus signs, where each but the first follows a node of those before it. -/
def nestedSteps : List DeclarationStep :=
  [.rule "signs" (.alt [.symbol "+", .seq [.ref "signs", .symbol "+"]]), .root "signs"]

theorem exists_parse_nested : ∃ g : Grammar, g.IsBuilt ∧ ∃ p,
    (Language.ofGrammar g).parseWithin 10 {} "+ +" = some p ∧
      p.root = some (.node "signs" ⟨0, 3⟩ [.node "signs" ⟨0, 1⟩ [.token 0], .token 1]) := by
  have hseen : (Declarations.ofSteps "nested" nestedSteps).seen? (fun g =>
      ((Language.ofGrammar g).parseWithin 10 {} "+ +").bind (·.root)) =
        some (.node "signs" ⟨0, 3⟩ [.node "signs" ⟨0, 1⟩ [.token 0], .token 1]) := by cbv
  obtain ⟨g, hbuild, hseen⟩ := Declarations.exists_seen hseen
  obtain ⟨p, hp, hroot⟩ := Option.bind_eq_some_iff.mp hseen
  exact ⟨g, ⟨_, _, hbuild⟩, p, hp, hroot⟩

/-- The node around the first sign covers one byte, the one around it all three. -/
theorem spans_are_hulls_nested : ∃ g : Grammar, g.IsBuilt ∧ ∃ p root inner,
    (Language.ofGrammar g).parseWithin 10 {} "+ +" = some p ∧ p.root = some root ∧
      root.at? [0] = some inner ∧ inner.span = ⟨0, 1⟩ ∧ p.SpanFits inner ∧
      root.at? [] = some root ∧ root.span = ⟨0, 3⟩ ∧ p.SpanFits root := by
  obtain ⟨g, hg, p, hp, hroot⟩ := exists_parse_nested
  have hfits := spans_are_hulls hg hp _ hroot
  exact ⟨g, hg, p, _, _, hp, hroot, rfl, rfl, hfits [0] _ rfl rfl, rfl, rfl, hfits [] _ rfl rfl⟩

end FourGL
