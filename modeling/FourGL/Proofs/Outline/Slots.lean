import FourGL.Outline.Nodes
import FourGL.Proofs.Parse.Nodes
import FourGL.Proofs.Parse.Verdict

/-!
# Slots of nodes and of rules

An accessor reads a fixed slot of a node. The slots of a node are those of an alternative of its rule,
in every tree that a parser builds, with or without syntax errors.

**Theorem (`Parse.fits_root`).** The root of every parse fits the name of the root rule, and its tokens
are in the order of the text.
-/

namespace FourGL

open Grammar

/-! ## Slots of a node -/

namespace Tree

variable {t u : Tree} {rule : String} {names : List String} {ts : List Tree} {i j : Nat}

theorem slot?_eq_some_iff : t.slot? i = some u ↔ t.children[i]? = some u ∧ u ≠ .absent := by
  rw [slot?]
  split
  · next h => exact ⟨nofun, fun ⟨h', hne⟩ => absurd (Option.some.inj (h'.symm.trans h)) hne⟩
  · next h => exact ⟨nofun, fun ⟨h', _⟩ => by rw [h] at h'; cases h'⟩
  · next c hne h =>
    rw [h]
    exact ⟨fun heq => ⟨heq, fun habsent => hne ((Option.some.inj heq).trans habsent)⟩, And.left⟩

theorem tokenAt?_eq_some_iff : t.tokenAt? i = some j ↔ t.children[i]? = some (.token j) := by
  rw [tokenAt?, Option.bind_eq_some_iff]
  constructor
  · rintro ⟨u, hu, htoken⟩
    cases u with
    | absent | node => cases htoken
    | token =>
      cases htoken
      exact (slot?_eq_some_iff.mp hu).1
  · exact fun h => ⟨.token j, slot?_eq_some_iff.mpr ⟨h, nofun⟩, rfl⟩

theorem nodeAt?_eq_some_iff : t.nodeAt? i = some u ↔ t.children[i]? = some u ∧ u.isNode = true := by
  rw [nodeAt?, Option.bind_eq_some_iff]
  constructor
  · rintro ⟨v, hv, hnode⟩
    cases v with
    | absent | token => cases hnode
    | node =>
      cases hnode
      exact ⟨(slot?_eq_some_iff.mp hv).1, rfl⟩
  · rintro ⟨h, hnode⟩
    cases u with
    | absent | token => cases hnode
    | node => exact ⟨_, slot?_eq_some_iff.mpr ⟨h, nofun⟩, rfl⟩

theorem childrenAt_eq (h : t.children[i]? = some u) (hu : u.isNode = true) :
    t.childrenAt i = u.children := by
  rw [childrenAt, nodeAt?_eq_some_iff.mpr ⟨h, hu⟩]
  rfl

theorem childrenAt_eq_nil (h : t.nodeAt? i = none) : t.childrenAt i = [] := by
  rw [childrenAt, h]
  rfl

theorem as?_eq_some_iff {n : NodeOf rule} : t.as? rule = some n ↔ n.tree = t := by
  rw [as?]
  constructor
  · intro h
    split at h
    · cases h
      rfl
    · cases h
  · rintro rfl
    rw [dif_pos ⟨n.isNode, n.kind_eq⟩]

theorem ne_absent (n : NodeOf rule) : n.tree ≠ .absent := fun h => by
  have hnode := n.isNode
  rw [h] at hnode
  cases hnode

theorem partAt?_eq_some_iff {n : NodeOf rule} :
    t.partAt? rule i = some n ↔ t.children[i]? = some n.tree := by
  rw [partAt?, Option.bind_eq_some_iff]
  constructor
  · rintro ⟨u, hu, has⟩
    rw [as?_eq_some_iff.mp has]
    exact (slot?_eq_some_iff.mp hu).1
  · exact fun h => ⟨n.tree, slot?_eq_some_iff.mpr ⟨h, ne_absent n⟩, as?_eq_some_iff.mpr rfl⟩

/-- The tree is in a slot for nodes of the rule: it is one, or the slot is empty. -/
def MayBe (rule : String) (t : Tree) : Prop := t = .absent ∨ ∃ n : NodeOf rule, n.tree = t

theorem MayBe.eq_of_tree (n : NodeOf rule) {name : String} (h : MayBe name n.tree) :
    name = rule := by
  rcases h with h | ⟨n', hn⟩
  · exact absurd h (ne_absent n)
  · rw [← n'.kind_eq, hn, n.kind_eq]

theorem IsNodeOf.exists_nodeOf (h : IsNodeOf rule ts t) :
    ∃ n : NodeOf rule, n.tree = t ∧ t.children = ts := by
  obtain ⟨span, rfl⟩ := h
  exact ⟨⟨_, rfl, rfl⟩, rfl, rfl⟩

theorem map_token_filterMap (h : ∀ u ∈ ts, ∃ j, u = .token j) :
    (ts.filterMap (·.token?)).map .token = ts := by
  induction ts with
  | nil => rfl
  | cons u us ih =>
    obtain ⟨⟨j, rfl⟩, hrest⟩ := List.forall_mem_cons.mp h
    exact congrArg (token j :: ·) (ih hrest)

/-! ## Tokens in order -/

theorem leaves_sublist_of_mem (h : u ∈ ts) : u.leaves.Sublist (leavesOfAll ts) := by
  have hsingle := leavesOfAll_sublist (List.singleton_sublist.mpr h)
  rwa [leavesOfAll, leavesOfAll, List.append_nil] at hsingle

theorem leavesOfAll_map_token (is : List Nat) : leavesOfAll (is.map .token) = is := by
  induction is with
  | nil => rfl
  | cons i is ih => exact congrArg (i :: ·) ih

theorem leaves_sublist_of_mem_children (h : u ∈ t.children) : u.leaves.Sublist t.leaves := by
  rw [leaves_eq t]
  exact (leaves_sublist_of_mem h).trans (List.sublist_append_right _ _)

theorem leaves_of_isNode (h : t.isNode = true) : t.leaves = leavesOfAll t.children := by
  cases t with
  | absent | token => cases h
  | node => rfl

/-- All trees of a tree with tokens in order have them in order. -/
theorem pairwise_leaves_of_mem_allOf {root : Tree} (h : root.leaves.Pairwise (· < ·))
    (ht : t ∈ allOf [root]) : t.leaves.Pairwise (· < ·) :=
  forall_mem_allOf (P := fun t => t.leaves.Pairwise (· < ·))
    (fun _ ht _ hc => ht.sublist (leaves_sublist_of_mem_children hc))
    (List.forall_mem_singleton.mpr h) t ht

end Tree

/-! ## Defined names -/

namespace Tree

variable {t : Tree} {i : Nat} {names : List Nat}

/-- The tree is a name that is one token. -/
def IsName (t : Tree) (i : Nat) : Prop :=
  (∃ n : NodeOf "constantIdentifier", n.tree = t) ∧ t.children = [.token i]

/-- The tree is a list of names, which are these tokens. -/
def IsNames (t : Tree) (names : List Nat) : Prop :=
  (∃ n : NodeOf "constantIdentifierList", n.tree = t) ∧ List.Forall₂ IsName t.children names

/-- The tree declares variables of one type, with these tokens as names. -/
def IsDeclaration (t : Tree) (names : List Nat) : Prop :=
  (∃ n : NodeOf "variableDeclaration", n.tree = t) ∧
    ∃ u, t.children[0]? = some u ∧ u.IsNames names

theorem IsName.nameToken?_eq (h : t.IsName i) : t.nameToken? = some i := by
  obtain ⟨⟨n, rfl⟩, hchildren⟩ := h
  have htoken : n.tree.tokenAt? 0 = some i :=
    tokenAt?_eq_some_iff.mpr (by rw [hchildren]; rfl)
  obtain ⟨tree, hnode, hkind⟩ := n
  cases tree with
  | absent | token => cases hnode
  | node => exact (if_pos hkind).trans htoken

theorem IsName.leaves_eq (h : t.IsName i) : t.leaves = [i] := by
  obtain ⟨⟨n, rfl⟩, hchildren⟩ := h
  rw [leaves_of_isNode n.isNode, hchildren]
  rfl

theorem IsNames.filterMap_eq (h : t.IsNames names) : t.children.filterMap (·.nameToken?) = names := by
  obtain ⟨-, hall⟩ := h
  generalize t.children = ts at hall
  induction hall with
  | nil => rfl
  | cons hname _ ih => rw [List.filterMap_cons_some hname.nameToken?_eq, ih]

theorem IsNames.leaves_eq (h : t.IsNames names) : t.leaves = names := by
  obtain ⟨⟨n, rfl⟩, hall⟩ := h
  rw [leaves_of_isNode n.isNode]
  generalize n.tree.children = ts at hall
  induction hall with
  | nil => rfl
  | cons hname _ ih => rw [leavesOfAll, hname.leaves_eq, ih, List.singleton_append]

theorem IsDeclaration.filterMap_eq (h : t.IsDeclaration names) :
    (t.childrenAt 0).filterMap (·.nameToken?) = names := by
  obtain ⟨-, u, hu, hnames⟩ := h
  obtain ⟨⟨n, rfl⟩, -⟩ := id hnames
  rw [childrenAt_eq hu n.isNode, hnames.filterMap_eq]

end Tree

theorem ParameterList.none_of_no_node {l : ParameterList}
    (h : ∀ u ∈ l.tree.children, u.isNode = false) :
    l.parameters = [] ∧ ∀ n : NodeOf "parameterGroup", n.tree ∉ l.tree.children := by
  have hgroup : l.tree.nodeAt? 1 = none := by
    refine Option.eq_none_iff_forall_ne_some.mpr fun u hu => ?_
    obtain ⟨hu, hnode⟩ := Tree.nodeAt?_eq_some_iff.mp hu
    exact absurd hnode (by simp [h u (List.mem_of_getElem? hu)])
  refine ⟨by rw [parameters, Tree.childrenAt_eq_nil hgroup]; rfl, fun n hn => ?_⟩
  exact absurd n.isNode (by simp [h n.tree hn])

namespace DefineStatement

variable {d : DefineStatement} {declared : List (List Nat)}

/-- The names in the own declarations of a statement, each with those of one type. -/
def Declares (d : DefineStatement) (declared : List (List Nat)) : Prop :=
  ∃ n : NodeOf "variableDeclarationList", d.tree.children[1]? = some n.tree ∧
    List.Forall₂ Tree.IsDeclaration n.tree.children declared

end DefineStatement

/-! ## Slots of rules -/

/-- Whether all trees of a rule are nodes of its own. A repetition with separators may pass the node
of its helper through. -/
def RuleDeclaration.makesNode (d : RuleDeclaration) : Bool :=
  !d.transient && match d.rule with
    | .starSep .. => false
    | _ => true

/-- A keyword or an identifier. -/
def Rule.isWord : Rule → Bool
  | .keyword _ => true
  | .ref name => name == Language.identifierName
  | _ => false

namespace Grammar

variable {g : Grammar} {tokens : Array Token} {t : Tree} {d : RuleDeclaration} {name mark : String}
  {alternatives : List (List Rule)} {item : Rule} {i : Nat}

/-- A rule whose trees are nodes of its own. -/
def MakesNode (rules : List RuleDeclaration) (name : String) : Prop :=
  ∃ d ∈ rules, d.name = name ∧ d.makesNode = true

/-- A rule whose trees are nodes of its own, with the slots of one of its alternatives. -/
def HasSlots (rules : List RuleDeclaration) (name : String) (alternatives : List (List Rule)) :
    Prop :=
  ∃ d ∈ rules, d.name = name ∧ d.transient = false ∧ d.rule.isList = false ∧
    (SymbolTable.alternativesOf d.rule).map Rule.slots = alternatives

/-- A rule for items with marks between them. -/
def ListsItems (rules : List RuleDeclaration) (name : String) (item : Rule) (mark : String) : Prop :=
  ∃ d ∈ rules, d.name = name ∧ d.rule = .plusSep item (.symbol mark)

theorem FitsItems.exists_isNodeOf {r : Rule} {kind : String} (h : g.FitsItems tokens r kind t)
    (hshape : ∀ item separator, r ≠ .starSep item separator) : ∃ ts, Tree.IsNodeOf kind ts t := by
  cases r with
  | star | plus =>
    obtain ⟨ts, hnode, -⟩ := h
    exact ⟨ts, hnode⟩
  | plusSep =>
    obtain ⟨_, _, hnode, -⟩ := h
    exact ⟨_, hnode⟩
  | starSep item separator => exact absurd rfl (hshape item separator)
  | _ => cases h

/-- What fits the name of a rule with slots is a node, and what fits the parts is in its slots. -/
theorem Fits.exists_slots (hl : g.Lowered) (hrule : HasSlots g.rules.toList name alternatives)
    (h : g.Fits tokens (.ref name) t) : ∃ n : NodeOf name, n.tree = t ∧
      ∃ parts ∈ alternatives, List.Forall₂ (g.Fits tokens) parts t.children := by
  obtain ⟨d, hd, rfl, htransient, hlist, rfl⟩ := hrule
  obtain ⟨r, hr, ts, hts, ⟨-, hnode⟩ | ⟨htransient', -⟩⟩ := h.rule hl hd hlist
  · obtain ⟨n, hn, hchildren⟩ := hnode.exists_nodeOf
    exact ⟨n, hn, r.slots, List.mem_map_of_mem hr, hchildren ▸ hts⟩
  · rw [htransient] at htransient'
    cases htransient'

/-- What fits the name of a rule that makes nodes is such a node. -/
theorem Fits.exists_nodeOf (hl : g.Lowered) (hrule : MakesNode g.rules.toList name)
    (h : g.Fits tokens (.ref name) t) : ∃ n : NodeOf name, n.tree = t := by
  obtain ⟨d, hd, rfl, hmakes⟩ := hrule
  obtain ⟨htransient, hshape⟩ := (Bool.and_eq_true _ _).mp hmakes
  have htransient : d.transient = false := by simpa using htransient
  cases hlist : d.rule.isList with
  | true =>
    obtain ⟨ts, hnode⟩ := (h.listRule hl hd hlist).exists_isNodeOf fun item separator heq => by
      rw [heq] at hshape
      cases hshape
    obtain ⟨n, hn, -⟩ := hnode.exists_nodeOf
    exact ⟨n, hn⟩
  | false =>
    obtain ⟨n, hn, -⟩ := h.exists_slots hl ⟨d, hd, rfl, htransient, hlist, rfl⟩
    exact ⟨n, hn⟩

/-- What fits the name of a transient rule fits one of its alternatives, if each is a single part. -/
theorem Fits.exists_alternative (hl : g.Lowered) (hd : d ∈ g.rules.toList)
    (htransient : d.transient = true) (hlist : d.rule.isList = false)
    (hsingle : ∀ r ∈ SymbolTable.alternativesOf d.rule, r.slots = [r])
    (h : g.Fits tokens (.ref d.name) t) :
    ∃ r ∈ SymbolTable.alternativesOf d.rule, g.Fits tokens r t := by
  obtain ⟨r, hr, ts, hts, ⟨htransient', -⟩ | ⟨-, hgroup⟩⟩ := h.rule hl hd hlist
  · rw [htransient] at htransient'
    cases htransient'
  · rw [hsingle r hr] at hts
    cases hts with
    | cons hfits hnil =>
      cases hnil
      exact ⟨r, hr, hgroup ▸ hfits⟩

theorem exists_forall₂_of_forall {α β : Type} {R : α → β → Prop} {as : List α}
    (h : ∀ a ∈ as, ∃ b, R a b) : ∃ bs, List.Forall₂ R as bs := by
  induction as with
  | nil => exact ⟨[], .nil⟩
  | cons a as ih =>
    obtain ⟨⟨b, hb⟩, hrest⟩ := List.forall_mem_cons.mp h
    obtain ⟨bs, hbs⟩ := ih hrest
    exact ⟨b :: bs, .cons hb hbs⟩

/-- Without the marks, a list is left with the items. -/
theorem separated_true (pairs : List (Tree × Tree)) : separated true pairs = pairs.map (·.2) := by
  rw [List.map_eq_flatMap]
  rfl

/-- What fits a list with punctuation between the items is a node of the items. -/
theorem Fits.exists_items (hl : g.Lowered) (hrule : ListsItems g.rules.toList name item mark)
    (hmark : g.vocabulary.isPunctuation mark = true) (h : g.Fits tokens (.ref name) t) :
    ∃ n : NodeOf name, n.tree = t ∧ ∀ u ∈ t.children, g.Fits tokens item u := by
  obtain ⟨d, hd, rfl, hshape⟩ := hrule
  have hitems := h.listRule hl hd (by rw [hshape]; rfl)
  rw [hshape] at hitems
  obtain ⟨first, pairs, hnode, hfirst, -, hall⟩ := hitems
  rw [Lower.dropsSeparator, hmark, separated_true] at hnode
  obtain ⟨n, hn, hchildren⟩ := hnode.exists_nodeOf
  refine ⟨n, hn, ?_⟩
  rw [hchildren]
  exact List.forall_mem_cons.mpr ⟨hfirst, List.forall_mem_map.mpr hall⟩

end Grammar

/-! ## The tree of a parse -/

namespace Parse

variable {g : Grammar} {e : RuleDeclaration} {limits : Limits} {source : String} {n : Nat}
  {p : Parse} {root t : Tree}

/-- All trees of a parse: its root, if it has one, and all trees below. -/
def trees (p : Parse) : List Tree := Tree.allOf p.root.toList

theorem rootOf_eq_some {ending : Ending} (h : rootOf ending = some root) :
    ending = .accepted root ∧ root.isNode = true := by
  cases ending with
  | accepted tree =>
    cases tree with
    | absent | token => cases h
    | node =>
      cases h
      exact ⟨rfl, rfl⟩
  | stopped | unrepaired | stuck => cases h

/-- The token read at a position. -/
theorem exists_token_read {tokens : List Token} {stop position : Nat}
    (h : position < (Input.ofTokens tokens stop).size) : ∃ token,
      (Input.ofTokens tokens stop).tokens[(Input.ofTokens tokens stop).stream.getD position 0]? =
        some token ∧ token.terminal = (Input.ofTokens tokens stop).terminal position := by
  obtain ⟨token, -, htoken⟩ := Input.exists_token h
  refine ⟨token, ?_, by rw [Input.terminal, htoken]⟩
  rw [Input.token?, Option.bind_eq_some_iff] at htoken
  obtain ⟨i, hi, htoken⟩ := htoken
  rwa [Array.getD_eq_getD_getElem?, hi]

/-- The root of a parse fits the name of the root rule, and its tokens are in order. -/
theorem fits_root (hg : g.IsBuilt) (halike : LooksAlike g.vocabulary g.rules.toList)
    (he : g.table.IsRule e g.root)
    (h : (Language.ofGrammar g).parseWithin n limits source = some p) (hroot : p.root = some root) :
    g.Fits p.tokens (.ref e.name) root ∧ root.leaves.Pairwise (· < ·) := by
  obtain ⟨m, ending, hrun, rfl⟩ := Language.parseWithin_eq_some h
  obtain ⟨rfl, -⟩ := rootOf_eq_some hroot
  obtain ⟨d, stop, hsymbol, hreads, hsub, rfl⟩ := Machine.exists_image_of_run hg hrun
  constructor
  · have hread := DerivationTree.fits_image (lowered_of_isBuilt hg) halike
      (fun _ => exists_token_read) hreads d List.mem_cons_self
    exact hread _ (Or.inr ⟨e, he.1, rfl⟩) (hsymbol ▸ .rule he)
  · rw [← Tree.tokens_eq_leaves]
    exact Input.pairwise_stream.sublist (tokens_sublist hsub)

end Parse

end FourGL
