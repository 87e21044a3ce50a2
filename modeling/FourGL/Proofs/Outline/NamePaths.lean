import FourGL.Outline.Declarations
import FourGL.Proofs.Outline.Accessors
import FourGL.Proofs.Parse.Containment
import FourGL.Proofs.Tree.Paths
import FourGL.Proofs.Tree.Topmost

/-!
# Names at the ends of paths

The names that a section defines can be told by the kinds of nodes alone: they stand at the end of a
path of rules that leads from the section to a name, from parent to child. Records have their members
below the type of a variable, where no such path leads.

**Theorem (`definedTokens_eq`).** In trees of Informix 4GL, the names read from fixed slots are the
tokens at the ends of these paths.
-/

namespace FourGL

open Grammar

/-! ## Children of a rule -/

namespace Tree

variable {t c : Tree} {rule rule' : String} {path path' : List String} {ts : List Tree} {i j k : Nat}

/-- The tree is a node of the rule. -/
def isOf (rule : String) (t : Tree) : Bool := t.isNode && t.kind == rule

/-- The children that are nodes of the rule. -/
def childrenOf (rule : String) (t : Tree) : List Tree := t.children.filter (isOf rule)

/-- The tokens of the nodes to which a path of rules leads, from parent to child. -/
def tokensAlong : List String → Tree → List Nat
  | [], t => t.leaves
  | rule :: path, t => (t.childrenOf rule).flatMap (tokensAlong path)

/-- The names that a tree defines by statements of its own. The members of a record stand below the type
of a variable, where no such path leads. -/
def definedTokens (t : Tree) : List Nat :=
  t.tokensAlong ["typeDeclarations", "typeDeclaration", "variableDeclarationList",
    "variableDeclaration", "constantIdentifierList", "constantIdentifier"]

theorem isOf_iff_exists : t.isOf rule = true ↔ ∃ n : NodeOf rule, n.tree = t := by
  rw [isOf, Bool.and_eq_true, beq_iff_eq]
  exact ⟨fun ⟨hnode, hkind⟩ => ⟨⟨t, hnode, hkind⟩, rfl⟩, fun ⟨n, hn⟩ => hn ▸ ⟨n.isNode, n.kind_eq⟩⟩

theorem mem_childrenOf : c ∈ t.childrenOf rule ↔ c ∈ t.children ∧ ∃ n : NodeOf rule, n.tree = c := by
  rw [childrenOf, List.mem_filter, isOf_iff_exists]

theorem childrenOf_eq_children (h : ∀ c ∈ t.children, ∃ n : NodeOf rule, n.tree = c) :
    t.childrenOf rule = t.children :=
  List.filter_eq_self.mpr fun c hc => isOf_iff_exists.mpr (h c hc)

theorem childrenOf_eq_nil (h : ∀ c ∈ t.children, ¬ ∃ n : NodeOf rule, n.tree = c) :
    t.childrenOf rule = [] :=
  List.filter_eq_nil_iff.mpr fun c hc hof => h c hc (isOf_iff_exists.mp hof)

theorem filter_isOf_of_unique (h : ∀ j c, ts[j]? = some c → c.isOf rule = true → j = i) :
    ts.filter (isOf rule) = ts[i]?.toList.filter (isOf rule) := by
  induction ts generalizing i with
  | nil => rfl
  | cons t ts ih =>
    cases i with
    | zero =>
      have hnone : ts.filter (isOf rule) = [] := List.filter_eq_nil_iff.mpr fun c hc hof => by
        obtain ⟨j, hj⟩ := List.mem_iff_getElem?.mp hc
        exact absurd (h (j + 1) c hj hof) (Nat.succ_ne_zero j)
      rw [List.filter_cons, hnone, List.getElem?_cons_zero, Option.toList_some, List.filter_cons,
        List.filter_nil]
    | succ i =>
      have ht : t.isOf rule ≠ true := fun hof => absurd (h 0 t rfl hof) (Nat.succ_ne_zero i).symm
      rw [List.filter_cons_of_neg ht, List.getElem?_cons_succ]
      exact ih fun j c hj hof => Nat.succ.inj (h (j + 1) c hj hof)

/-- If nodes of the rule can only be in one slot, they are the part there. -/
theorem childrenOf_eq_partAt? (h : ∀ j c, t.children[j]? = some c → c.isOf rule = true → j = i) :
    t.childrenOf rule = (t.partAt? rule i).toList.map (·.tree) := by
  rw [childrenOf, filter_isOf_of_unique h]
  cases hpart : t.partAt? rule i with
  | some n =>
    rw [partAt?_eq_some_iff.mp hpart, Option.toList_some,
      List.filter_cons_of_pos (isOf_iff_exists.mpr ⟨n, rfl⟩)]
    rfl
  | none =>
    refine List.filter_eq_nil_iff.mpr fun c hc hof => ?_
    obtain ⟨n, rfl⟩ := isOf_iff_exists.mp hof
    rw [partAt?_eq_some_iff.mpr (Option.mem_toList.mp hc)] at hpart
    cases hpart

/-- The nodes of the rule among several trees. -/
theorem map_tree_filterMap_as? (ts : List Tree) :
    (ts.filterMap (·.as? rule)).map (·.tree) = ts.filter (isOf rule) := by
  induction ts with
  | nil => rfl
  | cons t ts ih =>
    cases hof : t.isOf rule with
    | true =>
      obtain ⟨n, rfl⟩ := isOf_iff_exists.mp hof
      rw [List.filterMap_cons_some (as?_eq_some_iff.mpr rfl), List.map_cons, ih,
        List.filter_cons_of_pos hof]
    | false =>
      have hnone : t.as? rule = none := Option.eq_none_iff_forall_ne_some.mpr fun n hn => by
        rw [isOf_iff_exists.mpr ⟨n, as?_eq_some_iff.mp hn⟩] at hof
        cases hof
      rw [List.filterMap_cons_none hnone, ih, List.filter_cons_of_neg (by rw [hof]; decide)]

/-! ## Tokens along a path -/

theorem tokensAlong_of_part {n : NodeOf rule}
    (h : t.childrenOf rule = (t.partAt? rule i).toList.map (·.tree)) (hn : t.partAt? rule i = some n)
    (path : List String) : t.tokensAlong (rule :: path) = n.tree.tokensAlong path := by
  rw [tokensAlong, h, hn]
  exact List.append_nil _

theorem flatMap_sublist_leavesOfAll {f : Tree → List Nat} (h : ∀ t, (f t).Sublist t.leaves)
    (ts : List Tree) : (ts.flatMap f).Sublist (leavesOfAll ts) := by
  induction ts with
  | nil => exact .slnil
  | cons t ts ih => exact (h t).append ih

/-- They are some of the tokens of the tree, in their order. -/
theorem tokensAlong_sublist (path : List String) (t : Tree) : (t.tokensAlong path).Sublist t.leaves := by
  induction path generalizing t with
  | nil => exact .refl _
  | cons rule path ih =>
    refine (flatMap_sublist_leavesOfAll ih _).trans ((leavesOfAll_sublist List.filter_sublist).trans ?_)
    rw [leaves_eq t]
    exact List.sublist_append_right _ _

theorem mem_leaves_of_mem_tokensAlong
    (h : t.childrenOf rule = (t.partAt? rule i).toList.map (·.tree))
    (hk : k ∈ t.tokensAlong (rule :: path)) : ∃ c, t.children[i]? = some c ∧ k ∈ c.leaves := by
  obtain ⟨c, hc, hk⟩ := List.mem_flatMap.mp hk
  rw [h] at hc
  obtain ⟨n, hn, rfl⟩ := List.mem_map.mp hc
  exact ⟨n.tree, partAt?_eq_some_iff.mp (Option.mem_toList.mp hn), (tokensAlong_sublist path _).mem hk⟩

/-- Paths through two slots lead to tokens in the order of the slots. -/
theorem pairwise_tokensAlong (hordered : t.leaves.Pairwise (· < ·))
    (h : t.childrenOf rule = (t.partAt? rule i).toList.map (·.tree))
    (h' : t.childrenOf rule' = (t.partAt? rule' j).toList.map (·.tree)) (hij : i < j) :
    (t.tokensAlong (rule :: path) ++ t.tokensAlong (rule' :: path')).Pairwise (· < ·) := by
  refine List.pairwise_append.mpr ⟨hordered.sublist (tokensAlong_sublist _ t),
    hordered.sublist (tokensAlong_sublist _ t), fun k hk l hl => ?_⟩
  obtain ⟨c, hc, hk⟩ := mem_leaves_of_mem_tokensAlong h hk
  obtain ⟨d, hd, hl⟩ := mem_leaves_of_mem_tokensAlong h' hl
  obtain ⟨hi, rfl⟩ := List.getElem?_eq_some_iff.mp hc
  obtain ⟨hj, rfl⟩ := List.getElem?_eq_some_iff.mp hd
  exact List.pairwise_iff_getElem.mp (pairwise_children hordered) i j hi hj hij k hk l hl

/-- The name in front of the third slot is the second token, if the first two are one token each. -/
theorem leaves_getElem?_one {first second : Tree} (ht : t.children = first :: second :: ts)
    (hfirst : first.leaves = [j]) (hsecond : second.leaves = [i]) : t.leaves[1]? = some i := by
  have htoken : t.token? = none := by
    cases t with
    | absent | token => cases ht
    | node => rfl
  rw [leaves_eq t, htoken, ht, leavesOfAll, leavesOfAll, hfirst, hsecond]
  rfl

end Tree

/-! ## Rules of the language -/

namespace Language

open Rule

/-- The rules around sections, and those of sections. -/
def outerNames : List String :=
  "compilation_unit" :: "functionOrReportDefinitions" :: "reportOrFunctionDefinition" ::
    Declaration.rules

/-- The rules that only sections mention. -/
def sectionNames : List String :=
  ["parameterList", "typeDeclarations"] ++ outerNames

theorem avoidedElsewhere_sectionNames : AvoidedElsewhere rules sectionNames := by
  unfold AvoidedElsewhere
  decide +kernel

theorem isPlainName_of_mem_sectionNames : ∀ name ∈ sectionNames, Rule.IsPlainName name := by
  decide +kernel

/-- Whether the part alone tells that it is not fitted by a node of the rule. -/
def excludes (name : String) (q : Rule) : Bool :=
  q.isLiteral || sectionNames.contains name && decide (q.Avoids sectionNames) ||
    partNames.any fun part => part != name && isRef part q
where
  /-- Whether the part is that name. -/
  isRef (part : String) : Rule → Bool
    | .ref name => name == part
    | _ => false

/-- A rule for one of several others, which makes no nodes of its own. -/
def IsUnion (rules : List RuleDeclaration) (name : String) (names : List String) : Prop :=
  ∃ d ∈ rules, d.name = name ∧ d.transient = true ∧ d.rule.isList = false ∧
    SymbolTable.alternativesOf d.rule = names.map .ref

theorem qualifierRules_subset : qualifierRules ⊆ rules := by
  unfold rules
  iterate 7 refine List.subset_append_of_subset_left _ ?_
  exact List.subset_append_right _ _

theorem isUnion_type : IsUnion rules "type"
    ["typeIdentifier", "indirectType", "largeType", "structuredType"] :=
  ⟨_, declarationRules_subset (List.mem_of_getElem? (i := 7) rfl), rfl, rfl, rfl, rfl⟩

theorem isUnion_typeIdentifier : IsUnion rules "typeIdentifier"
    ["charType", "numberType", "timeType", "classChain"] :=
  ⟨_, declarationRules_subset (List.mem_of_getElem? (i := 9) rfl), rfl, rfl, rfl, rfl⟩

theorem isUnion_structuredType : IsUnion rules "structuredType"
    ["recordType", "arrayType", "dynArrayType"] :=
  ⟨_, qualifierRules_subset (List.mem_of_getElem? (i := 11) rfl), rfl, rfl, rfl, rfl⟩

/-- The rules of types. -/
def typeNames : List String := ["indirectType", "largeType", "charType", "numberType", "timeType",
  "classChain", "recordType", "arrayType", "dynArrayType"]

theorem makesNode_of_mem_typeNames : ∀ name ∈ typeNames, MakesNode rules name := by
  unfold MakesNode
  decide +kernel

namespace IsInformix

variable {g : Grammar} {tokens : Array Token} {t u : Tree} {r q : Rule} {parts : List Rule}
  {alternatives : List (List Rule)} {name part : String} {names : List String} {i : Nat}

/-! ### Kinds of nodes in slots -/

/-- What fits a union fits one of its rules. -/
theorem exists_of_isUnion (hg : IsInformix g) (hunion : IsUnion rules name names)
    (h : g.Fits tokens (.ref name) t) : ∃ part ∈ names, g.Fits tokens (.ref part) t := by
  obtain ⟨d, hd, rfl, htransient, hlist, halternatives⟩ := hunion
  have hsingle : ∀ r ∈ SymbolTable.alternativesOf d.rule, r.slots = [r] := by
    rw [halternatives]
    exact List.forall_mem_map.mpr fun _ _ => rfl
  obtain ⟨r, hr, hfits⟩ := Fits.exists_alternative hg.lowered (hg.rules_eq.symm ▸ hd) htransient
    hlist hsingle h
  rw [halternatives] at hr
  obtain ⟨part, hpart, rfl⟩ := List.mem_map.mp hr
  exact ⟨part, hpart, hfits⟩

/-- What fits a rule that makes nodes is a node of that rule and of no other. -/
theorem eq_of_nodeOf (hg : IsInformix g) (hmakes : MakesNode rules name)
    (h : g.Fits tokens (.ref name) t) (n : NodeOf part) (hn : n.tree = t) : part = name := by
  obtain ⟨n', rfl⟩ := h.exists_nodeOf hg.lowered (hg.rules_eq.symm ▸ hmakes)
  rw [← n.kind_eq, hn, n'.kind_eq]

theorem kind_of_type (hg : IsInformix g) (h : g.Fits tokens (.ref "type") t) (n : NodeOf part)
    (hn : n.tree = t) : part ∈ typeNames := by
  have hmade : ∀ name ∈ typeNames, g.Fits tokens (.ref name) t → part ∈ typeNames :=
    fun name hname hfits =>
      hg.eq_of_nodeOf (makesNode_of_mem_typeNames name hname) hfits n hn ▸ hname
  obtain ⟨union, hunion, hfits⟩ := hg.exists_of_isUnion isUnion_type h
  simp only [List.mem_cons, List.not_mem_nil, or_false] at hunion
  rcases hunion with rfl | rfl | rfl | rfl
  · have hsub : ["charType", "numberType", "timeType", "classChain"] ⊆ typeNames := by decide
    obtain ⟨name, hname, hfits⟩ := hg.exists_of_isUnion isUnion_typeIdentifier hfits
    exact hmade name (hsub hname) hfits
  · exact hmade _ (by decide) hfits
  · exact hmade _ (by decide) hfits
  · have hsub : ["recordType", "arrayType", "dynArrayType"] ⊆ typeNames := by decide
    obtain ⟨name, hname, hfits⟩ := hg.exists_of_isUnion isUnion_structuredType hfits
    exact hmade name (hsub hname) hfits

theorem not_nodeOf_of_excludes (hg : IsInformix g) (hq : excludes name q = true)
    (h : g.Fits tokens q t) : ¬ ∃ n : NodeOf name, n.tree = t := by
  rintro ⟨n, rfl⟩
  rw [excludes, Bool.or_eq_true, Bool.or_eq_true, Bool.and_eq_true, decide_eq_true_eq,
    List.contains_iff_mem] at hq
  rcases hq with (hliteral | ⟨hname, havoids⟩) | hother
  · obtain ⟨j, hj⟩ := h.literal hliteral
    have hnode := n.isNode
    rw [hj] at hnode
    cases hnode
  · refine h.own_kind_not_mem (hg.rules_eq.symm ▸ avoidedElsewhere_sectionNames)
      isPlainName_of_mem_sectionNames havoids n.isNode ?_
    rw [n.kind_eq]
    exact hname
  · obtain ⟨part, hpart, hother⟩ := List.any_eq_true.mp hother
    obtain ⟨hne, href⟩ := (Bool.and_eq_true _ _).mp hother
    cases q with
    | ref other =>
      obtain rfl : other = part := eq_of_beq href
      have heq := hg.eq_of_nodeOf (makesNode_of_mem other hpart) h n rfl
      exact absurd heq.symm (bne_iff_ne.mp hne)
    | _ => cases href

/-- If all slots but one are for something else, the nodes of a rule are the part in that slot. -/
theorem childrenOf_eq (hg : IsInformix g) (part : String) (i : Nat)
    (hrule : HasSlots rules name alternatives)
    (hexcludes : ∀ parts ∈ alternatives, ∀ q ∈ parts.eraseIdx i, excludes part q = true)
    (h : g.Fits tokens (.ref name) t) :
    t.childrenOf part = (t.partAt? part i).toList.map (·.tree) := by
  obtain ⟨parts, hparts, hslots⟩ := hg.exists_slots hrule h
  refine Tree.childrenOf_eq_partAt? fun j c hc hof => by_contra fun hne => ?_
  obtain ⟨hj, rfl⟩ := List.getElem?_eq_some_iff.mp hc
  have hj' : j < parts.length := hslots.length_eq ▸ hj
  have hother : parts[j] ∈ parts.eraseIdx i :=
    List.mem_eraseIdx_iff_getElem.mpr ⟨j, hj', hne, rfl⟩
  exact hg.not_nodeOf_of_excludes (hexcludes parts hparts _ hother) (hslots.get hj' hj)
    (Tree.isOf_iff_exists.mp hof)

theorem childrenOf_eq_nil (hg : IsInformix g) (part : String)
    (hrule : HasSlots rules name alternatives)
    (hexcludes : ∀ parts ∈ alternatives, ∀ q ∈ parts, excludes part q = true)
    (h : g.Fits tokens (.ref name) t) : t.childrenOf part = [] := by
  obtain ⟨parts, hparts, hslots⟩ := hg.exists_slots hrule h
  refine Tree.childrenOf_eq_nil fun c hc => ?_
  obtain ⟨q, hq⟩ := exists_mem_zip hslots.length_eq hc
  exact hg.not_nodeOf_of_excludes (hexcludes parts hparts q (List.of_mem_zip hq).1)
    ((List.forall₂_iff_zip.mp hslots).2 hq)

/-! ### Defined names -/

/-- Nodes of a rule below a tree that fits something fit the rule. -/
theorem fits_of_mem_childrenOf (h : g.Fits tokens q t) (hname : name ∈ partNames)
    (hu : u ∈ t.childrenOf name) : g.Fits tokens (.ref name) u := by
  obtain ⟨hchild, n, rfl⟩ := Tree.mem_childrenOf.mp hu
  obtain ⟨q', hq'⟩ := h.of_mem_children _ hchild
  obtain ⟨hfits, -⟩ := hq'.of_isPlainName n.isNode (n.kind_eq.symm ▸ isPlainName_of_mem name hname)
  rwa [n.kind_eq] at hfits

/-- The names of one declaration. -/
theorem tokensAlong_variableDeclaration (hg : IsInformix g)
    (h : g.Fits tokens (.ref "variableDeclaration") t) :
    t.tokensAlong ["constantIdentifierList", "constantIdentifier"] =
      (t.childrenAt 0).filterMap (·.nameToken?) := by
  have hslots := hg.forall₂_children hasSlots_variableDeclaration h
  have hpart : t.childrenOf "constantIdentifierList" =
      (t.partAt? "constantIdentifierList" 0).toList.map (·.tree) := by
    refine Tree.childrenOf_eq_partAt? fun j c hc hof => by_contra fun hne => ?_
    generalize t.children = ts at hslots hc
    rcases hslots with _ | ⟨-, _ | ⟨htype, _ | _⟩⟩
    -- The second slot is for the type, and there is no third one.
    match j, hc with
    | 0, _ => exact hne rfl
    | 1, hc =>
      cases hc
      obtain ⟨n, hn⟩ := Tree.isOf_iff_exists.mp hof
      exact absurd (hg.kind_of_type htype n hn) (by decide)
  obtain ⟨u, hu, hfits⟩ := exists_getElem?_of_forall₂ (i := 0) hslots rfl
  obtain ⟨names, hnames⟩ := hg.exists_isNames hfits
  obtain ⟨⟨n, rfl⟩, hall⟩ := id hnames
  have hchildren : n.tree.childrenOf "constantIdentifier" = n.tree.children :=
    Tree.childrenOf_eq_children fun c hc => by
      obtain ⟨j, hj, rfl⟩ := List.getElem_of_mem hc
      exact (hall.get hj (hall.length_eq ▸ hj)).1
  rw [Tree.tokensAlong_of_part hpart (Tree.partAt?_eq_some_iff.mpr hu), Tree.childrenAt_eq hu n.isNode,
    hnames.filterMap_eq, Tree.tokensAlong, hchildren, ← hnames.leaves_eq,
    Tree.leaves_of_isNode n.isNode, Tree.leavesOfAll_eq_flatMap]
  rfl

/-- The names of one statement. -/
theorem tokensAlong_typeDeclaration (hg : IsInformix g) {d : DefineStatement}
    (h : g.Fits tokens (.ref "typeDeclaration") d.tree) :
    d.tree.tokensAlong ["variableDeclarationList", "variableDeclaration", "constantIdentifierList",
      "constantIdentifier"] = d.names := by
  have hpart := hg.childrenOf_eq "variableDeclarationList" 1 hasSlots_typeDeclaration (by decide) h
  have hslots := hg.forall₂_children hasSlots_typeDeclaration h
  obtain ⟨u, hu, hfits⟩ := exists_getElem?_of_forall₂ (i := 1) hslots rfl
  obtain ⟨n, rfl⟩ := hg.exists_nodeOf (by decide) hfits
  have hnames : d.names =
      (n.tree.childrenOf "variableDeclaration").flatMap fun t =>
        (t.childrenAt 0).filterMap (·.nameToken?) := by
    rw [DefineStatement.names, Tree.childrenAt_eq hu n.isNode, Tree.childrenOf,
      ← Tree.map_tree_filterMap_as?, List.flatMap_map]
  rw [Tree.tokensAlong_of_part hpart (Tree.partAt?_eq_some_iff.mpr hu), hnames, Tree.tokensAlong]
  exact List.flatMap_congr fun c hc =>
    hg.tokensAlong_variableDeclaration (fits_of_mem_childrenOf hfits (by decide) hc)

/-- The names of all statements of a section. -/
theorem tokensAlong_typeDeclarations (hg : IsInformix g) {d : Definitions}
    (h : g.Fits tokens (.ref "typeDeclarations") d.tree) :
    d.tree.tokensAlong ["typeDeclaration", "variableDeclarationList", "variableDeclaration",
      "constantIdentifierList", "constantIdentifier"] = d.names := by
  rw [Definitions.names, Definitions.statements, Tree.tokensAlong, Tree.childrenOf,
    ← Tree.map_tree_filterMap_as?, List.flatMap_map]
  refine List.flatMap_congr fun s hs => ?_
  have hmem : s.tree ∈ d.tree.childrenOf "typeDeclaration" := by
    rw [Tree.childrenOf, ← Tree.map_tree_filterMap_as?]
    exact List.mem_map_of_mem hs
  exact hg.tokensAlong_typeDeclaration (fits_of_mem_childrenOf h (by decide) hmem)

/-- The names that a tree defines, if its definitions are in one slot. -/
theorem definedTokens_eq (hg : IsInformix g) (h : g.Fits tokens q t)
    (hpart : t.childrenOf "typeDeclarations" =
      (t.partAt? "typeDeclarations" i).toList.map (·.tree)) :
    t.definedTokens = ((t.partAt? "typeDeclarations" i).map Definitions.names).getD [] := by
  cases hd : t.partAt? "typeDeclarations" i with
  | none => rw [Tree.definedTokens, Tree.tokensAlong, hpart, hd]; rfl
  | some d =>
    have hmem : d.tree ∈ t.childrenOf "typeDeclarations" := by
      rw [hpart, hd]
      exact List.mem_singleton_self _
    rw [Tree.definedTokens, Tree.tokensAlong_of_part hpart hd,
      hg.tokensAlong_typeDeclarations (fits_of_mem_childrenOf h (by decide) hmem)]
    rfl

/-! ### Names of scopes -/

/-- The name of a function is its second token. -/
theorem exists_functionName (hg : IsInformix g) {f : FunctionDefinition}
    (h : g.Fits tokens (.ref "functionDefinition") f.tree) :
    ∃ i, f.nameToken? = some i ∧ f.tree.leaves[1]? = some i := by
  have hslots := hg.forall₂_children hasSlots_functionDefinition h
  obtain ⟨hname, -⟩ := hg.functionParts h
  obtain ⟨i, hi⟩ := Option.isSome_iff_exists.mp hname
  refine ⟨i, hi, ?_⟩
  rw [FunctionDefinition.nameToken?, Option.bind_eq_some_iff] at hi
  obtain ⟨u, hu, hi⟩ := hi
  obtain ⟨hu, -⟩ := Tree.slot?_eq_some_iff.mp hu
  generalize hchildren : f.tree.children = ts at hslots hu
  rcases hslots with _ | ⟨hword, _ | ⟨hfits, _⟩⟩
  obtain ⟨j, rfl⟩ := hword.literal rfl
  cases hu
  refine Tree.leaves_getElem?_one hchildren rfl ?_
  cases u with
  | absent => cases hi
  | token =>
    cases hi
    rfl
  | node kind span children =>
    by_cases hkind : kind = "constantIdentifier"
    · subst hkind
      obtain ⟨hnamed, -⟩ := hfits.of_isPlainName rfl (isPlainName_of_mem "constantIdentifier" (by decide))
      obtain ⟨k, hk⟩ := hg.exists_isName hnamed
      rw [hk.leaves_eq, ← Option.some.inj (hk.nameToken?_eq.symm.trans hi)]
    · exact absurd ((if_neg hkind).symm.trans hi) nofun

/-- So is that of a report. -/
theorem exists_reportName (hg : IsInformix g) {r : ReportDefinition}
    (h : g.Fits tokens (.ref "reportDefinition") r.tree) :
    ∃ i, r.nameToken? = some i ∧ r.tree.leaves[1]? = some i := by
  have hslots := hg.forall₂_children hasSlots_reportDefinition h
  generalize hchildren : r.tree.children = ts at hslots
  rcases hslots with _ | ⟨hword, _ | ⟨hfits, _⟩⟩
  obtain ⟨j, rfl⟩ := hword.literal rfl
  obtain ⟨i, _, rfl, -⟩ := hg.exists_token List.mem_cons_self hfits
  refine ⟨i, Tree.tokenAt?_eq_some_iff.mpr ?_, Tree.leaves_getElem?_one hchildren rfl rfl⟩
  rw [hchildren]
  rfl

end IsInformix

end Language

end FourGL
