import FourGL.Proofs.Outline.NamePaths

/-!
# The sections of a program

The section of global variables, the main block, the functions and the reports are never nested, as no
other rule leads back to theirs.

**Theorem (`Parse.map_tree_ofRoot`).** The declarations that a walk through the tree of an Informix 4GL
source finds are all nodes of their rules, in the order of the text.

**Theorem (`Declaration.tokens_eq`).** What such a declaration reads from its slots are the names at the
ends of the paths of rules.
-/

namespace FourGL

open Grammar

/-! ## Sections are not nested -/

namespace Language

theorem avoidedElsewhere_outerNames : AvoidedElsewhere rules outerNames := by
  have hinner : ∀ d ∈ rules,
      d.name ∈ ["parameterList", "typeDeclarations"] → d.rule.Avoids outerNames := by
    decide +kernel
  intro d hd houter
  by_cases hsection : d.name ∈ sectionNames
  · exact hinner d hd ((List.mem_append.mp hsection).resolve_right houter)
  · exact fun name hname => avoidedElsewhere_sectionNames d hd hsection name
      (List.mem_append_right _ hname)

/-- No section lies in another. -/
theorem avoids_of_mem_rules : ∀ name ∈ Declaration.rules, ∃ d ∈ rules, d.name = name ∧
    d.transient = false ∧ d.rule.isList = false ∧ d.rule.Avoids outerNames := by
  decide +kernel

end Language

/-! ## The sections of a parse -/

namespace Parse

variable {g : Grammar} {limits : Limits} {source : String} {n i j : Nat} {p : Parse} {t : Tree}
  {q : Rule}

/-- The parameters of a section, which are the identifiers in its parameter list. -/
def parameterTokens (p : Parse) (t : Tree) : List Nat :=
  (t.tokensAlong ["parameterList", "parameterGroup"]).filter fun i =>
    p.terminalName i == Language.identifierName

theorem tokensAlong_parameterList (hg : Language.IsInformix g)
    (h : (Language.ofGrammar g).parseWithin n limits source = some p) {l : ParameterList}
    (hfits : g.Fits p.tokens (.ref "parameterList") l.tree) :
    (l.tree.tokensAlong ["parameterGroup"]).filter (fun i =>
      p.terminalName i == Language.identifierName) = l.parameters := by
  have hpart := hg.childrenOf_eq "parameterGroup" 1 Language.hasSlots_parameterList (by decide) hfits
  rcases hg.parameterParts hfits with ⟨hnil, hnone⟩ | ⟨group, hgroup, hchildren, hall⟩
  · have hchildren : l.tree.childrenOf "parameterGroup" = [] :=
      Tree.childrenOf_eq_nil fun c hc ⟨group, hgroup⟩ => hnone group (hgroup ▸ hc)
    rw [Tree.tokensAlong, hchildren, hnil]
    rfl
  · have hleaves : group.tree.leaves = l.parameters := by
      rw [Tree.leaves_of_isNode group.isNode, hchildren, Tree.leavesOfAll_map_token]
    rw [Tree.tokensAlong_of_part hpart (Tree.partAt?_eq_some_iff.mpr hgroup), Tree.tokensAlong,
      hleaves]
    refine List.filter_eq_self.mpr fun i hi => beq_iff_eq.mpr ?_
    exact terminalName_of_fits hg h (hall _ (hchildren ▸ List.mem_map_of_mem hi))

/-- The parameters of a tree, if its parameter list is in one slot. -/
theorem parameterTokens_eq (hg : Language.IsInformix g)
    (h : (Language.ofGrammar g).parseWithin n limits source = some p) (hfits : g.Fits p.tokens q t)
    (hpart : t.childrenOf "parameterList" = (t.partAt? "parameterList" i).toList.map (·.tree)) :
    p.parameterTokens t =
      ((t.partAt? "parameterList" i).map ParameterList.parameters).getD [] := by
  cases hl : t.partAt? "parameterList" i with
  | none => rw [parameterTokens, Tree.tokensAlong, hpart, hl]; rfl
  | some l =>
    have hmem : l.tree ∈ t.childrenOf "parameterList" := by
      rw [hpart, hl]
      exact List.mem_singleton_self _
    rw [parameterTokens, Tree.tokensAlong_of_part hpart hl, tokensAlong_parameterList hg h
      (Language.IsInformix.fits_of_mem_childrenOf hfits (by decide) hmem)]
    rfl

/-- The names that a section declares: its parameters, and then what it defines. -/
def sectionTokens (p : Parse) (t : Tree) : List Nat := p.parameterTokens t ++ t.definedTokens

theorem sectionTokens_sublist_append (t : Tree) : (p.sectionTokens t).Sublist
    (t.tokensAlong ["parameterList", "parameterGroup"] ++ t.definedTokens) :=
  List.filter_sublist.append (.refl _)

theorem sectionTokens_subset (t : Tree) : p.sectionTokens t ⊆ t.leaves :=
  List.Subset.trans (sectionTokens_sublist_append t).subset (List.append_subset.mpr
    ⟨(Tree.tokensAlong_sublist _ t).subset, (Tree.tokensAlong_sublist _ t).subset⟩)

/-- The slots of a section, with that for its parameters in front. -/
theorem slots_of_section (hg : Language.IsInformix g)
    (h : (Language.ofGrammar g).parseWithin n limits source = some p) (hfits : g.Fits p.tokens q t)
    (hordered : t.leaves.Pairwise (· < ·))
    (hparameters : t.childrenOf "parameterList" = (t.partAt? "parameterList" i).toList.map (·.tree))
    (hdefined : t.childrenOf "typeDeclarations" =
      (t.partAt? "typeDeclarations" j).toList.map (·.tree)) (hij : i < j) :
    p.parameterTokens t = ((t.partAt? "parameterList" i).map ParameterList.parameters).getD [] ∧
      t.definedTokens = ((t.partAt? "typeDeclarations" j).map Definitions.names).getD [] ∧
      (p.sectionTokens t).Pairwise (· < ·) := by
  refine ⟨parameterTokens_eq hg h hfits hparameters, hg.definedTokens_eq hfits hdefined, ?_⟩
  exact (Tree.pairwise_tokensAlong hordered hparameters hdefined hij).sublist
    (sectionTokens_sublist_append t)

/-- The slots of a section that has no parameters. -/
theorem slots_of_section_without_parameters (hg : Language.IsInformix g)
    (hfits : g.Fits p.tokens q t) (hordered : t.leaves.Pairwise (· < ·))
    (hparameters : t.childrenOf "parameterList" = [])
    (hdefined : t.childrenOf "typeDeclarations" =
      (t.partAt? "typeDeclarations" j).toList.map (·.tree)) :
    p.parameterTokens t = [] ∧
      t.definedTokens = ((t.partAt? "typeDeclarations" j).map Definitions.names).getD [] ∧
      (p.sectionTokens t).Pairwise (· < ·) := by
  have hnone : p.parameterTokens t = [] := by
    rw [parameterTokens, Tree.tokensAlong, hparameters]
    rfl
  refine ⟨hnone, hg.definedTokens_eq hfits hdefined, ?_⟩
  rw [sectionTokens, hnone]
  exact hordered.sublist (Tree.tokensAlong_sublist _ _)

end Parse

namespace Declaration

variable {g : Grammar} {limits : Limits} {source : String} {n : Nat} {p : Parse} {d : Declaration}

/-- The node that the declaration is. -/
def tree : Declaration → Tree
  | globals node => node.tree
  | main node => node.tree
  | function node => node.tree
  | report node => node.tree

/-- **Declared names.** What a declaration reads from its slots are the tokens at the ends of the paths
of rules, and these are in the order of the text. -/
theorem tokens_eq (hg : Language.IsInformix g)
    (h : (Language.ofGrammar g).parseWithin n limits source = some p) (hd : d.tree ∈ p.trees) :
    p.parameterTokens d.tree = d.parameters ∧ d.tree.definedTokens = d.defined ∧
      (p.sectionTokens d.tree).Pairwise (· < ·) := by
  cases d with
  | globals s =>
    obtain ⟨hfits, hordered⟩ := Parse.fits_of_mem_trees hg h (by decide) hd
    have hrule := Language.hasSlots_globalDeclaration
    exact Parse.slots_of_section_without_parameters hg hfits hordered
      (hg.childrenOf_eq_nil "parameterList" hrule (by decide) hfits)
      (hg.childrenOf_eq "typeDeclarations" 1 hrule (by decide) hfits)
  | main b =>
    obtain ⟨hfits, hordered⟩ := Parse.fits_of_mem_trees hg h (by decide) hd
    have hrule := Language.hasSlots_mainBlock
    exact Parse.slots_of_section_without_parameters hg hfits hordered
      (hg.childrenOf_eq_nil "parameterList" hrule (by decide) hfits)
      (hg.childrenOf_eq "typeDeclarations" 1 hrule (by decide) hfits)
  | function f =>
    obtain ⟨hfits, hordered⟩ := Parse.fits_of_mem_trees hg h (by decide) hd
    have hrule := Language.hasSlots_functionDefinition
    exact Parse.slots_of_section hg h hfits hordered
      (hg.childrenOf_eq "parameterList" 2 hrule (by decide) hfits)
      (hg.childrenOf_eq "typeDeclarations" 3 hrule (by decide) hfits) (by decide)
  | report r =>
    obtain ⟨hfits, hordered⟩ := Parse.fits_of_mem_trees hg h (by decide) hd
    have hrule := Language.hasSlots_reportDefinition
    exact Parse.slots_of_section hg h hfits hordered
      (hg.childrenOf_eq "parameterList" 2 hrule (by decide) hfits)
      (hg.childrenOf_eq "typeDeclarations" 3 hrule (by decide) hfits) (by decide)

end Declaration

/-! ## All sections -/

namespace Declaration

theorem exists_tree_eq {t : Tree} (hnode : t.isNode = true) (hkind : t.kind ∈ rules) :
    ∃ d : Declaration, d.tree = t := by
  generalize hname : t.kind = name at hkind
  simp only [rules, scopeRules, List.mem_cons, List.not_mem_nil, or_false] at hkind
  rcases hkind with rfl | rfl | rfl | rfl
  · exact ⟨.globals ⟨t, hnode, hname⟩, rfl⟩
  · exact ⟨.main ⟨t, hnode, hname⟩, rfl⟩
  · exact ⟨.function ⟨t, hnode, hname⟩, rfl⟩
  · exact ⟨.report ⟨t, hnode, hname⟩, rfl⟩

/-- A declaration is known by its node. -/
theorem ofTree?_tree (d : Declaration) : ofTree? d.tree = some d := by
  have hsome : ∀ {rule : String} (n : NodeOf rule), n.tree.as? rule = some n :=
    fun n => Tree.as?_eq_some_iff.mpr rfl
  have hnone : ∀ {rule : String} (n : NodeOf rule) (rule' : String), rule' ≠ rule →
      n.tree.as? rule' = none := fun n rule' hne =>
    Option.eq_none_iff_forall_ne_some.mpr fun n' hn' =>
      hne (Tree.MayBe.eq_of_tree n (Or.inr ⟨n', Tree.as?_eq_some_iff.mp hn'⟩))
  cases d with
  | globals s => rw [ofTree?, tree, hsome s]; rfl
  | main b => rw [ofTree?, tree, hnone b _ (by decide), hsome b]; rfl
  | function f =>
    rw [ofTree?, tree, hnone f _ (by decide), hnone f _ (by decide), hsome f]
    rfl
  | report r =>
    rw [ofTree?, tree, hnone r _ (by decide), hnone r _ (by decide), hnone r _ (by decide), hsome r]
    rfl

end Declaration

namespace Parse

variable {g : Grammar} {limits : Limits} {source : String} {n : Nat} {p : Parse} {root t : Tree}

/-- The nodes of several rules in the tree of a parse, in the order of the text. -/
def nodesOf (p : Parse) (rules : List String) : List Tree :=
  p.trees.filter fun t => t.isNode && rules.contains t.kind

/-- No section lies in another. -/
theorem kind_not_mem_below_section (hg : Language.IsInformix g)
    (h : (Language.ofGrammar g).parseWithin n limits source = some p) (ht : t ∈ p.trees)
    (hnode : t.isNode = true) (hkind : t.kind ∈ Declaration.rules) :
    ∀ u ∈ Tree.allOf t.children, u.isNode = true → u.kind ∉ Declaration.rules := by
  have hsub : Declaration.rules ⊆ Language.partNames := by decide
  have hnamed : (⟨t, hnode, rfl⟩ : NodeOf t.kind).tree ∈ p.trees := ht
  have hfits : g.Fits p.tokens (.ref t.kind) t := (fits_of_mem_trees hg h (hsub hkind) hnamed).1
  obtain ⟨d, hd, hname, htransient, hlist, havoids⟩ := Language.avoids_of_mem_rules t.kind hkind
  rw [← hname] at hfits
  have houter : Declaration.rules ⊆ Language.outerNames := by decide
  intro u hu hunode hukind
  exact hfits.kind_not_mem_below hg.lowered
    (hg.rules_eq.symm ▸ Language.avoidedElsewhere_outerNames)
    (fun name hname => Language.isPlainName_of_mem_sectionNames name (List.mem_append_right _ hname))
    (hg.rules_eq.symm ▸ hd) htransient hlist havoids u hu hunode (houter hukind)

theorem topmost_eq_nodesOf (hg : Language.IsInformix g)
    (h : (Language.ofGrammar g).parseWithin n limits source = some p) (hroot : p.root = some root) :
    root.topmost (fun rule => Declaration.rules.contains rule) = p.nodesOf Declaration.rules := by
  have htrees : p.trees = Tree.allOf [root] := by
    rw [trees, hroot]
    rfl
  rw [nodesOf, htrees]
  refine Tree.topmost_eq_filter fun t ht hends u hu => Bool.eq_false_iff.mpr fun hends' => ?_
  obtain ⟨hnode, hkind⟩ := (Bool.and_eq_true _ _).mp hends
  obtain ⟨hnode', hkind'⟩ := (Bool.and_eq_true _ _).mp hends'
  exact kind_not_mem_below_section hg h (htrees ▸ ht) hnode (List.contains_iff_mem.mp hkind) u hu
    hnode' (List.contains_iff_mem.mp hkind')

/-- **Sections.** The declarations that a walk finds are all nodes of their rules. -/
theorem map_tree_ofRoot (hg : Language.IsInformix g)
    (h : (Language.ofGrammar g).parseWithin n limits source = some p) (hroot : p.root = some root) :
    (Declaration.ofRoot root).map (·.tree) = p.nodesOf Declaration.rules := by
  have hall : ∀ t ∈ p.nodesOf Declaration.rules, ∃ d : Declaration, t = d.tree := fun t ht => by
    obtain ⟨hnode, hkind⟩ := (Bool.and_eq_true _ _).mp (List.mem_filter.mp ht).2
    obtain ⟨d, hd⟩ := Declaration.exists_tree_eq hnode (List.contains_iff_mem.mp hkind)
    exact ⟨d, hd.symm⟩
  rw [Declaration.ofRoot, topmost_eq_nodesOf hg h hroot]
  obtain ⟨ds, hds⟩ := exists_forall₂_of_forall hall
  generalize p.nodesOf Declaration.rules = ts at hds
  induction hds with
  | nil => rfl
  | @cons t d ts ds ht _ ih =>
    rw [List.filterMap_cons_some (ht ▸ d.ofTree?_tree), List.map_cons, ih, ht]

/-- The tokens of sections, one after the other, are in the order of the text. -/
theorem pairwise_leaves_nodesOf (hg : Language.IsInformix g)
    (h : (Language.ofGrammar g).parseWithin n limits source = some p) (hroot : p.root = some root) :
    (p.nodesOf Declaration.rules).Pairwise fun t u => ∀ i ∈ t.leaves, ∀ j ∈ u.leaves, i < j := by
  obtain ⟨e, -, he⟩ := hg.root
  obtain ⟨-, hordered⟩ := fits_root hg.built hg.alike he h hroot
  rw [← topmost_eq_nodesOf hg h hroot]
  refine Tree.pairwise_leaves (hordered.sublist ?_)
  rw [Tree.leavesOfAll_eq_flatMap]
  exact Tree.flatMap_leaves_topmost _ root

end Parse

end FourGL
