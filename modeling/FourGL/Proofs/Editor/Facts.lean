import FourGL.Editor.Facts
import FourGL.Proofs.Outline.Sections

/-!
# Facts are what the tree says

The facts of a parse are gathered in one walk over its declarations. Each adds its names to one list:
the section of global variables to the globals, any other to the scope of its key. So a list holds the
names of its declarations, in their order, and of names that differ in ASCII case alone the first.

**Theorem (`facts_match`).** Whatever the text and the limits are, the facts of an Informix 4GL source
are those that the nodes of its tree declare, told by their rules alone.
-/

namespace FourGL

/-! ## First names -/

namespace NameList

variable {names : List String} {name known other : String}

/-- The names, where each one after the first of those that differ in ASCII case alone is left out. -/
def firsts : List String → List String
  | [] => []
  | name :: names =>
    name :: (firsts names).filter fun later => !Text.equalIgnoringAsciiCase name later

theorem equalIgnoringAsciiCase_iff :
    Text.equalIgnoringAsciiCase name other = true ↔
      Text.asciiLowercase name = Text.asciiLowercase other := beq_iff_eq

theorem holds_iff : holds names name = true ↔
    ∃ known ∈ names, Text.asciiLowercase known = Text.asciiLowercase name := by
  simp only [holds, List.any_eq_true, equalIgnoringAsciiCase_iff]

theorem holds_firsts_cons : holds (firsts (known :: names)) name = true ↔
    Text.asciiLowercase known = Text.asciiLowercase name ∨ holds (firsts names) name = true := by
  simp only [firsts, holds_iff, List.exists_mem_cons_iff, List.mem_filter, Bool.not_eq_true',
    Bool.eq_false_iff, ne_eq, equalIgnoringAsciiCase_iff]
  refine or_congr_right' fun hne => exists_congr fun later => ?_
  exact ⟨fun ⟨⟨hmem, _⟩, heq⟩ => ⟨hmem, heq⟩, fun ⟨hmem, heq⟩ =>
    ⟨⟨hmem, fun h => hne (h.trans heq)⟩, heq⟩⟩

/-- A further name is inserted as any name is. -/
theorem firsts_concat (names : List String) (name : String) :
    firsts (names ++ [name]) = insert (firsts names) name := by
  induction names with
  | nil => rfl
  | cons known names ih =>
    rw [List.cons_append, firsts, ih, insert, insert]
    by_cases hheld : holds (firsts names) name = true
    · rw [if_pos hheld, if_pos (holds_firsts_cons.mpr (Or.inr hheld)), firsts]
    · rw [if_neg hheld, List.filter_append]
      by_cases heq : Text.equalIgnoringAsciiCase known name = true
      · rw [if_pos (holds_firsts_cons.mpr (Or.inl (equalIgnoringAsciiCase_iff.mp heq))), firsts]
        simp [heq]
      · have hnot : ¬ holds (firsts (known :: names)) name = true := fun h =>
          (holds_firsts_cons.mp h).elim (fun h => heq (equalIgnoringAsciiCase_iff.mpr h)) hheld
        rw [if_neg hnot, firsts]
        simp [heq]

theorem insertAll_firsts (names more : List String) :
    insertAll (firsts names) more = firsts (names ++ more) := by
  induction more generalizing names with
  | nil => rw [List.append_nil]; rfl
  | cons name more ih =>
    rw [insertAll, List.foldl_cons, ← firsts_concat, ← insertAll, ih, List.append_assoc]
    rfl

end NameList

/-! ## One declaration after the other -/

namespace Declaration

/-- Whether the declaration is a section of global variables. -/
def isGlobals : Declaration → Bool
  | globals _ => true
  | _ => false

/-- The key of the scope that the declaration is. -/
def key? (p : Parse) (d : Declaration) : Option String := (d.scopeName? p).map Facts.scopeKey

variable {d : Declaration} {p : Parse}

theorem contains_globals (d : Declaration) :
    ["globalDeclaration"].contains d.tree.kind = d.isGlobals := by
  cases d with
  | globals n | main n | function n | report n => rw [tree, n.kind_eq]; rfl

theorem contains_definitions (d : Declaration) :
    ["mainBlock", "functionDefinition", "reportDefinition"].contains d.tree.kind = !d.isGlobals := by
  cases d with
  | globals n | main n | function n | report n => rw [tree, n.kind_eq]; rfl

theorem key?_of_globals (h : d.isGlobals = true) : d.key? p = none := by
  cases d with
  | globals => rfl
  | main | function | report => cases h

theorem parameters_of_globals (h : d.isGlobals = true) : d.parameters = [] := by
  cases d with
  | globals => rfl
  | main | function | report => cases h

end Declaration

namespace Facts

variable {p : Parse} {facts : Facts} {d : Declaration} {ds : List Declaration} {key : String}

/-- What a scope holds, if it was opened. -/
def localsAt? (facts : Facts) (key : String) : Option (List String) :=
  (facts.scopes[key]?).map (·.locals)

theorem localsAt?_extendScope (facts : Facts) (name : String) (names : List String) (key : String) :
    (facts.extendScope name names).localsAt? key =
      if scopeKey name = key then some (NameList.insertAll ((facts.localsAt? key).getD []) names)
      else facts.localsAt? key := by
  rw [localsAt?, extendScope]
  simp only [Std.TreeMap.getElem?_insert, Std.LawfulEqCmp.compare_eq_iff_eq]
  split
  · next h =>
    subst h
    rw [Option.map_some, localsAt?, Std.TreeMap.getD_eq_getD_getElem?]
    cases facts.scopes[scopeKey name]? <;> rfl
  · rfl

theorem declare_of_none (hglobals : d.isGlobals = false) (h : d.scopeName? p = none) :
    declare p facts d = facts := by
  cases d with
  | globals => cases hglobals
  | main | function | report => simp only [declare, h]

theorem declare_of_some {name : String} (hglobals : d.isGlobals = false)
    (h : d.scopeName? p = some name) :
    declare p facts d = facts.extendScope name (d.names p) := by
  cases d with
  | globals => cases hglobals
  | main | function | report => simp only [declare, h]

/-- A section of global variables adds its names to the globals. -/
theorem globals_declare (p : Parse) (facts : Facts) (d : Declaration) :
    (declare p facts d).globals =
      if d.isGlobals then NameList.insertAll facts.globals (d.names p) else facts.globals := by
  cases hglobals : d.isGlobals with
  | true =>
    cases d with
    | globals => rfl
    | main | function | report => cases hglobals
  | false =>
    cases hname : d.scopeName? p with
    | none => rw [declare_of_none hglobals hname]; rfl
    | some name => rw [declare_of_some hglobals hname]; rfl

/-- Any other declaration adds its names to the scope of its key. -/
theorem localsAt?_declare (p : Parse) (facts : Facts) (d : Declaration) (key : String) :
    (declare p facts d).localsAt? key =
      if d.key? p = some key then
        some (NameList.insertAll ((facts.localsAt? key).getD []) (d.names p))
      else facts.localsAt? key := by
  cases hglobals : d.isGlobals with
  | true =>
    cases d with
    | globals => rfl
    | main | function | report => cases hglobals
  | false =>
    rw [Declaration.key?]
    cases hname : d.scopeName? p with
    | none => rw [declare_of_none hglobals hname]; rfl
    | some name =>
      rw [declare_of_some hglobals hname, localsAt?_extendScope, Option.map_some]
      simp only [Option.some.injEq]

/-- **Globals of a walk.** -/
theorem globals_foldl (p : Parse) (ds : List Declaration) :
    (ds.foldl (declare p) {}).globals =
      NameList.firsts ((ds.filter (·.isGlobals)).flatMap (·.names p)) := by
  induction ds using List.reverseRecOn with
  | nil => rfl
  | append_singleton ds d ih =>
    rw [List.foldl_append, List.foldl_cons, List.foldl_nil, globals_declare, ih, List.filter_append,
      List.flatMap_append, ← NameList.insertAll_firsts]
    cases hglobals : d.isGlobals with
    | true => rw [if_pos rfl, List.filter_cons_of_pos hglobals]; simp
    | false => rw [if_neg Bool.false_ne_true, List.filter_cons_of_neg (by rw [hglobals]; decide)]; rfl

/-- What the scope of several declarations holds, which is opened by the first. -/
def localsOf? (p : Parse) (ds : List Declaration) : Option (List String) :=
  if ds.isEmpty then none else some (NameList.firsts (ds.flatMap (·.names p)))

theorem getD_localsOf? (p : Parse) (ds : List Declaration) :
    (localsOf? p ds).getD [] = NameList.firsts (ds.flatMap (·.names p)) := by
  cases ds <;> rfl

theorem localsOf?_concat (p : Parse) (ds : List Declaration) (d : Declaration) :
    localsOf? p (ds ++ [d]) = some (NameList.insertAll ((localsOf? p ds).getD []) (d.names p)) := by
  have hne : (ds ++ [d]).isEmpty = false := by simp
  rw [getD_localsOf?, NameList.insertAll_firsts, localsOf?, hne, List.flatMap_append,
    List.flatMap_singleton]
  rfl

/-- **Scopes of a walk.** The scope of a key holds what all declarations with this key bring. -/
theorem localsAt?_foldl (p : Parse) (ds : List Declaration) (key : String) :
    (ds.foldl (declare p) {}).localsAt? key =
      localsOf? p (ds.filter fun d => d.key? p == some key) := by
  induction ds using List.reverseRecOn with
  | nil => simp [localsAt?, localsOf?]
  | append_singleton ds d ih =>
    rw [List.foldl_append, List.foldl_cons, List.foldl_nil, localsAt?_declare, ih, List.filter_append]
    by_cases hkey : d.key? p = some key
    · rw [if_pos hkey, ← localsOf?_concat]
      simp [hkey]
    · rw [if_neg hkey]
      simp [hkey]

end Facts

/-! ## What the tree declares -/

namespace Parse

/-- The sections of global variables. -/
def globalSections (p : Parse) : List Tree := p.nodesOf ["globalDeclaration"]

/-- The main block, the functions and the reports. -/
def definitions (p : Parse) : List Tree :=
  p.nodesOf ["mainBlock", "functionDefinition", "reportDefinition"]

/-- The key of a definition: a fixed one for the main block, else the name in small letters, which is the
token after the word that the definition starts with. -/
def definitionKey? (p : Parse) (t : Tree) : Option String :=
  if t.kind = "mainBlock" then some "main"
  else t.leaves[1]?.map fun i => Text.lowercase (p.nameText i)

/-- The definitions of a key, in the order of the text. -/
def definitionsOf (p : Parse) (key : String) : List Tree :=
  p.definitions.filter fun t => p.definitionKey? t == some key

/-- The global variables, as tokens. -/
def globalTokens (p : Parse) : List Nat := p.globalSections.flatMap (·.definedTokens)

/-- The parameters and variables of all definitions of a key, as tokens. -/
def localTokens (p : Parse) (key : String) : List Nat :=
  (p.definitionsOf key).flatMap p.sectionTokens

/-- The facts of the parse are those that the nodes of its tree declare. -/
structure FactsMatch (p : Parse) : Prop where
  /-- The globals are the names that the section of global variables defines. -/
  globals : (Facts.ofParse p).globals = NameList.firsts (p.nameTexts p.globalTokens)
  /-- Every definition has a key. -/
  named : ∀ t ∈ p.definitions, (p.definitionKey? t).isSome = true
  /-- There is a scope for each of these keys, and no other. -/
  keys : ∀ key, key ∈ (Facts.ofParse p).scopes ↔ ∃ t ∈ p.definitions, p.definitionKey? t = some key
  /-- A scope holds the parameters and variables of all definitions of its key. -/
  locals : ∀ key scope, (Facts.ofParse p).scopes[key]? = some scope →
    scope.locals = NameList.firsts (p.nameTexts (p.localTokens key))
  /-- All these names are in the order of the text. -/
  ordered : p.globalTokens.Pairwise (· < ·) ∧ ∀ key, (p.localTokens key).Pairwise (· < ·)

variable {g : Grammar} {limits : Limits} {source : String} {n : Nat} {p : Parse} {root t : Tree}

theorem factsMatch_of_no_root (h : p.root = none) : p.FactsMatch := by
  have htrees : p.trees = [] := by rw [trees, h, Option.toList_none, Tree.allOf_nil]
  have hdefinitions : p.definitions = [] := by rw [definitions, nodesOf, htrees, List.filter_nil]
  have hglobals : p.globalTokens = [] := by
    rw [globalTokens, globalSections, nodesOf, htrees, List.filter_nil, List.flatMap_nil]
  have hlocals : ∀ key, p.localTokens key = [] := fun key => by
    rw [localTokens, definitionsOf, hdefinitions, List.filter_nil, List.flatMap_nil]
  have hfacts : Facts.ofParse p = {} := by rw [Facts.ofParse, h]
  refine ⟨?_, ?_, fun key => ?_, fun key scope hscope => ?_, ?_⟩
  · rw [hfacts, hglobals]
    rfl
  · rw [hdefinitions]
    exact List.forall_mem_nil _
  · simp [hfacts, hdefinitions]
  · simp [hfacts] at hscope
  · exact ⟨hglobals ▸ .nil, fun key => hlocals key ▸ .nil⟩

/-! ### From declarations to nodes -/

theorem nodesOf_eq_filter {names names' : List String} (h : names ⊆ names') :
    p.nodesOf names = (p.nodesOf names').filter fun t => names.contains t.kind := by
  rw [nodesOf, nodesOf, List.filter_filter]
  refine List.filter_congr fun t _ => ?_
  cases hmem : names.contains t.kind with
  | true =>
    rw [List.contains_iff_mem.mpr (h (List.contains_iff_mem.mp hmem))]
    simp
  | false => simp

/-- The nodes of some declarations, and what each declares. -/
theorem flatMap_names {ds : List Declaration} {tokensOf : Tree → List Nat}
    (h : ∀ d ∈ ds, tokensOf d.tree = d.parameters ++ d.defined) :
    ds.flatMap (·.names p) = p.nameTexts ((ds.map (·.tree)).flatMap tokensOf) := by
  rw [nameTexts, List.map_flatMap, List.flatMap_map]
  exact List.flatMap_congr fun d hd => by rw [Declaration.names, nameTexts, h d hd]

/-- The key of a declaration is that of its node, and only a section of globals has none. -/
theorem key?_eq (hg : Language.IsInformix g)
    (h : (Language.ofGrammar g).parseWithin n limits source = some p) {d : Declaration}
    (hd : d.tree ∈ p.trees) (hscope : d.isGlobals = false) :
    d.key? p = p.definitionKey? d.tree ∧ (d.key? p).isSome = true := by
  have hname : ∀ {rule : String} (node : NodeOf rule) (name? : Option Nat), rule ≠ "mainBlock" →
      (∃ i, name? = some i ∧ node.tree.leaves[1]? = some i) →
        (name?.map p.nameText).map Facts.scopeKey = p.definitionKey? node.tree ∧
          ((name?.map p.nameText).map Facts.scopeKey).isSome = true := by
    rintro rule node _ hrule ⟨i, rfl, hi⟩
    rw [definitionKey?, node.kind_eq, if_neg hrule, hi]
    exact ⟨rfl, rfl⟩
  cases d with
  | globals => cases hscope
  | main b =>
    have hkey : Facts.scopeKey mainScope = "main" := by decide +kernel
    refine ⟨?_, rfl⟩
    rw [definitionKey?, Declaration.tree, if_pos b.kind_eq, ← hkey]
    rfl
  | function f =>
    obtain ⟨hfits, -⟩ := fits_of_mem_trees hg h (by decide) hd
    exact hname f f.nameToken? (by decide) (hg.exists_functionName hfits)
  | report r =>
    obtain ⟨hfits, -⟩ := fits_of_mem_trees hg h (by decide) hd
    exact hname r r.nameToken? (by decide) (hg.exists_reportName hfits)

/-- The names of some sections are in the order of the text. -/
theorem pairwise_flatMap_of_sections (hg : Language.IsInformix g)
    (h : (Language.ofGrammar g).parseWithin n limits source = some p) (hroot : p.root = some root)
    {ts : List Tree} (hts : ts.Sublist (p.nodesOf Declaration.rules)) {tokensOf : Tree → List Nat}
    (htokens : ∀ t ∈ ts, (tokensOf t).Sublist (p.sectionTokens t)) :
    (ts.flatMap tokensOf).Pairwise (· < ·) := by
  refine List.pairwise_flatMap.mpr ⟨fun t ht => ?_, ?_⟩
  · obtain ⟨hmem, hof⟩ := List.mem_filter.mp (hts.mem ht)
    obtain ⟨hnode, hkind⟩ := (Bool.and_eq_true _ _).mp hof
    obtain ⟨d, rfl⟩ := Declaration.exists_tree_eq hnode (List.contains_iff_mem.mp hkind)
    obtain ⟨-, -, hordered⟩ := Declaration.tokens_eq hg h hmem
    exact hordered.sublist (htokens _ ht)
  · refine ((pairwise_leaves_nodesOf hg h hroot).sublist hts).imp_of_mem fun ht hu hbefore => ?_
    exact fun i hi j hj => hbefore i (sectionTokens_subset _ ((htokens _ ht).mem hi)) j
      (sectionTokens_subset _ ((htokens _ hu).mem hj))

/-- The declarations of a walk through the tree of the parse. -/
structure IsWalk (p : Parse) (ds : List Declaration) : Prop where
  facts_eq : Facts.ofParse p = ds.foldl (Facts.declare p) {}
  map_tree : ds.map (·.tree) = p.nodesOf Declaration.rules

namespace IsWalk

variable {ds : List Declaration} {key : String}

theorem mem_trees (hw : p.IsWalk ds) : ∀ d ∈ ds, d.tree ∈ p.trees := fun d hd => by
  have hmem : d.tree ∈ p.nodesOf Declaration.rules := hw.map_tree ▸ List.mem_map_of_mem hd
  exact (List.mem_filter.mp hmem).1

theorem globalSections_eq (hw : p.IsWalk ds) :
    p.globalSections = (ds.filter (·.isGlobals)).map (·.tree) := by
  have hsub : ["globalDeclaration"] ⊆ Declaration.rules := by decide
  rw [globalSections, nodesOf_eq_filter hsub, ← hw.map_tree, List.filter_map]
  exact congrArg _ (List.filter_congr fun d _ => d.contains_globals)

theorem definitions_eq (hw : p.IsWalk ds) :
    p.definitions = (ds.filter (!·.isGlobals)).map (·.tree) := by
  have hsub : ["mainBlock", "functionDefinition", "reportDefinition"] ⊆ Declaration.rules := by decide
  rw [definitions, nodesOf_eq_filter hsub, ← hw.map_tree, List.filter_map]
  exact congrArg _ (List.filter_congr fun d _ => d.contains_definitions)

theorem definitionsOf_eq (hg : Language.IsInformix g)
    (h : (Language.ofGrammar g).parseWithin n limits source = some p) (hw : p.IsWalk ds)
    (key : String) :
    p.definitionsOf key = (ds.filter fun d => d.key? p == some key).map (·.tree) := by
  rw [definitionsOf, hw.definitions_eq, List.filter_map, List.filter_filter]
  refine congrArg _ (List.filter_congr fun d hd => ?_)
  cases hglobals : d.isGlobals with
  | true => simp [Declaration.key?_of_globals hglobals]
  | false => simp [(key?_eq hg h (hw.mem_trees d hd) hglobals).1]

theorem globals_eq (hg : Language.IsInformix g)
    (h : (Language.ofGrammar g).parseWithin n limits source = some p) (hw : p.IsWalk ds) :
    (Facts.ofParse p).globals = NameList.firsts (p.nameTexts p.globalTokens) := by
  rw [hw.facts_eq, Facts.globals_foldl, globalTokens, hw.globalSections_eq]
  refine congrArg _ (flatMap_names fun d hd => ?_)
  obtain ⟨hd, hglobals⟩ := List.mem_filter.mp hd
  obtain ⟨-, hdefined, -⟩ := Declaration.tokens_eq hg h (hw.mem_trees d hd)
  rw [Declaration.parameters_of_globals hglobals, hdefined, List.nil_append]

theorem localsAt?_eq (hg : Language.IsInformix g)
    (h : (Language.ofGrammar g).parseWithin n limits source = some p) (hw : p.IsWalk ds)
    (key : String) : (Facts.ofParse p).localsAt? key =
      if (p.definitionsOf key).isEmpty then none
      else some (NameList.firsts (p.nameTexts (p.localTokens key))) := by
  have hnames : ∀ d ∈ ds.filter fun d => d.key? p == some key,
      p.sectionTokens d.tree = d.parameters ++ d.defined := fun d hd => by
    obtain ⟨hparameters, hdefined, -⟩ :=
      Declaration.tokens_eq hg h (hw.mem_trees d (List.mem_filter.mp hd).1)
    rw [sectionTokens, hparameters, hdefined]
  rw [hw.facts_eq, Facts.localsAt?_foldl, Facts.localsOf?, localTokens, hw.definitionsOf_eq hg h,
    flatMap_names hnames, List.isEmpty_map]

/-- The nodes declare what the walk gathers. -/
theorem factsMatch (hg : Language.IsInformix g)
    (h : (Language.ofGrammar g).parseWithin n limits source = some p) (hroot : p.root = some root)
    (hw : p.IsWalk ds) : p.FactsMatch where
  globals := hw.globals_eq hg h
  named t ht := by
    rw [hw.definitions_eq] at ht
    obtain ⟨d, hd, rfl⟩ := List.mem_map.mp ht
    obtain ⟨hd, hglobals⟩ := List.mem_filter.mp hd
    obtain ⟨hkey, hsome⟩ := key?_eq hg h (hw.mem_trees d hd) (by simpa using hglobals)
    exact hkey ▸ hsome
  keys key := by
    have hlocals := hw.localsAt?_eq hg h key
    have hmem : key ∈ (Facts.ofParse p).scopes ↔
        ((Facts.ofParse p).localsAt? key).isSome = true := by
      rw [Facts.localsAt?, Option.isSome_map, Std.TreeMap.mem_iff_isSome_getElem?]
    have hsome : (∃ t ∈ p.definitions, p.definitionKey? t = some key) ↔
        (p.definitionsOf key).isEmpty = false := by
      simp [definitionsOf, List.isEmpty_eq_false_iff]
    rw [hmem, hlocals, hsome]
    cases (p.definitionsOf key).isEmpty <;> simp
  locals key scope hscope := by
    have hlocals := hw.localsAt?_eq hg h key
    rw [Facts.localsAt?, hscope] at hlocals
    split at hlocals
    · cases hlocals
    · exact Option.some.inj hlocals
  ordered := by
    constructor
    · refine pairwise_flatMap_of_sections hg h hroot ?_ fun t _ => List.sublist_append_right _ _
      exact hw.map_tree ▸ hw.globalSections_eq ▸ List.filter_sublist.map _
    · intro key
      refine pairwise_flatMap_of_sections hg h hroot ?_ fun t _ => List.Sublist.refl _
      exact hw.map_tree ▸ hw.definitionsOf_eq hg h key ▸ List.filter_sublist.map _

end IsWalk

theorem factsMatch_of_parseWithin (hg : Language.IsInformix g)
    (h : (Language.ofGrammar g).parseWithin n limits source = some p) : p.FactsMatch := by
  cases hroot : p.root with
  | none => exact factsMatch_of_no_root hroot
  | some root =>
    have hfacts : Facts.ofParse p = (Declaration.ofRoot root).foldl (Facts.declare p) {} := by
      rw [Facts.ofParse, hroot]
    have hw : p.IsWalk (Declaration.ofRoot root) := ⟨hfacts, map_tree_ofRoot hg h hroot⟩
    exact hw.factsMatch hg h hroot

end Parse

end FourGL
