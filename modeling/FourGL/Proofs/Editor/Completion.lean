import FourGL.Proofs.Editor.Documents
import FourGL.Proofs.Editor.Facts
import FourGL.Proofs.Tree.Enclosing

/-!
# What is offered

A request looks for the scope around a token by walking down to an offset, in a tree that may be of an older
text than the token. The scopes of the facts come from another walk, through all declarations of the same
tree. So the name that the one finds is known to the other: in a source no section lies in another, and
both read the name of a section from its tokens.

**Theorem (`completions_fit`).** After any texts and around any offset, a scope that is found is one of the
facts, and what is offered are its names, and then the global variables that it does not hide. No two of the
names offered differ in ASCII case alone.

The lists of the facts are extended in one way only, by names that they do not hold (`Facts.Coherent`). So
nothing has to be said of the sources to see that no name is offered twice.
-/

namespace FourGL

/-! ## Names apart from case -/

namespace NameList

variable {names more : List String} {name : String}

/-- No two of the names differ in ASCII case alone. -/
def Unlike (names : List String) : Prop :=
  names.Pairwise fun known later => Text.equalIgnoringAsciiCase known later = false

theorem not_holds_iff :
    holds names name = false ↔ ∀ known ∈ names, Text.equalIgnoringAsciiCase known name = false := by
  simp only [holds, List.any_eq_false, Bool.not_eq_true]

theorem Unlike.insert (h : Unlike names) (name : String) : Unlike (insert names name) := by
  rw [NameList.insert]
  split
  · exact h
  · next hnew =>
    refine List.pairwise_append.mpr ⟨h, List.pairwise_singleton _ _, ?_⟩
    intro known hknown later hlater
    obtain rfl := List.mem_singleton.mp hlater
    exact not_holds_iff.mp (Bool.eq_false_of_not_eq_true hnew) known hknown

theorem Unlike.insertAll (h : Unlike names) (more : List String) : Unlike (insertAll names more) := by
  induction more generalizing names with
  | nil => exact h
  | cons name more ih => exact ih (h.insert name)

/-- Of names that are unlike one another, those are added that the list does not hold already. -/
theorem insertAll_eq_append (hmore : Unlike more) :
    insertAll names more = names ++ more.filter fun name => !holds names name := by
  induction more generalizing names with
  | nil => exact (List.append_nil names).symm
  | cons name more ih =>
    obtain ⟨hname, hmore⟩ := List.pairwise_cons.mp hmore
    rw [NameList.insertAll, List.foldl_cons, ← NameList.insertAll, ih hmore, NameList.insert]
    by_cases hheld : holds names name = true
    · rw [if_pos hheld, List.filter_cons_of_neg (by simp [hheld])]
    · rw [if_neg hheld, List.filter_cons_of_pos (by simpa using hheld), List.append_assoc,
        List.singleton_append]
      -- Nothing behind the name is like it, so it makes no difference there.
      have hrest : ∀ later ∈ more, holds (names ++ [name]) later = holds names later := by
        intro later hlater
        simp [holds, hname later hlater]
      rw [List.filter_congr fun later hlater => congrArg not (hrest later hlater)]

end NameList

open NameList

/-! ## Coherent facts -/

namespace Facts

variable {facts : Facts} {p : Parse} {name key : String} {scope : Scope}

/-- No list has names that differ in ASCII case alone, and each scope has the key of its name. -/
structure Coherent (facts : Facts) : Prop where
  globals : Unlike facts.globals
  locals : ∀ (key : String) (scope : Scope), facts.scopes[key]? = some scope → Unlike scope.locals
  keyed : ∀ (key : String) (scope : Scope), facts.scopes[key]? = some scope → scopeKey scope.name = key

theorem coherent_empty : ({} : Facts).Coherent := ⟨.nil, by simp, by simp⟩

theorem Coherent.extendScope (h : facts.Coherent) (name : String) (names : List String) :
    (facts.extendScope name names).Coherent := by
  have hscope : Unlike (facts.scopes.getD (scopeKey name) { name }).locals ∧
      scopeKey (facts.scopes.getD (scopeKey name) { name }).name = scopeKey name := by
    rw [Std.TreeMap.getD_eq_getD_getElem?]
    cases hfound : facts.scopes[scopeKey name]? with
    | none => exact ⟨.nil, rfl⟩
    | some scope => exact ⟨h.locals _ _ hfound, h.keyed _ _ hfound⟩
  have hget : ∀ key, (facts.extendScope name names).scopes[key]? = if scopeKey name = key then
      some { facts.scopes.getD (scopeKey name) { name } with
        locals := insertAll (facts.scopes.getD (scopeKey name) { name }).locals names }
      else facts.scopes[key]? := by
    intro key
    simp only [Facts.extendScope, Std.TreeMap.getElem?_insert, Std.LawfulEqCmp.compare_eq_iff_eq]
  constructor
  case globals => exact h.globals
  case locals =>
    intro key scope hfound
    rw [hget] at hfound
    split at hfound
    · cases hfound
      exact hscope.1.insertAll names
    · exact h.locals key scope hfound
  case keyed =>
    intro key scope hfound
    rw [hget] at hfound
    split at hfound
    · next heq =>
      cases hfound
      exact hscope.2.trans heq
    · exact h.keyed key scope hfound

theorem Coherent.declare (h : facts.Coherent) (p : Parse) (d : Declaration) :
    (declare p facts d).Coherent := by
  cases hglobals : d.isGlobals with
  | true =>
    cases d with
    | globals node => exact ⟨h.globals.insertAll _, h.locals, h.keyed⟩
    | main | function | report => cases hglobals
  | false =>
    cases hname : d.scopeName? p with
    | none => rwa [declare_of_none hglobals hname]
    | some name =>
      rw [declare_of_some hglobals hname]
      exact h.extendScope name _

/-- The facts of a parse are coherent, whatever its tree. -/
theorem coherent_ofParse (p : Parse) : (ofParse p).Coherent := by
  rw [ofParse]
  split
  · next root hroot =>
    induction Declaration.ofRoot root using List.reverseRecOn with
    | nil => exact coherent_empty
    | append_singleton ds d ih =>
      rw [List.foldl_append]
      exact ih.declare p d
  · exact coherent_empty

theorem locals_eq (h : facts.scopes[scopeKey name]? = some scope) : facts.locals name = scope.locals := by
  rw [locals, h]

theorem Coherent.unlike_locals (h : facts.Coherent) (name : String) : Unlike (facts.locals name) := by
  rw [Facts.locals]
  split
  · next scope hfound => exact h.locals _ _ hfound
  · exact .nil

theorem Coherent.unlike_visible (h : facts.Coherent) (scope : Option String) (withGlobals : Bool) :
    Unlike (facts.visible scope withGlobals) := by
  have hlocals : Unlike ((scope.map facts.locals).getD []) := by
    cases scope with
    | none => exact .nil
    | some name => exact h.unlike_locals name
  rw [visible]
  split
  · exact hlocals.insertAll _
  · exact hlocals

theorem Coherent.unlike_completions (h : facts.Coherent) (p : Parse) (lastGood : Option Parse)
    (offset : Nat) : Unlike (facts.completions p lastGood offset) := by
  rw [completions]
  split
  · exact .nil
  · exact h.unlike_visible _ _

theorem mem_scopeNames (h : facts.scopes[key]? = some scope) : scope.name ∈ facts.scopeNames := by
  have hmem : (key, scope) ∈ facts.scopes.toList := Std.TreeMap.mem_toList_iff_getElem?_eq_some.mpr h
  have hvalues : facts.scopes.values = facts.scopes.toList.map (·.2) := by
    rw [List.map_eq_foldr]
    exact Std.TreeMap.foldr_eq_foldr_toList
  rw [scopeNames, hvalues, List.map_map]
  exact List.mem_map_of_mem hmem

end Facts

/-! ## The scope around an offset -/

namespace Tree

variable {t u : Tree} {path : List Nat}

/-- A walk through all trees misses none. -/
theorem mem_allOf_of_at? (h : t.at? path = some u) : u ∈ allOf [t] := by
  induction path generalizing t with
  | nil =>
    cases h
    rw [allOf_cons]
    exact List.mem_cons_self
  | cons i path ih =>
    obtain ⟨c, hc, -, h⟩ := at?_cons_eq_some_iff.mp h
    obtain ⟨before, after, hchildren⟩ := List.append_of_mem (List.mem_of_getElem? hc)
    have hmem : u ∈ allOf t.children := by
      rw [hchildren, ← List.singleton_append, allOf_append, allOf_append]
      exact List.mem_append_right _ (List.mem_append_left _ (ih h))
    rw [allOf_cons]
    exact List.mem_cons_of_mem t (List.mem_append_left _ hmem)

end Tree

namespace Parse

variable {g : Grammar} {limits : Limits} {source name : String} {n offset : Nat} {p : Parse}

/-- The name is that of a definition in the tree. -/
theorem exists_of_scopeNameAt? (h : p.scopeNameAt? offset = some name) : ∃ d : Declaration,
    d.tree ∈ p.definitions ∧ d.isGlobals = false ∧ d.scopeName? p = some name := by
  obtain ⟨root, hroot, h⟩ := Option.bind_eq_some_iff.mp h
  obtain ⟨node, hnode, h⟩ := Option.bind_eq_some_iff.mp h
  obtain ⟨d, hd, hname⟩ := Option.bind_eq_some_iff.mp h
  obtain ⟨haccepted, path, hpath⟩ := Tree.exists_leads hnode
  obtain ⟨hisNode, hkind⟩ := (Bool.and_eq_true _ _).mp haccepted
  obtain ⟨d', rfl⟩ := Declaration.exists_tree_eq hisNode
    (List.mem_cons_of_mem _ (List.contains_iff_mem.mp hkind))
  obtain rfl : d' = d := Option.some.inj (d'.ofTree?_tree.symm.trans hd)
  have htrees : d'.tree ∈ p.trees := by
    rw [trees, hroot]
    exact Tree.mem_allOf_of_at? hpath.at?_eq
  refine ⟨d', List.mem_filter.mpr ⟨htrees, by rw [hisNode]; exact hkind⟩, ?_, hname⟩
  simpa using d'.contains_definitions.symm.trans hkind

/-- The name of the scope around an offset is one that the facts know. -/
theorem mem_scopes_of_scopeNameAt? (hg : Language.IsInformix g)
    (h : (Language.ofGrammar g).parseWithin n limits source = some p)
    (hname : p.scopeNameAt? offset = some name) :
    Facts.scopeKey name ∈ (Facts.ofParse p).scopes := by
  obtain ⟨d, hd, hglobals, hscope⟩ := exists_of_scopeNameAt? hname
  obtain ⟨hkey, -⟩ := key?_eq hg h (List.mem_filter.mp hd).1 hglobals
  rw [Declaration.key?, hscope] at hkey
  exact ((factsMatch_of_parseWithin hg h).keys _).mpr ⟨d.tree, hd, hkey.symm⟩

end Parse

/-! ## Requests -/

namespace Language

variable {l : Language} {limits : Limits} {source : String}

/-- A parse with a tree is one that came to its end. -/
theorem parseWithin_of_root (h : (l.parse limits source).root.isSome = true) :
    l.parseWithin ampleSteps limits source = some (l.parse limits source) := by
  rw [parse] at h ⊢
  cases hp : l.parseWithin ampleSteps limits source with
  | none =>
    rw [hp] at h
    cases h
  | some p => rfl

end Language

namespace Document

variable {l : Language} {g : Grammar} {limits : Limits} {texts : List String} {d : Document}
  {p good : Parse} {name : String} {offset i : Nat}

/-- What a document offers at an offset. -/
structure CompletionsFit (d : Document) (offset : Nat) : Prop where
  /-- The scope around the context, in the last good tree, is one of the facts. Its names are offered, and
  then the global variables that it does not hold, unless a function begins. -/
  scope : ∀ p i good name, d.current = some p → p.contextToken? offset = some i →
    d.lastGood = some good → good.scopeNameAt? (p.token i).span.start = some name →
      ∃ scope : Scope, d.facts.scopes[Facts.scopeKey name]? = some scope ∧
        Facts.scopeKey scope.name = Facts.scopeKey name ∧ scope.name ∈ d.facts.scopeNames ∧
        d.completions offset = scope.locals ++ if p.beginsFunction i then [] else
          d.facts.globals.filter fun global => !NameList.holds scope.locals global
  globals : Unlike d.facts.globals
  completions : Unlike (d.completions offset)

theorem Follows.coherent_facts (h : d.Follows l limits texts) : d.facts.Coherent := by
  rw [h.facts_eq]
  cases d.lastGood with
  | none => exact Facts.coherent_empty
  | some good => exact Facts.coherent_ofParse good

theorem Follows.exists_text (h : d.Follows l limits texts) (hgood : d.lastGood = some good) :
    ∃ text, l.parse limits text = good := by
  rw [h.lastGood_eq, lastGoodOf] at hgood
  obtain ⟨text, -, htext⟩ := List.mem_map.mp (List.mem_reverse.mp (List.mem_of_find?_eq_some hgood))
  exact ⟨text, htext⟩

theorem Follows.unlike_completions (h : d.Follows l limits texts) (offset : Nat) :
    Unlike (d.completions offset) := by
  rw [Document.completions]
  split
  · exact h.coherent_facts.unlike_completions _ _ _
  · exact .nil

theorem Follows.completionsFit (hg : Language.IsInformix g)
    (h : d.Follows (.ofGrammar g) limits texts) (offset : Nat) : d.CompletionsFit offset := by
  constructor
  case scope =>
    intro p i good name hcurrent hi hgood hname
    have hfacts : d.facts = Facts.ofParse good := by
      rw [h.facts_eq, hgood]
      rfl
    obtain ⟨text, rfl⟩ := h.exists_text hgood
    have hparse := Language.parseWithin_of_root (h.isSome_root hgood)
    have hmem := Parse.mem_scopes_of_scopeNameAt? hg hparse hname
    rw [← hfacts] at hmem
    obtain ⟨scope, hscope⟩ := Option.isSome_iff_exists.mp (Std.TreeMap.mem_iff_isSome_getElem?.mp hmem)
    refine ⟨scope, hscope, h.coherent_facts.keyed _ _ hscope, Facts.mem_scopeNames hscope, ?_⟩
    rw [h.completions_eq hcurrent hi, hgood, Option.bind_some, hname, Facts.visible, Option.map_some,
      Option.getD_some, Facts.locals_eq hscope]
    cases p.beginsFunction i with
    | true => exact (List.append_nil _).symm
    | false => exact insertAll_eq_append h.coherent_facts.globals
  case globals => exact h.coherent_facts.globals
  case completions => exact h.unlike_completions offset

end Document

/-- **Completions.** After any texts and around any offset, what is offered are the names of the scope, which
is one of the facts, and then the global variables that are unlike them. -/
theorem completions_fit : ∃ l, Language.informix = .ok l ∧
    ∀ limits texts offset, (Document.ofTexts l limits texts).CompletionsFit offset := by
  obtain ⟨g, hg, hinformix⟩ := Language.exists_informix
  exact ⟨_, hg, fun limits texts offset =>
    (Document.follows_ofTexts _ limits texts).completionsFit hinformix offset⟩

theorem completions_fit_blank : ∃ l, Language.informix = .ok l ∧ ∀ limits,
    (∃ p, (Document.ofTexts l limits [""]).lastGood = some p) ∧
      (Document.ofTexts l limits [""]).CompletionsFit 0 := by
  obtain ⟨l, hl, hfit⟩ := completions_fit
  obtain ⟨l', hl', hroot⟩ := Language.exists_root_blank
  obtain rfl : l = l' := Except.ok.inj (hl.symm.trans hl')
  refine ⟨l, hl, fun limits => ⟨⟨l.parse limits "", ?_⟩, hfit limits [""] 0⟩⟩
  have hfollows := Document.follows_ofTexts l limits [""]
  obtain ⟨span, children, h⟩ := hroot limits "" rfl
  exact hfollows.lastGood_of_current hfollows.current_eq (by rw [h]; rfl)

end FourGL
