import FourGL.Proofs.Grammar.TreeActions
import FourGL.Proofs.Parse.Numbering
import FourGL.Proofs.Parse.Soundness

/-!
# One tree in source order

The tokens of a parse's tree are those of a derivation, in their order, except for separators that
productions of lists leave out. With the slots of the builder holding that tree, and no node shared,
the numbered nodes below the root are a tree.

**Theorem (`mem_separators_or_mem_image`).** Every token of a derivation is in its tree or is a
separator that is left out of a list.

**Theorem (`exists_presents_of_run`).** The numbered nodes of a parse that has a root are one tree
in the order of the text. If the parse met no syntax error, the tokens read that have no parent are
punctuation left out of lists.
-/

namespace FourGL

/-! ## Tokens of built trees -/

namespace Tree

variable {input : Input} {position : Nat} {kind : String}

theorem leaves_build (ts : List Tree) :
    (build input position kind ts).leaves = leavesOfAll ts := rfl

theorem leaves_append {list : Tree} (h : list.isNode = true) (more : List Tree) :
    (list.append input more).leaves = list.leaves ++ leavesOfAll more := by
  cases list with
  | node kind span children => exact leavesOfAll_append children more
  | _ => cases h

theorem isNode_append {list : Tree} (h : list.isNode = true) (more : List Tree) :
    (list.append input more).isNode = true := by
  cases list with
  | node => rfl
  | _ => cases h

theorem leaves_append_sublist (list : Tree) (more : List Tree) :
    (list.append input more).leaves.Sublist (list.leaves ++ leavesOfAll more) := by
  cases list with
  | node kind span children => rw [leaves_append rfl]
  | _ => exact List.sublist_append_left _ _

theorem mem_leavesOfAll {ts : List Tree} {i : Nat} :
    i ∈ leavesOfAll ts ↔ ∃ t ∈ ts, i ∈ t.leaves := by
  induction ts with
  | nil => simp [leavesOfAll]
  | cons t ts ih => simp [leavesOfAll, ih]

theorem leavesOfAll_sublist {ts us : List Tree} (h : ts.Sublist us) :
    (leavesOfAll ts).Sublist (leavesOfAll us) := by
  induction h with
  | slnil => exact .refl _
  | cons t _ ih => exact ih.trans (List.sublist_append_right _ _)
  | cons_cons t _ ih => exact ih.append_left _

end Tree

namespace TreeAction

theorem additions_sublist (drop : Bool) (ts : List Tree) : (additions drop ts).Sublist ts := by
  rw [additions_eq]
  split
  · exact List.drop_sublist 1 ts
  · exact .refl _

/-- An action brings no tokens of its own, and keeps their order. -/
theorem leaves_run_sublist (action : TreeAction) (input : Input) (position : Nat) (ts : List Tree) :
    (action.run input position ts).leaves.Sublist (Tree.leavesOfAll ts) := by
  cases action with
  | node | emptyList => exact .refl _
  | startList => exact Tree.leavesOfAll_sublist (List.take_sublist 1 ts)
  | absent | accept => exact List.nil_sublist _
  | unwrap =>
    cases ts with
    | nil => exact .refl _
    | cons t ts => exact List.sublist_append_left _ _
  | appendList drop =>
    cases ts with
    | nil => exact .refl _
    | cons t ts =>
      exact (Tree.leaves_append_sublist t _).trans
        ((Tree.leavesOfAll_sublist (additions_sublist drop ts)).append_left _)

end TreeAction

/-! ## Tokens of a derivation -/

namespace DerivationTree

variable {g : Grammar} {input : Input} {ds children : List DerivationTree} {d : DerivationTree}
  {start stop position : Nat} {p : ProductionId}

mutual

/-- The tokens of the tree are at leaves of the derivation, in their order. -/
theorem leaves_image_sublist (g : Grammar) (input : Input) :
    ∀ d : DerivationTree, (d.image g input).leaves.Sublist (d.leaves.map (input.stream.getD · 0))
  | .leaf _ => by rw [image, leaves]; exact .refl _
  | .node p position children => by
    rw [image, leaves]
    exact (TreeAction.leaves_run_sublist _ input position _).trans
      (leavesOfAll_image_sublist g input children)

theorem leavesOfAll_image_sublist (g : Grammar) (input : Input) :
    ∀ ds : List DerivationTree, (Tree.leavesOfAll (imageOfAll g input ds)).Sublist
      ((leavesOfAll ds).map (input.stream.getD · 0))
  | [] => by rw [imageOfAll, leavesOfAll]; exact .refl _
  | d :: ds => by
    rw [imageOfAll, leavesOfAll, Tree.leavesOfAll, List.map_append]
    exact (leaves_image_sublist g input d).append (leavesOfAll_image_sublist g input ds)

end

/-- The separator that a production leaves out of a list. -/
def droppedBy (action : TreeAction) (children : List DerivationTree) : List Nat :=
  match action, children with
  | .appendList true, [_, .leaf position, _] => [position]
  | _, _ => []

mutual

/-- The positions of the separators that are left out of the lists of a tree. -/
def separators (g : Grammar) : DerivationTree → List Nat
  | .leaf _ => []
  | .node p _ children => droppedBy (g.production p).action children ++ separatorsOfAll g children

/-- The same for several trees. -/
def separatorsOfAll (g : Grammar) : List DerivationTree → List Nat
  | [] => []
  | d :: ds => d.separators g ++ separatorsOfAll g ds

end

/-- No tree derives from the start symbol, as in all right-hand sides. -/
def Inner (g : Grammar) (input : Input) (ds : List DerivationTree) : Prop :=
  ∀ d ∈ ds, d.symbol g input ≠ .nonterminal Grammar.start

theorem inner_of_right (wf : g.WellFormed) (hp : p < g.productions.size)
    (h : children.map (symbol g input) = (g.production p).right) : Inner g input children := by
  intro d hd hsymbol
  have hmem : .nonterminal Grammar.start ∈ (g.production p).right := by
    rw [← h, ← hsymbol]
    exact List.mem_map_of_mem hd
  exact (wf.right p hp _ hmem).1 rfl

theorem exists_leaf {t : TerminalId} (h : d.symbol g input = .terminal t) :
    ∃ position, d = .leaf position ∧ input.terminal position = t := by
  cases d with
  | leaf position => exact ⟨position, rfl, Symbol.terminal.inj h⟩
  | node => cases h

/-- What extends a list finds a node to extend. -/
theorem isNode_image (wf : g.WellFormed) (hl : g.Lowered) (h : Reads g input start ds stop)
    (hinner : Inner g input ds) {n : NonterminalId}
    (hlist : ∀ p < g.productions.size, (g.production p).left = n →
      (g.production p).action.makesList = true) :
    ∀ d ∈ ds, d.symbol g input = .nonterminal n → (d.image g input).isNode = true := by
  induction h with
  | nil => simp
  | leaf _ _ _ ih =>
    refine List.forall_mem_cons.mpr ⟨fun h => ?_, ih (List.forall_mem_cons.mp hinner).2⟩
    cases h
  | @node _ _ position _ p children _ hp hr _ _ _ ihc ih =>
    obtain ⟨hhead, hrest⟩ := List.forall_mem_cons.mp hinner
    refine List.forall_mem_cons.mpr ⟨fun h => ?_, ih hrest⟩
    obtain rfl : (g.production p).left = n := Symbol.nonterminal.inj h
    have hmakes := hlist p hp rfl
    have hfits := hl.fits hp fun heq => hhead (congrArg Symbol.nonterminal heq)
    rw [image]
    generalize hright : (g.production p).right = right at hfits hr
    generalize (g.production p).action = action at hfits hmakes
    have hbelow := ihc (inner_of_right wf hp (hr.trans hright.symm))
    cases hfits with
    | node | unwrap | absent => cases hmakes
    | emptyList | startList => rfl
    | appendItems | appendItem =>
      obtain ⟨c, cs, rfl, hc, -⟩ := List.map_eq_cons_iff.mp hr
      rw [imageOfAll]
      exact Tree.isNode_append (hbelow c List.mem_cons_self hc) _

theorem mem_leavesOfAll {i : Nat} : i ∈ leavesOfAll ds ↔ ∃ d ∈ ds, i ∈ d.leaves := by
  induction ds with
  | nil => simp [leavesOfAll]
  | cons d ds ih => simp [leavesOfAll, ih]

theorem mem_separatorsOfAll {i : Nat} :
    i ∈ separatorsOfAll g ds ↔ ∃ d ∈ ds, i ∈ d.separators g := by
  induction ds with
  | nil => simp [separatorsOfAll]
  | cons d ds ih => simp [separatorsOfAll, ih]

/-- A production keeps the tokens of all trees of its right-hand side, or it extends a list and
drops a separator, which is punctuation. -/
theorem keeps_or_drops (position : Nat) (wf : g.WellFormed) (hl : g.Lowered) (hp : p < g.productions.size)
    (hleft : (g.production p).left ≠ Grammar.start)
    (hr : children.map (symbol g input) = (g.production p).right)
    (h : Reads g input start children stop) :
    (droppedBy (g.production p).action children = [] ∧
      ((DerivationTree.node p position children).image g input).leaves =
        Tree.leavesOfAll (imageOfAll g input children)) ∨
    ∃ list q item text, children = [list, .leaf q, item] ∧
      droppedBy (g.production p).action children = [q] ∧
      g.vocabulary.symbol? text = some (input.terminal q) ∧
      g.vocabulary.isPunctuation text = true ∧
      ((DerivationTree.node p position children).image g input).leaves =
        (list.image g input).leaves ++ (item.image g input).leaves := by
  have hfits := hl.fits hp hleft
  have hlists : ∀ drop, (g.production p).action = .appendList drop → ∀ q < g.productions.size,
      (g.production q).left = (g.production p).left → (g.production q).action.makesList = true :=
    fun drop hdrop q hq heq => hl.makesList hp hq hleft heq hdrop
  have hnode := fun hlist => isNode_image wf hl h (inner_of_right wf hp hr)
    (n := (g.production p).left) hlist
  rw [image]
  generalize (g.production p).right = right at hfits hr
  generalize (g.production p).action = action at hfits hlists
  cases hfits with
  | node | emptyList => exact Or.inl ⟨rfl, rfl⟩
  | unwrap | startList =>
    obtain ⟨c, rfl, -⟩ := List.map_eq_singleton_iff.mp hr
    exact Or.inl ⟨rfl, by simp [imageOfAll, TreeAction.run, Tree.leavesOfAll, Tree.leaves_build]⟩
  | absent =>
    obtain rfl := List.map_eq_nil_iff.mp hr
    exact Or.inl ⟨rfl, rfl⟩
  | appendItems =>
    obtain ⟨c, cs, rfl, hc, -⟩ := List.map_eq_cons_iff.mp hr
    have hlist := hnode (hlists false rfl) c List.mem_cons_self hc
    refine Or.inl ⟨rfl, ?_⟩
    rw [imageOfAll]
    exact Tree.leaves_append hlist _
  | @appendItem text t x ht hpunctuation =>
    obtain ⟨c, cs, rfl, hc, hrest⟩ := List.map_eq_cons_iff.mp hr
    obtain ⟨s, items, rfl, hs, hrest⟩ := List.map_eq_cons_iff.mp hrest
    obtain ⟨item, rfl, -⟩ := List.map_eq_singleton_iff.mp hrest
    obtain ⟨q, rfl, rfl⟩ := exists_leaf hs
    have hlist := hnode (hlists true rfl) c List.mem_cons_self hc
    refine Or.inr ⟨c, q, item, text, rfl, rfl, ht, hpunctuation, ?_⟩
    rw [imageOfAll, imageOfAll, imageOfAll, imageOfAll]
    simp [TreeAction.run, TreeAction.additions, Tree.leaves_append hlist, Tree.leavesOfAll]

/-- **Separators.** Every token of a derivation is in its tree or a separator that is left out of a
list. -/
theorem mem_separators_or_mem_image (wf : g.WellFormed) (hl : g.Lowered)
    (h : Reads g input start ds stop) (hinner : Inner g input ds) :
    ∀ d ∈ ds, ∀ i ∈ d.leaves,
      i ∈ d.separators g ∨ input.stream.getD i 0 ∈ (d.image g input).leaves := by
  induction h with
  | nil => simp
  | leaf _ _ _ ih =>
    refine List.forall_mem_cons.mpr ⟨fun i hi => ?_, ih (List.forall_mem_cons.mp hinner).2⟩
    obtain rfl : i = _ := by simpa [leaves] using hi
    exact Or.inr List.mem_cons_self
  | @node _ _ position _ p children _ hp hr hreads _ _ ihc ih =>
    obtain ⟨hhead, hrest⟩ := List.forall_mem_cons.mp hinner
    refine List.forall_mem_cons.mpr ⟨fun i hi => ?_, ih hrest⟩
    rw [leaves, mem_leavesOfAll] at hi
    obtain ⟨c, hc, hi⟩ := hi
    rw [separators, List.mem_append, mem_separatorsOfAll]
    rcases ihc (inner_of_right wf hp hr) c hc i hi with hsep | hkept
    · exact Or.inl (Or.inr ⟨c, hc, hsep⟩)
    · rcases keeps_or_drops position wf hl hp
          (fun heq => hhead (congrArg Symbol.nonterminal heq)) hr hreads with
        ⟨-, hleaves⟩ | ⟨list, q, item, text, rfl, hdropped, -, -, hleaves⟩
      · rw [hleaves, imageOfAll_eq_map, Tree.mem_leavesOfAll]
        exact Or.inr ⟨_, List.mem_map_of_mem hc, hkept⟩
      · rw [hleaves, hdropped, List.mem_append]
        simp only [List.mem_cons, List.not_mem_nil, or_false] at hc
        rcases hc with rfl | rfl | rfl
        · exact Or.inr (Or.inl hkept)
        · exact Or.inl (Or.inl (by simpa [leaves] using hi))
        · exact Or.inr (Or.inr hkept)

/-- Separators that are left out are punctuation. -/
theorem exists_punctuation_of_mem_separators (wf : g.WellFormed) (hl : g.Lowered)
    (h : Reads g input start ds stop) (hinner : Inner g input ds) :
    ∀ d ∈ ds, ∀ i ∈ d.separators g, ∃ text, g.vocabulary.symbol? text = some (input.terminal i) ∧
      g.vocabulary.isPunctuation text = true := by
  induction h with
  | nil => simp
  | leaf _ _ _ ih =>
    refine List.forall_mem_cons.mpr ⟨fun i hi => ?_, ih (List.forall_mem_cons.mp hinner).2⟩
    cases hi
  | @node _ _ position _ p children _ hp hr hreads _ _ ihc ih =>
    obtain ⟨hhead, hrest⟩ := List.forall_mem_cons.mp hinner
    refine List.forall_mem_cons.mpr ⟨fun i hi => ?_, ih hrest⟩
    rw [separators, List.mem_append, mem_separatorsOfAll] at hi
    rcases hi with hi | ⟨c, hc, hi⟩
    · rcases keeps_or_drops position wf hl hp
          (fun heq => hhead (congrArg Symbol.nonterminal heq)) hr hreads with
        ⟨hdropped, -⟩ | ⟨list, q, item, text, -, hdropped, ht, hpunctuation, -⟩
      · rw [hdropped] at hi
        cases hi
      · rw [hdropped] at hi
        obtain rfl := List.mem_singleton.mp hi
        exact ⟨text, ht, hpunctuation⟩
    · exact ihc (inner_of_right wf hp hr) c hc i hi

end DerivationTree

/-! ## Tokens that a parser reads -/

namespace Input

variable {tokens : List Token} {stop i : Nat}

theorem mem_stream : i ∈ (ofTokens tokens stop).stream.toList ↔
    ∃ t, (ofTokens tokens stop).tokens[i]? = some t ∧ t.isGrammatical = true := by
  simp only [ofTokens, List.toList_toArray, List.mem_map, List.mem_filter, Prod.exists,
    List.mem_zipIdx_iff_getElem?, List.getElem?_toArray]
  constructor
  · rintro ⟨t, _, ⟨ht, hg⟩, rfl⟩
    exact ⟨t, ht, hg⟩
  · rintro ⟨t, ht, hg⟩
    exact ⟨t, i, ⟨ht, hg⟩, rfl⟩

/-- The tokens read are in the order of the text. -/
theorem pairwise_stream : (ofTokens tokens stop).stream.toList.Pairwise (· < ·) := by
  have hall : (tokens.zipIdx.map (·.2)).Pairwise (· < ·) := by
    rw [List.zipIdx_map_snd]
    exact List.pairwise_lt_range'
  simp only [ofTokens, List.toList_toArray]
  exact hall.sublist (List.filter_sublist.map _)

theorem map_getD_range (input : Input) :
    (List.range input.size).map (input.stream.getD · 0) = input.stream.toList := by
  apply List.ext_getElem
  · simp [size]
  · intro n h _
    have hn : n < input.stream.size := by simpa [size] using h
    simp [Array.getD_eq_getD_getElem?, hn]

end Input

/-! ## The tree of a parse -/

/-- What the numbered nodes of a parse come to, from the root that a tree has there. -/
structure Builder.Presents (input : Input) (b : Builder) (tree : Tree) (root : Nat)
    (parents : Parents) : Prop where
  /-- The nodes below the root are those of the tree, and none is shared. -/
  rooted : ∃ ks, b.arena.Rooted root tree ks
  /-- The walk down from the root ends with this table of parents. -/
  filled : ∃ least, ∀ n ≥ least, b.parents? input n root = some parents
  isTree : b.arena.IsTree root parents
  /-- The walk through the tokens ends. -/
  tokens : ∃ least, ∀ n ≥ least, b.arena.tokensBelow n [.node root] = some tree.tokens
  /-- Its tokens are in the order of the text. -/
  ordered : tree.tokens.Pairwise (· < ·)
  /-- They are tokens that the parser reads. -/
  grammatical : ∀ i ∈ tree.tokens, ∃ t, input.tokens[i]? = some t ∧ t.isGrammatical = true

/-- The tokens without a parent are those that are not in the tree. -/
theorem Builder.Presents.of?_token_eq_none_iff {input : Input} {b : Builder} {tree : Tree}
    {root i : Nat} {parents : Parents} (h : b.Presents input tree root parents) :
    parents.of? (.token i) = none ↔ i ∉ tree.tokens := by
  obtain ⟨ks, hrooted⟩ := h.rooted
  rw [← hrooted.below_token_iff, Option.eq_none_iff_forall_ne_some]
  constructor
  · intro hnone hbelow
    cases hbelow with
    | child hk hmember => exact hnone _ ((h.isTree.inverse _ _).mpr ⟨hk, hmember⟩)
  · intro hnot k hk
    obtain ⟨hbelow, hmember⟩ := (h.isTree.inverse _ k).mp hk
    exact hnot (.child hbelow hmember)

/-- A builder that accepts a node holds its tree from the root on. -/
theorem Builder.Consistent.exists_root {b : Builder} (h : b.Consistent) {top : Frame}
    {frames : List Frame} (hstack : b.machine.stack = top :: frames)
    (hnode : top.tree.isNode = true) : ∃ root ks, b.slots.head? = some (some (.node root)) ∧
      b.arena.Holds [some (.node root)] [top.tree] ks ∧ ks.Nodup := by
  obtain ⟨ks₁, ks₂, hnodup, -, h⟩ := h.cut 1
  rw [hstack] at h
  cases hslots : b.slots with
  | nil =>
    rw [hslots] at h
    cases h
  | cons slot slots =>
    rw [hslots] at h
    have h : b.arena.Holds [slot] [top.tree] ks₂ := h
    generalize htree : top.tree = tree at h hnode
    cases h with
    | absent | token => cases hnode
    | @node _ _ _ _ _ _ root =>
      exact ⟨root, _, rfl, htree ▸ h, hnodup.sublist (List.sublist_append_left _ _)⟩

/-- The tokens that a parse counts as being in no node are those not in its tree. -/
theorem Parse.mem_orphans_iff {p : Parse} {tree : Tree} (h : p.root = some tree) {i : Nat} :
    i ∈ p.orphans ↔ i < p.tokens.size ∧ i ∉ tree.tokens := by
  have hmarks : ∀ (is : List Nat) (marks : Array Bool), i < marks.size →
      ((is.foldl (fun marks i => marks.setIfInBounds i true) marks).getD i false = false ↔
        i ∉ is ∧ marks.getD i false = false) := by
    intro is
    induction is with
    | nil => simp
    | cons j is ih =>
      intro marks hi
      rw [List.foldl_cons, ih _ (by simpa using hi)]
      by_cases hij : j = i
      · subst hij
        simp [Array.getD_eq_getD_getElem?, hi]
      · simp [Array.getD_eq_getD_getElem?, Array.getElem?_setIfInBounds_ne hij, Ne.symm hij]
  simp only [orphans, h, indices, List.mem_filter, List.mem_range, Bool.not_eq_true']
  refine and_congr_right fun hi => ?_
  rw [hmarks _ _ (by simpa using hi)]
  simp [Array.getD_eq_getD_getElem?, hi]

/-- So they are those without a parent. -/
theorem Builder.Presents.mem_orphans_iff {input : Input} {b : Builder} {tree : Tree} {root i : Nat}
    {parents : Parents} (h : b.Presents input tree root parents) {p : Parse}
    (hp : p.root = some tree) :
    i ∈ p.orphans ↔ i < p.tokens.size ∧ parents.of? (.token i) = none := by
  rw [Parse.mem_orphans_iff hp, h.of?_token_eq_none_iff]

namespace Grammar

variable {g : Grammar} {source : String}

/-- The tokens of a tree are tokens read, in their order. -/
theorem tokens_sublist {d : DerivationTree}
    (h : d.leaves.Sublist (List.range (g.inputOf source).size)) :
    (d.image g (g.inputOf source)).tokens.Sublist (g.inputOf source).stream.toList := by
  rw [Tree.tokens_eq_leaves, ← Input.map_getD_range]
  exact (DerivationTree.leaves_image_sublist g _ d).trans (h.map _)

/-- A slot with such a tree is the root of a tree in the table. -/
theorem presents {b : Builder} {tree : Tree} {root : Nat} {ks : List Nat}
    (h : b.arena.Holds [some (.node root)] [tree] ks) (hks : ks.Nodup)
    (hsub : tree.tokens.Sublist (g.inputOf source).stream.toList) :
    ∃ parents, b.Presents (g.inputOf source) tree root parents := by
  have hordered : tree.tokens.Pairwise (· < ·) := Input.pairwise_stream.sublist hsub
  have hgrammatical := fun i hi => Input.mem_stream.mp (hsub.mem (a := i) hi)
  have hrooted : b.arena.Rooted root tree ks := ⟨h, hks, hordered.imp fun hlt => Nat.ne_of_lt hlt⟩
  obtain ⟨parents, hfilled, htree⟩ := hrooted.isTree (g.inputOf source).tokens.size
    fun i hi => by
      obtain ⟨t, ht, -⟩ := hgrammatical i hi
      exact (Array.getElem?_eq_some_iff.mp ht).1
  exact ⟨parents, ⟨ks, hrooted⟩, hfilled, htree, hrooted.tokensBelow, hordered, hgrammatical⟩

/-- A token read that has no parent is a separator that is left out of a list, if all tokens read
are in the derivation. -/
theorem exists_separator (wf : g.WellFormed) (hl : g.Lowered) {d : DerivationTree} {stop : Nat}
    (hroot : d.symbol g (g.inputOf source) = .nonterminal g.root)
    (hreads : DerivationTree.Reads g (g.inputOf source) 0 [d] stop)
    (hall : d.leaves = List.range (g.inputOf source).size) {b : Builder} {root : Nat}
    {parents : Parents}
    (h : b.Presents (g.inputOf source) (d.image g (g.inputOf source)) root parents) {i : Nat}
    {t : Token} (ht : (g.inputOf source).tokens[i]? = some t) (hread : t.isGrammatical = true)
    (hparent : parents.of? (.token i) = none) : ∃ position ∈ d.separators g,
      (g.inputOf source).stream[position]? = some i ∧ ∃ text,
        g.vocabulary.symbol? text = some t.terminal ∧ g.vocabulary.isPunctuation text = true := by
  have hinner : DerivationTree.Inner g (g.inputOf source) [d] := by
    refine List.forall_mem_singleton.mpr fun heq => ?_
    have hmem : .nonterminal g.root ∈ (g.production startProduction).right := by
      rw [wf.right_start]
      exact List.mem_singleton_self _
    exact (wf.right startProduction wf.startProduction_lt _ hmem).1
      (Symbol.nonterminal.inj (hroot.symm.trans heq))
  have hmem : i ∈ (g.inputOf source).stream.toList := Input.mem_stream.mpr ⟨t, ht, hread⟩
  obtain ⟨position, hlt, hposition⟩ := List.getElem_of_mem hmem
  have hstream : (g.inputOf source).stream[position]? = some i := by
    rw [← Array.getElem?_toList, List.getElem?_eq_getElem hlt, hposition]
  have hgetD : (g.inputOf source).stream.getD position 0 = i := by
    rw [Array.getD_eq_getD_getElem?, hstream]
    rfl
  have hleaf : position ∈ d.leaves := by
    rw [hall]
    exact List.mem_range.mpr (by simpa [Input.size] using hlt)
  have hterminal : (g.inputOf source).terminal position = t.terminal := by
    rw [Input.terminal, Input.token?, hstream, Option.bind_some, ht]
  have hseparator : position ∈ d.separators g := by
    refine (DerivationTree.mem_separators_or_mem_image wf hl hreads hinner d
      (List.mem_singleton_self d) position hleaf).resolve_right fun hkept => ?_
    rw [hgetD, ← Tree.tokens_eq_leaves] at hkept
    exact h.of?_token_eq_none_iff.mp hparent hkept
  obtain ⟨text, htext, hpunctuation⟩ := DerivationTree.exists_punctuation_of_mem_separators wf hl
    hreads hinner d (List.mem_singleton_self d) position hseparator
  exact ⟨position, hseparator, hstream, text, hterminal ▸ htext, hpunctuation⟩

end Grammar

/-- **One tree in source order.** Whatever errors a run has recovered from, if it ends with a node,
the numbered nodes below the root are a tree without sharing, with the table of parents as its
inverse and tokens in the order of the text. If the run met no error, the tokens read that have no
parent are separators left out of lists, and these are punctuation. -/
theorem exists_presents_of_run {g : Grammar} (hg : g.IsBuilt) {limits : Limits} {source : String}
    {n : Nat} {m : Machine} {ending : Ending} {tree : Tree}
    (hrun : Machine.initial.run (.ofGrammar g) limits (g.inputOf source) n = some (m, ending))
    (hroot : Parse.rootOf ending = some tree) :
    ∃ b root parents,
      Builder.initial.run (.ofGrammar g) limits (g.inputOf source) n = some (b, ending) ∧
      b.machine = m ∧ b.root? ending = some root ∧
      b.Presents (g.inputOf source) tree root parents ∧
      (m.errors = 0 → ∃ d stop, d.symbol g (g.inputOf source) = .nonterminal g.root ∧
        DerivationTree.Reads g (g.inputOf source) 0 [d] stop ∧
        tree = d.image g (g.inputOf source) ∧
        ∀ i t, (g.inputOf source).tokens[i]? = some t → t.isGrammatical = true →
          parents.of? (.token i) = none → ∃ position ∈ d.separators g,
            (g.inputOf source).stream[position]? = some i ∧ ∃ text,
              g.vocabulary.symbol? text = some t.terminal ∧
              g.vocabulary.isPunctuation text = true) := by
  have wf := Grammar.wellFormed_of_isBuilt hg
  have hl := Grammar.lowered_of_isBuilt hg
  have hend := isEnded_inputOf wf.vocabulary source
  obtain ⟨b, hb, hmachine, last, hlast, hslots, harena, allowance, hstep⟩ :=
    Builder.consistent_initial.run hrun
  cases ending with
  | stopped | unrepaired | stuck => cases hroot
  | accepted accepted =>
    obtain ⟨hsame, top, frames, hstack, rfl, hact⟩ := Machine.step_accepted hstep
    have hnode : top.tree.isNode = true ∧ tree = top.tree := by
      cases htop : top.tree with
      | node =>
        rw [Parse.rootOf, htop] at hroot
        exact ⟨rfl, (Option.some.inj hroot).symm⟩
      | _ =>
        rw [Parse.rootOf, htop] at hroot
        cases hroot
    obtain ⟨hisNode, rfl⟩ := hnode
    obtain ⟨root, ks, hhead, hholds, hks⟩ := hlast.exists_root hstack hisNode
    -- The machine at the end is the one that the moves lead to, so it is grounded.
    obtain ⟨m', _, hmoves, hdone⟩ := Machine.moves_of_run hrun
    obtain ⟨rfl, -⟩ := Machine.step_accepted hdone
    rw [← hsame] at hstack hact
    obtain ⟨d, stop, hd, hreads, hsub, himage, hall⟩ :=
      (Machine.grounded_initial.moves wf hend hmoves).accept wf hend hstack hact
    rw [← harena] at hholds
    obtain ⟨parents, hpresents⟩ :=
      Grammar.presents hholds hks (himage ▸ Grammar.tokens_sublist hsub)
    refine ⟨b, root, parents, hb, hmachine, ?_, hpresents, fun herrors => ?_⟩
    · rw [Builder.root?, hslots, hhead]
      rfl
    · exact ⟨d, stop, hd, hreads, himage, fun i t ht hread hparent => Grammar.exists_separator wf hl
        hd hreads (hall herrors) (himage ▸ hpresents) ht hread hparent⟩

/-- The tokens in the tree that the parser of some declarations finds, with the number of syntax
errors, if there is such a parser and its run ends with a node within the allowance. -/
def Declarations.tokensIn? (d : Declarations) (source : String) (n : Nat) :
    Option (List Nat × Nat) :=
  match d.build with
  | .error _ => none
  | .ok g => (Machine.initial.run (.ofGrammar g) {} (g.inputOf source) n).bind fun run =>
      (Parse.rootOf run.2).map fun tree => (tree.tokens, run.1.errors)

theorem Declarations.run_of_tokensIn? {d : Declarations} {source : String} {n k : Nat}
    {tokens : List Nat} (h : d.tokensIn? source n = some (tokens, k)) : ∃ g m ending tree,
      d.build = .ok g ∧
        Machine.initial.run (.ofGrammar g) {} (g.inputOf source) n = some (m, ending) ∧
        Parse.rootOf ending = some tree ∧ tree.tokens = tokens ∧ m.errors = k := by
  simp only [tokensIn?] at h
  split at h
  · cases h
  · next g hg =>
    obtain ⟨⟨m, ending⟩, hrun, hm⟩ := Option.bind_eq_some_iff.mp h
    obtain ⟨tree, htree, heq⟩ := Option.map_eq_some_iff.mp hm
    obtain ⟨htokens, herrors⟩ := Prod.mk.inj heq
    exact ⟨g, m, ending, tree, hg, hrun, htree, htokens, herrors⟩

/-- The second of two signs is a syntax error. Recovery takes the first off the stack, so it has no
parent. -/
theorem exists_presents_of_run_signs : ∃ g : Grammar, g.IsBuilt ∧ ∃ b m ending tree root parents,
    Machine.initial.run (.ofGrammar g) {} (g.inputOf "+ +") 10 = some (m, ending) ∧
      Parse.rootOf ending = some tree ∧
      Builder.initial.run (.ofGrammar g) {} (g.inputOf "+ +") 10 = some (b, ending) ∧
      b.Presents (g.inputOf "+ +") tree root parents ∧ tree.tokens = [1] ∧
      parents.of? (.token 0) = none := by
  have htokens : (Declarations.ofSteps "signs" plusSteps).tokensIn? "+ +" 10 = some ([1], 1) := by
    cbv
  obtain ⟨g, m, ending, tree, hbuild, hrun, hroot, htree, -⟩ :=
    Declarations.run_of_tokensIn? htokens
  have hg : g.IsBuilt := ⟨"signs", plusSteps, hbuild⟩
  obtain ⟨b, root, parents, hb, -, -, hpresents, -⟩ := exists_presents_of_run hg hrun hroot
  refine ⟨g, hg, b, m, ending, tree, root, parents, hrun, hroot, hb, hpresents, htree, ?_⟩
  rw [hpresents.of?_token_eq_none_iff, htree]
  decide

end FourGL
