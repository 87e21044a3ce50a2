import FourGL.Proofs.Grammar.Reachability
import FourGL.Proofs.Parse.SourceOrder

/-!
# Trees in the shape of their rules

A node has a slot for every part of an alternative of its rule, and what stands in a slot fits the
part. `Fits` says what a tree must look like to fit a part, with no mention of productions.

**Theorem (`fits_image`).** Where parts that look the same are alike, the tree of a derivation fits the
part that its symbol stands for.
-/

namespace FourGL

/-! ## Slots -/

namespace Rule

mutual

/-- The parts of a rule that have slots in its node. Sequences are written out. -/
def slots : Rule → List Rule
  | .empty => []
  | .seq items => slotsOfAll items
  | .keyword text => [.keyword text]
  | .symbol text => [.symbol text]
  | .ref name => [.ref name]
  | .alt items => [.alt items]
  | .opt item => [.opt item]
  | .star item => [.star item]
  | .plus item => [.plus item]
  | .starSep item separator => [.starSep item separator]
  | .plusSep item separator => [.plusSep item separator]

/-- The parts of several rules, one after the other. -/
def slotsOfAll : List Rule → List Rule
  | [] => []
  | r :: rs => r.slots ++ slotsOfAll rs

end

variable {r q : Rule}

theorem slots_of_not_spliced (h : r.isSpliced = false) : r.slots = [r] := by
  cases r <;> first | rfl | cases h

theorem isSpliced_of_isList (h : r.isList = true) : r.isSpliced = false := by
  cases r <;> first | rfl | cases h

mutual

theorem slots_subset_spliced : ∀ r : Rule, r.slots ⊆ r.spliced r.inner
  | .empty => List.nil_subset _
  | .seq items => slotsOfAll_subset_innerEach items
  | .keyword _ | .symbol _ | .ref _ | .alt _ | .opt _ | .star _ | .plus _ | .starSep _ _
  | .plusSep _ _ => List.cons_subset.mpr ⟨List.mem_cons_self, List.nil_subset _⟩

theorem slotsOfAll_subset_innerEach : ∀ rs : List Rule, slotsOfAll rs ⊆ innerEach rs
  | [] => List.nil_subset _
  | r :: rs => List.append_subset.mpr
    ⟨List.subset_append_of_subset_left _ (slots_subset_spliced r),
      List.subset_append_of_subset_right _ (slotsOfAll_subset_innerEach rs)⟩

end

end Rule

theorem SymbolTable.Written.stands_slots {T : SymbolTable} {r : Rule} {xs : List Symbol}
    (h : T.Written r xs) : List.Forall₂ T.Stands r.slots xs := by
  induction h with
  | empty | nil => exact .nil
  | cons _ _ ih ih' => exact List.rel_append ih ih'
  | part hspliced hs =>
    rw [Rule.slots_of_not_spliced hspliced]
    exact .cons hs .nil

/-! ## How trees become one -/

namespace Tree

variable {kind : String} {ts : List Tree} {t : Tree} {input : Input} {position : Nat}
  {xs : List Symbol}

/-- A node of that kind with those slots. -/
def IsNodeOf (kind : String) (ts : List Tree) (t : Tree) : Prop := ∃ span, t = .node kind span ts

/-- What a group becomes: nothing of none, the tree itself of one, else a node. -/
def IsGroupOf (kind : String) : List Tree → Tree → Prop
  | [], t => t = .absent
  | [u], t => t = u
  | ts, t => IsNodeOf kind ts t

/-- What a part becomes that must not vanish: the tree itself of one, else a node. -/
def IsWrapOf (kind : String) : List Tree → Tree → Prop
  | [u], t => t = u
  | ts, t => IsNodeOf kind ts t

theorem IsNodeOf.append {more : List Tree} (h : IsNodeOf kind ts t) :
    IsNodeOf kind (ts ++ more) (t.append input more) := by
  obtain ⟨span, rfl⟩ := h
  exact ⟨_, rfl⟩

theorem isGroupOf_run (h : xs.length = ts.length) :
    IsGroupOf kind ts ((SymbolTable.groupOf xs kind).run input position ts) := by
  match xs, ts, h with
  | [], [], _ => rfl
  | [_], [_], _ => rfl
  | _ :: _ :: _, _ :: _ :: _, _ => exact ⟨_, rfl⟩

theorem isWrapOf_run (h : xs.length = ts.length) :
    IsWrapOf kind ts ((SymbolTable.wrapOf xs kind).run input position ts) := by
  match xs, ts, h with
  | [], [], _ => exact ⟨_, rfl⟩
  | [_], [_], _ => rfl
  | _ :: _ :: _, _ :: _ :: _, _ => exact ⟨_, rfl⟩

end Tree

namespace Grammar

variable {g : Grammar} {rules : List RuleDeclaration} {tokens : Array Token} {p q r : Rule}
  {join : List Tree → Tree → Prop} {kind name : String} {t u : Tree} {ts : List Tree}
  {d : RuleDeclaration} {item separator : Rule}

/-- The slots of a part may be those of a rule, whose trees become one in some way. -/
inductive Offers (rules : List RuleDeclaration) : Rule → Rule → (List Tree → Tree → Prop) → Prop
  | rule {d : RuleDeclaration} {r : Rule} : d ∈ rules → d.rule.isList = false →
      r ∈ SymbolTable.alternativesOf d.rule → d.transient = false →
      Offers rules (.ref d.name) r (Tree.IsNodeOf d.name)
  | transient {d : RuleDeclaration} {r : Rule} : d ∈ rules → d.rule.isList = false →
      r ∈ SymbolTable.alternativesOf d.rule → d.transient = true →
      Offers rules (.ref d.name) r (Tree.IsGroupOf d.name)
  | sequence {p : Rule} : p.isSpliced = true → Offers rules p p (Tree.IsWrapOf p.render)
  | choice {items : List Rule} {r : Rule} : r ∈ items →
      Offers rules (.alt items) r (Tree.IsGroupOf r.render)
  | present {item : Rule} : Offers rules (.opt item) item (Tree.IsWrapOf item.render)
  | absent {item : Rule} : Offers rules (.opt item) .empty (Tree.IsGroupOf "")

/-- The part is a repetition or a declared rule that is one, with list nodes of some kind. -/
inductive Lists (rules : List RuleDeclaration) : Rule → Rule → String → Prop
  | part {r : Rule} : r.isList = true → Lists rules r r r.render
  | rule {d : RuleDeclaration} : d ∈ rules → d.rule.isList = true →
      Lists rules (.ref d.name) d.rule d.name

/-- What is added to a list for further items, each after a separator, which may be left out. -/
def separated (drop : Bool) (pairs : List (Tree × Tree)) : List Tree :=
  pairs.flatMap fun pair => TreeAction.additions drop [pair.1, pair.2]

theorem separated_append (drop : Bool) (pairs : List (Tree × Tree)) (separator item : Tree) :
    separated drop (pairs ++ [(separator, item)]) =
      separated drop pairs ++ TreeAction.additions drop [separator, item] := by
  rw [separated, List.flatMap_append, List.flatMap_singleton]
  rfl

/-- The tree fits the part of a rule. -/
inductive Fits (g : Grammar) (tokens : Array Token) : Rule → Tree → Prop
  | token {p : Rule} {t : TerminalId} {i : Nat} {token : Token} : g.table.Stands p (.terminal t) →
      tokens[i]? = some token → token.terminal = t → Fits g tokens p (.token i)
  | slots {p r : Rule} {join : List Tree → Tree → Prop} {ts : List Tree} {t : Tree} :
      Offers g.rules.toList p r join → r.slots.length = ts.length →
      (∀ q u, (q, u) ∈ r.slots.zip ts → Fits g tokens q u) → join ts t → Fits g tokens p t
  | star {p item : Rule} {kind : String} {span : Span} {ts : List Tree} :
      Lists g.rules.toList p (.star item) kind → (∀ u ∈ ts, Fits g tokens item u) →
      Fits g tokens p (.node kind span ts)
  | plus {p item : Rule} {kind : String} {span : Span} {ts : List Tree} :
      Lists g.rules.toList p (.plus item) kind → ts ≠ [] → (∀ u ∈ ts, Fits g tokens item u) →
      Fits g tokens p (.node kind span ts)
  | plusSep {p item separator : Rule} {kind : String} {span : Span} {first : Tree}
      {pairs : List (Tree × Tree)} : Lists g.rules.toList p (.plusSep item separator) kind →
      Fits g tokens item first → (∀ pair ∈ pairs, Fits g tokens separator pair.1) →
      (∀ pair ∈ pairs, Fits g tokens item pair.2) →
      Fits g tokens p (.node kind span
        (first :: separated (Lower.dropsSeparator g.vocabulary separator) pairs))
  | noItems {p item separator : Rule} {kind : String} {span : Span} :
      Lists g.rules.toList p (.starSep item separator) kind → Fits g tokens p (.node kind span [])
  | items {p item separator : Rule} {kind : String} {t : Tree} :
      Lists g.rules.toList p (.starSep item separator) kind →
      Fits g tokens (.plusSep item separator) t → Fits g tokens p t

/-! ## Repetitions -/

/-- The tree is that of a repetition with list nodes of some kind. -/
def FitsItems (g : Grammar) (tokens : Array Token) : Rule → String → Tree → Prop
  | .star item, kind, t => ∃ ts, Tree.IsNodeOf kind ts t ∧ ∀ u ∈ ts, g.Fits tokens item u
  | .plus item, kind, t =>
    ∃ ts, Tree.IsNodeOf kind ts t ∧ ts ≠ [] ∧ ∀ u ∈ ts, g.Fits tokens item u
  | .plusSep item separator, kind, t => ∃ first pairs, Tree.IsNodeOf kind
      (first :: separated (Lower.dropsSeparator g.vocabulary separator) pairs) t ∧
      g.Fits tokens item first ∧ (∀ pair ∈ pairs, g.Fits tokens separator pair.1) ∧
      ∀ pair ∈ pairs, g.Fits tokens item pair.2
  | .starSep item separator, kind, t =>
    Tree.IsNodeOf kind [] t ∨ g.Fits tokens (.plusSep item separator) t
  | _, _, _ => False

/-- A repetition is known by its part, as names differ. -/
theorem Lists.unique (hl : g.Lowered) (h : Lists g.rules.toList p r kind)
    (h' : Lists g.rules.toList p q name) : r = q ∧ kind = name := by
  cases h with
  | part hlist =>
    cases h' with
    | part => exact ⟨rfl, rfl⟩
    | rule => cases hlist
  | rule hd =>
    generalize hp : Rule.ref _ = p at h'
    cases h' with
    | part hlist =>
      rw [← hp] at hlist
      cases hlist
    | rule he =>
      rw [hl.eq_of_name_eq hd he (Rule.ref.inj hp)]
      exact ⟨rfl, rfl⟩

theorem Lists.not_offers (hl : g.Lowered) (h : Lists g.rules.toList p r kind) :
    ¬ Offers g.rules.toList p q join := by
  intro hoffers
  cases hoffers with
  | rule hd hnot | transient hd hnot =>
    generalize hp : Rule.ref _ = p at h
    cases h with
    | part hlist =>
      rw [← hp] at hlist
      cases hlist
    | rule he hlist =>
      rw [hl.eq_of_name_eq hd he (Rule.ref.inj hp), hlist] at hnot
      cases hnot
  | sequence hspliced =>
    cases h with
    | part hlist =>
      rw [Rule.isSpliced_of_isList hlist] at hspliced
      cases hspliced
    | rule => cases hspliced
  | choice | present | absent =>
    cases h with
    | part hlist => cases hlist

theorem not_stands_of_declared (hd : d ∈ g.rules.toList) (x : TerminalId) :
    ¬ g.table.Stands (.ref d.name) (.terminal x) := by
  intro hs
  generalize hp : Rule.ref d.name = p at hs
  cases hs with
  | keyword | symbol => cases hp
  | tokenClass hno => exact hno ⟨d, hd, Rule.ref.inj hp⟩

theorem Lists.not_terminal (h : Lists g.rules.toList p r kind) (x : TerminalId) :
    ¬ g.table.Stands p (.terminal x) := by
  cases h with
  | part hlist => exact fun hs => by cases hs <;> cases hlist
  | rule hd => exact not_stands_of_declared hd x

/-- What fits a repetition. -/
theorem Lists.fits_iff (hl : g.Lowered) (h : Lists g.rules.toList p r kind) :
    g.Fits tokens p t ↔ g.FitsItems tokens r kind t := by
  constructor
  · intro hfits
    cases hfits with
    | token hs => exact absurd hs (h.not_terminal _)
    | slots hoffers => exact absurd hoffers (h.not_offers hl)
    | star h' hall =>
      obtain ⟨rfl, rfl⟩ := h.unique hl h'
      exact ⟨_, ⟨_, rfl⟩, hall⟩
    | plus h' hne hall =>
      obtain ⟨rfl, rfl⟩ := h.unique hl h'
      exact ⟨_, ⟨_, rfl⟩, hne, hall⟩
    | plusSep h' hfirst hseparators hitems =>
      obtain ⟨rfl, rfl⟩ := h.unique hl h'
      exact ⟨_, _, ⟨_, rfl⟩, hfirst, hseparators, hitems⟩
    | noItems h' =>
      obtain ⟨rfl, rfl⟩ := h.unique hl h'
      exact Or.inl ⟨_, rfl⟩
    | items h' hfits =>
      obtain ⟨rfl, rfl⟩ := h.unique hl h'
      exact Or.inr hfits
  · intro hitems
    cases r with
    | star item =>
      obtain ⟨ts, ⟨span, rfl⟩, hall⟩ := hitems
      exact .star h hall
    | plus item =>
      obtain ⟨ts, ⟨span, rfl⟩, hne, hall⟩ := hitems
      exact .plus h hne hall
    | plusSep item separator =>
      obtain ⟨first, pairs, ⟨span, rfl⟩, hfirst, hseparators, hitems⟩ := hitems
      exact .plusSep h hfirst hseparators hitems
    | starSep item separator =>
      rcases hitems with ⟨span, rfl⟩ | hfits
      · exact .noItems h
      · exact .items h hfits
    | _ => cases hitems

/-! ## Trees of derivations -/

/-- The part has a place in the rules: it is part of one, or the name of one. -/
def HasPlace (rules : List RuleDeclaration) (p : Rule) : Prop :=
  IsPart rules p ∨ ∃ d ∈ rules, p = .ref d.name

/-- All slots of what is offered have a place. -/
theorem Offers.hasPlace (h : Offers rules p r join) (hp : HasPlace rules p) (hq : q ∈ r.slots) :
    HasPlace rules q := by
  have hspliced := Rule.slots_subset_spliced r hq
  cases h with
  | @rule d _ hd hlist hr | @transient d _ hd hlist hr =>
    refine Or.inl ⟨d, hd, ?_⟩
    rw [← SymbolTable.innerEach_alternativesOf hlist]
    exact Rule.mem_innerEach.mpr ⟨r, hr, hspliced⟩
  | sequence hp' =>
    rcases hp with hp | ⟨d, -, rfl⟩
    · rw [Rule.spliced, hp', if_pos rfl] at hspliced
      exact Or.inl (hp.of_mem_inner hspliced)
    · cases hp'
  | choice hr =>
    rcases hp with hp | ⟨d, -, hp⟩
    · exact Or.inl (hp.of_mem_inner (Rule.mem_innerEach.mpr ⟨r, hr, hspliced⟩))
    · cases hp
  | present =>
    rcases hp with hp | ⟨d, -, hp⟩
    · exact Or.inl (hp.of_mem_inner hspliced)
    · cases hp
  | absent => cases hq

theorem Lists.hasPlace (h : Lists rules p r kind) (hp : HasPlace rules p) (hq : q ∈ r.inner) :
    HasPlace rules q := by
  cases h with
  | part hlist =>
    rcases hp with hp | ⟨d, -, rfl⟩
    · exact Or.inl (hp.of_mem_inner hq)
    · cases hlist
  | rule hd => exact Or.inl ⟨_, hd, Rule.inner_subset_parts hq⟩

end Grammar

namespace DerivationTree

open Grammar

variable {g : Grammar} {input : Input} {cs ds : List DerivationTree} {n : NonterminalId}
  {p r : Rule} {right : List Symbol} {action : TreeAction} {es : List Entry}
  {join : List Tree → Tree → Prop} {kind : String} {t : Tree} {position start stop : Nat}
  {d : RuleDeclaration}

/-- The trees of derivations fit the parts that their symbols stand for. -/
def FitAll (g : Grammar) (input : Input) (ds : List DerivationTree) : Prop :=
  ∀ d ∈ ds, ∀ p, HasPlace g.rules.toList p → g.table.Stands p (d.symbol g input) →
    g.Fits input.tokens p (d.image g input)

/-- What is written out fits the slots that are offered. -/
theorem fits_of_written (hfit : FitAll g input cs) (hoffers : Offers g.rules.toList p r join)
    (hp : HasPlace g.rules.toList p) (hw : g.table.Written r (cs.map (symbol g input)))
    (hjoin : join (imageOfAll g input cs) t) : g.Fits input.tokens p t := by
  have hstands := List.forall₂_map_right_iff.mp hw.stands_slots
  rw [imageOfAll_eq_map] at hjoin
  refine .slots hoffers (by rw [List.length_map, hstands.length_eq]) (fun q u hqu => ?_) hjoin
  rw [List.zip_map_right, List.mem_map] at hqu
  obtain ⟨⟨q', c⟩, hqc, heq⟩ := hqu
  cases heq
  obtain ⟨hq, hc⟩ := List.of_mem_zip hqc
  exact hfit c hc q' (hoffers.hasPlace hp hq) (List.forall₂_zip hstands hqc)

theorem exists_pair_of_map {x y : Symbol} (h : cs.map (symbol g input) = [x, y]) :
    ∃ c c', cs = [c, c'] ∧ c.symbol g input = x ∧ c'.symbol g input = y := by
  obtain ⟨c, cs', rfl, hc, h⟩ := List.map_eq_cons_iff.mp h
  obtain ⟨c', rfl, hc'⟩ := List.map_eq_singleton_iff.mp h
  exact ⟨c, c', rfl, hc, hc'⟩

/-- The trees of a repetition's productions fit it. -/
theorem fitsItems_of_repeats (hl : g.Lowered) (hfit : FitAll g input cs)
    (hlists : Lists g.rules.toList p r kind) (hp : HasPlace g.rules.toList p)
    (hn : g.table.Stands p (.nonterminal n)) (hrepeats : g.table.Repeats n kind r es)
    (hentry : (cs.map (symbol g input), action) ∈ es) :
    g.FitsItems input.tokens r kind (action.run input position (imageOfAll g input cs)) := by
  have hitems : ∀ c ∈ cs, c.symbol g input = .nonterminal n →
      g.FitsItems input.tokens r kind (c.image g input) := fun c hc hsymbol =>
    (hlists.fits_iff hl).mp (hfit c hc p hp (hsymbol ▸ hn))
  have hinner : ∀ q ∈ r.inner, ∀ c ∈ cs, g.table.Stands q (c.symbol g input) →
      g.Fits input.tokens q (c.image g input) := fun q hq c hc =>
    hfit c hc q (hlists.hasPlace hp hq)
  cases hrepeats with
  | star hx =>
    rcases List.mem_pair.mp hentry with heq | heq <;> obtain ⟨hcs, rfl⟩ := Prod.mk.inj heq
    · obtain rfl := List.map_eq_nil_iff.mp hcs
      exact ⟨[], ⟨_, rfl⟩, List.forall_mem_nil _⟩
    · obtain ⟨c, c', rfl, hc, hc'⟩ := exists_pair_of_map hcs
      obtain ⟨ts, hlist, hall⟩ := hitems c List.mem_cons_self hc
      have hlast := hinner _ List.mem_cons_self c' (by simp) (hc' ▸ hx)
      exact ⟨_, hlist.append, List.forall_mem_append.mpr
        ⟨hall, List.forall_mem_singleton.mpr hlast⟩⟩
  | plus hx =>
    rcases List.mem_pair.mp hentry with heq | heq <;> obtain ⟨hcs, rfl⟩ := Prod.mk.inj heq
    · obtain ⟨c, rfl, hc⟩ := List.map_eq_singleton_iff.mp hcs
      have hfirst := hinner _ List.mem_cons_self c (by simp) (hc ▸ hx)
      exact ⟨_, ⟨_, rfl⟩, List.cons_ne_nil _ _, List.forall_mem_singleton.mpr hfirst⟩
    · obtain ⟨c, c', rfl, hc, hc'⟩ := exists_pair_of_map hcs
      obtain ⟨ts, hlist, hne, hall⟩ := hitems c List.mem_cons_self hc
      have hlast := hinner _ List.mem_cons_self c' (by simp) (hc' ▸ hx)
      exact ⟨_, hlist.append, List.append_ne_nil_of_left_ne_nil hne _,
        List.forall_mem_append.mpr ⟨hall, List.forall_mem_singleton.mpr hlast⟩⟩
  | @plusSep item separator x y hx hy =>
    have hitem : item ∈ (Rule.plusSep item separator).inner :=
      List.mem_append_left _ List.mem_cons_self
    have hseparator : separator ∈ (Rule.plusSep item separator).inner :=
      List.mem_append_right _ List.mem_cons_self
    rcases List.mem_pair.mp hentry with heq | heq <;> obtain ⟨hcs, rfl⟩ := Prod.mk.inj heq
    · obtain ⟨c, rfl, hc⟩ := List.map_eq_singleton_iff.mp hcs
      have hfirst := hinner _ hitem c (by simp) (hc ▸ hx)
      exact ⟨_, [], ⟨_, rfl⟩, hfirst, List.forall_mem_nil _, List.forall_mem_nil _⟩
    · obtain ⟨c, cs', rfl, hc, hcs⟩ := List.map_eq_cons_iff.mp hcs
      obtain ⟨s, c', rfl, hs, hc'⟩ := exists_pair_of_map hcs
      obtain ⟨first, pairs, hlist, hfirst, hseparators, hall⟩ := hitems c List.mem_cons_self hc
      have hlast := hinner _ hitem c' (by simp) (hc' ▸ hx)
      have hmark := hinner _ hseparator s (by simp) (hs ▸ hy)
      refine ⟨first, pairs ++ [(s.image g input, c'.image g input)], ?_, hfirst,
        List.forall_mem_append.mpr ⟨hseparators, List.forall_mem_singleton.mpr hmark⟩,
        List.forall_mem_append.mpr ⟨hall, List.forall_mem_singleton.mpr hlast⟩⟩
      rw [separated_append, ← List.cons_append]
      exact hlist.append
  | starSep hx =>
    rcases List.mem_pair.mp hentry with heq | heq <;> obtain ⟨hcs, rfl⟩ := Prod.mk.inj heq
    · obtain rfl := List.map_eq_nil_iff.mp hcs
      exact Or.inl ⟨_, rfl⟩
    · obtain ⟨c, rfl, hc⟩ := List.map_eq_singleton_iff.mp hcs
      exact Or.inr (hinner _ List.mem_cons_self c (by simp) (hc ▸ hx))

/-- The trees of a helper's productions fit what demands them. -/
theorem fits_of_demands (hl : g.Lowered) (hfit : FitAll g input cs) (hp : HasPlace g.rules.toList p)
    (hn : g.table.Stands p (.nonterminal n)) (hdemands : g.table.Demands n p es)
    (hentry : (cs.map (symbol g input), action) ∈ es) :
    g.Fits input.tokens p (action.run input position (imageOfAll g input cs)) := by
  have hlength : (cs.map (symbol g input)).length = (imageOfAll g input cs).length := by
    rw [imageOfAll_eq_map, List.length_map, List.length_map]
  cases hdemands with
  | sequence hspliced hw =>
    obtain ⟨hcs, rfl⟩ := Prod.mk.inj (List.mem_singleton.mp hentry)
    exact fits_of_written hfit (.sequence hspliced) hp (hcs ▸ hw)
      (hcs ▸ Tree.isWrapOf_run hlength)
  | alt hall =>
    obtain ⟨r, hr, hw, haction⟩ := exists_left_of_forall₂ hall hentry
    have haction : action = SymbolTable.groupOf (cs.map (symbol g input)) r.render := haction
    rw [haction]
    exact fits_of_written hfit (.choice hr) hp hw (Tree.isGroupOf_run hlength)
  | opt hw =>
    rcases List.mem_pair.mp hentry with heq | heq <;> obtain ⟨hcs, rfl⟩ := Prod.mk.inj heq
    · exact fits_of_written hfit .present hp (hcs ▸ hw) (hcs ▸ Tree.isWrapOf_run hlength)
    · obtain rfl := List.map_eq_nil_iff.mp hcs
      exact fits_of_written hfit .absent hp .empty rfl
  | list hr =>
    have hlists : Lists g.rules.toList p p p.render := .part (by cases hr <;> rfl)
    exact (hlists.fits_iff hl).mpr (fitsItems_of_repeats hl hfit hlists hp hn hr hentry)

/-- The trees of a rule's productions fit its name. -/
theorem fits_of_ruleDemands (hl : g.Lowered) (hfit : FitAll g input cs) (hd : g.table.IsRule d n)
    (hdemands : g.table.RuleDemands d n es) (hentry : (cs.map (symbol g input), action) ∈ es) :
    g.Fits input.tokens (.ref d.name) (action.run input position (imageOfAll g input cs)) := by
  have hlength : (cs.map (symbol g input)).length = (imageOfAll g input cs).length := by
    rw [imageOfAll_eq_map, List.length_map, List.length_map]
  have hp : HasPlace g.rules.toList (.ref d.name) := Or.inr ⟨d, hd.1, rfl⟩
  cases hdemands with
  | alternatives hlist hall =>
    obtain ⟨r, hr, hw, haction⟩ := exists_left_of_forall₂ hall hentry
    have haction : action = SymbolTable.ruleOf d (cs.map (symbol g input)) := haction
    rw [haction, SymbolTable.ruleOf]
    split
    · next htransient =>
      exact fits_of_written hfit (.transient hd.1 hlist hr htransient) hp hw
        (Tree.isGroupOf_run hlength)
    · next htransient =>
      exact fits_of_written hfit (.rule hd.1 hlist hr (Bool.eq_false_of_not_eq_true htransient)) hp hw
        ⟨_, rfl⟩
  | list hr =>
    have hlists : Lists g.rules.toList (.ref d.name) d.rule d.name :=
      .rule hd.1 (by generalize d.rule = r at hr; cases hr <;> rfl)
    exact (hlists.fits_iff hl).mpr (fitsItems_of_repeats hl hfit hlists hp (.rule hd) hr hentry)

/-- A helper that stands for a part has what it demands. -/
theorem demands_of_isHelper (hl : g.Lowered) (halike : LooksAlike g.vocabulary g.rules.toList)
    (hp : HasPlace g.rules.toList p) (hhelper : g.table.IsHelper p.render n)
    (htakes : p.isAtom = false ∨ ∃ name, p = .ref name ∧ ¬ ∃ d ∈ g.rules.toList, d.name = name) :
    g.table.Demands n p (g.entriesOf n) := by
  rcases hp with hp | ⟨d, hd, rfl⟩
  · exact hl.demands halike ⟨hp, htakes⟩ hhelper
  · rcases htakes with hatom | ⟨name, hname, hno⟩
    · cases hatom
    · cases hname
      exact absurd ⟨d, hd, rfl⟩ hno

/-- **Trees of derivations.** The tree of a derivation fits the part that its symbol stands for. -/
theorem fits_image (hl : g.Lowered) (halike : LooksAlike g.vocabulary g.rules.toList)
    (hinput : ∀ position < input.size, ∃ token,
      input.tokens[input.stream.getD position 0]? = some token ∧
        token.terminal = input.terminal position)
    (h : Reads g input start ds stop) : FitAll g input ds := by
  induction h with
  | nil => exact List.forall_mem_nil _
  | @leaf _ position _ _ _ hlt _ ih =>
    refine List.forall_mem_cons.mpr ⟨fun p _ hs => ?_, ih⟩
    obtain ⟨token, htoken, hterminal⟩ := hinput position hlt
    exact .token hs htoken hterminal
  | @node _ _ position _ q cs _ hq hr _ _ _ ihcs ih =>
    refine List.forall_mem_cons.mpr ⟨fun p hp hs => ?_, ih⟩
    have hentry : (cs.map (symbol g input), (g.production q).action) ∈
        g.entriesOf (g.production q).left :=
      mem_entriesOf.mpr ⟨q, hq, by rw [hr]⟩
    rw [image]
    cases hs with
    | rule hd => exact fits_of_ruleDemands hl ihcs hd (hl.rule _ _ hd) hentry
    | shadow hno hhelper =>
      have hdemands := demands_of_isHelper hl halike hp hhelper (Or.inr ⟨_, rfl, hno⟩)
      exact fits_of_demands hl ihcs hp (.shadow hno hhelper) hdemands hentry
    | helper hatom hhelper =>
      have hdemands := demands_of_isHelper hl halike hp hhelper (Or.inl hatom)
      exact fits_of_demands hl ihcs hp (.helper hatom hhelper) hdemands hentry

end DerivationTree

end FourGL
