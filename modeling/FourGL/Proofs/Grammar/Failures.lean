import FourGL.Proofs.Grammar.Literals
import FourGL.Proofs.Grammar.Lowered
import Mathlib.Algebra.GroupWithZero.Nat

/-!
# What lowering fails for

**Theorem (`all_runs`).** Where all names and literals that the rules mention are known, lowering fails
only for a table that is full. It does not fail if the rules weigh little enough.

Every step either leaves what is known alone, or fails because a table is full (`Runs`), and it enters
no more nonterminals and node kinds than what it lowers weighs. That is put together along the
recursion over rules, with no need to look at what has been produced.
-/

namespace FourGL

/-- A table is full. -/
def GrammarError.IsFull (e : GrammarError) : Prop := ∃ what limit, e = .tooLarge what limit

/-- What is mentioned can be found: the literal in the vocabulary, the name among the rules or the
classes of tokens. -/
def Rule.Mention.Known (v : Vocabulary) (rules : List RuleDeclaration) : Rule.Mention → Prop
  | .ref name => (∃ d ∈ rules, d.name = name) ∨ ∃ t, v.namedClass? name = some t
  | m => v.Entered m

namespace Rule

mutual

/-- How many nonterminals and node kinds a rule may need, at most. -/
def weight : Rule → Nat
  | .empty => 2
  | .keyword _ | .symbol _ | .ref _ => 0
  | .seq items => weights items + 2
  | .alt items => weights items + 1
  | .opt item | .star item | .plus item => item.weight + 2
  | .plusSep item separator => item.weight + separator.weight + 2
  | .starSep item separator => 2 * item.weight + separator.weight + 4

/-- The same for several rules, each with a node kind of its own. -/
def weights : List Rule → Nat
  | [] => 0
  | r :: rs => r.weight + 1 + weights rs

end

end Rule

/-- What declaring a rule and lowering it may need, at most. -/
def RuleDeclaration.weight (d : RuleDeclaration) : Nat := d.rule.weight + 3

/-- How many nonterminals and node kinds have been entered. -/
def Lowering.entered (s : Lowering) : Nat := s.nonterminals.size + s.nodeKinds.size

namespace Lower

variable {α β : Type} {v : Vocabulary} {rules : List RuleDeclaration} {s s' : Lowering}
  {k l : Nat}

/-- The state has the vocabulary, a nonterminal for every rule, and its node kinds in their places. -/
structure Knows (v : Vocabulary) (rules : List RuleDeclaration) (s : Lowering) : Prop where
  vocabulary : s.vocabulary = v
  names : ∀ d ∈ rules, ∃ n, s.names[d.name]? = some n
  places : ∀ (kind : String) (place : Nat), s.kindPlaces[kind]? = some place →
    place < s.nodeKinds.size

/-- From this state, the step keeps what is known and enters `k` nonterminals and node kinds at most,
or fails because a table is full and has no room for so many. -/
def RunsFrom (v : Vocabulary) (rules : List RuleDeclaration) (k : Nat) (s : Lowering)
    (m : Lower α) : Prop :=
  (∃ a s', m s = .ok (a, s') ∧ Knows v rules s' ∧ s'.entered ≤ s.entered + k) ∨
    ∃ e, m s = .error e ∧ e.IsFull ∧ maxIndex < s.entered + k

/-- The step keeps what is known and enters `k` nonterminals and node kinds at most, or fails because
a table is full and has no room for so many. -/
def Runs (v : Vocabulary) (rules : List RuleDeclaration) (k : Nat) (m : Lower α) : Prop :=
  ∀ s, Knows v rules s → RunsFrom v rules k s m

/-! ## Steps -/

theorem RunsFrom.mono {m : Lower α} (hm : RunsFrom v rules k s m) (h : k ≤ l) :
    RunsFrom v rules l s m := by
  rcases hm with ⟨a, s', ha, hs', hle⟩ | ⟨e, he, hfull, hlt⟩
  · exact Or.inl ⟨a, s', ha, hs', by omega⟩
  · exact Or.inr ⟨e, he, hfull, by omega⟩

theorem Runs.mono {m : Lower α} (hm : Runs v rules k m) (h : k ≤ l) : Runs v rules l m :=
  fun s hs => (hm s hs).mono h

theorem Runs.pure (a : α) : Runs v rules 0 (Pure.pure a : Lower α) :=
  fun s hs => Or.inl ⟨a, s, rfl, hs, Nat.le_refl _⟩

theorem RunsFrom.bind {m : Lower α} {f : α → Lower β} (hm : RunsFrom v rules k s m)
    (hf : ∀ a, Runs v rules l (f a)) : RunsFrom v rules (k + l) s (m >>= f) := by
  have heq : (m >>= f) s = (m s >>= fun p => f p.1 p.2) := rfl
  rw [RunsFrom, heq]
  rcases hm with ⟨a, s₁, ha, hs₁, hle⟩ | ⟨e, he, hfull, hlt⟩
  · rw [ha]
    rcases hf a s₁ hs₁ with ⟨b, s₂, hb, hs₂, hle₂⟩ | ⟨e, he, hfull, hlt⟩
    · exact Or.inl ⟨b, s₂, hb, hs₂, by omega⟩
    · exact Or.inr ⟨e, he, hfull, by omega⟩
  · rw [he]
    exact Or.inr ⟨e, rfl, hfull, by omega⟩

theorem Runs.bind {m : Lower α} {f : α → Lower β} (hm : Runs v rules k m)
    (hf : ∀ a, Runs v rules l (f a)) : Runs v rules (k + l) (m >>= f) :=
  fun s hs => (hm s hs).bind hf

/-- A step that looks at the state. -/
theorem Runs.get_bind {f : Lowering → Lower β}
    (hf : ∀ s, Knows v rules s → RunsFrom v rules k s (f s)) : Runs v rules k (get >>= f) := hf

theorem Runs.modify {f : Lowering → Lowering} (hf : ∀ s, Knows v rules s → Knows v rules (f s))
    (hsize : ∀ s, (f s).entered = s.entered) : Runs v rules 0 (modify f : Lower PUnit) :=
  fun s hs => Or.inl ⟨_, f s, rfl, hf s hs, (hsize s).le⟩

theorem Runs.map {m : Lower α} (f : α → β) (hm : Runs v rules k m) : Runs v rules k (f <$> m) := by
  rw [map_eq_pure_bind]
  exact hm.bind fun a => .pure (f a)

theorem Runs.forM {xs : List α} {f : α → Lower PUnit} {weight : α → Nat}
    (hf : ∀ x ∈ xs, Runs v rules (weight x) (f x)) :
    Runs v rules (xs.map weight).sum (xs.forM f) := by
  induction xs with
  | nil => exact .pure PUnit.unit
  | cons x xs ih =>
    rw [List.map_cons, List.sum_cons]
    exact (hf x List.mem_cons_self).bind fun _ => ih fun y hy => hf y (List.mem_cons_of_mem x hy)

theorem runs_addNonterminal (n : Nonterminal) : Runs v rules 1 (addNonterminal n) := by
  refine .get_bind fun s hs => ?_
  show RunsFrom v rules 1 s (if s.nonterminals.size ≤ maxIndex then _ else _)
  split
  · refine Or.inl ⟨_, _, rfl, ⟨hs.vocabulary, hs.names, hs.places⟩, ?_⟩
    simp only [Lowering.entered, Array.size_push]
    omega
  · exact Or.inr ⟨_, rfl, ⟨_, _, rfl⟩, by simp only [Lowering.entered]; omega⟩

/-- A node kind that is new comes behind those that are there. -/
theorem Knows.enterKind (hs : Knows v rules s) (kind : String) :
    Knows v rules { s with
      nodeKinds := s.nodeKinds.push kind, kindPlaces := s.kindPlaces.insert kind s.nodeKinds.size } := by
  refine ⟨hs.vocabulary, hs.names, fun kind' place hplace => ?_⟩
  rw [Std.TreeMap.getElem?_insert] at hplace
  rw [Array.size_push]
  split at hplace
  · cases hplace
    exact Nat.lt_succ_self _
  · exact Nat.lt_succ_of_lt (hs.places kind' place hplace)

/-- A node kind always has a place. -/
theorem exists_placeKind (hs : Knows v rules s) (kind : String) : ∃ place s',
    placeKind kind s = .ok (place, s') ∧ Knows v rules s' ∧ place < s'.nodeKinds.size ∧
      s'.entered ≤ s.entered + 1 := by
  cases hplace : s.kindPlaces[kind]? with
  | some place =>
    refine ⟨place, s, bind_ok.mpr ⟨s, s, rfl, ?_⟩, hs, hs.places kind place hplace, Nat.le_succ _⟩
    simp only [hplace]
    rfl
  | none =>
    refine ⟨s.nodeKinds.size, _, bind_ok.mpr ⟨s, s, rfl, ?_⟩, hs.enterKind kind, by simp, ?_⟩
    · simp only [hplace]
      rfl
    · simp only [Lowering.entered, Array.size_push]
      omega

theorem runs_placeKind (kind : String) : Runs v rules 1 (placeKind kind) := fun _ hs => by
  obtain ⟨place, s', hplace, hs', -, hle⟩ := exists_placeKind hs kind
  exact Or.inl ⟨place, s', hplace, hs', hle⟩

theorem runs_nodeKind (kind : String) : Runs v rules 1 (nodeKind kind) := by
  intro s hs
  obtain ⟨place, s', hplace, hs', hlt, hle⟩ := exists_placeKind hs kind
  have heq : nodeKind kind s = (if place ≤ maxIndex then (Pure.pure kind : Lower String)
      else throw (.tooLarge "node kinds" maxIndex)) s' := by
    show (placeKind kind s >>= _) = _
    rw [hplace]
    rfl
  rw [RunsFrom, heq]
  split
  · exact Or.inl ⟨_, _, rfl, hs', hle⟩
  · refine Or.inr ⟨_, rfl, ⟨_, _, rfl⟩, ?_⟩
    simp only [Lowering.entered] at hle ⊢
    omega

theorem runs_produce (left : NonterminalId) (right : List Symbol) (action : TreeAction) :
    Runs v rules 0 (produce left right action) :=
  .modify (fun _ hs => ⟨hs.vocabulary, hs.names, hs.places⟩) fun _ => rfl

theorem runs_groupAction (right : List Symbol) (kind : String) :
    Runs v rules 1 (groupAction right kind) := by
  match right with
  | [] => exact (Runs.pure _).mono (Nat.zero_le 1)
  | [_] => exact (Runs.pure _).mono (Nat.zero_le 1)
  | _ :: _ :: _ => exact (runs_nodeKind kind).map _

theorem runs_wrapAction (right : List Symbol) (kind : String) :
    Runs v rules 1 (wrapAction right kind) := by
  match right with
  | [] => exact (runs_nodeKind kind).map _
  | [_] => exact (Runs.pure _).mono (Nat.zero_le 1)
  | _ :: _ :: _ => exact (runs_nodeKind kind).map _

theorem runs_ruleAction (d : RuleDeclaration) (right : List Symbol) :
    Runs v rules 1 (ruleAction d right) := by
  rw [ruleAction]
  split
  · exact runs_groupAction right d.name
  · exact (runs_nodeKind d.name).map _

theorem runs_helper (key : String) {fill : NonterminalId → Lower Unit}
    (hfill : ∀ id, Runs v rules k (fill id)) : Runs v rules (k + 1) (helper key fill) := by
  refine .get_bind fun s hs => ?_
  split
  · exact Or.inl ⟨_, _, rfl, hs, Nat.le_add_right _ _⟩
  · refine RunsFrom.mono (k := 1 + (0 + (k + 0))) ?_ (by omega)
    refine ((runs_addNonterminal ⟨key, false, true⟩).bind fun id => ?_) s hs
    refine Runs.bind (.modify (fun s hs => ⟨hs.vocabulary, fun d hd => ?_, hs.places⟩) fun _ => rfl)
      fun _ => (hfill id).bind fun _ => .pure _
    -- A name that is there stays.
    obtain ⟨n, hn⟩ := hs.names d hd
    refine ⟨n, ?_⟩
    rw [Std.TreeMap.getElem?_insertIfNew, if_neg, hn]
    rintro ⟨heq, hmem⟩
    rw [Std.LawfulEqCmp.eq_of_compare heq] at hmem
    exact hmem (Std.TreeMap.mem_iff_isSome_getElem?.mpr (by rw [hn]; rfl))

/-- What is known is found. -/
theorem runs_found {name : String} {symbol : Lowering → Option Symbol}
    (hsymbol : ∀ s, Knows v rules s → ∃ x, symbol s = some x) :
    Runs v rules 0 (do found name (symbol (← get))) := by
  refine .get_bind fun s hs => ?_
  obtain ⟨x, hx⟩ := hsymbol s hs
  rw [hx]
  exact Or.inl ⟨x, s, rfl, hs, Nat.le_refl _⟩

theorem Knows.namedSymbol? (hs : Knows v rules s) {name : String}
    (h : (Rule.Mention.ref name).Known v rules) : ∃ x, namedSymbol? s name = some x := by
  rcases h with ⟨d, hd, rfl⟩ | ⟨t, ht⟩
  · obtain ⟨n, hn⟩ := hs.names d hd
    exact ⟨.nonterminal n, by rw [Lower.namedSymbol?, hn]⟩
  · rw [Lower.namedSymbol?]
    split
    · exact ⟨_, rfl⟩
    · exact ⟨.terminal t, by rw [hs.vocabulary, ht]; rfl⟩

/-! ## Parts -/

/-- Both uses of a rule run. -/
structure Uses.Run (v : Vocabulary) (rules : List RuleDeclaration) (k : Nat) (u : Uses) : Prop where
  inline : Runs v rules k u.inline
  symbol : Runs v rules k u.symbol

theorem Uses.run_ofSymbol {symbol : Lower Symbol} (h : Runs v rules k symbol) :
    (Uses.ofSymbol symbol).Run v rules k := ⟨h.bind fun _ => .pure _, h⟩

theorem Uses.run_ofSequence (r : Rule) {sequence : Lower (List Symbol)}
    (h : Runs v rules k sequence) : (Uses.ofSequence r sequence).Run v rules (k + 2) := by
  refine ⟨h.mono (Nat.le_add_right _ _), ?_⟩
  exact runs_helper _ fun _ => h.bind fun _ => (runs_wrapAction _ _).bind fun _ => runs_produce _ _ _

variable {item separator : Lower Symbol}

theorem runs_starItems (hitem : Runs v rules k item) (left : NonterminalId) (kind : String) :
    Runs v rules k (starItems item left kind) :=
  hitem.bind fun _ => (runs_produce _ _ _).bind fun _ => runs_produce _ _ _

theorem runs_plusItems (hitem : Runs v rules k item) (left : NonterminalId) (kind : String) :
    Runs v rules k (plusItems item left kind) :=
  hitem.bind fun _ => (runs_produce _ _ _).bind fun _ => runs_produce _ _ _

theorem runs_plusSepItems (hitem : Runs v rules k item) (hseparator : Runs v rules l separator)
    (r : Rule) (left : NonterminalId) (kind : String) :
    Runs v rules (k + l) (plusSepItems item separator r left kind) := by
  refine Runs.mono (k := k + (0 + (l + 0))) ?_ (by omega)
  refine hitem.bind fun _ => (runs_produce _ _ _).bind fun _ => hseparator.bind fun _ => ?_
  exact .get_bind fun s hs => runs_produce _ _ _ s hs

theorem runs_listHelper (r : Rule) {fill : NonterminalId → String → Lower Unit}
    (hfill : ∀ left kind, Runs v rules k (fill left kind)) :
    Runs v rules (k + 2) (listHelper r fill) := by
  refine Runs.mono (k := 1 + k + 1) ?_ (by omega)
  exact runs_helper _ fun id => (runs_nodeKind _).bind fun kind => hfill id kind

theorem runs_starSepItems (hitem : Runs v rules k item) (hseparator : Runs v rules l separator)
    (r r' : Rule) (left : NonterminalId) (kind : String) :
    Runs v rules (2 * k + l + 2) (starSepItems item separator r r' left kind) := by
  refine Runs.mono (k := k + (0 + (k + l + 2 + 0))) ?_ (by omega)
  refine hitem.bind fun _ => (runs_produce _ _ _).bind fun _ => ?_
  exact (runs_listHelper _ (runs_plusSepItems hitem hseparator r')).bind fun _ => runs_produce _ _ _

mutual

/-- A rule runs if all that it mentions is known. -/
theorem uses_run : ∀ r : Rule, (∀ m ∈ r.mentions, m.Known v rules) → (uses r).Run v rules r.weight
  | .empty, _ => Uses.run_ofSequence _ (.pure _)
  | .seq items, h => Uses.run_ofSequence _ (inlineAll_runs items h)
  | .keyword text, h => Uses.run_ofSymbol <| runs_found fun s hs => by
      obtain ⟨t, ht⟩ := h (.keyword text) List.mem_cons_self
      exact ⟨.terminal t, by rw [hs.vocabulary, ht]; rfl⟩
  | .symbol text, h => Uses.run_ofSymbol <| runs_found fun s hs => by
      obtain ⟨t, ht⟩ := h (.symbol text) List.mem_cons_self
      exact ⟨.terminal t, by rw [hs.vocabulary, ht]; rfl⟩
  | .ref name, h => Uses.run_ofSymbol <| runs_found fun _ hs =>
      hs.namedSymbol? (h (.ref name) List.mem_cons_self)
  | .alt items, h => Uses.run_ofSymbol <| runs_helper _ fun id => alternatives_run items h id
  | .opt item, h => Uses.run_ofSymbol <| runs_helper _ fun _ =>
      (uses_run item h).inline.bind fun _ => (runs_wrapAction _ _).bind fun _ =>
        (runs_produce _ _ _).bind fun _ => runs_produce _ _ _
  | .star item, h => Uses.run_ofSymbol <|
      runs_listHelper _ (runs_starItems (uses_run item h).symbol)
  | .plus item, h => Uses.run_ofSymbol <|
      runs_listHelper _ (runs_plusItems (uses_run item h).symbol)
  | .starSep item separator, h => Uses.run_ofSymbol <| runs_listHelper _ <|
      runs_starSepItems (uses_run item fun m hm => h m (List.mem_append_left _ hm)).symbol
        (uses_run separator fun m hm => h m (List.mem_append_right _ hm)).symbol item separator
  | .plusSep item separator, h => Uses.run_ofSymbol <| runs_listHelper _ <|
      runs_plusSepItems (uses_run item fun m hm => h m (List.mem_append_left _ hm)).symbol
        (uses_run separator fun m hm => h m (List.mem_append_right _ hm)).symbol separator

theorem inlineAll_runs : ∀ rs : List Rule, (∀ m ∈ Rule.mentionsOfAll rs, m.Known v rules) →
    Runs v rules (Rule.weights rs) (inlineAll rs)
  | [], _ => .pure _
  | r :: rs, h => by
    have hr := uses_run r fun m hm => h m (List.mem_append_left _ hm)
    have hrs := inlineAll_runs rs fun m hm => h m (List.mem_append_right _ hm)
    refine Runs.mono (k := r.weight + (Rule.weights rs + 0)) ?_ (by rw [Rule.weights]; omega)
    exact hr.inline.bind fun _ => hrs.bind fun _ => .pure _

theorem alternatives_run : ∀ rs : List Rule, (∀ m ∈ Rule.mentionsOfAll rs, m.Known v rules) →
    ∀ left, Runs v rules (Rule.weights rs) (alternatives left rs)
  | [], _, _ => .pure _
  | r :: rs, h, left => by
    have hr := uses_run r fun m hm => h m (List.mem_append_left _ hm)
    have hrs := alternatives_run rs (fun m hm => h m (List.mem_append_right _ hm)) left
    refine Runs.mono (k := r.weight + (1 + (0 + Rule.weights rs))) ?_ (by rw [Rule.weights]; omega)
    exact hr.inline.bind fun _ => (runs_groupAction _ _).bind fun _ =>
      (runs_produce _ _ _).bind fun _ => hrs

end

/-! ## Rules -/

theorem mentions_subset_of_mem {r : Rule} {rs : List Rule} (h : r ∈ rs) :
    r.mentions ⊆ Rule.mentionsOfAll rs := by
  induction rs with
  | nil => cases h
  | cons q rs ih =>
    rcases List.mem_cons.mp h with rfl | h
    · exact List.subset_append_left _ _
    · exact List.Subset.trans (ih h) (List.subset_append_right _ _)

theorem sum_weight (rs : List Rule) : (rs.map fun r => r.weight + 1).sum = Rule.weights rs := by
  induction rs with
  | nil => rfl
  | cons r rs ih => rw [List.map_cons, List.sum_cons, ih, Rule.weights]

theorem runs_ruleAlternatives (d : RuleDeclaration) (left : NonterminalId) {rs : List Rule}
    (h : ∀ m ∈ Rule.mentionsOfAll rs, m.Known v rules) :
    Runs v rules (Rule.weights rs) (ruleAlternatives d left rs) := by
  rw [← sum_weight]
  refine .forM fun r hr => ?_
  have huses := uses_run r fun m hm => h m (mentions_subset_of_mem hr hm)
  exact huses.inline.bind fun _ => (runs_ruleAction d _).bind fun _ => runs_produce _ _ _

/-- A declared rule runs if all that it mentions is known. -/
theorem runs_ruleProductions {d : RuleDeclaration} (h : ∀ m ∈ d.rule.mentions, m.Known v rules) :
    Runs v rules (d.rule.weight + 1) (ruleProductions d) := by
  refine Runs.mono (k := 0 + (d.rule.weight + 1)) ?_ (by omega)
  refine Runs.bind (.modify (fun s hs => ⟨hs.vocabulary, hs.names, hs.places⟩) fun _ => rfl)
    fun _ => .get_bind fun s hs => ?_
  have hone : ∀ r : Rule, (∀ m ∈ r.mentions, m.Known v rules) → ∀ left,
      Runs v rules (r.weight + 1) (ruleAlternatives d left [r]) := fun r hr left =>
    runs_ruleAlternatives d left fun m hm => hr m (by simpa [Rule.mentionsOfAll] using hm)
  cases hr : d.rule with
  | star item =>
    rw [hr] at h
    refine RunsFrom.mono (k := 1 + item.weight) ?_ (by rw [Rule.weight]; omega)
    exact ((runs_nodeKind d.name).bind fun kind =>
      runs_starItems (uses_run item h).symbol _ kind) s hs
  | plus item =>
    rw [hr] at h
    refine RunsFrom.mono (k := 1 + item.weight) ?_ (by rw [Rule.weight]; omega)
    exact ((runs_nodeKind d.name).bind fun kind =>
      runs_plusItems (uses_run item h).symbol _ kind) s hs
  | starSep item separator =>
    rw [hr] at h
    have hitem := uses_run item fun m hm => h m (List.mem_append_left _ hm)
    have hseparator := uses_run separator fun m hm => h m (List.mem_append_right _ hm)
    refine RunsFrom.mono (k := 1 + (2 * item.weight + separator.weight + 2)) ?_
      (by rw [Rule.weight]; omega)
    exact ((runs_nodeKind d.name).bind fun kind =>
      runs_starSepItems hitem.symbol hseparator.symbol item separator _ kind) s hs
  | plusSep item separator =>
    rw [hr] at h
    have hitem := uses_run item fun m hm => h m (List.mem_append_left _ hm)
    have hseparator := uses_run separator fun m hm => h m (List.mem_append_right _ hm)
    refine RunsFrom.mono (k := 1 + (item.weight + separator.weight)) ?_ (by rw [Rule.weight]; omega)
    exact ((runs_nodeKind d.name).bind fun kind =>
      runs_plusSepItems hitem.symbol hseparator.symbol separator _ kind) s hs
  | alt items =>
    rw [hr] at h
    refine RunsFrom.mono (k := Rule.weights items) ?_ (by rw [Rule.weight]; omega)
    exact runs_ruleAlternatives d _ h s hs
  | empty | keyword | symbol | ref | seq | opt =>
    rw [hr] at h
    exact hone _ h _ s hs

theorem runs_checkReferences {d : RuleDeclaration} (h : ∀ m ∈ d.rule.mentions, m.Known v rules) :
    Runs v rules 0 (checkReferences d) := by
  refine Runs.mono (k := 0 + 0) ?_ (Nat.le_refl _)
  refine Runs.bind (.modify (fun s hs => ⟨hs.vocabulary, hs.names, hs.places⟩) fun _ => rfl)
    fun _ => .get_bind fun s hs => ?_
  have hnone : (d.rule.references.find? fun name => (namedSymbol? s name).isNone) = none := by
    refine List.find?_eq_none.mpr fun name hname => ?_
    obtain ⟨m, hm, hmname⟩ := List.mem_filterMap.mp hname
    cases m with
    | keyword | symbol => cases hmname
    | ref name' =>
      cases hmname
      obtain ⟨x, hx⟩ := hs.namedSymbol? (h _ hm)
      rw [hx]
      exact Bool.false_ne_true
  rw [hnone]
  exact Or.inl ⟨_, s, rfl, hs, Nat.le_refl _⟩

theorem runs_declare (d : RuleDeclaration) : Runs v [] 2 (declare d) := by
  refine Runs.mono (k := 1 + (0 + (1 + 0))) ?_ (by omega)
  refine (runs_addNonterminal _).bind fun id => ?_
  refine Runs.bind (.modify (fun s hs => ⟨hs.vocabulary, by simp, hs.places⟩) fun _ => rfl) fun _ => ?_
  exact (runs_placeKind d.name).bind fun _ => .pure _

/-- Declaring fails only for a table that is full, too. -/
theorem declareAll_runs (hnames : rules.Pairwise fun d e => d.name ≠ e.name) :
    RunsFrom v rules (rules.map fun _ => 2).sum (initial v) (rules.forM declare) := by
  have hrun : Runs v [] _ (rules.forM declare) := .forM fun d _ => runs_declare d
  rcases hrun (initial v) ⟨rfl, by simp, by simp [initial]⟩ with ⟨a, s', hok, hs', hle⟩ | hfull
  · have hdeclared : Declared v rules s' := by simpa using (declared_initial v).forM hnames hok
    refine Or.inl ⟨a, s', hok, ⟨hs'.vocabulary, fun d hd => ?_, hs'.places⟩, hle⟩
    obtain ⟨n, hn⟩ := hdeclared.tabled.exists_rule d hd
    exact ⟨n, hdeclared.tabled.declared d n hn⟩
  · exact Or.inr hfull

/-- Lowering all rules takes what lowering each of them takes, and two entries for each name. -/
theorem all_runs_of {root : String} {cost : RuleDeclaration → Nat}
    (hnames : rules.Pairwise fun d e => d.name ≠ e.name) (hroot : ∃ d ∈ rules, d.name = root)
    (h : ∀ d ∈ rules, ∀ m ∈ d.rule.mentions, m.Known v rules)
    (hcost : ∀ d ∈ rules, Runs v rules (cost d) (ruleProductions d)) :
    RunsFrom v rules (rules.map fun d => cost d + 2).sum (initial v) (all rules root) := by
  have hsum : (rules.map fun _ => 2).sum + ((rules.map fun _ => 0).sum +
      (0 + ((rules.map cost).sum + 0))) = (rules.map fun d => cost d + 2).sum := by
    clear hnames hroot h hcost
    induction rules with
    | nil => rfl
    | cons d ds ih =>
      simp only [List.map_cons, List.sum_cons] at ih ⊢
      omega
  rw [← hsum]
  refine (declareAll_runs hnames).bind fun _ => .get_bind fun s hs => ?_
  obtain ⟨d, hd, rfl⟩ := hroot
  obtain ⟨n, hn⟩ := hs.names d hd
  rw [hn]
  have hcheck : Runs v rules _ (rules.forM checkReferences) :=
    .forM fun d hd => runs_checkReferences (h d hd)
  have hproductions : Runs v rules _ (rules.forM ruleProductions) := .forM hcost
  exact (hcheck.bind fun _ => (runs_produce _ _ _).bind fun _ =>
    hproductions.bind fun _ => .pure n) s hs

/-- **Lowering fails only for a table that is full**, where the root is declared and all that the rules
mention is known. It does not fail if the rules weigh little enough. -/
theorem all_runs {root : String} (hnames : rules.Pairwise fun d e => d.name ≠ e.name)
    (hroot : ∃ d ∈ rules, d.name = root) (h : ∀ d ∈ rules, ∀ m ∈ d.rule.mentions, m.Known v rules) :
    RunsFrom v rules (rules.map RuleDeclaration.weight).sum (initial v) (all rules root) :=
  all_runs_of hnames hroot h fun d hd => runs_ruleProductions (h d hd)

end Lower

end FourGL
