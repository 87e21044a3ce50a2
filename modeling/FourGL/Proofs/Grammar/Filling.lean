import FourGL.Proofs.Grammar.Tables

/-!
# Every nonterminal gets what is demanded

A helper that is new is filled with what its part demands. One that is found again is not filled again,
so its productions are those which the part that came first demands.

**Theorem (`uses_settled`).** The symbols that a part is lowered to stand for it, and the helpers entered
on the way have what some part with their look demands.

**Theorem (`ruleProductions_grows`).** A declared rule has what it demands.

Steps are put together along the recursion over rules.
-/

namespace FourGL

/-! ## Steps -/

namespace Lower

open Lowering (Tabled Grows)
open SymbolTable (groupOf wrapOf ruleOf alternativesOf)

variable {α : Type} {rules : List RuleDeclaration} {Part : Rule → Prop} {s s' : Lowering}
  {left : NonterminalId} {u : Unit} {r : Rule}

/-- The step enters helpers and fills them, with an outcome as described. -/
def Settles (rules : List RuleDeclaration) (Part : Rule → Prop) (m : Lower α)
    (post : SymbolTable → α → Prop) : Prop :=
  ∀ s a s', s.Tabled rules → m s = .ok (a, s') →
    s'.Tabled rules ∧ (∀ left, Grows rules Part left [] s s') ∧ post (s'.table rules) a

/-- The step gives the nonterminal further productions, as described. -/
def Fills (rules : List RuleDeclaration) (Part : Rule → Prop) (fill : NonterminalId → Lower Unit)
    (demand : SymbolTable → NonterminalId → List Entry → Prop) : Prop :=
  ∀ left s s', s.Tabled rules → left < s.nonterminals.size → fill left s = .ok ((), s') →
    s'.Tabled rules ∧ ∃ es, Grows rules Part left es s s' ∧ demand (s'.table rules) left es

theorem grows_produce {right : List Symbol} {action : TreeAction} (hs : s.Tabled rules)
    (hl : left < s.nonterminals.size) (h : produce left right action s = .ok (u, s')) :
    s'.Tabled rules ∧ Grows rules Part left [(right, action)] s s' := by
  obtain rfl := modify_ok.mp h
  refine ⟨hs.congr rfl rfl rfl rfl fun p hp => ?_, ⟨rfl, rfl, List.prefix_rfl⟩, fun n _ => ?_,
    fun n hle hlt => absurd hlt (Nat.not_lt.mpr hle)⟩
  · rcases Array.mem_push.mp hp with hp | rfl
    · exact hs.lefts p hp
    · exact hl
  · rw [Lowering.entriesOf, Lowering.entriesOf, Array.toList_push, entriesIn_append]
    refine congrArg _ ?_
    by_cases hn : n = left
    · simp [entriesIn, hn]
    · simp [entriesIn, hn, Ne.symm hn]

/-! ## Actions -/

theorem settles_nodeKind (kind : String) :
    Settles rules Part (nodeKind kind) fun _ k => k = kind := by
  intro s a s' hs h
  obtain ⟨place, s₁, hplace, h⟩ := bind_ok.mp h
  obtain ⟨kinds, places, rfl⟩ := placeKind_ok hplace
  split at h
  · obtain ⟨rfl, rfl⟩ := pure_ok.mp h
    refine ⟨hs.congr rfl rfl rfl rfl hs.lefts, fun left => ?_, rfl⟩
    exact ⟨⟨rfl, rfl, List.prefix_rfl⟩, fun n _ => by simp [Lowering.entriesOf],
      fun n hle hlt => absurd hlt (Nat.not_lt.mpr hle)⟩
  · exact absurd h throw_ok

theorem settles_pure {a : α} {post : SymbolTable → α → Prop} (h : ∀ T, post T a) :
    Settles rules Part (pure a : Lower α) post := by
  intro s b s' hs hrun
  obtain ⟨rfl, rfl⟩ := pure_ok.mp hrun
  exact ⟨hs, fun left => .refl _ _ left _, h _⟩

theorem settles_node (kind : String) :
    Settles rules Part (TreeAction.node <$> nodeKind kind) fun _ a => a = .node kind := by
  intro s a s' hs h
  rw [map_eq_pure_bind] at h
  obtain ⟨k, s₁, hkind, h⟩ := bind_ok.mp h
  obtain ⟨rfl, rfl⟩ := pure_ok.mp h
  obtain ⟨hs', hg, rfl⟩ := settles_nodeKind kind s k s₁ hs hkind
  exact ⟨hs', hg, rfl⟩

theorem settles_groupAction (right : List Symbol) (kind : String) :
    Settles rules Part (groupAction right kind) fun _ a => a = groupOf right kind := by
  match right with
  | [] => exact settles_pure fun _ => rfl
  | [_] => exact settles_pure fun _ => rfl
  | _ :: _ :: _ => exact settles_node kind

theorem settles_wrapAction (right : List Symbol) (kind : String) :
    Settles rules Part (wrapAction right kind) fun _ a => a = wrapOf right kind := by
  match right with
  | [] => exact settles_node kind
  | [_] => exact settles_pure fun _ => rfl
  | _ :: _ :: _ => exact settles_node kind

theorem settles_ruleAction (d : RuleDeclaration) (right : List Symbol) :
    Settles rules Part (ruleAction d right) fun _ a => a = ruleOf d right := by
  rw [ruleAction]
  cases ht : d.transient
  · have hnode : ruleOf d right = .node d.name := by simp [ruleOf, ht]
    rw [hnode]
    exact settles_node d.name
  · have hgroup : ruleOf d right = groupOf right d.name := by simp [ruleOf, ht]
    rw [hgroup]
    exact settles_groupAction right d.name

/-! ## Parts -/

/-- The symbols come from writing out the rule. -/
def SettlesSymbols (rules : List RuleDeclaration) (Part : Rule → Prop) (r : Rule)
    (m : Lower (List Symbol)) : Prop := Settles rules Part m fun T xs => T.Written r xs

/-- The symbol stands for the rule. -/
def SettlesSymbol (rules : List RuleDeclaration) (Part : Rule → Prop) (r : Rule)
    (m : Lower Symbol) : Prop := Settles rules Part m fun T x => T.Stands r x

/-- A rule that is written out, with the action for its symbols, becomes a production. -/
theorem grows_produceWith {sequence : Lower (List Symbol)} {action : List Symbol → Lower TreeAction}
    {f : List Symbol → TreeAction} (hseq : SettlesSymbols rules Part r sequence)
    (haction : ∀ xs, Settles rules Part (action xs) fun _ a => a = f xs) (hs : s.Tabled rules)
    (hl : left < s.nonterminals.size)
    (h : (do let xs ← sequence; produce left xs (← action xs)) s = .ok (u, s')) :
    s'.Tabled rules ∧ ∃ xs, Grows rules Part left [(xs, f xs)] s s' ∧
      (s'.table rules).Written r xs := by
  obtain ⟨xs, s₁, hxs, h⟩ := bind_ok.mp h
  obtain ⟨a, s₂, ha, h⟩ := bind_ok.mp h
  obtain ⟨hs₁, hg₁, hw⟩ := hseq s xs s₁ hs hxs
  obtain ⟨hs₂, hg₂, rfl⟩ := haction xs s₁ a s₂ hs₁ ha
  have hg := (hg₁ left).trans (hg₂ left) hl
  obtain ⟨hs', hg'⟩ := grows_produce hs₂ (hl.trans_le hg.size_le) h
  exact ⟨hs', xs, hg.trans hg' hl, (hw.mono (hg₂ left).table).mono hg'.table⟩

/-- **Helpers.** A helper that is new is filled; one that is found has been. -/
theorem settles_helper {fill : NonterminalId → Lower Unit} (hr : Part r) (hatom : r.isAtom = false)
    (hfill : Fills rules Part fill fun T n es => T.Demands n r es) :
    SettlesSymbol rules Part r (helper r.render fill) := by
  intro s a s' hs h
  obtain ⟨t, _, ht, h⟩ := bind_ok.mp h
  obtain ⟨rfl, rfl⟩ := get_ok.mp ht
  cases hid : s.helpers[r.render]? with
  | some id =>
    rw [hid] at h
    obtain ⟨rfl, rfl⟩ := pure_ok.mp h
    exact ⟨hs, fun left => .refl _ _ left _, .helper hatom ((hs.helpers _ _).mp hid)⟩
  | none =>
    rw [hid] at h
    obtain ⟨id, s₁, hadd, h⟩ := bind_ok.mp h
    obtain ⟨rfl, rfl⟩ := addNonterminal_ok hadd
    obtain ⟨_, s₂, hmod, h⟩ := bind_ok.mp h
    obtain rfl := modify_ok.mp hmod
    obtain ⟨_, s₃, hrun, h⟩ := bind_ok.mp h
    obtain ⟨rfl, rfl⟩ := pure_ok.mp h
    obtain ⟨hs', es, hg, hdemands⟩ :=
      hfill s.nonterminals.size (s.enter r.render) s₃ (hs.enter hid) (by simp [Lowering.enter]) hrun
    exact ⟨hs', Grows.of_enter hs hr hatom hg hdemands,
      .helper hatom ((hs.isHelper_enter r.render).mono hg.table)⟩

theorem settles_sequenceHelper {sequence : Lower (List Symbol)} (hr : Part r)
    (hspliced : r.isSpliced = true) (hseq : SettlesSymbols rules Part r sequence) :
    SettlesSymbol rules Part r (sequenceHelper r sequence) := by
  refine settles_helper hr (by cases r <;> first | rfl | cases hspliced) fun left s s' hs hl h => ?_
  obtain ⟨hs', xs, hg, hw⟩ :=
    grows_produceWith hseq (fun xs => settles_wrapAction xs r.render) hs hl h
  exact ⟨hs', _, hg, .sequence hspliced hw⟩

theorem settles_optionHelper {item : Rule} {sequence : Lower (List Symbol)} (hr : Part (.opt item))
    (hseq : SettlesSymbols rules Part item sequence) :
    SettlesSymbol rules Part (.opt item) (optionHelper (.opt item) item sequence) := by
  refine settles_helper hr rfl fun left s s' hs hl h => ?_
  obtain ⟨xs, s₁, hxs, h⟩ := bind_ok.mp h
  obtain ⟨a, s₂, ha, h⟩ := bind_ok.mp h
  obtain ⟨_, s₃, hprod, h⟩ := bind_ok.mp h
  obtain ⟨hs₁, hg₁, hw⟩ := hseq s xs s₁ hs hxs
  obtain ⟨hs₂, hg₂, hact⟩ := settles_wrapAction xs item.render s₁ a s₂ hs₁ ha
  rw [hact] at hprod
  have hg := (hg₁ left).trans (hg₂ left) hl
  obtain ⟨hs₃, hg₃⟩ := grows_produce hs₂ (hl.trans_le hg.size_le) hprod
  have hg' := hg.trans hg₃ hl
  obtain ⟨hs', hg₄⟩ := grows_produce hs₃ (hl.trans_le hg'.size_le) h
  refine ⟨hs', _, hg'.trans hg₄ hl, .opt ?_⟩
  exact ((hw.mono (hg₂ left).table).mono hg₃.table).mono hg₄.table

theorem settles_listHelper {fill : NonterminalId → String → Lower Unit} (hr : Part r)
    (hatom : r.isAtom = false)
    (hfill : ∀ kind, Fills rules Part (fill · kind) fun T n es => T.Repeats n kind r es) :
    SettlesSymbol rules Part r (listHelper r fill) := by
  refine settles_helper hr hatom fun left s s' hs hl h => ?_
  obtain ⟨kind, s₁, hkind, h⟩ := bind_ok.mp h
  obtain ⟨hs₁, hg₁, rfl⟩ := settles_nodeKind r.render s kind s₁ hs hkind
  obtain ⟨hs', es, hg, hrepeats⟩ :=
    hfill r.render left s₁ s' hs₁ (hl.trans_le (hg₁ left).size_le) h
  exact ⟨hs', _, (hg₁ left).trans hg hl, .list hrepeats⟩

variable {item separator : Rule} {itemSymbol separatorSymbol : Lower Symbol}

theorem fills_starItems (hitem : SettlesSymbol rules Part item itemSymbol) (kind : String) :
    Fills rules Part (starItems itemSymbol · kind) fun T n es => T.Repeats n kind (.star item) es := by
  intro left s s' hs hl h
  obtain ⟨x, s₁, hx, h⟩ := bind_ok.mp h
  obtain ⟨_, s₂, hempty, h⟩ := bind_ok.mp h
  obtain ⟨hs₁, hg₁, hst⟩ := hitem s x s₁ hs hx
  obtain ⟨hs₂, hg₂⟩ := grows_produce hs₁ (hl.trans_le (hg₁ left).size_le) hempty
  have hg := (hg₁ left).trans hg₂ hl
  obtain ⟨hs', hg'⟩ := grows_produce hs₂ (hl.trans_le hg.size_le) h
  exact ⟨hs', _, hg.trans hg' hl, .star ((hst.mono hg₂.table).mono hg'.table)⟩

theorem fills_plusItems (hitem : SettlesSymbol rules Part item itemSymbol) (kind : String) :
    Fills rules Part (plusItems itemSymbol · kind) fun T n es => T.Repeats n kind (.plus item) es := by
  intro left s s' hs hl h
  obtain ⟨x, s₁, hx, h⟩ := bind_ok.mp h
  obtain ⟨_, s₂, hone, h⟩ := bind_ok.mp h
  obtain ⟨hs₁, hg₁, hst⟩ := hitem s x s₁ hs hx
  obtain ⟨hs₂, hg₂⟩ := grows_produce hs₁ (hl.trans_le (hg₁ left).size_le) hone
  have hg := (hg₁ left).trans hg₂ hl
  obtain ⟨hs', hg'⟩ := grows_produce hs₂ (hl.trans_le hg.size_le) h
  exact ⟨hs', _, hg.trans hg' hl, .plus ((hst.mono hg₂.table).mono hg'.table)⟩

theorem fills_plusSepItems (hitem : SettlesSymbol rules Part item itemSymbol)
    (hseparator : SettlesSymbol rules Part separator separatorSymbol) (kind : String) :
    Fills rules Part (plusSepItems itemSymbol separatorSymbol separator · kind) fun T n es =>
      T.Repeats n kind (.plusSep item separator) es := by
  intro left s s' hs hl h
  obtain ⟨x, s₁, hx, h⟩ := bind_ok.mp h
  obtain ⟨_, s₂, hone, h⟩ := bind_ok.mp h
  obtain ⟨y, s₃, hy, h⟩ := bind_ok.mp h
  obtain ⟨_, _, hget, h⟩ := bind_ok.mp h
  obtain ⟨rfl, rfl⟩ := get_ok.mp hget
  obtain ⟨hs₁, hg₁, hstx⟩ := hitem s x s₁ hs hx
  obtain ⟨hs₂, hg₂⟩ := grows_produce hs₁ (hl.trans_le (hg₁ left).size_le) hone
  obtain ⟨hs₃, hg₃, hsty⟩ := hseparator s₂ y s₃ hs₂ hy
  have hg := ((hg₁ left).trans hg₂ hl).trans (hg₃ left) hl
  obtain ⟨hs', hg'⟩ := grows_produce hs₃ (hl.trans_le hg.size_le) h
  refine ⟨hs', _, hg.trans hg' hl, ?_⟩
  have hvocabulary : (s'.table rules).vocabulary = s₃.vocabulary := hg'.table.vocabulary
  rw [← hvocabulary]
  exact .plusSep (((hstx.mono hg₂.table).mono (hg₃ left).table).mono hg'.table)
    (hsty.mono hg'.table)

theorem fills_starSepItems (hitem : SettlesSymbol rules Part item itemSymbol)
    (hseparator : SettlesSymbol rules Part separator separatorSymbol)
    (hr : Part (.plusSep item separator)) (kind : String) :
    Fills rules Part (starSepItems itemSymbol separatorSymbol item separator · kind) fun T n es =>
      T.Repeats n kind (.starSep item separator) es := by
  intro left s s' hs hl h
  obtain ⟨x, s₁, hx, h⟩ := bind_ok.mp h
  obtain ⟨_, s₂, hempty, h⟩ := bind_ok.mp h
  obtain ⟨y, s₃, hlist, h⟩ := bind_ok.mp h
  obtain ⟨hs₁, hg₁, -⟩ := hitem s x s₁ hs hx
  obtain ⟨hs₂, hg₂⟩ := grows_produce hs₁ (hl.trans_le (hg₁ left).size_le) hempty
  obtain ⟨hs₃, hg₃, hst⟩ :=
    settles_listHelper hr rfl (fills_plusSepItems hitem hseparator) s₂ y s₃ hs₂ hlist
  have hg := ((hg₁ left).trans hg₂ hl).trans (hg₃ left) hl
  obtain ⟨hs', hg'⟩ := grows_produce hs₃ (hl.trans_le hg.size_le) h
  exact ⟨hs', _, hg.trans hg' hl, .starSep (hst.mono hg'.table)⟩

/-! ## Rules -/

/-- Both uses of a rule are as they should be. Written out, a sequence is no part of its own. -/
structure Uses.Settled (rules : List RuleDeclaration) (Part : Rule → Prop) (r : Rule) (u : Uses) :
    Prop where
  inline : (r.isSpliced = false → Part r) → SettlesSymbols rules Part r u.inline
  symbol : Part r → SettlesSymbol rules Part r u.symbol

theorem Uses.Settled.written {v : Uses} {l : List Rule} (h : v.Settled rules Part r)
    (hparts : ∀ p ∈ r.spliced l, Part p) : SettlesSymbols rules Part r v.inline :=
  h.inline fun hspliced => hparts r (Rule.mem_spliced.mpr (Or.inl ⟨hspliced, rfl⟩))

theorem Uses.settled_ofSymbol {symbol : Lower Symbol} (hspliced : r.isSpliced = false)
    (h : Part r → SettlesSymbol rules Part r symbol) :
    (Uses.ofSymbol symbol).Settled rules Part r := by
  refine ⟨fun hr s xs s' hs hrun => ?_, h⟩
  obtain ⟨x, s₁, hx, hrun⟩ := bind_ok.mp hrun
  obtain ⟨rfl, rfl⟩ := pure_ok.mp hrun
  obtain ⟨hs', hg, hst⟩ := h (hr hspliced) s x s₁ hs hx
  exact ⟨hs', hg, .part hspliced hst⟩

theorem Uses.settled_ofSequence {sequence : Lower (List Symbol)} (hspliced : r.isSpliced = true)
    (h : SettlesSymbols rules Part r sequence) : (Uses.ofSequence r sequence).Settled rules Part r :=
  ⟨fun _ => h, fun hr => settles_sequenceHelper hr hspliced h⟩

theorem settles_found {name : String} {symbol : Lowering → Option Symbol}
    (hsymbol : ∀ s x, s.Tabled rules → symbol s = some x → (s.table rules).Stands r x) :
    SettlesSymbol rules Part r (do found name (symbol (← get))) := by
  intro s x s' hs h
  obtain ⟨t, _, ht, h⟩ := bind_ok.mp h
  obtain ⟨rfl, rfl⟩ := get_ok.mp ht
  cases hx : symbol s with
  | some y =>
    rw [hx] at h
    obtain ⟨rfl, rfl⟩ := pure_ok.mp h
    exact ⟨hs, fun left => .refl _ _ left _, hsymbol s y hs hx⟩
  | none =>
    rw [hx] at h
    exact absurd h undefinedSymbol_ok

/-- A name stands for the rule that is declared, or else for a class of tokens, unless a helper looks
like it. -/
theorem stands_namedSymbol (hs : s.Tabled rules) {name : String} {x : Symbol}
    (h : namedSymbol? s name = some x) : (s.table rules).Stands (.ref name) x := by
  simp only [namedSymbol?] at h
  by_cases hd : (s.table rules).Declares name
  · obtain ⟨d, hmem, rfl⟩ := hd
    obtain ⟨n, hn⟩ := hs.exists_rule d hmem
    rw [hs.declared d n hn] at h
    cases h
    exact .rule hn
  · split at h
    · next n hn =>
      cases h
      exact .shadow hd ((hs.names name n hn).resolve_left hd)
    · obtain ⟨t, ht, rfl⟩ := Option.map_eq_some_iff.mp h
      exact .tokenClass hd ht

/-- The symbols of an item and its separator. -/
theorem symbols_settle
    (hitem : (∀ p ∈ item.inner, Part p) → (uses item).Settled rules Part item)
    (hseparator : (∀ p ∈ separator.inner, Part p) → (uses separator).Settled rules Part separator)
    (h : ∀ p ∈ (Rule.plusSep item separator).inner, Part p) :
    SettlesSymbol rules Part item (uses item).symbol ∧
      SettlesSymbol rules Part separator (uses separator).symbol := by
  have hleft : ∀ p ∈ item :: item.inner, Part p := fun p hp => h p (List.mem_append_left _ hp)
  have hright : ∀ p ∈ separator :: separator.inner, Part p := fun p hp =>
    h p (List.mem_append_right _ hp)
  exact ⟨(hitem fun p hp => hleft p (List.mem_cons_of_mem _ hp)).symbol (hleft _ List.mem_cons_self),
    (hseparator fun p hp => hright p (List.mem_cons_of_mem _ hp)).symbol
      (hright _ List.mem_cons_self)⟩

mutual

/-- **Parts are lowered as they demand.** -/
theorem uses_settled : ∀ r : Rule, (∀ p ∈ r.inner, Part p) → (uses r).Settled rules Part r
  | .empty, _ => Uses.settled_ofSequence rfl (settles_pure fun _ => .empty)
  | .seq items, h => Uses.settled_ofSequence rfl (inlineAll_settles items h)
  | .keyword text, _ => Uses.settled_ofSymbol rfl fun _ => settles_found fun s x _ hx => by
      obtain ⟨t, ht, rfl⟩ := Option.map_eq_some_iff.mp hx
      exact .keyword ht
  | .symbol text, _ => Uses.settled_ofSymbol rfl fun _ => settles_found fun s x _ hx => by
      obtain ⟨t, ht, rfl⟩ := Option.map_eq_some_iff.mp hx
      exact .symbol ht
  | .ref name, _ =>
    Uses.settled_ofSymbol rfl fun _ => settles_found fun s x hs hx => stands_namedSymbol hs hx
  | .alt items, h => Uses.settled_ofSymbol rfl fun hr =>
      settles_helper hr rfl fun left s s' hs hl hrun => by
        obtain ⟨hs', es, hg, hall⟩ := alternatives_fills items h left s s' hs hl hrun
        exact ⟨hs', es, hg, .alt hall⟩
  | .opt item, h => Uses.settled_ofSymbol rfl fun hr =>
      settles_optionHelper hr ((uses_settled item fun p hp => h p (Rule.subset_spliced hp)).written h)
  | .star item, h => Uses.settled_ofSymbol rfl fun hr => settles_listHelper hr rfl <|
      fills_starItems ((uses_settled item fun p hp => h p (List.mem_cons_of_mem _ hp)).symbol
        (h item List.mem_cons_self))
  | .plus item, h => Uses.settled_ofSymbol rfl fun hr => settles_listHelper hr rfl <|
      fills_plusItems ((uses_settled item fun p hp => h p (List.mem_cons_of_mem _ hp)).symbol
        (h item List.mem_cons_self))
  | .plusSep item separator, h => Uses.settled_ofSymbol rfl fun hr => by
      obtain ⟨hitem, hseparator⟩ := symbols_settle (uses_settled item) (uses_settled separator) h
      exact settles_listHelper hr rfl (fills_plusSepItems hitem hseparator)
  | .starSep item separator, h => Uses.settled_ofSymbol rfl fun hr => by
      obtain ⟨hitem, hseparator⟩ :=
        symbols_settle (uses_settled item) (uses_settled separator) fun p hp =>
          h p (List.mem_cons_of_mem _ hp)
      exact settles_listHelper hr rfl
        (fills_starSepItems hitem hseparator (h _ List.mem_cons_self))

theorem inlineAll_settles : ∀ rs : List Rule, (∀ p ∈ Rule.innerEach rs, Part p) →
    SettlesSymbols rules Part (.seq rs) (inlineAll rs)
  | [], _ => settles_pure fun _ => .nil
  | r :: rs, h => by
    intro s zs s' hs hrun
    obtain ⟨xs, s₁, hxs, hrun⟩ := bind_ok.mp hrun
    obtain ⟨ys, s₂, hys, hrun⟩ := bind_ok.mp hrun
    obtain ⟨rfl, rfl⟩ := pure_ok.mp hrun
    have hparts : ∀ p ∈ r.spliced r.inner, Part p := fun p hp => h p (List.mem_append_left _ hp)
    have hfirst : SettlesSymbols rules Part r (uses r).inline :=
      (uses_settled r fun p hp => hparts p (Rule.subset_spliced hp)).written hparts
    obtain ⟨hs₁, hg₁, hw₁⟩ := hfirst s xs s₁ hs hxs
    obtain ⟨hs₂, hg₂, hw₂⟩ :=
      inlineAll_settles rs (fun p hp => h p (List.mem_append_right _ hp)) s₁ ys s₂ hs₁ hys
    exact ⟨hs₂, Grows.trans_nil hs hg₁ hg₂, .cons (hw₁.mono (hg₂ Grammar.start).table) hw₂⟩

theorem alternatives_fills : ∀ rs : List Rule, (∀ p ∈ Rule.innerEach rs, Part p) →
    Fills rules Part (alternatives · rs) fun T _ es =>
      List.Forall₂ (fun r e => T.Written r e.1 ∧ e.2 = groupOf e.1 r.render) rs es
  | [], _ => by
    intro left s s' hs _ hrun
    obtain ⟨-, rfl⟩ := pure_ok.mp hrun
    exact ⟨hs, [], .refl _ _ left _, .nil⟩
  | r :: rs, h => by
    intro left s s' hs hl hrun
    obtain ⟨xs, s₁, hxs, hrun⟩ := bind_ok.mp hrun
    obtain ⟨a, s₂, ha, hrun⟩ := bind_ok.mp hrun
    obtain ⟨_, s₃, hprod, hrun⟩ := bind_ok.mp hrun
    have hparts : ∀ p ∈ r.spliced r.inner, Part p := fun p hp => h p (List.mem_append_left _ hp)
    have hfirst : SettlesSymbols rules Part r (uses r).inline :=
      (uses_settled r fun p hp => hparts p (Rule.subset_spliced hp)).written hparts
    obtain ⟨hs₁, hg₁, hw⟩ := hfirst s xs s₁ hs hxs
    obtain ⟨hs₂, hg₂, hact⟩ := settles_groupAction xs r.render s₁ a s₂ hs₁ ha
    have hg := (hg₁ left).trans (hg₂ left) hl
    obtain ⟨hs₃, hg₃⟩ := grows_produce hs₂ (hl.trans_le hg.size_le) hprod
    have hg' := hg.trans hg₃ hl
    obtain ⟨hs', es, hg₄, hall⟩ := alternatives_fills rs
      (fun p hp => h p (List.mem_append_right _ hp)) left s₃ s' hs₃ (hl.trans_le hg'.size_le) hrun
    refine ⟨hs', _, hg'.trans hg₄ hl, .cons ⟨?_, hact⟩ hall⟩
    exact ((hw.mono (hg₂ left).table).mono hg₃.table).mono hg₄.table

end

theorem ruleAlternatives_fills (d : RuleDeclaration) :
    ∀ rs : List Rule, (∀ p ∈ Rule.innerEach rs, Part p) →
      Fills rules Part (ruleAlternatives d · rs) fun T _ es =>
        List.Forall₂ (fun r e => T.Written r e.1 ∧ e.2 = ruleOf d e.1) rs es
  | [], _ => by
    intro left s s' hs _ hrun
    obtain ⟨-, rfl⟩ := pure_ok.mp hrun
    exact ⟨hs, [], .refl _ _ left _, .nil⟩
  | r :: rs, h => by
    intro left s s' hs hl hrun
    obtain ⟨_, s₁, hone, hrun⟩ := bind_ok.mp hrun
    have hparts : ∀ p ∈ r.spliced r.inner, Part p := fun p hp => h p (List.mem_append_left _ hp)
    have hfirst : SettlesSymbols rules Part r (uses r).inline :=
      (uses_settled r fun p hp => hparts p (Rule.subset_spliced hp)).written hparts
    obtain ⟨hs₁, xs, hg, hw⟩ := grows_produceWith hfirst (settles_ruleAction d) hs hl hone
    obtain ⟨hs', es, hg', hall⟩ := ruleAlternatives_fills d rs
      (fun p hp => h p (List.mem_append_right _ hp)) left s₁ s' hs₁ (hl.trans_le hg.size_le) hrun
    exact ⟨hs', _, hg.trans hg' hl, .cons ⟨hw.mono hg'.table, rfl⟩ hall⟩

/-- A repetition that is a whole rule is filled like a helper of its own. -/
theorem fills_namedList {fill : NonterminalId → String → Lower Unit} (name : String)
    (hfill : ∀ kind, Fills rules Part (fill · kind) fun T n es => T.Repeats n kind r es) :
    Fills rules Part (fun left => do fill left (← nodeKind name)) fun T n es =>
      T.Repeats n name r es := by
  intro left s s' hs hl h
  obtain ⟨kind, s₁, hkind, h⟩ := bind_ok.mp h
  obtain ⟨hs₁, hg₁, hname⟩ := settles_nodeKind name s kind s₁ hs hkind
  rw [hname] at h
  obtain ⟨hs', es, hg, hrepeats⟩ := hfill name left s₁ s' hs₁ (hl.trans_le (hg₁ left).size_le) h
  exact ⟨hs', _, (hg₁ left).trans hg hl, hrepeats⟩

/-- **Declared rules are lowered as they demand.** -/
theorem ruleProductions_grows {d : RuleDeclaration} (hs : s.Tabled rules) (hd : d ∈ rules)
    (hparts : ∀ p ∈ d.rule.parts, Part p) (h : ruleProductions d s = .ok (u, s')) :
    s'.Tabled rules ∧ ∃ n es, (s.table rules).IsRule d n ∧ Grows rules Part n es s s' ∧
      (s'.table rules).RuleDemands d n es := by
  obtain ⟨_, s₁, hmod, h⟩ := bind_ok.mp h
  obtain rfl := modify_ok.mp hmod
  obtain ⟨t, _, ht, h⟩ := bind_ok.mp h
  obtain ⟨rfl, rfl⟩ := get_ok.mp ht
  obtain ⟨n, hn⟩ := hs.exists_rule d hd
  have hs₁ : Tabled rules { s with rule := d.name } := hs.congr rfl rfl rfl rfl hs.lefts
  have hname : s.names.getD d.name 0 = n := by
    rw [Std.TreeMap.getD_eq_getD_getElem?, hs.declared d n hn, Option.getD_some]
  have hl : n < s.nonterminals.size := (Array.getElem?_eq_some_iff.mp hn.2).1
  rw [show ({ s with rule := d.name } : Lowering).names = s.names from rfl, hname] at h
  have hfill : ∀ fill : NonterminalId → Lower Unit,
      (Fills rules Part fill fun T m es => T.RuleDemands d m es) →
      fill n { s with rule := d.name } = .ok (u, s') → s'.Tabled rules ∧ ∃ n es,
        (s.table rules).IsRule d n ∧ Grows rules Part n es s s' ∧
          (s'.table rules).RuleDemands d n es := fun fill hfill hrun => by
    obtain ⟨hs', es, hg, hdemands⟩ := hfill n _ _ hs₁ hl hrun
    exact ⟨hs', n, es, hn, ⟨hg.table, hg.old, hg.fresh⟩, hdemands⟩
  have hlist : ∀ fill : NonterminalId → String → Lower Unit,
      (∀ kind, Fills rules Part (fill · kind) fun T m es => T.Repeats m kind d.rule es) →
      Fills rules Part (fun left => do fill left (← nodeKind d.name)) fun T m es =>
        T.RuleDemands d m es := fun fill hfill left s s' hs hl hrun => by
    obtain ⟨hs', es, hg, hrepeats⟩ := fills_namedList d.name hfill left s s' hs hl hrun
    exact ⟨hs', es, hg, .list hrepeats⟩
  have halternatives : d.rule.isList = false →
      (∀ p ∈ Rule.innerEach (alternativesOf d.rule), Part p) →
      Fills rules Part (ruleAlternatives d · (alternativesOf d.rule)) fun T m es =>
        T.RuleDemands d m es := fun hnot hinner left s s' hs hl hrun => by
    obtain ⟨hs', es, hg, hall⟩ := ruleAlternatives_fills d _ hinner left s s' hs hl hrun
    exact ⟨hs', es, hg, .alternatives hnot hall⟩
  cases hr : d.rule with
  | star item =>
    rw [hr] at h hparts hlist
    have hitem : (uses item).Settled rules Part item :=
      uses_settled item fun p hp => hparts p (List.mem_cons_of_mem _ hp)
    exact hfill _ (hlist _ (fills_starItems (hitem.symbol (hparts item List.mem_cons_self)))) h
  | plus item =>
    rw [hr] at h hparts hlist
    have hitem : (uses item).Settled rules Part item :=
      uses_settled item fun p hp => hparts p (List.mem_cons_of_mem _ hp)
    exact hfill _ (hlist _ (fills_plusItems (hitem.symbol (hparts item List.mem_cons_self)))) h
  | plusSep item separator =>
    rw [hr] at h hparts hlist
    obtain ⟨hitem, hseparator⟩ := symbols_settle (uses_settled item) (uses_settled separator) hparts
    exact hfill _ (hlist _ (fills_plusSepItems hitem hseparator)) h
  | starSep item separator =>
    rw [hr] at h hparts hlist
    obtain ⟨hitem, hseparator⟩ := symbols_settle (uses_settled item) (uses_settled separator)
      fun p hp => hparts p (List.mem_cons_of_mem _ hp)
    exact hfill _ (hlist _ (fills_starSepItems hitem hseparator
      (hparts _ List.mem_cons_self))) h
  | alt items =>
    rw [hr] at h hparts halternatives
    exact hfill _ (halternatives rfl hparts) h
  | empty | keyword | symbol | ref | seq | opt =>
    rw [hr] at h hparts halternatives
    refine hfill _ (halternatives rfl fun p hp => hparts p ?_) h
    simpa [alternativesOf, Rule.innerEach, Rule.spliced, Rule.isSpliced, Rule.parts] using hp

end Lower

end FourGL
