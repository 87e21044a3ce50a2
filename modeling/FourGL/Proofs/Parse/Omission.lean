import FourGL.Proofs.Editor.Documents
import FourGL.Proofs.Grammar.Widths
import FourGL.Proofs.Parse.Endless
import FourGL.Proofs.Parse.Shape

/-!
# Texts without tokens

Where the root rule is a sequence of optional parts, a text may have no token at all. Then the machine
makes one empty reduction after the other, up to that of the root. Nothing else is complete on the way,
as long as the parts begin with a token where they are not empty.

That is told by the first symbols of right-hand sides. A set of nonterminals is *firm* if all right-hand
sides of its members begin with a terminal or with a member. An *optional* nonterminal has an empty
right-hand side, and what else it has is firm in front, or repeats the nonterminal and is firm behind it.

**Theorem (`exists_root_of_hollow`).** If the root has one production, and all symbols of it are optional,
then every text without tokens has a tree.

**Theorem (`isHollow_of_omits`).** That is the case if the root rule is a sequence of options and lists,
and what they are made of begins with a literal.
-/

namespace FourGL

namespace Grammar

open FourGL.Language

variable {g : Grammar} {ns : NonterminalId → Prop} {P : Production} {n : NonterminalId}
  {p : ProductionId} {i : Item} {s s' : StateId} {d k : Nat} {β : List Symbol}
  {f : Nat → TerminalId} {kind : String}

/-! ## Firm and optional nonterminals -/

/-- The symbols begin with a terminal or with a nonterminal of the set. -/
def Begins (ns : NonterminalId → Prop) : List Symbol → Prop
  | [] => False
  | .terminal _ :: _ => True
  | .nonterminal n :: _ => ns n

/-- The right-hand sides of all members begin with a terminal or with a member. -/
def IsFirm (g : Grammar) (ns : NonterminalId → Prop) : Prop :=
  ∀ p < g.productions.size, ns (g.production p).left → Begins ns (g.production p).right

/-- The nonterminal may be empty, and is firm in front if it is not; it may also repeat itself. -/
structure IsOptional (g : Grammar) (ns : NonterminalId → Prop) (n : NonterminalId) : Prop where
  empty : ∃ p < g.productions.size, (g.production p).left = n ∧ (g.production p).right = []
  right : ∀ p < g.productions.size, (g.production p).left = n → (g.production p).right = [] ∨
    Begins ns (g.production p).right ∨ ∃ β, (g.production p).right = .nonterminal n :: β ∧ Begins ns β

/-- The root has one production, and all symbols of it are optional. -/
structure IsHollow (g : Grammar) (ns : NonterminalId → Prop) (P : Production) : Prop where
  firm : g.IsFirm ns
  left : P.left = g.root
  exists_production : ∃ p < g.productions.size, g.production p = P
  unique : ∀ p < g.productions.size, (g.production p).left = g.root → g.production p = P
  optional : ∀ x ∈ P.right, ∃ n, x = .nonterminal n ∧ g.IsOptional ns n
  short : P.right.length ≤ maxIndex

theorem begins_of_next (h : Begins ns (g.rest i)) (hx : g.nextSymbol? i = some (.nonterminal n)) :
    ns n := by
  obtain ⟨β, hβ⟩ := exists_rest hx
  rwa [hβ] at h

/-- An optional nonterminal is not firm. -/
theorem IsOptional.not_mem (h : g.IsOptional ns n) (hfirm : g.IsFirm ns) : ¬ ns n := fun hn => by
  obtain ⟨p, hp, rfl, hright⟩ := h.empty
  have hbegins := hfirm p hp hn
  rwa [hright] at hbegins

theorem exists_yields_nil (h : ∀ x ∈ β, ∃ n, x = .nonterminal n ∧ g.IsOptional ns n) :
    ∃ k, g.Yields β [] k := by
  induction β with
  | nil => exact ⟨0, .nil⟩
  | cons x β ih =>
    obtain ⟨n, rfl, hn⟩ := h x List.mem_cons_self
    obtain ⟨p, hp, hleft, hright⟩ := hn.empty
    obtain ⟨k, hk⟩ := ih fun y hy => h y (List.mem_cons_of_mem _ hy)
    have hnil : g.Yields (g.production p).right [] 0 := by
      rw [hright]
      exact .nil
    exact ⟨_, .nonterminal hp hleft hnil hk⟩

theorem IsHollow.optional_of_getElem? (h : g.IsHollow ns P)
    (hx : P.right[d]? = some (.nonterminal n)) : g.IsOptional ns n := by
  obtain ⟨m, heq, hm⟩ := h.optional _ (List.mem_of_getElem? hx)
  cases heq
  exact hm

/-- The root itself is not optional if there is something in its production. -/
theorem IsHollow.ne_root (h : g.IsHollow ns P) (hx : P.right[d]? = some (.nonterminal n)) :
    n ≠ g.root := by
  rintro rfl
  obtain ⟨p, hp, hleft, hright⟩ := (h.optional_of_getElem? hx).empty
  rw [h.unique p hp hleft] at hright
  rw [hright] at hx
  cases hx

/-! ## What is on the way -/

/-- What there is in a state behind the first symbols of the root's production: the first item if there are
none, the production at that position, what is firm in front, and the productions of the nonterminal that
is next. -/
inductive OnWay (g : Grammar) (ns : NonterminalId → Prop) (P : Production) (d : Nat) : Item → Prop
  | first : d = 0 → OnWay g ns P d (.initial startProduction)
  | host {i : Item} : g.production i.production = P → i.dot = d → OnWay g ns P d i
  | firm {i : Item} : Begins ns (g.rest i) → OnWay g ns P d i
  | next {p : ProductionId} : p < g.productions.size →
      P.right[d]? = some (.nonterminal (g.production p).left) → OnWay g ns P d (.initial p)

theorem nextSymbol?_of_host (hP : g.production i.production = P) (hdot : i.dot = d) :
    g.nextSymbol? i = P.right[d]? := by
  rw [nextSymbol?_eq_getElem?, hP, hdot]

/-- Productions that are started are on the way as well. -/
theorem IsHollow.started (h : g.IsHollow ns P) (wf : g.WellFormed) (hi : g.OnWay ns P d i)
    (hp : p < g.productions.size) (hx : g.nextSymbol? i = some (.nonterminal (g.production p).left)) :
    g.OnWay ns P d (.initial p) := by
  cases hi with
  | first hd =>
    rw [wf.next_first] at hx
    have hroot := Symbol.nonterminal.inj (Option.some.inj hx)
    exact .host (h.unique p hp hroot.symm) hd.symm
  | host hP hdot => exact .next hp (nextSymbol?_of_host hP hdot ▸ hx)
  | firm hbegins => exact .firm (h.firm p hp (begins_of_next hbegins hx))
  | @next q hq hd =>
    rw [nextSymbol?_initial] at hx
    rcases (h.optional_of_getElem? hd).right q hq rfl with hright | hbegins | ⟨β, hright, -⟩
    · rw [hright] at hx
      cases hx
    · exact .firm (h.firm p hp (begins_of_next (i := .initial q) hbegins hx))
    · rw [hright] at hx
      have hleft := Option.some.inj hx
      exact .next hp (hleft ▸ hd)

/-- Behind the next symbol, everything is on the way again. -/
theorem IsHollow.advanced (h : g.IsHollow ns P) (wf : g.WellFormed)
    (hd : P.right[d]? = some (.nonterminal n)) (hi : g.OnWay ns P d i)
    (hx : g.nextSymbol? i = some (.nonterminal n)) : g.OnWay ns P (d + 1) i.advance := by
  have hoptional := h.optional_of_getElem? hd
  cases hi with
  | first _ =>
    rw [wf.next_first] at hx
    cases hx
    exact absurd rfl (h.ne_root hd)
  | host hP hdot =>
    have hlt : i.dot < maxIndex := by
      rw [hdot]
      exact (List.getElem?_eq_some_iff.mp hd).1.trans_le h.short
    rw [Item.advance_of_lt hlt]
    exact .host hP (congrArg (· + 1) hdot)
  | firm hbegins => exact absurd (begins_of_next hbegins hx) (hoptional.not_mem h.firm)
  | @next q hq hd' =>
    obtain rfl : (g.production q).left = n := Symbol.nonterminal.inj (Option.some.inj (hd'.symm.trans hd))
    rcases hoptional.right q hq rfl with hright | hbegins | ⟨β, hright, hβ⟩
    · rw [nextSymbol?_initial, hright] at hx
      cases hx
    · exact absurd (begins_of_next (i := .initial q) hbegins hx) (hoptional.not_mem h.firm)
    · refine .firm ?_
      rwa [rest_advance (Nat.zero_lt_succ _) (rest_initial.trans hright)]

/-- What is complete is the production itself, or an empty one of the nonterminal that is next. -/
theorem OnWay.complete (hi : g.OnWay ns P d i) (wf : g.WellFormed) (hrest : g.rest i = []) :
    g.production i.production = P ∧ P.right.length ≤ d ∨
      P.right[d]? = some (.nonterminal (g.production i.production).left) ∧
        (g.production i.production).right = [] := by
  cases hi with
  | first _ =>
    rw [wf.rest_first] at hrest
    cases hrest
  | host hP hdot =>
    refine Or.inl ⟨hP, ?_⟩
    rw [← hP, ← hdot]
    exact List.drop_eq_nil_iff.mp hrest
  | firm hbegins =>
    rw [hrest] at hbegins
    exact hbegins.elim
  | next _ hd => exact Or.inr ⟨hd, hrest⟩

theorem IsHollow.onWay_start (h : g.IsHollow ns P) (wf : g.WellFormed) :
    ∀ i ∈ g.itemsOf Automaton.start, g.OnWay ns P 0 i := by
  refine wf.itemsOf_induction (fun i hi => ?_) fun i _ hi p hp => h.started wf hi hp
  rw [wf.kernelOf_start, List.mem_singleton] at hi
  exact hi ▸ .first rfl

theorem IsHollow.onWay_goto (h : g.IsHollow ns P) (wf : g.WellFormed)
    (hs : ∀ i ∈ g.itemsOf s, g.OnWay ns P d i) (hd : P.right[d]? = some (.nonterminal n))
    (hgoto : g.goto? s (.nonterminal n) = some s') : ∀ i ∈ g.itemsOf s', g.OnWay ns P (d + 1) i := by
  refine wf.itemsOf_induction (fun i hi => ?_) fun i _ hi p hp => h.started wf hi hp
  obtain ⟨j, hj, hx, rfl⟩ := (wf.mem_kernelOf_goto hgoto).mp hi
  exact h.advanced wf hd (hs j hj) hx

/-! ## Reductions at the end of input -/

/-- Where nothing but reductions of some kind is asked for at the end of input, one of them is made. -/
theorem WellFormed.exists_reduce (wf : g.WellFormed) {Q : ProductionId → Prop}
    (hlook : g.LooksAhead s i Vocabulary.endOfInput) (hrest : g.rest i = [])
    (hne : i.production ≠ startProduction)
    (hall : ∀ j ∈ g.itemsOf s, g.rest j = [] → Q j.production ∧ j.production ≠ startProduction) :
    ∃ p, Q p ∧ (Automaton.ofGrammar g).action? s Vocabulary.endOfInput = some (.reduce p) := by
  obtain ⟨a, hact, -⟩ := wf.exists_action?_of_asks (.reduce hlook hrest hne)
  cases wf.asks_of_action? hact with
  | shift hi hx hs => exact absurd rfl (wf.ne_endOfInput_of_shift (.shift hi hx hs)).1
  | reduce hlook' hrest' _ => exact ⟨_, (hall _ hlook'.mem hrest').1, hact⟩
  | accept hlook' hrest' hstart => exact absurd hstart (hall _ hlook'.mem hrest').2

theorem IsHollow.ne_startProduction (h : g.IsHollow ns P) (wf : g.WellFormed)
    (hP : g.production p = P) : p ≠ startProduction :=
  wf.ne_startProduction (hP ▸ h.left)

theorem WellFormed.ne_startProduction_of_empty (wf : g.WellFormed) (h : (g.production p).right = []) :
    p ≠ startProduction := by
  rintro rfl
  rw [wf.right_start] at h
  cases h

/-- On the way, the next nonterminal is made of nothing. -/
theorem IsHollow.exists_empty (h : g.IsHollow ns P) (wf : g.WellFormed)
    (hs : ∀ i ∈ g.itemsOf s, g.OnWay ns P d i) (hP : g.production p = P)
    (hlook : g.LooksAhead s ⟨p, d⟩ Vocabulary.endOfInput) (hd : P.right[d]? = some (.nonterminal n)) :
    ∃ q, ((g.production q).left = n ∧ (g.production q).right = []) ∧
      (Automaton.ofGrammar g).action? s Vocabulary.endOfInput = some (.reduce q) := by
  obtain ⟨q, hq, hleft, hright⟩ := (h.optional_of_getElem? hd).empty
  obtain ⟨hlt, hget⟩ := List.getElem?_eq_some_iff.mp hd
  have hrest : g.rest ⟨p, d⟩ = .nonterminal n :: P.right.drop (d + 1) := by
    rw [rest, hP, List.drop_eq_getElem_cons hlt, hget]
  obtain ⟨k, hk⟩ := exists_yields_nil fun x hx => h.optional x (List.mem_of_mem_drop (i := d + 1) hx)
  have hlook' := wf.looksAhead_close hlook hrest hq hleft hk
  refine wf.exists_reduce hlook' hright (wf.ne_startProduction_of_empty hright) fun j hj hcomplete => ?_
  rcases (hs j hj).complete wf hcomplete with ⟨-, hle⟩ | ⟨hd', hempty⟩
  · exact absurd hlt (Nat.not_lt.mpr hle)
  · rw [hd] at hd'
    cases hd'
    exact ⟨⟨rfl, hempty⟩, wf.ne_startProduction_of_empty hempty⟩

/-- At the end of the way, the root's production is reduced. -/
theorem IsHollow.exists_last (h : g.IsHollow ns P) (wf : g.WellFormed)
    (hs : ∀ i ∈ g.itemsOf s, g.OnWay ns P P.right.length i) (hP : g.production p = P)
    (hlook : g.LooksAhead s ⟨p, P.right.length⟩ Vocabulary.endOfInput) :
    ∃ q, g.production q = P ∧
      (Automaton.ofGrammar g).action? s Vocabulary.endOfInput = some (.reduce q) := by
  have hrest : g.rest ⟨p, P.right.length⟩ = [] := by rw [rest, hP, List.drop_length]
  refine wf.exists_reduce hlook hrest (h.ne_startProduction wf hP) fun j hj hcomplete => ?_
  rcases (hs j hj).complete wf hcomplete with ⟨hP', -⟩ | ⟨hd, -⟩
  · exact ⟨hP', h.ne_startProduction wf hP'⟩
  · rw [List.getElem?_eq_none (Nat.le_refl _)] at hd
    cases hd

/-- An empty reduction takes nothing off the stack. -/
theorem walk?_reduce_empty {σ : List StateId} {position : Nat}
    (hact : (Automaton.ofGrammar g).action? s (f position) = some (.reduce p))
    (hright : (g.production p).right = [])
    (hgoto : g.goto? s (.nonterminal (g.production p).left) = some s') :
    walk? (.ofGrammar g) f (s :: σ, position) = some (s' :: s :: σ, position) := by
  have hreduce : Repair.reduceStates (.ofGrammar g) p (s :: σ) = some (s' :: s :: σ) := by
    simp only [Repair.reduceStates, Language.ofGrammar, hright, List.length_nil, List.drop_zero,
      goto?_ofGrammar, hgoto, Option.map_some]
  simp only [walk?]
  rw [show (Language.ofGrammar g).automaton = Automaton.ofGrammar g from rfl, hact]
  simp only [hreduce, Option.map_some]

/-- **On the way.** At the end of input, the machine goes through the root's production. -/
theorem IsHollow.exists_walks (h : g.IsHollow ns P) (wf : g.WellFormed)
    (hend : f 0 = Vocabulary.endOfInput) (hd : d ≤ P.right.length) :
    ∃ s σ, walks (.ofGrammar g) f d ([Automaton.start], 0) = some (s :: σ, 0) ∧
      (s :: σ).drop d = [Automaton.start] ∧ (∀ i ∈ g.itemsOf s, g.OnWay ns P d i) ∧
      ∃ p, g.production p = P ∧ g.LooksAhead s ⟨p, d⟩ Vocabulary.endOfInput := by
  induction d with
  | zero =>
    obtain ⟨p, hp, hP⟩ := h.exists_production
    refine ⟨_, [], rfl, rfl, h.onWay_start wf, p, hP, ?_⟩
    exact wf.looksAhead_close wf.looksAhead_start wf.rest_first hp (hP ▸ h.left) .nil
  | succ d ih =>
    obtain ⟨s, σ, hwalks, hdrop, hs, p, hP, hlook⟩ := ih (Nat.le_of_succ_le hd)
    obtain ⟨n, hn, -⟩ := h.optional _ (List.getElem_mem hd)
    have hget : P.right[d]? = some (.nonterminal n) := by rw [List.getElem?_eq_getElem hd, hn]
    have hnext : g.nextSymbol? ⟨p, d⟩ = some (.nonterminal n) :=
      (nextSymbol?_of_host hP rfl).trans hget
    obtain ⟨q, ⟨hleft, hright⟩, hact⟩ := h.exists_empty wf hs hP hlook hget
    obtain ⟨s', hgoto⟩ := wf.exists_goto hlook.mem hnext
    have hwalk : walks (.ofGrammar g) f 1 (s :: σ, 0) = some (s' :: s :: σ, 0) := by
      rw [walks, walk?_reduce_empty (hend.symm ▸ hact) hright (hleft.symm ▸ hgoto)]
      rfl
    refine ⟨s', s :: σ, walks_trans hwalks hwalk, hdrop, h.onWay_goto wf hs hget hgoto, p, hP, ?_⟩
    rw [← Item.advance_of_lt (i := ⟨p, d⟩) (Nat.lt_of_lt_of_le hd h.short)]
    exact wf.looksAhead_advance hlook hnext hgoto

/-- Behind the root, the end of input is accepted. -/
theorem WellFormed.action?_accept (wf : g.WellFormed)
    (hgoto : g.goto? Automaton.start (.nonterminal g.root) = some s) :
    (Automaton.ofGrammar g).action? s Vocabulary.endOfInput = some .accept := by
  have hlook := wf.looksAhead_advance wf.looksAhead_start wf.next_first hgoto
  have hrest : g.rest (Item.initial startProduction).advance = [] :=
    rest_advance (by decide) wf.rest_first
  refine wf.action?_of_least (.accept hlook hrest rfl) fun b hb => ?_
  cases hb with
  | shift hi hx hs => exact absurd rfl (wf.ne_endOfInput_of_shift (.shift hi hx hs)).1
  | reduce => exact Nat.le_add_left 1 _
  | accept => exact Nat.le_refl _

end Grammar

/-! ## The run -/

namespace Machine

variable {l : Language} {limits : Limits} {input : Input} {m m' : Machine} {c : Footing} {n : Nat}

/-- A walk is the beginning of a run. -/
theorem exists_run_of_walks (limits : Limits)
    (h : l.walks input.terminal n (m.states, m.position) = some c) :
    ∃ m' : Machine, (m'.states, m'.position) = c ∧
      ∀ k, m.run l limits input (n + k) = m'.run l limits input k := by
  induction n generalizing m with
  | zero =>
    cases h
    exact ⟨m, rfl, fun k => by rw [Nat.zero_add]⟩
  | succ n ih =>
    obtain ⟨b, hb, hwalks⟩ := Option.bind_eq_some_iff.mp h
    obtain ⟨m₁, hstep, rfl⟩ := exists_step_of_walk? limits hb
    obtain ⟨m', hm', hrun⟩ := ih hwalks
    refine ⟨m', hm', fun k => ?_⟩
    rw [Nat.add_right_comm, run, hstep]
    exact hrun k

/-- A step to a state that accepts, and acceptance. -/
theorem run_two {top : Frame} {frames : List Frame}
    (hstep : m.step l limits input 1 = some (.next m')) (hstack : m'.stack = top :: frames)
    (hact : l.automaton.action? top.state (input.terminal m'.position) = some .accept) :
    m.run l limits input 2 = some (m', .accepted top.tree) := by
  have hlast : m'.step l limits input 0 = some (.done m' (.accepted top.tree)) := by
    simp only [step, hstack, hact]
  simp only [run, hstep, hlast]

end Machine

namespace Grammar

variable {g : Grammar} {ns : NonterminalId → Prop} {P : Production} {kind : String} {input : Input}

/-- A text without tokens is accepted in a step for every symbol and two more. -/
theorem IsHollow.exists_accepted (h : g.IsHollow ns P) (wf : g.WellFormed) (limits : Limits)
    (hend : input.terminal 0 = Vocabulary.endOfInput) : ∃ m trees,
      Machine.initial.run (.ofGrammar g) limits input (P.right.length + 2) =
        some (m, .accepted (P.action.run input 0 trees)) := by
  obtain ⟨s, σ, hwalks, hdrop, hs, p, hP, hlook⟩ := h.exists_walks wf hend (Nat.le_refl _)
  obtain ⟨q, hq, hact⟩ := h.exists_last wf hs hP hlook
  obtain ⟨m, hm, hrun⟩ := Machine.exists_run_of_walks (m := .initial) limits hwalks
  obtain ⟨hstates, hposition⟩ := Prod.mk.inj hm
  obtain ⟨top, frames, hstack, rfl, -⟩ := List.map_eq_cons_iff.mp hstates
  obtain ⟨next, hgoto⟩ := wf.exists_goto wf.first_mem_itemsOf wf.next_first
  -- The root's production is reduced,
  obtain ⟨below, hbelow, hstart⟩ : ∃ below, m.stack.drop P.right.length = [below] ∧
      below.state = Automaton.start := by
    rw [← hstates, Machine.states, ← List.map_drop] at hdrop
    exact List.map_eq_singleton_iff.mp hdrop
  have hproduction : (Language.ofGrammar g).grammar.production q = P := hq
  have hgoto' : (Automaton.ofGrammar g).goto? below.state P.left = some next := by
    rw [hstart, h.left]
    exact hgoto
  rw [← hproduction] at hbelow hgoto'
  have hstep : m.step (.ofGrammar g) limits input 1 = some (m.reduce (.ofGrammar g) input q) :=
    Machine.step_eq_reduce hstack (by rw [hposition, hend]; exact hact)
  rw [Machine.reduce_eq_next (l := .ofGrammar g) hbelow hgoto'] at hstep
  -- and what it becomes is accepted.
  have haccept := Machine.run_two hstep rfl
    (by rw [hposition, hend]; exact wf.action?_accept hgoto)
  rw [hproduction, hposition] at haccept
  exact ⟨_, _, (hrun 2).trans haccept⟩

end Grammar

/-- **Texts without tokens.** If the root has one production, and all symbols of it are optional, then
every text without tokens has a tree. -/
theorem exists_root_of_hollow {g : Grammar} {ns : NonterminalId → Prop} {P : Production} {kind : String}
    (h : g.IsHollow ns P) (wf : g.WellFormed) (haction : P.action = .node kind) {source : String}
    (hempty : (g.inputOf source).size = 0) (limits : Limits) : ∃ span children,
      ((Language.ofGrammar g).parse limits source).root = some (.node kind span children) := by
  have hend : (g.inputOf source).terminal 0 = Vocabulary.endOfInput :=
    (isEnded_inputOf wf.vocabulary source 0).mpr (Nat.le_of_eq hempty)
  obtain ⟨m, trees, hrun⟩ := h.exists_accepted wf limits hend
  have hparse : (Language.ofGrammar g).parseWithin (P.right.length + 2) limits source =
      some (.ofRun g.vocabulary limits source (g.vocabulary.scan source)
        (m, .accepted (P.action.run (g.inputOf source) 0 trees))) := by
    rw [Language.parseWithin]
    exact congrArg (Option.map _) hrun
  have hample : P.right.length + 2 ≤ Language.ampleSteps :=
    (Nat.add_le_add_right h.short 2).trans (by decide)
  rw [Language.parse_eq_of_parseWithin hparse hample, haction]
  exact ⟨_, _, rfl⟩

/-! ## Rules of optional parts -/

namespace Rule

variable {names : List String} {r : Rule}

/-- The part is a literal, or a name of the list. -/
def isHead (names : List String) : Rule → Bool
  | .keyword _ | .symbol _ => true
  | .ref name => names.contains name
  | _ => false

/-- The rule begins with a literal, or with a name of the list. -/
def isFirm (names : List String) (r : Rule) : Bool := r.slots.head?.any (isHead names)

/-- The part is an option, or the name of a list, and firm in front where it is not empty. -/
inductive MayVanish (rules : List RuleDeclaration) (names : List String) : Rule → Prop
  | option {item : Rule} : item.isFirm names = true → MayVanish rules names (.opt item)
  | list {e : RuleDeclaration} {item : Rule} : e ∈ rules → e.rule = .star item →
      item.isHead names = true → MayVanish rules names (.ref e.name)

end Rule

/-- The rule is a sequence of options and lists of what begins with a literal. The named rules are those
at the front of such parts. -/
structure RuleDeclaration.Omits (rules : List RuleDeclaration) (names : List String)
    (d : RuleDeclaration) : Prop where
  alone : d.transient = false ∧ d.rule.isList = false ∧ SymbolTable.alternativesOf d.rule = [d.rule]
  short : d.rule.slots.length ≤ maxIndex
  declared : ∀ name ∈ names, ∃ e ∈ rules, e.name = name
  firm : ∀ e ∈ rules, e.name ∈ names → e.rule.isList = false ∧
    ∀ r ∈ SymbolTable.alternativesOf e.rule, r.isFirm names = true
  optional : ∀ r ∈ d.rule.slots, r.MayVanish rules names

namespace Grammar

open SymbolTable (alternativesOf)

variable {g : Grammar} {d e : RuleDeclaration} {names : List String} {n : NonterminalId} {x : Symbol}
  {xs : List Symbol} {r : Rule}

/-- The nonterminals of the named rules. -/
def Named (g : Grammar) (names : List String) (n : NonterminalId) : Prop :=
  ∃ e, g.table.IsRule e n ∧ e.name ∈ names

theorem begins_of_stands (hdeclared : ∀ name ∈ names, ∃ e ∈ g.rules.toList, e.name = name)
    (hs : g.table.Stands r x) (hr : r.isHead names = true) : Begins (g.Named names) (x :: xs) := by
  cases hs with
  | keyword | symbol | tokenClass => trivial
  | rule he => exact ⟨_, he, List.contains_iff_mem.mp hr⟩
  | shadow hno _ => exact absurd (hdeclared _ (List.contains_iff_mem.mp hr)) hno
  | helper hatom _ =>
    -- Helpers stand for no literals and no names.
    cases r <;> first | exact absurd hatom Bool.true_eq_false.mp | exact absurd hr Bool.false_ne_true

theorem begins_of_written (hdeclared : ∀ name ∈ names, ∃ e ∈ g.rules.toList, e.name = name)
    (hw : g.table.Written r xs) (hr : r.isFirm names = true) : Begins (g.Named names) xs := by
  have hstands := hw.stands_slots
  rw [Rule.isFirm] at hr
  generalize r.slots = slots at hstands hr
  cases hstands with
  | nil => cases hr
  | cons hs _ => exact begins_of_stands hdeclared hs hr

theorem Lowered.isFirm (h : g.Lowered) (homits : d.Omits g.rules.toList names) :
    g.IsFirm (g.Named names) := by
  rintro p hp ⟨e, he, hname⟩
  obtain ⟨hlist, hfirm⟩ := homits.firm e he.1 hname
  have hentry := production_mem_entriesOf hp
  cases h.rule e _ he with
  | alternatives _ hall =>
    obtain ⟨r, hr, hw, -⟩ := exists_left_of_forall₂ hall hentry
    exact begins_of_written homits.declared hw (hfirm r hr)
  | list hlist' => exact absurd (hlist.symm.trans hlist'.isList_eq) Bool.false_ne_true

theorem isOptional_of_entries {ns : NonterminalId → Prop} (hempty : ∃ e ∈ g.entriesOf n, e.1 = [])
    (hall : ∀ e ∈ g.entriesOf n, e.1 = [] ∨ Begins ns e.1 ∨
      ∃ β, e.1 = .nonterminal n :: β ∧ Begins ns β) : g.IsOptional ns n := by
  refine ⟨?_, fun p hp hleft => hall _ (hleft ▸ production_mem_entriesOf hp)⟩
  obtain ⟨e, he, hnil⟩ := hempty
  obtain ⟨p, hp, hproduction⟩ := mem_entriesOf.mp he
  exact ⟨p, hp, by rw [hproduction], by rw [hproduction, hnil]⟩

theorem Lowered.isOptional_of_opt (h : g.Lowered) (halike : LooksAlike g.vocabulary g.rules.toList)
    (hdeclared : ∀ name ∈ names, ∃ e ∈ g.rules.toList, e.name = name)
    (hplace : HasPlace g.rules.toList (.opt r)) (hr : r.isFirm names = true)
    (hs : g.table.Stands (.opt r) x) : ∃ n, x = .nonterminal n ∧ g.IsOptional (g.Named names) n := by
  cases hs with
  | @helper _ n _ hhelper =>
    refine ⟨n, rfl, ?_⟩
    have hdemands := DerivationTree.demands_of_isHelper h halike hplace hhelper (Or.inl rfl)
    generalize hes : g.entriesOf n = es at hdemands
    cases hdemands with
    | sequence hspliced => cases hspliced
    | list hlist => cases hlist
    | opt hw =>
      refine isOptional_of_entries ?_ ?_ <;> rw [hes]
      · exact ⟨_, List.mem_cons_of_mem _ (List.mem_singleton_self _), rfl⟩
      · rintro e he
        rcases List.mem_pair.mp he with rfl | rfl
        · exact Or.inr (Or.inl (begins_of_written hdeclared hw hr))
        · exact Or.inl rfl

theorem Lowered.isOptional_of_star (h : g.Lowered)
    (hdeclared : ∀ name ∈ names, ∃ e ∈ g.rules.toList, e.name = name) (he : e ∈ g.rules.toList)
    (hrule : e.rule = .star r) (hr : r.isHead names = true) (hs : g.table.Stands (.ref e.name) x) :
    ∃ n, x = .nonterminal n ∧ g.IsOptional (g.Named names) n := by
  generalize hname : Rule.ref e.name = part at hs
  cases hs with
  | keyword | symbol => cases hname
  | @rule d n hd =>
    obtain rfl : e = d := h.eq_of_name_eq he hd.1 (Rule.ref.inj hname)
    refine ⟨n, rfl, ?_⟩
    have hdemands := h.rule e n hd
    generalize hes : g.entriesOf n = es at hdemands
    cases hdemands with
    | alternatives hlist =>
      rw [hrule] at hlist
      cases hlist
    | list hrepeats =>
      rw [hrule] at hrepeats
      cases hrepeats with
      | star hitem =>
        refine isOptional_of_entries ?_ ?_ <;> rw [hes]
        · exact ⟨_, List.mem_cons_self, rfl⟩
        · rintro e he
          rcases List.mem_pair.mp he with rfl | rfl
          · exact Or.inl rfl
          · exact Or.inr (Or.inr ⟨_, rfl, begins_of_stands hdeclared hitem hr⟩)
  | tokenClass hno | shadow hno =>
    cases hname
    exact absurd ⟨e, he, rfl⟩ hno
  | helper hatom =>
    cases hname
    cases hatom

/-- **Rules of optional parts.** A root rule that consists of options and lists is hollow. -/
theorem Lowered.isHollow_of_omits (h : g.Lowered) (halike : LooksAlike g.vocabulary g.rules.toList)
    (hd : g.table.IsRule d g.root) (homits : d.Omits g.rules.toList names) :
    ∃ P, P.action = .node d.name ∧ g.IsHollow (g.Named names) P := by
  obtain ⟨htransient, hlist, halternatives⟩ := homits.alone
  have hdemands := h.rule d g.root hd
  generalize hes : g.entriesOf g.root = es at hdemands
  cases hdemands with
  | list hrepeats => exact absurd (hlist.symm.trans hrepeats.isList_eq) Bool.false_ne_true
  | alternatives _ hall =>
    rw [halternatives] at hall
    obtain ⟨⟨xs, action⟩, rfl, hw, haction⟩ : ∃ entry, es = [entry] ∧
        g.table.Written d.rule entry.1 ∧ entry.2 = SymbolTable.ruleOf d entry.1 := by
      cases hall with
      | cons hone hnone =>
        cases hnone
        exact ⟨_, rfl, hone⟩
    obtain rfl : action = .node d.name := by
      rw [SymbolTable.ruleOf, htransient] at haction
      exact haction
    have hstands := hw.stands_slots
    refine ⟨⟨g.root, xs, .node d.name⟩, rfl, h.isFirm homits, rfl, ?_, fun p hp hleft => ?_,
      fun x hx => ?_, ?_⟩
    · exact mem_entriesOf.mp (hes ▸ List.mem_singleton_self _)
    · have hentry := production_mem_entriesOf hp
      rw [hleft, hes, List.mem_singleton] at hentry
      obtain ⟨hright, haction⟩ := Prod.mk.inj hentry
      rw [← hleft, ← hright, ← haction]
    · obtain ⟨r, hr, hs⟩ := exists_left_of_forall₂ hstands hx
      have hoffers : Offers g.rules.toList (.ref d.name) d.rule _ :=
        .rule hd.1 hlist (by rw [halternatives]; exact List.mem_singleton_self _) htransient
      have hplace := hoffers.hasPlace (Or.inr ⟨d, hd.1, rfl⟩) hr
      cases homits.optional r hr with
      | option hfirm => exact h.isOptional_of_opt halike homits.declared hplace hfirm hs
      | list he hrule hfirm => exact h.isOptional_of_star homits.declared he hrule hfirm hs
    · exact (hstands.length_eq).symm.trans_le homits.short

end Grammar

end FourGL
