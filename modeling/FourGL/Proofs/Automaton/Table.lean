import FourGL.Proofs.Automaton.Lookahead

/-!
# What the tables say

Whatever wins in a conflict was asked for by some item of the state, and if nothing loses, all that
is asked for is entered.

**Theorem (`asks_of_action?`).** Every action in the tables of a grammar is asked for by an item of
its state.

**Theorem (`action?_of_asks`).** If there are no conflicts, every action that an item of a state asks
for is in the tables.
-/

namespace FourGL

/-! ## Filling a row -/

namespace ActionRow

variable {row : ActionRow} {s : StateId} {t u : TerminalId} {a b : ParseAction} {n : Nat}

theorem action?_set : action? (row.setIfInBounds u (some a)) t =
    if u = t ∧ t < row.size then some a else row.action? t := by
  simp only [action?, Array.getD_eq_getD_getElem?, Array.getElem?_setIfInBounds]
  by_cases hu : u = t
  · subst hu
    by_cases hlt : u < row.size <;> simp [hlt]
  · simp [hu]

/-- The outcome of a competition is one of those who compete. -/
theorem contend_fst (held : Option ParseAction) (a : ParseAction) :
    (ParseAction.contend held a).1 = a ∨ held = some (ParseAction.contend held a).1 := by
  rcases held with _ | _ | q | _ <;> rcases a with s | p | _ <;> simp [ParseAction.contend]
  split
  · next h => simp [h]
  · rcases Nat.le_total p q with h | h <;> simp [h]

theorem size_enter {filled : ActionRow × List Conflict} {r : TerminalId × ParseAction} :
    (enter s filled r).1.size = filled.1.size := by simp [enter]

theorem action?_replicate : action? (Array.replicate n none) t = none := by
  simp only [action?, Array.getD_eq_getD_getElem?, Array.getElem?_replicate]
  split <;> rfl

theorem action?_foldl_enter {requests : List (TerminalId × ParseAction)}
    {filled : ActionRow × List Conflict}
    (h : (requests.foldl (enter s) filled).1.action? t = some a) :
    filled.1.action? t = some a ∨ (t, a) ∈ requests := by
  induction requests generalizing filled with
  | nil => exact Or.inl h
  | cons r requests ih =>
    rcases ih h with hr | hmem
    · rw [enter, action?_set] at hr
      split at hr
      · next hcase =>
        obtain ⟨rfl, -⟩ := hcase
        cases hr
        rcases contend_fst (filled.1.action? r.1) r.2 with heq | heq
        · rw [heq]
          exact Or.inr List.mem_cons_self
        · exact Or.inl heq
      · exact Or.inl hr
    · exact Or.inr (List.mem_cons_of_mem _ hmem)

theorem mem_of_action?_fill {requests : List (TerminalId × ParseAction)}
    (h : (fill n s requests).1.action? t = some a) : (t, a) ∈ requests :=
  (action?_foldl_enter h).resolve_left fun h => by rw [action?_replicate] at h; cases h

/-- Shifts and acceptance on one terminal do not differ. -/
def Coherent (requests : List (TerminalId × ParseAction)) : Prop :=
  ∀ t a b, (t, a) ∈ requests → (t, b) ∈ requests → (∀ p, a ≠ .reduce p) → (∀ p, b ≠ .reduce p) →
    a = b

/-- A competition in which nothing is lost is one between equals. -/
theorem eq_of_contend (h : (ParseAction.contend (some a) b).2 = none)
    (hab : (∀ p, a ≠ .reduce p) → (∀ p, b ≠ .reduce p) → a = b) : a = b := by
  rcases a with s | q | _ <;> rcases b with s' | p | _ <;> simp_all [ParseAction.contend]
  split at h
  · next heq => exact heq.symm
  · cases h

theorem contend_self : (ParseAction.contend (some a) a).1 = a := by
  rcases a with _ | p | _ <;> simp [ParseAction.contend]

theorem enter_snd_eq_nil {filled : ActionRow × List Conflict} {r : TerminalId × ParseAction}
    (h : (enter s filled r).2 = []) :
    (ParseAction.contend (filled.1.action? r.1) r.2).2 = none := by
  have hloss : ((ParseAction.contend (filled.1.action? r.1) r.2).2.map
      (⟨s, r.1, ·⟩ : Loss → Conflict)).toList = [] := (List.append_eq_nil_iff.mp h).2
  cases hl : (ParseAction.contend (filled.1.action? r.1) r.2).2 with
  | none => rfl
  | some loss =>
    rw [hl] at hloss
    cases hloss

theorem snd_eq_nil_of_foldl_enter {requests : List (TerminalId × ParseAction)}
    {filled : ActionRow × List Conflict} (h : (requests.foldl (enter s) filled).2 = []) :
    filled.2 = [] := by
  induction requests generalizing filled with
  | nil => exact h
  | cons r requests ih => exact (List.append_eq_nil_iff.mp (ih h)).1

/-- The row holds exactly what has been asked for. -/
def Agrees (row : ActionRow) (asked : List (TerminalId × ParseAction)) : Prop :=
  ∀ t a, t < row.size → (row.action? t = some a ↔ (t, a) ∈ asked)

theorem Agrees.enter {asked : List (TerminalId × ParseAction)} {filled : ActionRow × List Conflict}
    {r : TerminalId × ParseAction} (h : Agrees filled.1 asked) (hc : Coherent (asked ++ [r]))
    (hnone : (enter s filled r).2 = []) : Agrees (enter s filled r).1 (asked ++ [r]) := by
  obtain ⟨u, b⟩ := r
  have hloss := enter_snd_eq_nil hnone
  intro t a ht
  rw [size_enter] at ht
  rw [ActionRow.enter, action?_set, List.mem_append, List.mem_singleton]
  by_cases hut : u = t
  · subst hut
    rw [if_pos ⟨rfl, ht⟩]
    -- Nothing is lost, so what was held before is the action asked for.
    have hheld : ∀ c, filled.1.action? u = some c → c = b := fun c hheld => by
      rw [hheld] at hloss
      exact eq_of_contend hloss (hc u c b (by simp [(h u c ht).mp hheld]) (by simp))
    have hfirst : (ParseAction.contend (filled.1.action? u) b).1 = b := by
      cases hh : filled.1.action? u with
      | none => cases b <;> rfl
      | some c => rw [hheld c hh, contend_self]
    rw [hfirst, Option.some.injEq]
    constructor
    · rintro rfl
      exact Or.inr rfl
    · rintro (hmem | heq)
      · exact (hheld a ((h u a ht).mpr hmem)).symm
      · exact (Prod.mk.inj heq).2.symm
  · rw [if_neg fun hcase => hut hcase.1, h t a ht]
    exact ⟨Or.inl, fun hcase => hcase.resolve_right fun heq => hut (Prod.mk.inj heq).1.symm⟩

theorem Agrees.foldl_enter {asked requests : List (TerminalId × ParseAction)}
    {filled : ActionRow × List Conflict} (h : Agrees filled.1 asked)
    (hc : Coherent (asked ++ requests))
    (hnone : (requests.foldl (ActionRow.enter s) filled).2 = []) :
    Agrees (requests.foldl (ActionRow.enter s) filled).1 (asked ++ requests) := by
  induction requests generalizing asked filled with
  | nil => simpa using h
  | cons r requests ih =>
    rw [List.append_cons] at hc ⊢
    have hone : Coherent (asked ++ [r]) := fun t a b ha hb =>
      hc t a b (List.mem_append_left _ ha) (List.mem_append_left _ hb)
    exact ih (h.enter hone (snd_eq_nil_of_foldl_enter hnone)) hc hnone

/-- Without a loss, the row holds what is asked for. -/
theorem agrees_fill {requests : List (TerminalId × ParseAction)} (hc : Coherent requests)
    (hnone : (fill n s requests).2 = []) : Agrees (fill n s requests).1 requests := by
  have hempty : Agrees (Array.replicate n none, ([] : List Conflict)).1 [] :=
    fun t a _ => by simp [action?_replicate]
  have hall : Coherent ([] ++ requests) := hc
  exact hempty.foldl_enter hall hnone

theorem size_fill {requests : List (TerminalId × ParseAction)} :
    (fill n s requests).1.size = n := by
  have hfold : ∀ filled : ActionRow × List Conflict,
      (requests.foldl (enter s) filled).1.size = filled.1.size := by
    induction requests with
    | nil => exact fun _ => rfl
    | cons r requests ih => exact fun filled => (ih _).trans size_enter
  exact (hfold _).trans Array.size_replicate

end ActionRow

/-! ## The tables of a grammar -/

namespace Grammar

/-- What the items of a state ask for on a terminal. -/
inductive Asks (g : Grammar) (s : StateId) (t : TerminalId) : ParseAction → Prop
  | shift {i : Item} {s' : StateId} : i ∈ g.itemsOf s → g.nextSymbol? i = some (.terminal t) →
      g.goto? s (.terminal t) = some s' → Asks g s t (.shift s')
  | reduce {i : Item} : g.LooksAhead s i t → g.rest i = [] → i.production ≠ startProduction →
      Asks g s t (.reduce i.production)
  | accept {i : Item} : g.LooksAhead s i t → g.rest i = [] → i.production = startProduction →
      Asks g s t .accept

variable {g : Grammar} {s s' : StateId} {t : TerminalId} {a b : ParseAction} {i : Item}

/-- All that the items of a state ask for. -/
def requests (g : Grammar) (s : StateId) : List (TerminalId × ParseAction) :=
  Automaton.requestsOf g (g.lookaheads.solve g.vocabulary.terminals.size)
    (g.collection.rows.getD s []) (g.slotted s)

theorem WellFormed.mem_requests_iff (wf : g.WellFormed) : (t, a) ∈ g.requests s ↔ g.Asks s t a := by
  simp only [requests, Automaton.requestsOf, List.mem_flatMap]
  constructor
  · rintro ⟨⟨i, slot⟩, hi, hreq⟩
    simp only [Item.requests] at hreq
    split at hreq
    · next u hx =>
      simp only [Option.mem_toList, Option.map_eq_some_iff] at hreq
      obtain ⟨s', hs', heq⟩ := hreq
      cases heq
      exact .shift (mem_itemsOf_of_slotted hi) hx hs'
    · cases hreq
    · next hx =>
      obtain ⟨u, hu, heq⟩ := List.mem_map.mp hreq
      cases heq
      have hlook : g.LooksAhead s i t :=
        ⟨slot, hi, wf.testBit_solve_lookaheads.mp (mem_bitsBelow.mp hu).2⟩
      have hr : g.rest i = [] := List.head?_eq_none_iff.mp hx
      split
      · next hp => exact .accept hlook hr hp
      · next hp => exact .reduce hlook hr hp
  · have hcomplete : ∀ {i : Item}, g.LooksAhead s i t → g.rest i = [] → ∃ e ∈ g.slotted s,
        (t, if i.production = startProduction then .accept else .reduce i.production) ∈
          e.item.requests g (g.collection.rows.getD s [])
            ((g.lookaheads.solve g.vocabulary.terminals.size).level e.slot) := by
      rintro i hlook hr
      obtain ⟨slot, hi, hholds⟩ := hlook
      refine ⟨⟨i, slot⟩, hi, ?_⟩
      have hx : g.nextSymbol? i = none := by rw [nextSymbol?, hr]; rfl
      simp only [Item.requests, hx]
      refine List.mem_map.mpr ⟨t, mem_bitsBelow.mpr ⟨?_, ?_⟩, rfl⟩
      · exact wf.lt_of_looksAhead ⟨slot, hi, hholds⟩
      · exact wf.testBit_solve_lookaheads.mpr hholds
    rintro (⟨hi, hx, hs'⟩ | ⟨hlook, hr, hp⟩ | ⟨hlook, hr, hp⟩)
    · obtain ⟨slot, hslot⟩ := exists_slot hi
      refine ⟨_, hslot, ?_⟩
      simp only [Item.requests, hx]
      rw [show (g.collection.rows.getD s []).lookup (.terminal t) = some _ from hs']
      exact List.mem_singleton.mpr rfl
    · simpa only [if_neg hp] using hcomplete hlook hr
    · simpa only [if_pos hp] using hcomplete hlook hr

/-- No item asks to shift the end of input. -/
theorem WellFormed.ne_endOfInput_of_shift (wf : g.WellFormed) (h : g.Asks s t (.shift s')) :
    t ≠ Vocabulary.endOfInput ∧ t < g.vocabulary.terminals.size := by
  cases h with
  | shift hi hx _ => exact wf.usable_of_next (wf.proper_itemsOf hi) hx

theorem WellFormed.eq_endOfInput_of_accept (wf : g.WellFormed) (h : g.Asks s t .accept) :
    t = Vocabulary.endOfInput := by
  cases h with
  | accept hlook _ hp => exact wf.eq_endOfInput hlook hp

theorem WellFormed.lt_of_asks (wf : g.WellFormed) (h : g.Asks s t a) :
    t < g.vocabulary.terminals.size := by
  cases h with
  | shift hi hx _ => exact (wf.usable_of_next (wf.proper_itemsOf hi) hx).2
  | reduce hlook _ _ => exact wf.lt_of_looksAhead hlook
  | accept hlook _ _ => exact wf.lt_of_looksAhead hlook

theorem WellFormed.coherent_requests (wf : g.WellFormed) :
    ActionRow.Coherent (g.requests s) := by
  intro t a b ha hb hna hnb
  rw [wf.mem_requests_iff] at ha hb
  cases a with
  | reduce p => exact absurd rfl (hna p)
  | shift s₁ =>
    cases b with
    | reduce p => exact absurd rfl (hnb p)
    | shift s₂ =>
      cases ha with
      | shift _ _ h₁ =>
        cases hb with
        | shift _ _ h₂ => rw [Option.some.inj (h₁.symm.trans h₂)]
    | accept =>
      exact absurd (wf.eq_endOfInput_of_accept hb) (wf.ne_endOfInput_of_shift ha).1
  | accept =>
    cases b with
    | reduce p => exact absurd rfl (hnb p)
    | shift s₂ => exact absurd (wf.eq_endOfInput_of_accept ha) (wf.ne_endOfInput_of_shift hb).1
    | accept => rfl

/-- The rows of all states, with their conflicts. -/
def filledRows (g : Grammar) : Array (ActionRow × List Conflict) :=
  g.slottedStates.mapIdx fun s items => ActionRow.fill g.vocabulary.terminals.size s
    (Automaton.requestsOf g (g.lookaheads.solve g.vocabulary.terminals.size)
      (g.collection.rows.getD s []) items)

theorem getElem?_filledRows (hs : s < g.stateCount) : g.filledRows[s]? =
    some (ActionRow.fill g.vocabulary.terminals.size s (g.requests s)) := by
  rw [filledRows, slottedStates, Array.getElem?_mapIdx, Array.getElem?_mapIdx,
    getElem?_kernels hs]
  rfl

theorem action?_ofGrammar (hs : s < g.stateCount) : (Automaton.ofGrammar g).action? s t =
    (ActionRow.fill g.vocabulary.terminals.size s (g.requests s)).1.action? t := by
  show ActionRow.action? ((g.filledRows.map (·.1)).getD s #[]) t = _
  rw [Array.getD_eq_getD_getElem?, Array.getElem?_map, getElem?_filledRows hs]
  rfl

theorem action?_of_le (hs : g.stateCount ≤ s) : (Automaton.ofGrammar g).action? s t = none := by
  show ActionRow.action? ((g.filledRows.map (·.1)).getD s #[]) t = _
  rw [Array.getD_eq_getD_getElem?, Array.getElem?_eq_none]
  · rfl
  · simpa [filledRows, slottedStates, stateCount] using hs

/-- **Actions are asked for.** -/
theorem WellFormed.asks_of_action? (wf : g.WellFormed)
    (h : (Automaton.ofGrammar g).action? s t = some a) : g.Asks s t a := by
  by_cases hs : s < g.stateCount
  · rw [action?_ofGrammar hs] at h
    exact wf.mem_requests_iff.mp (ActionRow.mem_of_action?_fill h)
  · rw [action?_of_le (Nat.le_of_not_lt hs)] at h
    cases h

theorem goto?_ofGrammar {n : NonterminalId} :
    (Automaton.ofGrammar g).goto? s n = g.goto? s (.nonterminal n) := rfl

/-- A strict build gives the automaton of the grammar, and nothing was lost. -/
theorem ofGrammarStrict_ok {automaton : Automaton}
    (h : Automaton.ofGrammarStrict g = .ok automaton) :
    automaton = Automaton.ofGrammar g ∧ ∀ filled ∈ g.filledRows, filled.2 = [] := by
  simp only [Automaton.ofGrammarStrict] at h
  split at h
  · next hnone =>
    cases h
    refine ⟨rfl, fun filled hmem => ?_⟩
    exact List.flatMap_eq_nil_iff.mp hnone filled (Array.mem_toList_iff.mpr hmem)
  · cases h

theorem Asks.state_lt (h : g.Asks s t a) : s < g.stateCount := by
  by_contra hs
  have hnil := itemsOf_of_le (Nat.le_of_not_lt hs)
  cases h with
  | shift hi _ _ => rw [hnil] at hi; cases hi
  | reduce hlook _ _ => have := hlook.mem; rw [hnil] at this; cases this
  | accept hlook _ _ => have := hlook.mem; rw [hnil] at this; cases this

/-- **What is asked for is entered**, if nothing is lost. -/
theorem WellFormed.action?_of_asks (wf : g.WellFormed) {automaton : Automaton}
    (hstrict : Automaton.ofGrammarStrict g = .ok automaton) (h : g.Asks s t a) :
    automaton.action? s t = some a := by
  obtain ⟨rfl, hnone⟩ := ofGrammarStrict_ok hstrict
  have hloss := hnone _ (Array.mem_of_getElem? (getElem?_filledRows h.state_lt))
  rw [action?_ofGrammar h.state_lt]
  refine (ActionRow.agrees_fill wf.coherent_requests hloss t a ?_).mpr
    (wf.mem_requests_iff.mpr h)
  rw [ActionRow.size_fill]
  exact wf.lt_of_asks h

end Grammar

end FourGL
