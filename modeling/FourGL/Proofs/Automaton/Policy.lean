import FourGL.Proofs.Automaton.Table

/-!
# Which action wins

Where the items of a state ask for several actions on a terminal, the tables hold the one that comes
first in the order of preference: a shift, acceptance, then reductions by the order of productions.

**Theorem (`action?_of_least`).** An action that is asked for, and that no other one is preferred to,
is in the tables.
-/

namespace FourGL

/-! ## Preference -/

/-- The place of an action in the order of preference. -/
def ParseAction.rank : ParseAction → Nat
  | .shift _ => 0
  | .accept => 1
  | .reduce p => p + 2

namespace ActionRow

variable {row : ActionRow} {s : StateId} {t : TerminalId} {a b : ParseAction} {n : Nat}

/-- Of two reductions the one by the earlier production wins. -/
theorem contend_reduce (p q : ProductionId) :
    (ParseAction.contend (some (.reduce q)) (.reduce p)).1 = .reduce (min p q) := by
  by_cases h : p = q <;> simp [ParseAction.contend, h]

/-- What is asked for is not preferred to the winner. -/
theorem rank_contend_le (held : Option ParseAction) (a : ParseAction) :
    (ParseAction.contend held a).1.rank ≤ a.rank := by
  rcases held with _ | _ | q | _ <;> rcases a with s | p | _ <;>
    simp [contend_reduce, ParseAction.rank] <;> simp [ParseAction.contend]

/-- Nor is what is held, unless it is a shift and acceptance is asked for. -/
theorem rank_contend_le_held (h : (∀ p, a ≠ .reduce p) → (∀ p, b ≠ .reduce p) → a = b) :
    (ParseAction.contend (some a) b).1.rank ≤ a.rank := by
  rcases a with s | q | _ <;> rcases b with s' | p | _ <;>
    simp_all [contend_reduce, ParseAction.rank] <;> simp [ParseAction.contend]

/-- Wherever something has been asked for, the row holds something that has, and nothing that has is
preferred to it. -/
structure Prefers (row : ActionRow) (asked : List (TerminalId × ParseAction)) : Prop where
  mem : ∀ t a, row.action? t = some a → (t, a) ∈ asked
  least : ∀ t b, (t, b) ∈ asked → t < row.size → ∃ a, row.action? t = some a ∧ a.rank ≤ b.rank

theorem Prefers.enter {asked : List (TerminalId × ParseAction)}
    {filled : ActionRow × List Conflict} {r : TerminalId × ParseAction}
    (h : Prefers filled.1 asked) (hc : Coherent (asked ++ [r])) :
    Prefers (enter s filled r).1 (asked ++ [r]) := by
  obtain ⟨u, c⟩ := r
  have hheld : ∀ a, filled.1.action? u = some a →
      (ParseAction.contend (filled.1.action? u) c).1.rank ≤ a.rank := fun a ha => by
    rw [ha]
    refine rank_contend_le_held (hc u a c ?_ (by simp))
    exact List.mem_append_left _ (h.mem u a ha)
  constructor
  · intro t a ha
    rw [ActionRow.enter, action?_set] at ha
    split at ha
    · next hcase =>
      obtain ⟨rfl, -⟩ := hcase
      cases ha
      rcases contend_fst (filled.1.action? u) c with heq | heq
      · simp [heq]
      · exact List.mem_append_left _ (h.mem u _ heq)
    · exact List.mem_append_left _ (h.mem t a ha)
  · intro t b hb hlt
    rw [size_enter] at hlt
    rw [ActionRow.enter, action?_set]
    by_cases hut : u = t
    · subst hut
      rw [if_pos ⟨rfl, hlt⟩]
      refine ⟨_, rfl, ?_⟩
      rcases List.mem_append.mp hb with hb | hb
      · obtain ⟨a, ha, hab⟩ := h.least u b hb hlt
        exact (hheld a ha).trans hab
      · cases List.mem_singleton.mp hb
        exact rank_contend_le _ _
    · rw [if_neg fun hcase => hut hcase.1]
      refine h.least t b ((List.mem_append.mp hb).resolve_right fun heq => ?_) hlt
      exact hut (Prod.mk.inj (List.mem_singleton.mp heq)).1.symm

theorem Prefers.foldl_enter {asked requests : List (TerminalId × ParseAction)}
    {filled : ActionRow × List Conflict} (h : Prefers filled.1 asked)
    (hc : Coherent (asked ++ requests)) :
    Prefers (requests.foldl (ActionRow.enter s) filled).1 (asked ++ requests) := by
  induction requests generalizing asked filled with
  | nil => simpa using h
  | cons r requests ih =>
    rw [List.append_cons] at hc ⊢
    have hone : Coherent (asked ++ [r]) := fun t a b ha hb =>
      hc t a b (List.mem_append_left _ ha) (List.mem_append_left _ hb)
    exact ih (h.enter hone) hc

/-- The row of a state prefers what comes first. -/
theorem prefers_fill {requests : List (TerminalId × ParseAction)} (hc : Coherent requests) :
    Prefers (fill n s requests).1 requests := by
  have hempty : Prefers (Array.replicate n none, ([] : List Conflict)).1 [] :=
    ⟨fun t a h => by simp [action?_replicate] at h, fun t b h => by simp at h⟩
  have hall : Coherent ([] ++ requests) := hc
  exact hempty.foldl_enter hall

end ActionRow

/-! ## The tables of a grammar -/

namespace Grammar

variable {g : Grammar} {s s' : StateId} {t : TerminalId} {a b : ParseAction} {i : Item}

/-- Where something is asked for, the tables hold an action, and what is asked for is not preferred
to it. -/
theorem WellFormed.exists_action?_of_asks (wf : g.WellFormed) (h : g.Asks s t b) :
    ∃ a, (Automaton.ofGrammar g).action? s t = some a ∧ a.rank ≤ b.rank := by
  rw [action?_ofGrammar h.state_lt]
  refine (ActionRow.prefers_fill wf.coherent_requests).least t b (wf.mem_requests_iff.mpr h) ?_
  rw [ActionRow.size_fill]
  exact wf.lt_of_asks h

/-- Different actions on one terminal are never equally preferred. -/
theorem Asks.eq_of_rank (ha : g.Asks s t a) (hb : g.Asks s t b) (h : a.rank = b.rank) : a = b := by
  cases ha <;> cases hb <;> simp_all [ParseAction.rank]

/-- **The preferred action wins.** -/
theorem WellFormed.action?_of_least (wf : g.WellFormed) (h : g.Asks s t a)
    (hleast : ∀ b, g.Asks s t b → a.rank ≤ b.rank) :
    (Automaton.ofGrammar g).action? s t = some a := by
  obtain ⟨b, hb, hba⟩ := wf.exists_action?_of_asks h
  have hasks := wf.asks_of_action? hb
  rw [hb, h.eq_of_rank hasks (Nat.le_antisymm (hleast b hasks) hba)]

/-- Nothing is preferred to a shift. -/
theorem WellFormed.action?_shift (wf : g.WellFormed) (hi : i ∈ g.itemsOf s)
    (hx : g.nextSymbol? i = some (.terminal t)) (hgoto : g.goto? s (.terminal t) = some s') :
    (Automaton.ofGrammar g).action? s t = some (.shift s') :=
  wf.action?_of_least (.shift hi hx hgoto) fun b _ => Nat.zero_le b.rank

end Grammar

end FourGL
