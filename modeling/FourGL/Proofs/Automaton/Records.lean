import FourGL.Proofs.Automaton.Audit

/-!
# What a record says

A record of a conflict names the action that was kept. That is what was in the row at the moment of
the competition, and it need not be what the row holds in the end.

**Theorem (`conflicts_traced`).** What a record says was kept is what the tables hold, or it is a
reduction that a shift has displaced since, and then the record of that names it as dropped. So where
no third candidate competes, the record says what the tables hold.

**Theorem (`exists_conflict_outdated`).** There is a grammar with a record of the second sort: the
items of two reductions come before the one that is shifted.

The requests of a state come in the order of productions. Of two reductions the one that is held
already is therefore kept, and acceptance comes before all of them. This leaves the shift as the only
action that can displace another.
-/

namespace FourGL

/-! ## Filling a row -/

namespace ActionRow

variable {s : StateId} {t : TerminalId} {a b : ParseAction} {n : Nat}
  {filled : ActionRow × List Conflict} {asked requests : List (TerminalId × ParseAction)}
  {r : TerminalId × ParseAction} {k : Conflict}

/-- What the record says was kept is held, or it is a reduction, and the shift that is held has
displaced it on record. -/
def Tells (filled : ActionRow × List Conflict) (k : Conflict) : Prop :=
  filled.1.action? k.lookahead = some k.loss.kept ∨
    ∃ s' p, k.loss.kept = .reduce p ∧ filled.1.action? k.lookahead = some (.shift s') ∧
      ∃ k' ∈ filled.2, k'.lookahead = k.lookahead ∧ k'.loss = ⟨.shiftReduce, .shift s', p⟩

theorem Tells.exists_action? (h : Tells filled k) : ∃ a, filled.1.action? k.lookahead = some a := by
  rcases h with hkept | ⟨s', p, -, hshift, -⟩
  · exact ⟨_, hkept⟩
  · exact ⟨_, hshift⟩

/-- More records do not matter, nor does what happens on other terminals. -/
theorem Tells.mono {filled' : ActionRow × List Conflict} (h : Tells filled k)
    (hrow : filled'.1.action? k.lookahead = filled.1.action? k.lookahead)
    (hrecords : ∀ k' ∈ filled.2, k' ∈ filled'.2) : Tells filled' k := by
  rcases h with hkept | ⟨s', p, hkept, hshift, k', hk', hloss⟩
  · exact Or.inl (hrow.trans hkept)
  · exact Or.inr ⟨s', p, hkept, hrow.trans hshift, k', hrecords k' hk', hloss⟩

/-- In order, only a shift displaces what is held. -/
theorem contend_of_rising (hr : Rising [(t, a), (t, b)])
    (hc : (∀ p, a ≠ .reduce p) → (∀ p, b ≠ .reduce p) → a = b) :
    ((ParseAction.contend (some a) b).1 = a ∧
        ∀ loss, (ParseAction.contend (some a) b).2 = some loss → loss.kept = a) ∨
      ∃ s' p, a = .reduce p ∧ b = .shift s' ∧
        ParseAction.contend (some a) b = (.shift s', some ⟨.shiftReduce, .shift s', p⟩) := by
  have hlt : ∀ p ∈ a.completes?, ∀ q ∈ b.completes?, p < q :=
    (List.pairwise_cons.mp hr).1 _ List.mem_cons_self rfl
  rcases a with s | q | _ <;> rcases b with s' | p | _
  · obtain rfl : s = s' := by simpa using hc
    exact Or.inl ⟨rfl, by simp [ParseAction.contend]⟩
  · exact Or.inl ⟨rfl, by simp [ParseAction.contend]⟩
  · exact absurd (hc (by simp) (by simp)) (by simp)
  · exact Or.inr ⟨s', q, rfl, rfl, rfl⟩
  · have hqp : q < p := hlt q rfl p rfl
    rw [contend_of_ne hqp.ne', Nat.min_eq_right hqp.le]
    exact Or.inl ⟨rfl, by simp⟩
  · exact absurd (hlt q rfl _ rfl) (Nat.not_lt_zero q)
  · exact absurd (hc (by simp) (by simp)) (by simp)
  · exact Or.inl ⟨rfl, by simp [ParseAction.contend]⟩
  · exact Or.inl ⟨rfl, by simp [ParseAction.contend]⟩

theorem contend_none (b : ParseAction) : (ParseAction.contend none b).2 = none := by
  cases b <;> rfl

/-- One more request, and the records still tell. -/
theorem tells_enter (h : ∀ k ∈ filled.2, Tells filled k) (hp : Prefers filled.1 asked)
    (hr : Rising (asked ++ [r])) (hc : Coherent (asked ++ [r])) :
    ∀ k ∈ (enter s filled r).2, Tells (enter s filled r) k := by
  obtain ⟨u, b⟩ := r
  have hrow : ∀ t, (enter s filled (u, b)).1.action? t =
      if u = t ∧ t < filled.1.size then some (ParseAction.contend (filled.1.action? u) b).1
        else filled.1.action? t := fun t => action?_set
  have hrecords : (enter s filled (u, b)).2 = filled.2 ++
      ((ParseAction.contend (filled.1.action? u) b).2.map (⟨s, u, ·⟩ : Loss → Conflict)).toList :=
    rfl
  have hmono : ∀ k' ∈ filled.2, k' ∈ (enter s filled (u, b)).2 := fun k' hk' =>
    List.mem_append_left _ hk'
  intro k hk
  rw [hrecords] at hk
  cases hheld : filled.1.action? u with
  | none =>
    rw [hheld, contend_none, Option.map_none, Option.toList_none, List.append_nil] at hk
    obtain ⟨a, ha⟩ := (h k hk).exists_action?
    refine (h k hk).mono ?_ hmono
    rw [hrow, if_neg]
    rintro ⟨rfl, -⟩
    rw [hheld] at ha
    cases ha
  | some a =>
    have hlt : u < filled.1.size := by
      by_contra hge
      rw [action?, Array.getD_eq_getD_getElem?, Array.getElem?_eq_none (Nat.le_of_not_lt hge)] at hheld
      cases hheld
    have hmem : (u, a) ∈ asked := hp.mem u a hheld
    have hpair : Rising [(u, a), (u, b)] :=
      List.Pairwise.sublist ((List.singleton_sublist.mpr hmem).append (List.Sublist.refl _)) hr
    have hcoherent := hc u a b (List.mem_append_left _ hmem) (by simp)
    rw [hheld] at hk
    rcases contend_of_rising hpair hcoherent with ⟨hfirst, hkept⟩ | ⟨s', p, rfl, rfl, hboth⟩
    · -- The row stays as it is.
      have hsame : ∀ t, (enter s filled (u, b)).1.action? t = filled.1.action? t := fun t => by
        rw [hrow]
        split
        · next hcase => rw [← hcase.1, hheld, hfirst]
        · rfl
      rcases List.mem_append.mp hk with hk | hk
      · exact (h k hk).mono (hsame _) hmono
      · obtain ⟨loss, hloss, rfl⟩ := Option.map_eq_some_iff.mp (Option.mem_toList.mp hk)
        refine Or.inl ?_
        rw [hsame, hheld, hkept loss hloss]
    · -- A shift displaces the reduction, and that is put on record.
      have hshift : (enter s filled (u, .shift s')).1.action? u = some (.shift s') := by
        rw [hrow, if_pos ⟨rfl, hlt⟩, hheld, hboth]
      rcases List.mem_append.mp hk with hk | hk
      · by_cases hku : k.lookahead = u
        · rcases h k hk with hkept | ⟨s'', q, -, hother, -⟩
          · rw [hku, hheld] at hkept
            refine Or.inr ⟨s', p, (Option.some.inj hkept).symm, by rw [hku, hshift], ?_⟩
            refine ⟨⟨s, u, ⟨.shiftReduce, .shift s', p⟩⟩, ?_, hku.symm, rfl⟩
            rw [hrecords, hheld, hboth]
            exact List.mem_append_right _ List.mem_cons_self
          · rw [hku, hheld] at hother
            cases hother
        · refine (h k hk).mono ?_ hmono
          rw [hrow, if_neg fun hcase => hku hcase.1.symm]
      · rw [hboth] at hk
        obtain rfl := List.mem_singleton.mp hk
        exact Or.inl hshift

theorem tells_foldl_enter (h : ∀ k ∈ filled.2, Tells filled k) (hp : Prefers filled.1 asked)
    (hr : Rising (asked ++ requests)) (hc : Coherent (asked ++ requests)) :
    ∀ k ∈ (requests.foldl (enter s) filled).2, Tells (requests.foldl (enter s) filled) k := by
  induction requests generalizing asked filled with
  | nil => exact h
  | cons r requests ih =>
    rw [List.append_cons] at hr hc
    have hone : Coherent (asked ++ [r]) := fun t a b ha hb =>
      hc t a b (List.mem_append_left _ ha) (List.mem_append_left _ hb)
    have hrising : Rising (asked ++ [r]) := List.Pairwise.sublist (List.sublist_append_left _ _) hr
    exact ih (tells_enter h hp hrising hone) (hp.enter hone) hr hc

/-- In a row that has been filled, every record tells. -/
theorem tells_fill (hr : Rising requests) (hc : Coherent requests) :
    ∀ k ∈ (fill n s requests).2, Tells (fill n s requests) k := by
  have hempty : Prefers (Array.replicate n none, ([] : List Conflict)).1 [] :=
    ⟨fun t a h => by simp [action?_replicate] at h, fun t b h => by simp at h⟩
  exact tells_foldl_enter (by simp) hempty hr hc

theorem mem_foldl_enter_of_mem (h : k ∈ filled.2) : k ∈ (requests.foldl (enter s) filled).2 := by
  induction requests generalizing filled with
  | nil => exact h
  | cons r requests ih => exact ih (List.mem_append_left _ h)

/-- Where an earlier reduction meets a later one, and no shift has been asked for as yet, a record
says that no shift was kept. -/
theorem exists_kept_of_no_shift {p q : ProductionId} (hr : Rising requests)
    (hc : Coherent requests) (hlt : ∀ r ∈ requests, r.1 < n) (hpq : p < q)
    (hp : (t, .reduce p) ∈ requests) (hq : (t, .reduce q) ∈ requests)
    (hshift : ∀ s', (t, .shift s') ∉ requests) :
    ∃ k ∈ (fill n s requests).2, k.lookahead = t ∧ ∀ s', k.loss.kept ≠ .shift s' := by
  -- The later one is not held, since the earlier one is preferred to it.
  have hheld : (fill n s requests).1.action? t ≠ some (.reduce q) := fun hact => by
    have hsize : t < (fill n s requests).1.size := by
      rw [size_fill]
      exact hlt _ hp
    obtain ⟨a, ha, hle⟩ := (prefers_fill hc).least t _ hp hsize
    rw [hact] at ha
    cases ha
    exact absurd (Nat.le_of_add_le_add_right hle) (Nat.not_le.mpr hpq)
  have htally := tally_fill (s := s) (t := t) (p := q) hr hlt
  rw [tally, if_neg hheld, Nat.add_zero] at htally
  have hpos : 0 < recordsOf (fill n s requests).2 s t q := by
    rw [htally]
    exact List.count_pos_iff.mpr hq
  obtain ⟨k, hk, hat⟩ := List.countP_pos_iff.mp hpos
  obtain ⟨-, rfl, -⟩ := of_decide_eq_true hat
  refine ⟨k, hk, rfl, fun s' hkept => ?_⟩
  rcases tells_fill hr hc k hk with hact | ⟨s'', -, -, hact, -⟩
  · exact hshift s' (hkept ▸ mem_of_action?_fill hact)
  · exact hshift s'' (mem_of_action?_fill hact)

end ActionRow

/-! ## Records of a grammar -/

namespace Grammar

variable {g : Grammar} {s : StateId} {t : TerminalId}

theorem WellFormed.tells_of_mem (wf : g.WellFormed) {k : Conflict}
    (h : k ∈ (Automaton.ofGrammar g).conflicts) :
    (Automaton.ofGrammar g).action? k.state k.lookahead = some k.loss.kept ∨
      ∃ s' p, k.loss.kept = .reduce p ∧
        (Automaton.ofGrammar g).action? k.state k.lookahead = some (.shift s') ∧
          ⟨k.state, k.lookahead, ⟨.shiftReduce, .shift s', p⟩⟩ ∈ (Automaton.ofGrammar g).conflicts := by
  obtain ⟨hs, hk⟩ := mem_conflicts_iff.mp h
  rw [action?_ofGrammar hs]
  rcases ActionRow.tells_fill (wf.rising_requests k.state) wf.coherent_requests k hk with
    hkept | ⟨s', p, hkept, hshift, k', hk', hlookahead, hloss⟩
  · exact Or.inl hkept
  · refine Or.inr ⟨s', p, hkept, hshift, ?_⟩
    have hstate : k'.state = k.state := state_of_mem_recordsAt hk'
    have hrecord : k' ∈ g.recordsAt k'.state := by
      rw [hstate]
      exact hk'
    rw [← hlookahead, ← hloss, ← hstate]
    exact mem_conflicts_iff.mpr ⟨hstate.trans_lt hs, hrecord⟩

theorem terminal_mem_of_mem_requests {i : Item} {row : List (Symbol × StateId)} {lookahead : Nat}
    {s' : StateId} (h : (t, .shift s') ∈ i.requests g row lookahead) :
    .terminal t ∈ (g.production i.production).right := by
  simp only [Item.requests] at h
  split at h
  · next u hx =>
    obtain ⟨s'', -, heq⟩ := Option.map_eq_some_iff.mp (Option.mem_toList.mp h)
    cases heq
    exact List.mem_of_mem_drop (List.mem_of_mem_head? hx)
  · cases h
  · obtain ⟨u, -, heq⟩ := List.mem_map.mp h
    have hact := (Prod.mk.inj heq).2
    split at hact <;> cases hact

/-- What asks for a shift before a reduction is asked for does not come after it in the grammar. -/
theorem pairwise_requests (g : Grammar) (s : StateId) :
    (g.requests s).Pairwise fun r r' => ∀ s' q, r.2 = .shift s' → r'.2 = .reduce q →
      ∃ p ≤ q, .terminal r.1 ∈ (g.production p).right := by
  have hitems : ∀ {i j : Item} {row : List (Symbol × StateId)} {l l' : Nat},
      i.production ≤ j.production → ∀ r ∈ i.requests g row l, ∀ r' ∈ j.requests g row l',
        ∀ s' q, r.2 = .shift s' → r'.2 = .reduce q →
          ∃ p ≤ q, .terminal r.1 ∈ (g.production p).right := by
    rintro i j row l l' hle ⟨t, a⟩ ha ⟨u, b⟩ hb s' q rfl rfl
    obtain ⟨-, rfl⟩ := complete_of_mem_requests (p := q) hb rfl
    exact ⟨i.production, hle, terminal_mem_of_mem_requests ha⟩
  refine List.pairwise_flatMap.mpr ⟨fun e _ => ?_, ?_⟩
  · exact List.pairwise_of_forall_mem_list fun r hr r' hr' => hitems le_rfl r hr r' hr'
  · exact (sorted_slotted s).imp fun hle => hitems (production_le_of_isLE hle)

/-- Where two reductions meet, and the terminal is in no production up to the later one, a record says
that no shift was kept. -/
theorem WellFormed.exists_kept_of_right (wf : g.WellFormed) {p q : ProductionId}
    (hp : g.Candidate s t (.reduce p)) (hq : g.Candidate s t (.reduce q)) (hpq : p < q)
    (hright : ∀ r ≤ q, .terminal t ∉ (g.production r).right) :
    ∃ k ∈ (Automaton.ofGrammar g).conflicts, k.state = s ∧ k.lookahead = t ∧
      ∀ s', k.loss.kept ≠ .shift s' := by
  have hasks := wf.candidate_iff_asks.mp hp
  have hrising := wf.rising_requests s
  have hcoherent : ActionRow.Coherent (g.requests s) := wf.coherent_requests
  have hordered := g.pairwise_requests s
  have hlt : ∀ r ∈ g.requests s, r.1 < g.vocabulary.terminals.size := fun r hr =>
    wf.lt_of_asks (wf.mem_requests_iff.mp hr)
  have hpmem := wf.mem_requests_iff.mpr hasks
  -- Up to the later reduction, both have been asked for, and no shift.
  obtain ⟨before, after, hsplit⟩ := List.append_of_mem
    (wf.mem_requests_iff.mpr (wf.candidate_iff_asks.mp hq))
  rw [List.append_cons] at hsplit
  have hsub : (before ++ [(t, ParseAction.reduce q)]).Sublist (g.requests s) := by
    rw [hsplit]
    exact List.sublist_append_left _ _
  have hfirst : (t, .reduce p) ∈ before ++ [(t, .reduce q)] := by
    rw [hsplit] at hpmem hrising
    refine (List.mem_append.mp hpmem).resolve_right fun hafter => ?_
    have hqp : q < p := (List.pairwise_append.mp hrising).2.2 (t, .reduce q) (by simp) _ hafter rfl
      q rfl p rfl
    exact absurd hpq (Nat.not_lt.mpr hqp.le)
  have hshift : ∀ s', (t, .shift s') ∉ before ++ [(t, .reduce q)] := fun s' hmem => by
    have hbefore : (t, .shift s') ∈ before := by simpa using hmem
    have hordered' := (List.pairwise_append.mp (hordered.sublist hsub)).2.2
    obtain ⟨r, hr, hin⟩ := hordered' _ hbefore _ List.mem_cons_self s' q rfl rfl
    exact hright r hr hin
  obtain ⟨k, hk, hlookahead, hkept⟩ := ActionRow.exists_kept_of_no_shift (s := s)
    (hrising.sublist hsub) (fun t a b ha hb => hcoherent t a b (hsub.subset ha) (hsub.subset hb))
    (fun r hr => hlt r (hsub.subset hr)) hpq hfirst (by simp) hshift
  have hrecord : k ∈ g.recordsAt s := by
    rw [recordsAt, hsplit, ActionRow.fill, List.foldl_append]
    exact ActionRow.mem_foldl_enter_of_mem hk
  obtain rfl := state_of_mem_recordsAt hrecord
  exact ⟨k, mem_conflicts_iff.mpr ⟨hasks.state_lt, hrecord⟩, rfl, hlookahead, hkept⟩

end Grammar

open Grammar

/-- Where three candidates meet, a record says that no shift was kept, and the tables hold one. -/
theorem exists_kept_three : ∃ g : Grammar, g.IsBuilt ∧ ∃ k ∈ (Automaton.ofGrammar g).conflicts,
    ∃ s', (Automaton.ofGrammar g).action? k.state k.lookahead = some (.shift s') ∧
      ∀ s', k.loss.kept ≠ .shift s' := by
  obtain ⟨g, hg, hproductions, s, s', hshift, hfirst, hsecond⟩ := exists_candidates_three
  have wf := wellFormed_of_isBuilt hg
  have hright : ∀ r ≤ 2, .terminal 3 ∉ (g.production r).right := by
    intro r hr
    rw [production_of_toList hproductions]
    revert r
    decide
  obtain ⟨k, hk, rfl, hlookahead, hkept⟩ :=
    wf.exists_kept_of_right hfirst hsecond (by decide) hright
  refine ⟨g, hg, k, hk, s', ?_, hkept⟩
  rw [hlookahead]
  exact wf.action?_iff_wins.mpr (.shift hshift)

/-- **What a record says.** What was kept is in the tables, or it is a reduction that a shift has
displaced on record; and where no third candidate competes, it is in the tables. -/
theorem conflicts_traced {g : Grammar} (hg : g.IsBuilt) {k : Conflict}
    (hk : k ∈ (Automaton.ofGrammar g).conflicts) :
    ((Automaton.ofGrammar g).action? k.state k.lookahead = some k.loss.kept ∨
      ∃ s' p, k.loss.kept = .reduce p ∧
        (Automaton.ofGrammar g).action? k.state k.lookahead = some (.shift s') ∧
          ⟨k.state, k.lookahead, ⟨.shiftReduce, .shift s', p⟩⟩ ∈ (Automaton.ofGrammar g).conflicts) ∧
      ((∀ a, g.Candidate k.state k.lookahead a → a = k.loss.kept ∨ a = .reduce k.loss.dropped) →
        (Automaton.ofGrammar g).action? k.state k.lookahead = some k.loss.kept) := by
  have wf := wellFormed_of_isBuilt hg
  have htells := wf.tells_of_mem hk
  refine ⟨htells, fun htwo => htells.resolve_right ?_⟩
  rintro ⟨s', p, hkept, hshift, -⟩
  have hcandidate := (wf.action?_iff_wins.mp hshift).candidate
  rcases htwo _ hcandidate with heq | heq
  · rw [hkept] at heq
    cases heq
  · cases heq

/-- In the grammar with three candidates, the record that is out of date was followed by another. -/
theorem conflicts_traced_three : ∃ g : Grammar, g.IsBuilt ∧
    ∃ k ∈ (Automaton.ofGrammar g).conflicts, ∃ s' p, k.loss.kept = .reduce p ∧
      ⟨k.state, k.lookahead, ⟨.shiftReduce, .shift s', p⟩⟩ ∈ (Automaton.ofGrammar g).conflicts := by
  obtain ⟨g, hg, k, hk, s', hact, hkept⟩ := exists_kept_three
  rcases (conflicts_traced hg hk).1 with htable | ⟨s'', p, hreduce, -, hrecord⟩
  · rw [hact] at htable
    exact absurd (Option.some.inj htable).symm (hkept s')
  · exact ⟨g, hg, k, hk, s'', p, hreduce, hrecord⟩

/-- **A record that is out of date.** Behind the minus sign, a reduction is kept over another before
both give way to a shift. -/
theorem exists_conflict_outdated : ∃ g : Grammar, g.IsBuilt ∧
    ∃ k ∈ (Automaton.ofGrammar g).conflicts,
      (Automaton.ofGrammar g).action? k.state k.lookahead ≠ some k.loss.kept := by
  obtain ⟨g, hg, k, hk, s', hact, hkept⟩ := exists_kept_three
  refine ⟨g, hg, k, hk, fun htable => ?_⟩
  rw [hact] at htable
  exact hkept s' (Option.some.inj htable).symm

end FourGL
