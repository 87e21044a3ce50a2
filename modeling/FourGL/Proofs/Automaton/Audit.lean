import FourGL.Proofs.Automaton.Canonical
import FourGL.Proofs.Automaton.Policy

/-!
# Every competition is on record

On a terminal, a state may have several *candidates*: the shift, if the terminal leads on; acceptance,
if the terminal follows the first production; and a reduction for each other complete item that the
terminal follows.

**Theorem (`action?_iff_wins`).** The tables hold the shift if there is one, or else acceptance, or
else the reduction by the first production; and nothing where there is no candidate. For every other
reduction there is one record of a conflict, and there are no further ones. So a strict build fails
exactly if two candidates meet.

Requests are entered one after the other. A reduction asked for is entered or recorded at once, and
recorded when it is displaced; so at every moment each of them is either in the row or on record,
once.
-/

namespace FourGL

/-! ## Filling a row -/

/-- The production that the action completes. -/
def ParseAction.completes? : ParseAction → Option ProductionId
  | .shift _ => none
  | .reduce p => some p
  | .accept => some Grammar.startProduction

/-- The number of records that a reduction lost in a state on a terminal. -/
def recordsOf (conflicts : List Conflict) (s : StateId) (t : TerminalId) (p : ProductionId) : Nat :=
  conflicts.countP fun k => k.state = s ∧ k.lookahead = t ∧ k.loss.dropped = p

namespace ActionRow

variable {s : StateId} {t u : TerminalId} {a : ParseAction} {p : ProductionId} {n : Nat}
  {held : Option ParseAction} {filled : ActionRow × List Conflict} {k : Conflict}
  {requests : List (TerminalId × ParseAction)}

/-- On each terminal, productions are completed in their order, each once. -/
def Rising (requests : List (TerminalId × ParseAction)) : Prop :=
  requests.Pairwise fun r r' =>
    r.1 = r'.1 → ∀ p ∈ r.2.completes?, ∀ q ∈ r'.2.completes?, p < q

/-- How often a reduction is on record or in the row. -/
def tally (s : StateId) (filled : ActionRow × List Conflict) (t : TerminalId) (p : ProductionId) :
    Nat :=
  recordsOf filled.2 s t p + if filled.1.action? t = some (.reduce p) then 1 else 0

theorem contend_of_ne {q : ProductionId} (h : p ≠ q) :
    ParseAction.contend (some (.reduce q)) (.reduce p) =
      (.reduce (min p q), some ⟨.reduceReduce, .reduce (min p q), max p q⟩) := by
  simp [ParseAction.contend, h]

/-- Of those who compete, the one that does not win is dropped. -/
theorem contend_tally (h : held ≠ some a ∨ a.completes? = none) (p : ProductionId) :
    (if (ParseAction.contend held a).2.map (·.dropped) = some p then 1 else 0) +
        (if (ParseAction.contend held a).1 = .reduce p then 1 else 0) =
      (if held = some (.reduce p) then 1 else 0) + if a = .reduce p then 1 else 0 := by
  by_cases hboth : ∃ q r, held = some (.reduce q) ∧ a = .reduce r
  · obtain ⟨q, r, rfl, rfl⟩ := hboth
    have hne : r ≠ q := by
      rintro rfl
      simp [ParseAction.completes?] at h
    rw [contend_of_ne hne]
    rcases Nat.lt_or_gt_of_ne hne with hlt | hlt
    · simp [Nat.min_eq_left hlt.le, Nat.max_eq_right hlt.le]
    · simp [Nat.min_eq_right hlt.le, Nat.max_eq_left hlt.le, Nat.add_comm]
  · rcases held with _ | s | q | _ <;> rcases a with s' | r | _ <;>
      simp [ParseAction.contend] at hboth ⊢

theorem recordsOf_append (cs ds : List Conflict) :
    recordsOf (cs ++ ds) s t p = recordsOf cs s t p + recordsOf ds s t p := List.countP_append

theorem recordsOf_loss {loss : Option Loss} :
    recordsOf (loss.map (⟨s, u, ·⟩ : Loss → Conflict)).toList s t p =
      if u = t ∧ loss.map (·.dropped) = some p then 1 else 0 := by
  cases loss <;> simp [recordsOf, List.countP_cons]

/-- A request is accounted for. -/
theorem tally_enter (hu : u < filled.1.size)
    (h : filled.1.action? u ≠ some a ∨ a.completes? = none) :
    tally s (enter s filled (u, a)) t p =
      tally s filled t p + if (u, a) = (t, .reduce p) then 1 else 0 := by
  have hcontend := contend_tally h p
  simp only [tally, enter, recordsOf_append, recordsOf_loss, action?_set, Prod.mk.injEq]
  by_cases hut : u = t
  · subst hut
    simp only [true_and, hu, and_self, if_true, Option.some.injEq]
    omega
  · simp [hut]

theorem Rising.of_cons {r : TerminalId × ParseAction} (h : Rising (r :: requests)) :
    Rising requests := (List.pairwise_cons.mp h).2

theorem tally_foldl_enter (hr : Rising requests) (hlt : ∀ r ∈ requests, r.1 < filled.1.size)
    (hfresh : ∀ r ∈ requests, filled.1.action? r.1 ≠ some r.2 ∨ r.2.completes? = none) :
    tally s (requests.foldl (enter s) filled) t p =
      tally s filled t p + requests.count (t, .reduce p) := by
  induction requests generalizing filled with
  | nil => simp
  | cons r requests ih =>
    obtain ⟨u, b⟩ := r
    rw [List.foldl_cons, ih hr.of_cons, tally_enter (hlt _ List.mem_cons_self)
      (hfresh _ List.mem_cons_self), List.count_cons, Nat.add_assoc]
    · simp [Nat.add_comm]
    · intro r hmem
      rw [size_enter]
      exact hlt r (List.mem_cons_of_mem _ hmem)
    · rintro ⟨v, c⟩ hmem
      by_cases hc : c.completes? = none
      · exact Or.inr hc
      · refine Or.inl fun hheld => ?_
        -- What the row holds now it held before, or it is what has just been entered.
        have heither : filled.1.action? v = some c ∨ (v, c) ∈ [(u, b)] := action?_foldl_enter hheld
        rcases heither with hbefore | hnow
        · exact (hfresh _ (List.mem_cons_of_mem _ hmem)).elim (· hbefore) hc
        · obtain ⟨rfl, rfl⟩ := Prod.mk.inj (List.mem_singleton.mp hnow)
          obtain ⟨q, hq⟩ := Option.ne_none_iff_exists'.mp hc
          exact absurd ((List.pairwise_cons.mp hr).1 _ hmem rfl q hq q hq) (Nat.lt_irrefl q)

/-- In a row that has been filled, every reduction that was asked for is held or on record. -/
theorem tally_fill (hr : Rising requests) (hlt : ∀ r ∈ requests, r.1 < n) :
    tally s (fill n s requests) t p = requests.count (t, .reduce p) := by
  have hstart : tally s (Array.replicate n none, []) t p = 0 := by
    simp [tally, recordsOf, action?_replicate]
  rw [fill, tally_foldl_enter hr (by simpa using hlt)
    (fun _ _ => Or.inl (by simp [action?_replicate])), hstart, Nat.zero_add]

/-- A reduction is asked for at most once on a terminal. -/
theorem Rising.count_le_one (h : Rising requests) (t : TerminalId) (p : ProductionId) :
    requests.count (t, .reduce p) ≤ 1 := by
  induction requests with
  | nil => simp
  | cons r requests ih =>
    rw [List.count_cons]
    split
    · next heq =>
      obtain rfl := eq_of_beq heq
      rw [List.count_eq_zero_of_not_mem]
      intro hmem
      exact absurd ((List.pairwise_cons.mp h).1 _ hmem rfl p rfl p rfl) (Nat.lt_irrefl p)
    · exact ih h.of_cons

/-- Every record comes from a competition over something asked for. -/
theorem exists_contend_of_mem (h : k ∈ (requests.foldl (enter s) filled).2) :
    k ∈ filled.2 ∨ k.state = s ∧ ∃ held a, (k.lookahead, a) ∈ requests ∧
      (ParseAction.contend held a).2 = some k.loss := by
  induction requests generalizing filled with
  | nil => exact Or.inl h
  | cons r requests ih =>
    rcases ih h with hk | ⟨hstate, held, a, ha, hloss⟩
    · rcases List.mem_append.mp hk with hk | hk
      · exact Or.inl hk
      · obtain ⟨loss, hloss, rfl⟩ := Option.map_eq_some_iff.mp (Option.mem_toList.mp hk)
        exact Or.inr ⟨rfl, _, r.2, List.mem_cons_self, hloss⟩
    · exact Or.inr ⟨hstate, held, a, List.mem_cons_of_mem _ ha, hloss⟩

theorem exists_contend_of_mem_fill (h : k ∈ (fill n s requests).2) :
    k.state = s ∧ ∃ held a, (k.lookahead, a) ∈ requests ∧
      (ParseAction.contend held a).2 = some k.loss :=
  (exists_contend_of_mem h).resolve_left (by simp)

end ActionRow

/-! ## The requests of a state -/

namespace Grammar

variable {g : Grammar} {s s' : StateId} {t : TerminalId} {a b : ParseAction} {i j : Item}
  {p : ProductionId}

/-- Complete items of one production are equal. -/
theorem eq_of_complete (hi : i.Proper g) (hj : j.Proper g) (hri : g.rest i = [])
    (hrj : g.rest j = []) (h : i.production = j.production) : i = j := by
  obtain ⟨p, m⟩ := i
  obtain ⟨q, n⟩ := j
  obtain rfl : p = q := h
  have hm := List.drop_eq_nil_iff.mp hri
  have hn := List.drop_eq_nil_iff.mp hrj
  have hm' := hi.2
  have hn' := hj.2
  simp only at hm hn hm' hn'
  rw [Item.mk.injEq]
  exact ⟨rfl, by omega⟩

theorem map_item_slotted_perm : ((g.slotted s).map (·.item)).Perm (g.itemsOf s) := by
  refine ((List.mergeSort_perm _ _).map _).trans (List.Perm.of_eq ?_)
  rw [List.map_append, List.map_map, List.map_map, itemsOf, Collection.itemsOf]
  refine congrArg₂ _ ?_ ?_
  · exact List.zipIdx_map_fst 0 _
  · exact List.map_id _

/-- Only an item whose positions have run over is in the kernel and started again. -/
theorem WellFormed.pairwise_itemsOf (wf : g.WellFormed) (s : StateId) :
    (g.itemsOf s).Pairwise fun i j => i = j → g.rest i ≠ [] := by
  refine List.pairwise_append.mpr ⟨?_, ?_, fun i hi j hj heq hrest => ?_⟩
  · exact (wf.nodup_kernelOf s).imp fun hne heq => absurd heq hne
  · exact ((List.nodup_range.filter _).map fun p q h => congrArg Item.production h).imp
      fun hne heq => absurd heq hne
  · obtain ⟨p, hp, rfl⟩ := List.mem_map.mp hj
    subst heq
    have hlength := wf.length_le_of_complete (kernelOf_subset_itemsOf hi) hrest
    obtain ⟨-, rfl⟩ := wf.eq_start_of_mem_kernelOf hi hlength
    rw [wf.rest_first] at hrest
    cases hrest

/-- The items of a state stand in the order of items, -/
theorem sorted_slotted (s : StateId) :
    (g.slotted s).Pairwise fun e e' => (compare e.item e'.item).isLE = true :=
  List.pairwise_mergeSort (fun _ _ _ => Std.TransCmp.isLE_trans) (fun a b => by
    have hswap : compare a.item b.item = (compare b.item a.item).swap := Std.OrientedCmp.eq_swap
    rw [hswap]
    cases compare b.item a.item <;> rfl) _

/-- and the complete ones each once. -/
theorem WellFormed.pairwise_slotted (wf : g.WellFormed) (s : StateId) :
    (g.slotted s).Pairwise fun e e' => e.item = e'.item → g.rest e.item ≠ [] := by
  refine List.pairwise_map.mp (map_item_slotted_perm.symm.pairwise (wf.pairwise_itemsOf s) ?_)
  exact fun hij heq => heq ▸ hij heq.symm

/-- What completes a production is asked for by a complete item of the production. -/
theorem complete_of_mem_requests {row : List (Symbol × StateId)} {lookahead : Nat}
    (h : (t, a) ∈ i.requests g row lookahead) (hp : p ∈ a.completes?) :
    g.rest i = [] ∧ p = i.production := by
  simp only [Item.requests] at h
  split at h
  · obtain ⟨s', -, heq⟩ := Option.map_eq_some_iff.mp (Option.mem_toList.mp h)
    cases heq
    cases hp
  · cases h
  · next hx =>
    obtain ⟨u, -, heq⟩ := List.mem_map.mp h
    cases heq
    refine ⟨List.head?_eq_none_iff.mp hx, ?_⟩
    split at hp
    · next hstart =>
      rw [hstart]
      exact (Option.some.inj hp).symm
    · exact (Option.some.inj hp).symm

theorem rising_item_requests (row : List (Symbol × StateId)) (lookahead : Nat) :
    ActionRow.Rising (i.requests g row lookahead) := by
  simp only [Item.requests]
  split
  · cases row.lookup _ <;> simp [ActionRow.Rising]
  · exact .nil
  · have hnodup : (bitsBelow g.vocabulary.terminals.size lookahead).Nodup :=
      List.nodup_range.filter _
    exact List.pairwise_map.mpr (hnodup.imp fun hne heq => absurd heq hne)

theorem production_le_of_isLE (h : (compare i j).isLE = true) : i.production ≤ j.production := by
  by_contra hlt
  have hgt : compare i.production j.production = .gt :=
    Nat.compare_eq_gt.mpr (Nat.lt_of_not_le hlt)
  have hlex : ((compare i.production j.production).then (compare i.dot j.dot)).isLE = true := h
  rw [hgt] at hlex
  cases hlex

/-- The requests of a state complete productions in their order. -/
theorem WellFormed.rising_requests (wf : g.WellFormed) (s : StateId) :
    ActionRow.Rising (g.requests s) := by
  refine List.pairwise_flatMap.mpr ⟨fun e _ => rising_item_requests _ _, ?_⟩
  refine ((sorted_slotted s).and (wf.pairwise_slotted s)).imp_of_mem fun {e e'} he he' hpair => ?_
  rintro ⟨t, a⟩ ha ⟨u, b⟩ hb rfl p hp q hq
  obtain ⟨hrest, rfl⟩ := complete_of_mem_requests ha hp
  obtain ⟨hrest', rfl⟩ := complete_of_mem_requests hb hq
  refine lt_of_le_of_ne (production_le_of_isLE hpair.1) fun heq => hpair.2 ?_ hrest
  exact eq_of_complete (wf.proper_itemsOf (mem_itemsOf_of_slotted he))
    (wf.proper_itemsOf (mem_itemsOf_of_slotted he')) hrest hrest' heq

/-! ## Candidates -/

/-- What a state could do on a terminal: shift it if it leads on, accept if it follows the first
production, and reduce by every other production that is complete and followed by it. -/
inductive Candidate (g : Grammar) (s : StateId) (t : TerminalId) : ParseAction → Prop
  | shift {s' : StateId} : g.goto? s (.terminal t) = some s' → Candidate g s t (.shift s')
  | accept {i : Item} : g.Foresees s i t → g.rest i = [] → i.production = startProduction →
      Candidate g s t .accept
  | reduce {i : Item} : g.Foresees s i t → g.rest i = [] → i.production ≠ startProduction →
      Candidate g s t (.reduce i.production)

/-- The candidate that is preferred: the shift, or else acceptance, or else the reduction by the first
production. -/
inductive Wins (g : Grammar) (s : StateId) (t : TerminalId) : ParseAction → Prop
  | shift {s' : StateId} : g.Candidate s t (.shift s') → Wins g s t (.shift s')
  | accept : g.Candidate s t .accept → (∀ s', ¬ g.Candidate s t (.shift s')) → Wins g s t .accept
  | reduce {p : ProductionId} : g.Candidate s t (.reduce p) →
      (∀ q, g.Candidate s t (.reduce q) → p ≤ q) → (∀ s', ¬ g.Candidate s t (.shift s')) →
      ¬ g.Candidate s t .accept → Wins g s t (.reduce p)

/-- Where a terminal leads on, some item has it next. -/
theorem WellFormed.asks_shift (wf : g.WellFormed) (h : g.goto? s (.terminal t) = some s') :
    g.Asks s t (.shift s') := by
  obtain ⟨j, hj⟩ := List.exists_mem_of_ne_nil _ (wf.kernelOf_goto_ne_nil h)
  obtain ⟨i, hi, hx, -⟩ := (wf.mem_kernelOf_goto h).mp hj
  exact .shift hi hx h

theorem WellFormed.candidate_iff_asks (wf : g.WellFormed) :
    g.Candidate s t a ↔ g.Asks s t a := by
  constructor
  · intro h
    cases h with
    | shift hs => exact wf.asks_shift hs
    | accept hi hr hp => exact .accept (wf.foresees_iff.mp hi) hr hp
    | reduce hi hr hp => exact .reduce (wf.foresees_iff.mp hi) hr hp
  · intro h
    cases h with
    | shift _ _ hs => exact .shift hs
    | accept hi hr hp => exact .accept (wf.foresees_iff.mpr hi) hr hp
    | reduce hi hr hp => exact .reduce (wf.foresees_iff.mpr hi) hr hp

/-- No candidate is preferred to the one that wins. -/
theorem Wins.rank_le (h : g.Wins s t a) (hb : g.Candidate s t b) : a.rank ≤ b.rank := by
  cases h with
  | shift _ => exact Nat.zero_le _
  | accept _ hshift =>
    cases b with
    | shift s' => exact absurd hb (hshift s')
    | reduce q => simp [ParseAction.rank]
    | accept => exact le_rfl
  | reduce _ hleast hshift haccept =>
    cases b with
    | shift s' => exact absurd hb (hshift s')
    | reduce q => exact Nat.add_le_add_right (hleast q hb) 2
    | accept => exact absurd hb haccept

theorem Wins.candidate (h : g.Wins s t a) : g.Candidate s t a := by
  cases h with
  | shift h => exact h
  | accept h _ => exact h
  | reduce h _ _ _ => exact h

theorem wins_of_rank_le (h : g.Candidate s t a)
    (hleast : ∀ b, g.Candidate s t b → a.rank ≤ b.rank) : g.Wins s t a := by
  have hshift : ∀ s', a ≠ .shift s' → ¬ g.Candidate s t (.shift s') := by
    intro s' hne hs'
    have := hleast _ hs'
    cases a with
    | shift s'' =>
      cases h with
      | shift h =>
        cases hs' with
        | shift h' => exact hne (by rw [Option.some.inj (h.symm.trans h')])
    | reduce p => simp [ParseAction.rank] at this
    | accept => simp [ParseAction.rank] at this
  cases a with
  | shift s' => exact .shift h
  | accept => exact .accept h fun s' => hshift s' (by simp)
  | reduce p =>
    refine .reduce h (fun q hq => ?_) (fun s' => hshift s' (by simp)) fun haccept => ?_
    · exact Nat.le_of_add_le_add_right (hleast _ hq)
    · have := hleast _ haccept
      simp [ParseAction.rank] at this

/-- **The candidate that is preferred wins.** -/
theorem WellFormed.action?_iff_wins (wf : g.WellFormed) :
    (Automaton.ofGrammar g).action? s t = some a ↔ g.Wins s t a := by
  constructor
  · intro h
    refine wins_of_rank_le (wf.candidate_iff_asks.mpr (wf.asks_of_action? h)) fun b hb => ?_
    obtain ⟨a', ha', hle⟩ := wf.exists_action?_of_asks (wf.candidate_iff_asks.mp hb)
    rw [h] at ha'
    cases ha'
    exact hle
  · intro h
    exact wf.action?_of_least (wf.candidate_iff_asks.mp h.candidate) fun b hb =>
      h.rank_le (wf.candidate_iff_asks.mpr hb)

theorem WellFormed.action?_eq_none_iff (wf : g.WellFormed) :
    (Automaton.ofGrammar g).action? s t = none ↔ ∀ a, ¬ g.Candidate s t a := by
  constructor
  · intro h a ha
    obtain ⟨a', ha', -⟩ := wf.exists_action?_of_asks (wf.candidate_iff_asks.mp ha)
    rw [h] at ha'
    cases ha'
  · intro h
    cases ha : (Automaton.ofGrammar g).action? s t with
    | none => rfl
    | some a => exact absurd (wf.candidate_iff_asks.mpr (wf.asks_of_action? ha)) (h a)

/-! ## Records -/

/-- The reduction is a candidate, and another candidate is preferred to it. -/
def Loses (g : Grammar) (s : StateId) (t : TerminalId) (p : ProductionId) : Prop :=
  g.Candidate s t (.reduce p) ∧ ¬ g.Wins s t (.reduce p)

/-- The records of a state, in the order of discovery. -/
def recordsAt (g : Grammar) (s : StateId) : List Conflict :=
  (ActionRow.fill g.vocabulary.terminals.size s (g.requests s)).2

theorem conflicts_ofGrammar :
    (Automaton.ofGrammar g).conflicts = (List.range g.stateCount).flatMap g.recordsAt := by
  show g.filledRows.toList.flatMap (·.2) = _
  have hrows : g.filledRows.toList = (List.range g.stateCount).map fun s =>
      ActionRow.fill g.vocabulary.terminals.size s (g.requests s) := by
    refine List.ext_getElem? fun s => ?_
    rw [Array.getElem?_toList, List.getElem?_map]
    by_cases hs : s < g.stateCount
    · rw [getElem?_filledRows hs, List.getElem?_range hs]
      rfl
    · have hsize : g.filledRows.size = g.stateCount := by
        simp [filledRows, slottedStates, stateCount]
      rw [Array.getElem?_eq_none (by omega), List.getElem?_eq_none (by simpa using hs)]
      rfl
  rw [hrows, List.flatMap_map]
  rfl

theorem state_of_mem_recordsAt {k : Conflict} (h : k ∈ g.recordsAt s) : k.state = s :=
  (ActionRow.exists_contend_of_mem_fill h).1

theorem mem_conflicts_iff {k : Conflict} :
    k ∈ (Automaton.ofGrammar g).conflicts ↔ k.state < g.stateCount ∧ k ∈ g.recordsAt k.state := by
  rw [conflicts_ofGrammar, List.mem_flatMap]
  constructor
  · rintro ⟨s, hs, hk⟩
    rw [state_of_mem_recordsAt hk]
    exact ⟨List.mem_range.mp hs, hk⟩
  · rintro ⟨hs, hk⟩
    exact ⟨k.state, List.mem_range.mpr hs, hk⟩

/-- The records about a state are those that were made when its row was filled. -/
theorem recordsOf_flatMap_range (n : Nat) :
    recordsOf ((List.range n).flatMap g.recordsAt) s t p =
      if s < n then recordsOf (g.recordsAt s) s t p else 0 := by
  induction n with
  | zero => rfl
  | succ n ih =>
    rw [List.range_succ, List.flatMap_append, ActionRow.recordsOf_append, ih,
      List.flatMap_singleton]
    by_cases hs : s = n
    · subst hs
      simp
    · have hzero : recordsOf (g.recordsAt n) s t p = 0 := by
        refine List.countP_eq_zero.mpr fun k hk => ?_
        have := state_of_mem_recordsAt hk
        simp [this, Ne.symm hs]
      have hlt : s < n + 1 ↔ s < n := Nat.lt_succ_iff.trans (Nat.le_iff_lt_or_eq.trans (or_iff_left hs))
      rw [hzero, Nat.add_zero, if_congr hlt rfl rfl]

theorem WellFormed.requests_of_le (wf : g.WellFormed) (hs : g.stateCount ≤ s) :
    g.requests s = [] := by
  refine List.eq_nil_iff_forall_not_mem.mpr fun r hr => ?_
  have hlt := (wf.mem_requests_iff.mp (show (r.1, r.2) ∈ g.requests s from hr)).state_lt
  exact absurd hlt (Nat.not_lt.mpr hs)

/-- Every reduction that a state asks for is in the tables or on record. -/
theorem WellFormed.recordsOf_add_held (wf : g.WellFormed) (s : StateId) (t : TerminalId)
    (p : ProductionId) :
    recordsOf (Automaton.ofGrammar g).conflicts s t p +
        (if (Automaton.ofGrammar g).action? s t = some (.reduce p) then 1 else 0) =
      (g.requests s).count (t, .reduce p) := by
  rw [conflicts_ofGrammar, recordsOf_flatMap_range]
  by_cases hs : s < g.stateCount
  · rw [if_pos hs, action?_ofGrammar hs]
    refine ActionRow.tally_fill (wf.rising_requests s) fun r hr => ?_
    exact wf.lt_of_asks (wf.mem_requests_iff.mp hr)
  · rw [if_neg hs, wf.requests_of_le (Nat.le_of_not_lt hs), action?_of_le (Nat.le_of_not_lt hs)]
    rfl

theorem WellFormed.recordsOf_of_loses (wf : g.WellFormed) (h : g.Loses s t p) :
    recordsOf (Automaton.ofGrammar g).conflicts s t p = 1 := by
  have hsum := wf.recordsOf_add_held s t p
  rw [if_neg fun hact => h.2 (wf.action?_iff_wins.mp hact), Nat.add_zero] at hsum
  have hpos : 0 < (g.requests s).count (t, .reduce p) :=
    List.count_pos_iff.mpr (wf.mem_requests_iff.mpr (wf.candidate_iff_asks.mp h.1))
  have hle := (wf.rising_requests s).count_le_one t p
  omega

theorem WellFormed.loses_of_mem (wf : g.WellFormed) {k : Conflict}
    (h : k ∈ (Automaton.ofGrammar g).conflicts) : g.Loses k.state k.lookahead k.loss.dropped := by
  have hsum := wf.recordsOf_add_held k.state k.lookahead k.loss.dropped
  have hpos : 0 < recordsOf (Automaton.ofGrammar g).conflicts k.state k.lookahead
      k.loss.dropped := List.countP_pos_iff.mpr ⟨k, h, by simp⟩
  have hle := (wf.rising_requests k.state).count_le_one k.lookahead k.loss.dropped
  constructor
  · have hmem : 0 < (g.requests k.state).count (k.lookahead, .reduce k.loss.dropped) := by omega
    exact wf.candidate_iff_asks.mpr (wf.mem_requests_iff.mp (List.count_pos_iff.mp hmem))
  · intro hwins
    rw [if_pos (wf.action?_iff_wins.mpr hwins)] at hsum
    omega

/-- Where two candidates meet, some reduction loses. -/
theorem WellFormed.exists_loses (wf : g.WellFormed) (ha : g.Candidate s t a)
    (hb : g.Candidate s t b) (hne : a ≠ b) : ∃ p, g.Loses s t p := by
  -- At least one of the two is a reduction, for otherwise they are equal.
  have hreduce : (∃ p, a = .reduce p) ∨ ∃ p, b = .reduce p := by
    by_contra hnone
    simp only [not_or, not_exists] at hnone
    exact hne (wf.coherent_requests t a b (wf.mem_requests_iff.mpr (wf.candidate_iff_asks.mp ha))
      (wf.mem_requests_iff.mpr (wf.candidate_iff_asks.mp hb)) hnone.1 hnone.2)
  have hlose : ∀ {a b : ParseAction} {p : ProductionId}, a = .reduce p → g.Candidate s t a →
      g.Candidate s t b → a ≠ b → ∃ p, g.Loses s t p := by
    rintro _ b p rfl ha hb hne
    by_cases hwins : g.Wins s t (.reduce p)
    · have hrank := hwins.rank_le hb
      cases b with
      | shift s' => simp [ParseAction.rank] at hrank
      | accept => simp [ParseAction.rank] at hrank
      | reduce q =>
        refine ⟨q, hb, fun hq => hne ?_⟩
        exact Option.some.inj ((wf.action?_iff_wins.mpr hwins).symm.trans
          (wf.action?_iff_wins.mpr hq))
    · exact ⟨p, ha, hwins⟩
  rcases hreduce with ⟨p, hp⟩ | ⟨p, hp⟩
  · exact hlose hp ha hb hne
  · exact hlose hp hb ha (Ne.symm hne)

/-- A strict build fails if there is a record. -/
theorem exists_ofGrammarStrict_error_iff :
    (∃ e, Automaton.ofGrammarStrict g = .error e) ↔
      ∃ k, k ∈ (Automaton.ofGrammar g).conflicts := by
  simp only [Automaton.ofGrammarStrict]
  cases (Automaton.ofGrammar g).conflicts with
  | nil => simp
  | cons k ks => simp

end Grammar

open Grammar

/-- **Every competition is on record.** The tables hold the preferred candidate, and nothing where
there is none. Each reduction that loses has one record, every record is of such a loss, and a strict
build fails exactly if two candidates meet. -/
theorem conflicts_audited {g : Grammar} (hg : g.IsBuilt) :
    (∀ s t a, (Automaton.ofGrammar g).action? s t = some a ↔ g.Wins s t a) ∧
      (∀ s t, (Automaton.ofGrammar g).action? s t = none ↔ ∀ a, ¬ g.Candidate s t a) ∧
      (∀ s t p, g.Loses s t p → recordsOf (Automaton.ofGrammar g).conflicts s t p = 1) ∧
      (∀ k ∈ (Automaton.ofGrammar g).conflicts, g.Loses k.state k.lookahead k.loss.dropped) ∧
      ((∃ e, Automaton.ofGrammarStrict g = .error e) ↔
        ∃ s t a b, g.Candidate s t a ∧ g.Candidate s t b ∧ a ≠ b) := by
  have wf := wellFormed_of_isBuilt hg
  refine ⟨fun _ _ _ => wf.action?_iff_wins, fun _ _ => wf.action?_eq_none_iff,
    fun _ _ _ => wf.recordsOf_of_loses, fun _ => wf.loses_of_mem, ?_⟩
  rw [exists_ofGrammarStrict_error_iff]
  constructor
  · rintro ⟨k, hk⟩
    obtain ⟨hcandidate, hloses⟩ := wf.loses_of_mem hk
    cases hact : (Automaton.ofGrammar g).action? k.state k.lookahead with
    | none => exact absurd hcandidate (wf.action?_eq_none_iff.mp hact _)
    | some a =>
      have hwins := wf.action?_iff_wins.mp hact
      exact ⟨k.state, k.lookahead, a, _, hwins.candidate, hcandidate, fun h => hloses (h ▸ hwins)⟩
  · rintro ⟨s, t, a, b, ha, hb, hne⟩
    obtain ⟨p, hp⟩ := wf.exists_loses ha hb hne
    have hpos : 0 < recordsOf (Automaton.ofGrammar g).conflicts s t p := by
      rw [wf.recordsOf_of_loses hp]
      exact Nat.one_pos
    obtain ⟨k, hk, -⟩ := List.countP_pos_iff.mp hpos
    exact ⟨k, hk⟩

/-! ## Three candidates -/

/-- A grammar in which two signs are read in three ways. -/
def threeSteps : List DeclarationStep :=
  [.rule "a" (.symbol "-"), .rule "b" (.symbol "-"),
    .rule "s" (.alt [.seq [.ref "a", .symbol "+"], .seq [.ref "b", .symbol "+"],
      .seq [.symbol "-", .symbol "+"]]), .root "s"]

/-- The productions of that grammar. -/
def threeProductions : List Production :=
  [⟨0, [.nonterminal 3], .accept⟩, ⟨1, [.terminal 2], .node "a"⟩, ⟨2, [.terminal 2], .node "b"⟩,
    ⟨3, [.nonterminal 1, .terminal 3], .node "s"⟩, ⟨3, [.nonterminal 2, .terminal 3], .node "s"⟩,
    ⟨3, [.terminal 2, .terminal 3], .node "s"⟩]

theorem exists_build_three : ∃ g : Grammar, (Declarations.ofSteps "three" threeSteps).build = .ok g ∧
    g.productions.toList = threeProductions := by
  have hassemble : ((Declarations.ofSteps "three" threeSteps).assemble.toOption.any fun g =>
      g.nonterminals.size == 4 && g.productions.toList == threeProductions) = true := by decide +kernel
  cases hg : (Declarations.ofSteps "three" threeSteps).assemble with
  | error e =>
    rw [hg] at hassemble
    cases hassemble
  | ok g =>
    rw [hg] at hassemble
    simp only [Except.toOption, Option.any_some, Bool.and_eq_true, beq_iff_eq] at hassemble
    obtain ⟨hsize, hproductions⟩ := hassemble
    have hcheck : checkNonterminals g.nonterminals g.productions.toList = .ok () := by
      refine checkNonterminals_eq_ok ?_ ?_ <;> rw [hsize, hproductions] <;> decide +kernel
    exact ⟨g, Declarations.build_eq_ok hg hcheck, hproductions⟩

/-- Behind the first sign the second may be shifted, or either of two productions reduced. -/
theorem exists_candidates_three : ∃ g : Grammar, g.IsBuilt ∧
    g.productions.toList = threeProductions ∧ ∃ s s', g.Candidate s 3 (.shift s') ∧
      g.Candidate s 3 (.reduce 1) ∧ g.Candidate s 3 (.reduce 2) := by
  obtain ⟨g, hbuild, hproductions⟩ := exists_build_three
  have hbuilt : g.IsBuilt := ⟨"three", threeSteps, hbuild⟩
  have wf := wellFormed_of_isBuilt hbuilt
  have hproduction := production_of_toList hproductions
  have hsize : g.productions.size = 6 := size_of_toList hproductions
  have hroot : ∀ p ∈ [3, 4, 5], g.LooksAhead Automaton.start (.initial p) Vocabulary.endOfInput := by
    intro p hp
    refine wf.looksAhead_close wf.looksAhead_start (n := 3) ?_ ?_ ?_ .nil
    all_goals simp only [Grammar.rest_initial, hproduction, hsize]
    · rfl
    · revert p
      decide
    · revert p
      decide
  have hplus : g.Yields [.terminal 3] [3] 1 := .terminal .nil
  have hleft : g.LooksAhead Automaton.start (.initial 1) 3 := by
    refine wf.looksAhead_close (hroot 3 (by decide)) (n := 1) ?_ ?_ ?_ hplus
    all_goals simp only [Grammar.rest_initial, hproduction, hsize]; decide
  have hright : g.LooksAhead Automaton.start (.initial 2) 3 := by
    refine wf.looksAhead_close (hroot 4 (by decide)) (n := 2) ?_ ?_ ?_ hplus
    all_goals simp only [Grammar.rest_initial, hproduction, hsize]; decide
  have hminus : ∀ p ∈ [1, 2, 5], g.nextSymbol? (.initial p) = some (.terminal 2) := by
    simp only [nextSymbol?_initial, hproduction]
    decide
  -- Behind the minus sign all three meet.
  obtain ⟨s, hs⟩ := wf.exists_goto hleft.mem (hminus 1 (by decide))
  have hboth := wf.looksAhead_advance (hroot 5 (by decide)) (hminus 5 (by decide)) hs
  have hnext : g.nextSymbol? (Item.initial 5).advance = some (.terminal 3) := by
    rw [nextSymbol?, rest, hproduction]
    rfl
  obtain ⟨s', hs'⟩ := wf.exists_goto hboth.mem hnext
  have hcomplete : ∀ p ∈ [1, 2], g.rest (Item.initial p).advance = [] := by
    simp only [rest, hproduction]
    decide
  have hreduce : ∀ p ∈ [1, 2], g.LooksAhead Automaton.start (.initial p) 3 →
      g.Candidate s 3 (.reduce p) := by
    intro p hp hlook
    have hlook' := wf.looksAhead_advance hlook (hminus p (List.mem_append_left [5] hp)) hs
    refine .reduce (wf.foresees_iff.mpr hlook') (hcomplete p hp) ?_
    rintro rfl
    revert hp
    decide
  exact ⟨g, hbuilt, hproductions, s, s', .shift hs', hreduce 1 (by decide) hleft,
    hreduce 2 (by decide) hright⟩

/-- Both reductions are on record, each once, and a strict build fails. -/
theorem conflicts_audited_three : ∃ g : Grammar, g.IsBuilt ∧ ∃ s,
    recordsOf (Automaton.ofGrammar g).conflicts s 3 1 = 1 ∧
      recordsOf (Automaton.ofGrammar g).conflicts s 3 2 = 1 ∧
        ∃ e, Automaton.ofGrammarStrict g = .error e := by
  obtain ⟨g, hg, -, s, s', hshift, hfirst, hsecond⟩ := exists_candidates_three
  obtain ⟨-, -, hlost, -, hstrict⟩ := conflicts_audited hg
  have hloses : ∀ p, ¬ g.Wins s 3 (.reduce p) := fun p hwins => by
    cases hwins with
    | reduce _ _ hnone _ => exact hnone s' hshift
  exact ⟨g, hg, s, hlost s 3 1 ⟨hfirst, hloses 1⟩, hlost s 3 2 ⟨hsecond, hloses 2⟩,
    hstrict.mpr ⟨s, 3, _, _, hfirst, hsecond, by decide⟩⟩

end FourGL
