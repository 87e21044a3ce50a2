import FourGL.Editor.LineStates
import FourGL.Proofs.Token.Lines
import Mathlib.Order.Nat
import Mathlib.Tactic.Set

/-!
# Line states stay in step with the text

An editor scans the lines again that changed, and stops early behind them. What it has recorded is
then right again, as long as it asks for every line that changed.

A line is *consistent* when the state recorded for it is the one that its text leaves after the
state recorded for the line before it. Scanning some lines again makes these consistent and keeps
the consistency of all others: the scan goes on to the last line, or it stops behind a line whose
recorded state it has not changed.

**Theorem (`consistent_after_edits`).** Every rescan is sound in this sense. After any sequence of
changes, insertions, removals, invalidations and rescans, once every change has been asked for, the
recorded states are those of a scan of the whole text.
-/

namespace FourGL

open LineStates

variable {v : Vocabulary} {state : LineState} {need : Nat} {old states : LineStates}
  {lines : List String} {first last i : Nat}

/-! ## Consistent lines -/

namespace LineStates

/-- The state recorded for a line is the one in which its text leaves the next line, started in the
state recorded for the line before. -/
def Consistent (v : Vocabulary) (lines : List String) (states : LineStates) (i : Nat) : Prop :=
  ∃ line, lines[i]? = some line ∧
    states.after? i = some (v.scanLine line.toList (states.before i)).state

theorem Consistent.lt_length (h : Consistent v lines states i) : i < lines.length := by
  obtain ⟨line, hline, -⟩ := h
  exact (List.getElem?_eq_some_iff.mp hline).1

theorem before_eq (states : LineStates) (i : Nat) :
    states.before i = ((LineState.neutral :: states)[i]?).getD .neutral := by
  cases i <;> rfl

/-- Consistency looks at nothing but the line, its state and the state before it. -/
theorem Consistent.congr {lines' : List String} {states' : LineStates}
    (h : Consistent v lines states i) (hline : lines'[i]? = lines[i]?)
    (hafter : states'[i]? = states[i]?) (hbefore : states'.before i = states.before i) :
    Consistent v lines' states' i := by
  obtain ⟨line, hget, hstate⟩ := h
  exact ⟨line, hline.trans hget, by rw [after?, hafter, hbefore]; exact hstate⟩

/-- Where two records agree on the line before, they agree on the state before the line. -/
theorem before_congr {states' : LineStates} (h : ∀ k, i = k + 1 → states'[k]? = states[k]?) :
    states'.before i = states.before i := by
  cases i with
  | zero => rfl
  | succ k => rw [before, before, after?, after?, h k rfl]

/-- In a scan of the whole text every line is consistent. -/
theorem consistent_statesOf (h : i < lines.length) :
    Consistent v lines (v.statesOf (lines.map String.toList)) i := by
  have hscan := congrArg (·[i]?)
    (Vocabulary.scanLines_eq_zipWith v .neutral (lines.map String.toList))
  have hbefore : i < (LineState.neutral :: v.statesOf (lines.map String.toList)).length := by
    simp [Vocabulary.statesOf]
    omega
  refine ⟨lines[i], List.getElem?_eq_getElem h, ?_⟩
  simp only [List.getElem?_zipWith, List.getElem?_map, List.getElem?_eq_getElem h] at hscan
  rw [before_eq, after?, Vocabulary.statesOf, List.getElem?_map, hscan, ← Vocabulary.statesOf,
    List.getElem?_eq_getElem hbefore]
  rfl

/-- A record all of whose lines are consistent is the start of the states of the text. -/
theorem isPrefix_of_consistent (h : ∀ i < states.length, Consistent v lines states i) :
    states <+: v.statesOf (lines.map String.toList) := by
  have hget : ∀ i < states.length, states[i]? = (v.statesOf (lines.map String.toList))[i]? := by
    intro i
    induction i using Nat.strong_induction_on with
    | _ i ih =>
      intro hi
      obtain ⟨line, hline, hstate⟩ := h i hi
      obtain ⟨line', hline', hstate'⟩ := consistent_statesOf (v := v) (h i hi).lt_length
      obtain rfl : line = line' := Option.some.inj (hline.symm.trans hline')
      have hbefore : states.before i = before (v.statesOf (lines.map String.toList)) i :=
        before_congr fun k hk => ih k (by omega) (by omega)
      rw [hbefore] at hstate
      exact hstate.trans hstate'.symm
  refine List.prefix_iff_eq_take.mpr (List.ext_getElem? fun i => ?_)
  rw [List.getElem?_take]
  split
  · next hi => exact hget i hi
  · next hi => exact List.getElem?_eq_none (by omega)

/-! ## Scanning until the states agree -/

/-- The lines scanned are a run of the text in order. -/
theorem scanned_rescanFrom : (rescanFrom v state need old lines).1 =
    (v.scanLines state (lines.map String.toList)).take
      (rescanFrom v state need old lines).1.length := by
  induction lines generalizing state need old with
  | nil => rfl
  | cons line lines ih =>
    simp only [rescanFrom, List.map_cons, Vocabulary.scanLines]
    split
    · rfl
    · rw [List.length_cons, List.take_succ_cons, ← ih]

/-- The new states are those of the scanned lines, and behind them the old ones. -/
theorem states_rescanFrom (h : old.length ≤ lines.length) :
    (rescanFrom v state need old lines).2 = (rescanFrom v state need old lines).1.map (·.state) ++
      old.drop (rescanFrom v state need old lines).1.length := by
  induction lines generalizing state need old with
  | nil => simpa [rescanFrom] using h
  | cons line lines ih =>
    simp only [rescanFrom]
    split
    · simp
    · have htail : old.tail.length ≤ lines.length := by
        rw [List.length_tail]
        rw [List.length_cons] at h
        omega
      simp [ih htail]

/-- The scan goes on to the end, or to a line after the requested ones whose state it keeps. -/
theorem stop_rescanFrom (v : Vocabulary) (state : LineState) (need : Nat) (old : LineStates)
    (lines : List String) : (rescanFrom v state need old lines).1.length = lines.length ∨
    ∃ n, (rescanFrom v state need old lines).1.length = n + 1 ∧ need ≤ n + 1 ∧
      (rescanFrom v state need old lines).1[n]?.map (·.state) = old[n]? := by
  induction lines generalizing state need old with
  | nil => exact .inl rfl
  | cons line lines ih =>
    simp only [rescanFrom]
    split
    · next h =>
      simp only [Bool.and_eq_true, decide_eq_true_eq, beq_iff_eq] at h
      exact .inr ⟨0, rfl, h.1, by simp [← h.2, List.head?_eq_getElem?]⟩
    · rcases ih (v.scanLine line.toList state).state (need - 1) old.tail with
        hall | ⟨n, hlen, hneed, hlast⟩
      · exact .inl (by rw [List.length_cons, List.length_cons, hall])
      · refine .inr ⟨n + 1, by rw [List.length_cons, hlen], by omega, ?_⟩
        rw [List.getElem?_cons_succ, hlast, List.getElem?_tail]

/-! ## Rescans -/

end LineStates

namespace Rescan

/-- What a rescan of the lines from `first` to `last` achieves. -/
structure Sound (v : Vocabulary) (lines : List String) (states : LineStates) (first last : Nat)
    (r : Rescan) : Prop where
  /-- Every scanned line is scanned in the state recorded before it, and its state is recorded. -/
  scanned : ∀ i, r.first ≤ i → i < r.stop → ∃ line, lines[i]? = some line ∧
    r.scanned[i - r.first]? = some (v.scanLine line.toList (r.states.before i)) ∧
    r.states.after? i = some (v.scanLine line.toList (r.states.before i)).state
  /-- The requested lines are among them. -/
  requested : ∀ i, first ≤ i → i ≤ last → i < lines.length → r.first ≤ i ∧ i < r.stop
  /-- The record reaches the last requested line. -/
  reaches : lines ≠ [] → min last (lines.length - 1) < r.states.length
  /-- There is no record beyond the text. -/
  within : r.states.length ≤ lines.length
  /-- The other lines keep their states. -/
  unchanged : ∀ i, ¬ (r.first ≤ i ∧ i < r.stop) → i < lines.length →
    r.states.after? i = states.after? i
  /-- They stay as consistent as they were. -/
  kept : ∀ i, ¬ (r.first ≤ i ∧ i < r.stop) → Consistent v lines states i →
    Consistent v lines r.states i

theorem Sound.consistent {r : Rescan} (h : r.Sound v lines states first last) (hfirst : r.first ≤ i)
    (hstop : i < r.stop) : Consistent v lines r.states i := by
  obtain ⟨line, hline, -, hstate⟩ := h.scanned i hfirst hstop
  exact ⟨line, hline, hstate⟩

/-- A record with some states replaced by those of scanned lines. -/
def Patches (v : Vocabulary) (lines : List String) (kept : LineStates) (r : Rescan) : Prop :=
  r.first ≤ kept.length ∧
  r.states = kept.take r.first ++ (r.scanned.map (·.state) ++ kept.drop r.stop) ∧
  r.scanned = (v.scanLines (kept.before r.first)
    ((lines.drop r.first).map String.toList)).take r.scanned.length

namespace Patches

variable {kept : LineStates} {r : Rescan}

theorem stop_le (h : r.Patches v lines kept) (hlen : kept.length ≤ lines.length) :
    r.stop ≤ lines.length := by
  have hscanned := congrArg List.length h.2.2
  have hfirst := h.1
  simp only [List.length_take, Vocabulary.length_scanLines, List.length_map,
    List.length_drop] at hscanned
  unfold stop
  omega

theorem getElem?_below (h : r.Patches v lines kept) (hi : i < r.first) :
    r.states[i]? = kept[i]? := by
  have hlen : i < (kept.take r.first).length := by
    rw [List.length_take, Nat.min_eq_left h.1]
    exact hi
  rw [h.2.1, List.getElem?_append_left hlen, List.getElem?_take_of_lt hi]

theorem getElem?_scanned (h : r.Patches v lines kept) {j : Nat} (hj : j < r.scanned.length) :
    r.states[r.first + j]? = r.scanned[j]?.map (·.state) := by
  have hlen : (kept.take r.first).length = r.first := by
    rw [List.length_take, Nat.min_eq_left h.1]
  rw [h.2.1, List.getElem?_append_right (by omega), hlen, Nat.add_sub_cancel_left,
    List.getElem?_append_left (by simpa using hj), List.getElem?_map]

theorem getElem?_above (h : r.Patches v lines kept) (hi : r.stop ≤ i) :
    r.states[i]? = kept[i]? := by
  have hlen : (kept.take r.first).length = r.first := by
    rw [List.length_take, Nat.min_eq_left h.1]
  unfold stop at hi
  rw [h.2.1, List.getElem?_append_right (by omega), hlen,
    List.getElem?_append_right (by rw [List.length_map]; omega), List.length_map,
    List.getElem?_drop]
  congr 1
  unfold stop
  omega

theorem length_states (h : r.Patches v lines kept) :
    r.states.length = max r.stop kept.length := by
  have hfirst := h.1
  rw [h.2.1]
  simp only [List.length_append, List.length_take, List.length_map, List.length_drop, stop]
  omega

/-- The state in which a line is scanned is the one recorded before it. -/
theorem getElem?_before (h : r.Patches v lines kept) {j : Nat} (hj : j < r.scanned.length) :
    (kept.before r.first :: (v.scanLines (kept.before r.first)
      ((lines.drop r.first).map String.toList)).map (·.state))[j]? =
      some (r.states.before (r.first + j)) := by
  cases j with
  | zero =>
    rw [List.getElem?_cons_zero, Nat.add_zero]
    exact congrArg some (before_congr fun k hk => h.getElem?_below (by omega)).symm
  | succ j =>
    have hj' : j < r.scanned.length := Nat.lt_of_succ_lt hj
    have hstate := h.getElem?_scanned hj'
    rw [List.getElem?_eq_getElem hj', Option.map_some] at hstate
    have hscan := congrArg (·[j]?) h.2.2
    simp only [List.getElem?_take_of_lt hj', List.getElem?_eq_getElem hj'] at hscan
    rw [List.getElem?_cons_succ, List.getElem?_map, ← hscan, ← Nat.add_assoc, before, after?,
      hstate]
    rfl

theorem scanned (h : r.Patches v lines kept) (hlen : kept.length ≤ lines.length)
    (hfirst : r.first ≤ i) (hstop : i < r.stop) : ∃ line, lines[i]? = some line ∧
      r.scanned[i - r.first]? = some (v.scanLine line.toList (r.states.before i)) ∧
      r.states.after? i = some (v.scanLine line.toList (r.states.before i)).state := by
  obtain ⟨j, rfl⟩ := Nat.exists_eq_add_of_le hfirst
  have hj : j < r.scanned.length := by
    unfold stop at hstop
    omega
  obtain ⟨line, hline⟩ : ∃ line, lines[r.first + j]? = some line :=
    ⟨_, List.getElem?_eq_getElem (Nat.lt_of_lt_of_le hstop (h.stop_le hlen))⟩
  have hscan : r.scanned[j]? = some (v.scanLine line.toList (r.states.before (r.first + j))) := by
    rw [h.2.2, List.getElem?_take_of_lt hj, Vocabulary.scanLines_eq_zipWith,
      List.getElem?_zipWith, h.getElem?_before hj, List.getElem?_map, List.getElem?_drop, hline]
    rfl
  refine ⟨line, hline, by rw [Nat.add_sub_cancel_left, hscan], ?_⟩
  rw [after?, h.getElem?_scanned hj, hscan]
  rfl

end Patches

end Rescan

/-- A rescan patches the record, cut off at the end of the text. -/
theorem patches_retokenize (v : Vocabulary) (states : LineStates) (lines : List String)
    (first last : Nat) :
    (retokenize v states lines first last).Patches v lines (states.take lines.length) := by
  have hlen : ((states.take lines.length).drop
      (min first (states.take lines.length).length)).length ≤
      (lines.drop (min first (states.take lines.length).length)).length := by
    simp only [List.length_drop, List.length_take]
    omega
  refine ⟨Nat.min_le_right _ _, ?_, scanned_rescanFrom⟩
  simp only [retokenize, states_rescanFrom hlen, List.drop_drop, Rescan.stop]

/-- **A rescan is sound.** -/
theorem sound_retokenize (v : Vocabulary) (states : LineStates) (lines : List String)
    (first last : Nat) :
    (retokenize v states lines first last).Sound v lines states first last := by
  set kept := states.take lines.length with hkept
  have hlen : kept.length ≤ lines.length := by rw [hkept, List.length_take]; exact Nat.min_le_left _ _
  set r := retokenize v states lines first last with hr
  have hpatch : r.Patches v lines kept := patches_retokenize v states lines first last
  have hfirst : r.first = min first kept.length := rfl
  have hstop : r.stop = lines.length ∨
      last < r.stop ∧ 0 < r.scanned.length ∧ r.states[r.stop - 1]? = kept[r.stop - 1]? := by
    rcases stop_rescanFrom v (LineStates.before kept r.first) (last + 1 - r.first)
      (kept.drop r.first) (lines.drop r.first) with hall | ⟨n, hn, hneed, hlast⟩
    · refine .inl ?_
      have hall' : r.scanned.length = (lines.drop r.first).length := hall
      have := hpatch.1
      rw [List.length_drop] at hall'
      unfold Rescan.stop
      omega
    · have hn' : r.scanned.length = n + 1 := hn
      have hlast' : r.scanned[n]?.map (·.state) = (kept.drop r.first)[n]? := hlast
      have hstop : r.stop - 1 = r.first + n := by
        unfold Rescan.stop
        omega
      refine .inr ⟨by unfold Rescan.stop; omega, by omega, ?_⟩
      rw [hstop, hpatch.getElem?_scanned (by omega), hlast', List.getElem?_drop]
  have hbound := hpatch.stop_le hlen
  have hlength := hpatch.length_states
  have hkept : ∀ k < lines.length, kept[k]? = states[k]? := fun k hk =>
    List.getElem?_take_of_lt hk
  have hunchanged : ∀ k, ¬ (r.first ≤ k ∧ k < r.stop) → k < lines.length →
      r.states[k]? = states[k]? := by
    intro k hk hline
    rw [← hkept k hline]
    rcases Nat.lt_or_ge k r.first with hbefore | hafter
    · exact hpatch.getElem?_below hbefore
    · exact hpatch.getElem?_above (by omega)
  refine ⟨fun i => hpatch.scanned hlen, fun i hi hi' hline => by omega, fun hne => ?_, by omega,
    hunchanged, fun i hi hcons => ?_⟩
  · have := List.length_pos_iff.mpr hne
    omega
  · have hline : i < lines.length := hcons.lt_length
    refine hcons.congr rfl (hunchanged i hi hline) (before_congr fun k hk => ?_)
    by_cases hlast : r.first ≤ k ∧ k < r.stop
    · -- The line comes after the last scanned one, whose recorded state did not change.
      obtain hall | ⟨-, -, hsame⟩ := hstop
      · omega
      · rw [show k = r.stop - 1 by omega, hsame, hkept _ (by omega)]
    · exact hunchanged k hlast (by omega)

/-! ## Sequences of edits -/

/-- An editor's view of a text: its lines, the states recorded for them, and the changed lines that
no rescan has been asked for yet. -/
structure Session where
  lines : List String
  states : LineStates := []
  pending : List Nat := []

/-- What happens in an editor. -/
inductive Edit where
  /-- The text of a line changes. -/
  | change (i : Nat) (text : String)
  /-- The states from a line on are forgotten. -/
  | invalidate (i : Nat)
  /-- Some lines are replaced by any number of others. -/
  | splice (i removed : Nat) (inserted : List String)
  /-- A rescan of the lines from `first` to `last` is asked for. -/
  | rescan (first last : Nat)

namespace Session

/-- The session after an edit. -/
def after (v : Vocabulary) (s : Session) : Edit → Session
  | .change i text => { s with lines := s.lines.set i text, pending := i :: s.pending }
  | .invalidate i => { s with states := invalidateFrom s.states i }
  | .splice i removed inserted =>
    { s with
      lines := s.lines.take i ++ inserted ++ s.lines.drop (i + removed)
      pending := s.pending.filter (· < i) }
  | .rescan first last =>
    { s with
      states := (retokenize v s.states s.lines first last).states
      pending := s.pending.filter fun i => i < first ∨ last < i }

/-- Lines are inserted and removed only where the states from there on are forgotten. -/
def Permits (s : Session) : Edit → Prop
  | .splice i _ _ => s.states.length ≤ i
  | _ => True

/-- The sessions that a text with nothing recorded can lead to. -/
inductive Reachable (v : Vocabulary) : Session → Prop where
  | start (lines : List String) : Reachable v { lines }
  | edit {s : Session} {e : Edit} (h : Reachable v s) (hpermits : s.Permits e) :
    Reachable v (s.after v e)

/-- The lines without a pending change are consistent, and nothing is recorded beyond the text. -/
structure InStep (v : Vocabulary) (s : Session) : Prop where
  consistent : ∀ i < s.states.length, i ∉ s.pending → Consistent v s.lines s.states i
  within : s.states.length ≤ s.lines.length

variable {s : Session} {e : Edit}

theorem inStep_change (h : s.InStep v) {i : Nat} {text : String} :
    (s.after v (.change i text)).InStep v := by
  refine ⟨fun k hk hpending => ?_, by simpa [after] using h.within⟩
  obtain ⟨hne, hold⟩ := List.ne_and_not_mem_of_not_mem_cons hpending
  exact (h.consistent k hk hold).congr (List.getElem?_set_ne hne.symm) rfl rfl

theorem inStep_invalidate (h : s.InStep v) {i : Nat} : (s.after v (.invalidate i)).InStep v := by
  have hlen : (s.after v (.invalidate i)).states.length = min i s.states.length :=
    List.length_take
  have hget : ∀ k < i, (s.after v (.invalidate i)).states[k]? = s.states[k]? := fun k hk =>
    List.getElem?_take_of_lt hk
  refine ⟨fun k hk hpending => ?_, ?_⟩
  · exact (h.consistent k (by omega) hpending).congr rfl (hget k (by omega))
      (before_congr fun j hj => hget j (by omega))
  · have := h.within
    exact hlen ▸ (by omega : min i s.states.length ≤ s.lines.length)

theorem inStep_splice (h : s.InStep v) {i removed : Nat} {inserted : List String}
    (hlen : s.states.length ≤ i) : (s.after v (.splice i removed inserted)).InStep v := by
  have hwithin := h.within
  refine ⟨fun k hk hpending => ?_, ?_⟩
  · have hk' : k < s.states.length := hk
    have hold : k ∉ s.pending := fun hmem =>
      hpending (List.mem_filter.mpr ⟨hmem, by simpa using hk'.trans_le hlen⟩)
    refine (h.consistent k hk hold).congr ?_ rfl rfl
    have hlt : k < (s.lines.take i).length := by rw [List.length_take]; omega
    rw [after, List.append_assoc, List.getElem?_append_left hlt,
      List.getElem?_take_of_lt (by omega)]
  · simp only [after, List.length_append, List.length_take, List.length_drop]
    omega

theorem inStep_rescan (h : s.InStep v) {first last : Nat} :
    (s.after v (.rescan first last)).InStep v := by
  have hsound := sound_retokenize v s.states s.lines first last
  refine ⟨fun k hk hpending => ?_, hsound.within⟩
  by_cases hscanned : (retokenize v s.states s.lines first last).first ≤ k ∧
      k < (retokenize v s.states s.lines first last).stop
  · exact hsound.consistent hscanned.1 hscanned.2
  · have hline : k < s.lines.length := hk.trans_le hsound.within
    have hsame := hsound.unchanged k hscanned hline
    have hrecorded : k < s.states.length :=
      (List.getElem?_eq_some_iff.mp (hsame.symm.trans (List.getElem?_eq_getElem hk))).1
    -- A line that was not scanned was not asked for either.
    have hold : k ∉ s.pending := by
      intro hmem
      by_cases hasked : first ≤ k ∧ k ≤ last
      · exact hscanned (hsound.requested k hasked.1 hasked.2 hline)
      · exact hpending (List.mem_filter.mpr ⟨hmem, by simp; omega⟩)
    exact hsound.kept k hscanned (h.consistent k hrecorded hold)

/-- Every permitted edit keeps the lines without a pending change consistent. -/
theorem InStep.after (h : s.InStep v) (hpermits : s.Permits e) : (s.after v e).InStep v := by
  cases e with
  | change i text => exact inStep_change h
  | invalidate i => exact inStep_invalidate h
  | splice i removed inserted => exact inStep_splice h hpermits
  | rescan first last => exact inStep_rescan h

theorem Reachable.inStep (h : Reachable v s) : s.InStep v := by
  induction h with
  | start lines => exact ⟨fun k hk => absurd hk (Nat.not_lt_zero k), Nat.zero_le _⟩
  | edit _ hpermits ih => exact ih.after hpermits

end Session

/-- **Line states stay in step.** Whatever is recorded, a rescan scans the lines it was asked for
from the states recorded before them, and leaves no other line less consistent. After any edits of
a text, once every change has been asked for, the recorded states are those of a scan of all its
lines from the neutral state. -/
theorem consistent_after_edits (v : Vocabulary) :
    (∀ (states : LineStates) (lines : List String) (first last : Nat),
      (retokenize v states lines first last).Sound v lines states first last) ∧
    ∀ s : Session, s.Reachable v → s.pending = [] →
      s.states <+: v.statesOf (s.lines.map String.toList) := by
  refine ⟨sound_retokenize v, fun s hs hpending => ?_⟩
  refine isPrefix_of_consistent fun i hi => hs.inStep.consistent i hi ?_
  rw [hpending]
  exact List.not_mem_nil

/-- A vocabulary in which quotations have a meaning. -/
def Vocabulary.quotations : Vocabulary := (Vocabulary.initial.declareClass .string "String").1

/-- Two scanned lines, of which the first one becomes an open quotation. -/
def Session.opened : Session :=
  (((Session.mk ["+", "-"] [] []).after .quotations (.rescan 0 1)).after .quotations
    (.change 0 "'")).after .quotations (.rescan 0 0)

/-- The rescan of the first line goes on to the second one, which is inside the quotation then. -/
theorem consistent_after_edits_opened :
    Session.opened.Reachable .quotations ∧ Session.opened.pending = [] ∧
      Session.opened.states = [.inSingle, .inSingle] ∧
      Session.opened.states <+:
        Vocabulary.quotations.statesOf (Session.opened.lines.map String.toList) := by
  have hreachable : Session.opened.Reachable .quotations :=
    .edit (.edit (.edit (.start ["+", "-"]) trivial) trivial) trivial
  have hpending : Session.opened.pending = [] := by decide
  have hstates : Session.opened.states = [.inSingle, .inSingle] := by decide +kernel
  exact ⟨hreachable, hpending, hstates,
    (consistent_after_edits .quotations).2 Session.opened hreachable hpending⟩

end FourGL
