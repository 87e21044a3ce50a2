import FourGL.Parse.Numbering
import FourGL.Proofs.Parse.Steps
import FourGL.Proofs.Tree.Arena

/-!
# Numbered nodes follow the trees

Between steps of a run, the slots on the stack of a builder hold the trees on the stack of the
machine, and no node is shared. A reduction keeps this up: a new node has a number of its own, a
list is extended in its own record and in no other, and a tree that is passed through keeps its
number. What is taken off the stack leaves records behind that nothing refers to any more.

**Theorem (`Builder.Consistent.follow`).** Every move keeps a builder consistent.

**Theorem (`Builder.Consistent.run`).** Where the machine ends, a consistent builder ends with it, and
is consistent up to the last step.
-/

namespace FourGL

open Element (present)

/-! ## Reductions -/

namespace TreeAction

theorem additions_eq (drop : Bool) (ts : List Tree) :
    additions drop ts = if drop && ts.length == 2 then ts.drop 1 else ts := by
  rcases drop with _ | _ <;> rcases ts with _ | ⟨t, _ | ⟨u, _ | ⟨w, ts⟩⟩⟩ <;> simp [additions]

end TreeAction

namespace Arena

variable {a : Arena} {input : Input} {slots outer : List (Option Element)} {ts us : List Tree}
  {ks ls : List Nat} {slot : Option Element} {k position : Nat} {kind : String}

namespace Holds

theorem exists_of_cons (h : a.Holds (slot :: slots) ts ks) : ∃ t ts' ks₁ ks₂, ts = t :: ts' ∧
    ks = ks₂ ++ ks₁ ∧ a.Holds [slot] [t] ks₁ ∧ a.Holds slots ts' ks₂ := by
  obtain ⟨ts₁, ts', ks₁, ks₂, rfl, rfl, h₁, h₂⟩ := h.split [slot]
  obtain ⟨t, rfl⟩ := List.length_eq_one_iff.mp h₁.length_eq.symm
  exact ⟨t, ts', ks₁, ks₂, rfl, rfl, h₁, h₂⟩

/-- Slots cover the text that their trees cover. -/
theorem hull?_eq (h : a.Holds slots ts ks) (input : Input) : a.hull? input slots = input.hull? ts := by
  have hspans : ((present slots).map (a.spanOf input)).filter (!·.isEmpty) =
      (ts.map input.spanOf).filter (!·.isEmpty) := by
    induction h with
    | nil => rfl
    | absent _ ih =>
      rw [present, ih]
      rfl
    | token _ ih =>
      rw [present, List.map_cons, List.map_cons, List.filter_cons, List.filter_cons, ih]
      rfl
    | node hk _ _ _ ih =>
      rw [present, List.map_cons, List.map_cons, List.filter_cons, List.filter_cons, ih, spanOf, hk]
      rfl
  cases hs : (ts.map input.spanOf).filter (!·.isEmpty) <;>
    simp only [hull?, Input.hull?, hspans, hs]

theorem push {record : NodeRecord} (h : a.Holds slots ts ks) :
    (⟨a.nodes.push record⟩ : Arena).Holds slots ts ks := by
  refine h.congr fun k hk => ?_
  rw [Array.getElem?_push_lt (h.lt_size k hk), Array.getElem?_eq_getElem (h.lt_size k hk)]

theorem extend (h : a.Holds slots ts ks) {more : List (Option Element)} (hk : k ∉ ks) :
    (a.extend input k more).Holds slots ts ks := by
  refine h.congr fun n hn => ?_
  have hne : k ≠ n := fun heq => hk (heq ▸ hn)
  rw [Arena.extend, Array.getElem?_modify, if_neg hne]

end Holds

/-- The slot of a reduction holds the tree of a reduction, and what other slots hold stays. -/
def Reduces (a : Arena) (input : Input) (position : Nat) (slots outer : List (Option Element))
    (ts us : List Tree) (ls : List Nat) (action : TreeAction) : Prop :=
  ∃ ks, (a.reduce input position slots action).2.Holds
      [(a.reduce input position slots action).1] [action.run input position ts] ks ∧
    (a.reduce input position slots action).2.Holds outer us ls ∧ (ks ++ ls).Nodup

/-- A new node. -/
theorem Holds.add (h : a.Holds slots ts ks) (houter : a.Holds outer us ls)
    (hnodup : (ks ++ ls).Nodup) : ∃ ks', (a.add input position kind slots).2.Holds
        [(a.add input position kind slots).1] [.build input position kind ts] ks' ∧
      (a.add input position kind slots).2.Holds outer us ls ∧ (ks' ++ ls).Nodup := by
  refine ⟨a.nodes.size :: ks, ?_, houter.push, ?_⟩
  · refine Holds.single ?_ h.push
    rw [Arena.add, Array.getElem?_push_size, h.hull?_eq input]
  · rw [List.cons_append, List.nodup_cons]
    refine ⟨fun hmem => ?_, hnodup⟩
    rcases List.mem_append.mp hmem with hmem | hmem
    · exact absurd (h.lt_size _ hmem) (Nat.lt_irrefl _)
    · exact absurd (houter.lt_size _ hmem) (Nat.lt_irrefl _)

/-- What is added to a list. -/
theorem Holds.additions (h : a.Holds slots ts ks) (drop : Bool) :
    ∃ ks', a.Holds (if drop && slots.length == 2 then slots.drop 1 else slots)
        (TreeAction.additions drop ts) ks' ∧ ks'.Sublist ks := by
  rw [TreeAction.additions_eq, ← h.length_eq]
  split
  · cases slots with
    | nil => exact ⟨ks, by cases h; exact .nil, .refl _⟩
    | cons slot slots =>
      obtain ⟨t, ts', ks₁, ks₂, rfl, rfl, -, h₂⟩ := h.exists_of_cons
      exact ⟨ks₂, h₂, List.sublist_append_left _ _⟩
  · exact ⟨ks, h, .refl _⟩

/-- **Lists grow in place.** The record of the list is changed, and no other slot leads to it. -/
theorem Holds.appendList {drop : Bool} (h : a.Holds slots ts ks) (houter : a.Holds outer us ls)
    (hnodup : (ks ++ ls).Nodup) :
    a.Reduces input position slots outer ts us ls (.appendList drop) := by
  cases slots with
  | nil =>
    cases h
    exact ⟨[], .absent .nil, houter, hnodup⟩
  | cons slot more =>
    obtain ⟨t, ts', ks₁, ks₂, rfl, rfl, h₁, h₂⟩ := h.exists_of_cons
    have hnodup₁ : (ks₁ ++ ls).Nodup :=
      hnodup.sublist (List.Sublist.append_right (List.sublist_append_right _ _) _)
    cases h₁ with
    | absent h₁ => exact ⟨_, .absent h₁, houter, hnodup₁⟩
    | token h₁ => exact ⟨_, .token h₁, houter, hnodup₁⟩
    | @node _ inner _ children _ below k kind span hk hc h₁ =>
      cases h₁
      obtain ⟨ks', h', hsub⟩ := h₂.additions drop
      rw [List.nil_append] at hnodup
      have hnew : k ∉ ks' ∧ k ∉ below ∧ k ∉ ls := by
        simp only [List.append_assoc, List.nodup_append, List.nodup_cons, List.mem_cons,
          List.cons_append, List.mem_append] at hnodup
        refine ⟨fun hmem => ?_, fun hmem => ?_, fun hmem => ?_⟩
        · exact hnodup.2.2 k (hsub.mem hmem) k (Or.inl rfl) rfl
        · exact hnodup.2.1.1 (Or.inl hmem)
        · exact hnodup.2.1.1 (Or.inr hmem)
      refine ⟨k :: (ks' ++ below), ?_, houter.extend hnew.2.2, ?_⟩
      · refine Holds.single ?_ ((hc.extend hnew.2.1).append (h'.extend hnew.1))
        rw [reduce, Arena.extend, Array.getElem?_modify, if_pos rfl, hk,
          ← h'.hull?_eq input]
        rfl
      · have hperm : (ks₂ ++ k :: below ++ ls).Perm (k :: (ks₂ ++ below) ++ ls) :=
          List.perm_middle.append_right ls
        exact (hperm.nodup hnodup).sublist
          (List.Sublist.append_right ((hsub.append_right below).cons_cons k) ls)

/-- **Reductions** do with slots and nodes what they do with trees. -/
theorem Holds.reduce (h : a.Holds slots ts ks) (houter : a.Holds outer us ls)
    (hnodup : (ks ++ ls).Nodup) (input : Input) (position : Nat) (action : TreeAction) :
    a.Reduces input position slots outer ts us ls action := by
  have hempty : (([] : List Nat) ++ ls).Nodup := hnodup.sublist (List.sublist_append_right _ _)
  cases action with
  | node kind | emptyList kind => exact h.add houter hnodup
  | absent | accept => exact ⟨[], .absent .nil, houter, hempty⟩
  | appendList drop => exact h.appendList houter hnodup
  | unwrap | startList kind =>
    cases slots with
    | nil =>
      cases h
      first
      | exact ⟨[], .absent .nil, houter, hnodup⟩
      | exact Holds.add .nil houter hnodup
    | cons slot more =>
      obtain ⟨t, ts', ks₁, ks₂, rfl, rfl, h₁, h₂⟩ := h.exists_of_cons
      have hnodup₁ : (ks₁ ++ ls).Nodup :=
        hnodup.sublist (List.Sublist.append_right (List.sublist_append_right _ _) _)
      first
      | exact ⟨ks₁, h₁, houter, hnodup₁⟩
      | exact h₁.add houter hnodup₁

end Arena

/-! ## Runs -/

namespace Builder

variable {l : Language} {limits : Limits} {input : Input} {n : Nat} {b b' : Builder} {m : Machine}
  {ending : Ending}

/-- The slots hold the trees of the machine, and no node is shared. -/
def Consistent (b : Builder) : Prop :=
  ∃ ks, b.arena.Holds b.slots.reverse (b.machine.stack.map (·.tree)).reverse ks ∧ ks.Nodup

theorem consistent_initial : initial.Consistent := ⟨[], .absent .nil, List.nodup_nil⟩

theorem machine_follow : (b.follow l input m).machine = m := by
  rw [follow]
  split <;> rfl

/-- The slots below the top ones and those on top. -/
theorem Consistent.cut (h : b.Consistent) (n : Nat) : ∃ ks₁ ks₂, (ks₂ ++ ks₁).Nodup ∧
    b.arena.Holds (b.slots.drop n).reverse ((b.machine.stack.drop n).map (·.tree)).reverse ks₁ ∧
    b.arena.Holds (b.slots.take n).reverse ((b.machine.stack.take n).map (·.tree)).reverse ks₂ := by
  obtain ⟨ks, h, hnodup⟩ := h
  have hlength := h.length_eq
  simp only [List.length_reverse, List.length_map] at hlength
  rw [← List.take_append_drop n b.slots, List.reverse_append] at h
  obtain ⟨ts₁, ts₂, ks₁, ks₂, htrees, rfl, h₁, h₂⟩ := h.split _
  rw [← List.take_append_drop n b.machine.stack, List.map_append, List.reverse_append] at htrees
  obtain ⟨rfl, rfl⟩ := List.append_inj htrees (by
    rw [← h₁.length_eq]
    simp [hlength])
  exact ⟨ks₁, ks₂, hnodup, h₁, h₂⟩

/-- **Moves keep a builder consistent.** -/
theorem Consistent.follow (h : b.Consistent) (hm : Machine.Move l input b.machine m) :
    (b.follow l input m).Consistent := by
  cases hm with
  | @shift top frames next hstack hact =>
    obtain ⟨ks, h, hnodup⟩ := h
    refine ⟨ks, ?_, hnodup⟩
    simp only [Builder.follow, Machine.shift, hstack, List.head?_cons, Option.bind_some, hact,
      List.reverse_cons, List.map_cons]
    rw [hstack] at h
    simpa using h.append (.token .nil)
  | @reduce top frames p below rest next hstack hact hdrop hgoto =>
    obtain ⟨ks₁, ks₂, hnodup, h₁, h₂⟩ := h.cut (l.grammar.production p).right.length
    obtain ⟨ks, hslot, houter, hnodup⟩ :=
      h₂.reduce h₁ hnodup input b.machine.position (l.grammar.production p).action
    refine ⟨ks ++ ks₁, ?_, hnodup⟩
    have hhead : b.machine.stack.head? = some top := by rw [hstack]; rfl
    simp only [Builder.follow, hhead, Option.bind_some, hact, List.reverse_cons, List.map_cons]
    rw [hdrop] at houter
    simpa using houter.append hslot
  | @repair top frames r hstack hact hskip hpop =>
    obtain ⟨ks₁, ks₂, hnodup, h₁, -⟩ := h.cut r.pop
    refine ⟨ks₁, ?_, hnodup.sublist (List.sublist_append_right _ _)⟩
    have hhead : b.machine.stack.head? = some top := by rw [hstack]; rfl
    have hcount : b.machine.stack.length - (b.machine.stack.length - r.pop) = r.pop := by omega
    simpa [Builder.follow, hhead, hact, Machine.apply, hcount] using h₁
  | @discard top frames hstack hact =>
    obtain ⟨ks, h, hnodup⟩ := h
    refine ⟨ks, ?_, hnodup⟩
    have hhead : b.machine.stack.head? = some top := by rw [hstack]; rfl
    simpa [Builder.follow, hhead, hact, Machine.discard] using h

/-- **Runs.** Where the machine ends, a builder ends with it, and is consistent if it was so. -/
theorem Consistent.run (h : b.Consistent)
    (hrun : b.machine.run l limits input n = some (m, ending)) :
    ∃ b', b.run l limits input n = some (b', ending) ∧ b'.machine = m ∧ ∃ last : Builder,
      last.Consistent ∧ b'.slots = last.slots ∧ b'.arena = last.arena ∧ ∃ allowance,
        last.machine.step l limits input allowance = some (.done m ending) := by
  induction n generalizing b with
  | zero => cases hrun
  | succ n ih =>
    cases hstep : b.machine.step l limits input n with
    | none => simp only [Machine.run, hstep, reduceCtorEq] at hrun
    | some outcome =>
      cases outcome with
      | next next =>
        simp only [Machine.run, hstep] at hrun
        simp only [Builder.run, hstep]
        exact ih (h.follow (Machine.move_of_step hstep)) (machine_follow.symm ▸ hrun)
      | done last ending' =>
        simp only [Machine.run, hstep] at hrun
        cases hrun
        simp only [Builder.run, hstep]
        exact ⟨_, rfl, rfl, b, h, rfl, rfl, n, hstep⟩

end Builder

end FourGL
