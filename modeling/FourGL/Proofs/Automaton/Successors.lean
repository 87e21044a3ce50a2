import FourGL.Automaton.States
import Mathlib.Order.Nat

/-!
# The successors of a state

The successors of a list of items are found by sorting what the items can read. Equal symbols then
stand side by side, and the items reached by one of them are in order.

**Theorem (`mem_successor_iff`).** The kernel of a successor holds exactly the items that its symbol
leads to.
-/

namespace FourGL

open Std

/-! ## Orders -/

instance : TransOrd Item := inferInstanceAs (TransCmp (compareLex _ _))

instance : LawfulEqOrd Item where
  eq_of_compare {a b} h := by
    obtain ⟨hp, hd⟩ := compareLex_eq_eq.mp h
    cases a
    cases b
    exact congrArg₂ _ (LawfulEqOrd.eq_of_compare (α := Nat) hp)
      (LawfulEqOrd.eq_of_compare (α := Nat) hd)

instance : TransOrd Symbol := inferInstanceAs (TransCmp (compareLex _ _))

instance : LawfulEqOrd Symbol where
  eq_of_compare {a b} h := by
    obtain ⟨hr, hi⟩ := compareLex_eq_eq.mp h
    have hrank : a.rank = b.rank := LawfulEqOrd.eq_of_compare (α := Nat) hr
    have hindex : a.index = b.index := LawfulEqOrd.eq_of_compare (α := Nat) hi
    cases a <;> cases b <;> simp_all [Symbol.rank, Symbol.index]

/-- The strict order of items. -/
def Item.Before (a b : Item) : Prop := compare a b = .lt

/-- The items are in strict order. -/
def Kernel.Ordered (kernel : Kernel) : Prop := kernel.Pairwise Item.Before

section Order

variable {i j k : Item} {s t : Symbol}

theorem Item.Before.trans (h : i.Before j) (h' : j.Before k) : i.Before k :=
  TransCmp.lt_trans h h'

theorem Item.Before.ne (h : i.Before j) : i ≠ j := by
  rintro rfl
  rw [Item.Before, ReflOrd.compare_self] at h
  cases h

theorem Item.Before.asymm (h : i.Before j) : ¬j.Before i := fun h' => (h.trans h').ne rfl

theorem Item.before_of_isLE (h : (compare i j).isLE) (hne : i ≠ j) : i.Before j := by
  cases hc : compare i j with
  | lt => exact hc
  | eq => exact absurd (LawfulEqOrd.eq_of_compare hc) hne
  | gt => simp [hc] at h

theorem Symbol.ne_of_lt (h : compare s t = .lt) : s ≠ t := by
  rintro rfl
  rw [ReflOrd.compare_self] at h
  cases h

theorem Reading.le_iff {a b : Reading} : Reading.le a b = true ↔
    compare a.1 b.1 = .lt ∨ a.1 = b.1 ∧ (compare a.2 b.2).isLE := by
  simp only [Reading.le, compareLex, compareOn]
  cases hc : compare a.1 b.1 with
  | lt => simp [Ordering.then]
  | eq => simp [Ordering.then, LawfulEqOrd.eq_of_compare hc]
  | gt =>
    have hne : a.1 ≠ b.1 := fun heq => by simp [heq, ReflCmp.compare_self] at hc
    simp [Ordering.then, hne]

/-- Ordered kernels with the same items are equal. -/
theorem Kernel.Ordered.eq_of_mem_iff {a b : Kernel} (ha : Ordered a) (hb : Ordered b)
    (h : ∀ i, i ∈ a ↔ i ∈ b) : a = b := by
  have nodup : ∀ {c : Kernel}, Ordered c → c.Nodup := fun hc => hc.imp Item.Before.ne
  have antisymm : ∀ i j, i ∈ a → j ∈ b → i.Before j → j.Before i → i = j :=
    fun i j _ _ hij hji => absurd hji hij.asymm
  exact List.Perm.eq_of_pairwise antisymm ha hb
    ((List.perm_ext_iff_of_nodup (nodup ha) (nodup hb)).mpr h)

end Order

/-! ## Gathering -/

/-- The kernels come in the order of their symbols, each of them in order, and hold exactly what the
readings reach. -/
structure Gathered (readings : List Reading) (found : List (Symbol × Kernel)) : Prop where
  symbols : found.Pairwise fun a b => compare a.1 b.1 = .lt
  ordered : ∀ e ∈ found, Kernel.Ordered e.2
  nonempty : ∀ e ∈ found, e.2 ≠ []
  mem_iff : ∀ e ∈ found, ∀ i, i ∈ e.2 ↔ (e.1, i) ∈ readings
  complete : ∀ r ∈ readings, ∃ kernel, (r.1, kernel) ∈ found

theorem Kernel.mem_add {i j : Item} {kernel : Kernel} :
    j ∈ Kernel.add i kernel ↔ j = i ∨ j ∈ kernel := by
  rw [Kernel.add]
  split
  · next h =>
    refine ⟨Or.inr, ?_⟩
    rintro (rfl | hj)
    · exact List.mem_of_mem_head? h
    · exact hj
  · exact List.mem_cons

theorem Kernel.Ordered.add {i : Item} {kernel : Kernel} (hk : Ordered kernel)
    (hi : ∀ j ∈ kernel, (compare i j).isLE) : Ordered (Kernel.add i kernel) := by
  rw [Kernel.add]
  split
  · exact hk
  · next hhead =>
    refine List.pairwise_cons.mpr ⟨fun j hj => ?_, hk⟩
    cases kernel with
    | nil => cases hj
    | cons k kernel =>
      have hik : i.Before k :=
        Item.before_of_isLE (hi k List.mem_cons_self) fun heq => hhead (by rw [heq]; rfl)
      rcases List.mem_cons.mp hj with rfl | hj
      · exact hik
      · exact hik.trans ((List.pairwise_cons.mp hk).1 j hj)

namespace Gathered

variable {readings : List Reading} {found more : List (Symbol × Kernel)} {s : Symbol} {i : Item}
  {kernel : Kernel}

theorem nil : Gathered [] [] := ⟨.nil, by simp, by simp, by simp, by simp⟩

/-- A reading of a symbol that comes before all found. -/
theorem prepend (h : Gathered readings found) (hs : ∀ e ∈ found, compare s e.1 = .lt) :
    Gathered ((s, i) :: readings) ((s, [i]) :: found) where
  symbols := List.pairwise_cons.mpr ⟨hs, h.symbols⟩
  ordered e he := by
    rcases List.mem_cons.mp he with rfl | he
    · exact List.pairwise_singleton _ _
    · exact h.ordered e he
  nonempty e he := by
    rcases List.mem_cons.mp he with rfl | he
    · exact List.cons_ne_nil _ _
    · exact h.nonempty e he
  mem_iff e he j := by
    rcases List.mem_cons.mp he with rfl | he
    · have hnot : (s, j) ∉ readings := fun hr => by
        obtain ⟨_, hk⟩ := h.complete _ hr
        exact Symbol.ne_of_lt (hs _ hk) rfl
      simp [hnot]
    · rw [h.mem_iff e he, List.mem_cons]
      simp [(Symbol.ne_of_lt (hs e he)).symm]
  complete r hr := by
    rcases List.mem_cons.mp hr with rfl | hr
    · exact ⟨_, List.mem_cons_self⟩
    · obtain ⟨k, hk⟩ := h.complete r hr
      exact ⟨k, List.mem_cons_of_mem _ hk⟩

/-- A reading of the first symbol found, not after any other. -/
theorem join (h : Gathered readings ((s, kernel) :: more))
    (hi : ∀ r ∈ readings, Reading.le (s, i) r = true) :
    Gathered ((s, i) :: readings) ((s, Kernel.add i kernel) :: more) where
  symbols := List.pairwise_cons.mpr (List.pairwise_cons.mp h.symbols)
  ordered e he := by
    rcases List.mem_cons.mp he with rfl | he
    · refine (h.ordered _ List.mem_cons_self).add fun j hj => ?_
      have hmem := (h.mem_iff _ List.mem_cons_self j).mp hj
      exact ((Reading.le_iff.mp (hi _ hmem)).resolve_left fun hlt => Symbol.ne_of_lt hlt rfl).2
    · exact h.ordered e (List.mem_cons_of_mem _ he)
  nonempty e he := by
    rcases List.mem_cons.mp he with rfl | he
    · exact List.ne_nil_of_mem (Kernel.mem_add.mpr (Or.inl rfl))
    · exact h.nonempty e (List.mem_cons_of_mem _ he)
  mem_iff e he j := by
    rcases List.mem_cons.mp he with rfl | he
    · rw [Kernel.mem_add, h.mem_iff _ List.mem_cons_self, List.mem_cons]
      simp
    · have hne := Symbol.ne_of_lt ((List.pairwise_cons.mp h.symbols).1 e he)
      rw [h.mem_iff e (List.mem_cons_of_mem _ he), List.mem_cons]
      simp [hne.symm]
  complete r hr := by
    rcases List.mem_cons.mp hr with rfl | hr
    · exact ⟨_, List.mem_cons_self⟩
    · obtain ⟨k, hk⟩ := h.complete r hr
      rcases List.mem_cons.mp hk with heq | hk
      · exact ⟨_, by rw [(Prod.mk.inj heq).1]; exact List.mem_cons_self⟩
      · exact ⟨k, List.mem_cons_of_mem _ hk⟩

/-- The same readings gather the same kernels. -/
theorem subset (h : Gathered readings found) {readings' : List Reading}
    {found' : List (Symbol × Kernel)} (h' : Gathered readings' found')
    (heq : ∀ r, r ∈ readings ↔ r ∈ readings') : ∀ e ∈ found, e ∈ found' := by
  intro e he
  obtain ⟨i, hi⟩ := List.exists_mem_of_ne_nil _ (h.nonempty e he)
  obtain ⟨kernel', hk⟩ := h'.complete _ ((heq _).mp ((h.mem_iff e he i).mp hi))
  have hkernel : e.2 = kernel' := (h.ordered e he).eq_of_mem_iff (h'.ordered _ hk) fun j => by
    rw [h.mem_iff e he, heq, ← h'.mem_iff _ hk]
  rwa [← hkernel] at hk

theorem unique (h : Gathered readings found) {readings' : List Reading}
    {found' : List (Symbol × Kernel)} (h' : Gathered readings' found')
    (heq : ∀ r, r ∈ readings ↔ r ∈ readings') : found = found' := by
  have nodup : ∀ {l : List (Symbol × Kernel)}, l.Pairwise (fun a b => compare a.1 b.1 = .lt) →
      l.Nodup := fun hl => hl.imp fun hlt hab => Symbol.ne_of_lt hlt (congrArg Prod.fst hab)
  refine List.Perm.eq_of_pairwise (fun a b _ _ hab hba => ?_) h.symbols h'.symbols
    ((List.perm_ext_iff_of_nodup (nodup h.symbols) (nodup h'.symbols)).mpr fun e =>
      ⟨h.subset h' heq e, h'.subset h (fun r => (heq r).symm) e⟩)
  exact absurd rfl (Symbol.ne_of_lt (TransCmp.lt_trans hab hba))

end Gathered

theorem gathered_gatherReadings {readings : List Reading}
    (h : readings.Pairwise fun a b => Reading.le a b = true) :
    Gathered readings (gatherReadings readings) := by
  induction readings with
  | nil => exact .nil
  | cons r readings ih =>
    obtain ⟨s, i⟩ := r
    obtain ⟨hfirst, hrest⟩ := List.pairwise_cons.mp h
    have hg := ih hrest
    simp only [gatherReadings]
    split
    · next t kernel more hf =>
      rw [hf] at hg
      split
      · next heq =>
        subst heq
        exact hg.join hfirst
      · next hne =>
        -- A symbol found in the rest is that of a reading, so it does not come before the first.
        obtain ⟨j, hj⟩ := List.exists_mem_of_ne_nil _ (hg.nonempty _ List.mem_cons_self)
        have hle := Reading.le_iff.mp (hfirst _ ((hg.mem_iff _ List.mem_cons_self j).mp hj))
        have hlt : compare s t = .lt := hle.resolve_right fun h => hne h.1
        refine hg.prepend fun e he => ?_
        rcases List.mem_cons.mp he with rfl | he
        · exact hlt
        · exact TransCmp.lt_trans hlt ((List.pairwise_cons.mp hg.symbols).1 e he)
    · next hf =>
      rw [hf] at hg
      exact hg.prepend (by simp)

/-! ## Successors -/

section Successors

variable {g : Grammar} {items : List Item}

theorem Reading.transCmp : TransCmp fun a b : Reading =>
    compareLex (compareOn (·.1)) (compareOn (·.2)) a b :=
  inferInstanceAs (TransCmp (compareLex _ _))

theorem Reading.le_trans (a b c : Reading) (h : Reading.le a b = true)
    (h' : Reading.le b c = true) : Reading.le a c = true :=
  Reading.transCmp.isLE_trans h h'

theorem Reading.le_total (a b : Reading) : (Reading.le a b || Reading.le b a) = true := by
  simp only [Reading.le]
  rw [Reading.transCmp.eq_swap]
  cases compareLex (compareOn (·.1)) (compareOn (·.2)) b a <;> rfl

theorem gathered_successors (g : Grammar) (items : List Item) :
    Gathered (items.filterMap fun i => (g.nextSymbol? i).map (·, i.advance))
      (successors g items) := by
  have hg := gathered_gatherReadings (List.pairwise_mergeSort Reading.le_trans Reading.le_total
    (items.filterMap fun i => (g.nextSymbol? i).map (·, i.advance)))
  refine ⟨hg.symbols, hg.ordered, hg.nonempty, fun e he i => ?_, fun r hr => ?_⟩
  · rw [hg.mem_iff e he, List.mem_mergeSort]
  · exact hg.complete r (List.mem_mergeSort.mpr hr)

/-- **Successors.** The kernel of a successor holds the items that its symbol leads to. -/
theorem mem_successor_iff {s : Symbol} {kernel : Kernel} (h : (s, kernel) ∈ successors g items)
    {i : Item} : i ∈ kernel ↔ ∃ j ∈ items, g.nextSymbol? j = some s ∧ i = j.advance := by
  rw [(gathered_successors g items).mem_iff _ h, List.mem_filterMap]
  refine exists_congr fun j => and_congr_right fun _ => ?_
  rw [Option.map_eq_some_iff]
  constructor
  · rintro ⟨t, ht, heq⟩
    obtain ⟨rfl, rfl⟩ := Prod.mk.inj heq
    exact ⟨ht, rfl⟩
  · rintro ⟨ht, rfl⟩
    exact ⟨s, ht, rfl⟩

/-- Every symbol that some item can read has a successor. -/
theorem exists_successor {i : Item} (hi : i ∈ items) {s : Symbol}
    (hs : g.nextSymbol? i = some s) : ∃ kernel, (s, kernel) ∈ successors g items :=
  (gathered_successors g items).complete (s, i.advance)
    (List.mem_filterMap.mpr ⟨i, hi, by rw [hs]; rfl⟩)

/-- The successors of a list depend on the items in it only. -/
theorem successors_congr {items' : List Item} (h : ∀ i, i ∈ items ↔ i ∈ items') :
    successors g items = successors g items' := by
  refine (gathered_successors g items).unique (gathered_successors g items') fun r => ?_
  simp only [List.mem_filterMap, h]

end Successors

end FourGL
