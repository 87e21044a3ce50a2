import FourGL.Proofs.Automaton.Exploration
import FourGL.Proofs.Grammar.Widths

/-!
# Positions of items

The items of a state have positions in right-hand sides, which are written with the width of an index.
Since every nonterminal can be reached, each of its productions is started in some state, and is then
gone through symbol by symbol. Behind the last position that has this width, reading on starts from the
first one again.

**Theorem (`positions_bounded`).** The positions that come up are those from the start of a right-hand
side to its end, as far as they have the width of an index. So none runs over exactly if all right-hand
sides have that width, which is the case if no part of a rule is wider.

**Theorem (`exists_position_beyond`).** Nothing else keeps them from running over: a rule of one more
symbol builds, and the item before the last of them is in some state.
-/

namespace FourGL

namespace Grammar

variable {g : Grammar} {s t : StateId} {x : Symbol} {i : Item} {p : ProductionId} {n : NonterminalId}
  {k : Nat}

/-! ## What is reached -/

/-- All nonterminals of a built grammar can be reached. -/
theorem accessible_of_isBuilt (h : g.IsBuilt) (hn : n < g.nonterminals.size) :
    g.Accessible (.nonterminal n) := by
  obtain ⟨name, steps, hbuild⟩ := h
  obtain ⟨g', hg', h⟩ := Declarations.except_bind_ok.mp hbuild
  obtain ⟨_, hcheck, h⟩ := Declarations.except_bind_ok.mp h
  cases h
  have hnames := Declarations.distinctNames_ofSteps name steps
  obtain ⟨hlowered, e, -, hroot⟩ := lowered_of_assemble hnames hg'
  exact ((hlowered.check_iff hroot).mp hcheck).2 n hn

/-- The start symbol has one production. -/
theorem Lowered.eq_startProduction (h : g.Lowered) (wf : g.WellFormed) (hp : p < g.productions.size)
    (hleft : (g.production p).left = start) : p = startProduction := by
  obtain ⟨ps, hps⟩ : ∃ ps, g.productions.toList = Lower.rootProduction g.root :: ps := by
    rw [← List.head?_eq_some_iff, List.head?_eq_getElem?, Array.getElem?_toList]
    exact wf.first
  have hone := congrArg List.length h.first
  have hcons : (Lower.rootProduction g.root :: ps).filter (·.left = start) =
      Lower.rootProduction g.root :: ps.filter (·.left = start) :=
    List.filter_cons_of_pos (decide_eq_true rfl)
  rw [entriesOf, entriesIn, List.length_map, hps, hcons] at hone
  -- The one entry of the start symbol is that of the first production, so there is none behind it.
  have hnone : ps.filter (·.left = start) = [] := List.length_eq_zero_iff.mp (Nat.succ.inj hone)
  cases p with
  | zero => rfl
  | succ q =>
    have hget : ps[q]? = some (g.production (q + 1)) := by
      rw [← List.getElem?_cons_succ, ← hps, Array.getElem?_toList, production_eq_getElem hp,
        Array.getElem?_eq_getElem hp]
    exact absurd (decide_eq_true hleft)
      (List.filter_eq_nil_iff.mp hnone _ (List.mem_of_getElem? hget))

/-! ## Going through a production -/

/-- Reading on from an item leads to the item behind the symbol. -/
theorem WellFormed.exists_advance (wf : g.WellFormed) (hi : i ∈ g.itemsOf s)
    (hx : g.nextSymbol? i = some x) : ∃ t < g.stateCount, i.advance ∈ g.itemsOf t := by
  obtain ⟨t, ht⟩ := wf.exists_goto hi hx
  exact ⟨t, (wf.successor_of_goto? ht).1,
    kernelOf_subset_itemsOf ((wf.mem_kernelOf_goto ht).mpr ⟨i, hi, hx, rfl⟩)⟩

/-- A production that is started is gone through, as far as positions reach. -/
theorem WellFormed.exists_position (wf : g.WellFormed) (hs : s < g.stateCount)
    (hi : Item.initial p ∈ g.itemsOf s) (hk : k ≤ (g.production p).right.length)
    (hwidth : k ≤ maxIndex) : ∃ t < g.stateCount, ⟨p, k⟩ ∈ g.itemsOf t := by
  induction k with
  | zero => exact ⟨s, hs, hi⟩
  | succ k ih =>
    obtain ⟨t, -, ht⟩ := ih (Nat.le_of_succ_le hk) (Nat.le_of_succ_le hwidth)
    have hx : g.nextSymbol? ⟨p, k⟩ = some (g.production p).right[k] := by
      rw [nextSymbol?_eq_getElem?, List.getElem?_eq_getElem hk]
    have hadvance := wf.exists_advance ht hx
    rwa [Item.advance_of_lt (Nat.lt_of_succ_le hwidth)] at hadvance

/-- The first production leads here, through symbols that positions reach. -/
inductive Begun (g : Grammar) : ProductionId → Prop
  | first : Begun g startProduction
  | next {p q : ProductionId} {k : Nat} : Begun g q → k ≤ maxIndex →
      (g.production q).right[k]? = some (.nonterminal (g.production p).left) →
      p < g.productions.size → Begun g p

theorem WellFormed.lt_of_begun (wf : g.WellFormed) (h : g.Begun p) : p < g.productions.size := by
  cases h with
  | first => exact wf.startProduction_lt
  | next _ _ _ hp => exact hp

theorem WellFormed.exists_initial_of_begun (wf : g.WellFormed) (h : g.Begun p) :
    ∃ s < g.stateCount, .initial p ∈ g.itemsOf s := by
  induction h with
  | first => exact ⟨_, wf.start_lt_stateCount, wf.first_mem_itemsOf⟩
  | next _ hwidth hget hp ih =>
    obtain ⟨s, hs, hi⟩ := ih
    obtain ⟨t, ht, hitem⟩ := wf.exists_position hs hi (List.getElem?_eq_some_iff.mp hget).1.le hwidth
    exact ⟨t, ht, wf.initial_mem_itemsOf hitem ((nextSymbol?_eq_getElem? _ _).trans hget) hp rfl⟩

/-- The items of all states are those of such productions. -/
theorem WellFormed.begun_of_mem (wf : g.WellFormed) (hi : i ∈ g.itemsOf s) :
    g.Begun i.production := by
  induction s using Nat.strong_induction_on generalizing i with
  | _ s ih =>
    refine wf.itemsOf_induction (P := fun i => g.Begun i.production) (fun i hi => ?_)
      (fun j hj hbegun p hp hx => ?_) i hi
    · by_cases hstart : s = Automaton.start
      · rw [hstart, wf.kernelOf_start, List.mem_singleton] at hi
        rw [hi]
        exact .first
      · obtain ⟨r, hr, x, hx⟩ :=
          wf.exists_source (Nat.pos_of_ne_zero hstart) (lt_stateCount_of_mem_kernelOf hi)
        obtain ⟨j, hj, -, rfl⟩ := (wf.mem_kernelOf_goto hx).mp hi
        exact ih (i := j) r hr hj
    · exact .next hbegun (wf.dot_le hj) ((nextSymbol?_eq_getElem? _ _).symm.trans hx) hp

/-- **Positions.** The positions that come up in a production are those from its start to its end, as
far as they have the width of an index. -/
theorem WellFormed.exists_position_iff (wf : g.WellFormed) :
    (∃ s < g.stateCount, ⟨p, k⟩ ∈ g.itemsOf s) ↔
      g.Begun p ∧ k ≤ (g.production p).right.length ∧ k ≤ maxIndex := by
  constructor
  · rintro ⟨s, -, hi⟩
    exact ⟨wf.begun_of_mem hi, (wf.proper_itemsOf hi).2, wf.dot_le hi⟩
  · rintro ⟨hbegun, hk, hwidth⟩
    obtain ⟨s, hs, hi⟩ := wf.exists_initial_of_begun hbegun
    exact wf.exists_position hs hi hk hwidth

/-- Where right-hand sides are not too long, the productions of whatever can be reached are begun. -/
theorem Lowered.begun (h : g.Lowered) (wf : g.WellFormed)
    (hlength : ∀ q, g.Begun q → (g.production q).right.length ≤ maxIndex)
    (hn : Relation.ReflTransGen g.Leads start n) (hp : p < g.productions.size)
    (hleft : (g.production p).left = n) : g.Begun p := by
  induction hn generalizing p with
  | refl =>
    rw [h.eq_startProduction wf hp hleft]
    exact .first
  | tail _ hleads ih =>
    -- The production that leads here is begun, and is gone through up to the nonterminal.
    obtain ⟨entry, hentry, hmem⟩ := List.mem_flatMap.mp hleads
    obtain ⟨q, hq, heq⟩ := mem_entriesOf.mp hentry
    have hbegun : g.Begun q := ih hq (by rw [heq])
    have hright : .nonterminal (g.production p).left ∈ (g.production q).right := by rwa [hleft, heq]
    obtain ⟨k, hk⟩ := List.mem_iff_getElem?.mp hright
    exact .next hbegun ((List.getElem?_eq_some_iff.mp hk).1.le.trans (hlength q hbegun)) hk hp

theorem begun_of_isBuilt (hg : g.IsBuilt)
    (hlength : ∀ q, g.Begun q → (g.production q).right.length ≤ maxIndex)
    (hp : p < g.productions.size) : g.Begun p := by
  have h := lowered_of_isBuilt hg
  exact h.begun (wellFormed_of_isBuilt hg) hlength (accessible_of_isBuilt hg (h.left p hp)) hp rfl

/-! ## Limits -/

/-- No position runs over: the one behind each symbol that is next has the width of an index. -/
def PositionsFit (g : Grammar) : Prop :=
  ∀ s < g.stateCount, ∀ i ∈ g.itemsOf s, ∀ x, g.nextSymbol? i = some x → i.dot + 1 ≤ maxIndex

/-- Where the positions that items can have in right-hand sides stay. -/
structure PositionsBounded (g : Grammar) : Prop where
  /-- A right-hand side is short, or as long as some part of a rule is wide. -/
  lengths : ∀ p < g.productions.size, (g.production p).right.length ≤ 3 ∨
    ∃ r, IsSubrule g.rules.toList r ∧ (g.production p).right.length = r.width
  /-- Rules that are no repetitions have right-hand sides as wide as their alternatives. -/
  widths : ∀ d ∈ g.rules.toList, d.rule.isList = false → ∀ r ∈ SymbolTable.alternativesOf d.rule,
    ∃ p < g.productions.size, (g.production p).right.length = r.width
  /-- All positions up to the end of a right-hand side come up, as far as they have the width of an
  index, and no others. -/
  positions : ∀ p k, (∃ s < g.stateCount, ⟨p, k⟩ ∈ g.itemsOf s) ↔
    g.Begun p ∧ k ≤ (g.production p).right.length ∧ k ≤ maxIndex
  /-- Where all right-hand sides have that width, none is left out. -/
  begun : (∀ p < g.productions.size, (g.production p).right.length ≤ maxIndex) →
    ∀ p, g.Begun p ↔ p < g.productions.size
  /-- So they fit exactly if the right-hand sides do, -/
  fits : g.PositionsFit ↔ ∀ p < g.productions.size, (g.production p).right.length ≤ maxIndex
  /-- as they do where no part of a rule is too wide. -/
  narrow : (∀ r, IsSubrule g.rules.toList r → r.width ≤ maxIndex) →
    ∀ p < g.productions.size, (g.production p).right.length ≤ maxIndex

/-- Where a production that is too long is begun, some item is before a symbol at the last position. -/
theorem WellFormed.exists_beyond (wf : g.WellFormed) (hbegun : g.Begun p)
    (hlong : maxIndex < (g.production p).right.length) :
    ∃ s < g.stateCount, ∃ i ∈ g.itemsOf s, ∃ x, g.nextSymbol? i = some x ∧ maxIndex < i.dot + 1 := by
  obtain ⟨s, hs, hi⟩ := wf.exists_position_iff.mpr ⟨hbegun, hlong.le, le_rfl⟩
  refine ⟨s, hs, _, hi, (g.production p).right[maxIndex], ?_, Nat.lt_succ_self maxIndex⟩
  rw [nextSymbol?_eq_getElem?, List.getElem?_eq_getElem hlong]

theorem positionsFit_iff (hg : g.IsBuilt) : g.PositionsFit ↔
    ∀ p < g.productions.size, (g.production p).right.length ≤ maxIndex := by
  have wf := wellFormed_of_isBuilt hg
  constructor
  · intro hfit
    have hbegun : ∀ q, g.Begun q → (g.production q).right.length ≤ maxIndex := by
      intro q hq
      by_contra hlong
      obtain ⟨s, hs, i, hi, x, hx, hbeyond⟩ := wf.exists_beyond hq (Nat.lt_of_not_le hlong)
      exact absurd (hfit s hs i hi x hx) (Nat.not_le_of_lt hbeyond)
    exact fun p hp => hbegun p (begun_of_isBuilt hg hbegun hp)
  · intro hlength s _ i hi x hx
    exact (dot_lt_length hx).trans_le (hlength _ (wf.proper_itemsOf hi).1)

end Grammar

open Grammar Declarations

/-- **Positions stay in right-hand sides**, and come to the end of each. -/
theorem positions_bounded {g : Grammar} (hg : g.IsBuilt) : g.PositionsBounded := by
  have wf := wellFormed_of_isBuilt hg
  have h := lowered_of_isBuilt hg
  constructor
  · exact fun p hp => h.length_right hp
  · exact fun d hd hlist r hr => h.exists_as_wide hd hlist hr
  · exact fun p k => wf.exists_position_iff
  · exact fun hlength p =>
      ⟨wf.lt_of_begun, begun_of_isBuilt hg fun q hq => hlength q (wf.lt_of_begun hq)⟩
  · exact positionsFit_iff hg
  · exact fun hwidth p hp => h.length_right_le (by decide) hwidth hp

/-- A rule of two plus signs is gone through to the end of its right-hand side. -/
theorem positions_bounded_two : ∃ g, (ofSteps "long" (longSteps 2)).build = .ok g ∧ g.PositionsFit ∧
    ∃ p, ∃ s < g.stateCount, ⟨p, 2⟩ ∈ g.itemsOf s := by
  obtain ⟨g, hbuild, hrules⟩ := exists_build_long 2
  have hbounded := positions_bounded ⟨"long", longSteps 2, hbuild⟩
  have hmem : longRule 2 ∈ g.rules.toList := by rw [hrules]; exact List.mem_cons_self
  have hwidths : ∀ r ∈ (longRule 2).rule.subrules, r.width ≤ maxIndex := by decide
  have hnarrow : ∀ r, IsSubrule g.rules.toList r → r.width ≤ maxIndex := by
    rintro r ⟨d, hd, hr⟩
    rw [hrules, List.mem_singleton] at hd
    exact hwidths r (hd ▸ hr)
  obtain ⟨p, hp, hlength⟩ := hbounded.widths _ hmem rfl _ List.mem_cons_self
  have hlengths := hbounded.narrow hnarrow
  exact ⟨g, hbuild, hbounded.fits.mpr hlengths, p, (hbounded.positions p 2).mpr
    ⟨(hbounded.begun hlengths p).mpr hp, hlength.ge, by decide⟩⟩

/-- **Nothing limits the positions.** A grammar builds of which a state has an item whose next position
would be wider than an index. -/
theorem exists_position_beyond : ∃ g, (ofSteps "long" (longSteps 65536)).build = .ok g ∧
    (∃ p < g.productions.size, maxIndex < (g.production p).right.length) ∧
    ∃ s < g.stateCount, ∃ i ∈ g.itemsOf s, ∃ x, g.nextSymbol? i = some x ∧ maxIndex < i.dot + 1 := by
  obtain ⟨g, hbuild, hrules⟩ := exists_build_long 65536
  have hg : g.IsBuilt := ⟨"long", longSteps 65536, hbuild⟩
  have hmem : longRule 65536 ∈ g.rules.toList := by rw [hrules]; exact List.mem_cons_self
  obtain ⟨p, hp, hlength⟩ := (lowered_of_isBuilt hg).exists_as_wide hmem rfl List.mem_cons_self
  have hlong : maxIndex < (g.production p).right.length := by
    rw [hlength, longRule, Rule.width, Rule.widthOfAll_replicate 65536 rfl]
    decide
  refine ⟨g, hbuild, ⟨p, hp, hlong⟩, ?_⟩
  by_contra hnone
  have hfit : g.PositionsFit := fun s hs i hi x hx =>
    Nat.le_of_not_lt fun hbeyond => hnone ⟨s, hs, i, hi, x, hx, hbeyond⟩
  exact absurd ((positionsFit_iff hg).mp hfit p hp) (Nat.not_le_of_lt hlong)

end FourGL
