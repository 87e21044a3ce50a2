import FourGL.Proofs.Automaton.First

/-!
# First sets in one loop

Nullability and first sets can be found together. A *pass* goes over all productions in order. Each
looks at its right-hand side up to the first symbol that is not known to be nullable, and adds what it
has seen to the first set of its left-hand side, which it marks as nullable if it got to the end. Passes
are repeated until one changes nothing.

Both relations grow during a pass, so what a production sees depends on the order of the productions.
What the loop ends with does not.

**Theorem (`first_sets_exact`).** The loop ends, with the sets that the parser tables are built from. A
nonterminal is nullable exactly if it derives the empty word, its first set holds the terminals that start
a word derived from it, and the same holds of all ends of right-hand sides.

A pass keeps the sets sound (`Sound.pass`), and sets that a pass leaves alone are closed under every
production (`closed_of_pass`). Soundness is then an induction over the passes, completeness one over a
derivation.
-/

namespace FourGL

/-! ## Loops that come to rest -/

/-- A function applied again and again comes to rest: after a number of applications that change
something, one more changes nothing. -/
inductive ComesToRest {α : Type} (f : α → α) : Nat → α → α → Prop
  | rest {a : α} : f a = a → ComesToRest f 0 a a
  | step {n : Nat} {a b : α} : f a ≠ a → ComesToRest f n (f a) b → ComesToRest f (n + 1) a b

section Rest

variable {α : Type} {f : α → α} {P : α → Prop} {a b : α} {n : Nat}

theorem ComesToRest.fixed (h : ComesToRest f n a b) : f b = b := by
  induction h with
  | rest h => exact h
  | step _ _ ih => exact ih

theorem ComesToRest.keeps (h : ComesToRest f n a b) (keeps : ∀ a, P a → P (f a)) (ha : P a) :
    P b := by
  induction h with
  | rest => exact ha
  | step _ _ ih => exact ih (keeps _ ha)

/-- What grows by each change and has a bound stops changing. -/
theorem exists_comesToRest (size : α → Nat) {bound : Nat} (keeps : ∀ a, P a → P (f a))
    (within : ∀ a, P a → size a ≤ bound) (grows : ∀ a, P a → f a ≠ a → size a < size (f a))
    (ha : P a) : ∃ n b, size a + n ≤ bound ∧ ComesToRest f n a b := by
  induction hleft : bound - size a using Nat.strong_induction_on generalizing a with
  | _ left ih =>
    by_cases hrest : f a = a
    · exact ⟨0, a, within a ha, .rest hrest⟩
    · have hgrows := grows a ha hrest
      have hbound := within (f a) (keeps a ha)
      obtain ⟨n, b, hn, hb⟩ := ih (bound - size (f a)) (by omega) (keeps a ha) rfl
      exact ⟨n + 1, b, by omega, .step hrest hb⟩

end Rest

/-! ## Derived words -/

/-- The symbols can be rewritten to the word. -/
def Grammar.Derives (g : Grammar) (β : List Symbol) (w : List TerminalId) : Prop :=
  Relation.ReflTransGen g.Produces β (w.map .terminal)

theorem Grammar.derives_iff_yields {g : Grammar} {β : List Symbol} {w : List TerminalId} :
    g.Derives β w ↔ ∃ k, g.Yields β w k :=
  ⟨yields_of_rewrites, fun ⟨_, h⟩ => rewrites_of_yields h⟩

/-! ## The loop -/

namespace FirstSets

/-- What a sequence of symbols shows up to the first one that is not known to be nullable: the terminals
that may come first, and whether the end was reached. -/
def look (sets : FirstSets) : List Symbol → Nat × Bool
  | [] => (0, true)
  | .terminal t :: _ => (bit t, false)
  | .nonterminal n :: rest =>
    if sets.nullable.has n then (sets.first.level n ||| (sets.look rest).1, (sets.look rest).2)
    else (sets.first.level n, false)

/-- Extends the sets of a left-hand side by what the right-hand side shows. -/
def visit (sets : FirstSets) (p : Production) : FirstSets where
  nullable :=
    if (sets.look p.right).2 then sets.nullable.setIfInBounds p.left true else sets.nullable
  first := sets.first.pour p.left (sets.look p.right).1

/-- Visits all productions in order. -/
def pass (g : Grammar) (sets : FirstSets) : FirstSets := g.productions.toList.foldl visit sets

/-- Nothing is known of any nonterminal. -/
def blank (g : Grammar) : FirstSets :=
  ⟨Array.replicate g.nonterminals.size false, Array.replicate g.nonterminals.size 0⟩

variable {g : Grammar} {sets sets' : FirstSets} {β : List Symbol} {p : Production}
  {n : NonterminalId} {t : TerminalId} {w : List TerminalId} {k : Nat}

/-- The look along a sequence finds what the sequence contributes to lookaheads. -/
theorem look_eq (sets : FirstSets) (β : List Symbol) :
    (sets.look β).2 = sets.isNullable β ∧
      ∀ t, (sets.look β).1.testBit t = (sets.ofSequence β).testBit t := by
  have hsequence : ∀ β t, (sets.ofSequence β).testBit t = true ↔
      ∃ x ∈ leaders sets.nullable β, (sets.ofSymbol x).testBit t = true := fun β t => by
    rw [ofSequence, testBit_foldl fun set x => by rw [Nat.testBit_or, Bool.or_eq_true]]
    simp
  induction β with
  | nil => exact ⟨rfl, fun t => rfl⟩
  | cons x β ih =>
    cases x with
    | terminal t' =>
      refine ⟨rfl, fun t => ?_⟩
      rw [Bool.eq_iff_iff, hsequence]
      simp [look, leaders, Symbol.isNullable, ofSymbol]
    | nonterminal n =>
      refine ⟨?_, fun t => ?_⟩
      · by_cases hn : sets.nullable.has n = true
        · rw [look, if_pos hn, ih.1]
          simp [isNullable, Symbol.isNullable, hn]
        · rw [look, if_neg hn]
          simp [isNullable, Symbol.isNullable, hn]
      · have ih := ih.2 t
        rw [Bool.eq_iff_iff, hsequence] at ih ⊢
        by_cases hn : sets.nullable.has n = true
        · rw [look, if_pos hn, Nat.testBit_or, Bool.or_eq_true, ih]
          simp [leaders, Symbol.isNullable, ofSymbol, hn]
        · rw [look, if_neg hn]
          simp [leaders, Symbol.isNullable, ofSymbol, hn]

/-! ## Sets that grow -/

/-- One pair of sets is part of another. -/
structure Within (sets sets' : FirstSets) : Prop where
  size : sets.nullable.size = sets'.nullable.size
  nullable : ∀ n, sets.nullable.has n = true → sets'.nullable.has n = true
  first : sets.first.Within sets'.first

theorem Within.refl (sets : FirstSets) : sets.Within sets :=
  ⟨rfl, fun _ h => h, Levels.Within.refl _⟩

theorem Within.trans {sets'' : FirstSets} (h : sets.Within sets') (h' : sets'.Within sets'') :
    sets.Within sets'' :=
  ⟨h.size.trans h'.size, fun n hn => h'.nullable n (h.nullable n hn), h.first.trans h'.first⟩

theorem Within.antisymm (h : sets.Within sets') (h' : sets'.Within sets) : sets = sets' := by
  have hnullable : sets.nullable = sets'.nullable :=
    Marks.ext h.size fun n => ⟨h.nullable n, h'.nullable n⟩
  have hfirst : sets.first = sets'.first := h.first.antisymm h'.first
  cases sets
  cases sets'
  cases hnullable
  cases hfirst
  rfl

/-- A visit marks its left-hand side as a clause without conditions does. -/
theorem nullable_visit : (sets.visit p).nullable =
    if (sets.look p.right).2 then sets.nullable.apply ⟨p.left, []⟩ else sets.nullable := rfl

theorem has_visit : (sets.visit p).nullable.has n = true ↔ sets.nullable.has n = true ∨
    p.left = n ∧ n < sets.nullable.size ∧ (sets.look p.right).2 = true := by
  rw [nullable_visit]
  split_ifs with hall
  · rw [Marks.has_apply]
    simp [hall]
  · simp [hall]

theorem testBit_visit : ((sets.visit p).first.level n).testBit t = true ↔
    (sets.first.level n).testBit t = true ∨
      n = p.left ∧ n < sets.first.size ∧ (sets.look p.right).1.testBit t = true :=
  Levels.testBit_pour

theorem within_visit (sets : FirstSets) (p : Production) : sets.Within (sets.visit p) where
  size := by
    rw [nullable_visit]
    split_ifs
    · exact Marks.size_apply.symm
    · rfl
  nullable _ hn := has_visit.mpr (Or.inl hn)
  first := Levels.within_pour

theorem within_visits (sets : FirstSets) (ps : List Production) :
    sets.Within (ps.foldl visit sets) := by
  induction ps generalizing sets with
  | nil => exact .refl sets
  | cons p ps ih => exact (sets.within_visit p).trans (ih (sets.visit p))

/-- Sets that no visit of a pass changes. -/
theorem visit_eq_of_pass {ps : List Production} (h : ps.foldl visit sets = sets) (hp : p ∈ ps) :
    sets.visit p = sets := by
  induction ps with
  | nil => cases hp
  | cons q ps ih =>
    rw [List.foldl_cons] at h
    -- What the first visit adds is still there at the end.
    have hfirst : sets.visit q = sets := by
      have hrest := within_visits (sets.visit q) ps
      rw [h] at hrest
      exact hrest.antisymm (sets.within_visit q)
    rw [hfirst] at h
    rcases List.mem_cons.mp hp with rfl | hp
    · exact hfirst
    · exact ih h hp

/-! ## Sound sets -/

/-- The sets have an entry for each nonterminal, which says nothing wrong. -/
structure Sound (g : Grammar) (sets : FirstSets) : Prop where
  sizes : sets.nullable.size = g.nonterminals.size ∧ sets.first.size = g.nonterminals.size
  nullable : ∀ n, sets.nullable.has n = true → ∃ k, g.Yields [.nonterminal n] [] k
  first : ∀ n t, (sets.first.level n).testBit t = true → ∃ w k, g.Yields [.nonterminal n] (t :: w) k

theorem sound_blank (g : Grammar) : (blank g).Sound g where
  sizes := ⟨Array.size_replicate, Array.size_replicate⟩
  nullable n hn := by
    rw [blank, Marks.has, Array.getD_eq_getD_getElem?, Array.getElem?_replicate] at hn
    split at hn <;> simp at hn
  first n t ht := by
    rw [blank, level_replicate_zero, Nat.zero_testBit] at ht
    cases ht

theorem Sound.yields_nil (h : sets.Sound g) (hlook : (sets.look β).2 = true) :
    ∃ k, g.Yields β [] k := by
  induction β with
  | nil => exact ⟨0, .nil⟩
  | cons x β ih =>
    cases x with
    | terminal t => cases hlook
    | nonterminal n =>
      rw [look] at hlook
      split_ifs at hlook with hn
      obtain ⟨i, hi⟩ := h.nullable n hn
      obtain ⟨j, hj⟩ := ih hlook
      exact ⟨_, hi.append hj⟩

/-- What is seen of a sequence starts a word of it, since the symbols behind derive something, too. -/
theorem Sound.yields_cons (h : sets.Sound g) (wf : g.WellFormed)
    (hβ : ∀ x ∈ β, x.Usable g.vocabulary g.nonterminals.size)
    (hlook : (sets.look β).1.testBit t = true) : ∃ w k, g.Yields β (t :: w) k := by
  induction β with
  | nil => simp [look] at hlook
  | cons x β ih =>
    have hbehind := (List.forall_mem_cons.mp hβ).2
    obtain ⟨v, j, hv⟩ := wf.exists_yields hbehind
    cases x with
    | terminal t' =>
      obtain rfl := testBit_bit.mp hlook
      exact ⟨v, _, .terminal hv⟩
    | nonterminal n =>
      have hcases : (sets.first.level n).testBit t = true ∨
          sets.nullable.has n = true ∧ (sets.look β).1.testBit t = true := by
        rw [look] at hlook
        split_ifs at hlook with hn
        · rw [Nat.testBit_or, Bool.or_eq_true] at hlook
          exact hlook.imp_right fun hrest => ⟨hn, hrest⟩
        · exact Or.inl hlook
      rcases hcases with hfirst | ⟨hn, hrest⟩
      · obtain ⟨w, i, hw⟩ := h.first n t hfirst
        exact ⟨w ++ v, _, hw.append hv⟩
      · obtain ⟨i, hi⟩ := h.nullable n hn
        obtain ⟨w, k, hw⟩ := ih hbehind hrest
        exact ⟨w, _, hi.append hw⟩

theorem Sound.visit (h : sets.Sound g) (wf : g.WellFormed) {p : ProductionId}
    (hp : p < g.productions.size) : (sets.visit (g.production p)).Sound g where
  sizes := by
    have hwithin := sets.within_visit (g.production p)
    rw [← hwithin.size, ← hwithin.first.1]
    exact h.sizes
  nullable n hn := by
    rcases has_visit.mp hn with hn | ⟨rfl, -, hall⟩
    · exact h.nullable n hn
    · obtain ⟨k, hk⟩ := h.yields_nil hall
      exact ⟨_, .of_production hp hk⟩
  first n t ht := by
    rcases testBit_visit.mp ht with ht | ⟨rfl, -, hseen⟩
    · exact h.first n t ht
    · obtain ⟨w, k, hw⟩ := h.yields_cons wf (wf.right p hp) hseen
      exact ⟨w, _, .of_production hp hw⟩

/-- **A pass keeps sets sound.** -/
theorem Sound.pass (h : sets.Sound g) (wf : g.WellFormed) : (pass g sets).Sound g := by
  have hall : ∀ ps : List Production, (∀ p ∈ ps, p ∈ g.productions.toList) →
      ∀ sets : FirstSets, sets.Sound g → (ps.foldl FirstSets.visit sets).Sound g := by
    intro ps
    induction ps with
    | nil => exact fun _ _ h => h
    | cons p ps ih =>
      intro hps sets h
      obtain ⟨i, hi, rfl⟩ := Grammar.exists_production (hps p List.mem_cons_self)
      exact ih (fun q hq => hps q (List.mem_cons_of_mem _ hq)) _ (h.visit wf hi)
  exact hall _ (fun _ hp => hp) sets h

/-! ## Closed sets -/

/-- What a right-hand side shows is known of the left-hand side. -/
structure Closed (g : Grammar) (sets : FirstSets) : Prop where
  nullable : ∀ p < g.productions.size, (sets.look (g.production p).right).2 = true →
    sets.nullable.has (g.production p).left = true
  first : ∀ p < g.productions.size, ∀ t, (sets.look (g.production p).right).1.testBit t = true →
    (sets.first.level (g.production p).left).testBit t = true

/-- **Sets at rest are closed.** -/
theorem closed_of_pass (h : sets.Sound g) (wf : g.WellFormed) (hrest : pass g sets = sets) :
    sets.Closed g := by
  have hvisit : ∀ p < g.productions.size, sets.visit (g.production p) = sets := fun p hp => by
    refine visit_eq_of_pass hrest ?_
    rw [Grammar.production_eq_getElem hp]
    exact Array.getElem_mem_toList hp
  refine ⟨fun p hp hall => ?_, fun p hp t hseen => ?_⟩
  · rw [← hvisit p hp]
    exact has_visit.mpr (Or.inr ⟨rfl, h.sizes.1 ▸ wf.left p hp, hall⟩)
  · rw [← hvisit p hp]
    exact testBit_visit.mpr (Or.inr ⟨rfl, h.sizes.2 ▸ wf.left p hp, hseen⟩)

/-- Closed sets show all words that a sequence yields, by what they start with. -/
theorem Closed.look_of_yields (h : sets.Closed g) (hy : g.Yields β w k) :
    (w = [] → (sets.look β).2 = true) ∧
      ∀ t u, w = t :: u → (sets.look β).1.testBit t = true := by
  induction hy with
  | nil => exact ⟨fun _ => rfl, nofun⟩
  | terminal _ _ =>
    refine ⟨nofun, ?_⟩
    rintro t u ⟨⟩
    exact testBit_bit.mpr rfl
  | @nonterminal p l β x w _ _ hp hl _ _ ihx ihβ =>
    subst hl
    cases x with
    | nil =>
      -- The first nonterminal is known to be nullable, so the look goes on behind it.
      have hn := h.nullable p hp (ihx.1 rfl)
      rw [look, if_pos hn]
      refine ⟨ihβ.1, fun t u hw => ?_⟩
      rw [Nat.testBit_or, Bool.or_eq_true]
      exact Or.inr (ihβ.2 t u hw)
    | cons t' x =>
      refine ⟨nofun, fun t u hw => ?_⟩
      obtain ⟨rfl, -⟩ := List.cons.inj hw
      have hfirst := h.first p hp t' (ihx.2 t' x rfl)
      rw [look]
      split_ifs
      · rw [Nat.testBit_or, Bool.or_eq_true]
        exact Or.inl hfirst
      · exact hfirst

/-! ## Exact sets -/

/-- The sets hold what they are meant to. -/
structure Exact (g : Grammar) (sets : FirstSets) : Prop where
  nullable : ∀ n, sets.nullable.has n = true ↔ g.Derives [.nonterminal n] []
  first : ∀ n t, (sets.first.level n).testBit t = true ↔ ∃ w, g.Derives [.nonterminal n] (t :: w)

/-- Sound sets at rest are exact. -/
theorem Sound.exact (h : sets.Sound g) (hclosed : sets.Closed g) : sets.Exact g := by
  refine ⟨fun n => ?_, fun n t => ?_⟩
  · rw [Grammar.derives_iff_yields]
    refine ⟨h.nullable n, fun ⟨k, hk⟩ => ?_⟩
    have hlook := (hclosed.look_of_yields hk).1 rfl
    rw [look] at hlook
    split_ifs at hlook with hn
    exact hn
  · simp only [Grammar.derives_iff_yields]
    refine ⟨h.first n t, fun ⟨w, k, hk⟩ => ?_⟩
    have hlook := (hclosed.look_of_yields hk).2 t w rfl
    rw [look] at hlook
    split_ifs at hlook
    · simpa [look] using hlook
    · exact hlook

theorem Exact.unique (h : sets.Exact g) (h' : sets'.Exact g)
    (hnullable : sets.nullable.size = sets'.nullable.size)
    (hfirst : sets.first.size = sets'.first.size) : sets = sets' :=
  Within.antisymm
    ⟨hnullable, fun n hn => (h'.nullable n).mpr ((h.nullable n).mp hn),
      hfirst, fun n t ht => (h'.first n t).mpr ((h.first n t).mp ht)⟩
    ⟨hnullable.symm, fun n hn => (h.nullable n).mpr ((h'.nullable n).mp hn),
      hfirst.symm, fun n t ht => (h.first n t).mpr ((h'.first n t).mp ht)⟩

end FirstSets

/-! ## The loop ends -/

section Loop

variable {g : Grammar} {sets sets' : FirstSets}

open FirstSets (look pass blank)

/-- The sets of the parser tables are exact. -/
theorem Grammar.WellFormed.exact_ofGrammar (wf : g.WellFormed) :
    (FirstSets.ofGrammar g).Exact g := by
  refine ⟨fun n => ?_, fun n t => ?_⟩
  · rw [derives_iff_yields]
    exact wf.nullable_has_iff
  · have hholds : ((FirstSets.ofGrammar g).first.level n).testBit t = true ↔ g.firstFlow.Holds n t :=
      Flow.mem_solve_iff wf.fits_firstFlow
    rw [hholds]
    simp only [derives_iff_yields]
    refine ⟨wf.yields_of_holds, fun ⟨w, k, hw⟩ => ?_⟩
    obtain ⟨x, hx, hcase⟩ := wf.leader_of_yields hw t w rfl
    obtain rfl : x = .nonterminal n := by simpa [leaders] using hx
    rcases hcase with hterminal | ⟨m, hm, hholds⟩
    · cases hterminal
    · cases hm
      exact hholds

theorem Grammar.WellFormed.sizes_ofGrammar (wf : g.WellFormed) :
    (FirstSets.ofGrammar g).nullable.size = g.nonterminals.size ∧
      (FirstSets.ofGrammar g).first.size = g.nonterminals.size :=
  ⟨Marks.size_close, (Flow.fits_solve wf.fits_firstFlow).1.trans size_firstFlow_seeds⟩

/-- Sound sets are part of those of the parser tables. -/
theorem FirstSets.Sound.within_ofGrammar (h : sets.Sound g) (wf : g.WellFormed) :
    sets.Within (FirstSets.ofGrammar g) where
  size := h.sizes.1.trans wf.sizes_ofGrammar.1.symm
  nullable n hn := (wf.exact_ofGrammar.nullable n).mpr (Grammar.derives_iff_yields.mpr (h.nullable n hn))
  first := by
    refine ⟨h.sizes.2.trans wf.sizes_ofGrammar.2.symm, fun n t ht => ?_⟩
    obtain ⟨w, k, hw⟩ := h.first n t ht
    exact (wf.exact_ofGrammar.first n t).mpr ⟨w, Grammar.derives_iff_yields.mpr ⟨k, hw⟩⟩

/-- How much is known. -/
def FirstSets.known (g : Grammar) (sets : FirstSets) : Nat :=
  (Marks.members g.nonterminals.size sets.nullable).card +
    (Flow.members g.nonterminals.size g.vocabulary.terminals.size sets.first).card

theorem FirstSets.known_le (g : Grammar) (sets : FirstSets) :
    sets.known g ≤ g.nonterminals.size * (g.vocabulary.terminals.size + 1) := by
  have hmarks := Finset.card_filter_le (Finset.range g.nonterminals.size)
    fun n => sets.nullable.has n = true
  have hlevels := Finset.card_filter_le
    (Finset.range g.nonterminals.size ×ˢ Finset.range g.vocabulary.terminals.size)
    fun p => (sets.first.level p.1).testBit p.2 = true
  rw [Finset.card_range] at hmarks
  rw [Finset.card_product, Finset.card_range, Finset.card_range] at hlevels
  rw [known, Nat.mul_add, Nat.mul_one, Nat.add_comm]
  exact Nat.add_le_add hlevels hmarks

/-- A change of sound sets to larger ones makes more known. -/
theorem FirstSets.Sound.known_lt (h : sets'.Sound g) (wf : g.WellFormed)
    (hwithin : sets.Within sets') (hne : sets' ≠ sets) : sets.known g < sets'.known g := by
  have hmarks : Marks.members g.nonterminals.size sets.nullable ⊆
      Marks.members g.nonterminals.size sets'.nullable :=
    Finset.monotone_filter_right _ fun n _ => hwithin.nullable n
  have hlevels : Flow.members g.nonterminals.size g.vocabulary.terminals.size sets.first ⊆
      Flow.members g.nonterminals.size g.vocabulary.terminals.size sets'.first :=
    Finset.monotone_filter_right _ fun p _ => hwithin.first.2 p.1 p.2
  by_contra hle
  have hcards := Finset.card_le_card hmarks
  have hcards' := Finset.card_le_card hlevels
  simp only [known] at hle
  have hsame := Finset.eq_of_subset_of_card_le hmarks (by omega)
  have hsame' := Finset.eq_of_subset_of_card_le hlevels (by omega)
  refine hne (Within.antisymm ⟨hwithin.size.symm, fun n hn => ?_, hwithin.first.1.symm, fun n t ht => ?_⟩
    hwithin)
  · have hlt : n < g.nonterminals.size := h.sizes.1 ▸ Marks.has_lt hn
    have hmem : n ∈ Marks.members g.nonterminals.size sets'.nullable :=
      Finset.mem_filter.mpr ⟨Finset.mem_range.mpr hlt, hn⟩
    rw [← hsame] at hmem
    exact (Finset.mem_filter.mp hmem).2
  · have hlt : n < g.nonterminals.size := by
      by_contra hge
      rw [Levels.level_eq_zero_of_le (by rw [h.sizes.2]; omega), Nat.zero_testBit] at ht
      cases ht
    have hwidth : t < g.vocabulary.terminals.size :=
      (Flow.fits_solve wf.fits_firstFlow).2 n t ((h.within_ofGrammar wf).first.2 n t ht)
    have hmem : (n, t) ∈ Flow.members g.nonterminals.size g.vocabulary.terminals.size sets'.first :=
      Finset.mem_filter.mpr
        ⟨Finset.mem_product.mpr ⟨Finset.mem_range.mpr hlt, Finset.mem_range.mpr hwidth⟩, ht⟩
    rw [← hsame'] at hmem
    exact (Finset.mem_filter.mp hmem).2

/-- **The loop.** It ends, and with the sets of the parser tables. -/
theorem Grammar.WellFormed.exists_comesToRest (wf : g.WellFormed) :
    ∃ n ≤ g.nonterminals.size * (g.vocabulary.terminals.size + 1),
      ComesToRest (pass g) n (blank g) (FirstSets.ofGrammar g) := by
  obtain ⟨n, sets, hn, hloop⟩ := FourGL.exists_comesToRest (P := FirstSets.Sound g)
    (FirstSets.known g) (fun _ h => h.pass wf) (fun sets _ => sets.known_le g)
    (fun sets h hne => (h.pass wf).known_lt wf (sets.within_visits _) hne) (FirstSets.sound_blank g)
  have hsound : sets.Sound g := hloop.keeps (fun _ h => h.pass wf) (FirstSets.sound_blank g)
  have hexact := hsound.exact (FirstSets.closed_of_pass hsound wf hloop.fixed)
  obtain rfl : sets = FirstSets.ofGrammar g := hexact.unique wf.exact_ofGrammar
    (hsound.sizes.1.trans wf.sizes_ofGrammar.1.symm) (hsound.sizes.2.trans wf.sizes_ofGrammar.2.symm)
  exact ⟨n, by omega, hloop⟩

/-- What the exact sets show of a sequence. -/
theorem Grammar.WellFormed.look_iff (wf : g.WellFormed) {β : List Symbol}
    (hβ : ∀ x ∈ β, x.Usable g.vocabulary g.nonterminals.size) :
    (((FirstSets.ofGrammar g).look β).2 = true ↔ g.Derives β []) ∧
      ∀ t, ((FirstSets.ofGrammar g).look β).1.testBit t = true ↔ ∃ w, g.Derives β (t :: w) := by
  obtain ⟨hnullable, hfirst⟩ := (FirstSets.ofGrammar g).look_eq β
  refine ⟨?_, fun t => ?_⟩
  · rw [hnullable, wf.isNullable_iff, derives_iff_yields]
  · rw [hfirst, wf.testBit_ofSequence_iff hβ]
    simp only [derives_iff_yields]

/-- **First sets are exact.** For every grammar that some declarations build, the loop over the
productions ends, with the sets that the parser tables are built from. They are exact for all
nonterminals, and so is what they show of all ends of right-hand sides. -/
theorem first_sets_exact (h : g.IsBuilt) :
    (∃ n ≤ g.nonterminals.size * (g.vocabulary.terminals.size + 1),
      ComesToRest (pass g) n (blank g) (FirstSets.ofGrammar g)) ∧
    (FirstSets.ofGrammar g).Exact g ∧
    ∀ p < g.productions.size, ∀ dot,
      (((FirstSets.ofGrammar g).look ((g.production p).right.drop dot)).2 = true ↔
        g.Derives ((g.production p).right.drop dot) []) ∧
      ∀ t, ((FirstSets.ofGrammar g).look ((g.production p).right.drop dot)).1.testBit t = true ↔
        ∃ w, g.Derives ((g.production p).right.drop dot) (t :: w) := by
  have wf := Grammar.wellFormed_of_isBuilt h
  refine ⟨wf.exists_comesToRest, wf.exact_ofGrammar, fun p hp dot => wf.look_iff fun x hx => ?_⟩
  exact wf.right p hp x (List.mem_of_mem_drop hx)

/-- The grammar of any number of plus signs. -/
def anySignsSteps : List DeclarationStep := [.rule "signs" (.star (.symbol "+")), .root "signs"]

/-- What the sets of the tables hold of the root is derived: the empty word, and a word that starts with
a plus sign, but none that starts with a lexical error. -/
theorem first_sets_exact_signs : ∃ g : Grammar, g.IsBuilt ∧
    (∃ n ≤ g.nonterminals.size * (g.vocabulary.terminals.size + 1),
      ComesToRest (pass g) n (blank g) (FirstSets.ofGrammar g)) ∧
    g.Derives [.nonterminal g.root] [] ∧ (∃ w, g.Derives [.nonterminal g.root] (2 :: w)) ∧
    ¬ ∃ w, g.Derives [.nonterminal g.root] (Vocabulary.errorToken :: w) := by
  have hseen : (Declarations.ofSteps "signs" anySignsSteps).seen? (fun g =>
      let sets := FirstSets.ofGrammar g
      some (sets.nullable.has g.root, (sets.first.level g.root).testBit 2,
        (sets.first.level g.root).testBit Vocabulary.errorToken)) = some (true, true, false) := by
    decide +kernel
  obtain ⟨g, hbuild, hsets⟩ := Declarations.exists_seen hseen
  simp only [Option.some.injEq, Prod.mk.injEq] at hsets
  obtain ⟨hnullable, hplus, herror⟩ := hsets
  have hbuilt : g.IsBuilt := ⟨"signs", anySignsSteps, hbuild⟩
  obtain ⟨hloop, hexact, -⟩ := first_sets_exact hbuilt
  refine ⟨g, hbuilt, hloop, (hexact.nullable _).mp hnullable, (hexact.first _ _).mp hplus, fun hw => ?_⟩
  rw [(hexact.first _ _).mpr hw] at herror
  cases herror

end Loop

end FourGL
