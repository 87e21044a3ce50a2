import FourGL.Automaton.First
import FourGL.Proofs.Grammar.WellFormed

/-!
# First sets are exact

**Theorem (`isNullable_iff`).** A sequence of symbols is found nullable exactly if it yields the
empty word.

**Theorem (`testBit_ofSequence_iff`).** The first set of a sequence holds a terminal exactly if the
sequence yields some word that starts with it.

Both sets are least solutions, so soundness is an induction over how a member came in, and
completeness an induction over a derivation.
-/

namespace FourGL

@[simp] theorem testBit_bit {n t : Nat} : (bit n).testBit t = true ↔ t = n := by
  rw [bit, Nat.one_shiftLeft, Nat.testBit_two_pow]
  simp [eq_comm]

/-- Pouring in one set after the other. -/
theorem Levels.testBit_foldl_pour {α : Type} (seed : α → Option (Nat × Nat))
    {add : Levels → α → Levels}
    (hadd : ∀ levels a, add levels a = match seed a with
      | some (node, set) => Levels.pour levels node set
      | none => levels)
    (xs : List α) (levels : Levels) {n t : Nat} :
    ((xs.foldl add levels).level n).testBit t = true ↔
      (levels.level n).testBit t = true ∨
        n < levels.size ∧ ∃ a ∈ xs, ∃ set, seed a = some (n, set) ∧ set.testBit t = true := by
  induction xs generalizing levels with
  | nil => simp
  | cons a xs ih =>
    rw [List.foldl_cons, ih, hadd]
    cases hs : seed a with
    | none => simp [hs]
    | some p =>
      simp only [Levels.testBit_pour, Levels.size_pour, List.exists_mem_cons_iff, hs,
        Option.some.injEq]
      constructor
      · rintro ((h | ⟨rfl, hlt, ht⟩) | ⟨hlt, h⟩)
        · exact Or.inl h
        · exact Or.inr ⟨hlt, Or.inl ⟨p.2, rfl, ht⟩⟩
        · exact Or.inr ⟨hlt, Or.inr h⟩
      · rintro (h | ⟨hlt, ⟨set, rfl, ht⟩ | h⟩)
        · exact Or.inl (Or.inl h)
        · exact Or.inl (Or.inr ⟨rfl, hlt, ht⟩)
        · exact Or.inr ⟨hlt, h⟩

theorem Levels.size_foldl_pour {α : Type} (seed : α → Option (Nat × Nat))
    {add : Levels → α → Levels}
    (hadd : ∀ levels a, add levels a = match seed a with
      | some (node, set) => Levels.pour levels node set
      | none => levels)
    (xs : List α) (levels : Levels) : (xs.foldl add levels).size = levels.size := by
  induction xs generalizing levels with
  | nil => rfl
  | cons a xs ih =>
    rw [List.foldl_cons, ih, hadd]
    split <;> simp

/-! ## Nullable sequences -/

section Nullable

variable {g : Grammar} {β : List Symbol} {n : NonterminalId} {w : List TerminalId} {k : Nat}

/-- The clauses by which nonterminals are found nullable. -/
def nullableClauses (g : Grammar) : List Clause :=
  g.productions.toList.filterMap Production.nullableClause?

theorem yields_nil_of_forall {ns : List NonterminalId}
    (h : ∀ n ∈ ns, ∃ k, g.Yields [.nonterminal n] [] k) :
    ∃ k, g.Yields (ns.map .nonterminal) [] k := by
  induction ns with
  | nil => exact ⟨0, .nil⟩
  | cons n ns ih =>
    obtain ⟨i, hi⟩ := h n List.mem_cons_self
    obtain ⟨k, hk⟩ := ih fun m hm => h m (List.mem_cons_of_mem n hm)
    exact ⟨i + k, hi.append hk⟩

theorem map_nonterminal_of_all (h : β.all (·.nonterminal?.isSome) = true) :
    (β.filterMap Symbol.nonterminal?).map .nonterminal = β := by
  induction β with
  | nil => rfl
  | cons x β ih =>
    rw [List.all_cons, Bool.and_eq_true] at h
    cases x with
    | terminal t => exact absurd h.1 (by simp [Symbol.nonterminal?])
    | nonterminal m => exact congrArg _ (ih h.2)

theorem Production.right_of_nullableClause {p : Production} {c : Clause}
    (h : p.nullableClause? = some c) : c = ⟨p.left, p.nonterminals⟩ ∧
      p.right = p.nonterminals.map .nonterminal := by
  simp only [nullableClause?] at h
  split at h
  · next hall => exact ⟨(Option.some.inj h).symm, (map_nonterminal_of_all hall).symm⟩
  · cases h

theorem yields_nil_of_derivable (h : Derivable (nullableClauses g) n) :
    ∃ k, g.Yields [.nonterminal n] [] k := by
  induction h with
  | clause hc _ ih =>
    obtain ⟨production, hmem, hclause⟩ := List.mem_filterMap.mp hc
    obtain ⟨rfl, hright⟩ := production.right_of_nullableClause hclause
    obtain ⟨p, hp, rfl⟩ := Grammar.exists_production hmem
    obtain ⟨k, hk⟩ := yields_nil_of_forall ih
    rw [← hright] at hk
    exact ⟨_, .of_production hp hk⟩

theorem derivable_of_yields (h : g.Yields β w k) (hw : w = []) :
    ∀ x ∈ β, ∃ n, x = .nonterminal n ∧ Derivable (nullableClauses g) n := by
  induction h with
  | nil => simp
  | terminal => cases hw
  | @nonterminal p l β _ _ _ _ hp hl _ _ ihr ihβ =>
    obtain ⟨rfl, rfl⟩ := List.append_eq_nil_iff.mp hw
    intro x hx
    rcases List.mem_cons.mp hx with rfl | hx
    · refine ⟨l, rfl, ?_⟩
      have hmem : g.production p ∈ g.productions.toList := by
        rw [Grammar.production_eq_getElem hp]
        exact Array.getElem_mem_toList hp
      have hall : (g.production p).right.all (·.nonterminal?.isSome) = true := by
        refine List.all_eq_true.mpr fun y hy => ?_
        obtain ⟨m, rfl, -⟩ := ihr rfl y hy
        rfl
      have hclause : (⟨l, (g.production p).nonterminals⟩ : Clause) ∈ nullableClauses g :=
        List.mem_filterMap.mpr ⟨_, hmem, by rw [Production.nullableClause?, if_pos hall, hl]⟩
      refine Derivable.clause hclause fun m hm => ?_
      obtain ⟨y, hy, hym⟩ := List.mem_filterMap.mp hm
      obtain ⟨m', rfl, hd⟩ := ihr rfl y hy
      cases hym
      exact hd
    · exact ihβ rfl x hx

theorem Grammar.WellFormed.nullable_has_iff (wf : g.WellFormed) :
    (FirstSets.ofGrammar g).nullable.has n = true ↔ ∃ k, g.Yields [.nonterminal n] [] k := by
  have hheads : ∀ c ∈ nullableClauses g, c.head < g.nonterminals.size := fun c hc => by
    obtain ⟨production, hmem, hclause⟩ := List.mem_filterMap.mp hc
    obtain ⟨rfl, -⟩ := production.right_of_nullableClause hclause
    obtain ⟨p, hp, rfl⟩ := Grammar.exists_production hmem
    exact wf.left p hp
  show (Marks.close _ (nullableClauses g)).has n = true ↔ _
  rw [Marks.has_close_iff hheads]
  refine ⟨yields_nil_of_derivable, fun ⟨k, hk⟩ => ?_⟩
  obtain ⟨m, hm, hd⟩ := derivable_of_yields hk rfl _ List.mem_cons_self
  cases hm
  exact hd

/-- **Nullable sequences.** -/
theorem Grammar.WellFormed.isNullable_iff (wf : g.WellFormed) :
    (FirstSets.ofGrammar g).isNullable β = true ↔ ∃ k, g.Yields β [] k := by
  rw [FirstSets.isNullable, List.all_eq_true]
  constructor
  · intro h
    induction β with
    | nil => exact ⟨0, .nil⟩
    | cons x β ih =>
      obtain ⟨k, hk⟩ := ih fun y hy => h y (List.mem_cons_of_mem x hy)
      have hx := h x List.mem_cons_self
      cases x with
      | terminal t => simp [Symbol.isNullable] at hx
      | nonterminal n =>
        obtain ⟨i, hi⟩ := wf.nullable_has_iff.mp hx
        exact ⟨i + k, hi.append hk⟩
  · rintro ⟨k, hk⟩ x hx
    obtain ⟨n, rfl, hd⟩ := derivable_of_yields hk rfl x hx
    exact wf.nullable_has_iff.mpr (yields_nil_of_derivable hd)

end Nullable

/-! ## First sets -/

section First

variable {g : Grammar} {β : List Symbol} {n : NonterminalId} {w : List TerminalId}
  {t : TerminalId} {k : Nat}

theorem mem_leaders_iff {nullable : Marks} {x : Symbol} :
    x ∈ leaders nullable β ↔ ∃ α γ, β = α ++ x :: γ ∧ ∀ y ∈ α, y.isNullable nullable = true := by
  induction β with
  | nil => simp [leaders]
  | cons y β ih =>
    rw [leaders, List.mem_cons]
    constructor
    · rintro (rfl | hx)
      · exact ⟨[], β, rfl, by simp⟩
      · split at hx
        · next hy =>
          obtain ⟨α, γ, rfl, hα⟩ := ih.mp hx
          exact ⟨y :: α, γ, rfl, by simpa [hy] using hα⟩
        · cases hx
    · rintro ⟨α, γ, heq, hα⟩
      cases α with
      | nil => exact Or.inl (List.cons.inj heq).1.symm
      | cons z α =>
        obtain ⟨rfl, rfl⟩ := List.cons.inj heq
        rw [if_pos (hα _ List.mem_cons_self)]
        exact Or.inr (ih.mpr ⟨α, γ, rfl, fun u hu => hα u (List.mem_cons_of_mem _ hu)⟩)

/-- The nonterminals with the symbols that may lead a right-hand side of theirs. -/
def ledPairs (g : Grammar) : List (NonterminalId × Symbol) :=
  g.productions.toList.flatMap fun p =>
    (leaders (FirstSets.ofGrammar g).nullable p.right).map (p.left, ·)

theorem mem_ledPairs {x : Symbol} : (n, x) ∈ ledPairs g ↔ ∃ p < g.productions.size,
    (g.production p).left = n ∧
      x ∈ leaders (FirstSets.ofGrammar g).nullable (g.production p).right := by
  simp only [ledPairs, List.mem_flatMap, List.mem_map, Prod.mk.injEq]
  constructor
  · rintro ⟨production, hmem, x, hx, rfl, rfl⟩
    obtain ⟨p, hp, rfl⟩ := Grammar.exists_production hmem
    exact ⟨p, hp, rfl, hx⟩
  · rintro ⟨p, hp, rfl, hx⟩
    refine ⟨g.production p, ?_, x, hx, rfl, rfl⟩
    rw [Grammar.production_eq_getElem hp]
    exact Array.getElem_mem_toList hp

/-- The flow whose solution is the first sets. -/
def Grammar.firstFlow (g : Grammar) : Flow :=
  FourGL.firstFlow g.nonterminals.size (FirstSets.ofGrammar g).nullable g.productions.toList

/-- What a leader contributes from the start. -/
def ledSeed (p : NonterminalId × Symbol) : Option (Nat × Nat) :=
  match p.2 with
  | .terminal t => some (p.1, bit t)
  | .nonterminal _ => none

theorem ledSeed_add (levels : Levels) (p : NonterminalId × Symbol) :
    (match p.2 with
      | .terminal t => Levels.pour levels p.1 (bit t)
      | .nonterminal _ => levels) =
      match ledSeed p with
      | some (node, set) => Levels.pour levels node set
      | none => levels := by
  obtain ⟨left, x⟩ := p
  cases x <;> rfl

theorem size_firstFlow_seeds : g.firstFlow.seeds.size = g.nonterminals.size :=
  (Levels.size_foldl_pour ledSeed ledSeed_add (ledPairs g) _).trans Array.size_replicate

theorem level_replicate_zero (size n : Nat) :
    Levels.level (Array.replicate size 0) n = 0 := by
  simp only [Levels.level, Array.getD_eq_getD_getElem?, Array.getElem?_replicate]
  split <;> rfl

theorem testBit_firstFlow_seeds : (Levels.level g.firstFlow.seeds n).testBit t = true ↔
    n < g.nonterminals.size ∧ (n, .terminal t) ∈ ledPairs g := by
  refine (Levels.testBit_foldl_pour ledSeed ledSeed_add (ledPairs g) _).trans ?_
  rw [level_replicate_zero]
  simp only [Nat.zero_testBit, Bool.false_eq_true, false_or, Array.size_replicate]
  refine and_congr_right fun _ => ⟨?_, fun h => ?_⟩
  · rintro ⟨⟨left, x⟩, hmem, set, hseed, ht⟩
    cases x with
    | terminal t' =>
      obtain ⟨rfl, rfl⟩ := Prod.mk.inj (Option.some.inj hseed)
      rw [testBit_bit.mp ht]
      exact hmem
    | nonterminal m => cases hseed
  · exact ⟨_, h, bit t, rfl, testBit_bit.mpr rfl⟩

theorem mem_firstFlow_edges {m : NonterminalId} :
    (m, n) ∈ g.firstFlow.edges ↔ (n, .nonterminal m) ∈ ledPairs g := by
  simp only [Grammar.firstFlow, firstFlow, List.mem_toArray, List.mem_filterMap]
  constructor
  · rintro ⟨⟨left, x⟩, hmem, hx⟩
    cases x with
    | terminal t => cases hx
    | nonterminal m' =>
      obtain ⟨rfl, rfl⟩ := Prod.mk.inj (Option.some.inj hx)
      exact hmem
  · exact fun h => ⟨_, h, rfl⟩

theorem Grammar.WellFormed.fits_firstFlow (wf : g.WellFormed) :
    Flow.Fits g.firstFlow.seeds.size g.vocabulary.terminals.size g.firstFlow.seeds := by
  refine ⟨rfl, fun n t ht => ?_⟩
  obtain ⟨p, hp, -, hlead⟩ := mem_ledPairs.mp (testBit_firstFlow_seeds.mp ht).2
  obtain ⟨α, γ, hright, -⟩ := mem_leaders_iff.mp hlead
  exact (wf.right p hp (.terminal t) (by rw [hright]; simp)).2

/-- Symbols that can stand in right-hand sides yield something. -/
theorem Grammar.WellFormed.exists_yields (wf : g.WellFormed)
    (h : ∀ x ∈ β, x.Usable g.vocabulary g.nonterminals.size) : ∃ w k, g.Yields β w k := by
  refine yields_of_productive fun n hn => ?_
  obtain ⟨x, hx, hxn⟩ := List.mem_filterMap.mp hn
  cases x with
  | terminal t => cases hxn
  | nonterminal m =>
    cases hxn
    exact wf.productive _ (h _ hx).1 (h _ hx).2

/-- A word of a leader starts a word of the sequence. -/
theorem Grammar.WellFormed.yields_of_leader (wf : g.WellFormed) {x : Symbol}
    (hβ : ∀ x ∈ β, x.Usable g.vocabulary g.nonterminals.size)
    (hx : x ∈ leaders (FirstSets.ofGrammar g).nullable β) (hy : g.Yields [x] (t :: w) k) :
    ∃ u i, g.Yields β (t :: u) i := by
  obtain ⟨α, γ, rfl, hα⟩ := mem_leaders_iff.mp hx
  obtain ⟨i, hi⟩ := wf.isNullable_iff.mp (List.all_eq_true.mpr hα)
  obtain ⟨v, j, hv⟩ := wf.exists_yields (β := γ) fun y hy => hβ y (by simp [hy])
  exact ⟨_, _, hi.append (hy.append hv)⟩

theorem Grammar.WellFormed.yields_of_holds (wf : g.WellFormed)
    (h : g.firstFlow.Holds n t) : ∃ w k, g.Yields [.nonterminal n] (t :: w) k := by
  induction h with
  | seed hs =>
    obtain ⟨p, hp, rfl, hlead⟩ := mem_ledPairs.mp (testBit_firstFlow_seeds.mp hs).2
    obtain ⟨w, k, hw⟩ := wf.yields_of_leader (wf.right p hp) hlead (.terminal .nil)
    exact ⟨w, _, .of_production hp hw⟩
  | edge he _ _ ih =>
    obtain ⟨p, hp, rfl, hlead⟩ := mem_ledPairs.mp (mem_firstFlow_edges.mp he)
    obtain ⟨u, i, hu⟩ := ih
    obtain ⟨w, k, hw⟩ := wf.yields_of_leader (wf.right p hp) hlead hu
    exact ⟨w, _, .of_production hp hw⟩

/-- The first terminal of what a sequence yields is a leader of it, or in the first set of one. -/
theorem Grammar.WellFormed.leader_of_yields (wf : g.WellFormed) (h : g.Yields β w k) :
    ∀ t u, w = t :: u → ∃ x ∈ leaders (FirstSets.ofGrammar g).nullable β,
      x = .terminal t ∨ ∃ m, x = .nonterminal m ∧ g.firstFlow.Holds m t := by
  induction h with
  | nil => simp
  | terminal _ _ =>
    rintro t u ⟨⟩
    exact ⟨_, List.mem_cons_self, Or.inl rfl⟩
  | @nonterminal p l β x w _ _ hp hl hx _ ihx ihβ =>
    intro t u heq
    cases x with
    | nil =>
      -- The first nonterminal yields nothing, so it does not hide the leaders after it.
      obtain ⟨y, hy, hcase⟩ := ihβ t u heq
      refine ⟨y, ?_, hcase⟩
      have hnull : (Symbol.nonterminal l).isNullable (FirstSets.ofGrammar g).nullable = true :=
        wf.nullable_has_iff.mpr ⟨_, by rw [← hl]; exact .of_production hp hx⟩
      rw [leaders, if_pos hnull]
      exact List.mem_cons_of_mem _ hy
    | cons t' x =>
      obtain ⟨rfl, -⟩ := List.cons.inj heq
      refine ⟨_, List.mem_cons_self, Or.inr ⟨l, rfl, ?_⟩⟩
      have hlt : l < g.firstFlow.seeds.size := by
        rw [size_firstFlow_seeds, ← hl]
        exact wf.left p hp
      obtain ⟨y, hy, rfl | ⟨m, rfl, hm⟩⟩ := ihx t' x rfl
      · refine .seed (testBit_firstFlow_seeds.mpr ⟨by rwa [size_firstFlow_seeds] at hlt, ?_⟩)
        exact mem_ledPairs.mpr ⟨p, hp, hl, hy⟩
      · exact .edge (mem_firstFlow_edges.mpr (mem_ledPairs.mpr ⟨p, hp, hl, hy⟩)) hlt hm

theorem Grammar.WellFormed.testBit_ofSymbol_iff (wf : g.WellFormed) {x : Symbol} :
    ((FirstSets.ofGrammar g).ofSymbol x).testBit t = true ↔
      x = .terminal t ∨ ∃ m, x = .nonterminal m ∧ g.firstFlow.Holds m t := by
  cases x with
  | terminal t' =>
    rw [FirstSets.ofSymbol, testBit_bit]
    exact ⟨fun h => Or.inl (h ▸ rfl), fun h => by rcases h with h | ⟨m, h, -⟩ <;> cases h; rfl⟩
  | nonterminal m =>
    have : ((FirstSets.ofGrammar g).ofSymbol (.nonterminal m)) =
        (g.firstFlow.solve g.vocabulary.terminals.size).level m := rfl
    rw [this, Flow.mem_solve_iff wf.fits_firstFlow]
    simp

/-- A bit that each step keeps, or sets for some elements, ends up set if it was or if one of them
came. -/
theorem testBit_foldl {α : Type} {add : Nat → α → Nat} {Sets : α → Prop}
    (hadd : ∀ set a, (add set a).testBit t = true ↔ set.testBit t = true ∨ Sets a) (as : List α)
    (set : Nat) :
    (as.foldl add set).testBit t = true ↔ set.testBit t = true ∨ ∃ a ∈ as, Sets a := by
  induction as generalizing set with
  | nil => simp
  | cons a as ih => simp [ih, hadd, or_assoc]

/-- **First sets.** -/
theorem Grammar.WellFormed.testBit_ofSequence_iff (wf : g.WellFormed)
    (hβ : ∀ x ∈ β, x.Usable g.vocabulary g.nonterminals.size) :
    ((FirstSets.ofGrammar g).ofSequence β).testBit t = true ↔ ∃ w k, g.Yields β (t :: w) k := by
  rw [FirstSets.ofSequence, testBit_foldl fun set x => by rw [Nat.testBit_or, Bool.or_eq_true]]
  simp only [Nat.zero_testBit, Bool.false_eq_true, false_or, wf.testBit_ofSymbol_iff]
  constructor
  · rintro ⟨x, hx, rfl | ⟨m, rfl, hm⟩⟩
    · exact wf.yields_of_leader hβ hx (.terminal .nil)
    · obtain ⟨w, k, hw⟩ := wf.yields_of_holds hm
      exact wf.yields_of_leader hβ hx hw
  · rintro ⟨w, k, hw⟩
    exact wf.leader_of_yields hw t w rfl

end First

end FourGL
