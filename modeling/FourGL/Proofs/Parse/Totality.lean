import FourGL.Proofs.Grammar.Cycles
import FourGL.Proofs.Parse.Halting
import Mathlib.Tactic.Ring

/-!
# Which runs end

Two things in a grammar can keep a parser from coming to an end: cycles, and nonterminals that derive
themselves behind symbols that vanish.

**Theorem (`halts_of_acyclic`).** For a grammar that has neither, every run ends, whatever conflicts
were resolved, and whatever the text and the limits.

Such a grammar is bounded. A path to a state is divided by the productions that are begun along it.
Each part that reads something takes up text; a part that vanishes leads to a nonterminal of lower
rank.
-/

namespace FourGL

namespace Grammar

variable {g : Grammar} {m n : NonterminalId} {p : ProductionId} {β δ : List Symbol}
  {w : List TerminalId}

/-! ## Hidden left recursion -/

/-- The nonterminal can be rewritten to the other one behind symbols that vanish. -/
def LeadsTo (g : Grammar) (n m : NonterminalId) : Prop :=
  ∃ β δ, g.Vanishes β ∧ Relation.ReflTransGen g.Produces [.nonterminal n] (β ++ .nonterminal m :: δ)

/-- The nonterminal can be rewritten to the other one behind some symbols that vanish, at least one.
-/
def Hides (g : Grammar) (n m : NonterminalId) : Prop :=
  ∃ β δ, β ≠ [] ∧ g.Vanishes β ∧
    Relation.TransGen g.Produces [.nonterminal n] (β ++ .nonterminal m :: δ)

/-- Some nonterminal can be rewritten to itself behind symbols that vanish. -/
def IsHiddenLeftRecursive (g : Grammar) : Prop := ∃ n, g.Hides n n

theorem Hides.leadsTo (h : g.Hides n m) : g.LeadsTo n m := by
  obtain ⟨β, δ, -, hβ, hrewrites⟩ := h
  exact ⟨β, δ, hβ, hrewrites.to_reflTransGen⟩

theorem Vanishes.append (hβ : g.Vanishes β) (hδ : g.Vanishes δ) : g.Vanishes (β ++ δ) := by
  have hleft := rewrites_append (γ := []) (δ := δ) hβ
  simp only [List.nil_append] at hleft
  exact hleft.trans hδ

theorem LeadsTo.hides {k : NonterminalId} (h : g.LeadsTo n m) (h' : g.Hides m k) :
    g.Hides n k := by
  obtain ⟨β, δ, hβ, hrewrites⟩ := h
  obtain ⟨β', δ', hne, hβ', hrewrites'⟩ := h'
  refine ⟨β ++ β', δ' ++ δ, by simp [hne], hβ.append hβ', ?_⟩
  have hlast : Relation.TransGen g.Produces (β ++ [.nonterminal m] ++ δ)
      (β ++ (β' ++ .nonterminal k :: δ') ++ δ) :=
    Relation.TransGen.lift (fun γ => β ++ γ ++ δ)
      (fun _ _ (hab : g.Produces _ _) => hab.append β δ) _ _ hrewrites'
  simp only [List.append_assoc, List.cons_append, List.nil_append] at hlast ⊢
  exact .trans_right hrewrites hlast

/-- The rank of a nonterminal among those that it hides. -/
noncomputable def hidingRank (g : Grammar) (n : NonterminalId) : Nat :=
  rankOf g.Hides g.nonterminals.size n

theorem LeadsTo.hidingRank_le (h : g.LeadsTo n m) : g.hidingRank m ≤ g.hidingRank n :=
  rankOf_le fun _ => h.hides

theorem Hides.hidingRank_lt (h : g.Hides n m) (hhidden : ¬ g.IsHiddenLeftRecursive)
    (hm : m < g.nonterminals.size) : g.hidingRank m < g.hidingRank n :=
  rankOf_lt (fun _ => h.leadsTo.hides) (fun hmm => hhidden ⟨m, hmm⟩) h hm

theorem hidingRank_le_size : g.hidingRank n ≤ g.nonterminals.size := rankOf_le_size

/-! ## The length of paths -/

variable {s : StateId} {σ : List StateId} {γ : List Symbol} {i : Item} {t : TerminalId}

/-- How long a path can be before a production of the nonterminal is begun, where it has read some
terminals. -/
noncomputable def pathAllowance (g : Grammar) (width read : Nat) (n : NonterminalId) : Nat :=
  width * (read * (g.nonterminals.size + 1) + (g.nonterminals.size - g.hidingRank n))

/-- A part that vanishes leads to a nonterminal of lower rank. -/
theorem pathAllowance_vanishing (hhidden : ¬ g.IsHiddenLeftRecursive) {width : Nat}
    (hp : p < g.productions.size) (hr : (g.production p).right = β ++ .nonterminal m :: δ)
    (hβ : g.Vanishes β) (hm : m < g.nonterminals.size) (hwidth : β.length ≤ width) (read : Nat) :
    g.pathAllowance width read (g.production p).left + β.length ≤ g.pathAllowance width read m := by
  have hfirst := produces_production hp
  rw [hr] at hfirst
  have hsize := g.hidingRank_le_size (n := (g.production p).left)
  rw [pathAllowance, pathAllowance]
  by_cases hne : β = []
  · subst hne
    have hle := LeadsTo.hidingRank_le ⟨[], δ, hβ, .single hfirst⟩
    exact Nat.mul_le_mul_left width (by omega)
  · have hlt := Hides.hidingRank_lt ⟨β, δ, hne, hβ, .single hfirst⟩ hhidden hm
    calc _ ≤ width * (read * (g.nonterminals.size + 1) +
            (g.nonterminals.size - g.hidingRank (g.production p).left)) + width * 1 := by omega
      _ = width * (read * (g.nonterminals.size + 1) +
            (g.nonterminals.size - g.hidingRank (g.production p).left) + 1) := by ring
      _ ≤ _ := Nat.mul_le_mul_left width (by omega)

/-- A part that reads something takes up text. -/
theorem pathAllowance_reading {width read read' len : Nat} (hread : read < read')
    (hlen : len ≤ width) : g.pathAllowance width read n + len ≤ g.pathAllowance width read' m := by
  have hrank := g.hidingRank_le_size (n := m)
  have hmore : read * (g.nonterminals.size + 1) + (g.nonterminals.size + 1) ≤
      read' * (g.nonterminals.size + 1) := by
    rw [← Nat.succ_mul]
    exact Nat.mul_le_mul_right _ hread
  rw [pathAllowance, pathAllowance]
  calc _ ≤ width * (read * (g.nonterminals.size + 1) +
          (g.nonterminals.size - g.hidingRank n)) + width * 1 := by omega
    _ = width * (read * (g.nonterminals.size + 1) +
          (g.nonterminals.size - g.hidingRank n) + 1) := by ring
    _ ≤ _ := Nat.mul_le_mul_left width (by omega)

/-- Before the production of a valid item was begun, the path was not longer than what it has read
allows. -/
theorem Valid.length_le (h : g.Valid σ γ i t) (wf : g.WellFormed) (hnarrow : g.Narrow)
    (hhidden : ¬ g.IsHiddenLeftRecursive) :
    ∃ before, γ.reverse = before ++ (g.production i.production).right.take i.dot ∧
      ∀ u k, g.Yields before u k →
        before.length ≤ g.pathAllowance maxIndex u.length (g.production i.production).left := by
  induction h with
  | start => exact ⟨[], rfl, fun _ _ _ => Nat.zero_le _⟩
  | @advance s s' σ γ i t x hvalid hx hgoto ih =>
    obtain ⟨before, hγ, hlength⟩ := ih
    refine ⟨before, ?_, hlength⟩
    have htake : (g.production i.production).right.take (i.dot + 1) =
        (g.production i.production).right.take i.dot ++ [x] := by
      rw [List.take_add_one]
      have hget : (g.production i.production).right[i.dot]? = some x := by
        rw [← List.head?_drop]
        exact hx
      rw [hget]
      rfl
    rw [Item.advance_of_lt (hnarrow.dot_lt (hvalid.proper wf) hx)]
    show (x :: γ).reverse = before ++ (g.production i.production).right.take (i.dot + 1)
    rw [List.reverse_cons, hγ, htake, List.append_assoc]
  | @close σ γ i t m δ p v k hvalid hrest hp hl hδ ih =>
    obtain ⟨before, hγ, hlength⟩ := ih
    refine ⟨γ.reverse, by simp [Item.initial], fun u j hu => ?_⟩
    have hproper := hvalid.proper wf
    have hright : (g.production i.production).right =
        (g.production i.production).right.take i.dot ++ .nonterminal m :: δ := by
      rw [← hrest]
      exact (List.take_append_drop _ _).symm
    have hpart : ((g.production i.production).right.take i.dot).length ≤ maxIndex := by
      rw [List.length_take]
      exact (Nat.min_le_right _ _).trans (hnarrow _ hproper.1)
    show γ.reverse.length ≤ g.pathAllowance maxIndex u.length (g.production p).left
    rw [hγ] at hu ⊢
    obtain ⟨u, v', j, l, rfl, rfl, hu, hv'⟩ := hu.split
    have hbefore := hlength u j hu
    rw [List.length_append, hl]
    by_cases hv : v' = []
    · subst hv
      have hm := (wf.usable_of_next hproper (nextSymbol?_of_rest hrest)).2
      have hstep := pathAllowance_vanishing hhidden hproper.1 hright (vanishes_of_yields hv') hm
        hpart u.length
      rw [List.append_nil]
      omega
    · have hread : u.length < (u ++ v').length := by
        rw [List.length_append]
        have := List.length_pos_iff.mpr hv
        omega
      have hstep := pathAllowance_reading (g := g) (n := (g.production i.production).left) (m := m)
        hread hpart
      omega

/-- **Boundedness.** Without cycles and hidden left recursion, derivations on paths are bounded. -/
theorem WellFormed.bounded_of_acyclic (wf : g.WellFormed) (hnarrow : g.Narrow)
    (hacyclic : ¬ g.IsCyclic) (hhidden : ¬ g.IsHiddenLeftRecursive) : g.Bounded := by
  intro w
  obtain ⟨bound, hbound⟩ := wf.exists_bound_of_symbol hacyclic (w.length + 1)
  refine ⟨(maxIndex * (w.length * (g.nonterminals.size + 1) + g.nonterminals.size) + maxIndex) * bound,
    fun σ n ⟨γ, hpath, hy⟩ => ?_⟩
  obtain ⟨i, t, v, k, hvalid, -⟩ := wf.exists_valid_of_path hpath
  obtain ⟨before, hγ, hlength⟩ := hvalid.length_le wf hnarrow hhidden
  have hparts : n ≤ γ.reverse.length * bound := by
    refine hy.le_of_parts fun α x δ u v z j _ hw _ hx _ => hbound x v j ?_ hx
    rw [hw]
    simp only [List.length_append]
    omega
  have hlen : γ.reverse.length ≤
      maxIndex * (w.length * (g.nonterminals.size + 1) + g.nonterminals.size) + maxIndex := by
    rw [hγ] at hy ⊢
    obtain ⟨u, v', j, l, rfl, -, hu, -⟩ := hy.split
    have hbefore := hlength u j hu
    have hpart : ((g.production i.production).right.take i.dot).length ≤ maxIndex := by
      rw [List.length_take]
      exact (Nat.min_le_right _ _).trans (hnarrow _ (hvalid.proper wf).1)
    have hread : u.length * (g.nonterminals.size + 1) ≤
        (u ++ v').length * (g.nonterminals.size + 1) :=
      Nat.mul_le_mul_right _ (by simp)
    have hall : g.pathAllowance maxIndex u.length (g.production i.production).left ≤
        maxIndex * ((u ++ v').length * (g.nonterminals.size + 1) + g.nonterminals.size) :=
      Nat.mul_le_mul_left maxIndex (by omega)
    rw [List.length_append]
    omega
  exact hparts.trans (Nat.mul_le_mul_right _ hlen)

end Grammar

/-! ## Descending grammars -/

namespace Grammar

variable {g : Grammar} {n : NonterminalId} {α : List Symbol}

/-- The nonterminals in a right-hand side come after the left-hand side. -/
def IsDescending (g : Grammar) : Prop :=
  ∀ r ∈ g.productions.toList, ∀ m ∈ r.nonterminals, r.left < m

instance : Decidable g.IsDescending :=
  inferInstanceAs (Decidable (∀ r ∈ g.productions.toList, ∀ m ∈ r.nonterminals, r.left < m))

theorem IsDescending.lt_of_mem (h : g.IsDescending) {p : ProductionId} {m : NonterminalId}
    (hp : p < g.productions.size) (hm : .nonterminal m ∈ (g.production p).right) :
    (g.production p).left < m := by
  refine h _ ?_ m (List.mem_filterMap.mpr ⟨_, hm, rfl⟩)
  rw [production_eq_getElem hp, Array.mem_toList_iff]
  exact Array.getElem_mem hp

theorem IsDescending.lt_of_rewrites (h : g.IsDescending)
    (hrewrites : Relation.TransGen g.Produces [.nonterminal n] α) :
    ∀ m, .nonterminal m ∈ α → n < m := by
  induction hrewrites with
  | single hstep =>
    obtain ⟨before, after, p, hp, hsingle, rfl⟩ := hstep
    intro m hm
    cases before with
    | nil =>
      obtain ⟨heq, rfl⟩ := List.cons.inj hsingle
      cases heq
      exact h.lt_of_mem hp (by simpa using hm)
    | cons y before => simp at hsingle
  | tail _ hstep ih =>
    obtain ⟨before, after, p, hp, rfl, rfl⟩ := hstep
    intro m hm
    have hleft := ih (g.production p).left (by simp)
    rcases List.mem_append.mp hm with hm | hm
    · rcases List.mem_append.mp hm with hm | hm
      · exact ih m (by simp [hm])
      · exact hleft.trans (h.lt_of_mem hp hm)
    · exact ih m (by simp [hm])

theorem IsDescending.not_isCyclic (h : g.IsDescending) : ¬ g.IsCyclic := by
  rintro ⟨n, hn⟩
  exact Nat.lt_irrefl n (h.lt_of_rewrites hn n (by simp))

theorem IsDescending.not_isHiddenLeftRecursive (h : g.IsDescending) :
    ¬ g.IsHiddenLeftRecursive := by
  rintro ⟨n, β, δ, -, -, hn⟩
  exact Nat.lt_irrefl n (h.lt_of_rewrites hn n (by simp))

end Grammar

/-! ## Totality -/

/-- **Totality without cycles.** If no right-hand side is longer than positions reach, and no nonterminal
derives itself alone, or itself behind symbols that vanish, every text has a parse, whatever conflicts
were resolved and whatever the limits. -/
theorem halts_of_acyclic {g : Grammar} (hg : g.IsBuilt) (hnarrow : g.Narrow)
    (hacyclic : ¬ g.IsCyclic) (hhidden : ¬ g.IsHiddenLeftRecursive) (limits : Limits)
    (source : String) :
    ∃ n parse, (Language.ofGrammar g).parseWithin n limits source = some parse := by
  have wf := Grammar.wellFormed_of_isBuilt hg
  obtain ⟨n, m, ending, hrun⟩ :=
    (wf.bounded_of_acyclic hnarrow hacyclic hhidden).halts wf limits source
  exact ⟨n, _, Option.map_eq_some_iff.mpr ⟨_, hrun, rfl⟩⟩

theorem halts_of_acyclic_plus : ∃ g : Grammar,
    (g.IsBuilt ∧ g.Narrow ∧ ¬ g.IsCyclic ∧ ¬ g.IsHiddenLeftRecursive) ∧ ∀ limits source,
      ∃ n parse, (Language.ofGrammar g).parseWithin n limits source = some parse := by
  have hshort : ((Declarations.ofSteps "signs" plusSteps).build.toOption.any fun g =>
      decide g.IsDescending && decide g.Narrow) = true := by cbv
  cases hg : (Declarations.ofSteps "signs" plusSteps).build with
  | error e =>
    rw [hg] at hshort
    cases hshort
  | ok g =>
    rw [hg] at hshort
    obtain ⟨hdescending, hnarrow⟩ := Bool.and_eq_true_iff.mp hshort
    have h : g.IsDescending := of_decide_eq_true hdescending
    have hshort : g.Narrow := of_decide_eq_true hnarrow
    have hbuilt : g.IsBuilt := ⟨"signs", plusSteps, hg⟩
    exact ⟨g, ⟨hbuilt, hshort, h.not_isCyclic, h.not_isHiddenLeftRecursive⟩,
      halts_of_acyclic hbuilt hshort h.not_isCyclic h.not_isHiddenLeftRecursive⟩

end FourGL
