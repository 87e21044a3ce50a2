import FourGL.Proofs.Grammar.WellFormed
import Mathlib.Data.Finset.Card
import Mathlib.Data.Finset.Lattice.Fold

/-!
# Grammars without cycles

A nonterminal that can be rewritten to itself alone has derivations of one text that grow without
bound. This is the only way in which derivations from one symbol can do so.

**Theorem (`exists_bound_of_symbol`).** Without such a nonterminal, the derivations of short texts
from single symbols have a greatest length.

The proof ranks nonterminals by the number of those that they can be rewritten to. A production
splits its text among its symbols, or leaves it to one symbol of lower rank.
-/

namespace FourGL

/-! ## Ranks -/

section Rank

variable {r : Nat → Nat → Prop} {size a b : Nat}

open Classical in
/-- The number of those below `size` that are related to a number. -/
noncomputable def rankOf (r : Nat → Nat → Prop) (size a : Nat) : Nat :=
  ((Finset.range size).filter (r a)).card

theorem rankOf_le_size : rankOf r size a ≤ size := by
  classical
  refine (Finset.card_filter_le _ _).trans ?_
  rw [Finset.card_range]

theorem rankOf_le (h : ∀ c, r b c → r a c) : rankOf r size b ≤ rankOf r size a := by
  classical
  exact Finset.card_le_card (Finset.monotone_filter_right _ fun c _ => h c)

/-- Along a transitive relation that relates nothing to itself, ranks decrease. -/
theorem rankOf_lt (htrans : ∀ c, r b c → r a c) (hirrefl : ¬ r b b) (hab : r a b) (hb : b < size) :
    rankOf r size b < rankOf r size a := by
  classical
  refine Finset.card_lt_card (Finset.ssubset_iff_subset_ne.mpr ⟨?_, fun heq => ?_⟩)
  · exact Finset.monotone_filter_right _ fun c _ => htrans c
  · have hmem : b ∈ (Finset.range size).filter (r a) :=
      Finset.mem_filter.mpr ⟨Finset.mem_range.mpr hb, hab⟩
    rw [← heq] at hmem
    exact hirrefl (Finset.mem_filter.mp hmem).2

end Rank

namespace Grammar

variable {g : Grammar} {m n k : NonterminalId} {p : ProductionId} {α β γ δ : List Symbol}
  {w : List TerminalId}

/-! ## Cycles -/

/-- Some nonterminal can be rewritten to itself alone. -/
def IsCyclic (g : Grammar) : Prop :=
  ∃ n, Relation.TransGen g.Produces [.nonterminal n] [.nonterminal n]

/-- The symbols can be rewritten to nothing. -/
def Vanishes (g : Grammar) (β : List Symbol) : Prop := Relation.ReflTransGen g.Produces β []

/-- The nonterminal can be rewritten to another one alone. -/
def RewritesTo (g : Grammar) (n m : NonterminalId) : Prop :=
  Relation.TransGen g.Produces [.nonterminal n] [.nonterminal m]

theorem vanishes_of_yields {i : Nat} (h : g.Yields β [] i) : g.Vanishes β := rewrites_of_yields h

theorem produces_production (hp : p < g.productions.size) :
    g.Produces [.nonterminal (g.production p).left] (g.production p).right :=
  ⟨[], [], p, hp, rfl, by simp⟩

/-- What stands between symbols that vanish is left alone. -/
theorem rewritesTo_of_production (hp : p < g.productions.size) (hl : (g.production p).left = n)
    (hr : (g.production p).right = α ++ .nonterminal m :: δ) (hα : g.Vanishes α)
    (hδ : g.Vanishes δ) : g.RewritesTo n m := by
  have hfirst := produces_production hp
  rw [hl, hr] at hfirst
  have hleft := rewrites_append (γ := []) (δ := .nonterminal m :: δ) hα
  have hright := rewrites_append (γ := [.nonterminal m]) (δ := []) hδ
  simp only [List.nil_append, List.append_nil, List.singleton_append] at hleft hright
  exact .head' hfirst (hleft.trans hright)

/-! ## Bounds -/

/-- A derivation is not longer than its symbols allow, where each of them has part of the text. -/
theorem Yields.le_of_parts {i bound : Nat} (h : g.Yields β w i)
    (hparts : ∀ α x δ u v z j, β = α ++ x :: δ → w = u ++ (v ++ z) →
      (∃ k, g.Yields α u k) → g.Yields [x] v j → (∃ k, g.Yields δ z k) → j ≤ bound) :
    i ≤ β.length * bound := by
  induction β generalizing w i with
  | nil =>
    obtain ⟨-, rfl⟩ := h.eq_nil
    exact Nat.zero_le _
  | cons x β ih =>
    obtain ⟨v, z, j, k, rfl, rfl, hv, hz⟩ := h.split_cons
    have hhead := hparts [] x β [] v z j rfl rfl ⟨0, .nil⟩ hv ⟨k, hz⟩
    have htail := ih hz fun α y δ u v' z' j' hβ hw ⟨k', hα⟩ hy hδ =>
      hparts (x :: α) y δ (v ++ u) v' z' j' (by rw [hβ]; rfl) (by rw [hw, List.append_assoc])
        ⟨j + k', hv.append hα⟩ hy hδ
    rw [List.length_cons, Nat.succ_mul]
    omega

theorem exists_right_bound (g : Grammar) :
    ∃ bound, ∀ p < g.productions.size, (g.production p).right.length ≤ bound :=
  ⟨(Finset.range g.productions.size).sup fun p => (g.production p).right.length, fun _ hp =>
    Finset.le_sup (f := fun p => (g.production p).right.length) (Finset.mem_range.mpr hp)⟩

/-- Nonterminals of higher rank have bounded derivations if those of lower rank have, and all symbols
for shorter texts. -/
theorem WellFormed.exists_bound_of_rank (wf : g.WellFormed) (hacyclic : ¬ g.IsCyclic) {len : Nat}
    {small : Nat} (hsmall : ∀ x w i, w.length < len → g.Yields [x] w i → i ≤ small) (rank : Nat) :
    ∃ bound, ∀ n, rankOf g.RewritesTo g.nonterminals.size n < rank →
      ∀ w i, w.length ≤ len → g.Yields [.nonterminal n] w i → i ≤ bound := by
  obtain ⟨width, hwidth⟩ := g.exists_right_bound
  induction rank with
  | zero => exact ⟨0, fun n hn => absurd hn (Nat.not_lt_zero _)⟩
  | succ rank ih =>
    obtain ⟨lower, hlower⟩ := ih
    refine ⟨width * max 1 (max small lower) + 1, fun n hn w i hw hy => ?_⟩
    cases hy with
    | @nonterminal p _ _ u _ j _ hp hl hr hnil =>
      obtain ⟨rfl, rfl⟩ := hnil.eq_nil
      rw [List.append_nil] at hw
      suffices hparts : j ≤ (g.production p).right.length * max 1 (max small lower) by
        have := Nat.mul_le_mul_right (max 1 (max small lower)) (hwidth p hp)
        omega
      refine hr.le_of_parts ?_
      rintro α x δ u' v z j' hβ rfl ⟨_, hα⟩ hv ⟨_, hδ⟩
      by_cases hlt : v.length < len
      · have := hsmall x v j' hlt hv
        omega
      · simp only [List.length_append] at hw
        obtain rfl : u' = [] := List.length_eq_zero_iff.mp (by omega)
        obtain rfl : z = [] := List.length_eq_zero_iff.mp (by omega)
        cases x with
        | terminal t =>
          cases hv with
          | terminal hv =>
            obtain ⟨-, rfl⟩ := hv.eq_nil
            omega
        | nonterminal m =>
          have hm := (wf.right p hp (.nonterminal m) (by rw [hβ]; simp)).2
          have hto : g.RewritesTo n m := rewritesTo_of_production hp hl hβ
            (vanishes_of_yields hα) (vanishes_of_yields hδ)
          have hrank : rankOf g.RewritesTo g.nonterminals.size m <
              rankOf g.RewritesTo g.nonterminals.size n :=
            rankOf_lt (fun _ hc => hto.trans hc) (fun hmm => hacyclic ⟨m, hmm⟩) hto hm
          have := hlower m (by omega) v j' (by omega) hv
          omega

/-- **Derivations from one symbol are bounded** for short texts, if there are no cycles. -/
theorem WellFormed.exists_bound_of_symbol (wf : g.WellFormed) (hacyclic : ¬ g.IsCyclic)
    (len : Nat) : ∃ bound, ∀ x w i, w.length < len → g.Yields [x] w i → i ≤ bound := by
  induction len with
  | zero => exact ⟨0, fun x w i hw => absurd hw (Nat.not_lt_zero _)⟩
  | succ len ih =>
    obtain ⟨small, hsmall⟩ := ih
    obtain ⟨bound, hbound⟩ := wf.exists_bound_of_rank hacyclic hsmall (g.nonterminals.size + 1)
    refine ⟨max 1 bound, fun x w i hw hy => ?_⟩
    cases x with
    | terminal t =>
      cases hy with
      | terminal hy =>
        obtain ⟨-, rfl⟩ := hy.eq_nil
        exact Nat.le_max_left _ _
    | nonterminal n =>
      exact (hbound n (Nat.lt_succ_of_le rankOf_le_size) w i (Nat.le_of_lt_succ hw) hy).trans
        (Nat.le_max_right _ _)

end Grammar

end FourGL
