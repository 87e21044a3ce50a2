import FourGL.Parse.Machine
import FourGL.Proofs.Grammar.Derivation
import FourGL.Proofs.Grammar.WellFormed

/-!
# Derivation trees

What a parser reads is a derivation tree: its leaves are tokens, given by position, and its inner
nodes are productions, each with the position at which it was reduced. That position matters only
to a node that covers no text, which is placed there.

**Theorem (`Reads.leaves_sublist`).** The leaves of trees read one after the other are positions in
increasing order.

**Theorem (`Reads.yields`).** The terminals at the leaves are what the symbols of the trees yield.
-/

namespace FourGL

/-- A derivation tree. -/
inductive DerivationTree where
  /-- The token at a position. -/
  | leaf (position : Nat)
  /-- A production, reduced at a position. -/
  | node (p : ProductionId) (position : Nat) (children : List DerivationTree)

namespace DerivationTree

/-- The symbol that the tree derives from. -/
def symbol (g : Grammar) (input : Input) : DerivationTree → Symbol
  | .leaf position => .terminal (input.terminal position)
  | .node p _ _ => .nonterminal (g.production p).left

mutual

/-- The positions of the tokens of a tree, from left to right. -/
def leaves : DerivationTree → List Nat
  | .leaf position => [position]
  | .node _ _ children => leavesOfAll children

/-- The positions of the tokens of several trees. -/
def leavesOfAll : List DerivationTree → List Nat
  | [] => []
  | d :: ds => d.leaves ++ leavesOfAll ds

end

mutual

/-- What becomes of a tree by the actions of its productions. -/
def image (g : Grammar) (input : Input) : DerivationTree → Tree
  | .leaf position => .token (input.stream.getD position 0)
  | .node p position children =>
    (g.production p).action.run input position (imageOfAll g input children)

/-- What becomes of several trees. -/
def imageOfAll (g : Grammar) (input : Input) : List DerivationTree → List Tree
  | [] => []
  | d :: ds => d.image g input :: imageOfAll g input ds

end

variable {g : Grammar} {input : Input} {ds es : List DerivationTree} {start middle stop : Nat}

theorem leavesOfAll_append : leavesOfAll (ds ++ es) = leavesOfAll ds ++ leavesOfAll es := by
  induction ds with
  | nil => rfl
  | cons d ds ih => rw [List.cons_append, leavesOfAll, ih, leavesOfAll, List.append_assoc]

theorem leavesOfAll_singleton {d : DerivationTree} : leavesOfAll [d] = d.leaves := by
  rw [leavesOfAll, leavesOfAll, List.append_nil]

theorem imageOfAll_eq_map : imageOfAll g input ds = ds.map (image g input) := by
  induction ds with
  | nil => rfl
  | cons d ds ih => rw [imageOfAll, ih, List.map_cons]

/-- The trees derive by productions of the grammar, and their tokens and reductions follow each
other from the first position to the last. Tokens in between may be left out. -/
inductive Reads (g : Grammar) (input : Input) : Nat → List DerivationTree → Nat → Prop
  | nil {start : Nat} : Reads g input start [] start
  | leaf {start position stop : Nat} {ds : List DerivationTree} : start ≤ position →
      position < input.size → Reads g input (position + 1) ds stop →
      Reads g input start (.leaf position :: ds) stop
  | node {start middle position stop : Nat} {p : ProductionId} {children ds : List DerivationTree} :
      p < g.productions.size → children.map (symbol g input) = (g.production p).right →
      Reads g input start children middle → middle ≤ position → Reads g input position ds stop →
      Reads g input start (.node p position children :: ds) stop

namespace Reads

theorem append (h : Reads g input start ds middle) (h' : Reads g input middle es stop) :
    Reads g input start (ds ++ es) stop := by
  induction h with
  | nil => exact h'
  | leaf hle hlt _ ih => exact .leaf hle hlt (ih h')
  | node hp hr hchildren hle _ _ ih => exact .node hp hr hchildren hle (ih h')

theorem le (h : Reads g input start ds stop) : start ≤ stop := by
  induction h with
  | nil => exact Nat.le_refl _
  | leaf => omega
  | node => omega

theorem range'_split {a b c : Nat} (hab : a ≤ b) (hbc : b ≤ c) :
    List.range' a (c - a) = List.range' a (b - a) ++ List.range' b (c - b) := by
  obtain ⟨m, rfl⟩ := Nat.exists_eq_add_of_le hab
  obtain ⟨n, rfl⟩ := Nat.exists_eq_add_of_le hbc
  rw [Nat.add_sub_cancel_left, Nat.add_sub_cancel_left, List.range'_append_1, Nat.add_assoc,
    Nat.add_sub_cancel_left]

/-- **The leaves are increasing positions.** -/
theorem leaves_sublist (h : Reads g input start ds stop) :
    (leavesOfAll ds).Sublist (List.range' start (stop - start)) := by
  induction h with
  | nil => exact List.nil_sublist _
  | @leaf start position stop ds hle _ hrest ih =>
    have hstop := hrest.le
    rw [range'_split hle (by omega), show stop - position = stop - (position + 1) + 1 by omega,
      List.range'_succ]
    exact (ih.cons_cons position).trans (List.sublist_append_right _ _)
  | node _ _ hchildren hle hrest ihc ih =>
    rw [range'_split hchildren.le (hle.trans hrest.le), range'_split hle hrest.le]
    exact ihc.append (ih.trans (List.sublist_append_right _ _))

/-- **The terminals at the leaves** are a text of the symbols. -/
theorem yields (h : Reads g input start ds stop) :
    ∃ n, g.Yields (ds.map (symbol g input)) ((leavesOfAll ds).map input.terminal) n := by
  induction h with
  | nil => exact ⟨0, .nil⟩
  | leaf _ _ _ ih =>
    obtain ⟨n, hn⟩ := ih
    exact ⟨_, .terminal hn⟩
  | node hp hr _ _ _ ihc ih =>
    obtain ⟨m, hm⟩ := ihc
    obtain ⟨n, hn⟩ := ih
    rw [hr] at hm
    refine ⟨m + n + 1, ?_⟩
    rw [leavesOfAll, List.map_append]
    exact .nonterminal hp rfl hm hn

end Reads

end DerivationTree

end FourGL
