import FourGL.Grammar.Basic
import Mathlib.Logic.Relation

/-!
# Derivations

A *sentence* of a grammar is a sequence of terminals that the root can be rewritten to, one
nonterminal at a time.

Proofs about parsers need derivations in the order in which a parser finds them, with a count of its
steps. `Yields` is that form: a sequence of symbols yields a word in a number of steps, one for each
terminal and one for each production applied.

**Theorem (`sentence_iff_yields`).** The sentences are what the root yields.
-/

namespace FourGL

namespace Grammar

variable {g : Grammar} {α β : List Symbol} {u v w : List TerminalId} {m n : Nat}

/-! ## Sentences -/

/-- One nonterminal of a sequence is replaced by the right-hand side of one of its productions. -/
def Produces (g : Grammar) (α β : List Symbol) : Prop :=
  ∃ before after p, p < g.productions.size ∧
    α = before ++ .nonterminal (g.production p).left :: after ∧
    β = before ++ (g.production p).right ++ after

/-- What the root can be rewritten to. -/
def Sentence (g : Grammar) (w : List TerminalId) : Prop :=
  Relation.ReflTransGen g.Produces [.nonterminal g.root] (w.map .terminal)

/-! ## Counted derivations -/

/-- The symbols yield the word in a number of steps. -/
inductive Yields (g : Grammar) : List Symbol → List TerminalId → Nat → Prop
  | nil : Yields g [] [] 0
  | terminal {t : TerminalId} {β : List Symbol} {w : List TerminalId} {n : Nat} :
      Yields g β w n → Yields g (.terminal t :: β) (t :: w) (n + 1)
  | nonterminal {p : ProductionId} {l : NonterminalId} {β : List Symbol} {u w : List TerminalId}
      {m n : Nat} : p < g.productions.size → (g.production p).left = l →
      Yields g (g.production p).right u m → Yields g β w n →
      Yields g (.nonterminal l :: β) (u ++ w) (m + n + 1)

namespace Yields

theorem eq_nil (h : g.Yields [] w n) : w = [] ∧ n = 0 := by
  cases h
  exact ⟨rfl, rfl⟩

/-- A nonterminal yields what the right-hand side of a production yields. -/
theorem of_production {p : ProductionId} (hp : p < g.productions.size)
    (h : g.Yields (g.production p).right w n) :
    g.Yields [.nonterminal (g.production p).left] w (n + 1) := by
  simpa using Yields.nonterminal hp rfl h .nil

theorem append (hu : g.Yields α u m) (hv : g.Yields β v n) :
    g.Yields (α ++ β) (u ++ v) (m + n) := by
  induction hu with
  | nil => simpa using hv
  | terminal _ ih =>
    rw [Nat.add_right_comm]
    exact .terminal ih
  | @nonterminal _ _ _ _ _ i j hp hl hr _ _ ih =>
    rw [List.append_assoc, show i + j + 1 + n = i + (j + n) + 1 by omega]
    exact .nonterminal hp hl hr ih

/-- A derivation of two sequences consists of one of each. -/
theorem split (h : g.Yields (α ++ β) w n) :
    ∃ u v m k, w = u ++ v ∧ n = m + k ∧ g.Yields α u m ∧ g.Yields β v k := by
  induction α generalizing w n with
  | nil => exact ⟨[], w, 0, n, rfl, by omega, .nil, h⟩
  | cons s α ih =>
    cases h with
    | terminal h =>
      obtain ⟨u, v, m, k, rfl, rfl, hu, hv⟩ := ih h
      exact ⟨_ :: u, v, m + 1, k, rfl, by omega, .terminal hu, hv⟩
    | @nonterminal p l _ x _ i _ hp hl hr h =>
      obtain ⟨u, v, m, k, rfl, rfl, hu, hv⟩ := ih h
      exact ⟨x ++ u, v, i + m + 1, k, by simp, by omega, .nonterminal hp hl hr hu, hv⟩

/-- A derivation from a sequence with a first symbol consists of one of the symbol and one of the
rest. -/
theorem split_cons {s : Symbol} (h : g.Yields (s :: β) w n) :
    ∃ u v m k, w = u ++ v ∧ n = m + k ∧ g.Yields [s] u m ∧ g.Yields β v k :=
  split (α := [s]) h

theorem terminals (g : Grammar) (w : List TerminalId) :
    g.Yields (w.map .terminal) w w.length := by
  induction w with
  | nil => exact .nil
  | cons t w ih => exact .terminal ih

end Yields

/-! ## The two forms agree -/

theorem Produces.append (h : g.Produces α β) (γ δ : List Symbol) :
    g.Produces (γ ++ α ++ δ) (γ ++ β ++ δ) := by
  obtain ⟨before, after, p, hp, rfl, rfl⟩ := h
  exact ⟨γ ++ before, after ++ δ, p, hp, by simp, by simp⟩

theorem rewrites_append {γ δ : List Symbol} (h : Relation.ReflTransGen g.Produces α β) :
    Relation.ReflTransGen g.Produces (γ ++ α ++ δ) (γ ++ β ++ δ) := by
  induction h with
  | refl => exact .refl
  | tail _ hs ih => exact ih.tail (hs.append γ δ)

theorem rewrites_of_yields (h : g.Yields α w n) :
    Relation.ReflTransGen g.Produces α (w.map .terminal) := by
  induction h with
  | nil => exact .refl
  | @terminal t _ _ _ _ ih => simpa using rewrites_append (γ := [.terminal t]) (δ := []) ih
  | @nonterminal p l β u w _ _ hp hl _ _ ihu ihw =>
    have hfirst : g.Produces (.nonterminal l :: β) ((g.production p).right ++ β) :=
      ⟨[], β, p, hp, by simp [hl], by simp⟩
    have hleft := rewrites_append (γ := []) (δ := β) ihu
    have hright := rewrites_append (γ := u.map Symbol.terminal) (δ := []) ihw
    simp only [List.nil_append, List.append_nil] at hleft hright
    rw [List.map_append]
    exact .head hfirst (hleft.trans hright)

theorem yields_of_produces (h : g.Produces α β) (hy : g.Yields β w n) :
    ∃ k, g.Yields α w k := by
  obtain ⟨before, after, p, hp, rfl, rfl⟩ := h
  rw [List.append_assoc] at hy
  obtain ⟨x, y, i, _, rfl, rfl, hx, hy⟩ := hy.split
  obtain ⟨u, v, j, k, rfl, rfl, hu, hv⟩ := hy.split
  exact ⟨_, hx.append (.nonterminal hp rfl hu hv)⟩

theorem yields_of_rewrites (h : Relation.ReflTransGen g.Produces α (w.map .terminal)) :
    ∃ n, g.Yields α w n := by
  induction h using Relation.ReflTransGen.head_induction_on with
  | refl => exact ⟨_, .terminals g w⟩
  | head hs _ ih =>
    obtain ⟨n, hn⟩ := ih
    exact yields_of_produces hs hn

/-- **Sentences.** A word is a sentence exactly if the root yields it. -/
theorem sentence_iff_yields : g.Sentence w ↔ ∃ n, g.Yields [.nonterminal g.root] w n :=
  ⟨yields_of_rewrites, fun ⟨_, h⟩ => rewrites_of_yields h⟩

end Grammar

end FourGL
