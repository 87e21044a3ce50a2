/-!
# Loops that come to an end

A loop takes steps until there is none left to take. `ComesToEnd` is the run of such a loop, with the
number of its steps.

**Theorem (`exists_comesToEnd`).** A loop whose steps make something smaller comes to an end, after no
more steps than that was large.
-/

namespace FourGL

/-- Steps that are taken as long as there are any come to an end, after a number of them. -/
inductive ComesToEnd {α : Type} (step? : α → Option α) : Nat → α → α → Prop
  | done {a : α} : step? a = none → ComesToEnd step? 0 a a
  | step {n : Nat} {a b c : α} : step? a = some b → ComesToEnd step? n b c →
      ComesToEnd step? (n + 1) a c

variable {α : Type} {step? : α → Option α} {P : α → Prop} {a b c : α} {m n : Nat}

theorem ComesToEnd.ended (h : ComesToEnd step? n a b) : step? b = none := by
  induction h with
  | done h => exact h
  | step _ _ ih => exact ih

theorem ComesToEnd.keeps (h : ComesToEnd step? n a b) (keeps : ∀ a b, P a → step? a = some b → P b)
    (ha : P a) : P b := by
  induction h with
  | done => exact ha
  | step hstep _ ih => exact ih (keeps _ _ ha hstep)

theorem ComesToEnd.unique (h : ComesToEnd step? n a b) (h' : ComesToEnd step? m a c) : b = c := by
  induction h generalizing m with
  | done hnone =>
    cases h' with
    | done => rfl
    | step hstep _ => rw [hnone] at hstep; cases hstep
  | step hstep _ ih =>
    cases h' with
    | done hnone => rw [hnone] at hstep; cases hstep
    | step hstep' h' =>
      obtain rfl := Option.some.inj (hstep.symm.trans hstep')
      exact ih h'

/-- What gets smaller by each step bounds the steps. -/
theorem exists_comesToEnd (size : α → Nat) (keeps : ∀ a b, P a → step? a = some b → P b)
    (shrinks : ∀ a b, P a → step? a = some b → size b < size a) (ha : P a) :
    ∃ n ≤ size a, ∃ b, ComesToEnd step? n a b := by
  induction hsize : size a using Nat.strongRecOn generalizing a with
  | _ k ih =>
    subst hsize
    cases hstep : step? a with
    | none => exact ⟨0, Nat.zero_le _, a, .done hstep⟩
    | some b =>
      have hlt := shrinks a b ha hstep
      obtain ⟨n, hn, c, hc⟩ := ih (size b) hlt (keeps a b ha hstep) rfl
      exact ⟨n + 1, by omega, c, .step hstep hc⟩

/-- The value where a loop ends that is allowed a number of steps. -/
def runOut (step? : α → Option α) : Nat → α → α
  | 0, a => a
  | n + 1, a =>
    match step? a with
    | none => a
    | some b => runOut step? n b

theorem ComesToEnd.runOut_eq (h : ComesToEnd step? n a b) (hn : n ≤ m) : runOut step? m a = b := by
  induction h generalizing m with
  | done h => cases m <;> simp [runOut, h]
  | step hstep _ ih =>
    obtain ⟨m, rfl⟩ := Nat.exists_eq_add_one_of_ne_zero (Nat.ne_zero_of_lt hn)
    rw [runOut, hstep]
    exact ih (Nat.le_of_succ_le_succ hn)

end FourGL
