/-!
# Repeating a step until nothing changes

`saturate f n a` applies `f` again and again, until a value comes back unchanged or `n` applications
have been made. What it answers is a fixed point of `f` as soon as `n` exceeds the number of steps
that change something.
-/

namespace FourGL

/-- The value where `f`, applied again and again at most `n` times, stops changing it. -/
def saturate {α : Type} [BEq α] (f : α → α) : Nat → α → α
  | 0, a => a
  | n + 1, a =>
    let b := f a
    if b == a then a else saturate f n b

/-- What `f` keeps, saturation keeps. -/
theorem saturate_induction {α : Type} [BEq α] {f : α → α} {P : α → Prop}
    (step : ∀ a, P a → P (f a)) (n : Nat) {a : α} (start : P a) : P (saturate f n a) := by
  induction n generalizing a with
  | zero => exact start
  | succ n ih =>
    simp only [saturate]
    split
    · exact start
    · exact ih (step a start)

end FourGL
