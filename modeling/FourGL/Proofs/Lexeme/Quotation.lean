import FourGL.Literal.Value
import Mathlib.Data.List.Basic
import Mathlib.Order.MinMax

/-!
# Texts in which a quote is written twice

The body of such a quotation consists of units: characters other than the quote, and pairs of quotes. It
ends at the first quote that is not the first of a pair.

**Theorem (`doubledBody_cases`).** A text either consists of units, or it is a body of units, a closing
quote, and a rest.

Units are read one after the other. So a body can be cut between any two of them, and both its extent and
its value are those of the pieces put together.
-/

namespace FourGL

variable {quote : Char} {c : Char} {cs body rest : List Char}

/-- The text consists of characters other than the quote, and pairs of quotes. -/
inductive Doubled (quote : Char) : List Char → Prop
  | nil : Doubled quote []
  | plain {c : Char} {cs : List Char} : c ≠ quote → Doubled quote cs → Doubled quote (c :: cs)
  | pair {cs : List Char} : Doubled quote cs → Doubled quote (quote :: quote :: cs)

theorem doubledBody_plain (h : c ≠ quote) (cs : List Char) :
    doubledBody quote (c :: cs) = (doubledBody quote cs).after 1 := by
  cases cs with
  | nil => simp [doubledBody, h, BodyExtent.after]
  | cons d ds => rw [doubledBody, if_neg h]

theorem doubledBody_pair (quote : Char) (cs : List Char) :
    doubledBody quote (quote :: quote :: cs) = (doubledBody quote cs).after 2 := by
  rw [doubledBody, if_pos rfl, if_pos rfl]

theorem doubledBody_close (h : rest.head? ≠ some quote) :
    doubledBody quote (quote :: rest) = ⟨1, true⟩ := by
  cases rest with
  | nil => simp [doubledBody]
  | cons d ds =>
    have hd : d ≠ quote := fun heq => h (by rw [heq, List.head?_cons])
    rw [doubledBody, if_pos rfl, if_neg hd]

theorem after_after (m n : Nat) (b : BodyExtent) : (b.after m).after n = b.after (n + m) := by
  simp [BodyExtent.after, Nat.add_assoc]

/-- What follows units is read as if it stood alone. -/
theorem Doubled.doubledBody_append (h : Doubled quote body) (rest : List Char) :
    doubledBody quote (body ++ rest) = (doubledBody quote rest).after body.length := by
  induction h with
  | nil => simp [BodyExtent.after]
  | plain hc _ ih =>
    rw [List.cons_append, doubledBody_plain hc, ih, after_after, List.length_cons, Nat.add_comm]
  | pair _ ih =>
    rw [List.cons_append, List.cons_append, doubledBody_pair, ih, after_after, List.length_cons,
      List.length_cons, Nat.add_comm]

theorem Doubled.doubledBody_eq (h : Doubled quote body) :
    doubledBody quote body = ⟨body.length, false⟩ := by
  have happend := h.doubledBody_append []
  rwa [List.append_nil] at happend

theorem Doubled.doubledBody_close (h : Doubled quote body) (hrest : rest.head? ≠ some quote) :
    doubledBody quote (body ++ quote :: rest) = ⟨body.length + 1, true⟩ := by
  rw [h.doubledBody_append, FourGL.doubledBody_close hrest]
  rfl

theorem Doubled.append (h : Doubled quote body) (hcs : Doubled quote cs) :
    Doubled quote (body ++ cs) := by
  induction h with
  | nil => exact hcs
  | plain hc _ ih => exact .plain hc ih
  | pair _ ih => exact .pair ih

/-- **How a quotation ends.** It is open to the end of the text, or closed by a quote that is not the
first of a pair. -/
theorem doubledBody_cases (quote : Char) (cs : List Char) : Doubled quote cs ∨
    ∃ body rest, cs = body ++ quote :: rest ∧ Doubled quote body ∧ rest.head? ≠ some quote := by
  induction hlength : cs.length using Nat.strong_induction_on generalizing cs with
  | _ length ih =>
    cases cs with
    | nil => exact Or.inl .nil
    | cons c cs =>
      rw [List.length_cons] at hlength
      by_cases hc : c = quote
      · subst hc
        by_cases hhead : cs.head? = some c
        · obtain ⟨ds, rfl⟩ := List.head?_eq_some_iff.mp hhead
          rw [List.length_cons] at hlength
          rcases ih ds.length (by omega) ds rfl with hds | ⟨body, rest, rfl, hbody, hrest⟩
          · exact Or.inl (.pair hds)
          · exact Or.inr ⟨c :: c :: body, rest, rfl, .pair hbody, hrest⟩
        · exact Or.inr ⟨[], cs, rfl, .nil, hhead⟩
      · rcases ih cs.length (by omega) cs rfl with hcs | ⟨body, rest, rfl, hbody, hrest⟩
        · exact Or.inl (.plain hc hcs)
        · exact Or.inr ⟨c :: body, rest, rfl, .plain hc hbody, hrest⟩

/-! ## Values -/

theorem undouble_plain (h : c ≠ quote) (cs : List Char) :
    undouble quote (c :: cs) = c :: undouble quote cs := by
  cases cs with
  | nil => rfl
  | cons d ds => rw [undouble, if_neg fun hboth => h hboth.1]

theorem undouble_pair (quote : Char) (cs : List Char) :
    undouble quote (quote :: quote :: cs) = quote :: undouble quote cs := by
  rw [undouble, if_pos ⟨rfl, rfl⟩]

/-- What follows units has its value as if it stood alone. -/
theorem Doubled.undouble_append (h : Doubled quote body) (rest : List Char) :
    undouble quote (body ++ rest) = undouble quote body ++ undouble quote rest := by
  induction h with
  | nil => rfl
  | plain hc _ ih =>
    rw [List.cons_append, undouble_plain hc, undouble_plain hc, ih, List.cons_append]
  | pair _ ih =>
    rw [List.cons_append, List.cons_append, undouble_pair, undouble_pair, ih, List.cons_append]

theorem Doubled.doubledValue_eq (h : Doubled quote body) :
    doubledValue quote body = String.ofList (undouble quote body) := by
  rw [doubledValue, h.doubledBody_eq, BodyExtent.inner, if_neg Bool.false_ne_true, List.take_length]

/-- The closing quote and what follows it are no part of the value. -/
theorem Doubled.doubledValue_close (h : Doubled quote body) (hrest : rest.head? ≠ some quote) :
    doubledValue quote (body ++ quote :: rest) = String.ofList (undouble quote body) := by
  rw [doubledValue, h.doubledBody_close hrest, BodyExtent.inner, if_pos rfl, Nat.add_sub_cancel,
    List.take_left]

end FourGL
