import FourGL.Proofs.Lexeme.Locality
import FourGL.Proofs.Lexeme.Quotation

/-!
# Bodies of quotations

The body of a quotation consists of units and, where it is closed, the closer. `Reads` says which bodies
a quotation may have in front of a given rest.

**Theorem (`reads_iff`).** The body read from a text is the only one that `Reads` allows.

In an escaped quotation a unit is a character of the line other than a quote and a backslash, or a
backslash with a character of the line behind it. A backslash at the end of the line stands alone, and
leaves the quotation open.
-/

namespace FourGL

open Text

variable {c d : Char} {cs body rest : List Char} {closed : Bool} {q : Quoting}

/-! ## Units of escaped quotations -/

/-- The text consists of characters other than quotes, backslashes and line breaks, and of backslashes
with a character behind each. -/
inductive Escaped : List Char → Prop
  | nil : Escaped []
  | plain {c : Char} {cs : List Char} : c ≠ '"' → c ≠ '\\' → isLineBreak c = false →
    Escaped cs → Escaped (c :: cs)
  | escape {c : Char} {cs : List Char} : isLineBreak c = false → Escaped cs → Escaped ('\\' :: c :: cs)

theorem escapedBody_plain (hquote : c ≠ '"') (hescape : c ≠ '\\') (hbreak : isLineBreak c = false)
    (cs : List Char) : escapedBody (c :: cs) = (escapedBody cs).after 1 := by
  rw [escapedBody_cons, if_neg hquote, if_neg hescape, hbreak, if_neg Bool.false_ne_true]

theorem escapedBody_escape (hbreak : isLineBreak c = false) (cs : List Char) :
    escapedBody ('\\' :: c :: cs) = (escapedBody cs).after 2 := by
  rw [escapedBody_cons, if_neg (by decide), if_pos rfl]
  simp only [hbreak, Bool.false_eq_true, if_false]

theorem escapedBody_close (cs : List Char) : escapedBody ('"' :: cs) = ⟨1, true⟩ := by
  rw [escapedBody_cons, if_pos rfl]

theorem ne_of_isLineBreak (h : isLineBreak c = true) (hd : isLineBreak d = false) : c ≠ d := by
  rintro rfl
  rw [h] at hd
  cases hd

theorem escapedBody_end (h : ∀ c ∈ rest.head?, isLineBreak c = true) :
    escapedBody rest = ⟨0, false⟩ := by
  cases rest with
  | nil => rfl
  | cons c cs =>
    have hbreak := h c rfl
    rw [escapedBody_cons, if_neg (ne_of_isLineBreak hbreak (by decide)),
      if_neg (ne_of_isLineBreak hbreak (by decide)), if_pos hbreak]

theorem escapedBody_lone (h : ∀ c ∈ rest.head?, isLineBreak c = true) :
    escapedBody ('\\' :: rest) = ⟨1, false⟩ := by
  rw [escapedBody_cons, if_neg (by decide), if_pos rfl]
  cases rest with
  | nil => rfl
  | cons c cs => simp only [h c rfl, if_true]

/-- What follows units is read as if it stood alone. -/
theorem Escaped.escapedBody_append (h : Escaped body) (rest : List Char) :
    escapedBody (body ++ rest) = (escapedBody rest).after body.length := by
  induction h with
  | nil => simp [BodyExtent.after]
  | plain hquote hescape hbreak _ ih =>
    rw [List.cons_append, escapedBody_plain hquote hescape hbreak, ih, after_after, List.length_cons,
      Nat.add_comm]
  | escape hbreak _ ih =>
    rw [List.cons_append, List.cons_append, escapedBody_escape hbreak, ih, after_after,
      List.length_cons, List.length_cons, Nat.add_comm]

/-! ## Bodies -/

/-- The text consists of units of the quotation. -/
def Quoting.Units : Quoting → List Char → Prop
  | .escaped => Escaped
  | q => Doubled q.closer

/-- How the body of a quotation is read in front of a rest: up to the closer, or to where the quotation
cannot go on. -/
inductive Quoting.Reads : Quoting → List Char → Bool → List Char → Prop
  | close {q : Quoting} {units rest : List Char} : q.Units units →
    (q.spansLines = true → rest.head? ≠ some q.closer) → Reads q (units ++ [q.closer]) true rest
  | stop {q : Quoting} {units rest : List Char} : q.Units units →
    (∀ c ∈ rest.head?, q.spansLines = false ∧ isLineBreak c = true) → Reads q units false rest
  | lone {units rest : List Char} : Escaped units → (∀ c ∈ rest.head?, isLineBreak c = true) →
    Reads .escaped (units ++ ['\\']) false rest

theorem Quoting.Reads.body_eq (h : q.Reads body closed rest) :
    q.body (body ++ rest) = ⟨body.length, closed⟩ := by
  cases h with
  | close hunits hrest =>
    rw [List.append_assoc, List.singleton_append, List.length_append, List.length_singleton]
    cases q with
    | escaped =>
      show escapedBody _ = _
      rw [hunits.escapedBody_append]
      exact congrArg (BodyExtent.after _) (escapedBody_close rest)
    | verbatim => exact hunits.doubledBody_close (hrest rfl)
    | single => exact hunits.doubledBody_close (hrest rfl)
  | stop hunits hrest =>
    cases q with
    | escaped =>
      show escapedBody _ = _
      rw [hunits.escapedBody_append, escapedBody_end fun c hc => (hrest c hc).2]
      rfl
    | verbatim | single =>
      have hempty : rest = [] := by
        cases rest with
        | nil => rfl
        | cons c cs => cases (hrest c rfl).1
      subst hempty
      rw [List.append_nil]
      exact hunits.doubledBody_eq
  | lone hunits hrest =>
    show escapedBody _ = _
    rw [List.append_assoc, List.singleton_append, hunits.escapedBody_append, escapedBody_lone hrest,
      List.length_append, List.length_singleton]
    rfl

/-- Units up to where no further one stands. -/
theorem exists_escaped (cs : List Char) : ∃ units rest, cs = units ++ rest ∧ Escaped units ∧
    (rest.head? = some '"' ∨ (∀ c ∈ rest.head?, isLineBreak c = true) ∨
      ∃ tail, rest = '\\' :: tail ∧ ∀ c ∈ tail.head?, isLineBreak c = true) := by
  induction hlength : cs.length using Nat.strong_induction_on generalizing cs with
  | _ length ih =>
    cases cs with
    | nil => exact ⟨[], [], rfl, .nil, Or.inr (Or.inl (by simp))⟩
    | cons c cs =>
      rw [List.length_cons] at hlength
      by_cases hescape : c = '\\'
      · subst hescape
        by_cases hend : ∀ d ∈ cs.head?, isLineBreak d = true
        · exact ⟨[], '\\' :: cs, rfl, .nil, Or.inr (Or.inr ⟨cs, rfl, hend⟩)⟩
        · push Not at hend
          obtain ⟨d, hd, hbreak⟩ := hend
          obtain ⟨ds, rfl⟩ := List.head?_eq_some_iff.mp hd
          rw [List.length_cons] at hlength
          obtain ⟨units, rest, rfl, hunits, hrest⟩ := ih ds.length (by omega) ds rfl
          have hescape := Escaped.escape (Bool.eq_false_of_not_eq_true hbreak) hunits
          exact ⟨'\\' :: d :: units, rest, rfl, hescape, hrest⟩
      · by_cases hquote : c = '"'
        · exact ⟨[], c :: cs, rfl, .nil, Or.inl (by rw [hquote, List.head?_cons])⟩
        · by_cases hbreak : isLineBreak c = true
          · exact ⟨[], c :: cs, rfl, .nil, Or.inr (Or.inl (by simpa using hbreak))⟩
          · obtain ⟨units, rest, rfl, hunits, hrest⟩ := ih cs.length (by omega) cs rfl
            have hplain := Escaped.plain hquote hescape (Bool.eq_false_of_not_eq_true hbreak) hunits
            exact ⟨c :: units, rest, rfl, hplain, hrest⟩

theorem exists_escaped_reads (cs : List Char) :
    ∃ body closed rest, cs = body ++ rest ∧ Quoting.escaped.Reads body closed rest := by
  obtain ⟨units, rest, rfl, hunits, hclose | hstop | ⟨tail, rfl, hlone⟩⟩ := exists_escaped cs
  · obtain ⟨tail, rfl⟩ := List.head?_eq_some_iff.mp hclose
    exact ⟨units ++ ['"'], true, tail, by simp, .close hunits fun h => nomatch h⟩
  · exact ⟨units, false, rest, rfl, .stop hunits fun c hc => ⟨rfl, hstop c hc⟩⟩
  · exact ⟨units ++ ['\\'], false, tail, by simp, .lone hunits hlone⟩

theorem exists_doubled_reads (hq : q.Units = Doubled q.closer) (cs : List Char) :
    ∃ body closed rest, cs = body ++ rest ∧ q.Reads body closed rest := by
  rcases doubledBody_cases q.closer cs with hunits | ⟨units, rest, rfl, hunits, hrest⟩
  · rw [← hq] at hunits
    exact ⟨cs, false, [], by simp, .stop hunits (by simp)⟩
  · rw [← hq] at hunits
    exact ⟨units ++ [q.closer], true, rest, by simp, .close hunits fun _ => hrest⟩

theorem Quoting.exists_reads (q : Quoting) (cs : List Char) :
    ∃ body closed rest, cs = body ++ rest ∧ q.Reads body closed rest := by
  cases q with
  | escaped => exact exists_escaped_reads cs
  | verbatim => exact exists_doubled_reads rfl cs
  | single => exact exists_doubled_reads rfl cs

/-- **Bodies.** `Reads` allows the body that is read, and no other. -/
theorem Quoting.reads_iff :
    q.Reads body closed rest ↔ q.body (body ++ rest) = ⟨body.length, closed⟩ := by
  refine ⟨Reads.body_eq, fun h => ?_⟩
  obtain ⟨body', closed', rest', heq, hreads⟩ := q.exists_reads (body ++ rest)
  have hbody := hreads.body_eq
  rw [← heq, h] at hbody
  obtain ⟨hlength, rfl⟩ := BodyExtent.mk.inj hbody
  obtain ⟨rfl, rfl⟩ := List.append_inj heq hlength
  exact hreads

end FourGL
