import FourGL.Proofs.Token.Offsets
import Mathlib.Data.List.TakeWhile

/-!
# Places by what stands before them

A place is reached by going over the text before it, stretch by stretch. What it says can be read off
that text at once.

**Theorem (`advance_start`).** From the start of a text, the offset is the number of bytes before the
place, the line is one more than the line breaks before it, and the column is one more than the characters
since the last of them.

**Theorem (`advance_append`).** It does not matter how the text is cut into stretches, as long as no
carriage return is cut from the line feed behind it.

**Theorem (`slice_append`).** The span of a stretch gives back the stretch.
-/

namespace FourGL

variable {c : Char} {cs pre text post : List Char} {place : Place} {span : Span} {n : Nat}

/-! ## Lines and columns -/

/-- The number of line breaks, where a carriage return and the line feed behind it are one. -/
def lineBreaks : List Char → Nat
  | [] => 0
  | c :: cs =>
    if isLineBreak c && !(c == '\r' && cs.head? == some '\n') then lineBreaks cs + 1
    else lineBreaks cs

/-- The number of characters since the last line break. -/
def sinceBreak (cs : List Char) : Nat := (cs.reverse.takeWhile (!isLineBreak ·)).length

/-- A carriage return ends the first text, and the line feed behind it begins the second. -/
def SplitsBreak (pre post : List Char) : Prop := pre.getLast? = some '\r' ∧ post.head? = some '\n'

theorem SplitsBreak.cons (h : SplitsBreak pre post) (c : Char) : SplitsBreak (c :: pre) post :=
  ⟨by rw [List.getLast?_cons, h.1]; rfl, h.2⟩

theorem SplitsBreak.of_append_left (h : SplitsBreak (pre ++ text) post) (hne : text ≠ []) :
    SplitsBreak text post :=
  ⟨by rw [← h.1, List.getLast?_append_of_ne_nil _ hne], h.2⟩

theorem SplitsBreak.append_right (h : SplitsBreak pre text) (post : List Char) :
    SplitsBreak pre (text ++ post) :=
  ⟨h.1, by rw [List.head?_append, h.2]; rfl⟩

theorem sinceBreak_of_not_any (h : cs.any isLineBreak = false) : sinceBreak cs = cs.length := by
  have hwhole : cs.reverse.takeWhile (!isLineBreak ·) = cs.reverse :=
    List.takeWhile_eq_self_iff.mpr (by simpa using h)
  rw [sinceBreak, hwhole, List.length_reverse]

theorem sinceBreak_cons (c : Char) (cs : List Char) : sinceBreak (c :: cs) =
    if cs.any isLineBreak then sinceBreak cs
    else if isLineBreak c then cs.length else cs.length + 1 := by
  rw [sinceBreak, List.reverse_cons, List.takeWhile_append]
  cases hany : cs.any isLineBreak with
  | true =>
    obtain ⟨d, hd, hbreak⟩ := List.any_eq_true.mp hany
    rw [if_neg, if_pos rfl, sinceBreak]
    intro hall
    have hwhole := (List.takeWhile_prefix (!isLineBreak ·)).eq_of_length hall
    have hnone := List.takeWhile_eq_self_iff.mp hwhole d (List.mem_reverse.mpr hd)
    simp [hbreak] at hnone
  | false =>
    have hwhole : cs.reverse.takeWhile (!isLineBreak ·) = cs.reverse :=
      List.takeWhile_eq_self_iff.mpr (by simpa using hany)
    rw [hwhole, if_pos rfl, if_neg Bool.false_ne_true]
    cases hbreak : isLineBreak c <;> simp [hbreak]

namespace Place

theorem not_feed_of_forall (h : ∀ ds, c = '\r' → cs = '\n' :: ds → False) :
    ¬ (c = '\r' ∧ cs.head? = some '\n') := by
  rintro ⟨hreturn, hfeed⟩
  obtain ⟨ds, hds⟩ := List.head?_eq_some_iff.mp hfeed
  exact h ds hreturn hds

theorem advance_cons (h : ¬ (c = '\r' ∧ cs.head? = some '\n')) (place : Place) :
    place.advance (c :: cs) = if isLineBreak c then (place.nextLine c.utf8Size).advance cs
      else (place.nextColumn c.utf8Size).advance cs := by
  rw [advance]
  rintro ds rfl rfl
  exact h ⟨rfl, rfl⟩

theorem not_feed_append (h : ¬ (c = '\r' ∧ cs.head? = some '\n'))
    (hsplits : ¬ SplitsBreak (c :: cs) post) : ¬ (c = '\r' ∧ (cs ++ post).head? = some '\n') := by
  rintro ⟨rfl, hhead⟩
  cases cs with
  | nil => exact hsplits ⟨rfl, hhead⟩
  | cons d ds => exact h ⟨rfl, hhead⟩

/-- The place after a stretch, from any place on. -/
theorem advance_eq (place : Place) (cs : List Char) : place.advance cs =
    ⟨place.offset + utf8Length cs, place.line + lineBreaks cs,
      if cs.any isLineBreak then 1 + sinceBreak cs else place.column + cs.length⟩ := by
  fun_induction Place.advance place cs with
  | case1 => rfl
  | case2 place cs ih =>
    have hbreaks : isLineBreak '\r' = true ∧ isLineBreak '\n' = true := by decide
    have hsizes : Char.utf8Size '\r' = 1 ∧ Char.utf8Size '\n' = 1 := by decide
    rw [ih]
    simp only [nextLine, utf8Length_cons, hsizes, lineBreaks, List.any_cons, hbreaks, sinceBreak_cons]
    cases cs.any isLineBreak <;> simp <;> omega
  | case3 place c cs hne hbreak ih =>
    have hone : (c == '\r' && cs.head? == some '\n') = false := by
      simpa using not_feed_of_forall hne
    rw [ih]
    simp only [nextLine, utf8Length_cons, lineBreaks, List.any_cons, hbreak, sinceBreak_cons, hone]
    cases cs.any isLineBreak <;> simp <;> omega
  | case4 place c cs hne hbreak ih =>
    rw [ih]
    simp only [nextColumn, utf8Length_cons, lineBreaks, List.any_cons, hbreak, sinceBreak_cons]
    cases cs.any isLineBreak <;> simp <;> omega

/-- **Places.** From the start of a text, a place says how much text is before it. -/
theorem advance_start (cs : List Char) :
    Place.advance {} cs = ⟨utf8Length cs, 1 + lineBreaks cs, 1 + sinceBreak cs⟩ := by
  rw [advance_eq]
  cases hany : cs.any isLineBreak with
  | true => simp
  | false => simp [sinceBreak_of_not_any hany]

theorem advance_append (h : ¬ SplitsBreak pre post) (place : Place) :
    place.advance (pre ++ post) = (place.advance pre).advance post := by
  fun_induction Place.advance place pre with
  | case1 => rfl
  | case2 place cs ih =>
    rw [List.cons_append, List.cons_append, advance]
    exact ih fun hsplits => h ((hsplits.cons _).cons _)
  | case3 place c cs hne hbreak ih =>
    rw [List.cons_append, advance_cons (not_feed_append (not_feed_of_forall hne) h), if_pos hbreak]
    exact ih fun hsplits => h (hsplits.cons _)
  | case4 place c cs hne hbreak ih =>
    rw [List.cons_append, advance_cons (not_feed_append (not_feed_of_forall hne) h), if_neg hbreak]
    exact ih fun hsplits => h (hsplits.cons _)

end Place

/-! ## Slices -/

section Slice

variable {offset : Nat}

theorem slice_go_before (h : offset + utf8Length pre ≤ span.start) (cs : List Char) :
    slice.go span offset (pre ++ cs) = slice.go span (offset + utf8Length pre) cs := by
  induction pre generalizing offset with
  | nil => rfl
  | cons c pre ih =>
    have hpos := c.utf8Size_pos
    rw [utf8Length_cons] at h
    have hout : span.contains offset = false := by
      simp only [Span.contains, Bool.and_eq_false_iff, decide_eq_false_iff_not]
      omega
    rw [List.cons_append, slice.go, hout, ih (by omega), utf8Length_cons, Nat.add_assoc]
    rfl

theorem slice_go_within (hstart : span.start ≤ offset) (hstop : offset + utf8Length text ≤ span.stop)
    (cs : List Char) :
    slice.go span offset (text ++ cs) = text ++ slice.go span (offset + utf8Length text) cs := by
  induction text generalizing offset with
  | nil => rfl
  | cons c text ih =>
    have hpos := c.utf8Size_pos
    rw [utf8Length_cons] at hstop
    have hin : span.contains offset = true := by
      simp only [Span.contains, Bool.and_eq_true, decide_eq_true_eq]
      omega
    rw [List.cons_append, slice.go, hin, ih (by omega) (by omega), utf8Length_cons, Nat.add_assoc]
    rfl

theorem slice_go_after (h : span.stop ≤ offset) (cs : List Char) : slice.go span offset cs = [] := by
  induction cs generalizing offset with
  | nil => rfl
  | cons c cs ih =>
    have hout : span.contains offset = false := by
      simp only [Span.contains, Bool.and_eq_false_iff, decide_eq_false_iff_not]
      omega
    rw [slice.go, hout, ih (Nat.le_add_right_of_le h)]
    rfl

end Slice

/-- **Slices.** The span of a stretch gives back the stretch. -/
theorem slice_append (pre text post : List Char) :
    slice (pre ++ text ++ post) ⟨utf8Length pre, utf8Length pre + utf8Length text⟩ = text := by
  rw [slice, List.append_assoc, slice_go_before (Nat.le_of_eq (Nat.zero_add _)), Nat.zero_add,
    slice_go_within (Nat.le_refl _) (Nat.le_refl _), slice_go_after (Nat.le_refl _), List.append_nil]

/-! ## Boundaries -/

theorem eq_nil_of_utf8Length (h : utf8Length cs = 0) : cs = [] := by
  cases cs with
  | nil => rfl
  | cons c cs =>
    have hpos := c.utf8Size_pos
    rw [utf8Length_cons] at h
    omega

/-- The offset lies between two characters of the text, or at one of its ends. -/
def IsBoundary (cs : List Char) (n : Nat) : Prop :=
  ∃ before after, cs = before ++ after ∧ utf8Length before = n

theorem IsBoundary.le (h : IsBoundary cs n) : n ≤ utf8Length cs := by
  obtain ⟨before, after, rfl, rfl⟩ := h
  rw [utf8Length_append]
  exact Nat.le_add_right _ _

/-- Two boundaries cut a stretch out of the text, which the span between them gives back. -/
theorem exists_slice (hstart : IsBoundary cs span.start) (hstop : IsBoundary cs span.stop)
    (hle : span.start ≤ span.stop) : ∃ before after, cs = before ++ slice cs span ++ after ∧
      span = ⟨utf8Length before, utf8Length before + utf8Length (slice cs span)⟩ := by
  obtain ⟨before, rest, hrest, hbefore⟩ := hstart
  obtain ⟨upto, after, hafter, hupto⟩ := hstop
  have hprefix : before <+: upto := by
    rcases List.prefix_or_prefix_of_prefix ⟨rest, hrest.symm⟩ ⟨after, hafter.symm⟩ with h | ⟨more, rfl⟩
    · exact h
    · rw [utf8Length_append] at hbefore
      have hempty : more = [] := eq_nil_of_utf8Length (by omega)
      exact ⟨[], by rw [hempty, List.append_nil, List.append_nil]⟩
  obtain ⟨text, rfl⟩ := hprefix
  have hspan : span = ⟨utf8Length before, utf8Length before + utf8Length text⟩ := by
    rw [← utf8Length_append, hbefore, hupto]
  have hslice : slice cs span = text := by
    rw [hspan, hafter]
    exact slice_append before text after
  rw [hslice]
  exact ⟨before, after, hafter, hspan⟩

end FourGL
