import FourGL.Proofs.Lexeme.Locality
import Mathlib.Computability.Language
import Mathlib.Data.List.TakeWhile

/-!
# Patterns of lexemes

Blanks, comments, words and numbers are regular languages over classes of characters. Here each of them
is written as a pattern, and the extent by which a text is cut is shown to follow the pattern.

**Theorem (`measures_blank`, `measures_comment`, `measures_word`, `measures_number`).** The extent of a
class at the head of a text is the length of the longest word of its pattern that stands there.

An extent runs over a text once and never goes back. That this suffices for words rests on an escape
beginning with a character that is no part of a word otherwise, and for numbers on the point, the sign
of an exponent and the letter before it being no digits.
-/

/-- A language over characters. -/
abbrev CharLanguage := Language Char

namespace FourGL

open Text
open scoped Computability

variable {p : Char → Bool} {c : Char} {cs w rest : List Char} {n : Nat} {l : CharLanguage}

/-! ## Languages over classes of characters -/

namespace CharPattern

/-- One character of a class. -/
def one (p : Char → Bool) : CharLanguage := {w | ∃ c, p c = true ∧ w = [c]}

/-- Characters of a class, at least one. -/
def run (p : Char → Bool) : CharLanguage := one p * (one p)∗

/-- A text and no other. -/
def text (cs : List Char) : CharLanguage := {cs}

/-- A word of the language, or nothing. -/
def optional (l : CharLanguage) : CharLanguage := 1 + l

theorem mem_one : w ∈ one p ↔ ∃ c, p c = true ∧ w = [c] := Iff.rfl

theorem mem_text : w ∈ text cs ↔ w = cs := Iff.rfl

theorem mem_optional : w ∈ optional l ↔ w = [] ∨ w ∈ l := Iff.rfl

theorem append_mem_kstar {v : List Char} (hv : v ∈ l) (hw : w ∈ l∗) : v ++ w ∈ l∗ :=
  Set.mem_of_mem_of_subset (Language.append_mem_mul hv hw) (mul_kstar_le_kstar (a := l))

theorem mem_many : w ∈ (one p)∗ ↔ ∀ c ∈ w, p c = true := by
  rw [Language.mem_kstar]
  constructor
  · rintro ⟨ws, rfl, hws⟩ c hc
    obtain ⟨u, hu, hc⟩ := List.mem_flatten.mp hc
    obtain ⟨d, hd, rfl⟩ := hws u hu
    rwa [List.mem_singleton.mp hc]
  · intro h
    refine ⟨w.map fun c => [c], by simp [← List.flatMap_def], fun u hu => ?_⟩
    obtain ⟨c, hc, rfl⟩ := List.mem_map.mp hu
    exact ⟨c, h c hc, rfl⟩

theorem mem_run : w ∈ run p ↔ w ≠ [] ∧ ∀ c ∈ w, p c = true := by
  rw [run, Language.mem_mul]
  constructor
  · rintro ⟨_, ⟨c, hc, rfl⟩, v, hv, rfl⟩
    exact ⟨List.cons_ne_nil c v, List.forall_mem_cons.mpr ⟨hc, mem_many.mp hv⟩⟩
  · rintro ⟨hne, h⟩
    obtain ⟨c, v, rfl⟩ := List.exists_cons_of_ne_nil hne
    obtain ⟨hc, hv⟩ := List.forall_mem_cons.mp h
    exact ⟨[c], ⟨c, hc, rfl⟩, v, mem_many.mpr hv, rfl⟩

theorem mem_pow : w ∈ one p ^ n ↔ w.length = n ∧ ∀ c ∈ w, p c = true := by
  induction n generalizing w with
  | zero =>
    rw [pow_zero, Language.mem_one, List.length_eq_zero_iff]
    exact ⟨fun h => ⟨h, by simp [h]⟩, And.left⟩
  | succ n ih =>
    rw [pow_succ', Language.mem_mul]
    constructor
    · rintro ⟨_, ⟨c, hc, rfl⟩, v, hv, rfl⟩
      obtain ⟨hlength, hall⟩ := ih.mp hv
      exact ⟨by simp [hlength], List.forall_mem_cons.mpr ⟨hc, hall⟩⟩
    · rintro ⟨hlength, h⟩
      obtain ⟨c, v, rfl⟩ := List.exists_cons_of_length_eq_add_one hlength
      obtain ⟨hc, hv⟩ := List.forall_mem_cons.mp h
      exact ⟨[c], ⟨c, hc, rfl⟩, v, ih.mpr ⟨by simpa using hlength, hv⟩, rfl⟩

/-! ## The patterns -/

/-- Blanks. -/
def blank : CharLanguage := run isBlank

/-- A comment, up to the end of its line. -/
def comment : CharLanguage := text ['#'] * (one fun c => !isLineBreak c)∗

/-- A character given by its code. -/
def unicodeEscape : CharLanguage :=
  text ['\\', 'u'] * one isHexDigit ^ 4 + text ['\\', 'U'] * one isHexDigit ^ 8

/-- A word. -/
def word : CharLanguage :=
  (one isIdentifierStart + unicodeEscape) * (one isIdentifierPart + unicodeEscape)∗

/-- An exponent of ten. -/
def exponent : CharLanguage :=
  one (fun c => c == 'e' || c == 'E') * optional (one fun c => c == '+' || c == '-') * run isDigit

/-- A number in one of its five forms. -/
def number : CharLanguage :=
  run isDigit +
  run isDigit * text ['.'] * (one isDigit)∗ * optional exponent +
  text ['.'] * run isDigit * optional exponent +
  run isDigit * exponent +
  text ['0'] * one (fun c => c == 'x' || c == 'X') * run isHexDigit

end CharPattern

/-! ## Extents -/

/-- The extent is the length of the longest word of the language at the head of a text, zero if none
stands there. -/
structure Measures (l : CharLanguage) (extent : List Char → Nat) : Prop where
  member : ∀ cs, extent cs ≠ 0 → cs.take (extent cs) ∈ l
  longest : ∀ w ∈ l, ∀ rest, w.length ≤ extent (w ++ rest)

open CharPattern

theorem leading_append_of_forall (h : ∀ c ∈ w, p c = true) (rest : List Char) :
    leading p (w ++ rest) = w.length + leading p rest := by
  rw [leading, List.takeWhile_append_of_pos h, List.length_append, leading]

theorem leading_of_forall (h : ∀ c ∈ w, p c = true) : leading p w = w.length := by
  rw [leading, List.takeWhile_eq_self_iff.mpr h]

theorem leading_cons_of_false (h : p c = false) (cs : List Char) : leading p (c :: cs) = 0 := by
  rw [leading_cons, h, if_neg Bool.false_ne_true]

theorem forall_mem_take_leading (p : Char → Bool) (cs : List Char) :
    ∀ c ∈ cs.take (leading p cs), p c = true := by
  rw [take_leading]
  exact fun c hc => List.mem_takeWhile_imp hc

theorem take_ne_nil_of_extent {extent : Nat} (h : extent ≠ 0) (hle : extent ≤ cs.length) :
    cs.take extent ≠ [] := by
  rw [ne_eq, List.take_eq_nil_iff, not_or]
  refine ⟨h, ?_⟩
  rintro rfl
  exact h (Nat.le_zero.mp hle)

theorem measures_run (p : Char → Bool) : Measures (run p) (leading p) where
  member cs h := mem_run.mpr
    ⟨take_ne_nil_of_extent h (leading_le_length p cs), forall_mem_take_leading p cs⟩
  longest w hw rest := by
    rw [leading_append_of_forall (mem_run.mp hw).2]
    exact Nat.le_add_right _ _

theorem measures_blank : Measures blank blankExtent := measures_run isBlank

theorem measures_comment : Measures comment commentExtent where
  member cs h := by
    cases cs with
    | nil => exact absurd rfl h
    | cons c cs =>
      by_cases hc : c = '#'
      · subst hc
        rw [commentExtent, Nat.add_comm, List.take_succ_cons]
        exact Language.append_mem_mul (mem_text.mpr rfl)
          (mem_many.mpr (forall_mem_take_leading _ cs))
      · simp [commentExtent, hc] at h
  longest w hw rest := by
    obtain ⟨_, rfl, v, hv, rfl⟩ := Language.mem_mul.mp hw
    have hleading := leading_append_of_forall (mem_many.mp hv) rest
    simp only [List.cons_append, List.nil_append, commentExtent, hleading, List.length_cons]
    omega

/-! ## Words -/

theorem mem_unicodeEscape : w ∈ unicodeEscape ↔
    (∃ ds, w = '\\' :: 'u' :: ds ∧ ds.length = 4 ∧ ∀ c ∈ ds, isHexDigit c = true) ∨
    ∃ ds, w = '\\' :: 'U' :: ds ∧ ds.length = 8 ∧ ∀ c ∈ ds, isHexDigit c = true := by
  simp only [unicodeEscape, Language.mem_add, Language.mem_mul, mem_text, mem_pow, exists_eq_left]
  refine or_congr (exists_congr fun ds => ?_) (exists_congr fun ds => ?_) <;>
  exact ⟨fun ⟨h, hw⟩ => ⟨hw.symm, h⟩, fun ⟨hw, h⟩ => ⟨h, hw.symm⟩⟩

theorem leading_take_eq_iff :
    leading p (cs.take n) = n ↔ (cs.take n).length = n ∧ ∀ c ∈ cs.take n, p c = true := by
  constructor
  · intro h
    have hle := leading_le_length p (cs.take n)
    have hall := forall_mem_take_leading p (cs.take n)
    rw [h] at hle hall
    rw [List.take_take, Nat.min_self] at hall
    exact ⟨Nat.le_antisymm (List.length_take_le n cs) hle, hall⟩
  · rintro ⟨hlength, hall⟩
    rw [leading_of_forall hall, hlength]

theorem codeEscapeExtent_of_mem (h : w ∈ unicodeEscape) (rest : List Char) :
    codeEscapeExtent (w ++ rest) = w.length := by
  rcases mem_unicodeEscape.mp h with ⟨ds, rfl, hlength, hall⟩ | ⟨ds, rfl, hlength, hall⟩ <;>
  simp [codeEscapeExtent_cons, leading_of_forall hall, hlength]

theorem mem_unicodeEscape_of_extent (h : codeEscapeExtent cs ≠ 0) :
    cs.take (codeEscapeExtent cs) ∈ unicodeEscape := by
  match cs with
  | [] => exact absurd rfl h
  | [c] => exact absurd (by simp [codeEscapeExtent]) h
  | c :: d :: cs =>
    rw [codeEscapeExtent_cons] at h ⊢
    split_ifs at h ⊢ with hsmall hfour hlarge height
    · obtain ⟨rfl, rfl⟩ := hsmall
      exact mem_unicodeEscape.mpr (Or.inl ⟨cs.take 4, rfl, leading_take_eq_iff.mp hfour⟩)
    · exact absurd rfl h
    · obtain ⟨rfl, rfl⟩ := hlarge
      exact mem_unicodeEscape.mpr (Or.inr ⟨cs.take 8, rfl, leading_take_eq_iff.mp height⟩)
    · exact absurd rfl h
    · exact absurd rfl h

theorem exists_cons_of_mem_item (h : w ∈ one p + unicodeEscape) :
    ∃ c cs, w = c :: cs ∧ (p c = true ∨ c = '\\') := by
  rcases h with ⟨c, hc, rfl⟩ | h
  · exact ⟨c, [], rfl, Or.inl hc⟩
  · rcases mem_unicodeEscape.mp h with ⟨ds, rfl, -⟩ | ⟨ds, rfl, -⟩ <;>
      exact ⟨'\\', _, rfl, Or.inr rfl⟩

/-- At the head of a text that begins with an item, the extent is that of the item. -/
theorem wordItemExtent_of_mem (hp : p '\\' = false) (h : w ∈ one p + unicodeEscape) (rest : List Char) :
    wordItemExtent p (w ++ rest) = w.length := by
  rcases h with ⟨c, hc, rfl⟩ | h
  · simp [wordItemExtent, hc]
  · have hextent := codeEscapeExtent_of_mem h rest
    rcases mem_unicodeEscape.mp h with ⟨ds, rfl, -⟩ | ⟨ds, rfl, -⟩ <;>
    simpa [wordItemExtent, hp] using hextent

theorem mem_item_of_extent (h : wordItemExtent p cs ≠ 0) :
    cs.take (wordItemExtent p cs) ∈ one p + unicodeEscape := by
  cases cs with
  | nil => exact absurd rfl h
  | cons c cs =>
    rw [wordItemExtent] at h ⊢
    split_ifs at h ⊢ with hc
    · exact Or.inl ⟨c, hc, rfl⟩
    · exact Or.inr (mem_unicodeEscape_of_extent h)

/-- The rest of the item at hand, and the items after it. -/
theorem wordTailExtent_eq (h : n ≤ cs.length) :
    wordTailExtent n cs = n + wordTailExtent 0 (cs.drop n) := by
  induction cs generalizing n with
  | nil =>
    obtain rfl : n = 0 := Nat.le_zero.mp h
    rfl
  | cons c cs ih =>
    cases n with
    | zero => rw [List.drop_zero, Nat.zero_add]
    | succ n =>
      rw [wordTailExtent, ih (Nat.le_of_succ_le_succ h), List.drop_succ_cons]
      omega

theorem wordTailExtent_of_item (h : wordItemExtent isIdentifierPart cs ≠ 0) :
    wordTailExtent 0 cs = wordItemExtent isIdentifierPart cs +
      wordTailExtent 0 (cs.drop (wordItemExtent isIdentifierPart cs)) := by
  have hle := wordItemExtent_le_length isIdentifierPart cs
  rw [← wordTailExtent_eq hle]
  cases cs with
  | nil => exact absurd rfl h
  | cons c cs =>
    obtain ⟨k, hk⟩ := Nat.exists_eq_succ_of_ne_zero h
    simp only [wordTailExtent, hk]

theorem wordTailExtent_of_no_item (h : wordItemExtent isIdentifierPart cs = 0) :
    wordTailExtent 0 cs = 0 := by
  cases cs with
  | nil => rfl
  | cons c cs => simp only [wordTailExtent, h]

theorem mem_items_of_extent (cs : List Char) :
    cs.take (wordTailExtent 0 cs) ∈ (one isIdentifierPart + unicodeEscape)∗ := by
  induction hlength : cs.length using Nat.strong_induction_on generalizing cs with
  | _ length ih =>
    by_cases h : wordItemExtent isIdentifierPart cs = 0
    · rw [wordTailExtent_of_no_item h]
      exact Language.nil_mem_kstar _
    · have hle := wordItemExtent_le_length isIdentifierPart cs
      rw [wordTailExtent_of_item h, List.take_add]
      refine append_mem_kstar (mem_item_of_extent h) (ih _ ?_ _ rfl)
      rw [List.length_drop]
      omega

theorem length_le_wordTailExtent (h : w ∈ (one isIdentifierPart + unicodeEscape)∗) (rest : List Char) :
    w.length ≤ wordTailExtent 0 (w ++ rest) := by
  obtain ⟨items, rfl, hitems⟩ := Language.mem_kstar.mp h
  clear h
  induction items with
  | nil => exact Nat.zero_le _
  | cons item items ih =>
    obtain ⟨hitem, hitems⟩ := List.forall_mem_cons.mp hitems
    have hextent := wordItemExtent_of_mem (by decide) hitem (items.flatten ++ rest)
    have hrest := ih hitems
    rw [List.flatten_cons, List.append_assoc, List.length_append]
    by_cases hempty : item = []
    · subst hempty
      simpa using hrest
    · have hne := mt List.length_eq_zero_iff.mp hempty
      rw [wordTailExtent_of_item (by rwa [hextent]), hextent, List.drop_left]
      exact Nat.add_le_add_left hrest _

theorem wordExtent_eq (cs : List Char) : wordExtent cs = if wordItemExtent isIdentifierStart cs = 0
    then 0 else wordItemExtent isIdentifierStart cs +
      wordTailExtent 0 (cs.drop (wordItemExtent isIdentifierStart cs)) := by
  rw [← wordTailExtent_eq (wordItemExtent_le_length _ cs), wordExtent]
  split
  · next h => rw [if_pos h]
  · next h => rw [if_neg (by omega), h]

theorem measures_word : Measures word wordExtent where
  member cs h := by
    rw [wordExtent_eq] at h ⊢
    split_ifs at h ⊢ with hitem
    · exact absurd rfl h
    · rw [List.take_add]
      exact Language.append_mem_mul (mem_item_of_extent hitem) (mem_items_of_extent _)
  longest w hw rest := by
    obtain ⟨item, hitem, items, hitems, rfl⟩ := Language.mem_mul.mp hw
    have hextent := wordItemExtent_of_mem (by decide) hitem (items ++ rest)
    have hne : item.length ≠ 0 := by
      obtain ⟨c, cs, rfl, -⟩ := exists_cons_of_mem_item hitem
      exact Nat.succ_ne_zero _
    rw [List.append_assoc, wordExtent_eq, hextent, if_neg hne, List.drop_left, List.length_append]
    exact Nat.add_le_add_left (length_le_wordTailExtent hitems rest) _

theorem exists_cons_of_mem_word (h : w ∈ word) :
    ∃ c cs, w = c :: cs ∧ (isIdentifierStart c = true ∨ c = '\\') := by
  obtain ⟨item, hitem, items, -, rfl⟩ := Language.mem_mul.mp h
  obtain ⟨c, cs, rfl, hc⟩ := exists_cons_of_mem_item hitem
  exact ⟨c, cs ++ items, rfl, hc⟩

/-! ## Numbers -/

theorem exists_cons_of_mem_digits (h : w ∈ run isDigit) :
    ∃ c cs, w = c :: cs ∧ isDigit c = true := by
  obtain ⟨hne, hall⟩ := mem_run.mp h
  obtain ⟨c, cs, rfl⟩ := List.exists_cons_of_ne_nil hne
  exact ⟨c, cs, rfl, hall c List.mem_cons_self⟩

/-- A number begins with a digit, or with a point that does not stand alone. -/
theorem exists_cons_of_mem_number (h : w ∈ number) :
    ∃ c cs, w = c :: cs ∧ (isDigit c = true ∨ c = '.' ∧ cs ≠ []) := by
  simp only [number, mul_assoc] at h
  rcases h with (((h | h) | h) | h) | h
  · obtain ⟨c, cs, rfl, hc⟩ := exists_cons_of_mem_digits h
    exact ⟨c, cs, rfl, Or.inl hc⟩
  · obtain ⟨ds, hds, v, -, rfl⟩ := Language.mem_mul.mp h
    obtain ⟨c, cs, rfl, hc⟩ := exists_cons_of_mem_digits hds
    exact ⟨c, cs ++ v, rfl, Or.inl hc⟩
  · obtain ⟨_, rfl, v, hv, rfl⟩ := Language.mem_mul.mp h
    obtain ⟨ds, hds, e, -, rfl⟩ := Language.mem_mul.mp hv
    have hne := List.append_ne_nil_of_left_ne_nil (mem_run.mp hds).1 e
    exact ⟨'.', ds ++ e, rfl, Or.inr ⟨rfl, hne⟩⟩
  · obtain ⟨ds, hds, v, -, rfl⟩ := Language.mem_mul.mp h
    obtain ⟨c, cs, rfl, hc⟩ := exists_cons_of_mem_digits hds
    exact ⟨c, cs ++ v, rfl, Or.inl hc⟩
  · obtain ⟨_, rfl, v, -, rfl⟩ := Language.mem_mul.mp h
    exact ⟨'0', v, rfl, Or.inl (by decide)⟩

theorem ne_sign_of_isDigit (h : isDigit c = true) : (c == '+' || c == '-') = false := by
  rw [Bool.or_eq_false_iff, beq_eq_false_iff_ne, beq_eq_false_iff_ne]
  constructor
  · rintro rfl
    exact absurd h (by decide)
  · rintro rfl
    exact absurd h (by decide)

theorem exponentExtent_of_sign {s : Char} (hc : (c == 'e' || c == 'E') = true)
    (hs : (s == '+' || s == '-') = true) (ds : List Char) : exponentExtent (c :: s :: ds) =
      if leading isDigit ds = 0 then 0 else 2 + leading isDigit ds := by
  simp only [exponentExtent, hc, hs, if_true]

theorem exponentExtent_of_digits (hc : (c == 'e' || c == 'E') = true)
    (h : ∀ s ∈ cs.head?, (s == '+' || s == '-') = false) : exponentExtent (c :: cs) =
      if leading isDigit cs = 0 then 0 else 1 + leading isDigit cs := by
  cases cs with
  | nil => simp [exponentExtent, leading]
  | cons s ds => simp [exponentExtent, hc, h s rfl]

theorem mem_exponent : w ∈ exponent ↔ ∃ c, (c == 'e' || c == 'E') = true ∧
    ∃ sign, (sign = [] ∨ ∃ s, (s == '+' || s == '-') = true ∧ sign = [s]) ∧
      ∃ ds ∈ run isDigit, w = c :: (sign ++ ds) := by
  rw [exponent, Language.mem_mul]
  constructor
  · rintro ⟨v, hv, ds, hds, rfl⟩
    obtain ⟨_, ⟨c, hc, rfl⟩, sign, hsign, rfl⟩ := Language.mem_mul.mp hv
    exact ⟨c, hc, sign, hsign, ds, hds, rfl⟩
  · rintro ⟨c, hc, sign, hsign, ds, hds, rfl⟩
    exact ⟨c :: sign, Language.append_mem_mul (a := [c]) ⟨c, hc, rfl⟩ hsign, ds, hds, rfl⟩

theorem head?_ne_sign_of_mem_run {ds : List Char} (hds : ds ∈ run isDigit) (rest : List Char) :
    ∀ s ∈ (ds ++ rest).head?, (s == '+' || s == '-') = false := by
  obtain ⟨d, ds, rfl, hd⟩ := exists_cons_of_mem_digits hds
  intro s hs
  obtain rfl : d = s := Option.some.inj hs
  exact ne_sign_of_isDigit hd

theorem measures_exponent : Measures exponent exponentExtent where
  member cs h := by
    cases cs with
    | nil => exact absurd rfl h
    | cons c cs =>
      by_cases hc : (c == 'e' || c == 'E') = true
      · by_cases hs : ∃ s ∈ cs.head?, (s == '+' || s == '-') = true
        · obtain ⟨s, hhead, hs⟩ := hs
          obtain ⟨ds, rfl⟩ := List.head?_eq_some_iff.mp hhead
          rw [exponentExtent_of_sign hc hs] at h ⊢
          split_ifs at h ⊢ with hdigits
          · exact absurd rfl h
          · rw [Nat.add_comm]
            exact mem_exponent.mpr ⟨c, hc, [s], Or.inr ⟨s, hs, rfl⟩, _,
              (measures_run isDigit).member ds hdigits, rfl⟩
        · have hs : ∀ s ∈ cs.head?, (s == '+' || s == '-') = false := by simpa using hs
          rw [exponentExtent_of_digits hc hs] at h ⊢
          split_ifs at h ⊢ with hdigits
          · exact absurd rfl h
          · rw [Nat.add_comm]
            exact mem_exponent.mpr ⟨c, hc, [], Or.inl rfl, _,
              (measures_run isDigit).member cs hdigits, rfl⟩
      · simp [exponentExtent, hc] at h
  longest w hw rest := by
    obtain ⟨c, hc, sign, hsign, ds, hds, rfl⟩ := mem_exponent.mp hw
    have hleading := (measures_run isDigit).longest ds hds rest
    have hne := List.length_pos_of_ne_nil (mem_run.mp hds).1
    rcases hsign with rfl | ⟨s, hs, rfl⟩
    · rw [List.nil_append, List.cons_append,
        exponentExtent_of_digits hc (head?_ne_sign_of_mem_run hds rest), if_neg (by omega),
        List.length_cons]
      omega
    · rw [List.singleton_append, List.cons_append, List.cons_append, exponentExtent_of_sign hc hs,
        if_neg (by omega), List.length_cons, List.length_cons]
      omega

/-- An exponent begins with no digit. -/
theorem leading_of_mem_exponent (h : w ∈ exponent) (rest : List Char) :
    leading isDigit (w ++ rest) = 0 := by
  obtain ⟨c, hc, sign, -, ds, -, rfl⟩ := mem_exponent.mp h
  refine leading_cons_of_false ?_ _
  obtain rfl | rfl : c = 'e' ∨ c = 'E' := by simpa using hc
  · decide
  · decide

theorem mem_optional_take (cs : List Char) : cs.take (exponentExtent cs) ∈ optional exponent := by
  by_cases h : exponentExtent cs = 0
  · rw [h]
    exact mem_optional.mpr (Or.inl rfl)
  · exact mem_optional.mpr (Or.inr (measures_exponent.member cs h))

/-- Digits and an exponent, which may both be missing. -/
theorem length_le_of_digits (hw : ∀ c ∈ w, isDigit c = true) {e : List Char}
    (he : e ∈ optional exponent) (rest : List Char) : w.length + e.length ≤
      leading isDigit (w ++ (e ++ rest)) +
        exponentExtent ((w ++ (e ++ rest)).drop (leading isDigit (w ++ (e ++ rest)))) := by
  rw [leading_append_of_forall hw]
  rcases mem_optional.mp he with rfl | he
  · simp only [List.length_nil]
    omega
  · rw [leading_of_mem_exponent he, Nat.add_zero, List.drop_left]
    exact Nat.add_le_add_left (measures_exponent.longest e he rest) _

theorem fractionExtent_point (cs : List Char) : fractionExtent ('.' :: cs) =
    1 + leading isDigit cs + exponentExtent (cs.drop (leading isDigit cs)) := rfl

/-- A point, with digits and an exponent behind it or not. -/
theorem measures_fraction :
    Measures (text ['.'] * ((one isDigit)∗ * optional exponent)) fractionExtent where
  member cs h := by
    cases cs with
    | nil => exact absurd rfl h
    | cons c cs =>
      by_cases hc : c = '.'
      · subst hc
        rw [fractionExtent_point, Nat.add_assoc, Nat.add_comm, List.take_succ_cons, List.take_add]
        exact Language.append_mem_mul (a := ['.']) rfl (Language.append_mem_mul
          (mem_many.mpr (forall_mem_take_leading isDigit cs)) (mem_optional_take _))
      · simp [fractionExtent, hc] at h
  longest w hw rest := by
    obtain ⟨_, rfl, v, hv, rfl⟩ := Language.mem_mul.mp hw
    obtain ⟨ds, hds, e, he, rfl⟩ := Language.mem_mul.mp hv
    have hle := length_le_of_digits (mem_many.mp hds) he rest
    show ('.' :: (ds ++ e)).length ≤ fractionExtent ('.' :: (ds ++ e ++ rest))
    rw [fractionExtent_point, List.append_assoc, List.length_cons, List.length_append]
    omega

theorem decimalExtent_of_run (hw : w ∈ run isDigit) (hrest : leading isDigit rest = 0) :
    decimalExtent (w ++ rest) =
      w.length + if fractionExtent rest = 0 then exponentExtent rest else fractionExtent rest := by
  have hleading := leading_append_of_forall (mem_run.mp hw).2 rest
  have hne := List.length_pos_of_ne_nil (mem_run.mp hw).1
  rw [hrest, Nat.add_zero] at hleading
  rw [decimalExtent_of_digits (by omega), hleading, List.drop_left]

theorem fractionExtent_of_mem_exponent (h : w ∈ exponent) (rest : List Char) :
    fractionExtent (w ++ rest) = 0 := by
  obtain ⟨c, hc, sign, -, ds, -, rfl⟩ := mem_exponent.mp h
  have hpoint : c ≠ '.' := by
    rintro rfl
    exact absurd hc (by decide)
  simp [fractionExtent, hpoint]

/-- What begins with a point has digits behind it. -/
theorem mem_of_point (hdigits : leading isDigit cs = 0) (h : decimalExtent cs ≠ 0) :
    cs.take (decimalExtent cs) ∈ text ['.'] * (run isDigit * optional exponent) := by
  cases cs with
  | nil => exact absurd rfl h
  | cons c cs =>
    rw [decimalExtent_of_point hdigits] at h ⊢
    split_ifs at h ⊢ with hpoint
    · obtain ⟨rfl, hrun⟩ := hpoint
      rw [fractionExtent_point, Nat.add_assoc, Nat.add_comm, List.take_succ_cons, List.take_add]
      exact Language.append_mem_mul (a := ['.']) rfl (Language.append_mem_mul
        ((measures_run isDigit).member cs hrun) (mem_optional_take _))
    · exact absurd rfl h

theorem length_le_of_point {ds e : List Char} (hds : ds ∈ run isDigit) (he : e ∈ optional exponent)
    (rest : List Char) :
    ('.' :: (ds ++ e)).length ≤ decimalExtent ('.' :: (ds ++ e ++ rest)) := by
  have hle := measures_fraction.longest _ (Language.append_mem_mul (a := ['.']) rfl
    (Language.append_mem_mul (mem_many.mpr (mem_run.mp hds).2) he)) rest
  have hpoint : leading isDigit ('.' :: (ds ++ e ++ rest)) = 0 :=
    leading_cons_of_false (by decide) _
  have hdigits := (measures_run isDigit).longest ds hds (e ++ rest)
  have hne := List.length_pos_of_ne_nil (mem_run.mp hds).1
  rw [decimalExtent_of_point hpoint, if_pos ⟨rfl, by rw [List.append_assoc]; omega⟩]
  exact hle

theorem measures_decimal : Measures (run isDigit +
    run isDigit * (text ['.'] * ((one isDigit)∗ * optional exponent)) +
    text ['.'] * (run isDigit * optional exponent) + run isDigit * exponent) decimalExtent where
  member cs h := by
    by_cases hdigits : leading isDigit cs = 0
    · exact Or.inl (Or.inr (mem_of_point hdigits h))
    · have hrun := (measures_run isDigit).member cs hdigits
      rw [decimalExtent_of_digits hdigits, List.take_add]
      split_ifs with hfraction
      · by_cases hexponent : exponentExtent (cs.drop (leading isDigit cs)) = 0
        · rw [hexponent, List.take_zero, List.append_nil]
          exact Or.inl (Or.inl (Or.inl hrun))
        · exact Or.inr (Language.append_mem_mul hrun (measures_exponent.member _ hexponent))
      · exact Or.inl (Or.inl (Or.inr
          (Language.append_mem_mul hrun (measures_fraction.member _ hfraction))))
  longest w hw rest := by
    rcases hw with ((hw | hw) | hw) | hw
    · have hle := (measures_run isDigit).longest w hw rest
      have hne := List.length_pos_of_ne_nil (mem_run.mp hw).1
      rw [decimalExtent_of_digits (by omega)]
      omega
    · obtain ⟨ds, hds, v, hv, rfl⟩ := Language.mem_mul.mp hw
      have hle := measures_fraction.longest v hv rest
      obtain ⟨_, rfl, v, -, rfl⟩ := Language.mem_mul.mp hv
      have hpoint : leading isDigit (['.'] ++ v ++ rest) = 0 := leading_cons_of_false (by decide) _
      rw [List.length_append, List.length_singleton] at hle
      rw [List.append_assoc, decimalExtent_of_run hds hpoint, if_neg (by omega),
        List.length_append, List.length_append, List.length_singleton]
      omega
    · obtain ⟨_, rfl, v, hv, rfl⟩ := Language.mem_mul.mp hw
      obtain ⟨ds, hds, e, he, rfl⟩ := Language.mem_mul.mp hv
      exact length_le_of_point hds he rest
    · obtain ⟨ds, hds, e, he, rfl⟩ := Language.mem_mul.mp hw
      have hle := measures_exponent.longest e he rest
      rw [List.append_assoc, decimalExtent_of_run hds (leading_of_mem_exponent he rest),
        if_pos (fractionExtent_of_mem_exponent he rest), List.length_append]
      omega

theorem measures_hex :
    Measures (text ['0'] * one (fun c => c == 'x' || c == 'X') * run isHexDigit) hexExtent where
  member cs h := by
    match cs with
    | [] => exact absurd rfl h
    | [c] => exact absurd (by simp [hexExtent]) h
    | c :: x :: cs =>
      rw [hexExtent_cons] at h ⊢
      split_ifs at h ⊢ with hhead hdigits
      · exact absurd rfl h
      · obtain ⟨rfl, hx⟩ := hhead
        rw [Nat.add_comm]
        exact Language.append_mem_mul (a := ['0', x]) (Language.append_mem_mul (a := ['0']) rfl
          ⟨x, hx, rfl⟩) ((measures_run isHexDigit).member cs hdigits)
      · exact absurd rfl h
  longest w hw rest := by
    obtain ⟨v, hv, ds, hds, rfl⟩ := Language.mem_mul.mp hw
    obtain ⟨_, rfl, _, ⟨x, hx, rfl⟩, rfl⟩ := Language.mem_mul.mp hv
    have hle := (measures_run isHexDigit).longest ds hds rest
    have hne := List.length_pos_of_ne_nil (mem_run.mp hds).1
    show ('0' :: x :: ds).length ≤ hexExtent ('0' :: x :: (ds ++ rest))
    rw [hexExtent_cons, if_pos ⟨rfl, hx⟩, if_neg (by omega), List.length_cons, List.length_cons]
    omega

theorem Measures.max {m : CharLanguage} {f f' : List Char → Nat} (h : Measures l f)
    (h' : Measures m f') : Measures (l + m) fun cs => max (f cs) (f' cs) where
  member cs hne := by
    rcases max_choice (f cs) (f' cs) with heq | heq
    · rw [heq] at hne ⊢
      exact Or.inl (h.member cs hne)
    · rw [heq] at hne ⊢
      exact Or.inr (h'.member cs hne)
  longest w hw rest := by
    rcases hw with hw | hw
    · exact le_max_of_le_left (h.longest w hw rest)
    · exact le_max_of_le_right (h'.longest w hw rest)

theorem measures_number : Measures number numberExtent := by
  have h : Measures _ numberExtent := measures_hex.max measures_decimal
  rw [add_comm] at h
  simpa only [number, mul_assoc] using h

/-! ## Characters -/

/-- The words of the language consist of characters with the property. -/
def Over (p : Char → Bool) (l : CharLanguage) : Prop := ∀ w ∈ l, ∀ c ∈ w, p c = true

namespace Over

variable {q : Char → Bool} {m : CharLanguage}

theorem one (h : ∀ c, q c = true → p c = true) : Over p (CharPattern.one q) := by
  rintro _ ⟨c, hc, rfl⟩ d hd
  rw [List.mem_singleton.mp hd]
  exact h c hc

theorem text (h : cs.all p = true) : Over p (CharPattern.text cs) := by
  rintro _ rfl
  exact List.all_eq_true.mp h

theorem add (hl : Over p l) (hm : Over p m) : Over p (l + m) := by
  rintro w (hw | hw)
  · exact hl w hw
  · exact hm w hw

theorem mul (hl : Over p l) (hm : Over p m) : Over p (l * m) := by
  intro w hw c hc
  obtain ⟨u, hu, v, hv, rfl⟩ := Language.mem_mul.mp hw
  rcases List.mem_append.mp hc with hc | hc
  · exact hl u hu c hc
  · exact hm v hv c hc

theorem epsilon : Over p 1 := by
  rintro _ rfl c hc
  cases hc

theorem pow (h : Over p l) : Over p (l ^ n) := by
  induction n with
  | zero =>
    rw [pow_zero]
    exact epsilon
  | succ n ih =>
    rw [pow_succ]
    exact ih.mul h

theorem kstar (h : Over p l) : Over p l∗ := by
  intro w hw c hc
  obtain ⟨ws, rfl, hws⟩ := Language.mem_kstar.mp hw
  obtain ⟨u, hu, hc⟩ := List.mem_flatten.mp hc
  exact h u (hws u hu) c hc

theorem optional (h : Over p l) : Over p (CharPattern.optional l) := epsilon.add h

theorem run (h : ∀ c, q c = true → p c = true) : Over p (CharPattern.run q) := (one h).mul (one h).kstar

end Over

/-- What has no line break among its characters consists of other characters. -/
theorem not_isLineBreak_of (hall : ['\r', '\n', '\u0085', '\u2028', '\u2029'].all (!p ·) = true)
    (c : Char) (h : p c = true) : (!isLineBreak c) = true := by
  rw [Bool.not_eq_true', Bool.eq_false_iff]
  intro hbreak
  have hnot := List.all_eq_true.mp hall c (by simpa [isLineBreak, or_assoc] using hbreak)
  simp [h] at hnot

theorem over_unicodeEscape : Over (!isLineBreak ·) unicodeEscape :=
  ((Over.text (by decide)).mul (Over.one (not_isLineBreak_of (by decide))).pow).add
    ((Over.text (by decide)).mul (Over.one (not_isLineBreak_of (by decide))).pow)

theorem over_word : Over (!isLineBreak ·) word :=
  ((Over.one (not_isLineBreak_of (by decide +kernel))).add over_unicodeEscape).mul
    ((Over.one (not_isLineBreak_of (by decide +kernel))).add over_unicodeEscape).kstar

theorem over_exponent : Over (!isLineBreak ·) exponent :=
  ((Over.one (not_isLineBreak_of (by decide))).mul
    (Over.one (not_isLineBreak_of (by decide))).optional).mul
      (Over.run (not_isLineBreak_of (by decide)))

theorem over_number : Over (!isLineBreak ·) number := by
  have hdigits : Over (!isLineBreak ·) (run isDigit) := .run (not_isLineBreak_of (by decide))
  have hpoint : Over (!isLineBreak ·) (text ['.']) := .text (by decide)
  have hmany : Over (!isLineBreak ·) (one isDigit)∗ := (Over.one (not_isLineBreak_of (by decide))).kstar
  have hhex : Over (!isLineBreak ·) (text ['0'] * one (fun c => c == 'x' || c == 'X') * run isHexDigit) :=
    ((Over.text (by decide)).mul (.one (not_isLineBreak_of (by decide)))).mul
      (.run (not_isLineBreak_of (by decide)))
  exact (((hdigits.add (((hdigits.mul hpoint).mul hmany).mul over_exponent.optional)).add
    ((hpoint.mul hdigits).mul over_exponent.optional)).add (hdigits.mul over_exponent)).add hhex

theorem over_comment : Over (!isLineBreak ·) comment :=
  (Over.text (by decide)).mul (Over.one fun _ h => h).kstar

end FourGL
