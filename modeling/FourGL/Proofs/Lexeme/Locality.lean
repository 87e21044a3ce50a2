import FourGL.Lexeme.Split
import Mathlib.Data.List.Basic
import Mathlib.Order.MinMax
import Mathlib.Tactic.SplitIfs

/-!
# Lexemes and line feeds

Lexemes are cut from the left, so it may matter what follows. No lexeme goes on after a line feed, though,
but for a blank and for a quotation that may span lines.

**Theorem (`head_append`).** Any other lexeme at the head of a line is the same whatever follows the line.

**Theorem (`head_blank`, `head_quoted`).** Blanks and such quotations are told by how they begin.

All extents of lexemes are counted by character classes without the line feed, or by prefixes without
one. So each of them is the same for a line and for the line with what follows.
-/

namespace FourGL

open Text

/-- What may follow a line: nothing, or a line feed and further text. -/
inductive EndsLine : List Char → Prop
  | nil : EndsLine []
  | cons (rest : List Char) : EndsLine ('\n' :: rest)

variable {p : Char → Bool} {c d : Char} {cs line tail : List Char} {n : Nat}

theorem EndsLine.head?_append_ne (h : EndsLine tail) (hc : c ≠ '\n') (hline : line.head? ≠ some c) :
    (line ++ tail).head? ≠ some c := by
  cases line with
  | cons d line => exact hline
  | nil =>
    intro hhead
    cases h with
    | nil => cases hhead
    | cons rest => exact hc (Option.some.inj hhead).symm

/-! ## Runs of characters -/

theorem leading_le_length (p : Char → Bool) (cs : List Char) : leading p cs ≤ cs.length :=
  (List.takeWhile_sublist p).length_le

theorem take_leading (p : Char → Bool) (cs : List Char) : cs.take (leading p cs) = cs.takeWhile p :=
  List.prefix_iff_eq_take.mp (List.takeWhile_prefix p) |>.symm

theorem leading_cons (p : Char → Bool) (c : Char) (cs : List Char) :
    leading p (c :: cs) = if p c then leading p cs + 1 else 0 := by
  simp only [leading, List.takeWhile_cons]
  split_ifs <;> rfl

theorem leading_endsLine (hp : p '\n' = false) (h : EndsLine tail) : leading p tail = 0 := by
  cases h with
  | nil => rfl
  | cons rest => rw [leading_cons, hp, if_neg Bool.false_ne_true]

theorem leading_append (hp : p '\n' = false) (h : EndsLine tail) (line : List Char) :
    leading p (line ++ tail) = leading p line := by
  induction line with
  | nil => exact leading_endsLine hp h
  | cons c cs ih => rw [List.cons_append, leading_cons, leading_cons, ih]

theorem leading_take (p : Char → Bool) (n : Nat) (cs : List Char) :
    leading p (cs.take n) = min n (leading p cs) := by
  induction cs generalizing n with
  | nil => simp [leading]
  | cons c cs ih =>
    cases n with
    | zero => simp [leading]
    | succ n =>
      rw [List.take_succ_cons, leading_cons, leading_cons, ih]
      split_ifs
      · omega
      · simp

theorem leading_take_append (hp : p '\n' = false) (h : EndsLine tail) (n : Nat) (line : List Char) :
    leading p ((line ++ tail).take n) = leading p (line.take n) := by
  rw [leading_take, leading_take, leading_append hp h]

theorem drop_leading_append (p : Char → Bool) (line tail : List Char) :
    (line ++ tail).drop (leading p line) = line.drop (leading p line) ++ tail :=
  List.drop_append_of_le_length (leading_le_length p line)

/-! ## Comments and words -/

theorem commentExtent_append (h : EndsLine tail) (line : List Char) :
    commentExtent (line ++ tail) = commentExtent line := by
  cases line with
  | nil => cases h <;> rfl
  | cons c cs =>
    by_cases hc : c = '#'
    · subst hc
      have hrest : leading (!isLineBreak ·) (cs ++ tail) = leading (!isLineBreak ·) cs :=
        leading_append (by decide) h cs
      simp only [List.cons_append, commentExtent, hrest]
    · simp [commentExtent, hc]

theorem codeEscapeExtent_cons (c d : Char) (cs : List Char) : codeEscapeExtent (c :: d :: cs) =
    if c = '\\' ∧ d = 'u' then if leading isHexDigit (cs.take 4) = 4 then 6 else 0
    else if c = '\\' ∧ d = 'U' then if leading isHexDigit (cs.take 8) = 8 then 10 else 0
    else 0 := by
  unfold codeEscapeExtent
  split
  · next h =>
    cases h
    simp
  · next h =>
    cases h
    simp
  · next hsmall hlarge =>
    rw [if_neg, if_neg]
    · rintro ⟨rfl, rfl⟩
      exact hlarge cs rfl
    · rintro ⟨rfl, rfl⟩
      exact hsmall cs rfl

theorem codeEscapeExtent_append (h : EndsLine tail) (line : List Char) :
    codeEscapeExtent (line ++ tail) = codeEscapeExtent line := by
  match line with
  | [] => cases h <;> rfl
  | [c] =>
    cases h with
    | nil => rfl
    | cons rest =>
      rw [List.singleton_append, codeEscapeExtent_cons]
      simp [codeEscapeExtent]
  | c :: d :: cs =>
    rw [List.cons_append, List.cons_append, codeEscapeExtent_cons, codeEscapeExtent_cons,
      leading_take_append (by decide) h, leading_take_append (by decide) h]

theorem codeEscapeExtent_le_length (cs : List Char) : codeEscapeExtent cs ≤ cs.length := by
  match cs with
  | [] => simp [codeEscapeExtent]
  | [c] => simp [codeEscapeExtent]
  | c :: d :: cs =>
    have hlength := leading_le_length isHexDigit cs
    rw [codeEscapeExtent_cons, leading_take, leading_take, List.length_cons, List.length_cons]
    split_ifs <;> omega

theorem wordItemExtent_append (hp : p '\n' = false) (h : EndsLine tail) (line : List Char) :
    wordItemExtent p (line ++ tail) = wordItemExtent p line := by
  cases line with
  | nil =>
    cases h with
    | nil => rfl
    | cons rest => simp [wordItemExtent, hp, codeEscapeExtent]
  | cons c cs =>
    have hescape := codeEscapeExtent_append h (c :: cs)
    rw [List.cons_append] at hescape ⊢
    simp only [wordItemExtent, hescape]

theorem wordItemExtent_le_length (p : Char → Bool) (cs : List Char) :
    wordItemExtent p cs ≤ cs.length := by
  cases cs with
  | nil => exact Nat.le_refl _
  | cons c cs =>
    simp only [wordItemExtent]
    split_ifs
    · simp
    · exact codeEscapeExtent_le_length _

theorem wordTailExtent_append (h : EndsLine tail) (line : List Char) (hn : n ≤ line.length) :
    wordTailExtent n (line ++ tail) = wordTailExtent n line := by
  induction line generalizing n with
  | nil =>
    obtain rfl : n = 0 := Nat.le_zero.mp hn
    cases h with
    | nil => rfl
    | cons rest =>
      have hitem : wordItemExtent isIdentifierPart ('\n' :: rest) = 0 :=
        wordItemExtent_append (by decide) (.cons rest) []
      simp [wordTailExtent, hitem]
  | cons c cs ih =>
    cases n with
    | succ n =>
      rw [List.cons_append, wordTailExtent, wordTailExtent, ih (Nat.le_of_succ_le_succ hn)]
    | zero =>
      have hitem := wordItemExtent_append (p := isIdentifierPart) (by decide) h (c :: cs)
      have hle := wordItemExtent_le_length isIdentifierPart (c :: cs)
      rw [List.cons_append] at hitem ⊢
      simp only [wordTailExtent, hitem]
      cases hk : wordItemExtent isIdentifierPart (c :: cs) with
      | zero => rfl
      | succ k =>
        rw [hk] at hle
        show 1 + _ = 1 + _
        rw [ih (Nat.le_of_succ_le_succ hle)]

theorem wordTailExtent_le_length (n : Nat) (cs : List Char) : wordTailExtent n cs ≤ cs.length := by
  induction cs generalizing n with
  | nil => simp [wordTailExtent]
  | cons c cs ih =>
    cases n with
    | succ n =>
      have := ih n
      rw [wordTailExtent, List.length_cons]
      omega
    | zero =>
      simp only [wordTailExtent, List.length_cons]
      cases wordItemExtent isIdentifierPart (c :: cs) with
      | zero => exact Nat.zero_le _
      | succ k =>
        have := ih k
        show 1 + _ ≤ _
        omega

theorem wordExtent_append (h : EndsLine tail) (line : List Char) :
    wordExtent (line ++ tail) = wordExtent line := by
  have hle := wordItemExtent_le_length isIdentifierStart line
  rw [wordExtent, wordExtent, wordItemExtent_append (by decide) h]
  cases hk : wordItemExtent isIdentifierStart line with
  | zero => rfl
  | succ k =>
    rw [hk] at hle
    exact wordTailExtent_append h line hle

theorem wordExtent_le_length (cs : List Char) : wordExtent cs ≤ cs.length := by
  rw [wordExtent]
  split
  · exact Nat.zero_le _
  · exact wordTailExtent_le_length _ cs

/-! ## Numbers -/

theorem exponentExtent_append (h : EndsLine tail) (line : List Char) :
    exponentExtent (line ++ tail) = exponentExtent line := by
  have hdigits : ∀ ds, leading isDigit (ds ++ tail) = leading isDigit ds := leading_append (by decide) h
  match line with
  | [] => cases h <;> rfl
  | [e] =>
    cases h with
    | nil => rfl
    | cons rest => simp [exponentExtent, leading_cons, show isDigit '\n' = false by decide]
  | e :: s :: ds =>
    have hall := hdigits (s :: ds)
    rw [List.cons_append] at hall
    simp only [List.cons_append, exponentExtent, hdigits, hall]

theorem exponentExtent_le_length (cs : List Char) : exponentExtent cs ≤ cs.length := by
  match cs with
  | [] => simp [exponentExtent]
  | [e] => simp [exponentExtent]
  | e :: s :: ds =>
    have hall := leading_le_length isDigit (s :: ds)
    have hrest := leading_le_length isDigit ds
    simp only [exponentExtent, List.length_cons] at hall ⊢
    split_ifs <;> omega

theorem fractionExtent_append (h : EndsLine tail) (line : List Char) :
    fractionExtent (line ++ tail) = fractionExtent line := by
  cases line with
  | nil => cases h <;> rfl
  | cons c cs =>
    by_cases hc : c = '.'
    · subst hc
      have hdigits : leading isDigit (cs ++ tail) = leading isDigit cs := leading_append (by decide) h cs
      simp only [List.cons_append, fractionExtent, hdigits, drop_leading_append,
        exponentExtent_append h]
    · simp [fractionExtent, hc]

theorem fractionExtent_le_length (cs : List Char) : fractionExtent cs ≤ cs.length := by
  cases cs with
  | nil => simp [fractionExtent]
  | cons c cs =>
    by_cases hc : c = '.'
    · subst hc
      have hdigits := leading_le_length isDigit cs
      have hexponent := exponentExtent_le_length (cs.drop (leading isDigit cs))
      rw [List.length_drop] at hexponent
      simp only [fractionExtent, List.length_cons]
      omega
    · simp [fractionExtent, hc]

theorem hexExtent_cons (c d : Char) (cs : List Char) : hexExtent (c :: d :: cs) =
    if c = '0' ∧ (d == 'x' || d == 'X') = true then
      if leading isHexDigit cs = 0 then 0 else 2 + leading isHexDigit cs
    else 0 := by
  by_cases hc : c = '0'
  · simp [hexExtent, hc]
  · simp [hexExtent, hc]

theorem hexExtent_append (h : EndsLine tail) (line : List Char) :
    hexExtent (line ++ tail) = hexExtent line := by
  match line with
  | [] => cases h <;> rfl
  | [c] =>
    cases h with
    | nil => rfl
    | cons rest =>
      rw [List.singleton_append, hexExtent_cons]
      simp [hexExtent]
  | c :: d :: cs =>
    rw [List.cons_append, List.cons_append, hexExtent_cons, hexExtent_cons,
      leading_append (by decide) h]

theorem hexExtent_le_length (cs : List Char) : hexExtent cs ≤ cs.length := by
  match cs with
  | [] => simp [hexExtent]
  | [c] => simp [hexExtent]
  | c :: d :: cs =>
    have hdigits := leading_le_length isHexDigit cs
    rw [hexExtent_cons, List.length_cons, List.length_cons]
    split_ifs <;> omega

theorem decimalExtent_of_digits (h : leading isDigit cs ≠ 0) : decimalExtent cs =
    leading isDigit cs + if fractionExtent (cs.drop (leading isDigit cs)) = 0 then
      exponentExtent (cs.drop (leading isDigit cs))
    else fractionExtent (cs.drop (leading isDigit cs)) := by
  unfold decimalExtent
  split
  · next hzero => exact absurd hzero h
  · simp only
    split
    · next hzero => rw [if_pos hzero]
    · next hpos => rw [if_neg hpos]

theorem decimalExtent_of_point (h : leading isDigit (c :: cs) = 0) : decimalExtent (c :: cs) =
    if c = '.' ∧ leading isDigit cs ≠ 0 then fractionExtent (c :: cs) else 0 := by
  unfold decimalExtent
  rw [h]
  by_cases hc : c = '.'
  · subst hc
    by_cases hdigits : leading isDigit cs = 0 <;> simp [hdigits]
  · simp [hc]

theorem decimalExtent_append (h : EndsLine tail) (line : List Char) :
    decimalExtent (line ++ tail) = decimalExtent line := by
  have hdigits : ∀ ds, leading isDigit (ds ++ tail) = leading isDigit ds := leading_append (by decide) h
  by_cases hn : leading isDigit line = 0
  · cases line with
    | nil => cases h <;> rfl
    | cons c cs =>
      have hn' := (hdigits (c :: cs)).trans hn
      have hfraction := fractionExtent_append h (c :: cs)
      rw [List.cons_append] at hn' hfraction ⊢
      rw [decimalExtent_of_point hn, decimalExtent_of_point hn', hdigits, hfraction]
  · have hn' : leading isDigit (line ++ tail) ≠ 0 := by rwa [hdigits]
    rw [decimalExtent_of_digits hn, decimalExtent_of_digits hn', hdigits, drop_leading_append,
      fractionExtent_append h, exponentExtent_append h]

theorem decimalExtent_le_length (cs : List Char) : decimalExtent cs ≤ cs.length := by
  by_cases hn : leading isDigit cs = 0
  · cases cs with
    | nil => exact Nat.zero_le _
    | cons c cs =>
      rw [decimalExtent_of_point hn]
      split_ifs
      · exact fractionExtent_le_length _
      · exact Nat.zero_le _
  · have hle := leading_le_length isDigit cs
    have hfraction := fractionExtent_le_length (cs.drop (leading isDigit cs))
    have hexponent := exponentExtent_le_length (cs.drop (leading isDigit cs))
    rw [List.length_drop] at hfraction hexponent
    rw [decimalExtent_of_digits hn]
    split_ifs <;> omega

theorem numberExtent_append (h : EndsLine tail) (line : List Char) :
    numberExtent (line ++ tail) = numberExtent line := by
  rw [numberExtent, numberExtent, hexExtent_append h, decimalExtent_append h]

theorem numberExtent_le_length (cs : List Char) : numberExtent cs ≤ cs.length :=
  max_le (hexExtent_le_length cs) (decimalExtent_le_length cs)

/-! ## Quotations -/

theorem isPrefixOf_append (h : EndsLine tail) {text : List Char} (htext : '\n' ∉ text)
    (line : List Char) : text.isPrefixOf (line ++ tail) = text.isPrefixOf line := by
  induction text generalizing line with
  | nil => rfl
  | cons c text ih =>
    have hc : c ≠ '\n' := fun heq => htext (heq ▸ List.mem_cons_self)
    have htext' : '\n' ∉ text := fun hmem => htext (List.mem_cons_of_mem c hmem)
    cases line with
    | nil =>
      cases h with
      | nil => rfl
      | cons rest => simp [List.isPrefixOf, hc]
    | cons d line => simp only [List.cons_append, List.isPrefixOf, ih htext']

theorem escapedBody_cons (c : Char) (cs : List Char) : escapedBody (c :: cs) =
    if c = '"' then ⟨1, true⟩
    else if c = '\\' then
      match cs with
      | [] => ⟨1, false⟩
      | d :: ds => if isLineBreak d then ⟨1, false⟩ else (escapedBody ds).after 2
    else if isLineBreak c then ⟨0, false⟩ else (escapedBody cs).after 1 := by
  by_cases hquote : c = '"'
  · subst hquote
    simp [escapedBody]
  · by_cases hescape : c = '\\'
    · subst hescape
      cases cs with
      | nil => rfl
      | cons d ds => simp [escapedBody]
    · rw [escapedBody, if_neg hquote, if_neg hescape]
      · exact hquote
      · exact fun _ _ h => absurd h hescape

theorem escapedBody_append (h : EndsLine tail) (line : List Char) :
    escapedBody (line ++ tail) = escapedBody line := by
  have hbreak : isLineBreak '\n' = true := by decide
  induction hlength : line.length using Nat.strong_induction_on generalizing line with
  | _ length ih =>
    cases line with
    | nil =>
      cases h with
      | nil => rfl
      | cons rest => simp [escapedBody_cons, hbreak, escapedBody]
    | cons c cs =>
      rw [List.cons_append, escapedBody_cons, escapedBody_cons]
      rw [List.length_cons] at hlength
      have hrest := ih cs.length (by omega) cs rfl
      cases cs with
      | nil =>
        cases h with
        | nil => rfl
        | cons rest => simp [hbreak, escapedBody_cons, escapedBody]
      | cons d ds =>
        rw [List.length_cons] at hlength
        have hrest' := ih ds.length (by omega) ds rfl
        rw [List.cons_append] at hrest ⊢
        simp only [hrest, hrest']

/-- A body is no longer than the text. -/
theorem escapedBody_length_le (cs : List Char) : (escapedBody cs).length ≤ cs.length := by
  fun_induction escapedBody cs with
  | case1 => exact Nat.le_refl _
  | case2 | case3 | case5 => simp
  | case4 _ _ _ ih | case6 _ _ _ _ _ ih =>
    simp only [BodyExtent.after, List.length_cons]
    omega

theorem doubledBody_length_le (quote : Char) (cs : List Char) :
    (doubledBody quote cs).length ≤ cs.length := by
  fun_induction doubledBody quote cs with
  | case1 | case2 | case3 | case5 => simp
  | case4 _ ih | case6 _ _ _ _ ih =>
    simp only [BodyExtent.after, List.length_cons] at ih ⊢
    omega

end FourGL
