import FourGL.Literal.Value
import FourGL.Proofs.Text.Bytes
import Mathlib.Data.List.Basic

/-!
# Words read by byte offsets

A word can be read by cutting item after item off its UTF-8 form: an escape is known by the byte behind
its backslash, its digits are those bytes that their number calls for, and format characters are looked
up by bisection. An offset inside a character cannot be cut at.

**Theorem (`wordLoop_eq`).** Read that way, no text is ever cut inside a character, and every text has the
items and the errors that it has when read character by character.

The digits of an escape may run into the middle of a character. Then they are not all hexadecimal digits,
so the escape does not exist, and nothing is cut behind it.

**Theorem (`wordValue_eq`).** A text that stands for itself is what its items make up.
-/

namespace FourGL

open Text

variable {c d e : Char} {cs as bs digits : List Char} {n width : Nat}

/-! ## Bisection -/

namespace Text

/-- The ranges go up, with no character in two of them. -/
structure Ranges.Ascending (ranges : Ranges) : Prop where
  apart : ranges.Pairwise fun r s => r.2 < s.1
  ordered : ∀ r ∈ ranges, r.1 ≤ r.2

/-- Whether some range holds the character, sought from the middle on. -/
def Ranges.bisect (ranges : Ranges) (c : Char) : Bool :=
  match h : ranges.drop (ranges.length / 2) with
  | [] => false
  | r :: above =>
    if r.2 < c.toNat then Ranges.bisect above c
    else if c.toNat < r.1 then Ranges.bisect (ranges.take (ranges.length / 2)) c
    else true
termination_by ranges.length
decreasing_by
  all_goals
    have hlength := congrArg List.length h
    rw [List.length_drop, List.length_cons] at hlength
    first | omega | (rw [List.length_take]; omega)

variable {below above : Ranges} {r : Nat × Nat}

theorem Ranges.contains_append (below above : Ranges) (c : Char) :
    Ranges.contains (below ++ above) c = (below.contains c || above.contains c) := List.any_append

theorem Ranges.contains_of_above (h : ∀ s ∈ below, s.2 < c.toNat) : below.contains c = false := by
  refine List.any_eq_false.mpr fun s hs => ?_
  have := h s hs
  simp only [Bool.and_eq_true, decide_eq_true_eq]
  omega

theorem Ranges.contains_of_below (h : ∀ s ∈ above, c.toNat < s.1) : above.contains c = false := by
  refine List.any_eq_false.mpr fun s hs => ?_
  have := h s hs
  simp only [Bool.and_eq_true, decide_eq_true_eq]
  omega

/-- One step of the search: the half that the character is not in can be left out. -/
theorem Ranges.Ascending.contains_eq (h : Ranges.Ascending (below ++ r :: above)) (c : Char) :
    Ranges.contains (below ++ r :: above) c = if r.2 < c.toNat then above.contains c
      else if c.toNat < r.1 then below.contains c else true := by
  obtain ⟨hapart, hordered⟩ := h
  obtain ⟨-, habove, hbelow⟩ := List.pairwise_append.mp hapart
  have hr := hordered r (by simp)
  have hcons : Ranges.contains (r :: above) c =
      (decide (r.1 ≤ c.toNat) && decide (c.toNat ≤ r.2) || above.contains c) := rfl
  rw [Ranges.contains_append, hcons]
  split_ifs with hright hleft
  · have hnone : below.contains c = false := by
      refine Ranges.contains_of_above fun s hs => ?_
      have := hbelow s hs r List.mem_cons_self
      omega
    rw [hnone, decide_eq_false (by omega : ¬ c.toNat ≤ r.2), Bool.and_false, Bool.false_or,
      Bool.false_or]
  · have hnone : above.contains c = false := by
      refine Ranges.contains_of_below fun s hs => ?_
      have := (List.pairwise_cons.mp habove).1 s hs
      omega
    rw [hnone, decide_eq_false (by omega : ¬ r.1 ≤ c.toNat), Bool.false_and, Bool.or_false,
      Bool.or_false]
  · rw [decide_eq_true (by omega), decide_eq_true (by omega), Bool.and_true, Bool.true_or,
      Bool.or_true]

theorem Ranges.Ascending.of_append (h : Ranges.Ascending (below ++ r :: above)) :
    Ranges.Ascending below ∧ Ranges.Ascending above := by
  obtain ⟨hapart, hordered⟩ := h
  obtain ⟨hbelow, habove, -⟩ := List.pairwise_append.mp hapart
  exact ⟨⟨hbelow, fun s hs => hordered s (by simp [hs])⟩,
    ⟨(List.pairwise_cons.mp habove).2, fun s hs => hordered s (by simp [hs])⟩⟩

/-- **Bisection.** In ascending ranges the search finds what there is. -/
theorem Ranges.bisect_eq {ranges : Ranges} (h : ranges.Ascending) (c : Char) :
    ranges.bisect c = ranges.contains c := by
  fun_induction Ranges.bisect ranges c with
  | case1 ranges hnone =>
    have hlength := congrArg List.length hnone
    rw [List.length_drop, List.length_nil] at hlength
    rw [List.length_eq_zero_iff.mp (by omega : ranges.length = 0)]
    rfl
  | case2 ranges r above hdrop hright ih =>
    have hsplit := List.take_append_drop (ranges.length / 2) ranges
    rw [hdrop] at hsplit
    rw [← hsplit] at h
    rw [ih h.of_append.2, ← hsplit, h.contains_eq, if_pos hright]
  | case3 ranges r above hdrop hright hleft ih =>
    have hsplit := List.take_append_drop (ranges.length / 2) ranges
    rw [hdrop] at hsplit
    have hascending := hsplit.symm ▸ h
    have hcontains := hascending.contains_eq c
    rw [hsplit, if_neg hright, if_pos hleft] at hcontains
    rw [ih hascending.of_append.1, hcontains]
  | case4 ranges r above hdrop hright hleft =>
    have hsplit := List.take_append_drop (ranges.length / 2) ranges
    rw [hdrop] at hsplit
    rw [← hsplit] at h ⊢
    rw [h.contains_eq, if_neg hright, if_neg hleft]

theorem ascending_formatCharacters : formatCharacters.Ascending := ⟨by decide, by decide⟩

end Text

/-! ## Cutting at bytes -/

/-- The byte at an offset of the text. -/
def byteAt? (n : Nat) (cs : List Char) : Option UInt8 := (Text.bytes (String.ofList cs))[n]?

/-- The text cut in two at an offset in bytes; none where the offset lies inside a character or beyond the
end. -/
def cutAt? : Nat → List Char → Option (List Char × List Char)
  | 0, cs => some ([], cs)
  | _ + 1, [] => none
  | n + 1, c :: cs =>
    if c.utf8Size ≤ n + 1 then
      (cutAt? (n + 1 - c.utf8Size) cs).map fun p => (c :: p.1, p.2)
    else none

theorem cutAt?_append (as bs : List Char) : cutAt? (utf8Length as) (as ++ bs) = some (as, bs) := by
  induction as with
  | nil => cases bs <;> rfl
  | cons c as ih =>
    have hpos := c.utf8Size_pos
    obtain ⟨n, hn⟩ : ∃ n, c.utf8Size + utf8Length as = n + 1 := ⟨_, (Nat.sub_add_cancel (by omega)).symm⟩
    rw [utf8Length_cons, hn, List.cons_append, cutAt?, ← hn, if_pos (Nat.le_add_right _ _),
      Nat.add_sub_cancel_left, ih]
    rfl

theorem append_of_cutAt? (h : cutAt? n cs = some (as, bs)) : cs = as ++ bs ∧ utf8Length as = n := by
  fun_induction cutAt? n cs generalizing as with
  | case1 cs =>
    cases h
    exact ⟨rfl, rfl⟩
  | case2 => cases h
  | case3 n c cs hle ih =>
    obtain ⟨p, hp, heq⟩ := Option.map_eq_some_iff.mp h
    cases heq
    obtain ⟨hcs, hlength⟩ := ih hp
    rw [hcs, utf8Length_cons, hlength]
    exact ⟨rfl, by omega⟩
  | case4 => cases h

/-! ## Items of words -/

/-- The character, unless it is a format character. -/
def kept (c : Char) : List Char := if isFormat c then [] else [c]

/-- The number of digits of the escape with the given letter. -/
def escapeWidth? (c : Char) : Option Nat :=
  if c = 'u' then some 4 else if c = 'U' then some 8 else none

/-- The character that the escape behind a backslash names, with the number of characters that spell it. -/
def wordEscape : List Char → Except LiteralError (Char × Nat)
  | [] => .error .invalidEscape
  | e :: ds =>
    match escapeWidth? e with
    | none => .error .invalidEscape
    | some width => (·, 1 + width) <$> codeEscape width ds

theorem wordChars_eq (n : Nat) (cs : List Char) : wordChars n cs = wordChars 0 (cs.drop n) := by
  induction cs generalizing n with
  | nil => rw [List.drop_nil]; rfl
  | cons c cs ih =>
    cases n with
    | zero => rfl
    | succ n => rw [wordChars, ih, List.drop_succ_cons]

theorem bind_kept (c : Char) (tail : Except LiteralError (List Char)) :
    (do let tail ← tail; return if isFormat c then tail else c :: tail) =
      (kept c ++ ·) <$> tail := by
  unfold kept
  split_ifs <;> rfl

theorem wordChars_plain (h : c ≠ '\\') (cs : List Char) :
    wordChars 0 (c :: cs) = (kept c ++ ·) <$> wordChars 0 cs := by
  have hplain : ¬ (c == '\\') = true := by simpa using h
  rw [← bind_kept]
  conv_lhs => rw [wordChars.eq_def]
  dsimp only
  rw [if_neg hplain]
  rfl

theorem wordChars_backslash (cs : List Char) : wordChars 0 ('\\' :: cs) =
    (wordEscape cs).bind fun item => (kept item.1 ++ ·) <$> wordChars item.2 cs := by
  simp only [← bind_kept]
  cases cs with
  | nil => rfl
  | cons e ds =>
    by_cases hshort : e = 'u'
    · subst hshort
      rfl
    by_cases hlong : e = 'U'
    · subst hlong
      rfl
    rw [wordChars.eq_5 _ _ (fun _ h => hshort (List.cons.inj h).1)
      fun _ h => hlong (List.cons.inj h).1, if_pos (by decide), wordEscape, escapeWidth?,
      if_neg hshort, if_neg hlong]
    rfl

/-! ## Items by bytes -/

/-- The number of digits that the byte behind a backslash calls for. -/
def announcedWidth? (cs : List Char) : Option Nat :=
  match byteAt? 1 cs with
  | some b => if b.toNat = 0x75 then some 4 else if b.toNat = 0x55 then some 8 else none
  | none => none

/-- The character named by the digits from one offset up to another. -/
def namedBetween (start stop : Nat) (cs : List Char) : Except LiteralError Char :=
  match (cutAt? start cs).bind fun p => cutAt? (stop - start) p.2 with
  | none => .error .invalidEscape
  | some p => if p.1.all isHexDigit then charOfHex p.1 else .error .invalidEscape

/-- The text behind an offset. -/
def behind? (n : Nat) (cs : List Char) : Option (List Char) := (cutAt? n cs).map Prod.snd

/-- The first item of a text and what stands behind it; none where an offset cannot be cut at. -/
def itemBytewise (c : Char) (cs : List Char) : Option (Except LiteralError (Char × List Char)) :=
  if c = '\\' then
    match announcedWidth? (c :: cs) with
    | none => some (.error .invalidEscape)
    | some width =>
      match namedBetween 2 (2 + width) (c :: cs) with
      | .error e => some (.error e)
      | .ok d => (behind? (2 + width) (c :: cs)).map fun rest => .ok (d, rest)
  else (behind? c.utf8Size (c :: cs)).map fun rest => .ok (c, rest)

theorem bytes_cons (c : Char) (cs : List Char) : Text.bytes (String.ofList (c :: cs)) =
    String.utf8EncodeChar c ++ Text.bytes (String.ofList cs) := by
  rw [bytes_ofList, bytes_ofList, List.flatMap_cons]

theorem announcedWidth?_nil : announcedWidth? ['\\'] = none := by decide

/-- The letter of an escape is known by its first byte. -/
theorem announcedWidth?_cons (e : Char) (ds : List Char) :
    announcedWidth? ('\\' :: e :: ds) = escapeWidth? e := by
  obtain ⟨b, bs, hbytes, hb⟩ := exists_head e
  have hbyte : byteAt? 1 ('\\' :: e :: ds) = some b := by
    have hescape : String.utf8EncodeChar '\\' = [0x5c] := by decide
    rw [byteAt?, bytes_cons, bytes_cons, hescape, hbytes]
    rfl
  rw [announcedWidth?, hbyte, escapeWidth?]
  by_cases hshort : e = 'u'
  · have hu : String.utf8EncodeChar 'u' = [0x75] := by decide
    rw [hshort, hu] at hbytes
    obtain rfl := (List.cons.inj hbytes).1
    rw [if_pos hshort]
    rfl
  by_cases hlong : e = 'U'
  · have hU : String.utf8EncodeChar 'U' = [0x55] := by decide
    rw [hlong, hU] at hbytes
    obtain rfl := (List.cons.inj hbytes).1
    rw [if_neg hshort, if_pos hlong]
    rfl
  have hbyteShort : b.toNat ≠ 0x75 := fun h => hshort (Char.toNat_inj.mp ((hb (by omega)).trans h))
  have hbyteLong : b.toNat ≠ 0x55 := fun h => hlong (Char.toNat_inj.mp ((hb (by omega)).trans h))
  rw [if_neg hshort, if_neg hlong]
  simp only [hbyteShort, hbyteLong, if_false]

theorem toNat_of_isHexDigit (h : isHexDigit c = true) : c.toNat < 128 := by
  simp only [isHexDigit, isDigit, Bool.or_eq_true, Bool.and_eq_true, decide_eq_true_eq] at h
  obtain (⟨-, hle⟩ | ⟨-, hle⟩) | ⟨-, hle⟩ := h
  · exact Nat.lt_of_le_of_lt hle (by decide)
  · exact Nat.lt_of_le_of_lt hle (by decide)
  · exact Nat.lt_of_le_of_lt hle (by decide)

theorem utf8Size_of_isHexDigit (h : isHexDigit c = true) : c.utf8Size = 1 :=
  Char.utf8Size_eq_one_iff.mpr (Nat.le_of_lt_succ (toNat_of_isHexDigit h))

theorem utf8Length_of_hexDigits (h : ∀ c ∈ digits, isHexDigit c = true) :
    utf8Length digits = digits.length := by
  induction digits with
  | nil => rfl
  | cons c digits ih =>
    rw [utf8Length_cons, utf8Size_of_isHexDigit (h c List.mem_cons_self),
      ih fun d hd => h d (List.mem_cons_of_mem c hd), List.length_cons, Nat.add_comm]

theorem utf8Size_of_escapeWidth? (h : escapeWidth? e = some width) : e.utf8Size = 1 := by
  unfold escapeWidth? at h
  split_ifs at h with hshort hlong
  · rw [hshort]
    decide
  · rw [hlong]
    decide

theorem cutAt?_backslash (h : escapeWidth? e = some width) (as bs : List Char) :
    cutAt? (2 + utf8Length as) ('\\' :: e :: (as ++ bs)) = some ('\\' :: e :: as, bs) := by
  have hcut := cutAt?_append ('\\' :: e :: as) bs
  have hsize : Char.utf8Size '\\' = 1 := by decide
  rwa [utf8Length_cons, utf8Length_cons, hsize, utf8Size_of_escapeWidth? h, ← Nat.add_assoc] at hcut

/-- The characters that make an escape of the given width, if they are digits all of them. -/
theorem codeEscape_append (h : ∀ c ∈ digits, isHexDigit c = true) (rest : List Char) :
    codeEscape digits.length (digits ++ rest) = charOfHex digits := by
  rw [codeEscape, List.take_left, if_pos ⟨rfl, List.all_eq_true.mpr h⟩]

/-- Digits that do not fill the width, or are none, make no escape. -/
theorem exists_digits_of_codeEscape {ds : List Char} (h : codeEscape width ds ≠ .error .invalidEscape) :
    ∃ digits rest, ds = digits ++ rest ∧ digits.length = width ∧ ∀ c ∈ digits, isHexDigit c = true := by
  by_cases hdigits : (ds.take width).length = width ∧ (ds.take width).all isHexDigit = true
  · exact ⟨_, _, (List.take_append_drop width ds).symm, hdigits.1, List.all_eq_true.mp hdigits.2⟩
  · exact absurd (if_neg hdigits) h

/-- A stretch of bytes holds the digits of an escape if the characters do. -/
theorem namedBetween_eq (h : escapeWidth? e = some width) (ds : List Char) :
    namedBetween 2 (2 + width) ('\\' :: e :: ds) = codeEscape width ds := by
  have htwo : cutAt? 2 ('\\' :: e :: ds) = some (['\\', e], ds) := cutAt?_backslash h [] ds
  rw [namedBetween, htwo, Option.bind_some, Nat.add_sub_cancel_left]
  by_cases hcode : codeEscape width ds = .error .invalidEscape
  · rw [hcode]
    cases hcut : cutAt? width ds with
    | none => rfl
    | some p =>
      obtain ⟨hds, hlength⟩ := append_of_cutAt? hcut
      by_cases hall : p.1.all isHexDigit = true
      · have hdigits := List.all_eq_true.mp hall
        rw [utf8Length_of_hexDigits hdigits] at hlength
        rw [hds, ← hlength, codeEscape_append hdigits] at hcode
        simp only [hall, if_true, hcode]
      · simp only [hall]
        rfl
  · obtain ⟨digits, rest, rfl, rfl, hdigits⟩ := exists_digits_of_codeEscape hcode
    have hcut := cutAt?_append digits rest
    rw [utf8Length_of_hexDigits hdigits] at hcut
    rw [hcut, codeEscape_append hdigits]
    simp only [List.all_eq_true.mpr hdigits, if_true]

theorem behind?_eq (h : escapeWidth? e = some width) {ds : List Char}
    (hcode : codeEscape width ds = .ok d) :
    behind? (2 + width) ('\\' :: e :: ds) = some (ds.drop width) := by
  have hne : codeEscape width ds ≠ .error .invalidEscape := by
    rw [hcode]
    exact nofun
  obtain ⟨digits, rest, rfl, rfl, hdigits⟩ := exists_digits_of_codeEscape hne
  have hcut := cutAt?_backslash h digits rest
  rw [utf8Length_of_hexDigits hdigits] at hcut
  rw [behind?, hcut, List.drop_left]
  rfl

theorem itemBytewise_plain (h : c ≠ '\\') (cs : List Char) :
    itemBytewise c cs = some (.ok (c, cs)) := by
  have hcut := cutAt?_append [c] cs
  rw [utf8Length_cons, utf8Length_nil, Nat.add_zero, List.singleton_append] at hcut
  rw [itemBytewise, if_neg h, behind?, hcut]
  rfl

theorem itemBytewise_backslash (cs : List Char) : itemBytewise '\\' cs =
    some ((wordEscape cs).map fun item => (item.1, cs.drop item.2)) := by
  rw [itemBytewise, if_pos rfl]
  cases cs with
  | nil =>
    rw [announcedWidth?_nil]
    rfl
  | cons e ds =>
    rw [announcedWidth?_cons, wordEscape]
    cases hwidth : escapeWidth? e with
    | none => rfl
    | some width =>
      simp only [namedBetween_eq hwidth]
      cases hcode : codeEscape width ds with
      | error => rfl
      | ok d =>
        simp only [behind?_eq hwidth hcode]
        show _ = some (Except.ok (d, (e :: ds).drop (1 + width)))
        rw [Nat.add_comm, List.drop_succ_cons]
        rfl

/-! ## The loop -/

theorem length_of_itemBytewise {item : Char × List Char}
    (h : itemBytewise c cs = some (.ok item)) : item.2.length ≤ cs.length := by
  by_cases hc : c = '\\'
  · subst hc
    rw [itemBytewise_backslash] at h
    cases hitem : wordEscape cs with
    | error => rw [hitem] at h; cases h
    | ok item =>
      rw [hitem] at h
      cases h
      exact (List.drop_sublist _ _).length_le
  · rw [itemBytewise_plain hc] at h
    cases h
    exact Nat.le_refl _

/-- The characters read so far, with the next one unless it is a format character. -/
def withNext (out : List Char) (c : Char) : List Char :=
  if formatCharacters.bisect c then out else out ++ [c]

/-- The items of a text behind those read so far, cut off one by one. -/
def wordLoop (out cs : List Char) : Option (Except LiteralError (List Char)) :=
  match cs with
  | [] => some (.ok out)
  | c :: tail =>
    match _h : itemBytewise c tail with
    | none => none
    | some (.error e) => some (.error e)
    | some (.ok item) => wordLoop (withNext out item.1) item.2
termination_by cs.length
decreasing_by exact Nat.lt_succ_of_le (length_of_itemBytewise ‹_›)

/-- What is cut off first is the first item that the characters make up. -/
theorem exists_itemBytewise (c : Char) (cs : List Char) : ∃ item, itemBytewise c cs = some item ∧
    wordChars 0 (c :: cs) = item.bind fun p => (kept p.1 ++ ·) <$> wordChars 0 p.2 := by
  by_cases hc : c = '\\'
  · subst hc
    refine ⟨_, itemBytewise_backslash cs, ?_⟩
    rw [wordChars_backslash]
    cases wordEscape cs with
    | error => rfl
    | ok item => exact congrArg ((kept item.1 ++ ·) <$> ·) (wordChars_eq item.2 cs)
  · exact ⟨_, itemBytewise_plain hc cs, wordChars_plain hc cs⟩

theorem withNext_eq (out : List Char) (c : Char) : withNext out c = out ++ kept c := by
  rw [withNext, Ranges.bisect_eq ascending_formatCharacters, kept, isFormat]
  split_ifs
  · rw [List.append_nil]
  · rfl

theorem map_append_append (as bs : List Char) (tail : Except LiteralError (List Char)) :
    ((as ++ bs) ++ ·) <$> tail = (as ++ ·) <$> ((bs ++ ·) <$> tail) := by
  cases tail with
  | error => rfl
  | ok cs => exact congrArg Except.ok (List.append_assoc as bs cs)

/-- **Reading by bytes.** No text is cut inside a character, and each has the items that its characters
make up. -/
theorem wordLoop_eq (out cs : List Char) :
    wordLoop out cs = some ((out ++ ·) <$> wordChars 0 cs) := by
  fun_induction wordLoop out cs with
  | case1 out => exact congrArg (fun cs => some (Except.ok cs)) (List.append_nil out).symm
  | case2 out c tail hnone =>
    obtain ⟨item, hitem, -⟩ := exists_itemBytewise c tail
    rw [hnone] at hitem
    cases hitem
  | case3 out c tail e herror =>
    obtain ⟨item, hitem, hchars⟩ := exists_itemBytewise c tail
    obtain rfl := Option.some.inj (herror.symm.trans hitem)
    rw [hchars]
    rfl
  | case4 out c tail item hok ih =>
    obtain ⟨item', hitem, hchars⟩ := exists_itemBytewise c tail
    obtain rfl := Option.some.inj (hok.symm.trans hitem)
    rw [ih, hchars, withNext_eq, map_append_append]
    rfl

/-! ## Texts that stand for themselves -/

theorem isFormat_of_ascii (h : c.toNat < 0x80) : isFormat c = false := by
  refine Ranges.contains_of_below fun r hr => ?_
  have hlow : ∀ r ∈ formatCharacters, 0x80 ≤ r.1 := by decide
  exact Nat.lt_of_lt_of_le h (hlow r hr)

theorem wordChars_of_isPlainWord (h : isPlainWord cs = true) : wordChars 0 cs = .ok cs := by
  induction cs with
  | nil => rfl
  | cons c cs ih =>
    rw [isPlainWord, List.all_cons, Bool.and_eq_true] at h
    obtain ⟨hc, hcs⟩ := h
    simp only [Bool.and_eq_true, decide_eq_true_eq, bne_iff_ne] at hc
    rw [wordChars_plain hc.2, ih hcs, kept, isFormat_of_ascii hc.1]
    rfl

/-- **Plain words.** The value of every text is what its items make up. -/
theorem wordValue_eq (cs : List Char) : wordValue cs = String.ofList <$> wordChars 0 cs := by
  unfold wordValue
  split_ifs with h
  · rw [wordChars_of_isPlainWord h]
    rfl
  · rfl

end FourGL
