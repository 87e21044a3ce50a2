import FourGL.Proofs.Literal.Words
import Mathlib.Data.Int.ModEq

/-!
# Values of numbers

A number is hexadecimal, or decimal in one of four forms. Its digits denote a number as they do on
paper, however many there are, and two limits decide what becomes of it: a decimal number without a
point and an exponent is an integer below `2 ^ 63`, and a hexadecimal one has 64 bits, the first of
which is its sign.

**Theorem (`numbers_decoded`).** In every text, each number is an integer, a floating point number or an
error, as its digits and the two limits say.

The only error is a hexadecimal number too long for 64 bits. That no other number fails rests on what
the patterns leave out: signs, spaces and the letters of `inf` and `nan`.
-/

namespace FourGL

open Text CharPattern
open scoped Computability

variable {c : Char} {cs w digits : List Char} {n : Nat}

/-! ## Two kinds of numbers -/

namespace CharPattern

/-- A number in base ten. -/
def decimal : CharLanguage :=
  run isDigit +
  run isDigit * text ['.'] * (one isDigit)∗ * optional exponent +
  text ['.'] * run isDigit * optional exponent +
  run isDigit * exponent

/-- A number in base sixteen. -/
def hexadecimal : CharLanguage :=
  text ['0'] * one (fun c => c == 'x' || c == 'X') * run isHexDigit

theorem number_eq : number = decimal + hexadecimal := rfl

/-- The word is a prefix for hexadecimal numbers and the digits behind it. -/
def HexWritten (w digits : List Char) : Prop :=
  digits ∈ run isHexDigit ∧ (w = '0' :: 'x' :: digits ∨ w = '0' :: 'X' :: digits)

theorem HexWritten.drop_eq (h : HexWritten w digits) : w.drop 2 = digits := by
  obtain ⟨-, rfl | rfl⟩ := h
  · rfl
  · rfl

theorem mem_hexadecimal : w ∈ hexadecimal ↔ ∃ digits, HexWritten w digits := by
  rw [hexadecimal, Language.mem_mul]
  constructor
  · rintro ⟨v, hv, digits, hdigits, rfl⟩
    obtain ⟨_, rfl, _, ⟨x, hx, rfl⟩, rfl⟩ := Language.mem_mul.mp hv
    obtain rfl | rfl : x = 'x' ∨ x = 'X' := by simpa using hx
    · exact ⟨digits, hdigits, .inl rfl⟩
    · exact ⟨digits, hdigits, .inr rfl⟩
  · rintro ⟨digits, hdigits, rfl | rfl⟩
    · exact ⟨['0', 'x'], Language.append_mem_mul (a := ['0']) rfl ⟨'x', rfl, rfl⟩, digits, hdigits, rfl⟩
    · exact ⟨['0', 'X'], Language.append_mem_mul (a := ['0']) rfl ⟨'X', rfl, rfl⟩, digits, hdigits, rfl⟩

/-- Digits, perhaps with a point among them, and perhaps an exponent. -/
theorem exists_parts_of_mem_decimal (h : w ∈ decimal) :
    ∃ whole e, (∀ d ∈ whole, isDigit d = true) ∧ e ∈ optional exponent ∧
      (whole ≠ [] ∧ w = whole ++ e ∨
        ∃ fraction, (∀ d ∈ fraction, isDigit d = true) ∧ whole ++ fraction ≠ [] ∧
          w = whole ++ '.' :: (fraction ++ e)) := by
  simp only [decimal, mul_assoc] at h
  rcases h with ((h | h) | h) | h
  · obtain ⟨hne, hwhole⟩ := mem_run.mp h
    exact ⟨w, [], hwhole, mem_optional.mpr (.inl rfl), .inl ⟨hne, (List.append_nil w).symm⟩⟩
  · obtain ⟨whole, hwhole, v, hv, rfl⟩ := Language.mem_mul.mp h
    obtain ⟨_, rfl, u, hu, rfl⟩ := Language.mem_mul.mp hv
    obtain ⟨fraction, hfraction, e, he, rfl⟩ := Language.mem_mul.mp hu
    obtain ⟨hne, hwhole⟩ := mem_run.mp hwhole
    exact ⟨whole, e, hwhole, he,
      .inr ⟨fraction, mem_many.mp hfraction, List.append_ne_nil_of_left_ne_nil hne _, rfl⟩⟩
  · obtain ⟨_, rfl, v, hv, rfl⟩ := Language.mem_mul.mp h
    obtain ⟨fraction, hfraction, e, he, rfl⟩ := Language.mem_mul.mp hv
    obtain ⟨hne, hfraction⟩ := mem_run.mp hfraction
    exact ⟨[], e, nofun, he, .inr ⟨fraction, hfraction, hne, rfl⟩⟩
  · obtain ⟨whole, hwhole, e, he, rfl⟩ := Language.mem_mul.mp h
    obtain ⟨hne, hwhole⟩ := mem_run.mp hwhole
    exact ⟨whole, e, hwhole, mem_optional.mpr (.inr he), .inl ⟨hne, rfl⟩⟩

/-- The letters of a hexadecimal prefix, and those that every word for what is not finite has. -/
def isForeign (c : Char) : Bool := c.toLower == 'x' || c.toLower == 'n'

theorem over_decimal : Over (!isForeign ·) decimal := by
  have hdigit : ∀ c, isDigit c = true → (!isForeign c) = true :=
    fun c hc => of_isDigit (p := (!isForeign ·)) hc (by decide)
  have hdigits : Over (!isForeign ·) (run isDigit) := .run hdigit
  have hpoint : Over (!isForeign ·) (text ['.']) := .text (by decide)
  have hexponent : Over (!isForeign ·) exponent := by
    refine ((Over.one ?_).mul (Over.one ?_).optional).mul hdigits
    · intro c hc
      obtain rfl | rfl : c = 'e' ∨ c = 'E' := by simpa using hc
      · decide
      · decide
    · intro c hc
      obtain rfl | rfl : c = '+' ∨ c = '-' := by simpa using hc
      · decide
      · decide
  exact ((hdigits.add (((hdigits.mul hpoint).mul (Over.one hdigit).kstar).mul hexponent.optional)).add
    ((hpoint.mul hdigits).mul hexponent.optional)).add (hdigits.mul hexponent)

end CharPattern

/-! ## Digits -/

theorem isHexDigit_of_isDigit (h : isDigit c = true) : isHexDigit c = true := by
  rw [isHexDigit, h]
  rfl

theorem numeral_of_isDigit (h : ∀ d ∈ digits, isDigit d = true) :
    numeral 10 digits = writtenValue 10 digits :=
  numeral_eq_writtenValue 10 fun d hd => isHexDigit_of_isDigit (h d hd)

/-- The bits of a 64-bit word are those of the signed number that is read from them. -/
theorem signed64_modEq (n : Nat) : signed64 n ≡ n [ZMOD 2 ^ 64] := by
  simp only [signed64, Nat.one_shiftLeft, Int.ModEq]
  split_ifs
  · omega
  · push_cast
    omega

theorem signed64_mem_range (h : n < 2 ^ 64) : -2 ^ 63 ≤ signed64 n ∧ signed64 n < 2 ^ 63 := by
  simp only [signed64, Nat.one_shiftLeft]
  split_ifs
  · omega
  · push_cast
    omega

/-! ## Hexadecimal numbers -/

theorem hexValue_of_mem (h : digits ∈ run isHexDigit) : hexValue digits =
    if writtenValue 16 digits < 2 ^ 64 then .ok (.integer (signed64 (writtenValue 16 digits)))
    else .error .invalidNumber := by
  obtain ⟨hne, hall⟩ := mem_run.mp h
  -- A plus in front of the digits would be skipped, but no pattern has one.
  have hplus : ∀ ds, digits ≠ '+' :: ds := by
    rintro ds rfl
    exact absurd (hall '+' List.mem_cons_self) (by decide)
  have hlimit : (1 <<< 64 : Nat) = 2 ^ 64 := by decide
  rw [hexValue]
  · simp only [numeral_eq_writtenValue 16 hall, ne_eq, hne, not_false_eq_true,
      List.all_eq_true.mpr hall, true_and, hlimit]
  · exact hplus

theorem numberValue_of_hexWritten (h : HexWritten w digits) : numberValue w =
    if writtenValue 16 digits < 2 ^ 64 then .ok (.integer (signed64 (writtenValue 16 digits)))
    else .error .invalidNumber := by
  obtain ⟨hdigits, rfl | rfl⟩ := h
  · exact hexValue_of_mem hdigits
  · exact hexValue_of_mem hdigits

/-! ## Decimal numbers -/

theorem not_hexWritten_of_mem_decimal (h : w ∈ decimal) (digits : List Char) : ¬ HexWritten w digits := by
  rintro ⟨-, rfl | rfl⟩
  · have hletter := over_decimal _ h 'x' (by simp)
    exact absurd hletter (by decide)
  · have hletter := over_decimal _ h 'X' (by simp)
    exact absurd hletter (by decide)

/-- No decimal number is a word with a foreign letter, in any case. -/
theorem map_toLower_ne (h : w ∈ decimal) (hword : 'n' ∈ cs) : w.map Char.toLower ≠ cs := by
  rintro rfl
  obtain ⟨c, hc, hlower⟩ := List.mem_map.mp hword
  have hletter := over_decimal w h c hc
  simp [isForeign, hlower] at hletter

theorem splitSign_cons (h : (c == '+' || c == '-') = false) (cs : List Char) :
    splitSign (c :: cs) = (false, c :: cs) := by
  rw [Bool.or_eq_false_iff, beq_eq_false_iff_ne, beq_eq_false_iff_ne] at h
  rw [splitSign]
  · intro ds heq
    exact h.2 (List.cons.inj heq).1
  · intro ds heq
    exact h.1 (List.cons.inj heq).1

theorem splitSign_of_mem (h : w ∈ decimal) : splitSign w = (false, w) := by
  obtain ⟨c, cs, rfl, hc⟩ := exists_cons_of_mem_number (Or.inl h)
  refine splitSign_cons ?_ cs
  rcases hc with hc | ⟨rfl, -⟩
  · exact ne_sign_of_isDigit hc
  · decide

theorem isSome_exponentValue? (h : w ∈ optional exponent) : (exponentValue? w).isSome = true := by
  rcases mem_optional.mp h with rfl | h
  · rfl
  · obtain ⟨c, hc, sign, hsign, ds, hds, rfl⟩ := mem_exponent.mp h
    obtain ⟨hne, hall⟩ := mem_run.mp hds
    have hsplit : (splitSign (sign ++ ds)).2 = ds := by
      rcases hsign with rfl | ⟨s, hs, rfl⟩
      · obtain ⟨d, ds, rfl, hd⟩ := exists_cons_of_mem_digits hds
        exact congrArg Prod.snd (splitSign_cons (ne_sign_of_isDigit hd) ds)
      · obtain rfl | rfl : s = '+' ∨ s = '-' := by simpa using hs
        · rfl
        · rfl
    simp only [exponentValue?, hc, if_true, hsplit, ne_eq, hne, not_false_eq_true,
      List.all_eq_true.mpr hall, and_self, Option.isSome_some]

theorem span_digits (hcs : ∀ d ∈ cs, isDigit d = true) (hw : leading isDigit w = 0) :
    (cs ++ w).takeWhile isDigit = cs ∧ (cs ++ w).dropWhile isDigit = w := by
  rw [leading, List.length_eq_zero_iff] at hw
  rw [List.takeWhile_append_of_pos hcs, List.dropWhile_append_of_pos hcs, hw, List.append_nil]
  refine ⟨rfl, ?_⟩
  have hw' := List.takeWhile_append_dropWhile (p := isDigit) (l := w)
  rwa [hw, List.nil_append] at hw'

theorem leading_of_mem_optional (h : w ∈ optional exponent) : leading isDigit w = 0 := by
  rcases mem_optional.mp h with rfl | h
  · rfl
  · have hleading := leading_of_mem_exponent h []
    rwa [List.append_nil] at hleading

theorem ne_point_of_mem_optional (h : w ∈ optional exponent) (cs : List Char) : w ≠ '.' :: cs := by
  rintro rfl
  rcases mem_optional.mp h with h | h
  · cases h
  · obtain ⟨c, hc, sign, -, ds, -, heq⟩ := mem_exponent.mp h
    rw [← (List.cons.inj heq).1] at hc
    exact absurd hc (by decide)

theorem isSome_decimalBits? (h : w ∈ decimal) : (decimalBits? w).isSome = true := by
  have hinf : ¬ (w.map Char.toLower = "inf".toList ∨ w.map Char.toLower = "infinity".toList) :=
    not_or.mpr ⟨map_toLower_ne h (by decide), map_toLower_ne h (by decide)⟩
  have hnan : w.map Char.toLower ≠ "nan".toList := map_toLower_ne h (by decide)
  simp only [decimalBits?, if_neg hinf, if_neg hnan]
  obtain ⟨whole, e, hwhole, he, ⟨hne, rfl⟩ | ⟨fraction, hfraction, hne, rfl⟩⟩ :=
    exists_parts_of_mem_decimal h
  · obtain ⟨htake, hdrop⟩ := span_digits hwhole (leading_of_mem_optional he)
    rw [htake, hdrop]
    have hpoint := ne_point_of_mem_optional he
    split
    · next ds => exact absurd rfl (hpoint ds)
    · simp only [List.append_nil, if_neg hne, Option.isSome_map, isSome_exponentValue? he]
  · have hpoint : leading isDigit ('.' :: (fraction ++ e)) = 0 := leading_cons_of_false (by decide) _
    obtain ⟨htake, hdrop⟩ := span_digits hwhole hpoint
    obtain ⟨htake', hdrop'⟩ := span_digits hfraction (leading_of_mem_optional he)
    simp only [htake, hdrop, htake', hdrop', if_neg hne, Option.isSome_map, isSome_exponentValue? he]

theorem exists_floatBits? (h : w ∈ decimal) : ∃ bits, floatBits? w = some bits := by
  refine Option.isSome_iff_exists.mp ?_
  simp only [floatBits?, splitSign_of_mem h, Option.isSome_map, isSome_decimalBits? h]

theorem numberValue_of_decimal (h : w ∈ decimal) : ∃ bits, numberValue w =
    if w.all isDigit = true ∧ writtenValue 10 w < 2 ^ 63 then .ok (.integer (writtenValue 10 w))
    else .ok (.float bits) := by
  obtain ⟨bits, hbits⟩ := exists_floatBits? h
  obtain ⟨c, cs, rfl, -⟩ := exists_cons_of_mem_number (Or.inl h)
  have hlimit : (1 <<< 63 : Nat) = 2 ^ 63 := by decide
  refine ⟨bits, ?_⟩
  rw [numberValue]
  · by_cases hall : (c :: cs).all isDigit = true
    · simp only [ne_eq, reduceCtorEq, not_false_eq_true, hall, true_and,
        numeral_of_isDigit (List.all_eq_true.mp hall), hlimit, hbits]
    · rw [if_neg fun h => hall h.2.1, if_neg fun h => hall h.1]
      simp only [hbits]
  · rintro digits heq
    exact absurd (over_decimal _ h 'x' (by simp [heq])) (by decide)
  · rintro digits heq
    exact absurd (over_decimal _ h 'X' (by simp [heq])) (by decide)

/-! ## Numbers of a text -/

/-- What a number stands for. -/
structure NumberDecoded (w : List Char) : Prop where
  /-- Digits alone denote an integer below the limit. -/
  decimal : (∀ d ∈ w, isDigit d = true) → writtenValue 10 w < 2 ^ 63 →
    numberValue w = .ok (.integer (writtenValue 10 w))
  /-- Hexadecimal digits denote the bits of an integer with a sign. -/
  hexadecimal : ∀ digits, HexWritten w digits → writtenValue 16 digits < 2 ^ 64 →
    ∃ n : Int, numberValue w = .ok (.integer n) ∧ n ≡ writtenValue 16 digits [ZMOD 2 ^ 64] ∧
      -2 ^ 63 ≤ n ∧ n < 2 ^ 63
  /-- The only error is that of a hexadecimal number with too many bits. -/
  invalid : ∀ e, numberValue w = .error e ↔
    e = .invalidNumber ∧ ∃ digits, HexWritten w digits ∧ 2 ^ 64 ≤ writtenValue 16 digits
  /-- Everything else is a floating point number. -/
  float : (∀ digits, ¬ HexWritten w digits) →
    ¬ ((∀ d ∈ w, isDigit d = true) ∧ writtenValue 10 w < 2 ^ 63) →
    ∃ bits, numberValue w = .ok (.float bits)

theorem numberDecoded_of_hexWritten (h : HexWritten w digits) : NumberDecoded w where
  decimal hall _ := by
    obtain ⟨-, rfl | rfl⟩ := h
    · exact absurd (hall 'x' (by simp)) (by decide)
    · exact absurd (hall 'X' (by simp)) (by decide)
  hexadecimal digits' h' hlt := by
    obtain rfl : digits' = digits := h'.drop_eq.symm.trans h.drop_eq
    refine ⟨_, ?_, signed64_modEq _, signed64_mem_range hlt⟩
    rw [numberValue_of_hexWritten h, if_pos hlt]
  invalid e := by
    rw [numberValue_of_hexWritten h]
    split_ifs with hlt
    · refine iff_of_false nofun ?_
      rintro ⟨-, digits', h', hle⟩
      obtain rfl : digits' = digits := h'.drop_eq.symm.trans h.drop_eq
      exact hlt.not_ge hle
    · constructor
      · rintro ⟨⟩
        exact ⟨rfl, digits, h, Nat.le_of_not_lt hlt⟩
      · rintro ⟨rfl, -⟩
        rfl
  float hnone := absurd h (hnone digits)

theorem numberDecoded_of_decimal (h : w ∈ CharPattern.decimal) : NumberDecoded w := by
  obtain ⟨bits, hvalue⟩ := numberValue_of_decimal h
  have hnone := not_hexWritten_of_mem_decimal h
  constructor
  · intro hall hlt
    rw [hvalue, if_pos ⟨List.all_eq_true.mpr hall, hlt⟩]
  · exact fun digits hdigits => absurd hdigits (hnone digits)
  · intro e
    refine iff_of_false ?_ fun ⟨_, digits, hdigits, _⟩ => hnone digits hdigits
    rw [hvalue]
    split_ifs <;> nofun
  · intro _ hother
    rw [← List.all_eq_true] at hother
    exact ⟨bits, by rw [hvalue, if_neg hother]⟩

theorem Lexeme.mem_number_of_mem_split {l : Lexeme} (h : l ∈ Lexeme.split cs)
    (hkind : l.kind = some .number) : l.text ∈ CharPattern.number := by
  obtain ⟨rest, hhead⟩ := Lexeme.exists_isHead_of_mem h
  have hmatches := hhead.matches hkind
  cases hmatches with
  | number hnumber => exact hnumber

/-- **Numbers.** In every text, each number is decoded by its digits. -/
theorem numbers_decoded (cs : List Char) :
    ∀ l ∈ Lexeme.split cs, l.kind = some .number → NumberDecoded l.text := by
  intro l hl hkind
  have hnumber := Lexeme.mem_number_of_mem_split hl hkind
  rw [number_eq, Language.mem_add] at hnumber
  rcases hnumber with hdecimal | hhex
  · exact numberDecoded_of_decimal hdecimal
  · obtain ⟨digits, hdigits⟩ := mem_hexadecimal.mp hhex
    exact numberDecoded_of_hexWritten hdigits

/-- The largest integer written in digits, minus one in hexadecimal, and what lies past the limits. -/
theorem numbers_decoded_limits :
    numberValue "9223372036854775807".toList = .ok (.integer (2 ^ 63 - 1)) ∧
      (∃ n : Int, numberValue "0xFFFFFFFFFFFFFFFF".toList = .ok (.integer n) ∧
        n ≡ (2 ^ 64 - 1 : Nat) [ZMOD 2 ^ 64] ∧ -2 ^ 63 ≤ n ∧ n < 2 ^ 63) ∧
      (∃ bits, numberValue "9223372036854775808".toList = .ok (.float bits)) ∧
      numberValue "0x10000000000000000".toList = .error .invalidNumber := by
  have hdecimal := numbers_decoded "9223372036854775807".toList
    ⟨some .number, "9223372036854775807".toList⟩ (by decide +kernel) rfl
  have hhex := numbers_decoded "0xFFFFFFFFFFFFFFFF".toList
    ⟨some .number, "0xFFFFFFFFFFFFFFFF".toList⟩ (by decide +kernel) rfl
  have hfloat := numbers_decoded "9223372036854775808".toList
    ⟨some .number, "9223372036854775808".toList⟩ (by decide +kernel) rfl
  have hlong := numbers_decoded "0x10000000000000000".toList
    ⟨some .number, "0x10000000000000000".toList⟩ (by decide +kernel) rfl
  have hones : writtenValue 16 "FFFFFFFFFFFFFFFF".toList = 2 ^ 64 - 1 := by decide +kernel
  refine ⟨?_, ?_, ?_, ?_⟩
  · exact (hdecimal.decimal (List.all_eq_true.mp (by decide)) (by decide +kernel)).trans
      (by decide +kernel)
  · rw [← hones]
    exact hhex.hexadecimal _ ⟨mem_run.mpr ⟨by decide, List.all_eq_true.mp (by decide)⟩, .inl rfl⟩
      (by decide +kernel)
  · refine hfloat.float ?_ fun h => absurd h.2 (by decide +kernel)
    rintro digits ⟨-, hdigits | hdigits⟩
    · cases hdigits
    · cases hdigits
  · exact (hlong.invalid _).mpr ⟨rfl, "10000000000000000".toList,
      ⟨mem_run.mpr ⟨by decide, List.all_eq_true.mp (by decide)⟩, .inl rfl⟩, by decide +kernel⟩

end FourGL
