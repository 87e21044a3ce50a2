import FourGL.Proofs.Literal.Bytewise
import FourGL.Proofs.Token.Tiling
import Mathlib.Data.Nat.Digits.Defs

/-!
# Values of words

A word is made of characters and of escapes that name characters by their codes. Its value is the
characters that its items stand for, in order, with the format characters left out. Where an item names
a surrogate, or a number beyond the last code, the word has no value.

**Theorem (`words_decoded`).** In every text, each word is spelled by items of this kind, and its value is
that of the items that spell it. The value of any text can be read by byte offsets, and no offset lies
inside a character.

No other error can occur: whatever is cut off as a word has complete escapes only.
-/

namespace FourGL

open Text CharPattern
open scoped Computability

variable {p : Char → Bool} {c : Char} {cs w digits : List Char}

/-! ## Items -/

/-- What words are made of. -/
inductive WordItem where
  /-- A character as it is. -/
  | char (c : Char)
  /-- A backslash, a small `u` and four digits. -/
  | short (digits : List Char)
  /-- A backslash, a capital `U` and eight digits. -/
  | long (digits : List Char)
  deriving DecidableEq, Repr

/-- Hexadecimal digits, by their values. -/
def hexDigits : List Char := "0123456789abcdef".toList

/-- The number that hexadecimal digits denote. -/
def hexCode (digits : List Char) : Nat :=
  Nat.ofDigits 16 (digits.reverse.map fun d => hexDigits.idxOf d.toLower)

/-- The number that digits denote in a base, the last of them counting its own value. -/
def writtenValue (base : Nat) (digits : List Char) : Nat :=
  Nat.ofDigits base (digits.reverse.map fun d => hexDigits.idxOf d.toLower)

/-- No character has the code: it is a surrogate, or beyond the last code. -/
def isNamelessCode (n : Nat) : Bool := (0xD800 ≤ n && n ≤ 0xDFFF) || 0x10FFFF < n

namespace WordItem

/-- How the item is written. -/
def text : WordItem → List Char
  | char c => [c]
  | short digits => '\\' :: 'u' :: digits
  | long digits => '\\' :: 'U' :: digits

/-- The item is a character of the class, or a complete escape. -/
def IsWritten (p : Char → Bool) : WordItem → Prop
  | char c => p c = true
  | short digits => digits.length = 4 ∧ ∀ d ∈ digits, isHexDigit d = true
  | long digits => digits.length = 8 ∧ ∀ d ∈ digits, isHexDigit d = true

instance (p : Char → Bool) : (item : WordItem) → Decidable (item.IsWritten p)
  | char c => inferInstanceAs (Decidable (p c = true))
  | short digits => decidable_of_iff (digits.length = 4 ∧ digits.all isHexDigit = true) <|
    and_congr_right fun _ => List.all_eq_true
  | long digits => decidable_of_iff (digits.length = 8 ∧ digits.all isHexDigit = true) <|
    and_congr_right fun _ => List.all_eq_true

/-- The code of the character that the item stands for. -/
def code : WordItem → Nat
  | char c => c.toNat
  | short digits => hexCode digits
  | long digits => hexCode digits

/-- Whether no character has the code of the item. -/
def isNameless (item : WordItem) : Bool := isNamelessCode item.code

/-- The character that the item stands for. -/
def named (item : WordItem) : Char := Char.ofNat item.code

/-- What items stand for together. -/
def value (items : List WordItem) : Except LiteralError String :=
  if items.any isNameless then .error .invalidCodePoint
  else .ok (String.ofList ((items.map named).filter fun c => !isFormat c))

end WordItem

/-- The items are those of a word, and make up the text. -/
structure Spelled (items : List WordItem) (w : List Char) : Prop where
  text_eq : w = items.flatMap WordItem.text
  head : ∃ item ∈ items.head?, item.IsWritten isIdentifierStart
  tail : ∀ item ∈ items.tail, item.IsWritten isIdentifierPart

/-! ## Codes -/

theorem isNamelessCode_iff {n : Nat} : isNamelessCode n = true ↔ ¬ n.isValidChar := by
  simp only [isNamelessCode, Nat.isValidChar, Bool.or_eq_true, Bool.and_eq_true, decide_eq_true_eq]
  omega

theorem digitValue_eq (h : isHexDigit c = true) : digitValue c = hexDigits.idxOf c.toLower := by
  have hall : ∀ n < 128, isHexDigit (Char.ofNat n) = true →
      digitValue (Char.ofNat n) = hexDigits.idxOf (Char.ofNat n).toLower := by decide +kernel
  have hc := hall c.toNat (toNat_of_isHexDigit h)
  rw [Char.ofNat_toNat] at hc
  exact hc h

theorem numeral_append (base : Nat) (digits : List Char) (c : Char) :
    numeral base (digits ++ [c]) = base * numeral base digits + digitValue c := by
  rw [numeral, List.foldl_append]
  rfl

/-- Digits added up from the left make the number that they denote. -/
theorem numeral_eq_writtenValue (base : Nat) (h : ∀ d ∈ digits, isHexDigit d = true) :
    numeral base digits = writtenValue base digits := by
  induction digits using List.reverseRecOn with
  | nil => rfl
  | append_singleton digits c ih =>
    have hc := digitValue_eq (h c (by simp))
    rw [numeral_append, ih fun d hd => h d (List.mem_append_left _ hd), hc, writtenValue, writtenValue,
      List.reverse_append, List.reverse_singleton, List.singleton_append, List.map_cons,
      Nat.ofDigits_cons, Nat.add_comm]

theorem numeral_eq (h : ∀ d ∈ digits, isHexDigit d = true) : numeral 16 digits = hexCode digits :=
  numeral_eq_writtenValue 16 h

theorem charOfHex_eq (h : ∀ d ∈ digits, isHexDigit d = true) : charOfHex digits =
    if isNamelessCode (hexCode digits) then .error .invalidCodePoint
    else .ok (Char.ofNat (hexCode digits)) := by
  rw [charOfHex, numeral_eq h]
  by_cases hchar : (hexCode digits).isValidChar
  · rw [if_neg fun hnone => isNamelessCode_iff.mp hnone hchar]
    exact if_pos hchar
  · rw [if_pos (isNamelessCode_iff.mpr hchar)]
    exact if_neg hchar

/-! ## Reading items -/

theorem wordChars_escape {letter : Char} (hletter : escapeWidth? letter = some digits.length)
    (h : ∀ d ∈ digits, isHexDigit d = true) (rest : List Char) :
    wordChars 0 ('\\' :: letter :: digits ++ rest) =
      if isNamelessCode (hexCode digits) then .error .invalidCodePoint
      else (kept (Char.ofNat (hexCode digits)) ++ ·) <$> wordChars 0 rest := by
  have hitem : wordEscape (letter :: (digits ++ rest)) =
      (·, 1 + digits.length) <$> charOfHex digits := by
    rw [wordEscape, hletter]
    exact congrArg ((·, 1 + digits.length) <$> ·) (codeEscape_append h rest)
  have hrest : wordChars (1 + digits.length) (letter :: (digits ++ rest)) = wordChars 0 rest := by
    rw [wordChars_eq, Nat.add_comm, List.drop_succ_cons, List.drop_left]
  rw [List.cons_append, List.cons_append, wordChars_backslash, hitem, charOfHex_eq h]
  split_ifs
  · rfl
  · exact congrArg (_ <$> ·) hrest

/-- **One item.** An item is read as the character that it stands for, and no word with one that stands
for none has a value. -/
theorem WordItem.wordChars_append {item : WordItem} (h : item.IsWritten p) (hp : p '\\' = false)
    (rest : List Char) : wordChars 0 (item.text ++ rest) =
      if item.isNameless then .error .invalidCodePoint
      else (kept item.named ++ ·) <$> wordChars 0 rest := by
  cases item with
  | char c =>
    have hplain : c ≠ '\\' := by
      rintro rfl
      exact absurd (h.symm.trans hp) (by decide)
    have hname : ¬ (WordItem.char c).isNameless = true := fun hnone =>
      isNamelessCode_iff.mp hnone c.valid
    have hnamed : (WordItem.char c).named = c := Char.ofNat_toNat c
    rw [if_neg hname, hnamed]
    exact wordChars_plain hplain rest
  | short digits => exact wordChars_escape (by rw [h.1]; rfl) h.2 rest
  | long digits => exact wordChars_escape (by rw [h.1]; rfl) h.2 rest

theorem WordItem.IsWritten.part {item : WordItem} (h : item.IsWritten isIdentifierStart) :
    item.IsWritten isIdentifierPart := by
  cases item with
  | char c => exact isIdentifierPart_of_isIdentifierStart h
  | short digits => exact ⟨h.1, h.2⟩
  | long digits => exact ⟨h.1, h.2⟩

theorem kept_append (c : Char) (cs : List Char) :
    kept c ++ cs.filter (fun d => !isFormat d) = (c :: cs).filter fun d => !isFormat d := by
  rw [kept, List.filter_cons]
  cases isFormat c <;> rfl

/-- What items stand for is read off their text, one after the other. -/
theorem wordChars_flatMap {items : List WordItem}
    (h : ∀ item ∈ items, item.IsWritten isIdentifierPart) :
    String.ofList <$> wordChars 0 (items.flatMap WordItem.text) = WordItem.value items := by
  have hchars : wordChars 0 (items.flatMap WordItem.text) =
      if items.any WordItem.isNameless then .error .invalidCodePoint
      else .ok ((items.map WordItem.named).filter fun c => !isFormat c) := by
    induction items with
    | nil => rfl
    | cons item items ih =>
      obtain ⟨hitem, hitems⟩ := List.forall_mem_cons.mp h
      rw [List.flatMap_cons, WordItem.wordChars_append hitem (by decide), ih hitems, List.any_cons,
        List.map_cons, ← kept_append]
      cases item.isNameless
      · cases items.any WordItem.isNameless <;> rfl
      · rfl
  rw [hchars, WordItem.value]
  split_ifs <;> rfl

theorem Spelled.wordValue_eq {items : List WordItem} (h : Spelled items w) :
    wordValue w = WordItem.value items := by
  rw [FourGL.wordValue_eq, h.text_eq]
  refine wordChars_flatMap fun item hitem => ?_
  obtain ⟨first, hfirst, hstart⟩ := h.head
  cases items with
  | nil => cases hfirst
  | cons item' items =>
    cases hfirst
    rcases List.mem_cons.mp hitem with rfl | hitem
    · exact hstart.part
    · exact h.tail item hitem

/-! ## Words of a text -/

theorem exists_item_of_mem (h : w ∈ one p + unicodeEscape) :
    ∃ item : WordItem, item.IsWritten p ∧ w = item.text := by
  rcases h with ⟨c, hc, rfl⟩ | h
  · exact ⟨.char c, hc, rfl⟩
  · rcases mem_unicodeEscape.mp h with ⟨digits, rfl, hdigits⟩ | ⟨digits, rfl, hdigits⟩
    · exact ⟨.short digits, hdigits, rfl⟩
    · exact ⟨.long digits, hdigits, rfl⟩

theorem exists_items_of_mem (h : w ∈ (one p + unicodeEscape)∗) :
    ∃ items : List WordItem, (∀ item ∈ items, item.IsWritten p) ∧ w = items.flatMap WordItem.text := by
  obtain ⟨ws, rfl, hws⟩ := Language.mem_kstar.mp h
  clear h
  induction ws with
  | nil => exact ⟨[], nofun, rfl⟩
  | cons w ws ih =>
    obtain ⟨hw, htail⟩ := List.forall_mem_cons.mp hws
    obtain ⟨item, hitem, rfl⟩ := exists_item_of_mem hw
    obtain ⟨items, hitems, heq⟩ := ih htail
    exact ⟨item :: items, List.forall_mem_cons.mpr ⟨hitem, hitems⟩, by
      rw [List.flatten_cons, heq, List.flatMap_cons]⟩

theorem exists_spelled (h : w ∈ CharPattern.word) : ∃ items, Spelled items w := by
  obtain ⟨first, hfirst, rest, hrest, rfl⟩ := Language.mem_mul.mp h
  obtain ⟨item, hitem, rfl⟩ := exists_item_of_mem hfirst
  obtain ⟨items, hitems, rfl⟩ := exists_items_of_mem hrest
  exact ⟨item :: items, rfl, ⟨item, rfl, hitem⟩, hitems⟩

theorem Lexeme.exists_isHead_of_mem {l : Lexeme} (h : l ∈ Lexeme.split cs) : ∃ rest, l.IsHead rest := by
  have hcuts := Lexeme.cuts_split cs
  generalize Lexeme.split cs = ls at h hcuts
  induction hcuts with
  | nil => cases h
  | cons _ hhead _ ih =>
    rcases List.mem_cons.mp h with rfl | h
    · exact ⟨_, hhead⟩
    · exact ih h

theorem Lexeme.mem_word_of_mem_split {l : Lexeme} (h : l ∈ Lexeme.split cs)
    (hkind : l.kind = some .word) : l.text ∈ CharPattern.word := by
  obtain ⟨rest, hhead⟩ := Lexeme.exists_isHead_of_mem h
  have hmatches := hhead.matches hkind
  cases hmatches with
  | word hword => exact hword

/-- How words are read, in a text and in any of its stretches. -/
structure WordsDecoded (cs : List Char) : Prop where
  /-- Read by byte offsets, the text is never cut inside a character, and has the same items. -/
  bytewise : wordLoop [] cs = some (wordChars 0 cs)
  /-- A text that stands for itself has the value that its items give it. -/
  value : wordValue cs = String.ofList <$> wordChars 0 cs
  /-- A word of the text is spelled by items, -/
  spelled : ∀ l ∈ Lexeme.split cs, l.kind = some .word → ∃ items, Spelled items l.text
  /-- and its value is what the items that spell it stand for. -/
  decoded : ∀ l ∈ Lexeme.split cs, l.kind = some .word →
    ∀ items, Spelled items l.text → wordValue l.text = WordItem.value items

/-- **Words.** In every text, words have the values of the items that spell them. -/
theorem words_decoded (cs : List Char) : WordsDecoded cs where
  bytewise := by
    rw [wordLoop_eq]
    cases wordChars 0 cs <;> rfl
  value := wordValue_eq cs
  spelled _ hl hkind := exists_spelled (Lexeme.mem_word_of_mem_split hl hkind)
  decoded _ _ _ _ hspelled := hspelled.wordValue_eq

/-- An escape for a joiner is left out, and one for a surrogate leaves the word without a value. -/
theorem words_decoded_escapes :
    wordValue "a\\u200Db\\U0001F600".toList = .ok "ab😀" ∧
      wordValue "x\\uD800".toList = .error .invalidCodePoint := by
  have hjoiner := (words_decoded "a\\u200Db\\U0001F600".toList).decoded
    ⟨some .word, "a\\u200Db\\U0001F600".toList⟩ (by decide +kernel) rfl
    [.char 'a', .short "200D".toList, .char 'b', .long "0001F600".toList]
    ⟨by decide, ⟨_, rfl, by decide⟩, by decide⟩
  have hsurrogate := (words_decoded "x\\uD800".toList).decoded
    ⟨some .word, "x\\uD800".toList⟩ (by decide +kernel) rfl [.char 'x', .short "D800".toList]
    ⟨by decide, ⟨_, rfl, by decide⟩, by decide⟩
  exact ⟨hjoiner.trans (by decide +kernel), hsurrogate.trans (by decide +kernel)⟩

end FourGL
