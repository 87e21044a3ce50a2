import FourGL.Text.Case
import Mathlib.Data.List.Induction

/-!
# Texts as numbers

To compare many fixed texts by evaluation, each is read as a number, with the bytes of its UTF-8 form
as the digits to the base 256. Numbers are compared at once, whatever their length.

A *small word* is written in small ASCII letters and low lines. Its capital form is the same number of
bytes, each changed by itself.

**Theorem (`code_injective`).** Different texts have different numbers.

**Theorem (`IsSmallWord.uppercase_injective`).** Different small words have different capital forms.
-/

namespace FourGL.Text

/-! ## Bytes -/

/-- The bytes of a text. -/
def bytes (s : String) : List UInt8 := s.toByteArray.data.toList

variable {s t : String} {n m : Nat} {c d : Char} {b : UInt8} {bs cs : List UInt8}

theorem bytes_injective (h : bytes s = bytes t) : s = t := by
  rw [bytes, bytes, Array.toList_inj] at h
  exact String.toByteArray_inj.mp (ByteArray.ext h)

theorem bytes_append (s t : String) : bytes (s ++ t) = bytes s ++ bytes t := by
  rw [bytes, String.toByteArray_append, ByteArray.data_append, Array.toList_append]
  rfl

theorem bytes_ofList (l : List Char) :
    bytes (String.ofList l) = l.flatMap String.utf8EncodeChar := by
  rw [bytes, String.toByteArray_ofList, List.utf8Encode, List.toList_data_toByteArray]

theorem bytes_eq (s : String) : bytes s = s.toList.flatMap String.utf8EncodeChar := by
  rw [← bytes_ofList, String.ofList_toList]

/-! ## Numbers -/

/-- The number with one more digit. -/
def place (n : Nat) (b : UInt8) : Nat := 256 * n + b.toNat

/-- The number with the bytes of a text as further digits. -/
def spell (n : Nat) (s : String) : Nat := (bytes s).foldl place n

/-- The number of a text. It starts with the digit one, so zeros in front count. -/
def code (s : String) : Nat := spell 1 s

theorem spell_append (n : Nat) (s t : String) : spell n (s ++ t) = spell (spell n s) t := by
  rw [spell, bytes_append, List.foldl_append]
  rfl

theorem place_injective (h : place n b = place m b') : n = m ∧ b = b' := by
  have hb := b.toNat_lt
  have hb' := b'.toNat_lt
  simp only [place] at h
  refine ⟨by omega, UInt8.toNat_inj.mp (by omega)⟩

theorem foldl_place_pos (h : 0 < n) (bs : List UInt8) : 0 < bs.foldl place n := by
  induction bs generalizing n with
  | nil => exact h
  | cons b bs ih => exact ih (by simp only [place]; omega)

/-- Digits are read off from behind. -/
theorem foldl_place_injective (h : bs.foldl place 1 = cs.foldl place 1) : bs = cs := by
  have hlast : ∀ (bs : List UInt8) (b : UInt8), (bs ++ [b]).foldl place 1 ≠ 1 := fun bs b heq => by
    have := foldl_place_pos Nat.one_pos bs
    simp only [List.foldl_append, List.foldl_cons, List.foldl_nil, place] at heq
    omega
  induction bs using List.reverseRecOn generalizing cs with
  | nil =>
    rcases List.eq_nil_or_concat cs with rfl | ⟨cs, c, rfl⟩
    · rfl
    · rw [List.concat_eq_append] at h
      exact absurd h.symm (hlast cs c)
  | append_singleton bs b ih =>
    rcases List.eq_nil_or_concat cs with rfl | ⟨cs, c, rfl⟩
    · exact absurd h (hlast bs b)
    · rw [List.concat_eq_append] at h ⊢
      rw [List.foldl_append, List.foldl_append] at h
      obtain ⟨hinit, rfl⟩ := place_injective h
      rw [ih hinit]

/-- **Different texts have different numbers.** -/
theorem code_injective (h : code s = code t) : s = t := bytes_injective (foldl_place_injective h)

/-! ## Small words -/

/-- A small ASCII letter or a low line. -/
def isSmall (c : Char) : Bool := c.isLower || c == '_'

/-- The text is a word of small ASCII letters and low lines. -/
def IsSmallWord (s : String) : Prop := s.toList ≠ [] ∧ ∀ c ∈ s.toList, isSmall c = true

/-- The byte is that of a small letter or a low line. -/
def isSmallByte (b : UInt8) : Bool :=
  (Nat.ble 97 b.toNat && Nat.ble b.toNat 122) || Nat.beq b.toNat 95

/-- Whether the text is a small word, judged by its bytes. -/
def isSmallWord (s : String) : Bool := !(bytes s).isEmpty && (bytes s).all isSmallByte

theorem isSmall_iff : isSmall c = true ↔ 97 ≤ c.toNat ∧ c.toNat ≤ 122 ∨ c.toNat = 95 := by
  have hlow : c = '_' ↔ c.toNat = 95 := by
    rw [← Char.toNat_inj]
    rfl
  rw [isSmall, Bool.or_eq_true, beq_iff_eq, hlow]
  delta Char.isLower
  rw [Bool.and_eq_true, decide_eq_true_eq, decide_eq_true_eq]
  rfl

theorem isSmallByte_iff :
    isSmallByte b = true ↔ 97 ≤ b.toNat ∧ b.toNat ≤ 122 ∨ b.toNat = 95 := by
  simp [isSmallByte]

/-- The first byte of a character is that of an ASCII character, or beyond ASCII. -/
theorem exists_head (c : Char) : ∃ b bs, String.utf8EncodeChar c = b :: bs ∧
    (b.toNat < 128 → c.toNat = b.toNat) := by
  simp only [String.utf8EncodeChar, show c.val.toNat = c.toNat from rfl]
  split
  · refine ⟨_, _, rfl, fun _ => ?_⟩
    rw [UInt8.toNat_ofNat']
    omega
  · split
    · refine ⟨_, _, rfl, fun h => ?_⟩
      rw [UInt8.toNat_ofNat'] at h
      omega
    · split
      · refine ⟨_, _, rfl, fun h => ?_⟩
        rw [UInt8.toNat_ofNat'] at h
        omega
      · refine ⟨_, _, rfl, fun h => ?_⟩
        rw [UInt8.toNat_ofNat'] at h
        omega

theorem isSmall_of_bytes (h : ∀ b ∈ String.utf8EncodeChar c, isSmallByte b = true) :
    isSmall c = true := by
  obtain ⟨b, bs, hc, hb⟩ := exists_head c
  have hsmall := isSmallByte_iff.mp (h b (hc ▸ List.mem_cons_self))
  rw [isSmall_iff, hb (by omega)]
  exact hsmall

theorem isSmallWord_of_bytes (h : isSmallWord s = true) : IsSmallWord s := by
  simp only [isSmallWord, Bool.and_eq_true, Bool.not_eq_true', List.isEmpty_eq_false_iff,
    List.all_eq_true, bytes_eq] at h
  refine ⟨fun hnil => h.1 (by rw [hnil]; rfl), fun c hc => ?_⟩
  exact isSmall_of_bytes fun b hb => h.2 b (List.mem_flatMap.mpr ⟨c, hc, hb⟩)

/-- The text starts with a small ASCII letter. -/
def StartsSmall (s : String) : Prop := ∃ c cs, s.toList = c :: cs ∧ 97 ≤ c.toNat ∧ c.toNat ≤ 122

/-- Whether the text starts with a small ASCII letter, judged by its bytes. -/
def startsSmall (s : String) : Bool :=
  (bytes s).head?.any fun b => Nat.ble 97 b.toNat && Nat.ble b.toNat 122

theorem startsSmall_of_bytes (h : startsSmall s = true) : StartsSmall s := by
  rw [startsSmall, bytes_eq] at h
  cases hs : s.toList with
  | nil =>
    rw [hs] at h
    cases h
  | cons c cs =>
    obtain ⟨b, bs, hc, hb⟩ := exists_head c
    rw [hs, List.flatMap_cons, hc, List.cons_append, List.head?_cons, Option.any_some,
      Bool.and_eq_true, Nat.ble_eq, Nat.ble_eq] at h
    rw [← hb (by omega)] at h
    exact ⟨c, cs, hs, h⟩

/-! ## Capital forms -/

/-- The capital form of a small letter; a low line has none of its own. -/
theorem toNat_toUpper (h : isSmall c = true) :
    c.toUpper.toNat = if c.toNat = 95 then 95 else c.toNat - 32 := by
  rw [isSmall_iff] at h
  have ha : 'a'.val ≤ c.val ↔ 97 ≤ c.toNat := Iff.rfl
  have hz : c.val ≤ 'z'.val ↔ c.toNat ≤ 122 := Iff.rfl
  delta Char.toUpper
  split
  · next h' =>
    rw [ha, hz] at h'
    show (c.val + ('A'.val - 'a'.val)).toNat = _
    rw [UInt32.toNat_add, show c.val.toNat = c.toNat from rfl,
      show ('A'.val - 'a'.val).toNat = 2 ^ 32 - 32 from rfl]
    split <;> omega
  · next h' =>
    rw [ha, hz] at h'
    rw [if_pos (by omega)]
    omega

theorem toUpper_injective (hc : isSmall c = true) (hd : isSmall d = true)
    (h : c.toUpper = d.toUpper) : c = d := by
  have hnat := congrArg Char.toNat h
  rw [toNat_toUpper hc, toNat_toUpper hd] at hnat
  rw [isSmall_iff] at hc hd
  refine Char.toNat_inj.mp ?_
  split at hnat <;> split at hnat <;> omega

theorem uppercase_eq (h : IsSmallWord s) : uppercase s = String.ofList (s.toList.map Char.toUpper) := by
  have hall := h.2
  rw [uppercase]
  generalize s.toList = l at hall
  congr 1
  induction l with
  | nil => rfl
  | cons c l ih =>
    obtain ⟨hc, hl⟩ := List.forall_mem_cons.mp hall
    have := isSmall_iff.mp hc
    rw [List.flatMap_cons, ih hl, upperChar, if_pos (by omega)]
    rfl

/-- Small words are their own small form. -/
theorem IsSmallWord.lowercase_eq (h : IsSmallWord s) : lowercase s = s := by
  have hall : ∀ cs before, (∀ c ∈ cs, isSmall c = true) → lowerAfter before cs = cs := by
    intro cs
    induction cs with
    | nil => exact fun _ _ => rfl
    | cons c cs ih =>
      intro before hcs
      obtain ⟨hc, hcs⟩ := List.forall_mem_cons.mp hcs
      have hnat := isSmall_iff.mp hc
      have hsigma : (c == 'Σ') = false := beq_eq_false_iff_ne.mpr fun heq => by
        rw [heq] at hnat
        revert hnat
        decide
      have hlower : c.toLower = c := by
        delta Char.toLower
        rw [dif_neg]
        intro h'
        have h65 : 65 ≤ c.toNat := h'.1
        have h90 : c.toNat ≤ 90 := h'.2
        omega
      rw [lowerAfter, hsigma, if_neg Bool.false_ne_true, lowerChar, if_pos (by omega), hlower,
        ih _ hcs]
      rfl
  rw [lowercase, hall _ _ h.2, String.ofList_toList]

theorem map_toUpper_injective {l l' : List Char} (hl : ∀ c ∈ l, isSmall c = true)
    (hl' : ∀ c ∈ l', isSmall c = true) (h : l.map Char.toUpper = l'.map Char.toUpper) : l = l' := by
  induction l generalizing l' with
  | nil => exact (List.map_eq_nil_iff.mp h.symm).symm
  | cons c l ih =>
    obtain ⟨d, l', rfl, hd, h⟩ := List.map_eq_cons_iff.mp h.symm
    obtain ⟨hc, hl⟩ := List.forall_mem_cons.mp hl
    obtain ⟨hd', hl'⟩ := List.forall_mem_cons.mp hl'
    rw [toUpper_injective hd' hc hd, ih hl hl' h.symm]

/-- **Different small words have different capital forms.** -/
theorem IsSmallWord.uppercase_injective (hs : IsSmallWord s) (ht : IsSmallWord t)
    (h : uppercase s = uppercase t) : s = t := by
  rw [uppercase_eq hs, uppercase_eq ht, String.ofList_inj] at h
  exact String.toList_inj.mp (map_toUpper_injective hs.2 ht.2 h)

/-- The number with one more digit, made capital. -/
def placeCapital (n : Nat) (b : UInt8) : Nat :=
  256 * n + bif Nat.beq b.toNat 95 then 95 else b.toNat - 32

/-- The number with the bytes of a small word, made capital, as further digits. -/
def spellCapital (n : Nat) (s : String) : Nat := (bytes s).foldl placeCapital n

/-- **Capital forms, byte by byte.** -/
theorem IsSmallWord.spell_uppercase (h : IsSmallWord s) (n : Nat) :
    spell n (uppercase s) = spellCapital n s := by
  rw [spell, spellCapital, uppercase_eq h, bytes_ofList, bytes_eq]
  have hall := h.2
  generalize s.toList = l at hall
  induction l generalizing n with
  | nil => rfl
  | cons c l ih =>
    obtain ⟨hc, hl⟩ := List.forall_mem_cons.mp hall
    have hnat := isSmall_iff.mp hc
    have hupper := toNat_toUpper hc
    have hone : ∀ d : Char, d.toNat ≤ 127 →
        String.utf8EncodeChar d = [UInt8.ofNat d.toNat] := fun d hd => by
      simp only [String.utf8EncodeChar]
      exact if_pos hd
    have hplace : place n (UInt8.ofNat c.toUpper.toNat) =
        placeCapital n (UInt8.ofNat c.toNat) := by
      rw [place, placeCapital, UInt8.toNat_ofNat', UInt8.toNat_ofNat', hupper]
      rcases hnat with hnat | hnat
      · have hne : c.toNat ≠ 95 := by omega
        rw [if_neg hne, Nat.mod_eq_of_lt (by omega), Nat.mod_eq_of_lt (by omega),
          Bool.eq_false_iff.mpr fun heq => hne (Nat.eq_of_beq_eq_true heq), cond_false]
      · rw [hnat]
        rfl
    rw [List.map_cons, List.flatMap_cons, List.flatMap_cons, hone c (by omega),
      hone c.toUpper (by split at hupper <;> omega), List.foldl_append, List.foldl_append]
    simp only [List.foldl_cons, List.foldl_nil, hplace]
    exact ih _ hl

end FourGL.Text
