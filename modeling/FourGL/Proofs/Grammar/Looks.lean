import FourGL.Proofs.Grammar.Entering
import FourGL.Proofs.Grammar.Parts

/-!
# Looks by number

To tell whether parts with the same look are the same, their looks and texts are compared as numbers:
the digits of `Rule.spellLook` are the bytes of what `Rule.render` writes.

**Theorem (`eq_of_allApart`).** Where every rule is apart from those after it, rules that look the same
are the same.
-/

namespace FourGL

open Text (bytes code spell spellCapital spell_append code_injective)

/-! ## What parts look like -/

namespace Rule

/-- Spells what a rule looks like as an operand. -/
def spellOperand (compound : Bool) (look : Nat → Nat) (n : Nat) : Nat :=
  bif compound then spell (look (spell n "(")) ")" else look n

/-- Spells what a repetition with separators looks like. -/
def spellSeparated (item separator : Nat → Nat) (n : Nat) : Nat :=
  spell (item (spell (separator (spell (item n) " (")) " ")) ")*"

mutual

/-- Spells what a rule looks like, as further digits of a number. -/
def spellLook : Rule → Nat → Nat
  | .empty, n => spell n "ε"
  | .keyword text, n => spellCapital n text
  | .symbol text, n | .ref text, n => spell n text
  | .seq items, n => spellOperands items n
  | .alt items, n => spell (spellEach items (spell n "(")) ")"
  | .opt item, n => spell (spellOperand item.isCompound item.spellLook n) "?"
  | .star item, n => spell (spellOperand item.isCompound item.spellLook n) "*"
  | .plus item, n => spell (spellOperand item.isCompound item.spellLook n) "+"
  | .plusSep item separator, n =>
    spellSeparated (spellOperand item.isCompound item.spellLook) separator.spellLook n
  | .starSep item separator, n =>
    spell (spellSeparated (spellOperand item.isCompound item.spellLook) separator.spellLook
      (spell n "(")) ")?"

/-- Spells what the rules look like, with bars between them. -/
def spellEach : List Rule → Nat → Nat
  | [], n => n
  | [r], n => r.spellLook n
  | r :: q :: rs, n => spellEach (q :: rs) (spell (r.spellLook n) " | ")

/-- Spells what the rules look like as operands, with blanks between them. -/
def spellOperands : List Rule → Nat → Nat
  | [], n => n
  | [r], n => spellOperand r.isCompound r.spellLook n
  | r :: q :: rs, n =>
    spellOperands (q :: rs) (spell (spellOperand r.isCompound r.spellLook n) " ")

end

variable {p q r : Rule} {rs : List Rule}

theorem spellOperand_eq (h : ∀ n, r.spellLook n = spell n r.render) (n : Nat) :
    spellOperand r.isCompound r.spellLook n = spell n (r.operand r.render) := by
  cases hc : r.isCompound
  · rw [spellOperand, operand, hc, cond_false, if_neg Bool.false_ne_true, h]
  · rw [spellOperand, operand, hc, cond_true, if_pos rfl, spell_append, spell_append, h]

theorem spellSeparated_eq {item separator : Nat → Nat} {s t : String}
    (hitem : ∀ n, item n = spell n s) (hseparator : ∀ n, separator n = spell n t) (n : Nat) :
    spellSeparated item separator n = spell n (renderSeparated s t) := by
  simp only [spellSeparated, renderSeparated, spell_append, hitem, hseparator]

theorem spell_nil (n : Nat) : spell n "" = n := rfl

theorem spell_intercalate_cons (n : Nat) (s t u : String) (ts : List String) :
    spell n (s.intercalate (t :: u :: ts)) = spell (spell (spell n t) s) (s.intercalate (u :: ts)) := by
  rw [String.intercalate_cons_cons, spell_append, spell_append]

mutual

/-- A rule with plain keywords is spelled as it is rendered. -/
theorem spellLook_eq : ∀ (r : Rule), (∀ m ∈ r.mentions, m.Plain) → ∀ n,
    r.spellLook n = spell n r.render
  | .empty, _, _ | .symbol _, _, _ | .ref _, _, _ => by rw [spellLook, render]
  | .keyword text, h, n => by
    have hword : Text.IsSmallWord text := h (.keyword text) List.mem_cons_self
    rw [spellLook, render, hword.spell_uppercase]
  | .seq items, h, n => by rw [spellLook, render, spellOperands_eq items h]
  | .alt items, h, n => by
    rw [spellLook, render, spell_append, spell_append, spellEach_eq items h]
  | .opt item, h, n | .star item, h, n | .plus item, h, n => by
    rw [spellLook, render, spell_append, spellOperand_eq (spellLook_eq item h)]
  | .plusSep item separator, h, n => by
    obtain ⟨hitem, hseparator⟩ := List.forall_mem_append.mp h
    rw [spellLook, render, spellSeparated_eq (spellOperand_eq (spellLook_eq item hitem))
      (spellLook_eq separator hseparator)]
  | .starSep item separator, h, n => by
    obtain ⟨hitem, hseparator⟩ := List.forall_mem_append.mp h
    rw [spellLook, render, spell_append, spell_append,
      spellSeparated_eq (spellOperand_eq (spellLook_eq item hitem))
        (spellLook_eq separator hseparator)]

theorem spellEach_eq : ∀ (rs : List Rule), (∀ m ∈ mentionsOfAll rs, m.Plain) → ∀ n,
    spellEach rs n = spell n (" | ".intercalate (renderEach rs))
  | [], _, _ => by rw [spellEach, renderEach, String.intercalate_nil, spell_nil]
  | [r], h, n => by
    obtain ⟨hr, -⟩ := List.forall_mem_append.mp h
    rw [spellEach, renderEach, renderEach, String.intercalate_singleton, spellLook_eq r hr]
  | r :: q :: rs, h, n => by
    obtain ⟨hr, hrs⟩ := List.forall_mem_append.mp h
    simp only [spellEach, spellEach_eq (q :: rs) hrs, spellLook_eq r hr, renderEach,
      spell_intercalate_cons]

theorem spellOperands_eq : ∀ (rs : List Rule), (∀ m ∈ mentionsOfAll rs, m.Plain) → ∀ n,
    spellOperands rs n = spell n (" ".intercalate (renderOperands rs))
  | [], _, _ => by rw [spellOperands, renderOperands, String.intercalate_nil, spell_nil]
  | [r], h, n => by
    obtain ⟨hr, -⟩ := List.forall_mem_append.mp h
    rw [spellOperands, renderOperands, renderOperands, String.intercalate_singleton,
      spellOperand_eq (spellLook_eq r hr)]
  | r :: q :: rs, h, n => by
    obtain ⟨hr, hrs⟩ := List.forall_mem_append.mp h
    simp only [spellOperands, spellOperands_eq (q :: rs) hrs, spellOperand_eq (spellLook_eq r hr),
      renderOperands, spell_intercalate_cons]

end

/-! ## Equal parts -/

/-- Whether two texts are the same, judged by their numbers. -/
def sameText (s t : String) : Bool := Nat.beq (code s) (code t)

theorem eq_of_sameText {s t : String} (h : sameText s t = true) : s = t :=
  code_injective (Nat.eq_of_beq_eq_true h)

theorem sameText_self (s : String) : sameText s s = true := Nat.beq_refl _

mutual

/-- Whether two rules are the same. -/
def same : Rule → Rule → Bool
  | .empty, .empty => true
  | .keyword s, .keyword t | .symbol s, .symbol t | .ref s, .ref t => sameText s t
  | .seq ps, .seq qs | .alt ps, .alt qs => sameEach ps qs
  | .opt p, .opt q | .star p, .star q | .plus p, .plus q => p.same q
  | .starSep p s, .starSep q t | .plusSep p s, .plusSep q t => p.same q && s.same t
  | _, _ => false

/-- Whether the rules are the same in their order. -/
def sameEach : List Rule → List Rule → Bool
  | [], [] => true
  | p :: ps, q :: qs => p.same q && sameEach ps qs
  | _, _ => false

end


mutual

theorem eq_of_same : ∀ {p q : Rule}, p.same q = true → p = q
  | .empty, .empty, _ => rfl
  | .keyword s, .keyword t, h | .symbol s, .symbol t, h | .ref s, .ref t, h => by
    have heq : sameText s t = true := by simpa only [same] using h
    rw [eq_of_sameText heq]
  | .seq ps, .seq qs, h | .alt ps, .alt qs, h => by
    have heq : sameEach ps qs = true := by simpa only [same] using h
    rw [eq_of_sameEach heq]
  | .opt p, .opt q, h | .star p, .star q, h | .plus p, .plus q, h => by
    have heq : p.same q = true := by simpa only [same] using h
    rw [eq_of_same heq]
  | .starSep p s, .starSep q t, h | .plusSep p s, .plusSep q t, h => by
    have heq : p.same q = true ∧ s.same t = true := by
      simpa only [same, Bool.and_eq_true] using h
    rw [eq_of_same heq.1, eq_of_same heq.2]

theorem eq_of_sameEach : ∀ {ps qs : List Rule}, sameEach ps qs = true → ps = qs
  | [], [], _ => rfl
  | p :: ps, q :: qs, h => by
    have heq : p.same q = true ∧ sameEach ps qs = true := by
      simpa only [sameEach, Bool.and_eq_true] using h
    rw [eq_of_same heq.1, eq_of_sameEach heq.2]

end

mutual

theorem Alike.refl (v : Vocabulary) : ∀ r : Rule, r.Alike v r
  | .empty => .empty
  | .keyword _ => .keyword rfl rfl
  | .symbol text => .symbol text
  | .ref name => .ref name
  | .seq items => .seq (AlikeEach.refl v items)
  | .alt items => .alt (AlikeEach.refl v items)
  | .opt item => .opt (Alike.refl v item)
  | .star item => .star (Alike.refl v item)
  | .plus item => .plus (Alike.refl v item)
  | .starSep item separator => .starSep (Alike.refl v item) (Alike.refl v separator)
  | .plusSep item separator => .plusSep (Alike.refl v item) (Alike.refl v separator)

theorem AlikeEach.refl (v : Vocabulary) : ∀ rs : List Rule, AlikeEach v rs rs
  | [] => .nil
  | r :: rs => .cons (Alike.refl v r) (AlikeEach.refl v rs)

end

/-- The rules look different or are the same. -/
def apart (p q : Rule) : Bool := !Nat.beq (p.spellLook 1) (q.spellLook 1) || p.same q

/-- Whether every rule is apart from those after it. -/
def allApart : List Rule → Bool
  | [] => true
  | p :: ps => ps.all p.apart && allApart ps

theorem eq_of_apart (hp : ∀ m ∈ p.mentions, m.Plain) (hq : ∀ m ∈ q.mentions, m.Plain)
    (h : p.apart q = true) (hlook : p.render = q.render) : p = q := by
  have hcode : p.spellLook 1 = q.spellLook 1 := by
    rw [spellLook_eq p hp, spellLook_eq q hq, hlook]
  rw [apart, hcode, Nat.beq_refl] at h
  exact eq_of_same h

theorem eq_of_allApart (hplain : ∀ p ∈ rs, ∀ m ∈ p.mentions, m.Plain) (h : allApart rs = true)
    (hp : p ∈ rs) (hq : q ∈ rs) (hlook : p.render = q.render) : p = q := by
  induction rs with
  | nil => cases hp
  | cons r rs ih =>
    simp only [allApart, Bool.and_eq_true, List.all_eq_true] at h
    obtain ⟨hr, hrs⟩ := List.forall_mem_cons.mp hplain
    rcases List.mem_cons.mp hp with rfl | hp' <;> rcases List.mem_cons.mp hq with rfl | hq'
    · rfl
    · exact eq_of_apart hr (hrs q hq') (h.1 q hq') hlook
    · exact (eq_of_apart hr (hrs p hp') (h.1 p hp') hlook.symm).symm
    · exact ih hrs h.2 hp' hq'

end Rule

end FourGL
