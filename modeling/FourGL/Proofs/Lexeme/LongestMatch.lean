import FourGL.Proofs.Lexeme.Bodies
import FourGL.Proofs.Lexeme.Heads
import FourGL.Proofs.Lexeme.Patterns
import Mathlib.Tactic.IntervalCases

/-!
# The longest match

**Theorem (`split_eq_iff`).** The lexemes of a text are the one list `Cuts` allows: its members are not
empty and make up the text, and each is what the rest at its point calls for.

- Where members of classes stand at the head of the rest, it is the longest of them, with its class. There
  is one class only that has it.
- Where none stands there, it is the longest stretch that begins a member of some class, or one character
  if none does.

A class is given by its pattern (`LexicalClass.Matches`). The member of a quotation depends on what
follows, since a body goes on as far as it can.
-/

namespace FourGL

open Text CharPattern

variable {c : Char} {cs pre text rest : List Char} {kind : LexicalClass} {l : Lexeme} {m : Match}

/-! ## Members of classes -/

/-- The text is a member of the class in front of a rest. -/
inductive LexicalClass.Matches : LexicalClass → List Char → List Char → Prop
  | blank {text rest : List Char} : text ∈ CharPattern.blank → Matches .blank text rest
  | comment {text rest : List Char} : text ∈ CharPattern.comment → Matches .comment text rest
  | word {text rest : List Char} : text ∈ CharPattern.word → Matches .word text rest
  | number {text rest : List Char} : text ∈ CharPattern.number → Matches .number text rest
  | quoted {q : Quoting} {body rest : List Char} {closed : Bool} : q.Reads body closed rest →
    Matches (.quoted q closed) (q.opener ++ body) rest
  | operator (op : Operator) (rest : List Char) : Matches (.operator op) op.text.toList rest

/-- No member of a class stands at the head of the text. -/
def Unmatched (cs : List Char) : Prop :=
  ∀ (kind : LexicalClass) (text rest : List Char), cs = text ++ rest → ¬ kind.Matches text rest

/-- Some member of some class begins with the text. -/
def Begins (pre : List Char) : Prop :=
  ∃ (kind : LexicalClass) (more rest : List Char), kind.Matches (pre ++ more) rest

/-- What the lexeme at the head of a text is to be, with the rest behind it. -/
inductive Lexeme.IsHead : Lexeme → List Char → Prop
  | matched {kind : LexicalClass} {text rest : List Char} : kind.Matches text rest →
    (∀ (kind' : LexicalClass) (text' rest' : List Char), text ++ rest = text' ++ rest' →
      kind'.Matches text' rest' → text'.length < text.length ∨ text' = text ∧ kind' = kind) →
    IsHead ⟨some kind, text⟩ rest
  | stuck {text rest : List Char} : Unmatched (text ++ rest) →
    (Begins text ∨ text.length = 1) →
    (∀ pre rest', text ++ rest = pre ++ rest' → Begins pre → pre.length ≤ text.length) →
    IsHead ⟨none, text⟩ rest

/-- The lexemes make up the text, none of them is empty, and each is the one at the head of what is left. -/
inductive Cuts : List Char → List Lexeme → Prop
  | nil : Cuts [] []
  | cons {l : Lexeme} {rest : List Char} {ls : List Lexeme} : l.text ≠ [] → l.IsHead rest →
    Cuts rest ls → Cuts (l.text ++ rest) (l :: ls)

theorem LexicalClass.Matches.ne_nil (h : kind.Matches text rest) : text ≠ [] := by
  cases h with
  | blank h => exact (mem_run.mp h).1
  | comment h =>
    obtain ⟨_, rfl, v, -, rfl⟩ := Language.mem_mul.mp h
    exact List.cons_ne_nil '#' v
  | word h =>
    obtain ⟨c, cs, rfl, -⟩ := exists_cons_of_mem_word h
    exact List.cons_ne_nil c cs
  | number h =>
    obtain ⟨c, cs, rfl, -⟩ := exists_cons_of_mem_number h
    exact List.cons_ne_nil c cs
  | quoted => exact Quoting.opener_append_ne_nil _ _
  | operator op => cases op <;> exact List.cons_ne_nil _ _

/-! ## Matches at the head -/

/-- A member at the head of a text is no longer than the match found for its class. -/
theorem LexicalClass.Matches.exists_headed (h : kind.Matches text rest) :
    ∃ n, text.length ≤ n ∧ Headed (text ++ rest) ⟨kind, n⟩ := by
  have hpos := List.length_pos_of_ne_nil h.ne_nil
  cases h with
  | blank h =>
    have hle := measures_blank.longest text h rest
    exact ⟨_, hle, .blank (by omega)⟩
  | comment h =>
    have hle := measures_comment.longest text h rest
    exact ⟨_, hle, .comment (by omega)⟩
  | word h =>
    have hle := measures_word.longest text h rest
    exact ⟨_, hle, .word (by omega)⟩
  | number h =>
    have hle := measures_number.longest text h rest
    exact ⟨_, hle, .number (by omega)⟩
  | @quoted q body _ closed h =>
    have hheaded := Headed.quoted q (body ++ rest) (List.append_assoc _ _ _)
    rw [h.body_eq] at hheaded
    exact ⟨_, Nat.le_of_eq List.length_append, hheaded⟩
  | operator op =>
    exact ⟨_, Nat.le_of_eq String.length_toList, .operator op (List.prefix_append _ _)⟩

/-- A match found is a member of its class. -/
theorem Headed.matches (h : Headed cs m) : m.kind.Matches (cs.take m.length) (cs.drop m.length) := by
  cases h with
  | blank h => exact .blank (measures_blank.member cs h)
  | comment h => exact .comment (measures_comment.member cs h)
  | word h => exact .word (measures_word.member cs h)
  | number h => exact .number (measures_number.member cs h)
  | quoted q rest h =>
    subst h
    obtain ⟨body, closed, rest, rfl, hreads⟩ := q.exists_reads rest
    rw [hreads.body_eq, List.take_length_add_append, List.drop_length_add_append, List.take_left,
      List.drop_left]
    exact .quoted hreads
  | operator op h =>
    obtain ⟨rest, rfl⟩ := h
    rw [← String.length_toList, List.take_left, List.drop_left]
    exact .operator op rest

/-! ## The class of a member -/

/-- The class with the closing quote left aside. -/
def LexicalClass.shape : LexicalClass → LexicalClass
  | .quoted q _ => .quoted q false
  | kind => kind

/-- The shape of the only class that the text may be a member of, by its first characters. -/
def shapeOf : List Char → LexicalClass
  | [] => .blank
  | c :: cs =>
    if isIdentifierStart c || c == '\\' then .word
    else if isBlank c then .blank
    else if isDigit c then .number
    else
      match c, cs with
      | '#', _ => .comment
      | '.', _ :: _ => .number
      | '"', _ => .quoted .escaped false
      | '@', '"' :: _ => .quoted .verbatim false
      | '\'', _ => .quoted .single false
      | _, _ =>
        match Operator.ofText? (String.ofList (c :: cs)) with
        | some op => .operator op
        | none => .blank

/-- What holds of every digit, one by one, holds of a digit. -/
theorem of_isDigit {p : Char → Bool} (h : isDigit c = true)
    (hall : ['0', '1', '2', '3', '4', '5', '6', '7', '8', '9'].all p = true) : p c = true := by
  refine List.all_eq_true.mp hall c ?_
  simp only [isDigit, Bool.and_eq_true, decide_eq_true_eq] at h
  have hlow : 48 ≤ c.toNat := h.1
  have hhigh : c.toNat ≤ 57 := h.2
  rw [← Char.ofNat_toNat c]
  interval_cases c.toNat <;> decide

theorem LexicalClass.Matches.shape_eq (h : kind.Matches text rest) : kind.shape = shapeOf text := by
  cases h with
  | blank h =>
    obtain ⟨hne, hall⟩ := mem_run.mp h
    obtain ⟨c, cs, rfl⟩ := List.exists_cons_of_ne_nil hne
    have hc := hall c List.mem_cons_self
    have hword : (!(isIdentifierStart c || c == '\\')) = true := by
      refine of_isBlank (p := fun c => !(isIdentifierStart c || c == '\\')) hc (by decide +kernel)
    rw [Bool.not_eq_true'] at hword
    simp [shapeOf, shape, hword, hc]
  | comment h =>
    obtain ⟨_, rfl, v, -, rfl⟩ := Language.mem_mul.mp h
    rfl
  | word h =>
    obtain ⟨c, cs, rfl, hc⟩ := exists_cons_of_mem_word h
    have hword : (isIdentifierStart c || c == '\\') = true := by simpa using hc
    simp [shapeOf, shape, hword]
  | number h =>
    obtain ⟨c, cs, rfl, hc | ⟨rfl, hcs⟩⟩ := exists_cons_of_mem_number h
    · have hword : (!(isIdentifierStart c || c == '\\') && !isBlank c) = true :=
        of_isDigit (p := fun c => !(isIdentifierStart c || c == '\\') && !isBlank c) hc
          (by decide +kernel)
      simp only [Bool.and_eq_true, Bool.not_eq_true'] at hword
      simp [shapeOf, shape, hword, hc]
    · obtain ⟨d, ds, rfl⟩ := List.exists_cons_of_ne_nil hcs
      rfl
  | @quoted q body _ closed h => cases q <;> rfl
  | operator op => cases op <;> rfl

theorem LexicalClass.matches_quoted {q : Quoting} {closed : Bool} :
    (quoted q closed).Matches text rest ↔ ∃ body, text = q.opener ++ body ∧ q.Reads body closed rest :=
  ⟨fun | .quoted h => ⟨_, rfl, h⟩, fun ⟨_, htext, h⟩ => htext ▸ .quoted h⟩

theorem LexicalClass.eq_of_shape {kind' : LexicalClass} (h : kind.shape = kind'.shape) :
    kind = kind' ∨ ∃ q closed closed', kind = .quoted q closed ∧ kind' = .quoted q closed' := by
  cases kind with
  | blank | comment | word | number | operator =>
    cases kind' <;> cases h
    exact Or.inl rfl
  | quoted q closed =>
    cases kind' <;> cases h
    exact Or.inr ⟨_, _, _, rfl, rfl⟩

/-- No two classes share a member. -/
theorem LexicalClass.Matches.kind_unique {kind' : LexicalClass} (h : kind.Matches text rest)
    (h' : kind'.Matches text rest) : kind = kind' := by
  obtain rfl | ⟨q, closed, closed', rfl, rfl⟩ := eq_of_shape (h.shape_eq.trans h'.shape_eq.symm)
  · rfl
  · obtain ⟨body, rfl, hreads⟩ := matches_quoted.mp h
    obtain ⟨body', htext, hreads'⟩ := matches_quoted.mp h'
    obtain rfl := List.append_cancel_left htext
    have hclosed := hreads.body_eq.symm.trans hreads'.body_eq
    rw [(BodyExtent.mk.inj hclosed).2]

/-! ## Where nothing matches -/

theorem unmatched_iff : Unmatched cs ↔ longestMatch cs = none := by
  constructor
  · intro h
    cases hm : longestMatch cs with
    | none => rfl
    | some m => exact absurd (headed_longestMatch hm).matches (h _ _ _ (List.take_append_drop _ _).symm)
  · rintro hnone kind text rest rfl h
    obtain ⟨n, -, hheaded⟩ := h.exists_headed
    obtain ⟨m, hm⟩ := hheaded.exists_longestMatch
    rw [hnone] at hm
    cases hm

theorem Unmatched.not_operator (h : Unmatched cs) (op : Operator) : ¬ op.text.toList <+: cs := by
  rintro ⟨rest, rfl⟩
  exact h _ _ _ rfl (.operator op rest)

theorem Unmatched.not_opener (h : Unmatched cs) (q : Quoting) : ¬ q.opener <+: cs := by
  rintro ⟨rest, rfl⟩
  obtain ⟨body, closed, rest, rfl, hreads⟩ := q.exists_reads rest
  exact h _ _ _ (List.append_assoc _ _ _).symm (.quoted hreads)

/-- A part of an escape that stands there is no longer than the stretch set aside. -/
theorem length_le_stuckExtent {x : Char} {k : Nat} {ds : List Char}
    (hx : x = 'u' ∧ k = 4 ∨ x = 'U' ∧ k = 8) (hlength : ds.length ≤ k)
    (hall : ∀ c ∈ ds, isHexDigit c = true) (rest : List Char) :
    2 + ds.length ≤ stuckExtent ('\\' :: x :: (ds ++ rest)) := by
  have hleading := leading_append_of_forall hall rest
  obtain ⟨rfl, rfl⟩ | ⟨rfl, rfl⟩ := hx
  · simp [stuckExtent_cons, leading_take]
    omega
  · simp [stuckExtent_cons, leading_take]
    omega

theorem mem_word_of_start (hc : isIdentifierStart c = true) : [c] ∈ CharPattern.word :=
  Language.append_mem_mul (a := [c]) (Or.inl ⟨c, hc, rfl⟩) (Language.nil_mem_kstar _)

theorem mem_word_of_unicodeEscape (h : text ∈ unicodeEscape) : text ∈ CharPattern.word := by
  have hword : text ++ [] ∈ CharPattern.word :=
    Language.append_mem_mul (Or.inr h) (Language.nil_mem_kstar _)
  rwa [List.append_nil] at hword

theorem mem_number_of_digit (hc : isDigit c = true) : [c] ∈ CharPattern.number :=
  Or.inl (Or.inl (Or.inl (Or.inl (mem_run.mpr ⟨List.cons_ne_nil c [], by simpa using hc⟩))))

/-- A text that begins an escape goes on no longer than the stretch set aside. -/
theorem Unmatched.length_le_of_escape {x : Char} {k : Nat} {digits items ds more : List Char}
    (hx : x = 'u' ∧ k = 4 ∨ x = 'U' ∧ k = 8) (hdigits : digits.length = k)
    (hall : ∀ c ∈ digits, isHexDigit c = true) (hescape : '\\' :: x :: digits ∈ unicodeEscape)
    (happend : ds ++ more = digits ++ items) (h : Unmatched ('\\' :: x :: (ds ++ rest))) :
    2 + ds.length ≤ stuckExtent ('\\' :: x :: (ds ++ rest)) := by
  rcases List.append_eq_append_iff.mp happend with ⟨tail, rfl, -⟩ | ⟨tail, rfl, -⟩
  · rw [List.length_append] at hdigits
    exact length_le_stuckExtent hx (by omega) (fun c hc => hall c (List.mem_append_left _ hc)) rest
  · -- the escape is complete, so it is a word
    have hword := mem_word_of_unicodeEscape hescape
    exact absurd (.word hword) (h .word _ (tail ++ rest) (by simp))

theorem Operator.length_text_le (op : Operator) : op.text.length ≤ 2 := by cases op <;> decide

/-- Two characters or more, where nothing matches, can begin a word only. -/
theorem Unmatched.exists_word {d : Char} {ds : List Char} (h : Unmatched (c :: d :: ds ++ rest))
    (hbegins : Begins (c :: d :: ds)) : ∃ more, c :: d :: ds ++ more ∈ CharPattern.word := by
  obtain ⟨kind, more, rest', hmatches⟩ := hbegins
  generalize htext : c :: d :: ds ++ more = text at hmatches
  cases hmatches with
  | blank hblank =>
    subst htext
    have hc := (mem_run.mp hblank).2 c List.mem_cons_self
    have hone : [c] ∈ CharPattern.blank := mem_run.mpr ⟨List.cons_ne_nil c [], by simpa using hc⟩
    exact absurd (.blank hone) (h _ [c] _ rfl)
  | comment hcomment =>
    obtain ⟨_, rfl, v, -, rfl⟩ := Language.mem_mul.mp hcomment
    obtain ⟨rfl, -⟩ := List.cons.inj htext
    have hone : ['#'] ∈ CharPattern.comment :=
      Language.append_mem_mul (a := ['#']) rfl (Language.nil_mem_kstar _)
    exact absurd (.comment hone) (h _ ['#'] _ rfl)
  | word hword => exact ⟨more, htext ▸ hword⟩
  | number hnumber =>
    obtain ⟨e, es, rfl, he | ⟨rfl, -⟩⟩ := exists_cons_of_mem_number hnumber
    · obtain ⟨rfl, -⟩ := List.cons.inj htext
      exact absurd (.number (mem_number_of_digit he)) (h _ [c] _ rfl)
    · obtain ⟨rfl, -⟩ := List.cons.inj htext
      exact absurd ⟨_, rfl⟩ (h.not_operator .dot)
  | @quoted q body _ _ _ =>
    cases q with
    | escaped =>
      obtain ⟨rfl, -⟩ := List.cons.inj htext
      exact absurd ⟨_, rfl⟩ (h.not_opener .escaped)
    | verbatim =>
      obtain ⟨rfl, -⟩ := List.cons.inj htext
      exact absurd ⟨_, rfl⟩ (h.not_operator .atSign)
    | single =>
      obtain ⟨rfl, -⟩ := List.cons.inj htext
      exact absurd ⟨_, rfl⟩ (h.not_opener .single)
  | operator op =>
    have hle := op.length_text_le
    have hlength := congrArg List.length htext
    rw [String.length_toList, List.length_append, List.length_cons, List.length_cons] at hlength
    obtain rfl : more = [] := List.length_eq_zero_iff.mp (by omega)
    rw [List.append_nil] at htext
    exact absurd ⟨rest, by rw [htext]⟩ (h.not_operator op)

/-- No stretch that begins a member is longer than the one set aside. -/
theorem Unmatched.length_le (h : Unmatched (pre ++ rest)) (hbegins : Begins pre) :
    pre.length ≤ stuckExtent (pre ++ rest) := by
  match pre with
  | [] => exact Nat.zero_le _
  | [c] => exact stuckExtent_pos _
  | c :: d :: ds =>
    obtain ⟨more, hword⟩ := h.exists_word hbegins
    obtain ⟨item, hitem, items, -, htext⟩ := Language.mem_mul.mp hword
    have hlength : (c :: d :: ds).length = 2 + ds.length := Nat.add_comm _ 2
    rcases hitem with ⟨e, he, rfl⟩ | hescape
    · obtain ⟨rfl, -⟩ := List.cons.inj htext
      exact absurd (.word (mem_word_of_start he)) (h _ [e] _ rfl)
    · rw [hlength]
      rcases mem_unicodeEscape.mp hescape with
        ⟨digits, rfl, hdigits, hall⟩ | ⟨digits, rfl, hdigits, hall⟩
      · obtain ⟨rfl, htail⟩ := List.cons.inj htext
        obtain ⟨rfl, happend⟩ := List.cons.inj htail
        exact h.length_le_of_escape (Or.inl ⟨rfl, rfl⟩) hdigits hall hescape happend.symm
      · obtain ⟨rfl, htail⟩ := List.cons.inj htext
        obtain ⟨rfl, happend⟩ := List.cons.inj htail
        exact h.length_le_of_escape (Or.inr ⟨rfl, rfl⟩) hdigits hall hescape happend.symm

/-- Digits of an escape that may still become one. -/
theorem begins_escape {x : Char} {k : Nat} {ds : List Char} (hx : x = 'u' ∧ k = 4 ∨ x = 'U' ∧ k = 8)
    (hlength : ds.length ≤ k) (hall : ∀ c ∈ ds, isHexDigit c = true) :
    Begins ('\\' :: x :: ds) := by
  have hpadded : (ds ++ List.replicate (k - ds.length) '0').length = k := by
    rw [List.length_append, List.length_replicate]
    omega
  have hpad : ∀ c ∈ ds ++ List.replicate (k - ds.length) '0', isHexDigit c = true := by
    intro c hc
    rcases List.mem_append.mp hc with hc | hc
    · exact hall c hc
    · rw [List.eq_of_mem_replicate hc]
      decide
  refine ⟨.word, List.replicate (k - ds.length) '0', [],
    .word (mem_word_of_unicodeEscape (mem_unicodeEscape.mpr ?_))⟩
  obtain ⟨rfl, rfl⟩ | ⟨rfl, rfl⟩ := hx
  · exact Or.inl ⟨_, rfl, hpadded, hpad⟩
  · exact Or.inr ⟨_, rfl, hpadded, hpad⟩

theorem begins_take_hexDigits {x : Char} {k : Nat} (hx : x = 'u' ∧ k = 4 ∨ x = 'U' ∧ k = 8)
    (cs : List Char) :
    Begins (('\\' :: x :: cs).take (2 + leading isHexDigit (cs.take k))) := by
  rw [Nat.add_comm, List.take_succ_cons, List.take_succ_cons, leading_take]
  refine begins_escape hx ((List.length_take_le _ _).trans (min_le_left _ _)) fun c hc => ?_
  have hsubset := List.take_subset_take_left cs (min_le_right k (leading isHexDigit cs))
  exact forall_mem_take_leading isHexDigit cs c (hsubset hc)

/-- The stretch set aside begins a member, or is one character long. -/
theorem begins_take_stuckExtent (h : cs ≠ []) :
    Begins (cs.take (stuckExtent cs)) ∨ (cs.take (stuckExtent cs)).length = 1 := by
  match cs with
  | [] => exact absurd rfl h
  | [c] => exact Or.inr (by simp [stuckExtent])
  | c :: d :: cs =>
    rw [stuckExtent_cons]
    split_ifs with hsmall hlarge
    · obtain ⟨rfl, rfl⟩ := hsmall
      exact Or.inl (begins_take_hexDigits (Or.inl ⟨rfl, rfl⟩) cs)
    · obtain ⟨rfl, rfl⟩ := hlarge
      exact Or.inl (begins_take_hexDigits (Or.inr ⟨rfl, rfl⟩) cs)
    · exact Or.inr rfl

/-! ## Lexemes -/

theorem Lexeme.head_of_unmatched (h : Unmatched cs) :
    Lexeme.head cs = ⟨none, cs.take (stuckExtent cs)⟩ := by
  rw [Lexeme.head, unmatched_iff.mp h]

theorem Lexeme.isHead_of_longestMatch (hm : longestMatch cs = some m) :
    (⟨some m.kind, cs.take m.length⟩ : Lexeme).IsHead (cs.drop m.length) := by
  have hheaded := headed_longestMatch hm
  refine .matched hheaded.matches fun kind' text' rest' heq hmatches => ?_
  rw [List.take_append_drop] at heq
  obtain ⟨n, hle, hother⟩ := hmatches.exists_headed
  rw [← heq] at hother
  have hlongest : n ≤ m.length := hother.le_longestMatch hm
  have hlength : (cs.take m.length).length = m.length := List.length_take_of_le hheaded.length_le
  rcases Nat.lt_or_eq_of_le (hle.trans hlongest) with hlt | hsame
  · exact Or.inl (by rwa [hlength])
  · -- as long as the longest match, so it is the same text
    have htext : text' = cs.take m.length := by rw [heq, List.take_left' hsame]
    have hrest : rest' = cs.drop m.length := by rw [heq, List.drop_left' hsame]
    subst htext hrest
    exact Or.inr ⟨rfl, hmatches.kind_unique hheaded.matches⟩

theorem Lexeme.isHead_of_unmatched (h : Unmatched cs) (hne : cs ≠ []) :
    (⟨none, cs.take (stuckExtent cs)⟩ : Lexeme).IsHead (cs.drop (stuckExtent cs)) := by
  have hlength : (cs.take (stuckExtent cs)).length = stuckExtent cs :=
    List.length_take_of_le (stuckExtent_le_length hne)
  refine .stuck ?_ (begins_take_stuckExtent hne) fun pre rest' heq hbegins => ?_
  · rwa [List.take_append_drop]
  · rw [List.take_append_drop] at heq
    subst heq
    rw [hlength]
    exact h.length_le hbegins

theorem Lexeme.head_eq (h : l.IsHead rest) (hne : l.text ≠ []) : Lexeme.head (l.text ++ rest) = l := by
  cases h with
  | @matched kind text rest hmatches hlongest =>
    obtain ⟨n, hle, hheaded⟩ := hmatches.exists_headed
    obtain ⟨m, hm⟩ := hheaded.exists_longestMatch
    have hn : n ≤ m.length := hheaded.le_longestMatch hm
    have hfound := headed_longestMatch hm
    have hlength : ((text ++ rest).take m.length).length = m.length :=
      List.length_take_of_le hfound.length_le
    rw [Lexeme.head_of_longestMatch hm]
    rcases hlongest _ _ _ (List.take_append_drop _ _).symm hfound.matches with hlt | ⟨htext, hkind⟩
    · omega
    · rw [htext, hkind]
  | @stuck text rest hunmatched hbegins hlongest =>
    have hne' : text ++ rest ≠ [] := List.append_ne_nil_of_left_ne_nil hne rest
    have hle : text.length ≤ stuckExtent (text ++ rest) := by
      rcases hbegins with hbegins | hone
      · exact hunmatched.length_le hbegins
      · rw [hone]
        exact stuckExtent_pos _
    have hlength : ((text ++ rest).take (stuckExtent (text ++ rest))).length =
        stuckExtent (text ++ rest) := List.length_take_of_le (stuckExtent_le_length hne')
    have hge : stuckExtent (text ++ rest) ≤ text.length := by
      rcases begins_take_stuckExtent hne' with hbegins | hone
      · rw [← hlength]
        exact hlongest _ _ (List.take_append_drop _ _).symm hbegins
      · rw [← hlength, hone]
        exact List.length_pos_of_ne_nil hne
    rw [Lexeme.head_of_unmatched hunmatched, List.take_left' (Nat.le_antisymm hle hge)]

theorem Lexeme.exists_isHead (h : cs ≠ []) :
    ∃ rest, cs = (Lexeme.head cs).text ++ rest ∧ (Lexeme.head cs).IsHead rest := by
  cases hm : longestMatch cs with
  | some m =>
    rw [Lexeme.head_of_longestMatch hm]
    exact ⟨_, (List.take_append_drop _ _).symm, Lexeme.isHead_of_longestMatch hm⟩
  | none =>
    have hunmatched := unmatched_iff.mpr hm
    rw [Lexeme.head_of_unmatched hunmatched]
    exact ⟨_, (List.take_append_drop _ _).symm, Lexeme.isHead_of_unmatched hunmatched h⟩

theorem Lexeme.cuts_split (cs : List Char) : Cuts cs (Lexeme.split cs) := by
  induction hlength : cs.length using Nat.strong_induction_on generalizing cs with
  | _ length ih =>
    by_cases hne : cs = []
    · subst hne
      exact .nil
    · obtain ⟨rest, hrest, hless, hsplit⟩ := Lexeme.exists_split hne
      obtain ⟨rest', hrest', hhead⟩ := Lexeme.exists_isHead hne
      obtain rfl : rest' = rest := List.append_cancel_left (hrest'.symm.trans hrest)
      have htext : (Lexeme.head cs).text ≠ [] := by
        intro hnil
        have hsame := congrArg List.length hrest
        rw [hnil, List.nil_append] at hsame
        omega
      have hcuts := Cuts.cons htext hhead (ih _ (hlength ▸ hless) _ rfl)
      rwa [← hrest, ← hsplit] at hcuts

/-- **Longest match.** A text is cut as `Cuts` says, and in no other way. -/
theorem Lexeme.split_eq_iff {ls : List Lexeme} : Lexeme.split cs = ls ↔ Cuts cs ls := by
  constructor
  · rintro rfl
    exact Lexeme.cuts_split cs
  · intro h
    induction h with
    | nil => rfl
    | @cons l rest ls hne hhead _ ih => rw [Lexeme.split_of_head (Lexeme.head_eq hhead hne) hne, ih]

end FourGL
