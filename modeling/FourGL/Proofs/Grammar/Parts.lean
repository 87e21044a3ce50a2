import FourGL.Grammar.Lowering
import Mathlib.Order.Nat

/-!
# Parts of rules

The *parts* of a rule are what stands for a symbol in some right-hand side: literals, names, and
whatever needs a helper. Sequences are spliced into what is around them, so they are no parts of their
own unless they are repeated.

Helpers are found by what their part looks like. So it matters how long a part looks: it looks shorter
than the part that it belongs to, unless that *wraps* it, being a sequence of nothing else.

Two parts are *alike* if they differ at most in the case of keywords, where case does not matter.

**Theorem (`length_render_lt_of_mem_inner`).** What is inside a part looks shorter, or is wrapped.

**Theorem (`Alike.render_eq`).** Parts that are alike look the same.
-/

namespace FourGL

namespace Rule

/-! ## Parts -/

/-- Whether the rule is written out where it stands in a sequence. -/
def isSpliced : Rule → Bool
  | .empty | .seq _ => true
  | _ => false

/-- Whether the rule is a literal or a name. -/
def isAtom : Rule → Bool
  | .keyword _ | .symbol _ | .ref _ => true
  | _ => false

/-- The parts of a rule that stands in a sequence: itself and those inside, or only these if it is
written out. -/
def spliced (r : Rule) (inner : List Rule) : List Rule := if r.isSpliced then inner else r :: inner

mutual

/-- The parts inside a rule. -/
def inner : Rule → List Rule
  | .empty | .keyword _ | .symbol _ | .ref _ => []
  | .seq items | .alt items => innerEach items
  | .opt item => item.spliced item.inner
  | .star item | .plus item => item :: item.inner
  | .plusSep item separator => item :: item.inner ++ separator :: separator.inner
  | .starSep item separator =>
    .plusSep item separator :: (item :: item.inner ++ separator :: separator.inner)

/-- The parts of the items of a sequence. -/
def innerEach : List Rule → List Rule
  | [] => []
  | r :: rs => r.spliced r.inner ++ innerEach rs

end

/-- The parts of a rule that has been declared. A choice, a sequence or a repetition is not among
them, since the rule's own nonterminal stands for it. -/
def parts (r : Rule) : List Rule :=
  match r with
  | .keyword _ | .symbol _ | .ref _ | .opt _ => r :: r.inner
  | _ => r.inner

variable {r p q : Rule} {items : List Rule} {l : List Rule}

theorem mem_spliced : p ∈ r.spliced l ↔ r.isSpliced = false ∧ p = r ∨ p ∈ l := by
  cases h : r.isSpliced <;> simp [spliced, h]

theorem spliced_subset : r.spliced l ⊆ r :: l := by
  intro p hp
  rcases mem_spliced.mp hp with ⟨-, rfl⟩ | hp
  · exact List.mem_cons_self
  · exact List.mem_cons_of_mem _ hp

theorem subset_spliced : l ⊆ r.spliced l := fun _ hp => mem_spliced.mpr (Or.inr hp)

theorem mem_innerEach : p ∈ innerEach items ↔ ∃ r ∈ items, p ∈ r.spliced r.inner := by
  induction items with
  | nil => simp [innerEach]
  | cons r rs ih => simp [innerEach, ih]

theorem inner_subset_parts : r.inner ⊆ r.parts := by
  intro p hp
  cases r <;> first | exact hp | exact List.mem_cons_of_mem _ hp

/-- What is inside something that a rule has inside, or inside the rule itself, is inside the rule. -/
theorem subset_of_mem_cons {f : Rule → List Rule} (ih : ∀ p ∈ f r, f p ⊆ f r) (h : p ∈ r :: f r) :
    f p ⊆ f r := by
  rcases List.mem_cons.mp h with rfl | h
  · exact List.Subset.refl _
  · exact ih p h

theorem subset_of_mem_separated {f : Rule → List Rule} {item separator : Rule}
    (hitem : ∀ p ∈ f item, f p ⊆ f item) (hseparator : ∀ p ∈ f separator, f p ⊆ f separator)
    (h : p ∈ item :: f item ++ separator :: f separator) :
    f p ⊆ item :: f item ++ separator :: f separator := by
  rcases List.mem_append.mp h with h | h
  · have hp := subset_of_mem_cons hitem h
    exact List.subset_append_of_subset_left _ (List.subset_cons_of_subset _ hp)
  · have hp := subset_of_mem_cons hseparator h
    exact List.subset_append_of_subset_right _ (List.subset_cons_of_subset _ hp)

mutual

theorem inner_subset : ∀ r : Rule, ∀ p ∈ r.inner, p.inner ⊆ r.inner
  | .empty, _, h | .keyword _, _, h | .symbol _, _, h | .ref _, _, h => by simp [inner] at h
  | .seq items, p, h | .alt items, p, h => innerEach_subset items p h
  | .opt item, p, h => by
    have hp := subset_of_mem_cons (inner_subset item) (spliced_subset h)
    exact List.Subset.trans hp subset_spliced
  | .star item, p, h | .plus item, p, h => by
    have hp := subset_of_mem_cons (inner_subset item) h
    exact List.subset_cons_of_subset _ hp
  | .plusSep item separator, _, h =>
    subset_of_mem_separated (inner_subset item) (inner_subset separator) h
  | .starSep item separator, _, h => by
    refine List.subset_cons_of_subset _ ?_
    rcases List.mem_cons.mp h with rfl | h
    · exact List.Subset.refl _
    · exact subset_of_mem_separated (inner_subset item) (inner_subset separator) h

theorem innerEach_subset : ∀ rs : List Rule, ∀ p ∈ innerEach rs, p.inner ⊆ innerEach rs
  | [], _, h => by simp [innerEach] at h
  | r :: rs, p, h => by
    rcases List.mem_append.mp h with h | h
    · have hp := subset_of_mem_cons (inner_subset r) (spliced_subset h)
      exact List.subset_append_of_subset_left _ (List.Subset.trans hp subset_spliced)
    · exact List.subset_append_of_subset_right _ (innerEach_subset rs p h)

end

theorem inner_subset_parts_of_mem (h : p ∈ r.parts) : p.inner ⊆ r.parts := by
  have hp : p ∈ r :: r.inner := by
    cases r <;> first | exact h | exact List.mem_cons_of_mem _ h
  exact List.Subset.trans (subset_of_mem_cons (inner_subset r) hp) inner_subset_parts

/-- There is less inside a part than inside what it belongs to. -/
theorem length_inner_lt_of_cons {m : Nat} (ih : ∀ p ∈ r.inner, p.inner.length < r.inner.length)
    (hr : r.inner.length < m) (h : p ∈ r :: r.inner) : p.inner.length < m := by
  rcases List.mem_cons.mp h with rfl | h
  · exact hr
  · exact (ih p h).trans hr

theorem length_inner_lt_plusSep {item separator : Rule}
    (hitem : ∀ p ∈ item.inner, p.inner.length < item.inner.length)
    (hseparator : ∀ p ∈ separator.inner, p.inner.length < separator.inner.length) :
    ∀ p ∈ (Rule.plusSep item separator).inner,
      p.inner.length < (Rule.plusSep item separator).inner.length := by
  intro p h
  rw [inner, List.length_append, List.length_cons, List.length_cons]
  rcases List.mem_append.mp h with h | h
  · exact length_inner_lt_of_cons hitem (by omega) h
  · exact length_inner_lt_of_cons hseparator (by omega) h

mutual

theorem length_inner_lt : ∀ r : Rule, ∀ p ∈ r.inner, p.inner.length < r.inner.length
  | .empty, _, h | .keyword _, _, h | .symbol _, _, h | .ref _, _, h => by simp [inner] at h
  | .seq items, p, h | .alt items, p, h => length_inner_lt_innerEach items p h
  | .opt item, p, h => length_inner_lt_spliced item p h
  | .star item, p, h | .plus item, p, h =>
    length_inner_lt_of_cons (length_inner_lt item) (Nat.lt_succ_self _) h
  | .plusSep item separator, p, h =>
    length_inner_lt_plusSep (length_inner_lt item) (length_inner_lt separator) p h
  | .starSep item separator, p, h =>
    length_inner_lt_of_cons
      (length_inner_lt_plusSep (length_inner_lt item) (length_inner_lt separator))
      (Nat.lt_succ_self _) h

theorem length_inner_lt_spliced (r : Rule) :
    ∀ p ∈ r.spliced r.inner, p.inner.length < (r.spliced r.inner).length := by
  intro p h
  rcases mem_spliced.mp h with ⟨hspliced, rfl⟩ | h
  · rw [spliced, hspliced, if_neg Bool.false_ne_true, List.length_cons]
    exact Nat.lt_succ_self _
  · have hle : r.inner.length ≤ (r.spliced r.inner).length := by
      rw [spliced]
      split
      · exact Nat.le_refl _
      · exact Nat.le_succ _
    exact (length_inner_lt r p h).trans_le hle

theorem length_inner_lt_innerEach :
    ∀ rs : List Rule, ∀ p ∈ innerEach rs, p.inner.length < (innerEach rs).length
  | [], _, h => by simp [innerEach] at h
  | r :: rs, p, h => by
    rw [innerEach, List.length_append]
    rcases List.mem_append.mp h with h | h
    · exact (length_inner_lt_spliced r p h).trans_le (Nat.le_add_right _ _)
    · exact (length_inner_lt_innerEach rs p h).trans_le (Nat.le_add_left _ _)

end

/-! ## Names -/

variable {name : String}

theorem ref_mem_cons_inner : Rule.ref name ∈ r :: r.inner ↔ .ref name ∈ r.spliced r.inner := by
  rw [mem_spliced, List.mem_cons]
  refine or_congr_left ⟨fun h => ⟨?_, h⟩, fun h => h.2⟩
  rw [← h]
  rfl

mutual

/-- The names among the parts are those that are mentioned. -/
theorem ref_mem_spliced : ∀ r : Rule, .ref name ∈ r.spliced r.inner ↔ .ref name ∈ r.mentions
  | .empty | .keyword _ | .symbol _ => by simp [spliced, isSpliced, inner, mentions]
  | .ref _ => by simp [spliced, isSpliced, inner, mentions]
  | .seq items => ref_mem_innerEach items
  | .alt items => by
    rw [mem_spliced, mentions, ← ref_mem_innerEach items]
    simp [inner]
  | .opt item => by
    rw [mem_spliced, mentions, ← ref_mem_spliced item]
    simp [inner]
  | .star item | .plus item => by
    rw [mem_spliced, mentions, ← ref_mem_spliced item, ← ref_mem_cons_inner]
    simp [inner]
  | .plusSep item separator | .starSep item separator => by
    rw [mem_spliced, mentions, List.mem_append, ← ref_mem_spliced item, ← ref_mem_spliced separator,
      ← ref_mem_cons_inner, ← ref_mem_cons_inner]
    simp [inner, or_assoc]

theorem ref_mem_innerEach :
    ∀ rs : List Rule, .ref name ∈ innerEach rs ↔ .ref name ∈ mentionsOfAll rs
  | [] => by simp [innerEach, mentionsOfAll]
  | r :: rs => by
    rw [innerEach, mentionsOfAll, List.mem_append, List.mem_append, ref_mem_spliced r,
      ref_mem_innerEach rs]

end

/-- The names that a declared rule refers to are parts of it. -/
theorem ref_mem_parts : .ref name ∈ r.parts ↔ name ∈ r.references := by
  have hparts : .ref name ∈ r.parts ↔ .ref name ∈ r.spliced r.inner := by
    cases r <;> simp [parts, spliced, isSpliced]
  have hreferences : name ∈ r.references ↔ .ref name ∈ r.mentions := by
    rw [references, List.mem_filterMap]
    constructor
    · rintro ⟨m, hm, heq⟩
      cases m with
      | keyword | symbol => cases heq
      | ref name' =>
        cases heq
        exact hm
    · exact fun h => ⟨_, h, rfl⟩
  rw [hparts, hreferences, ref_mem_spliced]

/-! ## All that a rule consists of -/

mutual

/-- What a rule consists of, itself apart. A separated repetition of any number consists of one of at
least one item. -/
def within : Rule → List Rule
  | .empty | .keyword _ | .symbol _ | .ref _ => []
  | .seq items | .alt items => withinEach items
  | .opt item | .star item | .plus item => item :: item.within
  | .plusSep item separator => item :: item.within ++ separator :: separator.within
  | .starSep item separator =>
    .plusSep item separator :: (item :: item.within ++ separator :: separator.within)

/-- The rules and what they consist of. -/
def withinEach : List Rule → List Rule
  | [] => []
  | r :: rs => r :: r.within ++ withinEach rs

end

/-- A rule and all that it consists of. -/
def subrules (r : Rule) : List Rule := r :: r.within

theorem spliced_inner_subset (h : r.inner ⊆ r.within) : r.spliced r.inner ⊆ r :: r.within :=
  List.Subset.trans spliced_subset (List.cons_subset_cons _ h)

mutual

theorem inner_subset_within : ∀ r : Rule, r.inner ⊆ r.within
  | .empty | .keyword _ | .symbol _ | .ref _ => List.Subset.refl _
  | .seq items | .alt items => innerEach_subset_withinEach items
  | .opt item => spliced_inner_subset (inner_subset_within item)
  | .star item | .plus item => List.cons_subset_cons _ (inner_subset_within item)
  | .plusSep item separator => by
    refine List.append_subset.mpr ⟨List.subset_append_of_subset_left _ ?_,
      List.subset_append_of_subset_right _ ?_⟩
    · exact List.cons_subset_cons _ (inner_subset_within item)
    · exact List.cons_subset_cons _ (inner_subset_within separator)
  | .starSep item separator => by
    refine List.cons_subset_cons _ (List.append_subset.mpr
      ⟨List.subset_append_of_subset_left _ ?_, List.subset_append_of_subset_right _ ?_⟩)
    · exact List.cons_subset_cons _ (inner_subset_within item)
    · exact List.cons_subset_cons _ (inner_subset_within separator)

theorem innerEach_subset_withinEach : ∀ rs : List Rule, innerEach rs ⊆ withinEach rs
  | [] => List.Subset.refl _
  | r :: rs => by
    refine List.append_subset.mpr ⟨List.subset_append_of_subset_left _ ?_,
      List.subset_append_of_subset_right _ (innerEach_subset_withinEach rs)⟩
    exact spliced_inner_subset (inner_subset_within r)

end

mutual

theorem within_subset : ∀ r : Rule, ∀ p ∈ r.within, p.within ⊆ r.within
  | .empty, _, h | .keyword _, _, h | .symbol _, _, h | .ref _, _, h => by simp [within] at h
  | .seq items, p, h | .alt items, p, h => withinEach_subset items p h
  | .opt item, _, h | .star item, _, h | .plus item, _, h =>
    List.subset_cons_of_subset _ (subset_of_mem_cons (within_subset item) h)
  | .plusSep item separator, _, h =>
    subset_of_mem_separated (within_subset item) (within_subset separator) h
  | .starSep item separator, _, h => by
    refine List.subset_cons_of_subset _ ?_
    rcases List.mem_cons.mp h with rfl | h
    · exact List.Subset.refl _
    · exact subset_of_mem_separated (within_subset item) (within_subset separator) h

theorem withinEach_subset : ∀ rs : List Rule, ∀ p ∈ withinEach rs, p.within ⊆ withinEach rs
  | [], _, h => by simp [withinEach] at h
  | r :: rs, p, h => by
    rcases List.mem_append.mp h with h | h
    · exact List.subset_append_of_subset_left _
        (List.subset_cons_of_subset _ (subset_of_mem_cons (within_subset r) h))
    · exact List.subset_append_of_subset_right _ (withinEach_subset rs p h)

end

/-- What a sub-rule consists of is among all that the rule consists of. -/
theorem within_subset_subrules (h : p ∈ r.subrules) : p.within ⊆ r.subrules :=
  List.subset_cons_of_subset _ (subset_of_mem_cons (within_subset r) h)

theorem subset_withinEach (items : List Rule) : items ⊆ withinEach items := by
  induction items with
  | nil => exact List.nil_subset _
  | cons r rs ih =>
    exact List.cons_subset.mpr ⟨List.mem_cons_self, List.subset_append_of_subset_right _ ih⟩

/-- Parts are among all that a rule consists of. -/
theorem parts_subset_subrules : r.parts ⊆ r.subrules := by
  have hinner : r.inner ⊆ r.subrules :=
    List.Subset.trans (inner_subset_within r) (List.subset_cons_self _ _)
  cases r with
  | keyword | symbol | ref | opt =>
    exact List.cons_subset.mpr ⟨List.mem_cons_self, hinner⟩
  | empty | seq | alt | star | plus | starSep | plusSep => exact hinner

section

variable {P : Rule → Prop}

/-- What holds of the empty rule, and of sequences of what it holds of. -/
structure Sequential (P : Rule → Prop) : Prop where
  empty : P .empty
  seq : ∀ items, (∀ r ∈ items, P r) → P (.seq items)

theorem forall_mem_cons_of {l' : List Rule} (h : (∀ p ∈ l, P p) → ∀ p ∈ l', P p)
    (hr : ∀ p ∈ r :: l, P p) : ∀ p ∈ r :: l', P p := by
  obtain ⟨hfirst, hrest⟩ := List.forall_mem_cons.mp hr
  exact List.forall_mem_cons.mpr ⟨hfirst, h hrest⟩

mutual

theorem Sequential.of_spliced (hP : Sequential P) :
    ∀ r : Rule, (∀ p ∈ r.spliced r.inner, P p) → P r
  | .empty, _ => hP.empty
  | .seq items, h => hP.seq items (hP.of_innerEach items h)
  | .keyword _, h | .symbol _, h | .ref _, h | .alt _, h | .opt _, h | .star _, h | .plus _, h
  | .starSep _ _, h | .plusSep _ _, h => h _ List.mem_cons_self

theorem Sequential.of_innerEach (hP : Sequential P) :
    ∀ rs : List Rule, (∀ p ∈ innerEach rs, P p) → ∀ r ∈ rs, P r
  | [], _ => by simp
  | r :: rs, h => by
    obtain ⟨hr, hrs⟩ := List.forall_mem_append.mp h
    exact List.forall_mem_cons.mpr ⟨hP.of_spliced r hr, hP.of_innerEach rs hrs⟩

end

mutual

/-- What holds of the parts inside a rule holds of all that it consists of. -/
theorem Sequential.of_mem_within (hP : Sequential P) :
    ∀ r : Rule, (∀ p ∈ r.inner, P p) → ∀ p ∈ r.within, P p
  | .empty, _ | .keyword _, _ | .symbol _, _ | .ref _, _ => by simp [within]
  | .seq items, h | .alt items, h => hP.of_mem_withinEach items h
  | .opt item, h => by
    have hitem := hP.of_mem_within item fun p hp => h p (subset_spliced hp)
    exact List.forall_mem_cons.mpr ⟨hP.of_spliced item h, hitem⟩
  | .star item, h | .plus item, h => forall_mem_cons_of (hP.of_mem_within item) h
  | .plusSep item separator, h => by
    obtain ⟨hitem, hseparator⟩ := List.forall_mem_append.mp h
    exact List.forall_mem_append.mpr ⟨forall_mem_cons_of (hP.of_mem_within item) hitem,
      forall_mem_cons_of (hP.of_mem_within separator) hseparator⟩
  | .starSep item separator, h => by
    obtain ⟨hlist, h⟩ := List.forall_mem_cons.mp h
    obtain ⟨hitem, hseparator⟩ := List.forall_mem_append.mp h
    exact List.forall_mem_cons.mpr ⟨hlist, List.forall_mem_append.mpr
      ⟨forall_mem_cons_of (hP.of_mem_within item) hitem,
        forall_mem_cons_of (hP.of_mem_within separator) hseparator⟩⟩

theorem Sequential.of_mem_withinEach (hP : Sequential P) :
    ∀ rs : List Rule, (∀ p ∈ innerEach rs, P p) → ∀ p ∈ withinEach rs, P p
  | [], _ => by simp [withinEach]
  | r :: rs, h => by
    obtain ⟨hr, hrs⟩ := List.forall_mem_append.mp h
    have hwithin := hP.of_mem_within r fun p hp => hr p (subset_spliced hp)
    exact List.forall_mem_append.mpr ⟨List.forall_mem_cons.mpr ⟨hP.of_spliced r hr, hwithin⟩,
      hP.of_mem_withinEach rs hrs⟩

end

end

/-! ## What parts look like -/

/-- The rule is a sequence of a single part, or of a sequence that wraps it. -/
inductive Wraps : Rule → Rule → Prop
  | item {item : Rule} : item.isSpliced = false → item.isCompound = false → Wraps (.seq [item]) item
  | seq {item part : Rule} : Wraps item part → Wraps (.seq [item]) part

theorem render_seq_singleton (item : Rule) :
    (Rule.seq [item]).render = item.operand item.render := by
  simp [render, renderOperands]

theorem Wraps.isCompound (h : Wraps r p) : r.isCompound = false := by
  cases h <;> rfl

theorem Wraps.mem_inner (h : Wraps r p) : p ∈ r.inner := by
  induction h with
  | item hspliced _ => exact List.mem_append_left _ (mem_spliced.mpr (Or.inl ⟨hspliced, rfl⟩))
  | seq _ ih => exact List.mem_append_left _ (subset_spliced ih)

/-- A wrapper looks like what it wraps. -/
theorem Wraps.render_eq (h : Wraps r p) : r.render = p.render := by
  induction h with
  | item _ hc => rw [render_seq_singleton, operand, hc, if_neg Bool.false_ne_true]
  | seq h ih => rw [render_seq_singleton, operand, h.isCompound, if_neg Bool.false_ne_true, ih]

theorem length_operand (r : Rule) (text : String) :
    (r.operand text).length = text.length + if r.isCompound then 2 else 0 := by
  cases h : r.isCompound
  · simp [operand, h]
  · rw [operand, h, if_pos rfl, if_pos rfl, String.length_append, String.length_append]
    show 1 + text.length + 1 = text.length + 2
    omega

theorem length_le_operand (r : Rule) (text : String) : text.length ≤ (r.operand text).length := by
  rw [length_operand]
  exact Nat.le_add_right _ _

theorem length_le_intercalate {s t : String} {ts : List String} (h : t ∈ ts) :
    t.length ≤ (s.intercalate ts).length := by
  induction ts with
  | nil => cases h
  | cons u us ih =>
    cases us with
    | nil => simp_all
    | cons v vs =>
      rw [String.intercalate_cons_cons, String.length_append, String.length_append]
      rcases List.mem_cons.mp h with rfl | h
      · omega
      · have := ih h
        omega

/-- A text is shorter than several put together with blanks. -/
theorem length_lt_intercalate {t u v : String} {ts : List String} (h : t ∈ u :: v :: ts) :
    t.length < (" ".intercalate (u :: v :: ts)).length := by
  rw [String.intercalate_cons_cons, String.length_append, String.length_append]
  have hblank : " ".length = 1 := rfl
  rcases List.mem_cons.mp h with rfl | h
  · omega
  · have : t.length ≤ (" ".intercalate (v :: ts)).length := length_le_intercalate h
    omega

theorem mem_renderOperands (h : r ∈ items) : r.operand r.render ∈ renderOperands items := by
  induction items with
  | nil => cases h
  | cons q qs ih =>
    rcases List.mem_cons.mp h with rfl | h
    · exact List.mem_cons_self
    · exact List.mem_cons_of_mem _ (ih h)

theorem mem_renderEach (h : r ∈ items) : r.render ∈ renderEach items := by
  induction items with
  | nil => cases h
  | cons q qs ih =>
    rcases List.mem_cons.mp h with rfl | h
    · exact List.mem_cons_self
    · exact List.mem_cons_of_mem _ (ih h)

/-- What stands in a sequence looks no longer than the sequence. -/
theorem length_render_le_seq (h : r ∈ items) : r.render.length ≤ (Rule.seq items).render.length :=
  (length_le_operand r _).trans (length_le_intercalate (mem_renderOperands h))

theorem length_render_lt_alt (h : r ∈ items) : r.render.length < (Rule.alt items).render.length := by
  have hle : r.render.length ≤ (" | ".intercalate (renderEach items)).length :=
    length_le_intercalate (mem_renderEach h)
  rw [render, String.length_append, String.length_append]
  have hopen : "(".length = 1 := rfl
  omega

theorem length_render_lt_postfix (item : Rule) {text : String} (h : 0 < text.length) :
    item.render.length < (item.operand item.render ++ text).length := by
  have := length_le_operand item item.render
  rw [String.length_append]
  omega

theorem length_renderSeparated (s t : String) :
    (renderSeparated s t).length = s.length + s.length + t.length + 5 := by
  simp only [renderSeparated, String.length_append]
  show s.length + 2 + t.length + 1 + s.length + 2 = _
  omega

/-- The items of a separated repetition look shorter, and so does the separator. -/
theorem length_render_lt_plusSep (item separator : Rule) :
    item.render.length < (Rule.plusSep item separator).render.length ∧
      separator.render.length < (Rule.plusSep item separator).render.length := by
  have := length_le_operand item item.render
  rw [render, length_renderSeparated]
  omega

theorem length_render_plusSep_lt (item separator : Rule) :
    (Rule.plusSep item separator).render.length < (Rule.starSep item separator).render.length := by
  rw [render, render, String.length_append, String.length_append]
  have hopen : "(".length = 1 := rfl
  omega

/-- Inside what looks shorter, all looks shorter. -/
theorem length_lt_of_cons {n : Nat} (ih : ∀ p ∈ r.inner, p.render.length < r.render.length ∨ r.Wraps p)
    (hr : r.render.length < n) (h : p ∈ r :: r.inner) : p.render.length < n := by
  rcases List.mem_cons.mp h with rfl | h
  · exact hr
  · rcases ih p h with hlt | hwraps
    · exact hlt.trans hr
    · rwa [← hwraps.render_eq]

mutual

/-- **The look of parts.** What is inside a part looks shorter, or is wrapped by it. -/
theorem length_render_lt_of_mem_inner : ∀ r : Rule, ∀ p ∈ r.inner,
    p.render.length < r.render.length ∨ r.Wraps p
  | .empty, _, h | .keyword _, _, h | .symbol _, _, h | .ref _, _, h => by simp [inner] at h
  | .seq [], _, h => by simp [inner, innerEach] at h
  | .seq [item], p, h => by
    have hitem := length_render_lt_of_mem_inner item
    have hp : p ∈ item.spliced item.inner := by simpa [inner, innerEach] using h
    have hle : item.render.length ≤ (Rule.seq [item]).render.length :=
      length_render_le_seq List.mem_cons_self
    rcases mem_spliced.mp hp with ⟨hspliced, rfl⟩ | hp
    · cases hc : p.isCompound
      · exact Or.inr (.item hspliced hc)
      · refine Or.inl ?_
        rw [render_seq_singleton, length_operand, hc, if_pos rfl]
        omega
    · rcases hitem p hp with hlt | hwraps
      · exact Or.inl (hlt.trans_le hle)
      · exact Or.inr (.seq hwraps)
  | .seq (q :: q' :: qs), p, h => by
    obtain ⟨item, hmem, hp⟩ := mem_length_of_mem_innerEach (q :: q' :: qs) p h
    refine Or.inl (hp.trans_lt ?_)
    exact (length_le_operand item _).trans_lt (length_lt_intercalate (mem_renderOperands hmem))
  | .alt items, p, h => by
    obtain ⟨item, hmem, hp⟩ := mem_length_of_mem_innerEach items p h
    exact Or.inl (hp.trans_lt (length_render_lt_alt hmem))
  | .opt item, p, h => by
    refine Or.inl (length_lt_of_cons (length_render_lt_of_mem_inner item) ?_ (spliced_subset h))
    exact length_render_lt_postfix item (by decide)
  | .star item, p, h => by
    refine Or.inl (length_lt_of_cons (length_render_lt_of_mem_inner item) ?_ h)
    exact length_render_lt_postfix item (by decide)
  | .plus item, p, h => by
    refine Or.inl (length_lt_of_cons (length_render_lt_of_mem_inner item) ?_ h)
    exact length_render_lt_postfix item (by decide)
  | .plusSep item separator, p, h => by
    obtain ⟨hitem, hseparator⟩ := length_render_lt_plusSep item separator
    rcases List.mem_append.mp h with h | h
    · exact Or.inl (length_lt_of_cons (length_render_lt_of_mem_inner item) hitem h)
    · exact Or.inl (length_lt_of_cons (length_render_lt_of_mem_inner separator) hseparator h)
  | .starSep item separator, p, h => by
    obtain ⟨hitem, hseparator⟩ := length_render_lt_plusSep item separator
    have hlist := length_render_plusSep_lt item separator
    rcases List.mem_cons.mp h with rfl | h
    · exact Or.inl hlist
    · rcases List.mem_append.mp h with h | h
      · exact Or.inl
          (length_lt_of_cons (length_render_lt_of_mem_inner item) (hitem.trans hlist) h)
      · exact Or.inl
          (length_lt_of_cons (length_render_lt_of_mem_inner separator) (hseparator.trans hlist) h)

theorem mem_length_of_mem_innerEach : ∀ rs : List Rule, ∀ p ∈ innerEach rs,
    ∃ r ∈ rs, p.render.length ≤ r.render.length
  | [], _, h => by simp [innerEach] at h
  | r :: rs, p, h => by
    rcases List.mem_append.mp h with h | h
    · have hp : p.render.length < r.render.length + 1 :=
        length_lt_of_cons (length_render_lt_of_mem_inner r) (Nat.lt_succ_self _) (spliced_subset h)
      exact ⟨r, List.mem_cons_self, Nat.le_of_lt_succ hp⟩
    · obtain ⟨q, hq, hle⟩ := mem_length_of_mem_innerEach rs p h
      exact ⟨q, List.mem_cons_of_mem _ hq, hle⟩

end

/-! ## Parts that are alike -/

mutual

/-- The rules differ at most in the case of keywords, where it does not matter. -/
inductive Alike (v : Vocabulary) : Rule → Rule → Prop
  | empty : Alike v .empty .empty
  | keyword {text text' : String} : v.keywordKey text = v.keywordKey text' →
      Text.uppercase text = Text.uppercase text' → Alike v (.keyword text) (.keyword text')
  | symbol (text : String) : Alike v (.symbol text) (.symbol text)
  | ref (name : String) : Alike v (.ref name) (.ref name)
  | seq {items items' : List Rule} : AlikeEach v items items' → Alike v (.seq items) (.seq items')
  | alt {items items' : List Rule} : AlikeEach v items items' → Alike v (.alt items) (.alt items')
  | opt {item item' : Rule} : Alike v item item' → Alike v (.opt item) (.opt item')
  | star {item item' : Rule} : Alike v item item' → Alike v (.star item) (.star item')
  | plus {item item' : Rule} : Alike v item item' → Alike v (.plus item) (.plus item')
  | starSep {item item' separator separator' : Rule} : Alike v item item' →
      Alike v separator separator' → Alike v (.starSep item separator) (.starSep item' separator')
  | plusSep {item item' separator separator' : Rule} : Alike v item item' →
      Alike v separator separator' → Alike v (.plusSep item separator) (.plusSep item' separator')

/-- The rules are alike in their order. -/
inductive AlikeEach (v : Vocabulary) : List Rule → List Rule → Prop
  | nil : AlikeEach v [] []
  | cons {p q : Rule} {ps qs : List Rule} : Alike v p q → AlikeEach v ps qs →
      AlikeEach v (p :: ps) (q :: qs)

end

variable {v : Vocabulary}

theorem AlikeEach.length_eq {ps qs : List Rule} (h : AlikeEach v ps qs) : ps.length = qs.length := by
  induction ps generalizing qs with
  | nil =>
    cases h
    rfl
  | cons p ps ih =>
    cases h with
    | cons _ h => rw [List.length_cons, List.length_cons, ih h]

theorem Alike.isCompound_eq (h : p.Alike v q) : p.isCompound = q.isCompound := by
  cases h with
  | seq h => simp only [Rule.isCompound, h.length_eq]
  | _ => rfl

theorem Alike.operand_eq (h : p.Alike v q) (hr : p.render = q.render) :
    p.operand p.render = q.operand q.render := by
  rw [operand, operand, h.isCompound_eq, hr]

mutual

/-- **Parts that are alike look the same.** -/
theorem Alike.render_eq : ∀ {p q : Rule}, p.Alike v q → p.render = q.render
  | _, _, .empty => rfl
  | _, _, .keyword _ hlook => hlook
  | _, _, .symbol _ => rfl
  | _, _, .ref _ => rfl
  | _, _, .seq h => by rw [render, render, h.renderOperands_eq]
  | _, _, .alt h => by rw [render, render, h.renderEach_eq]
  | _, _, .opt h => by rw [render, render, h.operand_eq h.render_eq]
  | _, _, .star h => by rw [render, render, h.operand_eq h.render_eq]
  | _, _, .plus h => by rw [render, render, h.operand_eq h.render_eq]
  | _, _, .starSep h h' => by rw [render, render, h.operand_eq h.render_eq, h'.render_eq]
  | _, _, .plusSep h h' => by rw [render, render, h.operand_eq h.render_eq, h'.render_eq]

theorem AlikeEach.renderOperands_eq :
    ∀ {ps qs : List Rule}, AlikeEach v ps qs → renderOperands ps = renderOperands qs
  | _, _, .nil => rfl
  | _, _, .cons h hs => by
    rw [renderOperands, renderOperands, h.operand_eq h.render_eq, hs.renderOperands_eq]

theorem AlikeEach.renderEach_eq :
    ∀ {ps qs : List Rule}, AlikeEach v ps qs → renderEach ps = renderEach qs
  | _, _, .nil => rfl
  | _, _, .cons h hs => by rw [renderEach, renderEach, h.render_eq, hs.renderEach_eq]

end

theorem Alike.isAtom_eq (h : p.Alike v q) : p.isAtom = q.isAtom := by
  cases h <;> rfl

theorem Alike.isSpliced_eq (h : p.Alike v q) : p.isSpliced = q.isSpliced := by
  cases h <;> rfl

end Rule

end FourGL
