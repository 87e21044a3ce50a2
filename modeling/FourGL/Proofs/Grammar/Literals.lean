import FourGL.Proofs.Grammar.Vocabulary

/-!
# Entering the literals of the rules

Before the rules are lowered, every literal that they mention is entered into the vocabulary.

**Theorem (`entered_of_internRules`).** If no defect is noted on the way, every literal is in the
vocabulary in the end.

A defect that has been noted stays (`defect_internMention`), and a literal that has been entered stays
(`Vocabulary.Grows.entered`). So each mention can be looked at by itself.
-/

namespace FourGL

namespace Vocabulary

variable {v v' v'' : Vocabulary}

/-- A later vocabulary, with all literals of the first. -/
structure Grows (v v' : Vocabulary) : Prop where
  caseSensitive : v'.caseSensitive = v.caseSensitive
  keywords : ∀ (key : String) (t : TerminalId), v.keywords[key]? = some t →
    ∃ t', v'.keywords[key]? = some t'
  symbols : ∀ (key : String) (t : TerminalId), v.symbols[key]? = some t →
    ∃ t', v'.symbols[key]? = some t'

theorem Grows.refl (v : Vocabulary) : v.Grows v :=
  ⟨rfl, fun _ t h => ⟨t, h⟩, fun _ t h => ⟨t, h⟩⟩

theorem Grows.trans (h : v.Grows v') (h' : v'.Grows v'') : v.Grows v'' := by
  refine ⟨h'.caseSensitive.trans h.caseSensitive, fun key t ht => ?_, fun key t ht => ?_⟩
  · obtain ⟨t', ht'⟩ := h.keywords key t ht
    exact h'.keywords key t' ht'
  · obtain ⟨t', ht'⟩ := h.symbols key t ht
    exact h'.symbols key t' ht'

/-- The literal of a mention is in the vocabulary. -/
def Entered (v : Vocabulary) : Rule.Mention → Prop
  | .keyword text => ∃ t, v.keyword? text = some t
  | .symbol text => ∃ t, v.symbol? text = some t
  | .ref _ => True

theorem Grows.entered (h : v.Grows v') {m : Rule.Mention} (hm : v.Entered m) : v'.Entered m := by
  cases m with
  | keyword text =>
    obtain ⟨t, ht⟩ := hm
    have hkey : v'.keywordKey text = v.keywordKey text := by
      rw [keywordKey, keywordKey, h.caseSensitive]
    obtain ⟨t', ht'⟩ := h.keywords _ t ht
    exact ⟨t', by rw [keyword?, hkey, ht']⟩
  | symbol text =>
    obtain ⟨t, ht⟩ := hm
    exact h.symbols text t ht
  | ref name => trivial

/-! ## Operations -/

theorem grows_add (v : Vocabulary) (terminal : Terminal) : v.Grows (v.add terminal).1 := by
  simp only [add]
  split
  · exact .refl v
  · split
    · exact ⟨rfl, fun _ t ht => ⟨t, ht⟩, fun _ t ht => ⟨t, ht⟩⟩
    · exact .refl v

/-- What is entered into a table is in it, and nothing is lost. -/
theorem exists_getElem?_insert (table : Std.TreeMap String TerminalId) (new key : String)
    (t : TerminalId) (h : key = new ∨ ∃ t', table[key]? = some t') :
    ∃ t', (table.insert new t)[key]? = some t' := by
  rw [Std.TreeMap.getElem?_insert]
  split
  · exact ⟨t, rfl⟩
  · next hne =>
    refine h.resolve_left fun heq => hne ?_
    rw [heq]
    exact Std.ReflCmp.compare_self

/-- An attempt that enters the literal of a mention, unless it fails. -/
def Enters (v : Vocabulary) (m : Rule.Mention) (r : Attempt) : Prop :=
  ∀ t, r.2 = .ok t → v.Grows r.1 ∧ r.1.Entered m

theorem enters_internKeyword (v : Vocabulary) (text : String) :
    v.Enters (.keyword text) (v.internKeyword text) := by
  simp only [internKeyword]
  split
  · split
    · next t ht => exact fun _ _ => ⟨.refl v, t, ht⟩
    · have hgrows := grows_add v { name := Text.uppercase text, kind := .keyword, text := some text }
      split
      · next v' t he =>
        rw [he] at hgrows
        refine fun _ _ => ⟨⟨hgrows.caseSensitive, fun key t' ht' => ?_, hgrows.symbols⟩, ?_⟩
        · exact exists_getElem?_insert v'.keywords _ key t (Or.inr (hgrows.keywords key t' ht'))
        · exact exists_getElem?_insert v'.keywords (v'.keywordKey text) _ t (Or.inl rfl)
      · next hfailed => exact fun t ht => (hfailed _ t (Prod.ext rfl ht)).elim
  · exact fun t ht => absurd ht (by simp)

theorem enters_internSymbol (v : Vocabulary) (text : String) :
    v.Enters (.symbol text) (v.internSymbol text) := by
  simp only [internSymbol]
  split
  · next t ht => exact fun _ _ => ⟨.refl v, t, ht⟩
  · split
    · exact fun t ht => absurd ht (by simp)
    · have hgrows := grows_add v { name := text, kind := .symbol, text := some text }
      split
      · next v' t he =>
        rw [he] at hgrows
        refine fun _ _ => ⟨⟨hgrows.caseSensitive, hgrows.keywords, fun key t' ht' => ?_⟩, ?_⟩
        · exact exists_getElem?_insert v'.symbols text key t (Or.inr (hgrows.symbols key t' ht'))
        · exact exists_getElem?_insert v'.symbols text text t (Or.inl rfl)
      · next hfailed => exact fun t ht => (hfailed _ t (Prod.ext rfl ht)).elim

end Vocabulary

namespace Declarations

variable {d d' : Declarations}

/-! ## Defects stay -/

theorem defect_intern (attempt : Vocabulary → Vocabulary.Attempt)
    (h : (d.intern attempt).1.defect = none) :
    d.defect = none ∧ (d.intern attempt).1.vocabulary = (attempt d.vocabulary).1 ∧
      ∃ t, (attempt d.vocabulary).2 = .ok t := by
  simp only [intern] at h ⊢
  split at h
  · next t ht =>
    rw [ht]
    exact ⟨h, rfl, t, rfl⟩
  · next e he =>
    simp only [note, Option.or_eq_none_iff] at h
    exact absurd h.2 (by simp)

/-- A mention entered without a defect. -/
theorem entered_internMention (m : Rule.Mention) (h : (d.internMention m).defect = none) :
    d.defect = none ∧ d.vocabulary.Grows (d.internMention m).vocabulary ∧
      (d.internMention m).vocabulary.Entered m := by
  cases m with
  | keyword text =>
    obtain ⟨hnone, heq, t, ht⟩ := defect_intern (·.internKeyword text) h
    refine ⟨hnone, ?_⟩
    show d.vocabulary.Grows (d.keyword text).vocabulary ∧ _
    rw [internMention, keyword, heq]
    exact d.vocabulary.enters_internKeyword text t ht
  | symbol text =>
    obtain ⟨hnone, heq, t, ht⟩ := defect_intern (·.internSymbol text) h
    refine ⟨hnone, ?_⟩
    rw [internMention, symbol, heq]
    exact d.vocabulary.enters_internSymbol text t ht
  | ref name => exact ⟨h, .refl _, trivial⟩

theorem entered_internMentions (ms : List Rule.Mention)
    (h : (ms.foldl internMention d).defect = none) :
    d.defect = none ∧ d.vocabulary.Grows (ms.foldl internMention d).vocabulary ∧
      ∀ m ∈ ms, (ms.foldl internMention d).vocabulary.Entered m := by
  induction ms generalizing d with
  | nil => exact ⟨h, .refl _, fun _ hm => absurd hm List.not_mem_nil⟩
  | cons m ms ih =>
    obtain ⟨hnone, hgrows, hall⟩ := ih h
    obtain ⟨hnone', hgrows', hm⟩ := entered_internMention m hnone
    refine ⟨hnone', hgrows'.trans hgrows, fun m' hm' => ?_⟩
    rcases List.mem_cons.mp hm' with rfl | hm'
    · exact hgrows.entered hm
    · exact hall m' hm'

/-- **Without a defect, every literal of the rules has been entered.** -/
theorem entered_of_internRules {rules : List RuleDeclaration}
    (h : rules.foldlM internRule d = .ok d') (hnone : d'.defect = none) :
    d.defect = none ∧ d.vocabulary.Grows d'.vocabulary ∧
      ∀ r ∈ rules, ∀ m ∈ r.rule.mentions, d'.vocabulary.Entered m := by
  induction rules generalizing d with
  | nil =>
    cases h
    exact ⟨hnone, .refl _, fun _ hr => absurd hr List.not_mem_nil⟩
  | cons r rules ih =>
    rw [List.foldlM_cons] at h
    cases hr : d.internRule r with
    | error e =>
      rw [hr] at h
      cases h
    | ok d₁ =>
      rw [hr] at h
      obtain ⟨hnone₁, hgrows, hall⟩ := ih h
      simp only [internRule] at hr
      split at hr
      · cases hr
      · cases hr
        obtain ⟨hnone', hgrows', hm⟩ := entered_internMentions r.rule.mentions hnone₁
        refine ⟨hnone', hgrows'.trans hgrows, fun r' hr' m hm' => ?_⟩
        rcases List.mem_cons.mp hr' with rfl | hr'
        · exact hgrows.entered (hm m hm')
        · exact hall r' hr' m hm'

end Declarations

end FourGL
